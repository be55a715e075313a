import AuditLog.Place
import AuditLog.Source
import AuditLog.Token

/-! What can go wrong, as causes. `message` holds every wording; a fault that has a place in the
document says so at the end of its message. -/
namespace AuditLog

def tokenLabel : Option Token → Text
  | none => Text.of "null"
  | some token => token.label

inductive Wanted where
  | value
  | fieldName
  | digit
  | colon
  | comma
  deriving DecidableEq, Repr

def Wanted.label : Wanted → Text
  | .value => Text.of "a value"
  | .fieldName => Text.of "a field name"
  | .digit => Text.of "a digit"
  | .colon => Text.of "\":\""
  | .comma => Text.of "\",\""

inductive SyntaxFlaw where
  | expected (wanted : Wanted) (found : Option CodeUnit)
  | trailing
  | control
  | unterminated
  | escape (unit : CodeUnit)
  | hexEscape
  | literal (word : Text)
  | endOfInput
  deriving DecidableEq, Repr

def SyntaxFlaw.message : SyntaxFlaw → Text
  | .expected wanted found =>
      Text.of "Expected " ++ wanted.label ++ Text.of " but found " ++
        (match found with
        | none => Text.of "end of input"
        | some u => Quoted.quote [u])
  | .trailing => Text.of "Unexpected content after the root value"
  | .control => Text.of "Unescaped control character in string"
  | .unterminated => Text.of "Unterminated string"
  | .escape u => Text.of "Invalid escape sequence \\" ++ [u]
  | .hexEscape => Text.of "Invalid unicode escape"
  | .literal word => Text.of "Invalid literal, expected \"" ++ word ++ Text.of "\""
  | .endOfInput => Text.of "Unexpected end of input"

structure Malformed where
  flaw : SyntaxFlaw
  offset : Nat
  deriving DecidableEq, Repr

inductive EnvelopeFlaw where
  | notObject
  | firstField (expected : Text)
  | notArray (field : Text)
  deriving DecidableEq, Repr

def EnvelopeFlaw.message : EnvelopeFlaw → Text
  | .notObject => Text.of "Not a JSON object"
  | .firstField expected =>
      Text.of "Not an audit log: expected \"" ++ expected ++ Text.of "\" as the first field"
  | .notArray field => Text.of "Not an audit log: \"" ++ field ++ Text.of "\" is not an array"

inductive RecordFlaw where
  | notShape (noun : Text)
  | notFieldName
  | notText (field : Option Text)
  | notFlag (field : Option Text)
  | notRecord
  deriving DecidableEq, Repr

def fieldLabel (field : Option Text) : Text := Text.of "Field \"" ++ field.getD [0x3F] ++ Text.of "\""

def RecordFlaw.message : RecordFlaw → Text
  | .notShape noun => Text.of "Not " ++ noun
  | .notFieldName => Text.of "Expected a field name"
  | .notText field => fieldLabel field ++ Text.of " must be a string"
  | .notFlag field => fieldLabel field ++ Text.of " must be a boolean or null"
  | .notRecord => Text.of "Record is not an object"

inductive TimeFlaw where
  | shape
  | calendar
  deriving DecidableEq, Repr

def TimeFlaw.message : TimeFlaw → Text
  | .shape => Text.of "Must match yyyy-MM-ddTHH:mm:ssZ"
  | .calendar => Text.of "Not a valid calendar date and time"

inductive Fault where
  | cursorClosed
  | notBoolean (token : Option Token) (offset : Nat)
  | notContainer (token : Option Token) (offset : Nat)
  | malformed (what : Malformed)
  | envelope (flaw : EnvelopeFlaw) (offset : Nat)
  | record (flaw : RecordFlaw) (offset : Nat)
  | time (text : Text) (flaw : TimeFlaw) (place : Option Place)
  | identifier (text : Option Text) (place : Option Place)
  | trailClosed
  | chunkSize (given : Float)
  | file (flaw : FileFlaw)

namespace Fault

def name : Fault → Text
  | .cursorClosed => Text.of "DecodeError"
  | .notBoolean .. => Text.of "DecodeError"
  | .notContainer .. => Text.of "DecodeError"
  | .malformed _ => Text.of "JsonSyntaxError"
  | .envelope .. => Text.of "MalformedEnvelopeError"
  | .record .. => Text.of "MalformedRecordError"
  | .time .. => Text.of "DateParseError"
  | .identifier .. => Text.of "IdentifierFormatError"
  | .trailClosed => Text.of "SerializerClosedError"
  | .chunkSize _ => Text.of "RangeError"
  | .file (.length _) => Text.of "RangeError"
  | .file _ => Text.of "Error"

def aboutDocument : Fault → Bool
  | .trailClosed => false
  | .chunkSize _ => false
  | .file _ => false
  | _ => true

def place? : Fault → Option Place
  | .notBoolean _ offset => some (.counted offset)
  | .notContainer _ offset => some (.counted offset)
  | .malformed what => some (.counted what.offset)
  | .envelope _ offset => some (.counted offset)
  | .record _ offset => some (.counted offset)
  | .time _ _ place => place
  | .identifier _ place => place
  | _ => none

def wording : Fault → Text
  | .cursorClosed => Text.of "Token cursor is closed"
  | .notBoolean token _ => Text.of "Current token " ++ tokenLabel token ++ Text.of " is not a boolean"
  | .notContainer token _ =>
      Text.of "Current token " ++ tokenLabel token ++ Text.of " does not start a container"
  | .malformed what => what.flaw.message
  | .envelope flaw _ => flaw.message
  | .record flaw _ => flaw.message
  | .time text _ _ => Text.of "Cannot parse \"" ++ text ++ Text.of "\" as an event time"
  | .identifier none _ => Text.of "Missing event identifier"
  | .identifier (some text) _ => Text.of "\"" ++ text ++ Text.of "\" is not a valid UUID"
  | .trailClosed => Text.of "Event serializer is closed"
  | .chunkSize given => Text.of "chunkSize must be a positive integer, got " ++ Decimal.text given
  | .file flaw => flaw.message

def message (fault : Fault) : Text :=
  match fault.place? with
  | none => fault.wording
  | some place => fault.wording ++ Text.of " (at offset " ++ place.text ++ Text.of ")"

end Fault

def ChunkSize.checked (given : Float) : Except Fault ChunkSize :=
  match ofFloat? given with
  | some size => .ok size
  | none => .error (.chunkSize given)

end AuditLog
