import AuditLog.Decoding

/-! Settings from environment variables. Every variable is optional and all are checked, so one
report names everything that is wrong. -/
namespace AuditLog

inductive Problem where
  | notOneOf (allowed : List Text) (received : Text)
  | notNumber
  | notPositive
  | notWhole
  | belowOne
  | empty
  deriving DecidableEq, Repr

namespace Problem

def code : Problem → Text
  | .notOneOf .. => Text.of "invalid_enum_value"
  | .notNumber => Text.of "invalid_type"
  | .notWhole => Text.of "invalid_type"
  | _ => Text.of "too_small"

def quoted (t : Text) : Text := 0x27 :: t ++ [0x27]

def message : Problem → Text
  | .notOneOf allowed received =>
      Text.of "Invalid enum value. Expected " ++ Text.join (Text.of " | ") (allowed.map quoted) ++
        Text.of ", received " ++ quoted received
  | .notNumber => Text.of "Expected number, received nan"
  | .notPositive => Text.of "Number must be greater than 0"
  | .notWhole => Text.of "Expected integer, received float"
  | .belowOne => Text.of "Number must be greater than or equal to 1"
  | .empty => Text.of "String must contain at least 1 character(s)"

end Problem

structure Issue where
  name : Text
  problem : Problem
  deriving DecidableEq, Repr

structure Settings where
  level : Level
  ceiling : Float
  chunkSize : ChunkSize
  rawEvents : Bool
  recordsField : Text

namespace Settings

def refusal (issues : List Issue) : Text :=
  Text.of "Invalid configuration: " ++
    Text.join (Text.of "; ") (issues.map (fun i => i.name ++ Text.of ": " ++ i.problem.message))

def levels : List Level := [.fatal,.error,.warn,.info,.debug,.trace,.silent]

def oneOf {α : Type} (choices : List (Text × α)) (received : Text) : Except (List Problem) α :=
  match choices.lookup received with
  | some a => .ok a
  | none => .error [.notOneOf (choices.map Prod.fst) received]

def levelOf (t : Text) : Except (List Problem) Level := oneOf (levels.map (fun l => (l.label,l))) t

def flagOf (t : Text) : Except (List Problem) Bool := oneOf [(Text.of "true",true),(Text.of "false",false)] t

def numberOf (t : Text) : Except (List Problem) Float :=
  match Numeral.ofText? t with
  | some n => .ok n.toFloat
  | none => .error [.notNumber]

def ceilingOf (t : Text) : Except (List Problem) Float := do
  let x ← numberOf t
  if 0 < x then .ok x else .error [.notPositive]

def chunkSizeOf (t : Text) : Except (List Problem) ChunkSize := do
  let x ← numberOf t
  match ChunkSize.ofFloat? x with
  | some size => .ok size
  | none =>
      .error ((if (Binary.ofFloat x).whole?.isNone then [.notWhole] else []) ++
        (if x < 1 then [.belowOne] else []))

def recordsFieldOf (t : Text) : Except (List Problem) Text := if t.isEmpty then .error [.empty] else .ok t

def check {α : Type} (environment : Text → Option Text) (name : String) (read : Text → Except (List Problem) α)
    (standard : α) : Except (List Issue) α :=
  match environment (Text.of name) with
  | none => .ok standard
  | some t => (read t).mapError (fun problems => problems.map (fun p => ⟨Text.of name,p⟩))

def variableNames : List String :=
  ["LOG_LEVEL","SUPPORTED_EVENT_VERSION","READ_CHUNK_SIZE","RAW_EVENT_INFO","RECORDS_FIELD"]

def issues {α : Type} : Except (List Issue) α → List Issue
  | .ok _ => []
  | .error found => found

def load (environment : Text → Option Text) : Except (List Issue) Settings :=
  let level := check environment "LOG_LEVEL" levelOf .info
  let ceiling := check environment "SUPPORTED_EVENT_VERSION" ceilingOf Terms.standardCeiling
  let chunkSize := check environment "READ_CHUNK_SIZE" chunkSizeOf ChunkSize.standard
  let rawEvents := check environment "RAW_EVENT_INFO" flagOf false
  let recordsField := check environment "RECORDS_FIELD" recordsFieldOf Terms.standardField
  match level, ceiling, chunkSize, rawEvents, recordsField with
  | .ok level, .ok ceiling, .ok chunkSize, .ok rawEvents, .ok recordsField =>
      .ok ⟨level,ceiling,chunkSize,rawEvents,recordsField⟩
  | level, ceiling, chunkSize, rawEvents, recordsField =>
      .error (issues level ++ issues ceiling ++ issues chunkSize ++ issues rawEvents ++ issues recordsField)

end Settings
end AuditLog
