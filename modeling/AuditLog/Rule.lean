import AuditLog.Reader
import AuditLog.Value

/-! Rules for values: which value a place in a record accepts and what it becomes. One reader
follows every rule. It stands on the first token of the value and leaves the cursor on the last. -/
namespace AuditLog

inductive Rule where
  | anything
  | text
  | flag
  | version (ceiling : Float)
  | time
  | identifier
  | object (noun : Text) (field : Text → Rule)
  | list (noun : Text) (item : Rule)
  | nullable (rule : Rule)

namespace Rule
open Reading Reader

def noun : Rule → Text
  | .object noun _ => noun
  | .list noun _ => noun
  | .nullable rule => rule.noun
  | _ => Wanted.value.label

def looseValue (token : Option Token) : Reader Value :=
  match token with
  | some (.opening _) => Value.text <$> subtree
  | token => pure (Value.ofText? (token.bind Token.leafText?))

def scalarText (token : Option Token) : Reader (Option Text) := do
  match token with
  | some (.scalar .null) => pure none
  | some (.scalar s) => pure (some s.text)
  | _ => do
      let s ← state
      refuse (.notText s.cursor.name)

def flagValue (token : Option Token) : Reader Value := do
  match token with
  | some (.scalar .null) => pure .null
  | some (.scalar .yes) => pure (.flag true)
  | some (.scalar .no) => pure (.flag false)
  | _ => do
      let s ← state
      refuse (.notFlag s.cursor.name)

def timeOf (text : Option Text) (place : Option Place) : Except Fault Value :=
  match text with
  | none => .ok .null
  | some t =>
      match Instant.ofText t with
      | .ok i => .ok (.time i)
      | .error flaw => .error (.time t flaw place)

def identifierOf (text : Text) (place : Option Place) : Except Fault Uuid :=
  match Uuid.ofText? text with
  | some id => .ok id
  | none => .error (.identifier (some text) place)

def identifierValue (text : Option Text) (place : Place) : Except Fault Value :=
  match text with
  | none => .error (.identifier none (some place))
  | some t => (identifierOf t (some place)).map .identifier

def lift {α : Type} : Except Fault α → Reader α
  | .ok a => pure a
  | .error fault => fail fault

def fieldStep (field : Text → Option Token → Reader Value) (fields : Fields) (token : Token) :
    Reader (Fields ⊕ Fields) :=
  match token with
  | .closing .object => pure (.inr fields)
  | .field name => do
      let v ← field name (← next)
      pure (.inl (fields.put name v))
  | _ => refuse .notFieldName

def itemStep (item : Option Token → Reader Value) (items : List Value) (token : Token) :
    Reader (List Value ⊕ List Value) :=
  match token with
  | .closing .array => pure (.inr items.reverse)
  | token => do
      let v ← item (some token)
      pure (.inl (v :: items))

def read : Rule → Option Token → Reader Value
  | .anything, token => looseValue token
  | .text, token => Value.ofText? <$> scalarText token
  | .flag, token => flagValue token
  | .version ceiling, token => do
      let version ← scalarText token
      noteAny (version.bind (Notice.ofVersion? ceiling))
      pure (Value.ofText? version)
  | .time, token => do
      let text ← scalarText token
      let s ← state
      lift (timeOf text (some (.counted s.cursor.start)))
  | .identifier, token => do
      let text ← scalarText token
      let s ← state
      lift (identifierValue text (.counted s.cursor.start))
  | .object noun field, token =>
      match token with
      | some (.opening .object) =>
          Value.object <$> loop (fieldStep (fun name => (field name).read)) (fun _ => refuse .notFieldName) []
      | _ => refuse (.notShape noun)
  | .list noun item, token =>
      match token with
      | some (.opening .array) =>
          Value.list <$> loop (itemStep item.read) (fun _ => refuse (.notShape item.noun)) []
      | _ => refuse (.notShape noun)
  | .nullable rule, token =>
      match token with
      | some (.scalar .null) => pure .null
      | token => rule.read token

def readNext (rule : Rule) : Reader Value := do
  let token ← next
  rule.read token

def readCurrent (rule : Rule) : Reader Value := do
  let s ← state
  rule.read s.cursor.current

end Rule
end AuditLog
