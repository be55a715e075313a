import AuditLog.Proofs.Clean
import AuditLog.Proofs.Cuts
import AuditLog.Proofs.Members
import AuditLog.Proofs.Modes

/-! Lines read back. A line that the command writes is a clean text that holds one object, and its tokens
tell the place of a record and what was made of the record; what is kept of it as text has the tokens of
the source. -/
namespace AuditLog
open Grammar Reader

namespace Value

mutual
def tokens : Value → List Token
  | .null => [.scalar .null]
  | .flag true => [.scalar .yes]
  | .flag false => [.scalar .no]
  | .text t => [.scalar (.string t)]
  | .time i => [.scalar (.string i.text)]
  | .identifier u => [.scalar (.string u.text)]
  | .list items => .opening .array :: (itemTokens items ++ [.closing .array])
  | .object fields => .opening .object :: (fieldTokens fields ++ [.closing .object])

def itemTokens : List Value → List Token
  | [] => []
  | v :: rest => tokens v ++ itemTokens rest

def fieldTokens : List (Text × Value) → List Token
  | [] => []
  | (name,v) :: rest => .field name :: (tokens v ++ fieldTokens rest)
end

mutual
theorem toJsonTokens : (v : Value) → v.toJson.tokens = v.tokens
  | .null => rfl
  | .flag true => rfl
  | .flag false => rfl
  | .text _ => rfl
  | .time _ => rfl
  | .identifier _ => rfl
  | .list items => by rw [toJson,Json.tokens,tokens,listTokens items]
  | .object fields => by rw [toJson,Json.tokens,tokens,fieldsTokens fields]

theorem listTokens : (items : List Value) → Json.itemTokens (listToJson items) = itemTokens items
  | [] => rfl
  | v :: rest => by rw [listToJson,Json.itemTokens,itemTokens,toJsonTokens v,listTokens rest]

theorem fieldsTokens : (fields : List (Text × Value)) → Json.memberTokens (fieldsToJson fields) = fieldTokens fields
  | [] => rfl
  | (name,v) :: rest => by rw [fieldsToJson,Json.memberTokens,fieldTokens,toJsonTokens v,fieldsTokens rest]
end

end Value

namespace Command
open Trail Decoding

def rawEvent (settings : Settings) (document : Text) (start stop : Nat) : Option Text :=
  if settings.rawEvents then some (document.between start stop) else none

end Command
end AuditLog
