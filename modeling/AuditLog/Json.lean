import AuditLog.Quoted

/-! JSON trees and their compact text. A number keeps its spelling and an object every member
in order, repeated names included, so no document loses anything on the way to a tree. -/
namespace AuditLog

inductive Json where
  | null
  | flag (value : Bool)
  | number (spelling : Text)
  | string (value : Text)
  | array (items : List Json)
  | object (members : List (Text × Json))

namespace Json

def ofNat (n : Nat) : Json := .number (Text.ofNat n)

mutual
def compact : Json → Text
  | .null => Text.of "null"
  | .flag true => Text.of "true"
  | .flag false => Text.of "false"
  | .number spelling => spelling
  | .string value => Quoted.quote value
  | .array items => 0x5B :: compactItems items
  | .object members => 0x7B :: compactMembers members

def compactItems : List Json → Text
  | [] => [0x5D]
  | [item] => compact item ++ [0x5D]
  | item :: rest => compact item ++ 0x2C :: compactItems rest

def compactMembers : List (Text × Json) → Text
  | [] => [0x7D]
  | [(name,value)] => Quoted.quote name ++ 0x3A :: compact value ++ [0x7D]
  | (name,value) :: rest => Quoted.quote name ++ 0x3A :: compact value ++ 0x2C :: compactMembers rest
end

end Json
end AuditLog
