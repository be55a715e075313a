import AuditLog.Decimal
import AuditLog.Json

/-! Places in a document. The reader counts the units before a place. A caller may name one by any
number, which is kept as given and loses its fraction only where text is cut. -/
namespace AuditLog

inductive Place where
  | counted (units : Nat)
  | given (number : Binary)
  deriving DecidableEq, Repr

namespace Place

def text : Place → Text
  | .counted units => Text.ofNat units
  | .given number => Decimal.ofBinary number

def toJson : Place → Json
  | .given .nan => .null
  | .given (.infinite _) => .null
  | place => .number place.text

def boundary (length : Nat) : Place → Nat
  | .counted units => min units length
  | .given .nan => 0
  | .given (.infinite negative) => if negative then 0 else length
  | .given (.finite negative m q) => Text.clamp length (Binary.towardZero negative m q)

def slice (t : Array CodeUnit) (start stop : Place) : Text :=
  (t.extract (start.boundary t.size) (stop.boundary t.size)).toList

end Place
end AuditLog
