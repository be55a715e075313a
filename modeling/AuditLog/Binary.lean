/-! Floating-point numbers taken apart: sign, integer and power of two. -/
namespace AuditLog

/-- A finite number is `mantissa * 2 ^ exponent`, its sign apart. -/
inductive Binary where
  | nan
  | infinite (negative : Bool)
  | finite (negative : Bool) (mantissa : Nat) (exponent : Int)
  deriving DecidableEq, Repr

namespace Binary

def signUnit : Nat := Nat.pow 2 63

def hidden : Nat := Nat.pow 2 52

def ofBits (bits : Nat) : Binary :=
  let negative := bits / signUnit % 2 == 1
  let exponent := bits / hidden % 2048
  let fraction := bits % hidden
  if exponent = 2047 then (if fraction = 0 then .infinite negative else .nan)
  else if exponent = 0 then .finite negative fraction (-1074)
  else .finite negative (hidden + fraction) ((exponent : Int) - 1075)

def ofFloat (x : Float) : Binary := ofBits x.toBits.toNat

def towardZero (negative : Bool) (m : Nat) (q : Int) : Int :=
  let magnitude := if 0 ≤ q then m * Nat.pow 2 q.toNat else m / Nat.pow 2 (-q).toNat
  if negative then -(magnitude : Int) else magnitude

def whole? : Binary → Option Int
  | .finite negative m q =>
      if 0 ≤ q ∨ m % Nat.pow 2 (-q).toNat = 0 then some (towardZero negative m q) else none
  | _ => none

end Binary
end AuditLog
