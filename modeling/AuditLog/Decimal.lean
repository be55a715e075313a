import AuditLog.Shortest

/-! The text of a number: shortest digits, positional from a millionth up to 21 digits
before the point, with a signed exponent elsewhere. Zero has no sign. -/
namespace AuditLog.Decimal
open Shortest

def zeros (n : Nat) : Text := List.replicate n 0x30

def normal (d : Shortest.Decimal) : Text × Int :=
  let up := Text.digitsUp d.digits
  ((up.dropWhile (· == 0x30)).reverse,up.length + d.exponent)

def scientific (digits : Text) (exponent : Int) : Text :=
  let sign : Text := if exponent < 0 then [0x65,0x2D] else [0x65,0x2B]
  let mantissa : Text := match digits with
    | [] => []
    | [d] => [d]
    | d :: rest => d :: 0x2E :: rest
  mantissa ++ sign ++ Text.ofNat exponent.natAbs

def positional (digits : Text) (point : Int) : Text :=
  if digits.length ≤ point then digits ++ zeros (point.toNat - digits.length)
  else if 0 < point then digits.take point.toNat ++ 0x2E :: digits.drop point.toNat
  else [0x30,0x2E] ++ zeros (-point).toNat ++ digits

def layout (d : Shortest.Decimal) : Text :=
  let (digits,point) := normal d
  if -6 < point ∧ point ≤ 21 then positional digits point else scientific digits (point - 1)

def ofBinary : Binary → Text
  | .nan => Text.of "NaN"
  | .infinite negative => (if negative then [0x2D] else []) ++ Text.of "Infinity"
  | .finite negative m q =>
      if m = 0 then [0x30]
      else (if negative then [0x2D] else []) ++ layout (shortest m q)

def text (x : Float) : Text := ofBinary (Binary.ofFloat x)

end AuditLog.Decimal
