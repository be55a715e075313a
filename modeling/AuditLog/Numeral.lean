import AuditLog.Blank
import AuditLog.Shortest

/-! Texts that denote numbers: decimals with an optional sign, fraction and exponent, infinity,
and integers in base 16, 8 and 2, with blanks around them. A blank text denotes zero. -/
namespace AuditLog

inductive Numeral where
  | decimal (negative : Bool) (digits : Nat) (exponent : Int)
  | infinity (negative : Bool)
  | whole (value : Nat)
  deriving DecidableEq, Repr

namespace Numeral

def value (base : Nat) (digits : List Nat) : Nat := digits.foldl (fun n d => base * n + d) 0

def digitBelow? (base : Nat) (u : CodeUnit) : Option Nat :=
  (Text.hexValue? u).filter (· < base)

def whole? (base : Nat) (t : Text) : Option Numeral :=
  if t.isEmpty then none else (t.mapM (digitBelow? base)).map (fun digits => .whole (value base digits))

def digitValues (t : Text) : List Nat := t.map (fun u => u.toNat - 0x30)

def exponent? : Text → Option Int
  | [] => some 0
  | mark :: rest =>
      if mark = 0x65 || mark = 0x45 then
        let (negative,digits) := match rest with
          | 0x2D :: digits => (true,digits)
          | 0x2B :: digits => (false,digits)
          | digits => (false,digits)
        if !digits.isEmpty && digits.all Text.isDigit then
          let n := value 10 (digitValues digits)
          some (if negative then -(n : Int) else n)
        else none
      else none

def decimal? (negative : Bool) (t : Text) : Option Numeral :=
  let whole := t.takeWhile Text.isDigit
  let afterWhole := t.dropWhile Text.isDigit
  let (fraction,tail) := match afterWhole with
    | 0x2E :: rest => (rest.takeWhile Text.isDigit,rest.dropWhile Text.isDigit)
    | rest => ([],rest)
  if whole.isEmpty && fraction.isEmpty then none
  else (exponent? tail).map (fun e =>
    .decimal negative (value 10 (digitValues (whole ++ fraction))) (e - fraction.length))

def unsigned? (negative : Bool) (t : Text) : Option Numeral :=
  if t = Text.of "Infinity" then some (.infinity negative) else decimal? negative t

def ofText? (t : Text) : Option Numeral :=
  match Blank.trim t with
  | [] => some (.decimal false 0 0)
  | 0x30 :: mark :: rest =>
      if mark = 0x78 || mark = 0x58 then whole? 16 rest
      else if mark = 0x6F || mark = 0x4F then whole? 8 rest
      else if mark = 0x62 || mark = 0x42 then whole? 2 rest
      else unsigned? false (0x30 :: mark :: rest)
  | 0x2D :: rest => unsigned? true rest
  | 0x2B :: rest => unsigned? false rest
  | t => unsigned? false t

def magnitude (digits : Nat) (exponent : Int) : Float :=
  let place := Shortest.digitCount digits + exponent
  if digits = 0 ∨ place < -400 then 0
  else if 400 < place then 1.0 / 0.0
  else Float.ofScientific digits (exponent < 0) exponent.natAbs

def toFloat : Numeral → Float
  | .decimal negative digits exponent =>
      if negative then -(magnitude digits exponent) else magnitude digits exponent
  | .infinity negative => if negative then -(1.0 / 0.0) else 1.0 / 0.0
  | .whole n => magnitude n 0

end Numeral
end AuditLog
