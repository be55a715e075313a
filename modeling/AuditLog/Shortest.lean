import AuditLog.Binary
import AuditLog.Text

/-! Shortest decimals. Every number nearer to `m * 2 ^ q` than to a neighbouring float reads back
as it; of those, the decimal with the fewest digits is taken, and of these the nearest, an even
last digit breaking a tie. All arithmetic is exact. -/
namespace AuditLog.Shortest

structure Decimal where
  digits : Nat
  exponent : Int
  deriving DecidableEq, Repr

def digitCount (n : Nat) : Nat := (Text.digitsUp n).length

/-- Quarters of the unit `2 ^ q`: the numbers from `low` to `high` read back as `middle`,
the two ends only if `closed`. -/
structure Interval where
  low : Nat
  middle : Nat
  high : Nat
  closed : Bool
  deriving DecidableEq, Repr

def interval (m : Nat) (q : Int) : Interval :=
  ⟨if m = Binary.hidden ∧ -1074 < q then 4 * m - 1 else 4 * m - 2,4 * m,4 * m + 2,m % 2 == 0⟩

def magnitude (n d : Nat) : Int :=
  if d ≤ n then digitCount (n / d) else 1 - (digitCount ((d - 1) / n) : Int)

def power (base : Nat) (e : Int) : Nat × Nat :=
  if 0 ≤ e then (Nat.pow base e.toNat,1) else (1,Nat.pow base (-e).toNat)

def inside (i : Interval) (scale grid candidate : Nat) : Bool :=
  if i.closed then i.low * scale ≤ candidate * grid && candidate * grid ≤ i.high * scale
  else i.low * scale < candidate * grid && candidate * grid < i.high * scale

def onGrid (i : Interval) (scale grid : Nat) : Option Nat :=
  let below := i.middle * scale / grid
  let above := below + 1
  match inside i scale grid below, inside i scale grid above with
  | true, true =>
      let twice := 2 * (i.middle * scale)
      let half := (2 * below + 1) * grid
      if twice < half then some below
      else if half < twice then some above
      else if below % 2 = 0 then some below else some above
  | true, false => some below
  | false, true => some above
  | false, false => none

def search (i : Interval) (unit : Nat × Nat) (e : Int) : (spare digits : Nat) → Decimal
  | 0, digits =>
      let ten := power 10 (e - digits)
      ⟨i.middle * unit.1 * ten.2 / (unit.2 * ten.1),e - digits⟩
  | spare + 1, digits =>
      let ten := power 10 (e - digits)
      match onGrid i (unit.1 * ten.2) (unit.2 * ten.1) with
      | some n => ⟨n,e - digits⟩
      | none => search i unit e spare (digits + 1)

def shortest (m : Nat) (q : Int) : Decimal :=
  let unit := power 2 (q - 2)
  let i := interval m q
  search i unit (magnitude (i.middle * unit.1) unit.2) 17 1

end AuditLog.Shortest
