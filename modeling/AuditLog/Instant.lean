import AuditLog.Fault

/-! Instants to the second, and the calendar over them. Out-of-range parts of a date roll over
into the next larger ones, so parts are those of a real date just if they come back unchanged. -/
namespace AuditLog

structure Civil where
  year : Int
  month : Int
  day : Int
  hour : Int
  minute : Int
  second : Int
  deriving DecidableEq, Repr

structure Instant where
  seconds : Int
  deriving DecidableEq, Repr

namespace Instant

def isLeap (year : Int) : Bool := year % 4 == 0 && (year % 100 != 0 || year % 400 == 0)

def monthLengths (leap : Bool) : List Nat := [31,if leap then 29 else 28,31,30,31,30,31,31,30,31,30,31]

def daysBeforeYear (year : Int) : Int := 365 * year + (year + 3) / 4 - (year + 99) / 100 + (year + 399) / 400

def daysBeforeMonth : List Nat → Nat → Nat
  | length :: rest, months + 1 => length + daysBeforeMonth rest months
  | _, _ => 0

/-- Days from the start of year 0; `month` counts from zero. -/
def dayNumber (year month day : Int) : Int :=
  let y := year + month / 12
  daysBeforeYear y + daysBeforeMonth (monthLengths (isLeap y)) (month % 12).toNat + (day - 1)

def epoch : Int := dayNumber 1970 0 1

def ofCivil (c : Civil) : Instant :=
  ⟨(dayNumber c.year (c.month - 1) c.day - epoch) * 86400 + c.hour * 3600 + c.minute * 60 + c.second⟩

def yearOf (days : Int) : Int :=
  let d := days - 366
  let inCycle := d % 146097
  let centuries := min 3 (inCycle / 36524)
  let inCentury := inCycle - centuries * 36524
  let inQuad := inCentury % 1461
  let years := min 3 (inQuad / 365)
  400 * (d / 146097) + 100 * centuries + 4 * (inCentury / 1461) + years + 1

def monthAndDay : List Nat → Nat → Nat × Nat
  | [], days => (0,days)
  | length :: rest, days =>
      if days < length then (0,days)
      else ((monthAndDay rest (days - length)).1 + 1,(monthAndDay rest (days - length)).2)

def toCivil (i : Instant) : Civil :=
  let days := i.seconds / 86400 + epoch
  let second := i.seconds % 86400
  let year := yearOf days
  let (month,day) := monthAndDay (monthLengths (isLeap year)) (days - daysBeforeYear year).toNat
  ⟨year,month + 1,day + 1,second / 3600,second / 60 % 60,second % 60⟩

def layout : Text := Text.of "0000-00-00T00:00:00Z"

def hasLayout (t : Text) : Bool := t.map (fun u => if Text.isDigit u then 0x30 else u) == layout

def digitsAt (t : Text) (start length : Nat) : Int :=
  (((t.drop start).take length).foldl (fun n u => 10 * n + (u.toNat - 0x30)) 0 : Nat)

def civilOf (t : Text) : Civil :=
  ⟨digitsAt t 0 4,digitsAt t 5 2,digitsAt t 8 2,digitsAt t 11 2,digitsAt t 14 2,digitsAt t 17 2⟩

def ofText (t : Text) : Except TimeFlaw Instant :=
  if hasLayout t then
    let i := ofCivil (civilOf t)
    if i.toCivil = civilOf t then .ok i else .error .calendar
  else .error .shape

def text (i : Instant) : Text :=
  let c := i.toCivil
  Text.padded 4 c.year.toNat ++ 0x2D :: Text.padded 2 c.month.toNat ++ 0x2D :: Text.padded 2 c.day.toNat ++
    0x54 :: Text.padded 2 c.hour.toNat ++ 0x3A :: Text.padded 2 c.minute.toNat ++
    0x3A :: Text.padded 2 c.second.toNat ++ Text.of ".000Z"

end Instant
end AuditLog
