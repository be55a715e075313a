import AuditLog.Proofs.Dates

/-! The calendar. Days since the start of year 0 and the parts of a date determine each other, so the
parts that come back from their instant unchanged are those of a real date, and only those; and the
instants of real dates come in the order of their parts. -/
namespace AuditLog

namespace Instant

theorem isLeapIff (year : Int) : isLeap year = true ↔ year % 4 = 0 ∧ (year % 100 ≠ 0 ∨ year % 400 = 0) := by
  simp [isLeap]

theorem yearLength (year : Int) :
    daysBeforeYear (year + 1) = daysBeforeYear year + if isLeap year then 366 else 365 := by
  unfold daysBeforeYear
  split
  · rename_i is
    have := (isLeapIff year).mp is
    omega
  · rename_i other
    rw [isLeapIff] at other
    omega

theorem yearsRise {year year' : Int} (up : year ≤ year') : daysBeforeYear year ≤ daysBeforeYear year' := by
  unfold daysBeforeYear
  omega

section
variable {n c q y : Int} (centuries : 0 ≤ c ∧ c ≤ 3) (quads : 0 ≤ q ∧ q ≤ 24) (years : 0 ≤ y ∧ y ≤ 3)
include centuries quads years

theorem cycleDays :
    daysBeforeYear (400 * n + 100 * c + 4 * q + y + 1) = 366 + 146097 * n + 36524 * c + 1461 * q + 365 * y := by
  unfold daysBeforeYear
  omega

theorem cycleLeap : isLeap (400 * n + 100 * c + 4 * q + y + 1) = true ↔ y = 3 ∧ (q ≠ 24 ∨ c = 3) := by
  rw [isLeapIff]
  have hundred : (400 * n + 100 * c + 4 * q + y + 1) % 100 = 0 ↔ y = 3 ∧ q = 24 := by omega
  have cycle : (400 * n + 100 * c + 4 * q + y + 1) % 400 = 0 ↔ y = 3 ∧ q = 24 ∧ c = 3 := by omega
  rw [ne_eq,hundred,cycle]
  omega
end

structure InCycle (days n c q y rest : Int) : Prop where
  year : yearOf days = 400 * n + 100 * c + 4 * q + y + 1
  day : days = 366 + 146097 * n + 36524 * c + 1461 * q + 365 * y + rest
  centuries : 0 ≤ c ∧ c ≤ 3
  quads : 0 ≤ q ∧ q ≤ 24
  years : 0 ≤ y ∧ y ≤ 3
  inside : 0 ≤ rest ∧ (rest < 365 ∨ rest = 365 ∧ y = 3 ∧ (q ≠ 24 ∨ c = 3))

theorem dayInCycle (days : Int) : ∃ n c q y rest, InCycle days n c q y rest := by
  have cycle : days - 366 = 146097 * ((days - 366) / 146097) + (days - 366) % 146097 := by omega
  have inCycle : 0 ≤ (days - 366) % 146097 ∧ (days - 366) % 146097 < 146097 := by omega
  have year := Eq.refl (yearOf days)
  conv at year => rhs; simp only [yearOf]
  generalize (days - 366) / 146097 = n at cycle year
  generalize (days - 366) % 146097 = r at cycle year inCycle
  have century : 0 ≤ min 3 (r / 36524) ∧ min 3 (r / 36524) ≤ 3 := by omega
  have inCentury : 0 ≤ r - min 3 (r / 36524) * 36524 ∧ (r - min 3 (r / 36524) * 36524 < 36524 ∨
      r - min 3 (r / 36524) * 36524 = 36524 ∧ min 3 (r / 36524) = 3) := by omega
  generalize min 3 (r / 36524) = c at century inCentury year
  have quad : r - c * 36524 = 1461 * ((r - c * 36524) / 1461) + (r - c * 36524) % 1461 := by omega
  have inQuad : 0 ≤ (r - c * 36524) % 1461 ∧ (r - c * 36524) % 1461 < 1461 := by omega
  generalize (r - c * 36524) / 1461 = q at quad year
  generalize (r - c * 36524) % 1461 = s at quad inQuad year
  have last : 0 ≤ min 3 (s / 365) ∧ min 3 (s / 365) ≤ 3 ∧ 0 ≤ s - 365 * min 3 (s / 365) ∧
      (s - 365 * min 3 (s / 365) < 365 ∨ s = 1460 ∧ min 3 (s / 365) = 3) := by omega
  generalize min 3 (s / 365) = y at last year
  exact ⟨n,c,q,y,s - 365 * y,year,by omega,century,by omega,by omega,by omega⟩

theorem yearOfBounds (days : Int) :
    daysBeforeYear (yearOf days) ≤ days ∧ days < daysBeforeYear (yearOf days + 1) := by
  obtain ⟨n,c,q,y,rest,year,day,centuries,quads,years,inside⟩ := dayInCycle days
  have first := cycleDays (n := n) centuries quads years
  have leap := cycleLeap (n := n) centuries quads years
  rw [yearLength,year,first]
  generalize isLeap (400 * n + 100 * c + 4 * q + y + 1) = is at leap
  refine ⟨by omega,?_⟩
  cases is with
  | true => simp only [if_true]; omega
  | false =>
      have common : ¬ (y = 3 ∧ (q ≠ 24 ∨ c = 3)) := fun long => Bool.false_ne_true (leap.mpr long)
      simp only [Bool.false_eq_true,if_false]
      omega

theorem yearOfUnique {year days : Int} (begun : daysBeforeYear year ≤ days)
    (going : days < daysBeforeYear (year + 1)) : yearOf days = year := by
  obtain ⟨begun',going'⟩ := yearOfBounds days
  rcases Int.lt_trichotomy (yearOf days) year with before | same | behind
  · have := yearsRise (Int.add_one_le_of_lt before)
    omega
  · exact same
  · have := yearsRise (Int.add_one_le_of_lt behind)
    omega

theorem monthFound {lengths : List Nat} (days : Nat) (inside : days < daysBeforeMonth lengths lengths.length) :
    ∃ length, lengths[(monthAndDay lengths days).1]? = some length ∧ (monthAndDay lengths days).2 < length ∧
      daysBeforeMonth lengths (monthAndDay lengths days).1 + (monthAndDay lengths days).2 = days := by
  induction lengths generalizing days with
  | nil => cases inside
  | cons length rest ih =>
      rw [monthAndDay]
      split
      · rename_i here
        exact ⟨length,rfl,here,by rw [daysBeforeMonth.eq_def]; exact Nat.zero_add _⟩
      · rename_i later
        rw [List.length_cons,daysBeforeMonth] at inside
        obtain ⟨length',is,day,whole⟩ := ih (days - length) (by omega)
        refine ⟨length',is,day,?_⟩
        simp only [daysBeforeMonth]
        omega

theorem monthUnique {lengths : List Nat} {month day length : Nat} (is : lengths[month]? = some length)
    (inside : day < length) : monthAndDay lengths (daysBeforeMonth lengths month + day) = (month,day) := by
  induction lengths generalizing month with
  | nil => cases is
  | cons first rest ih =>
      cases month with
      | zero =>
          cases is
          rw [daysBeforeMonth.eq_def,Nat.zero_add,monthAndDay,if_pos inside]
      | succ month =>
          have other : ¬ first + daysBeforeMonth rest month + day < first := by omega
          have left : first + daysBeforeMonth rest month + day - first = daysBeforeMonth rest month + day := by omega
          rw [daysBeforeMonth,monthAndDay,if_neg other,left,ih is]

theorem yearFilled (year : Int) :
    daysBeforeYear (year + 1) = daysBeforeYear year + daysBeforeMonth (monthLengths (isLeap year)) 12 := by
  rw [yearLength]
  cases isLeap year <;> rfl

theorem monthEnds {lengths : List Nat} {month later length : Nat} (is : lengths[month]? = some length)
    (before : month < later) (within : later ≤ lengths.length) :
    daysBeforeMonth lengths month + length ≤ daysBeforeMonth lengths later := by
  induction lengths generalizing month later with
  | nil => cases is
  | cons first rest ih =>
      cases later with
      | zero => cases before
      | succ later =>
          cases month with
          | zero =>
              cases is
              simp only [daysBeforeMonth]
              omega
          | succ month =>
              have := ih is (Nat.lt_of_succ_lt_succ before) (Nat.le_of_succ_le_succ within)
              simp only [daysBeforeMonth]
              omega

end Instant

/-! ## Real dates -/

def LeapYear (year : Int) : Prop := 4 ∣ year ∧ (100 ∣ year → 400 ∣ year)
instance (year : Int) : Decidable (LeapYear year) := inferInstanceAs (Decidable (4 ∣ year ∧ (100 ∣ year → 400 ∣ year)))

def daysIn (year month : Int) : Nat :=
  if month = 2 then if LeapYear year then 29 else 28
  else if month ∈ [4,6,9,11] then 30 else 31

/-- The date is in the calendar, whatever the year, and the time of day on the clock. -/
structure Civil.Real (c : Civil) : Prop where
  month : 1 ≤ c.month ∧ c.month ≤ 12
  day : 1 ≤ c.day ∧ c.day ≤ daysIn c.year c.month
  hour : 0 ≤ c.hour ∧ c.hour ≤ 23
  minute : 0 ≤ c.minute ∧ c.minute ≤ 59
  second : 0 ≤ c.second ∧ c.second ≤ 59

namespace Instant

theorem leapYearIff (year : Int) : isLeap year = true ↔ LeapYear year := by
  rw [isLeapIff,LeapYear]
  omega

theorem monthListed {month : Int} (year : Int) (is : 1 ≤ month ∧ month ≤ 12) :
    (monthLengths (isLeap year))[(month - 1).toNat]? = some (daysIn year month) := by
  have february : (if isLeap year = true then 29 else 28) = if LeapYear year then 29 else 28 := by
    simp only [leapYearIff]
  obtain rfl | rfl | rfl | rfl | rfl | rfl | rfl | rfl | rfl | rfl | rfl | rfl :
      month = 1 ∨ month = 2 ∨ month = 3 ∨ month = 4 ∨ month = 5 ∨ month = 6 ∨ month = 7 ∨ month = 8 ∨ month = 9 ∨
        month = 10 ∨ month = 11 ∨ month = 12 := by omega
  case inr.inl => exact congrArg some february
  all_goals rfl

theorem monthBounded {year month day : Int} (is : 1 ≤ month ∧ month ≤ 12) (inside : 1 ≤ day ∧ day ≤ daysIn year month) :
    daysBeforeYear year ≤ dayNumber year (month - 1) day ∧ dayNumber year (month - 1) day < daysBeforeYear (year + 1) ∧
      monthAndDay (monthLengths (isLeap year)) (dayNumber year (month - 1) day - daysBeforeYear year).toNat =
        ((month - 1).toNat,(day - 1).toNat) := by
  have listed := monthListed year is
  have short : (day - 1).toNat < daysIn year month := by omega
  have twelve : (month - 1).toNat < 12 := by omega
  have found := monthUnique listed short
  have ends := monthEnds listed twelve (Nat.le_refl _)
  have sameYear : year + (month - 1) / 12 = year := by omega
  have sameMonth : (month - 1) % 12 = month - 1 := by omega
  rw [yearFilled]
  simp only [dayNumber,sameYear,sameMonth]
  refine ⟨by omega,by omega,?_⟩
  rw [← found]
  congr 1
  omega

theorem toCivilParts {i : Instant} {days year : Int} {month day : Nat} (counted : i.seconds / 86400 + epoch = days)
    (begun : yearOf days = year)
    (found : monthAndDay (monthLengths (isLeap year)) (days - daysBeforeYear year).toNat = (month,day)) :
    i.toCivil = ⟨year,month + 1,day + 1,i.seconds % 86400 / 3600,i.seconds % 86400 / 60 % 60,i.seconds % 86400 % 60⟩ := by
  subst counted begun
  simp only [toCivil,found]

theorem toCivilReal (i : Instant) : i.toCivil.Real := by
  generalize counted : i.seconds / 86400 + epoch = days
  generalize begun : yearOf days = year
  obtain ⟨before,behind⟩ := yearOfBounds days
  rw [begun] at before behind
  rw [yearFilled] at behind
  have inside : (days - daysBeforeYear year).toNat < daysBeforeMonth (monthLengths (isLeap year)) 12 := by omega
  obtain ⟨length,is,short,_⟩ := monthFound _ inside
  cases found : monthAndDay (monthLengths (isLeap year)) (days - daysBeforeYear year).toNat with
  | mk month day =>
      rw [found] at is short
      have twelve : month < 12 := (List.getElem?_eq_some_iff.mp is).1
      have bounds : 1 ≤ (month : Int) + 1 ∧ (month : Int) + 1 ≤ 12 := by omega
      have listed := monthListed year bounds
      have same : (month + 1 - 1 : Int).toNat = month := by omega
      rw [same,is] at listed
      cases listed
      rw [toCivilParts counted begun found]
      constructor <;> dsimp only at short ⊢ <;> omega

theorem civilKept {c : Civil} (real : c.Real) : (ofCivil c).toCivil = c := by
  obtain ⟨begun,going,found⟩ := monthBounded real.month real.day
  obtain ⟨month,day,hour,minute,second⟩ := real
  have days : (ofCivil c).seconds / 86400 + epoch = dayNumber c.year (c.month - 1) c.day := by
    simp only [ofCivil]
    omega
  have clock : (ofCivil c).seconds % 86400 = c.hour * 3600 + c.minute * 60 + c.second := by
    simp only [ofCivil]
    omega
  have sameMonth : ((c.month - 1).toNat : Int) + 1 = c.month := by omega
  have sameDay : ((c.day - 1).toNat : Int) + 1 = c.day := by omega
  have sameHour : (c.hour * 3600 + c.minute * 60 + c.second) / 3600 = c.hour := by omega
  have sameMinute : (c.hour * 3600 + c.minute * 60 + c.second) / 60 % 60 = c.minute := by omega
  have sameSecond : (c.hour * 3600 + c.minute * 60 + c.second) % 60 = c.second := by omega
  rw [toCivilParts days (yearOfUnique begun going) found,clock,sameMonth,sameDay,sameHour,sameMinute,sameSecond]

theorem civilReal {c : Civil} : (ofCivil c).toCivil = c ↔ c.Real :=
  ⟨fun same => same ▸ toCivilReal _,civilKept⟩

def Before (c c' : Civil) : Prop :=
  c.year < c'.year ∨ c.year = c'.year ∧ (c.month < c'.month ∨ c.month = c'.month ∧ (c.day < c'.day ∨ c.day = c'.day ∧
    (c.hour < c'.hour ∨ c.hour = c'.hour ∧ (c.minute < c'.minute ∨ c.minute = c'.minute ∧ c.second < c'.second))))

theorem dayBefore {year month day year' month' day' : Int} (is : 1 ≤ month ∧ month ≤ 12)
    (inside : 1 ≤ day ∧ day ≤ daysIn year month) (is' : 1 ≤ month' ∧ month' ≤ 12)
    (inside' : 1 ≤ day' ∧ day' ≤ daysIn year' month')
    (before : year < year' ∨ year = year' ∧ (month < month' ∨ month = month' ∧ day < day')) :
    dayNumber year (month - 1) day < dayNumber year' (month' - 1) day' := by
  rcases before with before | ⟨rfl,before | ⟨rfl,before⟩⟩
  · have going := (monthBounded is inside).2.1
    have begun := (monthBounded is' inside').1
    have := yearsRise (Int.add_one_le_of_lt before)
    omega
  · have later : (month - 1).toNat < (month' - 1).toNat := by omega
    have twelve : (month' - 1).toNat ≤ 12 := by omega
    have ends := monthEnds (monthListed year is) later twelve
    have sameYear : year + (month - 1) / 12 = year := by omega
    have sameYear' : year + (month' - 1) / 12 = year := by omega
    have sameMonth : (month - 1) % 12 = month - 1 := by omega
    have sameMonth' : (month' - 1) % 12 = month' - 1 := by omega
    simp only [dayNumber,sameYear,sameMonth,sameYear',sameMonth']
    omega
  · simp only [dayNumber]
    omega

theorem civilBefore {c c' : Civil} (real : c.Real) (real' : c'.Real) (before : Before c c') :
    (ofCivil c).seconds < (ofCivil c').seconds := by
  have day := @dayBefore c.year c.month c.day c'.year c'.month c'.day real.month real.day real'.month real'.day
  obtain ⟨_,_,hour,minute,second⟩ := real
  obtain ⟨_,_,hour',minute',second'⟩ := real'
  unfold Before at before
  simp only [ofCivil]
  rcases before with before | ⟨sameYear,before | ⟨sameMonth,before | ⟨sameDay,before⟩⟩⟩
  · have := day (.inl before)
    omega
  · have := day (.inr ⟨sameYear,.inl before⟩)
    omega
  · have := day (.inr ⟨sameYear,.inr ⟨sameMonth,before⟩⟩)
    omega
  · rw [sameYear,sameMonth,sameDay]
    omega

end Instant
end AuditLog
