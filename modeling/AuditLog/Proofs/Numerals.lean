import AuditLog.Numeral
import AuditLog.Proofs.Numbers
import AuditLog.Proofs.Reference

/-! The grammar of the texts that denote numbers. A decimal numeral is one way to write a number; infinity and the
whole numbers in base 16, 8 and 2 are others, and no text is written both ways. White space may stand around
either. -/
namespace AuditLog

namespace Grammar

def whiteSpace : List CodeUnit :=
  [0x09,0x0A,0x0B,0x0C,0x0D,0x20,0xA0,0x1680,0x2000,0x2001,0x2002,0x2003,0x2004,0x2005,0x2006,0x2007,0x2008,0x2009,
    0x200A,0x2028,0x2029,0x202F,0x205F,0x3000,0xFEFF]

def Padded (core : Text → Prop) (t : Text) : Prop :=
  ∃ before inside behind, t = before ++ inside ++ behind ∧ (∀ u ∈ before, u ∈ whiteSpace) ∧
    (∀ u ∈ behind, u ∈ whiteSpace) ∧ core inside

inductive Mantissa : Text → Prop where
  | whole {ds} (digits : Digits ds) : Mantissa ds
  | ended {ds} (digits : Digits ds) : Mantissa (ds ++ [0x2E])
  | fraction {fs} (digits : Digits fs) : Mantissa (0x2E :: fs)
  | both {ds fs} (before : Digits ds) (behind : Digits fs) : Mantissa (ds ++ 0x2E :: fs)

def Unsigned (t : Text) : Prop := ∃ m e, t = m ++ e ∧ Mantissa m ∧ Exponent e

inductive Signed (core : Text → Prop) : Text → Prop where
  | bare {t} (inside : core t) : Signed core t
  | sign {u t} (either : u = 0x2B ∨ u = 0x2D) (inside : core t) : Signed core (u :: t)

def DecimalNumeral : Text → Prop := Signed Unsigned

def radixes : List (CodeUnit × Nat) := [(0x78,16),(0x58,16),(0x6F,8),(0x4F,8),(0x62,2),(0x42,2)]

inductive Radix : Text → Prop where
  | mk {letter base ds} (stands : (letter,base) ∈ radixes) (any : ds ≠ [])
      (digits : ∀ u ∈ ds, ∃ n, Text.hexValue? u = some n ∧ n < base) : Radix (0x30 :: letter :: ds)

/-- What denotes a number and is no decimal numeral. -/
def OtherNumeral (t : Text) : Prop := Signed (· = Text.of "Infinity") t ∨ Radix t

section
variable {core : Text → Prop} {u : CodeUnit} {t : Text}

theorem signedSign (either : u = 0x2B ∨ u = 0x2D) (bare : ¬ core (u :: t)) : Signed core (u :: t) ↔ core t := by
  constructor
  · intro signed
    cases signed with
    | bare inside => exact absurd inside bare
    | sign _ inside => exact inside
  · exact .sign either

theorem signedBare (noPlus : ∀ r, t ≠ 0x2B :: r) (noMinus : ∀ r, t ≠ 0x2D :: r) : Signed core t ↔ core t := by
  constructor
  · intro signed
    cases signed with
    | bare inside => exact inside
    | @sign u r either _ =>
        rcases either with rfl | rfl
        · exact absurd rfl (noPlus r)
        · exact absurd rfl (noMinus r)
  · exact .bare

theorem signedOr {core' : Text → Prop} : Signed (fun t => core t ∨ core' t) t ↔ Signed core t ∨ Signed core' t := by
  constructor
  · intro signed
    cases signed with
    | bare inside => exact inside.imp .bare .bare
    | sign either inside => exact inside.imp (.sign either) (.sign either)
  · intro found
    rcases found with signed | signed
    · cases signed with
      | bare inside => exact .bare (.inl inside)
      | sign either inside => exact .sign either (.inl inside)
    · cases signed with
      | bare inside => exact .bare (.inr inside)
      | sign either inside => exact .sign either (.inr inside)

end

theorem digitsUnsigned {u : CodeUnit} {ds : Text} (either : u = 0x2B ∨ u = 0x2D) : ¬ Digits (u :: ds) := by
  intro digits
  have digit := digits.2 u List.mem_cons_self
  rcases either with rfl | rfl <;> cases digit

theorem mantissaFirst {m : Text} (mantissa : Mantissa m) :
    ∃ u r, m = u :: r ∧ (Text.isDigit u = true ∨ u = 0x2E) := by
  have first {ds : Text} (digits : Digits ds) (r : Text) :
      ∃ u r', ds ++ r = u :: r' ∧ (Text.isDigit u = true ∨ u = 0x2E) := by
    obtain ⟨u,ds,rfl⟩ := List.exists_cons_of_ne_nil digits.1
    exact ⟨u,ds ++ r,rfl,.inl (digits.2 u List.mem_cons_self)⟩
  cases mantissa with
  | whole digits =>
      have one := first digits []
      rwa [List.append_nil] at one
  | ended digits => exact first digits _
  | fraction _ => exact ⟨_,_,rfl,.inr rfl⟩
  | both before _ => exact first before _

theorem unsignedFirst {t : Text} (spelt : Unsigned t) : ∃ u r, t = u :: r ∧ (Text.isDigit u = true ∨ u = 0x2E) := by
  obtain ⟨m,e,rfl,mantissa,_⟩ := spelt
  obtain ⟨u,r,rfl,first⟩ := mantissaFirst mantissa
  exact ⟨u,r ++ e,rfl,first⟩

theorem unsignedOther {u : CodeUnit} {t : Text} (noDigit : Text.isDigit u = false) (noPoint : u ≠ 0x2E) :
    ¬ Unsigned (u :: t) := by
  intro spelt
  obtain ⟨_,_,same,digit | point⟩ := unsignedFirst spelt
  · cases same
    rw [noDigit] at digit
    cases digit
  · cases same
    exact noPoint point

theorem unsignedSign {u : CodeUnit} {t : Text} (either : u = 0x2B ∨ u = 0x2D) : ¬ Unsigned (u :: t) := by
  rcases either with rfl | rfl <;> exact unsignedOther (by decide) (by decide)

theorem infinityFirst : Text.of "Infinity" = 0x49 :: Text.of "nfinity" := by decide

theorem infinityOther {u : CodeUnit} (other : u ≠ 0x49) (t : Text) : u :: t ≠ Text.of "Infinity" := by
  rw [infinityFirst]
  exact fun same => other (List.cons.inj same).1

theorem unsignedInfinity : ¬ Unsigned (Text.of "Infinity") := by
  rw [infinityFirst]
  exact unsignedOther (by decide) (by decide)

end Grammar

namespace Blank
open Grammar

theorem isBlankIff (u : CodeUnit) : isBlank u = true ↔ u ∈ whiteSpace := by
  simp only [isBlank,whiteSpace,Bool.or_eq_true,Bool.and_eq_true,decide_eq_true_eq,List.mem_cons,List.not_mem_nil,
    or_false,UInt16.le_iff_toNat_le,← UInt16.toNat_inj,UInt16.reduceToNat]
  omega

def Solid (t : Text) : Prop := ∀ u ∈ t, isBlank u = false

theorem trimStartAppend {before : Text} (blank : ∀ u ∈ before, isBlank u = true) (t : Text) :
    trimStart (before ++ t) = trimStart t :=
  List.dropWhile_append_of_pos blank

theorem trimPadded {before behind : Text} (blank : ∀ u ∈ before, isBlank u = true)
    (blank' : ∀ u ∈ behind, isBlank u = true) (t : Text) : trim (before ++ t ++ behind) = trim t := by
  have ends : trimStart behind = [] := by
    have all := trimStartAppend blank' []
    rwa [List.append_nil] at all
  rw [trim,trim,List.append_assoc,trimStartAppend blank]
  by_cases none : trimStart t = []
  · have gone : trimStart (t ++ behind) = [] := by
      rw [trimStart,List.dropWhile_append,show t.dropWhile isBlank = [] from none]
      exact ends
    rw [none,gone]
  · have kept : trimStart (t ++ behind) = trimStart t ++ behind := by
      rw [trimStart,List.dropWhile_append,if_neg (by simpa [trimStart] using none)]
      rfl
    rw [kept,List.reverse_append,trimStartAppend (fun u member => blank' u (List.mem_reverse.mp member))]

theorem trimStartSolid {t : Text} (solid : Solid t) : trimStart t = t := by
  cases t with
  | nil => rfl
  | cons u t => rw [trimStart,List.dropWhile_cons_of_neg (by simp [solid u List.mem_cons_self])]

theorem trimSolid {t : Text} (solid : Solid t) : trim t = t := by
  rw [trim,trimStartSolid solid,trimStartSolid (fun u member => solid u (List.mem_reverse.mp member)),
    List.reverse_reverse]

theorem trimStartSplit (t : Text) : ∃ before, t = before ++ trimStart t ∧ ∀ u ∈ before, isBlank u = true :=
  ⟨t.takeWhile isBlank,List.takeWhile_append_dropWhile.symm,List.all_eq_true.mp List.all_takeWhile⟩

theorem trimSplit (t : Text) : ∃ before behind, t = before ++ trim t ++ behind ∧
    (∀ u ∈ before, isBlank u = true) ∧ ∀ u ∈ behind, isBlank u = true := by
  obtain ⟨before,first,blank⟩ := trimStartSplit t
  obtain ⟨behind,last,blank'⟩ := trimStartSplit (trimStart t).reverse
  refine ⟨before,behind.reverse,?_,blank,fun u member => blank' u (List.mem_reverse.mp member)⟩
  have turned := congrArg List.reverse last
  rw [List.reverse_reverse,List.reverse_append] at turned
  rw [trim,List.append_assoc,← turned]
  exact first

theorem paddedIff {core : Text → Prop} (solid : ∀ t, core t → Solid t) (t : Text) :
    Padded core t ↔ core (trim t) := by
  have blank {w : Text} : (∀ u ∈ w, u ∈ whiteSpace) ↔ ∀ u ∈ w, isBlank u = true := by simp only [isBlankIff]
  constructor
  · intro padded
    obtain ⟨before,inside,behind,rfl,first,last,holds⟩ := padded
    rw [trimPadded (blank.mp first) (blank.mp last),trimSolid (solid _ holds)]
    exact holds
  · intro holds
    obtain ⟨before,behind,same,first,last⟩ := trimSplit t
    exact ⟨before,trim t,behind,same,blank.mpr first,blank.mpr last,holds⟩

end Blank

namespace Numeral
open Grammar

def Stops (t : Text) : Prop := ∀ u ∈ t.head?, Text.isDigit u = false

theorem digitsSplit (t : Text) : ∃ ds r, t = ds ++ r ∧ AllDigits ds ∧ Stops r := by
  induction t with
  | nil => exact ⟨[],[],rfl,nofun,nofun⟩
  | cons u t ih =>
      cases digit : Text.isDigit u with
      | false => exact ⟨[],u :: t,rfl,nofun,fun v same => by cases same; exact digit⟩
      | true =>
          obtain ⟨ds,r,rfl,digits,stops⟩ := ih
          exact ⟨u :: ds,r,rfl,List.forall_mem_cons.mpr ⟨digit,digits⟩,stops⟩

theorem digitsCut {ds r : Text} (digits : AllDigits ds) (stops : Stops r) :
    (ds ++ r).takeWhile Text.isDigit = ds ∧ (ds ++ r).dropWhile Text.isDigit = r := by
  rw [List.takeWhile_append_of_pos digits,List.dropWhile_append_of_pos digits]
  cases r with
  | nil => exact ⟨List.append_nil _,rfl⟩
  | cons u r =>
      have other : ¬ Text.isDigit u = true := by simp [stops u rfl]
      rw [List.takeWhile_cons_of_neg other,List.dropWhile_cons_of_neg other]
      exact ⟨List.append_nil _,rfl⟩

theorem digitsIff (t : Text) : (!t.isEmpty && t.all Text.isDigit) = true ↔ Digits t := by
  simp [Digits,AllDigits]

theorem afterMarkSigned {t : Text} : Lexer.AfterMark t ↔ Signed Digits t := by
  simp only [Lexer.AfterMark,← Lexer.digitsPlussed]
  constructor
  · intro found
    rcases found with digits | ⟨sign,ds,rfl,either,digits⟩
    · exact .bare digits
    · exact .sign either digits
  · intro signed
    cases signed with
    | bare digits => exact .inl digits
    | sign either digits => exact .inr ⟨_,_,rfl,either,digits⟩

theorem exponentSpelt (t : Text) : (exponent? t).isSome = true ↔ Exponent t := by
  cases t with
  | nil => exact ⟨fun _ => .none,fun _ => rfl⟩
  | cons mark t =>
      have given {ds : Text} {n : Int} :
          (if (!ds.isEmpty && ds.all Text.isDigit) = true then some n else none).isSome = true ↔ Digits ds := by
        rw [← digitsIff]
        split <;> simp [*]
      rw [Lexer.exponentCons,afterMarkSigned,Lexer.isMarkIff]
      unfold exponent?
      dsimp only
      split
      · rename_i letter
        rw [and_iff_right (by simpa using letter)]
        split
        · exact given.trans (signedSign (.inr rfl) (digitsUnsigned (.inr rfl))).symm
        · exact given.trans (signedSign (.inl rfl) (digitsUnsigned (.inl rfl))).symm
        · rename_i noMinus noPlus
          exact given.trans (signedBare noPlus noMinus).symm
      · rename_i letter
        simp only [Option.isSome_none,Bool.false_eq_true,false_iff]
        exact fun both => letter (by simpa using both.1)

theorem decimalPointed (negative : Bool) {ds fs e : Text} (digits : AllDigits ds) (digits' : AllDigits fs)
    (stops : Stops e) : (decimal? negative (ds ++ 0x2E :: (fs ++ e))).isSome = true ↔
      (ds ≠ [] ∨ fs ≠ []) ∧ Exponent e := by
  have point : Stops (0x2E :: (fs ++ e)) := fun u same => by cases same; decide
  rw [decimal?,(digitsCut digits point).1,(digitsCut digits point).2,← exponentSpelt]
  simp only [(digitsCut digits' stops).1,(digitsCut digits' stops).2]
  cases ds <;> cases fs <;> simp

theorem decimalBare (negative : Bool) {ds e : Text} (digits : AllDigits ds) (stops : Stops e)
    (noPoint : e.head? ≠ some 0x2E) : (decimal? negative (ds ++ e)).isSome = true ↔ ds ≠ [] ∧ Exponent e := by
  rw [decimal?,(digitsCut digits stops).1,(digitsCut digits stops).2,← exponentSpelt]
  split
  rename_i fraction tail parts
  split at parts
  · exact absurd rfl noPoint
  · cases parts
    cases ds <;> simp

theorem exponentStops {e : Text} (exponent : Exponent e) : Stops e ∧ e.head? ≠ some 0x2E := by
  have marks {mark : CodeUnit} (letter : mark = 0x65 ∨ mark = 0x45) (e : Text) :
      Stops (mark :: e) ∧ (mark :: e).head? ≠ some 0x2E := by
    rcases letter with rfl | rfl <;> exact ⟨fun u same => by cases same; decide,by simp⟩
  cases exponent with
  | none => exact ⟨nofun,nofun⟩
  | bare letter _ => exact marks letter _
  | signed letter _ _ => exact marks letter _

theorem decimalSpelt (negative : Bool) (t : Text) : (decimal? negative t).isSome = true ↔ Unsigned t := by
  constructor
  · intro found
    obtain ⟨ds,r,rfl,digits,stops⟩ := digitsSplit t
    by_cases point : r.head? = some 0x2E
    · obtain ⟨r,rfl⟩ := List.head?_eq_some_iff.mp point
      obtain ⟨fs,e,rfl,digits',stops'⟩ := digitsSplit r
      obtain ⟨any,exponent⟩ := (decimalPointed negative digits digits' stops').mp found
      have mantissa : Mantissa (ds ++ 0x2E :: fs) := by
        by_cases none : ds = []
        · subst none
          exact .fraction ⟨any.resolve_left (fun other => other rfl),digits'⟩
        · by_cases none' : fs = []
          · subst none'
            exact .ended ⟨none,digits⟩
          · exact .both ⟨none,digits⟩ ⟨none',digits'⟩
      exact ⟨_,e,by simp,mantissa,exponent⟩
    · obtain ⟨any,exponent⟩ := (decimalBare negative digits stops point).mp found
      exact ⟨ds,r,rfl,.whole ⟨any,digits⟩,exponent⟩
  · intro spelt
    obtain ⟨m,e,rfl,mantissa,exponent⟩ := spelt
    obtain ⟨stops,noPoint⟩ := exponentStops exponent
    have pointed (ds fs : Text) (digits : AllDigits ds) (digits' : AllDigits fs) (any : ds ≠ [] ∨ fs ≠ []) :
        (decimal? negative (ds ++ 0x2E :: fs ++ e)).isSome = true := by
      rw [List.append_assoc]
      exact (decimalPointed negative digits digits' stops).mpr ⟨any,exponent⟩
    cases mantissa with
    | whole digits => exact (decimalBare negative digits.2 stops noPoint).mpr ⟨digits.1,exponent⟩
    | ended digits => exact pointed _ [] digits.2 nofun (.inl digits.1)
    | fraction digits => exact pointed [] _ nofun digits.2 (.inr digits.1)
    | both before behind => exact pointed _ _ before.2 behind.2 (.inl before.1)

theorem unsignedSpelt (negative : Bool) (t : Text) :
    (unsigned? negative t).isSome = true ↔ t = Text.of "Infinity" ∨ Unsigned t := by
  rw [unsigned?,← decimalSpelt negative]
  split <;> simp [*]

theorem wholeSpelt (base : Nat) (t : Text) : (whole? base t).isSome = true ↔
    t ≠ [] ∧ ∀ u ∈ t, ∃ n, Text.hexValue? u = some n ∧ n < base := by
  have digit (u : CodeUnit) : (digitBelow? base u).isSome = true ↔ ∃ n, Text.hexValue? u = some n ∧ n < base := by
    rw [digitBelow?]
    cases Text.hexValue? u <;> simp [Option.isSome_filter]
  rw [whole?]
  cases t with
  | nil => simp
  | cons u t =>
      rw [if_neg (by simp),Option.isSome_map,Reference.allAccepted]
      simp only [digit,ne_eq,reduceCtorEq,not_false_eq_true,true_and]

theorem radixUnsigned {letter : CodeUnit} {base : Nat} {ds : Text} (stands : (letter,base) ∈ radixes) :
    ¬ Unsigned (0x30 :: letter :: ds) := by
  have other : Text.isDigit letter = false ∧ letter ≠ 0x2E ∧ Lexer.NumberPart.isMark letter = false := by
    have all : ∀ r ∈ radixes, Text.isDigit r.1 = false ∧ r.1 ≠ 0x2E ∧ Lexer.NumberPart.isMark r.1 = false := by decide
    exact all _ stands
  intro spelt
  have found := (decimalSpelt false _).mpr spelt
  have zero : AllDigits [0x30] := List.forall_mem_singleton.mpr (by decide)
  have exponent := ((decimalBare (e := letter :: ds) false zero (fun u same => by cases same; exact other.1)
    (by simpa using other.2.1)).mp found).2
  rw [Lexer.exponentCons,other.2.2] at exponent
  cases exponent.1

theorem radixIff {letter : CodeUnit} {base : Nat} {ds : Text} (stands : (letter,base) ∈ radixes) :
    Radix (0x30 :: letter :: ds) ↔ (whole? base ds).isSome = true := by
  rw [wholeSpelt]
  constructor
  · intro radix
    cases radix with
    | @mk _ base' _ stands' any digits =>
        have one : ∀ r ∈ radixes, ∀ r' ∈ radixes, r.1 = r'.1 → r.2 = r'.2 := by decide
        have same : base' = base := one _ stands' _ stands rfl
        subst same
        exact ⟨any,digits⟩
  · exact fun found => .mk stands found.1 found.2

theorem numeralsApart {t : Text} (decimal : DecimalNumeral t) : ¬ OtherNumeral t := by
  intro other
  rcases other with word | radix
  · cases word with
    | bare same =>
        subst same
        have noSign {u : CodeUnit} (other : u ≠ 0x49) (r : Text) : Text.of "Infinity" ≠ u :: r :=
          (infinityOther other r).symm
        exact unsignedInfinity ((signedBare (noSign (by decide)) (noSign (by decide))).mp decimal)
    | sign either same =>
        subst same
        exact unsignedInfinity ((signedSign either (unsignedSign either)).mp decimal)
  · cases radix with
    | mk stands _ _ => exact radixUnsigned stands ((signedBare (by simp) (by simp)).mp decimal)

theorem numeralParts {t : Text} : DecimalNumeral t ∨ OtherNumeral t ↔
    Signed (fun t => t = Text.of "Infinity" ∨ Unsigned t) t ∨ Radix t := by
  rw [signedOr,OtherNumeral,DecimalNumeral,← or_assoc,or_comm (a := Signed Unsigned t)]

theorem signedSpelt {u : CodeUnit} {t : Text} (negative : Bool) (either : u = 0x2B ∨ u = 0x2D) :
    (unsigned? negative t).isSome = true ↔ DecimalNumeral (u :: t) ∨ OtherNumeral (u :: t) := by
  have noRadix : ¬ Radix (u :: t) := by
    intro radix
    cases radix
    rcases either with other | other <;> cases other
  have noWord : ¬ (u :: t = Text.of "Infinity" ∨ Unsigned (u :: t)) := by
    refine not_or.mpr ⟨infinityOther ?_ t,unsignedSign either⟩
    rcases either with rfl | rfl <;> decide
  rw [numeralParts,or_iff_left noRadix,signedSign either noWord,unsignedSpelt]

theorem bareSpelt {t : Text} (noPlus : ∀ r, t ≠ 0x2B :: r) (noMinus : ∀ r, t ≠ 0x2D :: r) (noRadix : ¬ Radix t) :
    (unsigned? false t).isSome = true ↔ DecimalNumeral t ∨ OtherNumeral t := by
  rw [numeralParts,or_iff_left noRadix,signedBare noPlus noMinus,unsignedSpelt]

theorem radixSpelt {letter : CodeUnit} {base : Nat} {ds : Text} (stands : (letter,base) ∈ radixes) :
    (whole? base ds).isSome = true ↔
      DecimalNumeral (0x30 :: letter :: ds) ∨ OtherNumeral (0x30 :: letter :: ds) := by
  have noWord : ¬ (0x30 :: letter :: ds = Text.of "Infinity" ∨ Unsigned (0x30 :: letter :: ds)) :=
    not_or.mpr ⟨infinityOther (by decide) _,radixUnsigned stands⟩
  rw [numeralParts,signedBare (by simp) (by simp),or_iff_right noWord,radixIff stands]

theorem ofTextSpelt (t : Text) : (ofText? t).isSome = true ↔
    Blank.trim t = [] ∨ DecimalNumeral (Blank.trim t) ∨ OtherNumeral (Blank.trim t) := by
  unfold ofText?
  generalize Blank.trim t = t
  split
  · simp
  · rename_i letter ds
    have based {upper lower : CodeUnit} {base : Nat} (either : (decide (letter = upper) || decide (letter = lower)) = true)
        (first : (upper,base) ∈ radixes) (second : (lower,base) ∈ radixes) :
        (whole? base ds).isSome = true ↔ DecimalNumeral (0x30 :: letter :: ds) ∨ OtherNumeral (0x30 :: letter :: ds) := by
      rcases (by simpa using either : letter = upper ∨ letter = lower) with rfl | rfl
      · exact radixSpelt first
      · exact radixSpelt second
    rw [or_iff_right (by simp)]
    split
    · rename_i hex
      exact based hex (by decide) (by decide)
    split
    · rename_i octal
      exact based octal (by decide) (by decide)
    split
    · rename_i binary
      exact based binary (by decide) (by decide)
    · rename_i noHex noOctal noBinary
      refine bareSpelt (by simp) (by simp) (fun radix => ?_)
      simp only [Bool.or_eq_true,decide_eq_true_eq] at noHex noOctal noBinary
      cases radix with
      | mk stands _ _ =>
          simp only [radixes,List.mem_cons,Prod.mk.injEq,List.not_mem_nil,or_false] at stands
          grind
  · rw [or_iff_right (by simp)]
    exact signedSpelt true (.inr rfl)
  · rw [or_iff_right (by simp)]
    exact signedSpelt false (.inl rfl)
  · rename_i some noZero noMinus noPlus
    rw [or_iff_right some]
    refine bareSpelt noPlus noMinus (fun radix => ?_)
    cases radix with
    | mk _ _ _ => exact noZero _ _ rfl

theorem printableSolid {u : CodeUnit} (low : 0x21 ≤ u.toNat) (high : u.toNat ≤ 0x7E) : Blank.isBlank u = false := by
  simp only [Blank.isBlank,Bool.or_eq_false_iff,Bool.and_eq_false_iff,decide_eq_false_iff_not,UInt16.le_iff_toNat_le,
    ← UInt16.toNat_inj,UInt16.reduceToNat]
  omega

theorem hexSolid {u : CodeUnit} {n : Nat} (value : Text.hexValue? u = some n) : Blank.isBlank u = false := by
  simp only [Text.hexValue?,Text.isDigit,Bool.and_eq_true,decide_eq_true_eq,UInt16.le_iff_toNat_le,
    UInt16.reduceToNat] at value
  split at value
  · exact printableSolid (by omega) (by omega)
  split at value
  · exact printableSolid (by omega) (by omega)
  split at value
  · exact printableSolid (by omega) (by omega)
  · cases value

theorem digitsSolid {ds : Text} (digits : AllDigits ds) : Blank.Solid ds := by
  intro u member
  refine hexSolid (n := u.toNat - 0x30) ?_
  rw [Text.hexValue?,if_pos (digits u member)]

theorem signedSolid {core : Text → Prop} {t : Text} (solid : ∀ t, core t → Blank.Solid t) (signed : Signed core t) :
    Blank.Solid t := by
  cases signed with
  | bare inside => exact solid _ inside
  | sign either inside =>
      refine List.forall_mem_cons.mpr ⟨?_,solid _ inside⟩
      rcases either with rfl | rfl <;> decide

theorem unsignedSolid (t : Text) (spelt : Unsigned t) : Blank.Solid t := by
  obtain ⟨m,e,rfl,mantissa,exponent⟩ := spelt
  have point : Blank.isBlank 0x2E = false := by decide
  have marks {mark : CodeUnit} (letter : mark = 0x65 ∨ mark = 0x45) : Blank.isBlank mark = false := by
    rcases letter with rfl | rfl <;> decide
  have first : Blank.Solid m := by
    cases mantissa with
    | whole digits => exact digitsSolid digits.2
    | ended digits => exact List.forall_mem_append.mpr ⟨digitsSolid digits.2,List.forall_mem_singleton.mpr point⟩
    | fraction digits => exact List.forall_mem_cons.mpr ⟨point,digitsSolid digits.2⟩
    | both before behind =>
        exact List.forall_mem_append.mpr
          ⟨digitsSolid before.2,List.forall_mem_cons.mpr ⟨point,digitsSolid behind.2⟩⟩
  have second : Blank.Solid e := by
    cases exponent with
    | none => exact List.forall_mem_nil _
    | bare letter digits => exact List.forall_mem_cons.mpr ⟨marks letter,digitsSolid digits.2⟩
    | signed letter either digits =>
        exact List.forall_mem_cons.mpr
          ⟨marks letter,signedSolid (fun _ digits => digitsSolid digits.2) (.sign either digits)⟩
  exact List.forall_mem_append.mpr ⟨first,second⟩

theorem decimalSolid (t : Text) (decimal : DecimalNumeral t) : Blank.Solid t := signedSolid unsignedSolid decimal

theorem otherSolid (t : Text) (other : OtherNumeral t) : Blank.Solid t := by
  rcases other with word | radix
  · have letters : ∀ u ∈ Text.of "Infinity", (Blank.isBlank u == false) = true := List.all_eq_true.mp (by decide)
    have solid : Blank.Solid (Text.of "Infinity") := fun u member => eq_of_beq (letters u member)
    exact signedSolid (fun t same => by rw [same]; exact solid) word
  · cases radix with
    | @mk letter base ds stands _ digits =>
        have letters : ∀ r ∈ radixes, Blank.isBlank r.1 = false := by decide
        have letter := letters (letter,base) stands
        have zero : Blank.isBlank 0x30 = false := by decide
        refine List.forall_mem_cons.mpr ⟨zero,List.forall_mem_cons.mpr ⟨letter,fun u member => ?_⟩⟩
        obtain ⟨n,value,_⟩ := digits u member
        exact hexSolid value

end Numeral
end AuditLog
