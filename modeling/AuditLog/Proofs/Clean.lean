import AuditLog.Proofs.KeyOrder
import AuditLog.Proofs.Quotation

/-! Clean text: no controls, and surrogates in pairs only. Quoting cleans any text, so the compact form
of a tree is clean if its numbers are spelt as numbers. -/
namespace AuditLog
open Grammar

namespace Text

structure Clean (t : Text) : Prop where
  printed : ∀ u ∈ t, ¬ u < 0x20
  paired : t.wellFormed = true

def isPlain (u : CodeUnit) : Bool := 0x20 ≤ u.toNat && isScalar u.toNat

theorem scalarNotHigh {u : CodeUnit} (scalar : isScalar u.toNat = true) : isHigh u = false := by
  rw [Bool.eq_false_iff,ne_eq,highBounds]
  simp only [isScalar,Bool.or_eq_true,decide_eq_true_eq] at scalar
  omega

theorem codePointsAppend (t : Text) : (s : Text) → s.wellFormed = true →
    codePoints (s ++ t) = codePoints s ++ codePoints t
  | [], _ => rfl
  | [u], whole => by
      have scalar : isScalar u.toNat = true := by simpa [wellFormed,codePoints,codePointsOnto] using whole
      cases t with
      | nil => rfl
      | cons v rest => exact codePointsAlone u v rest (by rw [scalarNotHigh scalar]; rfl)
  | u :: v :: rest, whole => by
      by_cases pair : (isHigh u && isLow v) = true
      · have halves := pair
        rw [Bool.and_eq_true] at halves
        rw [wellFormed,codePointsPair u v rest halves.1 halves.2,List.all_cons,Bool.and_eq_true] at whole
        rw [List.cons_append,List.cons_append,codePointsPair _ _ _ halves.1 halves.2,
          codePointsPair _ _ _ halves.1 halves.2,codePointsAppend t rest whole.2,List.cons_append]
      · have apart := Bool.eq_false_iff.mpr pair
        rw [wellFormed,codePointsAlone u v rest apart,List.all_cons,Bool.and_eq_true] at whole
        have others := codePointsAppend t (v :: rest) whole.2
        rw [List.cons_append] at others
        rw [List.cons_append,List.cons_append,codePointsAlone _ _ _ apart,codePointsAlone _ _ _ apart,others,
          List.cons_append]

theorem codePointsBounded : (t : Text) → ∀ n ∈ codePoints t, n < 0x110000
  | [], _, member => absurd member List.not_mem_nil
  | [u], n, member => by
      have small := u.toNat_lt
      rw [List.mem_singleton.mp member]
      omega
  | u :: v :: rest, n, member => by
      by_cases pair : (isHigh u && isLow v) = true
      · have halves := pair
        rw [Bool.and_eq_true] at halves
        rw [codePointsPair u v rest halves.1 halves.2] at member
        rw [highBounds,lowBounds] at halves
        rcases List.mem_cons.mp member with same | later
        · omega
        · exact codePointsBounded rest n later
      · rw [codePointsAlone u v rest (Bool.eq_false_iff.mpr pair)] at member
        have small := u.toNat_lt
        rcases List.mem_cons.mp member with same | later
        · omega
        · exact codePointsBounded (v :: rest) n later

theorem cleanNil : Clean [] := ⟨nofun,rfl⟩

theorem cleanAppend {s t : Text} (first : Clean s) (second : Clean t) : Clean (s ++ t) where
  printed u member := (List.mem_append.mp member).elim (first.printed u) (second.printed u)
  paired := by
    rw [wellFormed,codePointsAppend t s first.paired,List.all_append,Bool.and_eq_true]
    exact ⟨first.paired,second.paired⟩

theorem printedUnit {u : CodeUnit} : ¬ u < 0x20 ↔ 0x20 ≤ u.toNat := by
  rw [UInt16.lt_iff_toNat_lt,Nat.not_lt]
  exact .rfl

theorem cleanUnit {u : CodeUnit} (plain : isPlain u = true) : Clean [u] := by
  rw [isPlain,Bool.and_eq_true,decide_eq_true_eq] at plain
  exact ⟨List.forall_mem_singleton.mpr (printedUnit.mpr plain.1),(Bool.and_true _).trans plain.2⟩

theorem cleanCons {u : CodeUnit} {t : Text} (plain : isPlain u = true) (rest : Clean t) : Clean (u :: t) :=
  cleanAppend (cleanUnit plain) rest

theorem cleanUnits {t : Text} (plain : t.all isPlain = true) : Clean t := by
  induction t with
  | nil => exact cleanNil
  | cons u rest ih =>
      rw [List.all_cons,Bool.and_eq_true] at plain
      exact cleanCons plain.1 (ih plain.2)

theorem cleanFlatMap {α : Type} {f : α → Text} {as : List α} (each : ∀ a ∈ as, Clean (f a)) :
    Clean (as.flatMap f) := by
  induction as with
  | nil => exact cleanNil
  | cons a as ih =>
      obtain ⟨here,later⟩ := List.forall_mem_cons.mp each
      exact cleanAppend here (ih later)

theorem ofCodePointClean {n : Nat} (printed : 0x20 ≤ n) (scalar : isScalar n = true) (bounded : n < 0x110000) :
    Clean (ofCodePoint n) := by
  unfold ofCodePoint
  split
  · rename_i small
    have unit : (UInt16.ofNat n).toNat = n := UInt16.toNat_ofNat_of_lt' small
    refine cleanUnit ?_
    rw [isPlain,unit,scalar,Bool.and_true,decide_eq_true_eq]
    exact printed
  · rename_i large
    have first : (UInt16.ofNat (0xD800 + (n - 0x10000) / 0x400)).toNat = 0xD800 + (n - 0x10000) / 0x400 :=
      UInt16.toNat_ofNat_of_lt' (by change _ < 0x10000; omega)
    have second : (UInt16.ofNat (0xDC00 + (n - 0x10000) % 0x400)).toNat = 0xDC00 + (n - 0x10000) % 0x400 :=
      UInt16.toNat_ofNat_of_lt' (by change _ < 0x10000; omega)
    generalize UInt16.ofNat (0xD800 + (n - 0x10000) / 0x400) = u at first ⊢
    generalize UInt16.ofNat (0xDC00 + (n - 0x10000) % 0x400) = v at second ⊢
    have high : isHigh u = true := highBounds.mpr (by omega)
    have low : isLow v = true := lowBounds.mpr (by omega)
    refine ⟨List.forall_mem_cons.mpr ⟨?_,List.forall_mem_singleton.mpr ?_⟩,?_⟩
    · exact printedUnit.mpr (by omega)
    · exact printedUnit.mpr (by omega)
    · have point : 0x10000 + (u.toNat - 0xD800) * 0x400 + (v.toNat - 0xDC00) = n := by omega
      rw [wellFormed,codePointsPair u v [] high low,point,List.all_cons,scalar]
      rfl

end Text

namespace Quoted
open Text

theorem digitPrinted {n : Nat} (small : n < 16) : isPlain (digit n) = true := by
  have all : ∀ n : Fin 16, isPlain (digit n.val) = true := by decide
  exact all ⟨n,small⟩

theorem hexEscapeClean (n : Nat) : Clean (hexEscape n) := by
  have one (n : Nat) : isPlain (digit (n % 16)) = true := digitPrinted (Nat.mod_lt n (by decide))
  have mark : Clean [backslash,0x75] := cleanUnits (by decide)
  exact cleanAppend mark (cleanCons (one _) (cleanCons (one _) (cleanCons (one _) (cleanUnit (one _)))))

theorem escapeClean {n : Nat} (bounded : n < 0x110000) : Clean (escape n) := by
  unfold escape
  split
  · exact cleanUnits (by decide)
  split
  · exact cleanUnits (by decide)
  split
  · exact cleanUnits (by decide)
  split
  · exact cleanUnits (by decide)
  split
  · exact cleanUnits (by decide)
  split
  · exact cleanUnits (by decide)
  split
  · exact cleanUnits (by decide)
  split
  · exact hexEscapeClean n
  rename_i printed
  split
  · rename_i scalar; exact ofCodePointClean (Nat.not_lt.mp printed) scalar bounded
  · exact hexEscapeClean n

theorem quoteClean (t : Text) : Clean (quote t) := by
  have mark : Clean [quoteMark] := cleanUnits (by decide)
  have inside : Clean ((codePoints t).flatMap escape) :=
    cleanFlatMap (fun n member => escapeClean (codePointsBounded t n member))
  exact cleanAppend (cleanAppend mark inside) mark

end Quoted

namespace Grammar
open Text

theorem digitsClean {t : Text} (digits : AllDigits t) : Clean t := by
  refine cleanUnits (List.all_eq_true.mpr (fun u member => ?_))
  have bounds := digitBounds (digits u member)
  simp only [isPlain,isScalar,Bool.and_eq_true,Bool.or_eq_true,decide_eq_true_eq]
  omega

theorem wholeClean {t : Text} (whole : Whole t) : Clean t := by
  cases whole with
  | zero => exact cleanUnits (by decide)
  | digits first nonzero rest => exact digitsClean (List.forall_mem_cons.mpr ⟨first,rest⟩)

theorem fractionClean {t : Text} (fraction : Fraction t) : Clean t := by
  cases fraction with
  | none => exact cleanNil
  | point digits => exact cleanCons (by decide) (digitsClean digits.2)

theorem exponentClean {t : Text} (exponent : Exponent t) : Clean t := by
  cases exponent with
  | none => exact cleanNil
  | bare letter digits =>
      rcases letter with rfl | rfl <;> exact cleanCons (by decide) (digitsClean digits.2)
  | signed letter either digits =>
      have signed := digitsClean digits.2
      rcases letter with rfl | rfl <;> rcases either with rfl | rfl <;>
        exact cleanCons (by decide) (cleanCons (by decide) signed)

theorem numberClean {t : Text} (number : Number t) : Clean t := by
  have parts {w f e : Text} (whole : Whole w) (fraction : Fraction f) (exponent : Exponent e) : Clean (w ++ f ++ e) :=
    cleanAppend (cleanAppend (wholeClean whole) (fractionClean fraction)) (exponentClean exponent)
  cases number with
  | positive whole fraction exponent => exact parts whole fraction exponent
  | negative whole fraction exponent =>
      exact cleanCons (by decide) (parts whole fraction exponent)

end Grammar

namespace Json
open Text Quoted

theorem commaClean {t : Text} (rest : Clean t) : Clean (0x2C :: t) := cleanCons (by decide) rest

theorem colonClean {t : Text} (rest : Clean t) : Clean (0x3A :: t) := cleanCons (by decide) rest

theorem itemsBehindClean {items : List Json} (clean : Clean (compactItems items)) : Clean (itemsBehind items) := by
  cases items with
  | nil => exact clean
  | cons item rest => exact commaClean clean

theorem membersBehindClean {members : List (Text × Json)} (clean : Clean (compactMembers members)) :
    Clean (membersBehind members) := by
  cases members with
  | nil => exact clean
  | cons member rest => exact commaClean clean

mutual
theorem compactClean : (j : Json) → Numeric j.tokens → Clean j.compact
  | .null, _ => cleanUnits (by decide)
  | .flag true, _ => cleanUnits (by decide)
  | .flag false, _ => cleanUnits (by decide)
  | .number spelling, numeric => numberClean (numeric spelling (List.mem_singleton.mpr rfl))
  | .string value, _ => quoteClean value
  | .array items, numeric => by
      rw [tokens,numericOpening,numericAppend] at numeric
      exact cleanCons (by decide) (itemsClean items numeric.1)
  | .object members, numeric => by
      rw [tokens,numericOpening,numericAppend] at numeric
      exact cleanCons (by decide) (membersClean members numeric.1)

theorem itemsClean : (items : List Json) → Numeric (itemTokens items) → Clean (compactItems items)
  | [], _ => cleanUnits (by decide)
  | item :: rest, numeric => by
      rw [itemTokens,numericAppend] at numeric
      rw [compactItem]
      exact cleanAppend (compactClean item numeric.1) (itemsBehindClean (itemsClean rest numeric.2))

theorem membersClean : (members : List (Text × Json)) → Numeric (memberTokens members) → Clean (compactMembers members)
  | [], _ => cleanUnits (by decide)
  | (name,value) :: rest, numeric => by
      rw [memberTokens,numericField,numericAppend] at numeric
      rw [compactMember]
      have named : Clean (quote name ++ 0x3A :: value.compact) :=
        cleanAppend (quoteClean name) (colonClean (compactClean value numeric.1))
      exact cleanAppend named (membersBehindClean (membersClean rest numeric.2))
end

end Json
end AuditLog
