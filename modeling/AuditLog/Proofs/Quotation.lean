import AuditLog.Proofs.Lexeme

/-! Writing read back. What quoting escapes, the grammar of strings undoes, unit by unit, so the
quotation of a text spells it; and the compact form of a tree is one of the texts that spell the tree. -/
namespace AuditLog

namespace Text

theorem highBounds {u : CodeUnit} : isHigh u = true ↔ 0xD800 ≤ u.toNat ∧ u.toNat < 0xDC00 := by
  rw [isHigh,Bool.and_eq_true,decide_eq_true_eq,decide_eq_true_eq,UInt16.le_iff_toNat_le,UInt16.lt_iff_toNat_lt]
  exact .rfl

theorem lowBounds {u : CodeUnit} : isLow u = true ↔ 0xDC00 ≤ u.toNat ∧ u.toNat < 0xE000 := by
  rw [isLow,Bool.and_eq_true,decide_eq_true_eq,decide_eq_true_eq,UInt16.le_iff_toNat_le,UInt16.lt_iff_toNat_lt]
  exact .rfl

end Text

namespace Quoted
open Grammar

theorem hexDigit {n : Nat} (small : n < 16) : Text.hexValue? (Text.digit n) = some n := by
  have all : ∀ n : Fin 16, Text.hexValue? (Text.digit n) = some n.val := by decide
  exact all ⟨n,small⟩

theorem hexEscapeSpells {u : CodeUnit} {s t : Text} (rest : Spelling s t) :
    Spelling (hexEscape u.toNat ++ s) (u :: t) := by
  have bound : u.toNat < 0x10000 := u.toNat_lt
  have spelt := Spelling.hex (hexDigit (Nat.mod_lt (u.toNat / 0x1000) (by decide)))
    (hexDigit (Nat.mod_lt (u.toNat / 0x100) (by decide))) (hexDigit (Nat.mod_lt (u.toNat / 0x10) (by decide)))
    (hexDigit (Nat.mod_lt u.toNat (by decide))) rest
  have value : ((u.toNat / 0x1000 % 16 * 16 + u.toNat / 0x100 % 16) * 16 + u.toNat / 0x10 % 16) * 16 +
      u.toNat % 16 = u.toNat := by omega
  rw [value,UInt16.ofNat_toNat] at spelt
  exact spelt

theorem shortSpells {letter u : CodeUnit} {s t : Text} (escape : (letter,u) ∈ shortEscapes) (rest : Spelling s t) :
    Spelling ([backslash,letter] ++ s) (u :: t) :=
  .short escape rest

theorem unitOfNat {u : CodeUnit} {n : Nat} (same : u.toNat = n) : u = UInt16.ofNat n := by
  rw [← same,UInt16.ofNat_toNat]

theorem escapeSpells {u : CodeUnit} {s t : Text} (rest : Spelling s t) :
    Spelling (escape u.toNat ++ s) (u :: t) := by
  have apart {v : CodeUnit} (other : u.toNat ≠ v.toNat) : u ≠ v := fun same => other (by rw [same])
  unfold escape
  split
  · rename_i same; rw [unitOfNat same]; exact shortSpells (by decide) rest
  rename_i quote
  split
  · rename_i same; rw [unitOfNat same]; exact shortSpells (by decide) rest
  rename_i slash
  split
  · rename_i same; rw [unitOfNat same]; exact shortSpells (by decide) rest
  split
  · rename_i same; rw [unitOfNat same]; exact shortSpells (by decide) rest
  split
  · rename_i same; rw [unitOfNat same]; exact shortSpells (by decide) rest
  split
  · rename_i same; rw [unitOfNat same]; exact shortSpells (by decide) rest
  split
  · rename_i same; rw [unitOfNat same]; exact shortSpells (by decide) rest
  split
  · exact hexEscapeSpells rest
  rename_i control
  split
  · have unit : Text.ofCodePoint u.toNat = [u] := by
      rw [Text.ofCodePoint,if_pos u.toNat_lt,UInt16.ofNat_toNat]
    rw [unit]
    exact .plain (apart (v := 0x22) quote) (apart (v := 0x5C) slash) (by rw [UInt16.lt_iff_toNat_lt]; exact control) rest
  · exact hexEscapeSpells rest

theorem pairSpells {u v : CodeUnit} {s t : Text} (high : Text.isHigh u = true) (low : Text.isLow v = true)
    (rest : Spelling s t) :
    Spelling (escape (0x10000 + (u.toNat - 0xD800) * 0x400 + (v.toNat - 0xDC00)) ++ s) (u :: v :: t) := by
  have high' := Text.highBounds.mp high
  have low' := Text.lowBounds.mp low
  have plain {w : CodeUnit} {s t : Text} (large : 0xD800 ≤ w.toNat) (rest : Spelling s t) :
      Spelling (w :: s) (w :: t) := by
    have apart {x : CodeUnit} (small : x.toNat < 0xD800) : w ≠ x := by
      intro same
      rw [same] at large
      omega
    refine .plain (apart (by decide)) (apart (by decide)) ?_ rest
    rw [UInt16.lt_iff_toNat_lt]
    exact Nat.not_lt.mpr (Nat.le_trans (by decide) large)
  have itself : escape (0x10000 + (u.toNat - 0xD800) * 0x400 + (v.toNat - 0xDC00)) = [u,v] := by
    generalize point : 0x10000 + (u.toNat - 0xD800) * 0x400 + (v.toNat - 0xDC00) = n
    have scalar : Text.isScalar n = true := by
      simp only [Text.isScalar,Bool.or_eq_true,decide_eq_true_eq]
      omega
    have first : 0xD800 + (n - 0x10000) / 0x400 = u.toNat := by omega
    have second : 0xDC00 + (n - 0x10000) % 0x400 = v.toNat := by omega
    unfold escape
    repeat rw [if_neg (by omega)]
    rw [if_pos scalar,Text.ofCodePoint,if_neg (by omega),first,second,UInt16.ofNat_toNat,UInt16.ofNat_toNat]
  rw [itself]
  exact plain high'.1 (plain (Nat.le_trans (by decide) low'.1) rest)

theorem pointsSpell (t : Text) : Spelling ((Text.codePoints t).flatMap escape) t := by
  induction size : t.length using Nat.strongRecOn generalizing t with
  | _ size ih =>
      subst size
      match t with
      | [] => exact .nil
      | [u] =>
          have one : Text.codePoints [u] = [u.toNat] := rfl
          rw [one,List.flatMap_cons]
          exact escapeSpells .nil
      | u :: v :: rest =>
          by_cases pair : (Text.isHigh u && Text.isLow v) = true
          · have halves := pair
            rw [Bool.and_eq_true] at halves
            rw [Text.codePointsPair u v rest halves.1 halves.2,List.flatMap_cons]
            exact pairSpells halves.1 halves.2 (ih rest.length (by simp only [List.length_cons]; omega) rest rfl)
          · rw [Text.codePointsAlone u v rest (Bool.eq_false_iff.mpr pair),List.flatMap_cons]
            exact escapeSpells (ih (v :: rest).length (Nat.lt_succ_self _) (v :: rest) rfl)

theorem quoteSpells (t : Text) : Quotation (quote t) t := .marks (pointsSpell t)

end Quoted

namespace Grammar

def Numeric (ts : List Token) : Prop := ∀ spelling, .scalar (.number spelling) ∈ ts → Number spelling

theorem numericAppend {ts ts' : List Token} : Numeric (ts ++ ts') ↔ Numeric ts ∧ Numeric ts' := by
  constructor
  · intro numeric
    exact ⟨fun spelling member => numeric spelling (List.mem_append_left _ member),
      fun spelling member => numeric spelling (List.mem_append_right _ member)⟩
  · intro numeric spelling member
    rcases List.mem_append.mp member with first | second
    · exact numeric.1 spelling first
    · exact numeric.2 spelling second

theorem numericCons {token : Token} {ts : List Token} (other : ∀ spelling, token ≠ .scalar (.number spelling)) :
    Numeric (token :: ts) ↔ Numeric ts := by
  constructor
  · exact fun numeric spelling member => numeric spelling (List.mem_cons_of_mem _ member)
  · intro numeric spelling member
    rcases List.mem_cons.mp member with first | later
    · exact absurd first.symm (other spelling)
    · exact numeric spelling later

theorem numericOpening {container : Container} {ts : List Token} : Numeric (.opening container :: ts) ↔ Numeric ts :=
  numericCons nofun

theorem numericField {name : Text} {ts : List Token} : Numeric (.field name :: ts) ↔ Numeric ts :=
  numericCons nofun

theorem numericLeaf {token : Token} (other : ∀ spelling, token ≠ .scalar (.number spelling)) : Numeric [token] :=
  (numericCons other).mpr nofun

theorem speltNumeric {phrase : Phrase} {t : Text} (spelt : Spelt phrase t) : Numeric phrase.tokens := by
  induction spelt with
  | null => exact numericLeaf nofun
  | yes => exact numericLeaf nofun
  | no => exact numericLeaf nofun
  | number number =>
      intro spelling member
      cases List.mem_singleton.mp member
      exact number
  | string quotation => exact numericLeaf nofun
  | emptyArray blank => exact numericOpening.mpr (numericLeaf nofun)
  | emptyObject blank => exact numericOpening.mpr (numericLeaf nofun)
  | array blank _ _ ihFirst ihRest =>
      simp only [Phrase.tokens,Json.tokens,Json.itemTokens,numericOpening,numericAppend] at ihFirst ihRest ⊢
      exact ⟨⟨ihFirst,ihRest.1⟩,ihRest.2⟩
  | object blank _ _ ihFirst ihRest =>
      simp only [Phrase.tokens,Json.tokens,Json.memberTokens,numericOpening,numericField,numericAppend,
        List.cons_append] at ihFirst ihRest ⊢
      exact ⟨⟨ihFirst,ihRest.1⟩,ihRest.2⟩
  | member _ _ _ _ ih => exact numericField.mpr ih
  | noItem blank => exact numericLeaf nofun
  | item _ _ _ _ ihValue ihRest =>
      simp only [Phrase.tokens,Json.itemTokens,numericAppend] at ihValue ihRest ⊢
      exact ⟨⟨ihValue,ihRest.1⟩,ihRest.2⟩
  | noMember blank => exact numericLeaf nofun
  | nextMember _ _ _ _ ihValue ihRest =>
      simp only [Phrase.tokens,Json.memberTokens,numericField,numericAppend,List.cons_append] at ihValue ihRest ⊢
      exact ⟨⟨ihValue,ihRest.1⟩,ihRest.2⟩

end Grammar

namespace Json
open Grammar

def itemsBehind : List Json → Text
  | [] => [0x5D]
  | items => 0x2C :: compactItems items

def membersBehind : List (Text × Json) → Text
  | [] => [0x7D]
  | members => 0x2C :: compactMembers members

theorem compactItem (item : Json) (rest : List Json) :
    compactItems (item :: rest) = item.compact ++ itemsBehind rest := by
  cases rest <;> rfl

theorem compactMember (name : Text) (value : Json) (rest : List (Text × Json)) :
    compactMembers ((name,value) :: rest) = Quoted.quote name ++ 0x3A :: value.compact ++ membersBehind rest := by
  cases rest <;> simp [compactMembers,membersBehind]

mutual
theorem compactSpelt : (j : Json) → Numeric j.tokens → Spelt (.value j) j.compact
  | .null, _ => .null
  | .flag true, _ => .yes
  | .flag false, _ => .no
  | .number spelling, numeric => .number (numeric spelling (List.mem_singleton.mpr rfl))
  | .string value, _ => .string (Quoted.quoteSpells value)
  | .array [], _ => .emptyArray blankNil
  | .array (item :: rest), numeric => by
      rw [tokens,numericOpening,numericAppend,itemTokens,numericAppend] at numeric
      rw [compact,compactItem]
      exact .array blankNil (compactSpelt item numeric.1.1) (itemsSpelt rest numeric.1.2)
  | .object [], _ => .emptyObject blankNil
  | .object ((name,value) :: rest), numeric => by
      rw [tokens,numericOpening,numericAppend,memberTokens,numericField,numericAppend] at numeric
      rw [compact,compactMember]
      have member := Spelt.member (Quoted.quoteSpells name) blankNil blankNil (compactSpelt value numeric.1.1)
      have whole := Spelt.object blankNil member (membersSpelt rest numeric.1.2)
      simpa using whole

theorem itemsSpelt : (items : List Json) → Numeric (itemTokens items) → Spelt (.items items) (itemsBehind items)
  | [], _ => .noItem blankNil
  | item :: rest, numeric => by
      rw [itemTokens,numericAppend] at numeric
      rw [itemsBehind,compactItem]
      · exact .item blankNil blankNil (compactSpelt item numeric.1) (itemsSpelt rest numeric.2)
      · nofun

theorem membersSpelt : (members : List (Text × Json)) → Numeric (memberTokens members) →
    Spelt (.members members) (membersBehind members)
  | [], _ => .noMember blankNil
  | (name,value) :: rest, numeric => by
      rw [memberTokens,numericField,numericAppend] at numeric
      rw [membersBehind,compactMember]
      · have member := Spelt.member (Quoted.quoteSpells name) blankNil blankNil (compactSpelt value numeric.1)
        have whole := Spelt.nextMember blankNil blankNil member (membersSpelt rest numeric.2)
        simpa using whole
      · nofun
end

end Json
end AuditLog
