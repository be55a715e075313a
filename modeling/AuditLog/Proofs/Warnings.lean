import AuditLog.Proofs.Accounts
import AuditLog.Proofs.Logging
import AuditLog.Proofs.Numerals

/-! The warnings of versions. A version is warned of as no decimal number if it denotes no number at all, so one
that denotes a number in another way than a decimal numeral does is passed over. Its text is kept whatever it is. -/
namespace AuditLog
open Grammar Reading Reader

namespace Numeral

theorem denotesIff (t : Text) : (ofText? t).isSome = true ↔
    Blank.trim t = [] ∨ Padded DecimalNumeral t ∨ Padded OtherNumeral t := by
  rw [ofTextSpelt,Blank.paddedIff decimalSolid,Blank.paddedIff otherSolid]

theorem paddedApart {t : Text} (decimal : Padded DecimalNumeral t) : ¬ Padded OtherNumeral t := by
  rw [Blank.paddedIff otherSolid]
  exact numeralsApart ((Blank.paddedIff decimalSolid t).mp decimal)

theorem blankDenotesNone {t : Text} (blank : Blank.trim t = []) :
    ¬ Padded DecimalNumeral t ∧ ¬ Padded OtherNumeral t := by
  rw [Blank.paddedIff decimalSolid,Blank.paddedIff otherSolid,blank]
  refine ⟨fun decimal => ?_,fun other => ?_⟩
  · cases decimal with
    | bare inside =>
        obtain ⟨_,_,same,_⟩ := unsignedFirst inside
        cases same
  · rcases other with word | radix
    · cases word with
      | bare same => cases same
    · cases radix

end Numeral

namespace Notice

theorem reportedIff (ceiling : Float) (version : Text) :
    ofVersion? ceiling version = some (.versionNotDecimal version) ↔
      ¬ Padded DecimalNumeral version ∧ ¬ Padded OtherNumeral version := by
  have denotes := Numeral.denotesIff version
  unfold ofVersion?
  split
  · rename_i blank
    exact iff_of_true rfl (Numeral.blankDenotesNone (by simpa using blank))
  · rename_i some
    rw [or_iff_right (by simpa using some)] at denotes
    rw [← not_or,← denotes]
    split
    · rename_i none
      simp [none]
    · rename_i n found
      rw [found]
      split <;> simp

end Notice

namespace Rule

theorem versionLeaves {ceiling : Float} {c d : Cursor} {scalar : Scalar}
    (stepped : c.next = (.ok (some (.scalar scalar)),d)) :
    (Rule.version ceiling).readNext.Tells c (.ok (Value.ofText? (Token.scalar scalar).leafText?))
      ((Token.scalar scalar).leafText?.bind (Notice.ofVersion? ceiling)).toList d := by
  have asked := nextTells c
  rw [stepped] at asked
  refine thenTells asked ?_
  have text : (scalarText (some (.scalar scalar))).Tells d (.ok (Token.scalar scalar).leafText?) [] d := by
    cases scalar <;> exact doneTells _ d
  exact thenTells text (quietTells (noteAnyTells _ d) (doneTells _ d))

theorem remarksNone {rule : Rule} (none : rule.Ceilings (fun _ => False)) (j : Json) : rule.remarks j = [] := by
  induction rule generalizing j with
  | version ceiling => exact none.elim
  | object noun field ih =>
      cases j with
      | object members =>
          simp only [remarks,List.flatMap_eq_nil_iff]
          exact fun m _ => ih m.1 (none m.1) m.2
      | _ => simp only [remarks]
  | list noun item ih =>
      cases j with
      | array items =>
          simp only [remarks,List.flatMap_eq_nil_iff]
          exact fun i _ => ih none i
      | _ => simp only [remarks]
  | nullable rule ih =>
      cases j with
      | null => rfl
      | _ => exact ih none _
  | _ => rfl

end Rule

namespace Reference

def versions : Json → List Text
  | .object members => members.flatMap (fun m => if m.1 = Text.of "eventVersion" then (leaf? m.2).join.toList else [])
  | _ => []

def version? : Json → Option Value
  | .object members => (members.reverse.lookup (Text.of "eventVersion")).bind text?
  | _ => none

theorem recordRemarks (ceiling : Float) (j : Json) :
    (Schema.record ceiling).remarks j = (versions j).flatMap (fun v => (Notice.ofVersion? ceiling v).toList) := by
  cases j with
  | object members =>
      rw [versions,List.flatMap_assoc,Schema.record,Rule.remarks]
      show members.flatMap (fun m => ((Schema.record ceiling).member m.1).remarks m.2) = _
      congr
      funext m
      split
      · rename_i version
        simp only [version,Schema.versionMember,Rule.remarks]
        generalize (leaf? m.2).join = text
        cases text <;> simp
      · rename_i other
        exact Rule.remarksNone (Schema.otherCeilings ceiling other) m.2
  | _ => simp only [Schema.record,Rule.remarks,versions,List.flatMap_nil]

theorem versionField (j : Json) : recordField? (Text.of "eventVersion") j = text? j := by
  rw [recordField?,if_pos (by decide)]

theorem recordVersion {j : Json} {d : Value} (told : recordData? j = some d) :
    d.field? (Text.of "eventVersion") = version? j := by
  obtain ⟨v,read,rfl⟩ := Option.map_eq_some_iff.mp told
  cases j with
  | object members =>
      obtain ⟨fields,rfl,_,held⟩ := recordFields read
      obtain ⟨fields',_,same,_,_,others⟩ := Account.resolveFields fields
      rw [same]
      show Fields.get? fields' _ = _
      rw [others _ (by decide),held,version?,show recordField? (Text.of "eventVersion") = text? from funext versionField]
  | _ => cases read

end Reference

namespace Decoding

/-- A version in a record is warned of as no decimal number exactly if it denotes no number, be it by a decimal
numeral or in one of the other ways; none is written in both. Whatever the ceiling, and wherever the member stands,
reading goes on behind it with its text as its value, and so for null, which has no text and no warning. So the
warnings of a log are those of the versions in it, one behind the other, and each event keeps the last version of its
record. -/
theorem versionsReported (options : Options) :
    (∀ version, (Notice.ofVersion? options.ceiling version = some (.versionNotDecimal version) ↔
        ¬ Padded DecimalNumeral version ∧ ¬ Padded OtherNumeral version) ∧
      (Padded OtherNumeral version → ¬ Padded DecimalNumeral version)) ∧
    (∀ c d scalar, c.next = (.ok (some (.scalar scalar)),d) →
      ((Schema.record options.ceiling).member (Text.of "eventVersion")).readNext.Tells c
        (.ok (Value.ofText? (Token.scalar scalar).leafText?))
        ((Token.scalar scalar).leafText?.bind (Notice.ofVersion? options.ceiling)).toList d) ∧
    ∀ raw t front array rest items, Laid options.recordsField t front array rest items →
      (∀ j ∈ items, (Reference.record? j).isSome = true) →
        (ofText options raw t).failure = none ∧
        (ofText options raw t).warnings =
          (items.flatMap Reference.versions).flatMap (fun v => (Notice.ofVersion? options.ceiling v).toList) ∧
        List.Forall₂ (fun j (e : Event) => e.data.field? (Text.of "eventVersion") = Reference.version? j) items
          (ofText options raw t).events := by
  refine ⟨fun version => ⟨Notice.reportedIff options.ceiling version,fun other decimal => ?_⟩,
    fun c d scalar stepped => ?_,fun raw t front array rest items laid accepted => ?_⟩
  · exact Numeral.paddedApart decimal other
  · rw [Schema.versionMember]
    exact Rule.versionLeaves stepped
  · obtain ⟨ended,_,noted⟩ := laidTells raw laid accepted
    refine ⟨ended,?_,(laidPaired raw laid accepted).imp (fun _ _ told => Reference.recordVersion told)⟩
    rw [noted,List.flatMap_assoc]
    congr
    funext j
    exact Reference.recordRemarks options.ceiling j

/-- A version in base 16 is no decimal numeral, and the log has no warning of it. -/
theorem hexadecimalPassed :
    ¬ Padded DecimalNumeral (Text.of "0x1") ∧
      (ofText Options.standard false (Text.of "\x7b\"Records\":[\x7b\"eventVersion\":\"0x1\"\x7d]\x7d")).failure = none ∧
      .versionNotDecimal (Text.of "0x1") ∉
        (ofText Options.standard false (Text.of "\x7b\"Records\":[\x7b\"eventVersion\":\"0x1\"\x7d]\x7d")).warnings := by
  have stands : ((0x78,16) : CodeUnit × Nat) ∈ radixes := by decide
  have digits : ∀ u ∈ Text.of "1", ∃ n, Text.hexValue? u = some n ∧ n < 16 :=
    List.forall_mem_singleton.mpr ⟨1,by decide,by decide⟩
  have other : Padded OtherNumeral (Text.of "0x1") :=
    ⟨[],Text.of "0x1",[],by decide,List.forall_mem_nil _,List.forall_mem_nil _,.inr (.mk stands (by decide) digits)⟩
  have member := Spelt.member (Quoted.quoteSpells (Text.of "eventVersion")) blankNil blankNil
    (.string (Quoted.quoteSpells (Text.of "0x1")))
  have array := Spelt.array blankNil (.object blankNil member (.noMember blankNil)) (.noItem blankNil)
  have front : Front (Text.of "Records") (Text.of "\x7b\"Records\":") :=
    .mk (.inl rfl) blankNil blankNil (Quoted.quoteSpells (Text.of "Records")) blankNil blankNil
  have laid : Laid Options.standard.recordsField (Text.of "\x7b\"Records\":[\x7b\"eventVersion\":\"0x1\"\x7d]\x7d")
      (Text.of "\x7b\"Records\":") (Text.of "[\x7b\"eventVersion\":\"0x1\"\x7d]") (Text.of "\x7d")
      [.object [(Text.of "eventVersion",.string (Text.of "0x1"))]] :=
    ⟨by decide,front,array⟩
  obtain ⟨ended,_,noted⟩ := laidTells false laid (List.forall_mem_singleton.mpr (by decide))
  refine ⟨fun decimal => Numeral.paddedApart decimal other,ended,fun warned => ?_⟩
  rw [noted,List.flatMap_singleton,Reference.recordRemarks] at warned
  obtain ⟨version,given,reported⟩ := List.mem_flatMap.mp warned
  have one : Reference.versions (.object [(Text.of "eventVersion",.string (Text.of "0x1"))]) = [Text.of "0x1"] := by decide
  rw [one] at given
  cases List.mem_singleton.mp given
  exact ((Notice.reportedIff _ _).mp (Option.mem_toList.mp reported)).2 other

end Decoding
end AuditLog
