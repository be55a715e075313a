import AuditLog.Account
import AuditLog.Proofs.Reference

/-! Key order at every level. Fields that are set, erased and set again stay in key order, so whatever
a rule makes of a tree is arranged, and so is a record once its account is known. -/
namespace AuditLog

namespace Value

inductive Arranged : Value → Prop where
  | null : Arranged .null
  | flag {value} : Arranged (.flag value)
  | text {value} : Arranged (.text value)
  | time {value} : Arranged (.time value)
  | identifier {value} : Arranged (.identifier value)
  | list {items} (each : ∀ v ∈ items, Arranged v) : Arranged (.list items)
  | object {fields} (ordered : Fields.Ordered fields) (each : ∀ f ∈ fields, Arranged f.2) : Arranged (.object fields)

end Value

namespace Reference
open Value

theorem anythingArranged (j : Json) : (anything j).Arranged := by
  unfold anything
  split
  · exact .text
  · exact .null
  · exact .text

theorem textArranged {j : Json} {v : Value} (read : text? j = some v) : v.Arranged := by
  unfold text? at read
  split at read
  · cases read; exact .text
  · cases read; exact .null
  · cases read

theorem membersArranged {field : Text → Json → Option Value} (each : ∀ name j v, field name j = some v → v.Arranged)
    {members : List (Text × Json)} {v : Value} (read : members? field members = some v) : v.Arranged := by
  obtain ⟨entries,made,rfl⟩ := Option.map_eq_some_iff.mp read
  rw [← Fields.ofListAssembles]
  refine .object (Fields.ofListOrdered entries) (fun f member => ?_)
  obtain ⟨m,_,told⟩ := mapMember made (Fields.ofListMember member)
  obtain ⟨v,read,rfl⟩ := Option.map_eq_some_iff.mp told
  exact each _ _ v read

end Reference

namespace Rule
open Reference

theorem decodeArranged (rule : Rule) : ∀ j v, rule.decode? j = some v → v.Arranged := by
  induction rule with
  | anything =>
      intro j v read
      cases read
      exact anythingArranged j
  | text => exact fun j v read => textArranged read
  | version ceiling => exact fun j v read => textArranged read
  | flag =>
      intro j v read
      cases j with
      | null => cases read; exact .null
      | flag value => cases read; exact .flag
      | _ => cases read
  | time =>
      intro j v read
      simp only [decode?,time?] at read
      split at read
      · obtain ⟨i,_,rfl⟩ := Option.map_eq_some_iff.mp read
        exact .time
      · cases read; exact .null
      · cases read
  | identifier =>
      intro j v read
      simp only [decode?,identifier?] at read
      split at read
      · obtain ⟨u,_,rfl⟩ := Option.map_eq_some_iff.mp read
        exact .identifier
      · cases read
  | object noun field ih =>
      intro j v read
      cases j with
      | object members =>
          simp only [decode?] at read
          exact membersArranged ih read
      | _ => simp only [decode?] at read; cases read
  | list noun item ih =>
      intro j v read
      cases j with
      | array items =>
          obtain ⟨values,made,rfl⟩ := Option.map_eq_some_iff.mp read
          refine .list (fun v member => ?_)
          obtain ⟨j,_,told⟩ := mapMember made member
          exact ih j v told
      | _ => cases read
  | nullable rule ih =>
      intro j v read
      cases j with
      | null => cases read; exact .null
      | _ => exact ih _ v read

end Rule

namespace Account

theorem resolveFields (fields : Fields) :
    ∃ fields' last, resolve (.object fields) = .object fields' ∧ (last = [] ∨ last = [key]) ∧
      fields'.map Prod.fst = (fields.map Prod.fst).filter (· != key) ++ last ∧
      ∀ name, name ≠ key → Fields.get? fields' name = Fields.get? fields name := by
  have bare (name : Text) (other : name ≠ key) : Fields.get? (Fields.erase fields key) name = Fields.get? fields name := by
    rw [Fields.getErase,if_neg other]
  simp only [resolve]
  split
  · rename_i account _
    refine ⟨_,[key],rfl,.inr rfl,?_,fun name other => ?_⟩
    · rw [Fields.keysPut,Fields.keysErase,if_neg (by simp),Fields.insertOther (by decide)]
    · rw [Fields.getPut,if_neg other,bare name other]
  · exact ⟨_,[],rfl,.inl rfl,by rw [Fields.keysErase,List.append_nil],bare⟩

end Account
end AuditLog
