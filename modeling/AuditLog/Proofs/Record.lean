import AuditLog.Proofs.Denotation
import AuditLog.Proofs.Quotation

/-! Records. Wherever a session has come to stand on the opening of an object, the record builder
takes the object exactly if the reference decoder takes its tree, and makes the same of it. -/
namespace AuditLog
open Reading Grammar

namespace Cursor

structure Settled (c : Cursor) : Prop where
  alike : c.Alike c
  opening : ∀ container, c.token = some (.opening container) →
    c.nesting.head? = some container ∧ c.expecting = expectingAfter c.nesting c.token

theorem settledOfChunks (chunks : List Text) : (ofSource (.ofChunks chunks)).Settled :=
  ⟨alikeOfChunks rfl,nofun⟩

theorem settledClose {c : Cursor} (settled : c.Settled) : c.close.Settled := by
  refine ⟨closeAlike settled.alike,?_⟩
  unfold close
  split <;> exact settled.opening

theorem openingNext {c d : Cursor} {result : Except Fault (Option Token)} (settled : c.Settled)
    (stepped : c.next = (result,d)) (container : Container) (stands : d.token = some (.opening container)) :
    d.nesting.head? = some container ∧ d.expecting = expectingAfter d.nesting d.token := by
  unfold next at stepped
  split at stepped
  · cases stepped
    exact settled.opening container stands
  · split at stepped
    · cases stepped
      exact settled.opening container stands
    · cases stepped
      simp only [advanced] at stands
      subst stands
      exact ⟨rfl,rfl⟩

theorem settledNext {c d : Cursor} {result : Except Fault (Option Token)} (settled : c.Settled)
    (stepped : c.next = (result,d)) : d.Settled := by
  have paired := nextAlike settled.alike
  rw [stepped] at paired
  refine ⟨?_,openingNext settled stepped⟩
  cases paired with
  | ok related => exact related.1
  | error related => exact related.1

end Cursor

namespace Session

theorem keptBlind {kept : Cursor → Prop} (steps : ∀ {c d result}, kept c → c.next = (result,d) → kept d) :
    Blind (fun s t => s = t ∧ kept s.cursor) (fun _ => True) where
  reads := by
    rintro s _ ⟨rfl,before⟩
    cases stepped : s.cursor.next with
    | mk result d =>
        have after := steps before stepped
        rw [Cursor.nextRun stepped]
        cases result with
        | error fault => exact .error ⟨⟨rfl,after⟩,trivial⟩
        | ok token => exact .ok ⟨⟨rfl,after⟩,Cursor.nextCurrent stepped⟩
  noted n s t h := ⟨by rw [h.1],h.2⟩
  current s t h := by rw [h.1]
  name s t h := by rw [h.1]
  start s t h := by rw [h.1]
  position s t h := by rw [h.1]
  content _ _ := trivial

theorem keptAfter {kept : Cursor → Prop} (ops : List Operation)
    (steps : ∀ {c d result}, kept c → c.next = (result,d) → kept d) (closes : ∀ {c}, kept c → kept c.close)
    {s : Session} (before : kept s.cursor) : kept (Operation.after ops s).cursor :=
  ((keptBlind steps).afterCarries (fun _ => trivial) (fun s t h => ⟨by rw [h.1],closes h.2⟩) ops ⟨rfl,before⟩).2

theorem settledAfter (chunks : List Text) (ops : List Operation) :
    (Operation.after ops (.ofSource (.ofChunks chunks))).cursor.Settled :=
  keptAfter ops Cursor.settledNext Cursor.settledClose (Cursor.settledOfChunks chunks)

end Session

namespace Cursor

theorem settledOn {c : Cursor} {container : Container} (settled : c.Settled)
    (stands : c.current = some (.opening container)) :
    On c (.opening container) c.nesting.tail := by
  have opened : c.closed = false := by
    cases shut : c.closed with
    | false => rfl
    | true => simp [current,shut] at stands
  have token : c.token = some (.opening container) := by simpa [current,opened] using stands
  obtain ⟨nesting,expecting⟩ := settled.opening container token
  refine ⟨⟨opened,(settled.alike.input opened).left⟩,?_,by rw [expecting,token]⟩
  cases same : c.nesting with
  | nil => rw [same] at nesting; cases nesting
  | cons k rest =>
      rw [same] at nesting
      cases nesting
      rfl

end Cursor

theorem Answers.iff {α : Type} {ran : Except Fault α × Session} {expected : Option α} {d : Cursor}
    {noted : List Notice} (answers : Answers ran expected d noted) (a : α) : ran.1 = .ok a ↔ expected = some a := by
  cases expected with
  | none =>
      obtain ⟨fault,s,rfl⟩ := answers
      exact ⟨nofun,nofun⟩
  | some b =>
      have same : ran = (.ok b,⟨d,noted⟩) := answers
      simp [same]

namespace Schema

end Schema

namespace Reference

theorem recordAccepts {members : List (Text × Json)} :
    (∃ v, record? (.object members) = some v) ↔ ∀ m ∈ members, (recordField? m.1 m.2).isSome = true := by
  rw [← entriesAccept,← Option.isSome_iff_exists]
  simp [record?,members?]

theorem recordFields {members : List (Text × Json)} {v : Value} (h : record? (.object members) = some v) :
    ∃ fields, v = .object fields ∧ fields.map Prod.fst = Fields.keyOrder (members.map Prod.fst) ∧
      ∀ key, Fields.get? fields key = (members.reverse.lookup key).bind (recordField? key) := by
  obtain ⟨entries,found,rfl⟩ := Option.map_eq_some_iff.mp h
  rw [← Fields.ofListAssembles]
  refine ⟨_,rfl,?_,fun key => ?_⟩
  · rw [Fields.keysOfList,entriesKeys found]
  · rw [Fields.getOfList,entriesLast found]

end Reference

namespace Schema
open Reference

end Schema
end AuditLog
