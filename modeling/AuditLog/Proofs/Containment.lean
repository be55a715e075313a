import AuditLog.Proofs.Guards
import AuditLog.Proofs.Release

/-! A step that fails is contained. Whatever the source, and whatever failed before, no more comes of it than
that text has been read and that the start of the token under way has gone forward, past the last token told. -/
namespace AuditLog
open Reading

def Input.Ahead (i j : Input) : Prop :=
  ∃ taken, i.rest = taken ++ j.rest ∧ j.position = i.position + taken.length

theorem Input.aheadThen {i j k : Input} (first : i.Ahead j) (second : j.Ahead k) : i.Ahead k := by
  obtain ⟨taken,rest,position⟩ := first
  obtain ⟨taken',rest',position'⟩ := second
  refine ⟨taken ++ taken',by rw [rest,rest',List.append_assoc],?_⟩
  rw [position',position,List.length_append,Nat.add_assoc]

theorem Input.aheadPosition {i j : Input} (ahead : i.Ahead j) : i.position ≤ j.position := by
  obtain ⟨taken,_,position⟩ := ahead
  rw [position]
  exact Nat.le_add_right _ _

namespace Scanner
variable {σ α : Type}

theorem alongAhead {m : Scanner σ α} {state : σ} {position after : Nat} {t ahead : Text} {result : α}
    (ran : m.along state position t = .done result after ahead) :
    ∃ taken, t = taken ++ ahead ∧ after = position + taken.length := by
  have flat := alongDone ran []
  obtain ⟨taken,parts,place⟩ := m.flatTaken state position (t ++ [])
  rw [flat] at parts place
  exact ⟨taken,by simpa using parts,place⟩

theorem alongPassed {m : Scanner σ α} {state next : σ} {position after : Nat} {t : Text}
    (ran : m.along state position t = .dry next after) : after = position + t.length := by
  induction t generalizing state position with
  | nil => cases ran; rfl
  | cons u rest ih =>
      simp only [along] at ran
      split at ran
      · rw [ih ran,List.length_cons]
        omega
      · cases ran
      · cases ran

theorem refillAhead (m : Scanner σ α) (broken : Option FileFlaw) (state : σ) (position : Nat)
    (history : List Access) (pending : List Text) :
    ∃ taken, pending.flatten = taken ++ (m.refill broken state position history pending).2.rest ∧
      (m.refill broken state position history pending).2.position = position + taken.length := by
  induction pending generalizing state position history with
  | nil =>
      cases broken <;> exact ⟨[],rfl,rfl⟩
  | cons chunk pending ih =>
      rw [refill]
      cases ran : m.along state position chunk with
      | done result after ahead =>
          obtain ⟨taken,rfl,place⟩ := alongAhead ran
          exact ⟨taken,by simp [Input.rest],place⟩
      | dry next after =>
          obtain ⟨taken,parts,place⟩ := ih next after (.read :: history)
          refine ⟨chunk ++ taken,?_,?_⟩
          · rw [List.flatten_cons,parts,List.append_assoc]
          · rw [place,alongPassed ran,List.length_append,Nat.add_assoc]

theorem runAhead (m : Scanner σ α) (state : σ) (i : Input) : i.Ahead (m.run state i).2 := by
  rw [run]
  cases ran : m.along state i.position i.ahead with
  | done result after ahead =>
      obtain ⟨taken,parts,place⟩ := alongAhead ran
      exact ⟨taken,by simp [Input.rest,parts],place⟩
  | dry next after =>
      by_cases ended : i.ended = true
      · simp only [if_pos ended]
        exact ⟨i.ahead,rfl,alongPassed ran⟩
      · simp only [if_neg ended]
        obtain ⟨taken,parts,place⟩ := m.refillAhead i.source.broken next after i.source.history i.source.pending
        refine ⟨i.ahead ++ taken,?_,?_⟩
        · rw [Input.rest,parts,List.append_assoc]
        · rw [place,alongPassed ran,List.length_append,Nat.add_assoc]

end Scanner

namespace Lexer

def Later (i : Input) (start : Nat) (l k : Lexing) : Prop :=
  l = k ∧ i.Ahead l.input ∧ l.start ≤ l.input.position ∧ (l.start = start ∨ i.position ≤ l.start)

theorem keptLater (i : Input) (start : Nat) : Kept (Later i start) (fun fault => ∃ flaw, fault = .file flaw) where
  scans m state l k h := by
    obtain ⟨rfl,ahead,begun,first⟩ := h
    have further := m.runAhead state l.input
    have found := (m.runAsks state l.input).2
    simp only [scan]
    generalize m.run state l.input = ran at further found ⊢
    obtain ⟨result,j⟩ := ran
    have later : Later i start ⟨j,l.start⟩ ⟨j,l.start⟩ :=
      ⟨rfl,Input.aheadThen ahead further,Nat.le_trans begun (Input.aheadPosition further),first⟩
    cases result with
    | error flaw => exact .error ⟨later,flaw,rfl⟩
    | ok a => exact .ok ⟨later,_,found a rfl⟩
  marks l k h := ⟨by rw [h.1],h.2.1,Nat.le_refl _,.inr (Input.aheadPosition h.2.1)⟩
  start l k h := by rw [h.1]
  position l k h := by rw [h.1]

end Lexer

namespace Cursor

structure Inside (c : Cursor) : Prop where
  start : c.start ≤ c.input.position
  stop : c.stop ≤ c.input.position

theorem tokenLater {c : Cursor} (inside : c.Inside) {result : Except Fault (Option Token)} {l : Lexer.Lexing}
    (ran : (Lexer.token c.expecting c.nesting.head?).run ⟨c.input,c.start⟩ = (result,l)) :
    Lexer.Later c.input c.start l l := by
  have steady := Lexer.tokenSteady (Lexer.keptLater c.input c.start) c.expecting c.nesting.head?
    ⟨c.input,c.start⟩ ⟨c.input,c.start⟩ ⟨rfl,⟨[],rfl,rfl⟩,inside.start,.inl rfl⟩
  rw [ran] at steady
  cases steady with
  | ok later => exact later
  | error later => exact later.1

theorem insideNext {c d : Cursor} {result : Except Fault (Option Token)} (inside : c.Inside)
    (stepped : c.next = (result,d)) : d.Inside := by
  unfold next at stepped
  split at stepped
  · cases stepped
    exact inside
  · split at stepped <;> cases stepped <;> rename_i ran
    · obtain ⟨_,ahead,begun,_⟩ := tokenLater inside ran
      exact ⟨begun,Nat.le_trans inside.stop (Input.aheadPosition ahead)⟩
    · obtain ⟨_,_,begun,_⟩ := tokenLater inside ran
      exact ⟨begun,Nat.le_refl _⟩

theorem insideClose {c : Cursor} (inside : c.Inside) : c.close.Inside := by
  unfold close
  split
  · exact inside
  · exact ⟨inside.start,inside.stop⟩

theorem insideAfter (source : Source) (ops : List Operation) : (Operation.after ops (.ofSource source)).cursor.Inside :=
  Session.keptAfter ops insideNext insideClose ⟨Nat.le_refl _,Nat.le_refl _⟩

/-- All that may come of a step that fails. -/
structure Contained (c d : Cursor) : Prop where
  frame : d = { c with input := d.input, start := d.start }
  shown : d.view = { c.view with start := d.start }
  ahead : c.input.Ahead d.input
  start : d.start = c.start ∨ c.start ≤ d.start ∧ c.stop ≤ d.start

theorem nextContained {c d : Cursor} {fault : Fault} (inside : c.Inside) (stepped : c.next = (.error fault,d)) :
    c.Contained d := by
  unfold next at stepped
  split at stepped
  · cases stepped
    exact ⟨rfl,rfl,⟨[],rfl,rfl⟩,.inl rfl⟩
  · split at stepped <;> cases stepped
    rename_i ran
    obtain ⟨_,ahead,_,first⟩ := tokenLater inside ran
    refine ⟨rfl,rfl,ahead,first.imp id (fun past => ?_)⟩
    exact ⟨Nat.le_trans inside.start past,Nat.le_trans inside.stop past⟩

end Cursor

namespace Reader

theorem nextFails {s s' : Session} {fault : Fault} (failed : next.run s = (.error fault,s')) :
    s.cursor.next = (.error fault,s'.cursor) ∧ s'.noted = s.noted := by
  cases stepped : s.cursor.next with
  | mk result d =>
      rw [Cursor.nextRun stepped] at failed
      cases failed
      exact ⟨rfl,rfl⟩

theorem nextTextFails {s s' : Session} {fault : Fault} (failed : nextText.run s = (.error fault,s')) :
    next.run s = (.error fault,s') := by
  rcases errorBind failed with failed | ⟨token,m,_,ran⟩
  · exact failed
  · split at ran <;> cases ran

theorem flagFails {s s' : Session} {fault : Fault} (failed : flag.run s = (.error fault,s')) : s' = s := by
  simp only [flag,runBind,runState] at failed
  split at failed <;> cases failed
  rfl

theorem subtreeRefused {s : Session} (leaf : ∀ container, s.cursor.current ≠ some (.opening container)) :
    subtree.run s = (.error (.notContainer s.cursor.current s.cursor.start),s) := by
  simp only [subtree,runBind,runState]
  cases stands : s.cursor.current with
  | none => rfl
  | some token =>
      cases token with
      | opening container => exact absurd stands (leaf container)
      | _ => rfl

/-- Whatever the source supplies, in however many chunks, be it that a read fails, and whatever was asked of the
session before: when the next token cannot be told, neither as a token nor as text, the token, text and name told
last stand, and so do the end of that token, the open containers and what the grammar expects; of the text, at
most more is read, and the start of the token under way may go forward, past that end. To ask for a flag in vain,
or for the text of a container where none opens, changes nothing at all. -/
theorem failuresContained (source : Source) (ops : List Operation) (s : Session)
    (reached : s = Operation.after ops (.ofSource source)) :
    (∀ fault s', next.run s = (.error fault,s') ∨ nextText.run s = (.error fault,s') →
        s.cursor.Contained s'.cursor ∧ s'.noted = s.noted) ∧
      (∀ fault s', flag.run s = (.error fault,s') → s' = s) ∧
      ((∀ container, s.cursor.current ≠ some (.opening container)) →
        subtree.run s = (.error (.notContainer s.cursor.current s.cursor.start),s)) := by
  subst reached
  refine ⟨fun fault s' failed => ?_,fun _ _ => flagFails,subtreeRefused⟩
  obtain ⟨stepped,noted⟩ := nextFails (failed.elim id nextTextFails)
  exact ⟨Cursor.nextContained (Cursor.insideAfter source ops) stepped,noted⟩

theorem failureAfterBadEscapeContained :
    ∃ fault s', next.run (Operation.after [.next,.next] (.ofSource (.ofChunks [Text.of "[\"\\x\""]))) =
        (.error fault,s') ∧
      (Operation.after [.next,.next] (.ofSource (.ofChunks [Text.of "[\"\\x\""]))).cursor.Contained s'.cursor := by
  have failed : (next.run (Operation.after [.next,.next] (.ofSource (.ofChunks [Text.of "[\"\\x\""])))).1.isOk =
      false := by decide +kernel
  cases ran : next.run (Operation.after [.next,.next] (.ofSource (.ofChunks [Text.of "[\"\\x\""]))) with
  | mk result s' =>
      rw [ran] at failed
      cases result with
      | ok token => cases failed
      | error fault => exact ⟨fault,s',rfl,((failuresContained _ _ _ rfl).1 fault s' (.inl ran)).1⟩

end Reader
end AuditLog
