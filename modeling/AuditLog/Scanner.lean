import AuditLog.Source

/-! Unread text and scanners over it. A scanner decides unit by unit from its state, so it cannot
see where one chunk ends and the next begins: `runFlat` says so. A chunk is read only when needed. -/
namespace AuditLog

structure Input where
  ahead : Text
  position : Nat
  source : Source
  ended : Bool
  deriving DecidableEq, Repr

namespace Input

def ofSource (source : Source) : Input := ⟨[],0,source,false⟩

def rest (i : Input) : Text := i.ahead ++ i.source.pending.flatten

def remaining (i : Input) : Nat := i.rest.length

theorem remainingParts (i : Input) :
    i.remaining = i.ahead.length + i.source.pending.flatten.length := by
  simp only [remaining,rest,List.length_append]

end Input

inductive Move (σ α : Type) where
  | take (next : σ)
  | finish (result : α)
  | leave (result : α)

structure Scanner (σ α : Type) where
  step : (position : Nat) → σ → CodeUnit → Move σ α
  atEnd : (position : Nat) → σ → α

namespace Scanner

inductive Pause (σ α : Type) where
  | dry (state : σ) (position : Nat)
  | done (result : α) (position : Nat) (ahead : Text)

variable {σ α : Type}

def along (m : Scanner σ α) (state : σ) (position : Nat) : Text → Pause σ α
  | [] => .dry state position
  | u :: rest =>
      match m.step position state u with
      | .take next => along m next (position + 1) rest
      | .finish result => .done result (position + 1) rest
      | .leave result => .done result position (u :: rest)

def refill (m : Scanner σ α) (broken : Option FileFlaw) (state : σ) (position : Nat)
    (history : List Access) : List Text → Except FileFlaw α × Input
  | [] =>
      match broken with
      | some flaw => (.error flaw,⟨[],position,⟨[],broken,.read :: history⟩,false⟩)
      | none => (.ok (m.atEnd position state),⟨[],position,⟨[],broken,.read :: history⟩,true⟩)
  | chunk :: pending =>
      match m.along state position chunk with
      | .dry state position => refill m broken state position (.read :: history) pending
      | .done result position ahead =>
          (.ok result,⟨ahead,position,⟨pending,broken,.read :: history⟩,false⟩)

def run (m : Scanner σ α) (state : σ) (i : Input) : Except FileFlaw α × Input :=
  match m.along state i.position i.ahead with
  | .done result position ahead => (.ok result,⟨ahead,position,i.source,i.ended⟩)
  | .dry state position =>
      if i.ended then (.ok (m.atEnd position state),⟨[],position,i.source,true⟩)
      else refill m i.source.broken state position i.source.history i.source.pending

theorem refillByReads (m : Scanner σ α) (state : σ) (position : Nat) (source : Source) :
    m.refill source.broken state position source.history source.pending =
      match source.read with
      | (.error flaw,source) => (.error flaw,⟨[],position,source,false⟩)
      | (.ok none,source) => (.ok (m.atEnd position state),⟨[],position,source,true⟩)
      | (.ok (some chunk),source) =>
          match m.along state position chunk with
          | .dry state position => m.refill source.broken state position source.history source.pending
          | .done result position ahead => (.ok result,⟨ahead,position,source,false⟩) := by
  obtain ⟨pending,broken,history⟩ := source
  cases pending with
  | nil => cases broken <;> rfl
  | cons chunk pending => rfl

theorem alongShorter {m : Scanner σ α} {state : σ} {position : Nat} {t : Text} {result : α}
    {after : Nat} {ahead : Text} (h : m.along state position t = .done result after ahead) :
    ahead.length ≤ t.length := by
  induction t generalizing state position with
  | nil => simp [along] at h
  | cons u rest ih =>
      unfold along at h
      split at h
      · have := ih h; simp only [List.length_cons]; omega
      · cases h; simp
      · cases h; simp

theorem refillShorter (m : Scanner σ α) (broken : Option FileFlaw) (state : σ) (position : Nat)
    (history : List Access) (pending : List Text) :
    (m.refill broken state position history pending).2.remaining ≤ pending.flatten.length := by
  induction pending generalizing state position history with
  | nil => cases broken <;> simp [refill,Input.remaining,Input.rest]
  | cons chunk pending ih =>
      unfold refill
      split
      · rename_i next after h
        have := ih next after (.read :: history)
        simp only [List.flatten_cons,List.length_append]; omega
      · rename_i result after ahead h
        have := alongShorter h
        simp only [Input.remaining,Input.rest,List.flatten_cons,List.length_append]; omega

theorem runShorter (m : Scanner σ α) (state : σ) (i : Input) :
    (m.run state i).2.remaining ≤ i.remaining := by
  unfold run
  split
  · rename_i h
    have := alongShorter h
    simp only [Input.remaining,Input.rest,List.length_append]; omega
  · split
    · simp only [Input.remaining,Input.rest,List.length_append,List.length_nil]; omega
    · have := refillShorter m i.source.broken ‹_› ‹_› i.source.history i.source.pending
      simp only [Input.remaining,Input.rest,List.length_append] at *; omega

def Takes (m : Scanner σ α) (state : σ) (good : α → Prop) : Prop :=
  (∀ position u result, m.step position state u = .leave result → ¬ good result) ∧
    ∀ position, ¬ good (m.atEnd position state)

theorem alongTakes {m : Scanner σ α} {state : σ} {good : α → Prop} (takes : m.Takes state good)
    {position : Nat} {t : Text} {result : α} {after : Nat} {ahead : Text}
    (h : m.along state position t = .done result after ahead) (ok : good result) :
    ahead.length < t.length := by
  cases t with
  | nil => simp [along] at h
  | cons u rest =>
      unfold along at h
      split at h
      · have := alongShorter h; simp only [List.length_cons]; omega
      · cases h; simp
      · rename_i stop
        cases h; exact absurd ok (takes.1 _ _ _ stop)

theorem alongDry {m : Scanner σ α} {state next : σ} {position after : Nat} {t : Text}
    (h : m.along state position t = .dry next after) : t = [] ∧ next = state ∨ 0 < t.length := by
  cases t with
  | nil => simp only [along,Pause.dry.injEq] at h; exact .inl ⟨rfl,h.1.symm⟩
  | cons u rest => exact .inr (by simp)

theorem refillTakes {m : Scanner σ α} {state : σ} {good : α → Prop} (takes : m.Takes state good)
    {broken : Option FileFlaw} {position : Nat} {history : List Access} {pending : List Text}
    {result : α} (h : (m.refill broken state position history pending).1 = .ok result)
    (ok : good result) :
    (m.refill broken state position history pending).2.remaining < pending.flatten.length := by
  induction pending generalizing position history with
  | nil =>
      unfold refill at h
      split at h
      · cases h
      · cases h; exact absurd ok (takes.2 _)
  | cons chunk pending ih =>
      unfold refill at h ⊢
      split at h
      · rename_i next after dry
        rcases alongDry dry with ⟨empty,same⟩ | full
        · subst empty; subst same
          simpa [dry] using ih h
        · have := refillShorter m broken next after (.read :: history) pending
          simp only [List.flatten_cons,List.length_append]; omega
      · rename_i found after ahead done
        cases h
        have := alongTakes takes done ok
        simp only [Input.remaining,Input.rest,List.flatten_cons,List.length_append]; omega

theorem runTakes {m : Scanner σ α} {state : σ} {good : α → Prop} (takes : m.Takes state good)
    {i : Input} {result : α} (h : (m.run state i).1 = .ok result) (ok : good result) :
    (m.run state i).2.remaining < i.remaining := by
  unfold run at h ⊢
  split at h
  · rename_i done
    cases h
    have := alongTakes takes done ok
    simp only [Input.remaining,Input.rest,List.length_append]; omega
  · rename_i next after dry
    rcases alongDry dry with ⟨empty,same⟩ | full
    · subst same
      split at h
      · cases h; exact absurd ok (takes.2 _)
      · rename_i open'
        have := refillTakes takes h ok
        simp only [open',Bool.false_eq_true,if_false,i.remainingParts]; omega
    · split at h
      · rename_i ended
        simp only [ended,if_true,Input.remaining,Input.rest,List.length_append,List.length_nil]; omega
      · rename_i open'
        have := refillShorter m i.source.broken next after i.source.history i.source.pending
        simp only [open',Bool.false_eq_true,if_false,i.remainingParts]; omega

def flat (m : Scanner σ α) (state : σ) (position : Nat) : Text → α × Nat × Text
  | [] => (m.atEnd position state,position,[])
  | u :: rest =>
      match m.step position state u with
      | .take next => flat m next (position + 1) rest
      | .finish result => (result,position + 1,rest)
      | .leave result => (result,position,u :: rest)

theorem alongDone {m : Scanner σ α} {state : σ} {position : Nat} {t : Text} {result : α}
    {after : Nat} {ahead : Text} (h : m.along state position t = .done result after ahead) (more : Text) :
    m.flat state position (t ++ more) = (result,after,ahead ++ more) := by
  induction t generalizing state position with
  | nil => simp [along] at h
  | cons u rest ih =>
      simp only [along] at h
      simp only [List.cons_append,flat]
      split at h
      · exact ih h
      · cases h; rfl
      · cases h; rfl

theorem alongOpen {m : Scanner σ α} {state next : σ} {position after : Nat} {t : Text}
    (h : m.along state position t = .dry next after) (more : Text) :
    m.flat state position (t ++ more) = m.flat next after more := by
  induction t generalizing state position with
  | nil => cases h; rfl
  | cons u rest ih =>
      simp only [along] at h
      simp only [List.cons_append,flat]
      split at h
      · exact ih h
      · cases h
      · cases h

def Agrees (flat : α × Nat × Text) (ran : Except FileFlaw α × Input) : Prop :=
  ran.1 = .ok flat.1 ∧ ran.2.position = flat.2.1 ∧ ran.2.rest = flat.2.2 ∧
    (ran.2.ended = true → ran.2.source.pending = []) ∧ ran.2.source.broken = none

theorem refillFlat (m : Scanner σ α) (state : σ) (position : Nat) (history : List Access)
    (pending : List Text) :
    Agrees (m.flat state position pending.flatten) (m.refill none state position history pending) := by
  induction pending generalizing state position history with
  | nil => exact ⟨rfl,rfl,rfl,fun _ => rfl,rfl⟩
  | cons chunk pending ih =>
      simp only [refill,List.flatten_cons]
      cases h : m.along state position chunk with
      | dry next after =>
          rw [alongOpen h]
          exact ih next after _
      | done result after ahead =>
          rw [alongDone h]
          exact ⟨rfl,rfl,rfl,fun e => by simp at e,rfl⟩

theorem runFlat (m : Scanner σ α) (state : σ) (i : Input) (sound : i.source.broken = none)
    (settled : i.ended = true → i.source.pending = []) :
    Agrees (m.flat state i.position i.rest) (m.run state i) := by
  unfold run Input.rest
  cases h : m.along state i.position i.ahead with
  | dry next after =>
      rw [alongOpen h]
      by_cases e : i.ended = true
      · simp only [e,if_true,settled e,List.flatten_nil]
        exact ⟨rfl,rfl,by simp [Input.rest,settled e,flat],fun _ => settled e,sound⟩
      · simp only [e]
        rw [sound]
        exact refillFlat m next after i.source.history i.source.pending
  | done result after ahead =>
      rw [alongDone h]
      exact ⟨rfl,rfl,rfl,settled,sound⟩

end Scanner
end AuditLog
