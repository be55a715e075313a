import AuditLog.Fault

/-! Computations over a state of which part is still unread. They may fail, they keep the state
they reached, and none gives back what was read: the unread part never grows. Each tells how often
it asks for a token on its way, whatever comes of it. -/
namespace AuditLog

structure Reading (σ : Type) (unread : σ → Nat) (α : Type) where
  run : σ → Except Fault α × σ
  forward : ∀ s, unread (run s).2 ≤ unread s
  asks : σ → Nat

namespace Reading
variable {σ : Type} {unread : σ → Nat} {α β : Type}

def fail (fault : Fault) : Reading σ unread α := ⟨fun s => (.error fault,s),fun _ => Nat.le_refl _,fun _ => 0⟩

def state : Reading σ unread σ := ⟨fun s => (.ok s,s),fun _ => Nat.le_refl _,fun _ => 0⟩

def andThen (r : Reading σ unread α) (f : α → Reading σ unread β) : Reading σ unread β where
  run s :=
    match r.run s with
    | (.error fault,s) => (.error fault,s)
    | (.ok a,s) => (f a).run s
  forward s := by
    have first := r.forward s
    split
    · rename_i h; simpa [h] using first
    · rename_i a next h
      rw [h] at first
      exact Nat.le_trans ((f a).forward next) first
  asks s :=
    r.asks s +
      match r.run s with
      | (.error _,_) => 0
      | (.ok a,s) => (f a).asks s

instance : Monad (Reading σ unread) where
  pure a := ⟨fun s => (.ok a,s),fun _ => Nat.le_refl _,fun _ => 0⟩
  bind := andThen

theorem runPure (a : α) (s : σ) : (pure a : Reading σ unread α).run s = (.ok a,s) := rfl

theorem runFail (fault : Fault) (s : σ) : (fail fault : Reading σ unread α).run s = (.error fault,s) := rfl

theorem runState (s : σ) : (state : Reading σ unread σ).run s = (.ok s,s) := rfl

theorem runBind (r : Reading σ unread α) (f : α → Reading σ unread β) (s : σ) :
    (r >>= f).run s =
      match r.run s with
      | (.error fault,s) => (.error fault,s)
      | (.ok a,s) => (f a).run s := rfl

theorem asksBind (r : Reading σ unread α) (f : α → Reading σ unread β) (s : σ) :
    (r >>= f).asks s =
      r.asks s +
        match r.run s with
        | (.error _,_) => 0
        | (.ok a,s) => (f a).asks s := rfl

theorem forwardTo (r : Reading σ unread α) {s after : σ} {result : Except Fault α}
    (h : r.run s = (result,after)) : unread after ≤ unread s := by
  have forward := r.forward s
  rwa [h] at forward

def Takes (r : Reading σ unread α) (good : α → Prop) : Prop :=
  ∀ s a, (r.run s).1 = .ok a → good a → unread (r.run s).2 < unread s

theorem takesPure {a : α} {good : α → Prop} (bad : ¬ good a) :
    (pure a : Reading σ unread α).Takes good := by
  intro s b h ok
  cases h; exact absurd ok bad

theorem takesFail (fault : Fault) (good : α → Prop) : (fail fault : Reading σ unread α).Takes good := by
  intro s b h; cases h

theorem takesBind {r : Reading σ unread α} {f : α → Reading σ unread β} {good : β → Prop}
    (one : ∀ a, r.Takes (fun b => b = a) ∨ (f a).Takes good) : (r >>= f).Takes good := by
  intro s b h ok
  rw [runBind] at h ⊢
  have first := r.forward s
  cases e : r.run s with
  | mk result next =>
      rw [e] at h first
      cases result with
      | error fault => cases h
      | ok a =>
          have second := (f a).forward next
          simp only at h first ⊢
          rcases one a with early | late
          · have := early s a (by rw [e]) rfl
            rw [e] at this
            simp only at this
            omega
          · have := late next b h ok
            omega

end Reading
end AuditLog
