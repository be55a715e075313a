import AuditLog.Operation

/-! Two computations side by side. They are coupled when related states give the same result, or
the same fault, and related states again; what is related may differ from one step to the next.
A relation that no reader can tell apart by what it sees carries over to every rule. -/
namespace AuditLog

namespace Reading
variable {σ : Type} {unread : σ → Nat} {α β : Type}

inductive Paired (after : α → σ → σ → Prop) (failed : Fault → σ → σ → Prop) :
    Except Fault α × σ → Except Fault α × σ → Prop where
  | ok {a s t} (related : after a s t) : Paired after failed (.ok a,s) (.ok a,t)
  | error {fault s t} (related : failed fault s t) : Paired after failed (.error fault,s) (.error fault,t)

def Coupled (before : σ → σ → Prop) (r r' : Reading σ unread α) (after : α → σ → σ → Prop)
    (failed : Fault → σ → σ → Prop) : Prop :=
  ∀ s t, before s t → Paired after failed (r.run s) (r'.run t)

section
variable {before middle : σ → σ → Prop} {r r' : Reading σ unread α} {failed : Fault → σ → σ → Prop}

theorem coupledPure {after : α → σ → σ → Prop} (a : α) (h : ∀ s t, before s t → after a s t) :
    Coupled before (pure a : Reading σ unread α) (pure a) after failed :=
  fun s t related => .ok (h s t related)

theorem coupledFail {after : α → σ → σ → Prop} (fault : Fault)
    (h : ∀ s t, before s t → failed fault s t) :
    Coupled before (fail fault : Reading σ unread α) (fail fault) after failed :=
  fun s t related => .error (h s t related)

theorem coupledBind {f f' : α → Reading σ unread β} {between : α → σ → σ → Prop}
    {after : β → σ → σ → Prop} (first : Coupled before r r' between failed)
    (second : ∀ a, Coupled (between a) (f a) (f' a) after failed) :
    Coupled before (r >>= f) (r' >>= f') after failed := by
  intro s t related
  have paired := first s t related
  rw [runBind,runBind]
  generalize r.run s = x at paired ⊢
  generalize r'.run t = y at paired ⊢
  cases paired with
  | ok related => exact second _ _ _ related
  | error related => exact .error related

theorem coupledMap {f : α → β} {between : α → σ → σ → Prop} {after : β → σ → σ → Prop}
    (first : Coupled before r r' between failed) (h : ∀ a s t, between a s t → after (f a) s t) :
    Coupled before (f <$> r) (f <$> r') after failed :=
  coupledBind first (fun a => coupledPure (f a) (h a))

theorem coupledState {f f' : σ → Reading σ unread β} {after : β → σ → σ → Prop}
    (h : ∀ s t, before s t → Paired after failed ((f s).run s) ((f' t).run t)) :
    Coupled before (state >>= f) (state >>= f') after failed :=
  fun s t related => h s t related

theorem coupledWeaken {after after' : α → σ → σ → Prop} {failed' : Fault → σ → σ → Prop}
    (h : Coupled middle r r' after failed) (pre : ∀ s t, before s t → middle s t)
    (post : ∀ a s t, after a s t → after' a s t) (fault : ∀ f s t, failed f s t → failed' f s t) :
    Coupled before r r' after' failed' := by
  intro s t related
  have paired := h s t (pre s t related)
  generalize r.run s = x at paired ⊢
  generalize r'.run t = y at paired ⊢
  cases paired with
  | ok related => exact .ok (post _ _ _ related)
  | error related => exact .error (fault _ _ _ related)

end
end Reading

namespace Reader
open Reading

variable {α β : Type}

theorem loopUnfold (step : α → Token → Reader (α ⊕ β)) (atEnd : α → Reader β) (a : α) (s : Session) :
    loopFrom step atEnd a s =
      match next.run s with
      | (.error fault,after) => (.error fault,after)
      | (.ok none,after) => (atEnd a).run after
      | (.ok (some token),after) =>
          match (step a token).run after with
          | (.error fault,last) => (.error fault,last)
          | (.ok (.inr b),last) => (.ok b,last)
          | (.ok (.inl so),last) => loopFrom step atEnd so last := by
  rw [loopFrom]
  split
  · simp_all
  · simp_all
  · split <;> simp_all

theorem coupledLoop (invariant ended : α → Session → Session → Prop)
    (reached : α → Token → Session → Session → Prop) {after : β → Session → Session → Prop}
    {failed : Fault → Session → Session → Prop}
    {step step' : α → Token → Reader (α ⊕ β)} {atEnd atEnd' : α → Reader β}
    (reads : ∀ a, Coupled (invariant a) next next
      (fun token => match token with | some token => reached a token | none => ended a) failed)
    (steps : ∀ a token, Coupled (reached a token) (step a token) (step' a token)
      (fun out => match out with | .inl so => invariant so | .inr b => after b) failed)
    (ends : ∀ a, Coupled (ended a) (atEnd a) (atEnd' a) after failed) (a : α) :
    Coupled (invariant a) (loop step atEnd a) (loop step' atEnd' a) after failed := by
  intro s t related
  show Paired after failed (loopFrom step atEnd a s) (loopFrom step' atEnd' a t)
  induction size : s.unread using Nat.strongRecOn generalizing a s t with
  | _ size ih =>
      subst size
      have paired := reads a s t related
      rw [loopUnfold step,loopUnfold step']
      cases read : next.run s with
      | mk result s₁ =>
          rw [read] at paired
          generalize next.run t = other at paired ⊢
          cases paired with
          | error related => exact .error related
          | @ok token _ t₁ related =>
              cases token with
              | none => exact ends a _ _ related
              | some token =>
                  have stepped := steps a token s₁ t₁ related
                  simp only
                  cases went : (step a token).run s₁ with
                  | mk out s₂ =>
                      rw [went] at stepped
                      generalize (step' a token).run t₁ = other at stepped ⊢
                      have shorter : s₂.unread < s.unread :=
                        Nat.lt_of_le_of_lt ((step a token).forwardTo went) (nextTakes read)
                      cases stepped with
                      | error related => exact .error related
                      | @ok out _ t₂ related =>
                          cases out with
                          | inr b => exact .ok related
                          | inl so => exact ih _ shorter so s₂ t₂ related rfl

end Reader

def Fault.OfContent : Fault → Prop
  | .malformed _ => True
  | .record .. => True
  | .time .. => True
  | .identifier .. => True
  | _ => False

/-- Sessions that no reader can tell apart, and the faults it may meet on them. -/
structure Blind (R : Session → Session → Prop) (allowed : Fault → Prop) : Prop where
  reads : Reading.Coupled R Reader.next Reader.next (fun token s t => R s t ∧ s.cursor.current = token)
    (fun fault s t => R s t ∧ allowed fault)
  noted : ∀ n s t, R s t → R { s with noted := n :: s.noted } { t with noted := n :: t.noted }
  current : ∀ s t, R s t → s.cursor.current = t.cursor.current
  name : ∀ s t, R s t → s.cursor.name = t.cursor.name
  start : ∀ s t, R s t → s.cursor.start = t.cursor.start
  position : ∀ s t, R s t → s.cursor.input.position = t.cursor.input.position
  content : ∀ fault, fault.OfContent → allowed fault

namespace Blind
open Reading Reader Rule

variable {R : Session → Session → Prop} {allowed : Fault → Prop} {α β : Type}

def Carries (R : Session → Session → Prop) (allowed : Fault → Prop) (before : Session → Session → Prop)
    (r : Reader α) : Prop :=
  Coupled before r r (fun _ => R) (fun fault s t => R s t ∧ allowed fault)

def At (R : Session → Session → Prop) (token : Option Token) (s t : Session) : Prop :=
  R s t ∧ s.cursor.current = token

theorem nextCarries (blind : Blind R allowed) : Carries R allowed R next :=
  coupledWeaken blind.reads (fun _ _ h => h) (fun _ _ _ h => h.1) (fun _ _ _ h => h)

theorem refuseCarries (blind : Blind R allowed) (flaw : RecordFlaw) :
    Carries R allowed R (refuse flaw : Reader α) := by
  refine coupledState (fun s t related => ?_)
  rw [blind.start s t related]
  exact .error ⟨related,blind.content _ trivial⟩

theorem noteCarries (blind : Blind R allowed) (n : Option Notice) : Carries R allowed R (noteAny n) := by
  cases n with
  | none => exact coupledPure () (fun _ _ h => h)
  | some n => exact fun s t related => .ok (blind.noted n s t related)

theorem liftCarries (x : Except Fault α) (h : ∀ fault, x = .error fault → allowed fault) :
    Carries R allowed R (lift x) := by
  cases x with
  | ok a => exact coupledPure a (fun _ _ h => h)
  | error fault => exact coupledFail fault (fun _ _ related => ⟨related,h fault rfl⟩)

theorem atCarries {token : Option Token} {r : Reader α} (h : Carries R allowed R r) :
    Carries R allowed (At R token) r :=
  coupledWeaken h (fun _ _ h => h.1) (fun _ _ _ h => h) (fun _ _ _ h => h)

theorem loopCarries (blind : Blind R allowed) {step : α → Token → Reader (α ⊕ β)} {atEnd : α → Reader β}
    (steps : ∀ a token, Carries R allowed (At R (some token)) (step a token))
    (ends : ∀ a, Carries R allowed R (atEnd a)) (a : α) : Carries R allowed R (loop step atEnd a) := by
  refine coupledLoop (fun _ => R) (fun _ => R) (fun _ token => At R (some token)) ?_ ?_ ends a
  · exact fun _ => coupledWeaken blind.reads (fun _ _ h => h)
      (fun token _ _ h => by cases token with | none => exact h.1 | some token => exact h) (fun _ _ _ h => h)
  · exact fun a token => coupledWeaken (steps a token) (fun _ _ h => h)
      (fun out _ _ h => by cases out <;> exact h) (fun _ _ _ h => h)

theorem subtreeCarries (blind : Blind R allowed) {before : Session → Session → Prop}
    (related : ∀ s t, before s t → R s t)
    (stands : ∀ s t, before s t → (∃ container, s.cursor.current = some (.opening container)) ∨
      ∀ token offset, allowed (.notContainer token offset)) : Carries R allowed before subtree := by
  have unended (so : Subtree) : Carries R allowed R (subtreeUnended so) := by
    refine coupledState (fun s t same => ?_)
    rw [blind.position s t same]
    exact .error ⟨same,blind.content _ trivial⟩
  have going (so : Subtree) : Carries R allowed R (loop subtreeStep subtreeUnended so) :=
    blind.loopCarries (fun _ _ => coupledPure _ (fun _ _ h => h.1)) unended so
  refine coupledState (fun s t h => ?_)
  have same := related s t h
  rw [← blind.current s t same]
  cases stood : s.cursor.current with
  | none =>
      rcases stands s t h with ⟨container,opens⟩ | lax
      · rw [stood] at opens; cases opens
      · simp only [blind.start s t same]; exact .error ⟨same,lax _ _⟩
  | some token =>
      cases token with
      | opening container => exact going _ s t same
      | _ =>
          rcases stands s t h with ⟨container,opens⟩ | lax
          · rw [stood] at opens; cases opens
          · simp only [blind.start s t same]; exact .error ⟨same,lax _ _⟩

theorem looseCarries (blind : Blind R allowed) (token : Option Token) :
    Carries R allowed (At R token) (looseValue token) := by
  unfold looseValue
  split
  · show Coupled (At R _) (Value.text <$> subtree) (Value.text <$> subtree) _ _
    refine coupledMap ?_ (fun _ s t (h : R s t) => h)
    exact blind.subtreeCarries (fun _ _ h => h.1) (fun _ _ h => .inl ⟨_,h.2⟩)
  · exact coupledPure _ (fun _ _ h => h.1)

theorem scalarTextCarries (blind : Blind R allowed) (token : Option Token) :
    Carries R allowed R (scalarText token) := by
  unfold scalarText
  split
  · exact coupledPure _ (fun _ _ h => h)
  · exact coupledPure _ (fun _ _ h => h)
  · refine coupledState (fun s t related => ?_)
    rw [blind.name s t related]
    exact blind.refuseCarries _ s t related

theorem flagCarries (blind : Blind R allowed) (token : Option Token) :
    Carries R allowed R (flagValue token) := by
  unfold flagValue
  split
  · exact coupledPure _ (fun _ _ h => h)
  · exact coupledPure _ (fun _ _ h => h)
  · exact coupledPure _ (fun _ _ h => h)
  · refine coupledState (fun s t related => ?_)
    rw [blind.name s t related]
    exact blind.refuseCarries _ s t related

theorem timeContent {text : Option Text} {place : Option Place} {fault : Fault}
    (h : timeOf text place = .error fault) : fault.OfContent := by
  cases text with
  | none => cases h
  | some t =>
      unfold timeOf at h
      simp only at h
      split at h <;> cases h
      trivial

theorem identifierContent {text : Option Text} {place : Place} {fault : Fault}
    (h : identifierValue text place = .error fault) : fault.OfContent := by
  cases text with
  | none => cases h; trivial
  | some t =>
      unfold identifierValue identifierOf at h
      cases found : Uuid.ofText? t <;> simp [found,Except.map] at h
      cases h; trivial

theorem readCarries (blind : Blind R allowed) (rule : Rule) (token : Option Token) :
    Carries R allowed (At R token) (rule.read token) := by
  induction rule generalizing token with
  | anything => exact blind.looseCarries token
  | text => exact atCarries (coupledMap (blind.scalarTextCarries token) (fun _ _ _ h => h))
  | flag => exact atCarries (blind.flagCarries token)
  | version ceiling =>
      refine atCarries (coupledBind (blind.scalarTextCarries token) (fun version => ?_))
      exact coupledBind (blind.noteCarries _) (fun _ => coupledPure _ (fun _ _ h => h))
  | time =>
      refine atCarries (coupledBind (blind.scalarTextCarries token) (fun text => ?_))
      refine coupledState (fun s t related => ?_)
      rw [blind.start s t related]
      exact liftCarries _ (fun fault h => blind.content _ (timeContent h)) s t related
  | identifier =>
      refine atCarries (coupledBind (blind.scalarTextCarries token) (fun text => ?_))
      refine coupledState (fun s t related => ?_)
      rw [blind.start s t related]
      exact liftCarries _ (fun fault h => blind.content _ (identifierContent h)) s t related
  | object noun field ih =>
      unfold Rule.read
      split
      · refine atCarries (coupledMap (blind.loopCarries ?_ (fun _ => blind.refuseCarries _) _) (fun _ _ _ h => h))
        intro fields token
        unfold fieldStep
        split
        · exact coupledPure _ (fun _ _ h => h.1)
        · rename_i name
          refine atCarries (coupledBind blind.reads (fun token => ?_))
          exact coupledBind (ih name token) (fun v => coupledPure _ (fun _ _ h => h))
        · exact atCarries (blind.refuseCarries _)
      · exact atCarries (blind.refuseCarries _)
  | list noun item ih =>
      unfold Rule.read
      split
      · refine atCarries (coupledMap (blind.loopCarries ?_ (fun _ => blind.refuseCarries _) _) (fun _ _ _ h => h))
        intro items token
        unfold itemStep
        split
        · exact coupledPure _ (fun _ _ h => h.1)
        · exact coupledBind (ih (some token)) (fun v => coupledPure _ (fun _ _ h => h))
      · exact atCarries (blind.refuseCarries _)
  | nullable rule ih =>
      unfold Rule.read
      split
      · exact coupledPure _ (fun _ _ h => h.1)
      · exact ih token

theorem readNextCarries (blind : Blind R allowed) (rule : Rule) : Carries R allowed R rule.readNext :=
  coupledBind blind.reads (fun token => blind.readCarries rule token)

theorem readCurrentCarries (blind : Blind R allowed) (rule : Rule) :
    Carries R allowed R rule.readCurrent := by
  refine coupledState (fun s t related => ?_)
  rw [← blind.current s t related]
  exact blind.readCarries rule s.cursor.current s t ⟨related,rfl⟩

theorem flagOpCarries (blind : Blind R allowed) (lax : ∀ fault, allowed fault) :
    Carries R allowed R flag := by
  refine coupledState (fun s t related => ?_)
  have same : s.cursor.flag = t.cursor.flag := by
    simp only [Cursor.flag,blind.current s t related,blind.start s t related]
  rw [same]
  cases t.cursor.flag with
  | ok b => exact .ok related
  | error fault => exact .error ⟨related,lax fault⟩

theorem answerCarries (blind : Blind R allowed) (lax : ∀ fault, allowed fault) (op : Operation)
    (closes : op = .close → ∀ s t, R s t → R s.close t.close) : Carries R allowed R op.reader := by
  have mapped {γ : Type} {r : Reader γ} {f : γ → Answer} (h : Carries R allowed R r) :
      Carries R allowed R (f <$> r) :=
    coupledMap h (fun _ _ _ h => h)
  cases op with
  | next => exact mapped blind.nextCarries
  | nextText =>
      refine mapped (coupledBind blind.nextCarries (fun token => ?_))
      split <;> exact coupledPure _ (fun _ _ h => h)
  | flag => exact mapped (blind.flagOpCarries lax)
  | leafText =>
      refine mapped (coupledState (fun s t related => ?_))
      rw [blind.current s t related]
      exact .ok related
  | subtree => exact mapped (blind.subtreeCarries (fun _ _ h => h) (fun _ _ _ => .inr (fun _ _ => lax _)))
  | readNext rule => exact mapped (blind.readNextCarries rule)
  | readCurrent rule => exact mapped (blind.readCurrentCarries rule)
  | close => exact mapped (fun s t related => .ok (closes rfl s t related))

theorem afterCarries (blind : Blind R allowed) (lax : ∀ fault, allowed fault)
    (closes : ∀ s t, R s t → R s.close t.close) (ops : List Operation) {s t : Session} (related : R s t) :
    R (Operation.after ops s) (Operation.after ops t) := by
  induction ops generalizing s t with
  | nil => exact related
  | cons op ops ih =>
      have paired := blind.answerCarries lax op (fun _ => closes) s t related
      simp only [Operation.after]
      generalize op.reader.run s = x at paired ⊢
      generalize op.reader.run t = y at paired ⊢
      cases paired with
      | ok related => exact ih related
      | error related => exact ih related.1

theorem transcriptCarries (blind : Blind R allowed) (lax : ∀ fault, allowed fault)
    (closes : ∀ s t, R s t → R s.close t.close) (views : ∀ s t, R s t → s.cursor.view = t.cursor.view)
    (notices : ∀ s t, R s t → s.notices = t.notices) (ops : List Operation) {s t : Session} (related : R s t) :
    Operation.transcript ops s = Operation.transcript ops t := by
  induction ops generalizing s t with
  | nil => rfl
  | cons op ops ih =>
      have paired := blind.answerCarries lax op (fun _ => closes) s t related
      simp only [Operation.transcript,Operation.outcome]
      generalize op.reader.run s = x at paired ⊢
      generalize op.reader.run t = y at paired ⊢
      cases paired with
      | ok related => simp only [views _ _ related,notices _ _ related,ih related]
      | error related => simp only [views _ _ related.1,notices _ _ related.1,ih related.1]

end Blind
end AuditLog
