import AuditLog.Proofs.Arrival
import AuditLog.Proofs.Stepwise

/-! No reading ahead. What a reader gives depends on the chunks that it has read, and on no others: over two sources
that part behind those chunks the same is done, whatever else they hold and however reads of them fail. -/
namespace AuditLog
open Reading

structure Source.Parted (reads : Nat) (later other : List Text) (broken : Option FileFlaw) (s t : Source) : Prop where
  soon : ∃ soon, s.pending = soon ++ later ∧ t.pending = soon ++ other ∧ s.history.count .read + soon.length = reads
  broken : t.broken = broken
  history : t.history = s.history

def Reading.onward {σ α β : Type} {unread : σ → Nat} (f : α → Reading σ unread β) (result : Except Fault α) (s : σ) :
    Except Fault β × σ :=
  match result with
  | .error fault => (.error fault,s)
  | .ok a => (f a).run s

theorem Reading.runOnward {σ α β : Type} {unread : σ → Nat} (r : Reading σ unread α) (f : α → Reading σ unread β) :
    (r >>= f).run = fun s => onward f (r.run s).1 (r.run s).2 := by
  funext s
  rw [runBind]
  generalize r.run s = x
  obtain ⟨result,m⟩ := x
  cases result <;> rfl

section
variable {σ α β : Type}

/-- From here on the same is done on both sides, or else it goes beyond what they have in common. -/
structure Prompt (R : σ → σ → Prop) (beyond : σ → Prop) (f : σ → α × σ) (s : σ) : Prop where
  grows : beyond s → beyond (f s).2
  keeps : ∀ t, R s t → beyond (f s).2 ∨ (f t).1 = (f s).1 ∧ R (f s).2 (f t).2

namespace Prompt
variable {R : σ → σ → Prop} {beyond : σ → Prop} {s : σ}

theorem done (a : α) : Prompt R beyond (fun s => (a,s)) s := ⟨id,fun _ related => .inr ⟨rfl,related⟩⟩

theorem andThen {f : σ → α × σ} {g : α → σ → β × σ} (first : Prompt R beyond f s)
    (second : Prompt R beyond (g (f s).1) (f s).2) : Prompt R beyond (fun s => g (f s).1 (f s).2) s := by
  refine ⟨fun past => second.grows (first.grows past),fun t related => ?_⟩
  rcases first.keeps t related with past | ⟨same,related⟩
  · exact .inl (second.grows past)
  · rw [same]
    exact second.keeps _ related

theorem bind {unread : σ → Nat} {r : Reading σ unread α} {f : α → Reading σ unread β} (first : Prompt R beyond r.run s)
    (second : ∀ a m, r.run s = (.ok a,m) → Prompt R beyond (f a).run m) : Prompt R beyond (r >>= f).run s := by
  rw [runOnward]
  refine first.andThen (g := onward f) ?_
  cases ran : r.run s with
  | mk result m =>
      cases result with
      | error fault => exact done _
      | ok a => exact second a m ran

theorem looks {unread : σ → Nat} {f : σ → Reading σ unread α} (holds : Prompt R beyond (f s).run s)
    (same : ∀ t, R s t → f t = f s) : Prompt R beyond (state >>= f).run s := by
  refine ⟨holds.grows,fun t related => ?_⟩
  show beyond ((f s).run s).2 ∨ ((f t).run t).1 = ((f s).run s).1 ∧ R ((f s).run s).2 ((f t).run t).2
  rw [same t related]
  exact holds.keeps t related

theorem maps {f : σ → α × σ} (g : α → β) (holds : Prompt R beyond f s) : Prompt R beyond (fun s => (g (f s).1,(f s).2)) s :=
  ⟨holds.grows,fun t related => (holds.keeps t related).imp_right (fun ⟨same,related⟩ => ⟨congrArg g same,related⟩)⟩

end Prompt
end

namespace Input

structure Parted (reads : Nat) (later other : List Text) (broken : Option FileFlaw) (i j : Input) : Prop where
  frame : j = { i with source := j.source }
  source : i.source.Parted reads later other broken j.source

def Beyond (reads : Nat) (i : Input) : Prop := reads < i.source.history.count .read

end Input

namespace Scanner
variable {σ α : Type} {reads : Nat} {later other : List Text} {broken : Option FileFlaw}

theorem asksGrow {m : Scanner σ α} {state : σ} {position : Nat} {history : List Access}
    {ran : Except FileFlaw α × Input} (asks : m.Asks state position history ran) :
    history.count .read ≤ ran.2.source.history.count .read := by
  obtain ⟨⟨n,same⟩,_⟩ := asks
  rw [same,List.count_append]
  exact Nat.le_add_left _ _

theorem refillReads (m : Scanner σ α) (flaw : Option FileFlaw) (state : σ) (position : Nat) (history : List Access)
    (pending : List Text) :
    history.count .read < (m.refill flaw state position history pending).2.source.history.count .read := by
  have once : (Access.read :: history).count .read = history.count .read + 1 := List.count_cons_self
  cases pending with
  | nil => cases flaw <;> exact Nat.lt_of_lt_of_eq (Nat.lt_succ_self _) once.symm
  | cons chunk pending =>
      rw [refill]
      split
      · have grown := asksGrow (m.refillAsks flaw ‹_› ‹_› (.read :: history) pending)
        omega
      · exact Nat.lt_of_lt_of_eq (Nat.lt_succ_self _) once.symm

theorem refillParted (m : Scanner σ α) (flaw : Option FileFlaw) (state : σ) (position : Nat) {history : List Access}
    {soon : List Text} (count : history.count .read + soon.length = reads) :
    (m.refill flaw state position history (soon ++ later)).2.Beyond reads ∨
      ((m.refill flaw state position history (soon ++ later)).1 = (m.refill broken state position history (soon ++ other)).1 ∧
        (m.refill flaw state position history (soon ++ later)).2.Parted reads later other broken
          (m.refill broken state position history (soon ++ other)).2) := by
  induction soon generalizing state position history with
  | nil =>
      left
      have more := m.refillReads flaw state position history later
      rw [← count]
      exact more
  | cons chunk soon ih =>
      have once : (Access.read :: history).count .read = history.count .read + 1 := List.count_cons_self
      rw [List.length_cons] at count
      simp only [List.cons_append,refill]
      cases m.along state position chunk with
      | dry next after => exact ih next after (by omega)
      | done result after ahead => exact .inr ⟨rfl,rfl,⟨soon,rfl,rfl,by dsimp only; omega⟩,rfl,rfl⟩

theorem runParted (m : Scanner σ α) (state : σ) {i j : Input} (parted : i.Parted reads later other broken j) :
    (m.run state i).2.Beyond reads ∨ ((m.run state i).1 = (m.run state j).1 ∧
      (m.run state i).2.Parted reads later other broken (m.run state j).2) := by
  obtain ⟨frame,source⟩ := parted
  obtain ⟨ahead,position,s,ended⟩ := i
  obtain ⟨ahead',position',t,ended'⟩ := j
  cases frame
  simp only [run]
  cases m.along state position ahead with
  | done result after left => exact .inr ⟨rfl,rfl,source⟩
  | dry next after =>
      cases ended with
      | true => exact .inr ⟨rfl,rfl,source⟩
      | false =>
          have flaw : t.broken = broken := source.broken
          have history : t.history = s.history := source.history
          obtain ⟨soon,(before : s.pending = _),(before' : t.pending = _),(count : s.history.count .read + _ = _)⟩ :=
            source.soon
          simp only [Bool.false_eq_true,if_false,before,before',flaw,history]
          exact refillParted m s.broken next after count

end Scanner

namespace Lexer
variable {σ α : Type} {reads : Nat} {later other : List Text} {broken : Option FileFlaw}

structure Lexing.Parted (reads : Nat) (later other : List Text) (broken : Option FileFlaw) (l k : Lexing) : Prop where
  input : l.input.Parted reads later other broken k.input
  start : k.start = l.start

abbrev Prompt (reads : Nat) (later other : List Text) (broken : Option FileFlaw) (r : Lexer α) : Prop :=
  ∀ l, AuditLog.Prompt (Lexing.Parted reads later other broken) (fun l => l.input.Beyond reads) r.run l

theorem scanPrompt (m : Scanner σ α) (state : σ) : Prompt reads later other broken (scan m state) := by
  intro l
  constructor
  · intro past
    have grown := Scanner.asksGrow (m.runAsks state l.input)
    simp only [scan]
    split <;> (rename_i ran; rw [ran] at grown; exact Nat.lt_of_lt_of_le past grown)
  · intro k related
    have parted := m.runParted state related.input
    simp only [scan]
    generalize m.run state l.input = x at parted ⊢
    generalize m.run state k.input = y at parted ⊢
    obtain ⟨result,i⟩ := x
    obtain ⟨result',j⟩ := y
    rcases parted with past | ⟨rfl,parted⟩
    · left
      cases result <;> exact past
    · right
      cases result <;> exact ⟨rfl,parted,related.start⟩

theorem partedPosition {l k : Lexing} (related : Lexing.Parted reads later other broken l k) :
    k.input.position = l.input.position := by
  rw [related.input.frame]

theorem stepwisePrompt : Stepwise (fun α => Prompt (α := α) reads later other broken) where
  done a _ := .done _
  fails fault _ := .done _
  binds first second l := (first l).bind (fun a m _ => second a m)
  scans := scanPrompt
  marks l := ⟨id,fun k related => .inr ⟨rfl,related.input,partedPosition related⟩⟩
  looks {α f} holds l := by
    refine .looks (f := fun l => f l.start l.input.position) (holds _ _ l) (fun k related => ?_)
    rw [related.start,partedPosition related]

theorem tokenPrompt (expecting : Expecting) (inside : Option Container) :
    Prompt reads later other broken (token expecting inside) :=
  stepwisePrompt.tokens expecting inside

end Lexer

structure Cursor.Parted (reads : Nat) (later other : List Text) (broken : Option FileFlaw) (c d : Cursor) : Prop where
  frame : d = { c with input := { c.input with source := d.input.source } }
  source : c.closed = false → c.input.source.Parted reads later other broken d.input.source

namespace Cursor
variable {reads : Nat} {later other : List Text} {broken : Option FileFlaw} {c d c' : Cursor}
  {result : Except Fault (Option Token)}

theorem nextBeyond (past : c.input.Beyond reads) (stepped : c.next = (result,c')) : c'.input.Beyond reads := by
  unfold next at stepped
  split at stepped
  · cases stepped
    exact past
  · have grown := (@Lexer.tokenPrompt reads [] [] none c.expecting c.nesting.head? ⟨c.input,c.start⟩).grows past
    split at stepped <;> (rename_i ran; rw [ran] at grown; cases stepped; exact grown)

theorem nextParted (parted : c.Parted reads later other broken d) (stepped : c.next = (result,c')) :
    c'.input.Beyond reads ∨ ∃ d', d.next = (result,d') ∧ c'.Parted reads later other broken d' := by
  obtain ⟨frame,source⟩ := parted
  generalize d.input.source = t at frame source
  subst frame
  rcases c.closed.eq_false_or_eq_true with shut | shut
  · obtain ⟨rfl,rfl⟩ := nextClosed shut stepped
    exact .inr ⟨{ c' with input := { c'.input with source := t } },if_pos shut,rfl,source⟩
  · have paired := (@Lexer.tokenPrompt reads later other broken c.expecting c.nesting.head? ⟨c.input,c.start⟩).keeps
      ⟨{ c.input with source := t },c.start⟩ ⟨⟨rfl,source shut⟩,rfl⟩
    simp only [next,shut,Bool.false_eq_true,if_false] at stepped ⊢
    generalize (Lexer.token c.expecting c.nesting.head?).run ⟨c.input,c.start⟩ = x at paired stepped
    generalize (Lexer.token c.expecting c.nesting.head?).run ⟨{ c.input with source := t },c.start⟩ = y at paired ⊢
    obtain ⟨found,l⟩ := x
    obtain ⟨found',k⟩ := y
    rcases paired with past | ⟨(same : found' = found),(related : l.Parted reads later other broken k)⟩
    · left
      cases found <;> (cases stepped; exact past)
    · right
      obtain ⟨⟨input,source⟩,start⟩ := related
      subst same
      cases found' with
      | error fault =>
          cases stepped
          exact ⟨_,rfl,by dsimp only; rw [input,start],fun _ => source⟩
      | ok token =>
          cases stepped
          refine ⟨_,rfl,?_,fun _ => source⟩
          simp only [advanced,shut]
          rw [input,start]

end Cursor

namespace Session

structure Parted (reads : Nat) (later other : List Text) (broken : Option FileFlaw) (s t : Session) : Prop where
  cursor : s.cursor.Parted reads later other broken t.cursor
  noted : t.noted = s.noted

def Beyond (reads : Nat) (s : Session) : Prop := s.cursor.input.Beyond reads

abbrev Prompt (reads : Nat) (later other : List Text) (broken : Option FileFlaw) (α : Type) (r : Reader α) (s : Session) :
    Prop :=
  AuditLog.Prompt (Parted reads later other broken) (Beyond reads) r.run s

section
variable {reads : Nat} {later other : List Text} {broken : Option FileFlaw}

theorem partedSeen {s t : Session} (parted : s.Parted reads later other broken t) : t.seen = s.seen := by
  rw [seen,parted.cursor.frame]
  rfl

theorem nextPrompt (s : Session) : Prompt reads later other broken _ Reader.next s := by
  cases stepped : s.cursor.next with
  | mk result c =>
      have ran := Cursor.nextRun stepped
      refine ⟨fun past => ?_,fun t related => ?_⟩
      · rw [ran]
        exact Cursor.nextBeyond past stepped
      · rw [ran]
        refine (Cursor.nextParted related.cursor stepped).imp_right (fun ⟨d,stepped',parted⟩ => ?_)
        rw [Cursor.nextRun stepped']
        exact ⟨rfl,parted,related.noted⟩

theorem promptThroughout : Throughout (Prompt reads later other broken) where
  done _ _ := .done _
  fails _ _ := .done _
  notes n _ := ⟨id,fun _ related => .inr ⟨rfl,related.cursor,congrArg (List.cons n) related.noted⟩⟩
  binds := .bind
  states same holds := .looks holds (fun _ related => same _ (partedSeen related))
  nexts := nextPrompt

theorem closeBeyond {s : Session} (past : s.Beyond reads) : s.close.Beyond reads := by
  unfold Session.close Cursor.close
  split
  · exact past
  · show reads < (Access.close :: s.cursor.input.source.history).count .read
    rw [List.count_cons_of_ne (by decide)]
    exact past

theorem closeParted {s t : Session} (parted : s.Parted reads later other broken t) :
    s.close.Parted reads later other broken t.close := by
  obtain ⟨⟨frame,source⟩,noted⟩ := parted
  have same : t.cursor.closed = s.cursor.closed := by rw [frame]
  unfold Session.close Cursor.close
  rw [same]
  split
  · exact ⟨⟨frame,source⟩,noted⟩
  · refine ⟨⟨?_,nofun⟩,noted⟩
    dsimp only
    rw [frame]

theorem answerPrompt (op : Operation) (s : Session) : Prompt reads later other broken _ op.reader s :=
  promptThroughout.answers promptThroughout.stepwise.versions
    (fun _ => ⟨closeBeyond,fun _ related => .inr ⟨rfl,closeParted related⟩⟩) op s

end
end Session

namespace Trail

structure Parted (reads : Nat) (later other : List Text) (broken : Option FileFlaw) (t u : Trail) : Prop where
  terms : u.terms = t.terms
  closed : u.closed = t.closed
  session : t.session.Parted reads later other broken u.session

abbrev Prompt (reads : Nat) (later other : List Text) (broken : Option FileFlaw) {α : Type} (f : Trail → α × Trail)
    (t : Trail) : Prop :=
  AuditLog.Prompt (Parted reads later other broken) (fun t => t.session.Beyond reads) f t

section
variable {reads : Nat} {later other : List Text} {broken : Option FileFlaw}

theorem openPrompt {α : Type} {refusal : α} {f : Session → α × Session} {g : Trail → α × Trail} {t : Trail}
    (holds : AuditLog.Prompt (Session.Parted reads later other broken) (Session.Beyond reads) f t.session)
    (shut : ∀ u, u.closed = true → g u = (refusal,u))
    (opened : ∀ u, u.terms = t.terms → u.closed ≠ true →
      g u = ((f u.session).1,{ u with session := (f u.session).2 })) :
    Prompt reads later other broken g t := by
  by_cases closed : t.closed = true
  · refine ⟨fun past => by rwa [shut t closed],fun u related => .inr ?_⟩
    rw [shut t closed,shut u (related.closed.trans closed)]
    exact ⟨rfl,related⟩
  · refine ⟨fun past => by rw [opened t rfl closed]; exact holds.grows past,fun u related => ?_⟩
    rw [opened t rfl closed,opened u related.terms (by rwa [related.closed])]
    exact (holds.keeps u.session related.session).imp_right
      (fun ⟨same,parted⟩ => ⟨same,related.terms,related.closed,parted⟩)

theorem enterPrompt (t : Trail) : Prompt reads later other broken enter t :=
  openPrompt (Session.promptThroughout.envelopes t.terms.recordsField t.session) (fun _ shut => if_pos shut)
    (fun u same opened => by rw [← same]; exact if_neg opened)

theorem anotherPrompt (t : Trail) : Prompt reads later other broken another t :=
  openPrompt (Session.promptThroughout.asks t.session) (fun _ shut => if_pos shut) (fun _ _ opened => if_neg opened)

theorem takePrompt (t : Trail) : Prompt reads later other broken take t :=
  openPrompt (Session.promptThroughout.stepwise.records t.terms t.session) (fun _ shut => if_pos shut)
    (fun u same opened => by rw [← same]; exact if_neg opened)

theorem closePrompt (t : Trail) : Prompt reads later other broken (fun t => ((),t.close)) t := by
  refine ⟨fun past => ?_,fun u related => .inr ⟨rfl,?_⟩⟩
  · show t.close.session.Beyond reads
    unfold close
    split
    · exact past
    · exact Session.closeBeyond past
  · show t.close.Parted reads later other broken u.close
    unfold close
    rw [related.closed]
    split
    · exact related
    · exact ⟨related.terms,rfl,Session.closeParted related.session⟩

end

def onRecord (terms : Terms) (limit : Option Nat) (found : List Event) (result : Except Fault Event) (s : Session) :
    Harvest × Session :=
  match result with
  | .error fault => (⟨found.reverse,some fault⟩,s)
  | .ok e => further terms limit (e :: found) s

def onAsked (terms : Terms) (limit : Option Nat) (found : List Event) (result : Except Fault Bool) (s : Session) :
    Harvest × Session :=
  match result with
  | .error fault => (⟨found.reverse,some fault⟩,s)
  | .ok false => (⟨found.reverse,none⟩,s)
  | .ok true => onRecord terms limit found ((event terms).run s).1 ((event terms).run s).2

theorem collectRounds (terms : Terms) (limit : Option Nat) (found : List Event) :
    collectFrom terms limit found = fun s => onAsked terms limit found (more.run s).1 (more.run s).2 := by
  funext s
  rw [collectFurther]
  generalize more.run s = x
  obtain ⟨result,m⟩ := x
  cases result with
  | error fault => rfl
  | ok another =>
      cases another with
      | false => rfl
      | true =>
          simp only [onAsked]
          generalize (event terms).run m = y
          obtain ⟨result,u⟩ := y
          cases result <;> rfl

section
variable {reads : Nat} {later other : List Text} {broken : Option FileFlaw}

theorem collectPrompt (terms : Terms) (limit : Option Nat) (found : List Event) (s : Session) :
    AuditLog.Prompt (Session.Parted reads later other broken) (Session.Beyond reads) (collectFrom terms limit found) s := by
  induction size : s.unread using Nat.strongRecOn generalizing limit found s with
  | _ size ih =>
      subst size
      rw [collectRounds]
      refine (Session.promptThroughout.asks s).andThen (g := onAsked terms limit found) ?_
      cases asked : more.run s with
      | mk result m =>
          rcases result with fault | (_ | _)
          · exact .done _
          · exact .done _
          refine (Session.promptThroughout.stepwise.records terms m).andThen (g := onRecord terms limit found) ?_
          cases made : (event terms).run m with
          | mk result u =>
              cases result with
              | error fault => exact .done _
              | ok e =>
                  have shorter := Nat.lt_of_le_of_lt ((event terms).forwardTo made) (moreTakes asked)
                  have others (limit : Option Nat) := ih _ shorter limit (e :: found) u rfl
                  cases limit with
                  | none => exact others none
                  | some n =>
                      by_cases last : n ≤ 1
                      · have same : further terms (some n) (e :: found) = fun s => (⟨(e :: found).reverse,none⟩,s) :=
                          funext fun _ => if_pos last
                        show AuditLog.Prompt _ _ (further terms (some n) (e :: found)) u
                        rw [same]
                        exact .done _
                      · have same : further terms (some n) (e :: found) = collectFrom terms (some (n - 1)) (e :: found) :=
                          funext fun _ => if_neg last
                        show AuditLog.Prompt _ _ (further terms (some n) (e :: found)) u
                        rw [same]
                        exact others _

theorem collectsPrompt (limit : Option Nat) (t : Trail) :
    Prompt reads later other broken (fun t => t.collect limit) t :=
  openPrompt (collectPrompt t.terms limit [] t.session) (fun _ shut => if_pos shut)
    (fun u same opened => by rw [← same]; exact if_neg opened)

theorem actPrompt (act : Act) (t : Trail) : Prompt reads later other broken (fun t => ((),act.on t)) t := by
  cases act with
  | enter => exact (enterPrompt t).maps (fun _ => ())
  | another => exact (anotherPrompt t).maps (fun _ => ())
  | take => exact (takePrompt t).maps (fun _ => ())
  | collect limit => exact (collectsPrompt limit t).maps (fun _ => ())
  | close => exact closePrompt t
  | cursor op =>
      have holds : Session.Prompt reads later other broken _ op.reader t.session := Session.answerPrompt op t.session
      exact ⟨holds.grows,fun u related => (holds.keeps u.session related.session).imp_right
        (fun ⟨_,parted⟩ => ⟨rfl,related.terms,related.closed,parted⟩)⟩

theorem afterPrompt (acts : List Act) (t : Trail) :
    Prompt reads later other broken (fun t => ((),Act.after acts t)) t := by
  induction acts generalizing t with
  | nil => exact .done ()
  | cons act acts ih => exact (actPrompt act t).andThen (g := fun _ t => ((),Act.after acts t)) (ih (act.on t))

end
end Trail
end AuditLog
