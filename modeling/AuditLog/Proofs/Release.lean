import AuditLog.Proofs.Twins

/-! What a source is asked. Until its release it is only read, and after that it is asked nothing more:
neither by a cursor, whatever is done with it, nor by a trail, nor by a decoding, which always ends in a release. -/
namespace AuditLog
open Reading Reader

/-- A source that was read some times and, if it is released, then released. -/
def Orderly (released : Bool) (history : List Access) : Prop :=
  ∃ reads, history = (if released then [.close] else []) ++ List.replicate reads .read

namespace Scanner
variable {σ α : Type}

def Asks (m : Scanner σ α) (state : σ) (position : Nat) (history : List Access) (ran : Except FileFlaw α × Input) : Prop :=
  (∃ reads, ran.2.source.history = List.replicate reads .read ++ history) ∧
    ∀ a, ran.1 = .ok a → ∃ t, a = (m.flat state position t).1

theorem refillAsks (m : Scanner σ α) (broken : Option FileFlaw) (state : σ) (position : Nat) (history : List Access)
    (pending : List Text) : m.Asks state position history (m.refill broken state position history pending) := by
  induction pending generalizing state position history with
  | nil =>
      cases broken with
      | none => exact ⟨⟨1,rfl⟩,fun a same => ⟨[],by cases same; rfl⟩⟩
      | some flaw => exact ⟨⟨1,rfl⟩,nofun⟩
  | cons chunk pending ih =>
      rw [refill]
      cases ran : m.along state position chunk with
      | done result after ahead =>
          refine ⟨⟨1,rfl⟩,fun a same => ⟨chunk ++ [],?_⟩⟩
          cases same
          rw [alongDone ran]
      | dry next after =>
          obtain ⟨⟨reads,asked⟩,found⟩ := ih next after (.read :: history)
          refine ⟨⟨reads + 1,?_⟩,fun a same => ?_⟩
          · rw [asked,List.replicate_succ',List.append_assoc]
            rfl
          · obtain ⟨t,rfl⟩ := found a same
            exact ⟨chunk ++ t,by rw [alongOpen ran]⟩

theorem runAsks (m : Scanner σ α) (state : σ) (i : Input) :
    m.Asks state i.position i.source.history (m.run state i) := by
  rw [run]
  cases ran : m.along state i.position i.ahead with
  | done result after ahead =>
      refine ⟨⟨0,rfl⟩,fun a same => ⟨i.ahead ++ [],?_⟩⟩
      cases same
      rw [alongDone ran]
  | dry next after =>
      by_cases ended : i.ended = true
      · simp only [if_pos ended]
        refine ⟨⟨0,rfl⟩,fun a same => ⟨i.ahead ++ [],?_⟩⟩
        cases same
        rw [alongOpen ran]
        rfl
      · simp only [if_neg ended]
        obtain ⟨asked,found⟩ := refillAsks m i.source.broken next after i.source.history i.source.pending
        refine ⟨asked,fun a same => ?_⟩
        obtain ⟨t,rfl⟩ := found a same
        exact ⟨i.ahead ++ t,by rw [alongOpen ran]⟩

end Scanner

namespace Lexer

def Unreleased (l k : Lexing) : Prop := l = k ∧ Orderly false l.input.source.history

theorem keptUnreleased : Kept Unreleased (fun fault => ∃ flaw, fault = .file flaw) where
  scans m state l k h := by
    obtain ⟨rfl,before,history⟩ := h
    obtain ⟨⟨reads,asked⟩,found⟩ := m.runAsks state l.input
    have orderly : Orderly false (m.run state l.input).2.source.history := by
      refine ⟨reads + before,?_⟩
      rw [asked,history]
      exact List.replicate_append_replicate
    simp only [scan]
    generalize m.run state l.input = ran at orderly found ⊢
    obtain ⟨result,i⟩ := ran
    cases result with
    | error flaw => exact .error ⟨⟨rfl,orderly⟩,flaw,rfl⟩
    | ok a => exact .ok ⟨⟨rfl,orderly⟩,_,found a rfl⟩
  marks l k h := ⟨by rw [h.1],h.2⟩
  start l k h := by rw [h.1]
  position l k h := by rw [h.1]

end Lexer

namespace Cursor

structure Accounted (released : Bool) (c : Cursor) : Prop where
  closed : c.closed = released
  orderly : Orderly released c.input.source.history

theorem accountedNext {released : Bool} {c d : Cursor} {result : Except Fault (Option Token)}
    (accounted : c.Accounted released) (stepped : c.next = (result,d)) : d.Accounted released := by
  cases shut : released with
  | true =>
      subst shut
      rw [next,if_pos accounted.closed] at stepped
      cases stepped
      exact accounted
  | false =>
      subst shut
      have steady := Lexer.tokenSteady Lexer.keptUnreleased c.expecting c.nesting.head? ⟨c.input,c.start⟩
        ⟨c.input,c.start⟩ ⟨rfl,accounted.orderly⟩
      simp only [next,accounted.closed,Bool.false_eq_true,if_false] at stepped
      generalize (Lexer.token c.expecting c.nesting.head?).run ⟨c.input,c.start⟩ = ran at stepped steady
      cases steady with
      | ok related => cases stepped; exact ⟨accounted.closed,related.2⟩
      | error related => cases stepped; exact ⟨rfl,related.1.2⟩

theorem accountedClose {released : Bool} {c : Cursor} (accounted : c.Accounted released) :
    c.close.Accounted true := by
  cases released with
  | true =>
      rw [close,if_pos accounted.closed]
      exact accounted
  | false =>
      obtain ⟨reads,history⟩ := accounted.orderly
      rw [close,if_neg (by rw [accounted.closed]; exact Bool.false_ne_true)]
      refine ⟨rfl,reads,?_⟩
      simp [Source.close,history]

end Cursor

namespace Session

abbrev Accounted (released : Bool) (s t : Session) : Prop := s = t ∧ s.cursor.Accounted released

theorem accountedBlind (released : Bool) : Blind (Accounted released) (fun _ => True) :=
  keptBlind Cursor.accountedNext

theorem accountedRun {released : Bool} {α : Type} {r : Reader α} {s : Session} {allowed : Fault → Prop}
    (carries : Blind.Carries (Accounted released) allowed (Accounted released) r)
    (accounted : s.cursor.Accounted released) : ((r.run s).2).cursor.Accounted released :=
  (Trail.carriesAlone carries ⟨rfl,accounted⟩ rfl).1.2

theorem accountedClose {released : Bool} {s : Session} (accounted : s.cursor.Accounted released) :
    s.close.cursor.Accounted true :=
  Cursor.accountedClose accounted

end Session

namespace Trail

section
variable {released : Bool}

theorem entersAccounted (field : Text) :
    Together (Session.Accounted released) (envelope field) (envelope field) :=
  carriesTogether (envelopeCarries (Session.accountedBlind released) field)

theorem asksAccounted : Together (Session.Accounted released) more more :=
  carriesTogether (moreCarries (Session.accountedBlind released))

theorem tellsAccounted (ceiling : Float) :
    Together (Session.Accounted released) (told ceiling) (told ceiling) :=
  carriesTogether (toldCarries (Session.accountedBlind released) ceiling (fun s t h => by rw [h.1]))

end
end Trail

namespace Trail

/-- What may be done with a trail, and with the cursor that it reads by. -/
inductive Act where
  | enter
  | another
  | take
  | collect (limit : Option Nat)
  | close
  | cursor (op : Operation)

namespace Act

def on : Act → Trail → Trail
  | .enter, t => t.enter.2
  | .another, t => t.another.2
  | .take, t => t.take.2
  | .collect limit, t => (t.collect limit).2
  | .close, t => t.close
  | .cursor op, t => { t with session := (op.reader.run t.session).2 }

def releases : Act → Bool
  | .close => true
  | .cursor .close => true
  | _ => false

def after : List Act → Trail → Trail
  | [], t => t
  | act :: acts, t => after acts (act.on t)

end Act

structure Held (released : Bool) (t : Trail) : Prop where
  session : t.session.cursor.Accounted released
  closed : t.closed = true → released = true

section
variable {released : Bool} {t : Trail}

theorem heldPerform {α : Type} {allowed : Fault → Prop} {r : Reader α}
    (carries : Blind.Carries (Session.Accounted released) allowed (Session.Accounted released) r)
    (held : t.Held released) : (t.perform r).2.Held released := by
  rw [perform]
  split
  · exact held
  · exact ⟨Session.accountedRun carries held.session,held.closed⟩

theorem heldCollect (limit : Option Nat) (held : t.Held released) : (t.collect limit).2.Held released := by
  rw [collect]
  split
  · exact held
  · obtain ⟨found,failure,u,_,related,same,_⟩ := @collectAgree t.terms t.terms _ asksAccounted
      (tellsAccounted t.terms.ceiling) limit [] _ _ ⟨rfl,held.session⟩
    rw [List.map_nil] at same
    simp only [same]
    exact ⟨related.2,held.closed⟩

theorem heldClose (held : t.Held released) : t.close.Held true := by
  rw [close]
  split
  · rename_i shut
    have same := held.closed shut
    subst same
    exact held
  · exact ⟨Session.accountedClose held.session,fun _ => rfl⟩

theorem heldCursor {op : Operation} (kept : op ≠ .close) (held : t.Held released) :
    ((Act.cursor op).on t).Held released :=
  ⟨Session.accountedRun ((Session.accountedBlind released).answerCarries (fun _ => trivial) op
    (fun same => absurd same kept)) held.session,held.closed⟩

theorem heldQuiet (held : t.Held released) : t.Held (released || false) := by
  rwa [Bool.or_false]

theorem heldAct (act : Act) (held : t.Held released) : (act.on t).Held (released || act.releases) := by
  have blind := Session.accountedBlind released
  cases act with
  | enter => exact heldQuiet (heldPerform (envelopeCarries blind _) held)
  | another => exact heldQuiet (heldPerform (moreCarries blind) held)
  | take => exact heldQuiet (heldPerform (eventCarries blind t.terms (fun s t h => by rw [h.1])) held)
  | collect limit => exact heldQuiet (heldCollect limit held)
  | close => rw [Act.releases,Bool.or_true]; exact heldClose held
  | cursor op =>
      by_cases shuts : op = .close
      · subst shuts
        rw [Act.releases,Bool.or_true]
        exact ⟨Session.accountedClose held.session,fun _ => rfl⟩
      · have kept : (Act.cursor op).releases = false := by cases op <;> first | rfl | exact absurd rfl shuts
        rw [kept]
        exact heldQuiet (heldCursor shuts held)

theorem heldAfter (acts : List Act) (held : t.Held released) :
    (Act.after acts t).Held (released || acts.any Act.releases) := by
  induction acts generalizing released t with
  | nil => rw [List.any_nil,Bool.or_false]; exact held
  | cons act acts ih =>
      rw [List.any_cons,← Bool.or_assoc]
      exact ih (heldAct act held)

end

theorem closeCloses (t : Trail) : t.close.closed = true := by
  unfold close
  split
  · assumption
  · rfl

theorem closedStays (act : Act) {t : Trail} (shut : t.closed = true) : (act.on t).closed = true := by
  cases act with
  | close => exact closeCloses t
  | cursor op => exact shut
  | collect limit => rw [Act.on,collect,if_pos shut]; exact shut
  | enter => rw [Act.on,enter,perform,if_pos shut]; exact shut
  | another => rw [Act.on,another,perform,if_pos shut]; exact shut
  | take => rw [Act.on,take,perform,if_pos shut]; exact shut

theorem closedAfter (acts : List Act) {t : Trail} (shut : t.closed = true ∨ .close ∈ acts) :
    (Act.after acts t).closed = true := by
  induction acts generalizing t with
  | nil => exact shut.resolve_right nofun
  | cons act acts ih =>
      refine ih ?_
      rcases shut with shut | member
      · exact .inl (closedStays act shut)
      · rcases List.mem_cons.mp member with rfl | later
        · exact .inl (closeCloses t)
        · exact .inr later

structure Refuses (t : Trail) : Prop where
  enter : t.enter = (.error .trailClosed,t)
  another : t.another = (.error .trailClosed,t)
  take : t.take = (.error .trailClosed,t)
  collect : ∀ limit, t.collect limit = (⟨[],some .trailClosed⟩,t)
  close : t.close = t

theorem closedRefuses {t : Trail} (shut : t.closed = true) : t.Refuses :=
  ⟨if_pos shut,if_pos shut,if_pos shut,fun _ => if_pos shut,if_pos shut⟩

end Trail

namespace Decoding
open Trail

theorem ofSourceReleased (terms : Terms) (limit : Option Nat) {source : Source} (fresh : source.history = []) :
    ∃ reads, (ofSource terms limit source).accesses = List.replicate reads .read ++ [.close] := by
  have accounted : (Session.ofSource source).cursor.Accounted false := ⟨rfl,0,fresh⟩
  obtain ⟨found,failure,u,_,⟨_,related⟩,same,_⟩ := ofSourceAgree (entersAccounted terms.recordsField) asksAccounted
    (tellsAccounted terms.ceiling) limit ⟨rfl,accounted⟩
  obtain ⟨reads,history⟩ := (Session.accountedClose related).orderly
  refine ⟨reads,?_⟩
  rw [same]
  exact (congrArg List.reverse history).trans (by simp)

/-- Every decoding of a text, and of a file that could be opened, reads its source some times and then
releases it once, be it at the end, at a fault, or as soon as the events wanted are there. Whatever is
done with a trail and its cursor, in any order, the source is released at most once and never read
after that; once the trail itself is closed, it refuses and changes nothing. -/
theorem sourceReleasedOnce (options : Options) :
    (∀ raw t, ∃ reads, (ofText options raw t).accesses = List.replicate reads .read ++ [.close]) ∧
      (∀ limit path entry source, Source.ofFile options.chunkSize path entry = .ok source →
        ∃ reads, (ofFile options limit path entry).accesses = List.replicate reads .read ++ [.close]) ∧
      (∀ terms chunks broken acts trail, trail = Act.after acts (.ofSource terms ⟨chunks,broken,[]⟩) →
        Orderly (acts.any Act.releases) trail.session.cursor.input.source.history ∧
          trail.session.cursor.closed = acts.any Act.releases ∧ (.close ∈ acts → trail.Refuses)) ∧
      Fault.trailClosed.name = Text.of "SerializerClosedError" := by
  refine ⟨fun raw t => ofSourceReleased _ _ rfl,fun limit path entry source opened => ?_,?_,rfl⟩
  · rw [ofFile,opened]
    refine ofSourceReleased _ _ ?_
    exact Source.ofFileFresh opened
  · rintro terms chunks broken acts _ rfl
    have origin : (Trail.ofSource terms ⟨chunks,broken,[]⟩).Held false := ⟨⟨rfl,0,rfl⟩,nofun⟩
    have held := heldAfter acts origin
    rw [Bool.false_or] at held
    exact ⟨held.session.orderly,held.session.closed,
      fun member => closedRefuses (closedAfter acts (.inr member))⟩

end Decoding
end AuditLog
