import AuditLog.Proofs.Coherence

/-! Guards that hold by themselves. Where the parts of a cursor agree, an object goes on with a name or
ends, and a container ends before its document does; the faults that say otherwise are never met. -/
namespace AuditLog
open Reading Grammar

def Fault.Astray : Fault → Prop
  | .record .notFieldName _ => True
  | .malformed what => what.flaw = .endOfInput
  | _ => False

theorem Reading.errorBind {σ α β : Type} {unread : σ → Nat} {r : Reading σ unread α} {f : α → Reading σ unread β}
    {s s' : σ} {fault : Fault} (h : (r >>= f).run s = (.error fault,s')) :
    r.run s = (.error fault,s') ∨ ∃ a m, r.run s = (.ok a,m) ∧ (f a).run m = (.error fault,s') := by
  rw [runBind] at h
  cases ran : r.run s with
  | mk result m =>
      rw [ran] at h
      cases result with
      | error fault => cases h; exact .inl rfl
      | ok a => exact .inr ⟨a,m,rfl,h⟩

theorem Reading.errorMap {σ α β : Type} {unread : σ → Nat} {r : Reading σ unread α} {f : α → β} {s s' : σ}
    {fault : Fault} (h : (f <$> r).run s = (.error fault,s')) : r.run s = (.error fault,s') := by
  rcases errorBind h with first | ⟨_,_,_,done⟩
  · exact first
  · cases done

namespace Cursor

theorem onGoes {c d : Cursor} {token : Token} {around : List Container} (on : On c token around)
    (inside : c.nesting ≠ []) : c.next ≠ (.ok none,d) := by
  intro stepped
  have beyond := (nextEnd on.ready stepped).1
  rw [on.expecting] at beyond
  exact inside (expectingOutside beyond)

theorem entryGoes {c d : Cursor} {container : Container} {around : List Container} (entry : Entry c container around) :
    c.next ≠ (.ok none,d) := by
  intro stepped
  have beyond := (nextEnd entry.ready stepped).1
  rcases entry.expecting with comma | first
  · rw [comma] at beyond
    rcases beyond with beyond | beyond <;> cases beyond
  · rw [first] at beyond
    have outside := expectingOutside beyond
    rw [entry.nesting] at outside
    cases outside

theorem nextSpares {s t : Session} {fault : Fault} (ready : s.cursor.Ready)
    (read : Reader.next.run s = (.error fault,t)) : ¬ fault.Astray := by
  cases stepped : s.cursor.next with
  | mk result d =>
      rw [nextRun stepped] at read
      cases read
      obtain ⟨what,rfl,frank⟩ := nextFault ready stepped
      exact frank

end Cursor

namespace Rule
open Reader Cursor

def Opens (token : Option Token) (s : Session) : Prop :=
  ∀ container, token = some (.opening container) →
    s.cursor.current = token ∧ ∃ around, On s.cursor (.opening container) around

def Spares (rule : Rule) : Prop :=
  ∀ token s fault s', Opens token s → (rule.read token).run s = (.error fault,s') → ¬ fault.Astray

theorem nextOpens {c d : Cursor} {token : Option Token} {noted : List Notice} (ready : c.Ready)
    (stepped : c.next = (.ok token,d)) : Opens token ⟨d,noted⟩ := by
  intro container same
  subst same
  obtain ⟨_,_,taken⟩ := nextTaken ready stepped
  exact ⟨nextCurrent stepped,_,takenOn taken⟩

theorem readNextSpares {rule : Rule} (spares : Spares rule) {s s' : Session} {fault : Fault}
    (ready : s.cursor.Ready) (ran : rule.readNext.run s = (.error fault,s')) : ¬ fault.Astray := by
  rcases errorBind ran with read | ⟨token,t,read,ran⟩
  · exact nextSpares ready read
  · exact spares token t fault s' (nextOpens ready (Reader.readNext read)) ran

theorem subtreeSpares {s s' : Session} {container : Container} {around : List Container} {fault : Fault}
    (stands : s.cursor.current = some (.opening container)) (on : On s.cursor (.opening container) around)
    (ran : subtree.run s = (.error fault,s')) : ¬ fault.Astray := by
  rw [subtreeEntered stands] at ran
  refine loopFailed (fun so s => Within around so s ∧ ∃ token near, On s.cursor token near)
    (fun fault => ¬ fault.Astray) ?_ ?_ ?_ ?_
    ⟨onWithin on,_,_,on⟩ ran
  · intro so s fault t invariant read
    exact nextSpares invariant.1.ready read
  · intro so s t fault u invariant read _
    obtain ⟨within,token,near,on⟩ := invariant
    have deep := withinDeep within
    refine absurd (Reader.readNext read) (onGoes on (fun outside => ?_))
    rw [outside] at deep
    cases deep
  · intro so token s t fault u _ _ went
    cases went
  · intro so token s t after u invariant read went
    have stepped := Reader.readNext read
    obtain ⟨_,_,taken⟩ := nextTaken invariant.1.ready stepped
    obtain ⟨rfl,within,_⟩ := subtreeGoes invariant.1 stepped went
    exact ⟨within,_,_,takenOn taken⟩

theorem membersSpare {field : Text → Rule} (spares : ∀ name, Spares (field name)) {fields : Fields}
    {around : List Container} {s s' : Session} {fault : Fault} (entry : Entry s.cursor .object around)
    (ran : loopFrom (fieldStep (fun name => (field name).read)) (fun _ => refuse .notFieldName) fields s =
      (.error fault,s')) : ¬ fault.Astray := by
  refine loopFailed (fun _ s => Entry s.cursor .object around) (fun fault => ¬ fault.Astray) ?_ ?_ ?_ ?_ entry ran
  · intro a s fault t entry read
    exact nextSpares entry.ready read
  · intro a s t fault u entry read _
    exact absurd (Reader.readNext read) (entryGoes entry)
  · intro a token s t fault u entry read went
    obtain ⟨on,rfl | ⟨name,rfl⟩⟩ := objectEntry entry (Reader.readNext read)
    · cases went
    · rw [fieldStepRun] at went
      exact readNextSpares (spares name) on.ready (errorMap went)
  · intro a token s t so u entry read went
    exact (memberGoes (fun name => readWhole (field name)) entry (Reader.readNext read) went).1

theorem itemsSpare {item : Rule} (spares : Spares item) {items : List Value} {around : List Container}
    {s s' : Session} {fault : Fault} (entry : Entry s.cursor .array around)
    (ran : loopFrom (itemStep item.read) (fun _ => refuse (.notShape item.noun)) items s = (.error fault,s')) :
    ¬ fault.Astray := by
  refine loopFailed (fun _ s => Entry s.cursor .array around) (fun fault => ¬ fault.Astray) ?_ ?_ ?_ ?_ entry ran
  · intro a s fault t entry read
    exact nextSpares entry.ready read
  · intro a s t fault u entry read _
    exact absurd (Reader.readNext read) (entryGoes entry)
  · intro a token s t fault u entry read went
    have stepped := Reader.readNext read
    obtain ⟨on,rfl | starts⟩ := arrayEntry entry stepped
    · cases went
    · rw [itemStepStarts starts] at went
      exact spares _ t fault u (nextOpens entry.ready stepped) (errorMap went)
  · intro a token s t so u entry read went
    exact (itemGoes (readWhole item) entry (Reader.readNext read) went).1

theorem scalarTextSpares {token : Option Token} {s s' : Session} {fault : Fault}
    (ran : (scalarText token).run s = (.error fault,s')) : ¬ fault.Astray := by
  cases token with
  | none => cases ran; exact id
  | some token =>
      cases token with
      | scalar scalar => cases scalar <;> cases ran
      | _ => cases ran; exact id

theorem liftFailed {α : Type} {x : Except Fault α} {s s' : Session} {fault : Fault}
    (ran : (lift x).run s = (.error fault,s')) : x = .error fault := by
  cases x <;> cases ran
  rfl

theorem leafSpares {f : Option Text → Reader Value} {token : Option Token} {s s' : Session} {fault : Fault}
    (ran : (scalarText token >>= f).run s = (.error fault,s'))
    (spares : ∀ text t, (f text).run t = (.error fault,s') → ¬ fault.Astray) : ¬ fault.Astray := by
  rcases errorBind ran with first | ⟨text,t,_,rest⟩
  · exact scalarTextSpares first
  · exact spares text t rest

theorem timeSpares {text : Option Text} {place : Option Place} {fault : Fault}
    (failed : timeOf text place = .error fault) : ¬ fault.Astray := by
  cases text with
  | none => cases failed
  | some t =>
      simp only [timeOf] at failed
      split at failed <;> cases failed
      exact id

theorem identifierSpares {text : Option Text} {place : Place} {fault : Fault}
    (failed : identifierValue text place = .error fault) : ¬ fault.Astray := by
  cases text with
  | none => cases failed; exact id
  | some t =>
      cases found : Uuid.ofText? t <;> simp [identifierValue,identifierOf,found,Except.map] at failed
      subst failed
      exact id

theorem readSpares (rule : Rule) : Spares rule := by
  induction rule with
  | anything =>
      intro token s fault s' opens ran
      cases token with
      | none => cases ran
      | some token =>
          cases token with
          | opening container =>
              obtain ⟨stands,around,on⟩ := opens container rfl
              exact subtreeSpares stands on (errorMap ran)
          | _ => cases ran
  | text => exact fun token s fault s' _ ran => scalarTextSpares (errorMap ran)
  | flag =>
      intro token s fault s' _ ran
      cases token with
      | none => cases ran; exact id
      | some token =>
          cases token with
          | scalar scalar => cases scalar <;> cases ran <;> exact id
          | _ => cases ran; exact id
  | version ceiling =>
      intro token s fault s' _ ran
      refine leafSpares ran (fun text t rest => ?_)
      rcases errorBind rest with noted | ⟨_,_,_,done⟩
      · cases same : text.bind (Notice.ofVersion? ceiling) <;> (rw [same] at noted; cases noted)
      · cases done
  | time => exact fun token s fault s' _ ran => leafSpares ran (fun text t rest => timeSpares (liftFailed rest))
  | identifier => exact fun token s fault s' _ ran => leafSpares ran (fun text t rest => identifierSpares (liftFailed rest))
  | object noun field ih =>
      intro token s fault s' opens ran
      unfold Rule.read at ran
      split at ran
      · obtain ⟨_,around,on⟩ := opens .object rfl
        exact membersSpare ih (onEntry on) (errorMap ran)
      · cases ran; exact id
  | list noun item ih =>
      intro token s fault s' opens ran
      unfold Rule.read at ran
      split at ran
      · obtain ⟨_,around,on⟩ := opens .array rfl
        exact itemsSpare ih (onEntry on) (errorMap ran)
      · cases ran; exact id
  | nullable rule ih =>
      intro token s fault s' opens ran
      unfold Rule.read at ran
      split at ran
      · cases ran
      · exact ih token s fault s' opens ran

end Rule

namespace Operation
open Cursor

theorem settledOpens {s : Session} (settled : s.cursor.Settled) : Rule.Opens s.cursor.current s :=
  fun _ stands => ⟨rfl,_,settledOn settled stands⟩

theorem readerSpares {s s' : Session} {fault : Fault} (op : Operation) (settled : s.cursor.Settled)
    (ready : s.cursor.Ready) (ran : op.reader.run s = (.error fault,s')) : ¬ fault.Astray := by
  cases op with
  | next => exact nextSpares ready (errorMap ran)
  | nextText =>
      rcases errorBind (errorMap ran) with read | ⟨token,_,_,done⟩
      · exact nextSpares ready read
      · split at done <;> cases done
  | flag =>
      have failed := errorMap ran
      simp only [Reader.flag,runBind,runState] at failed
      split at failed
      · cases failed
      · rename_i fault' told
        cases failed
        unfold Cursor.flag at told
        split at told <;> cases told
        exact id
  | leafText => cases ran
  | subtree =>
      have failed := errorMap ran
      cases stands : s.cursor.current with
      | none => simp only [Reader.subtree,runBind,runState,stands] at failed; cases failed; exact id
      | some token =>
          cases token with
          | opening container => exact Rule.subtreeSpares stands (settledOn settled stands) failed
          | _ => simp only [Reader.subtree,runBind,runState,stands] at failed; cases failed; exact id
  | readNext rule => exact Rule.readNextSpares rule.readSpares ready (errorMap ran)
  | readCurrent rule =>
      have failed := errorMap ran
      simp only [Rule.readCurrent,runBind,runState] at failed
      exact rule.readSpares _ s fault s' (settledOpens settled) failed
  | close => cases ran

/-- Whatever is asked of a session that is not released, and whatever of it fails: the parts of the cursor
agree; it is where single steps alone would have brought it, inside the containers that the tokens
told on the way have opened and not closed. So no step ends inside a container, and no operation meets a
fault that takes it to have gone astray. -/
theorem cursorsStayCoherent (chunks : List Text) (ops : List Operation) (s : Session)
    (reached : s = after ops (.ofSource (.ofChunks chunks))) (opened : s.cursor.closed = false) :
    s.cursor.Coherent ∧
      (∃ n, (after (List.replicate n .next) (.ofSource (.ofChunks chunks))).cursor = s.cursor ∧
        Unclosed s.cursor.nesting (told n (.ofSource (.ofChunks chunks)))) ∧
      (s.cursor.nesting ≠ [] → ∀ d, s.cursor.next ≠ (.ok none,d)) ∧
      ∀ (op : Operation) (fault : Fault), (op.reader.run s).1 = .error fault → ¬ fault.Astray := by
  subst reached
  have driven := drivenAfter chunks ops
  obtain ⟨behind,stepped⟩ := driven.sane opened
  have ready := settledReady driven.reached.settled opened
  refine ⟨behindCoherent behind opened,stepped,fun inside d ended => ?_,fun op fault failed => ?_⟩
  · exact inside (behindOutside behind (nextEnd ready ended).1)
  · exact readerSpares op driven.reached.settled ready (Prod.ext failed rfl)

theorem coherentAfterBadEscape :
    (after [.next,.next,.next,.readNext .anything,.next]
      (.ofSource (.ofChunks [Text.of "[\x7b\"a\" ",Text.of ": \"\\x\",1]"]))).cursor.Coherent :=
  (cursorsStayCoherent [Text.of "[\x7b\"a\" ",Text.of ": \"\\x\",1]"] [.next,.next,.next,.readNext .anything,.next] _
    rfl (by decide)).1

end Operation
end AuditLog
