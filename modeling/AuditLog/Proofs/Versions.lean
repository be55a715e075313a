import AuditLog.Proofs.Logging
import AuditLog.Proofs.Twins

/-! The highest known version. It is compared with the versions of records and with nothing else, and all that comes
of it is a warning, so two decodings that differ in it differ in such warnings only. -/
namespace AuditLog
open Reading Reader Trail

def Notice.newer : Notice → Bool
  | .versionNewer .. => true
  | _ => false

theorem Notice.othersAgree (ceiling ceiling' : Float) (version : Text) :
    (Notice.ofVersion? ceiling version).toList.filter (fun n => !n.newer) =
      (Notice.ofVersion? ceiling' version).toList.filter (fun n => !n.newer) := by
  have above (ceiling : Float) (x : Float) :
      (if ceiling < x then some (Notice.versionNewer version ceiling) else none).toList.filter (fun n => !n.newer) = [] := by
    split <;> rfl
  unfold Notice.ofVersion?
  split
  · rfl
  · split
    · rfl
    · rw [above,above]

namespace Session

structure Beside (s t : Session) : Prop where
  cursor : t.cursor = s.cursor
  noted : t.noted.filter (fun n => !n.newer) = s.noted.filter (fun n => !n.newer)

theorem besideBlind : Blind Beside (fun _ => True) where
  reads := by
    rintro ⟨c,log⟩ ⟨c',log'⟩ ⟨(same : c' = c),noted⟩
    subst same
    cases stepped : c'.next with
    | mk result d =>
        have ran (log : List Notice) : next.run ⟨c',log⟩ = (result,⟨d,log⟩) := Cursor.nextRun stepped
        rw [ran,ran]
        cases result with
        | error fault => exact .error ⟨⟨rfl,noted⟩,trivial⟩
        | ok token => exact .ok ⟨⟨rfl,noted⟩,Cursor.nextCurrent stepped⟩
  noted n s t related := ⟨related.cursor,by rw [List.filter_cons,List.filter_cons,related.noted]⟩
  current s t related := by rw [related.cursor]
  name s t related := by rw [related.cursor]
  start s t related := by rw [related.cursor]
  position s t related := by rw [related.cursor]
  content _ _ := trivial

end Session

namespace Rule
open Session

theorem versionBeside (ceiling ceiling' : Float) (token : Option Token) :
    Together Beside ((Rule.version ceiling).read token) ((Rule.version ceiling').read token) := by
  have notes (n : Option Notice) (s : Session) : (noteAny n).run s = (.ok (),⟨s.cursor,n.toList ++ s.noted⟩) := by
    cases n <;> rfl
  refine coupledBind (carriesTogether (besideBlind.scalarTextCarries token)) (fun version => ?_)
  have noted : Together Beside (noteAny (version.bind (Notice.ofVersion? ceiling)))
      (noteAny (version.bind (Notice.ofVersion? ceiling'))) := by
    intro s t related
    rw [notes,notes]
    refine .ok ⟨related.cursor,?_⟩
    simp only [List.filter_append,related.noted]
    cases version with
    | none => rfl
    | some version => exact congrArg (· ++ _) (Notice.othersAgree ceiling' ceiling version)
  exact coupledBind noted (fun _ => coupledPure _ (fun _ _ h => h))

theorem objectTogether {R : Session → Session → Prop} {allowed : Fault → Prop} (blind : Blind R allowed) (noun : Text)
    {field field' : Text → Rule}
    (members : ∀ name token, Coupled (Blind.At R token) ((field name).read token) ((field' name).read token)
      (fun _ => R) (fun _ => R)) (token : Option Token) :
    Together R ((Rule.object noun field).read token) ((Rule.object noun field').read token) := by
  unfold Rule.read
  split
  · refine coupledMap (coupledLoop (fun _ => R) (fun _ => R) (fun _ _ => R) ?_ ?_ ?_ _) (fun _ _ _ h => h)
    · exact fun _ => coupledWeaken (carriesTogether blind.nextCarries) (fun _ _ h => h)
        (fun found _ _ h => by cases found <;> exact h) (fun _ _ _ h => h)
    · intro fields token
      unfold fieldStep
      split
      · exact coupledPure _ (fun _ _ h => h)
      · rename_i name
        have read : Coupled R next next (Blind.At R) (fun _ => R) :=
          coupledWeaken blind.reads (fun _ _ h => h) (fun _ _ _ h => h) (fun _ _ _ h => h.1)
        refine coupledBind read (fun token => ?_)
        exact coupledBind (members name token) (fun v => coupledPure _ (fun _ _ h => h))
      · exact coupledWeaken (carriesTogether (blind.refuseCarries _)) (fun _ _ h => h)
          (fun out _ _ h => by cases out <;> exact h) (fun _ _ _ h => h)
    · exact fun _ => carriesTogether (blind.refuseCarries _)
  · exact carriesTogether (blind.refuseCarries _)

end Rule

namespace Schema
open Session

theorem recordBeside (ceiling ceiling' : Float) (token : Option Token) :
    Together Beside ((record ceiling).read token) ((record ceiling').read token) := by
  refine Rule.objectTogether besideBlind _ (fun name token => ?_) token
  show Coupled _ (((record ceiling).member name).read token) (((record ceiling').member name).read token) _ _
  by_cases version : name = Text.of "eventVersion"
  · rw [version,versionMember,versionMember]
    exact coupledWeaken (Rule.versionBeside ceiling ceiling' token) (fun _ _ h => h.1) (fun _ _ _ h => h)
      (fun _ _ _ h => h)
  · rw [otherMember ceiling ceiling' version]
    exact coupledWeaken (besideBlind.readCarries _ token) (fun _ _ h => h) (fun _ _ _ h => h) (fun _ _ _ h => h.1)

end Schema

namespace Trail
open Session

theorem toldBeside (ceiling ceiling' : Float) : Together Beside (told ceiling) (told ceiling') := by
  refine coupledState (fun s t related => ?_)
  rw [related.cursor]
  have current : Together Beside (Schema.record ceiling).readCurrent (Schema.record ceiling').readCurrent := by
    refine coupledState (fun s t related => ?_)
    rw [related.cursor]
    exact Schema.recordBeside ceiling ceiling' s.cursor.current s t related
  refine coupledBind current (fun data => coupledState (fun s t related => ?_)) s t related
  rw [related.cursor]
  refine coupledBind (carriesTogether (besideBlind.noteCarries (some _))) (fun _ => ?_) s t related
  exact coupledPure _ (fun _ _ h => h)

end Trail

namespace Decoding
open Session

def sansNewer (d : Decoding) : Decoding := { d with notices := d.notices.filter (fun n => !n.newer) }

theorem ceilingsAgree (terms : Terms) (ceiling : Float) (limit : Option Nat) (source : Source) :
    (ofSource { terms with ceiling } limit source).sansNewer = (ofSource terms limit source).sansNewer := by
  have enters : Together Beside (envelope terms.recordsField) (envelope terms.recordsField) :=
    carriesTogether (envelopeCarries besideBlind _)
  obtain ⟨found,failure,u,v,related,left,right⟩ := @ofSourceAgree { terms with ceiling } terms Beside enters
    (carriesTogether (moreCarries besideBlind)) (toldBeside ceiling terms.ceiling) limit source source ⟨rfl,rfl⟩
  obtain ⟨c,log⟩ := u
  obtain ⟨c',log'⟩ := v
  obtain ⟨same,noted⟩ := related
  cases (same : c' = c)
  rw [left,right]
  have notices : log.reverse.filter (fun n => !n.newer) = log'.reverse.filter (fun n => !n.newer) := by
    rw [List.filter_reverse,List.filter_reverse]
    exact congrArg List.reverse noted.symm
  exact congrArg (fun notices => (⟨(harvested terms found failure).events,failure,notices,_⟩ : Decoding)) notices

theorem ofSourceActs (terms : Terms) (limit : Option Nat) (source : Source) :
    ∃ acts, (ofSource terms limit source).events = Act.given acts (.ofSource terms source) ∧
      (ofSource terms limit source).notices = (Act.after acts (.ofSource terms source)).session.notices := by
  rw [ofSource]
  split
  · rename_i fault t entering
    refine ⟨[.enter,.close],rfl,?_⟩
    simp only [Act.after,Act.on,entering]
    rfl
  · rename_i u t entering
    refine ⟨[.enter,.collect limit,.close],?_,?_⟩
    · simp only [Act.given,Act.events,Act.on,entering,List.nil_append,List.append_nil]
      rfl
    · simp only [Act.after,Act.on,entering]
      rfl

end Decoding

namespace Trail

theorem actsLogged (terms : Terms) (source : Source) (acts : List Act) :
    Logged (Act.given acts (.ofSource terms source)) (Act.after acts (.ofSource terms source)).session.notices := by
  obtain ⟨notes,grown,logged⟩ := Act.afterLogs acts (.ofSource terms source)
  rw [Session.notices,grown,List.reverse_append,List.reverse_reverse]
  exact logged

structure Heedless (terms : Terms) (c : Cursor) : Prop where
  enters : ∃ result d, (envelope terms.recordsField).Tells c result [] d
  asks : ∃ result d, more.Tells c result [] d
  takes : ∃ result members said d, Recorded terms c result members said d
  answers : ∀ op : Operation, ∃ result notes d, op.reader.Tells c result notes d

theorem heedless (terms : Terms) (c : Cursor) : Heedless terms c where
  enters := silent ((leavesAsking (fun _ => False)).envelopes terms.recordsField ⟨c,[]⟩)
  asks := silent ((leavesAsking (fun _ => False)).asks ⟨c,[]⟩)
  takes := recordTold terms c
  answers op := by
    obtain ⟨result,notes,d,tells,_⟩ := answersLeave op ⟨c,[]⟩
    exact ⟨result,notes,d,tells⟩

end Trail

namespace Decoding

/-- Decodings that differ in the highest known version differ in the warnings of versions above it and in nothing
else. In every run, whatever comes of it, the entries in the log that are no warnings are those of the events it gave,
one behind the other. And each step goes its way whatever is in the log; a record adds the warnings of its versions,
one at most for each that is read, and the entry of its event comes behind them. -/
theorem versionsOnlyWarned (options : Options) (terms : Terms) :
    (∀ ceiling raw t, (ofText { options with ceiling } raw t).sansNewer = (ofText options raw t).sansNewer) ∧
      (∀ ceiling limit path entry,
        (ofFile { options with ceiling } limit path entry).sansNewer = (ofFile options limit path entry).sansNewer) ∧
      (∀ limit source, Logged (ofSource terms limit source).events (ofSource terms limit source).notices) ∧
      (∀ source acts, Logged (Act.given acts (.ofSource terms source))
        (Act.after acts (.ofSource terms source)).session.notices) ∧
      ∀ c, Heedless terms c := by
  refine ⟨fun ceiling raw t => ?_,fun ceiling limit path entry => ?_,fun limit source => ?_,actsLogged terms,
    heedless terms⟩
  · rw [ofText,ofText]
    exact ceilingsAgree ⟨options.recordsField,options.ceiling,_⟩ ceiling none _
  · rw [ofFile,ofFile]
    cases Source.ofFile options.chunkSize path entry with
    | error flaw => rfl
    | ok source => exact ceilingsAgree ⟨options.recordsField,options.ceiling,_⟩ ceiling limit source
  · obtain ⟨acts,events,notices⟩ := ofSourceActs terms limit source
    rw [events,notices]
    exact actsLogged terms source acts

end Decoding
end AuditLog
