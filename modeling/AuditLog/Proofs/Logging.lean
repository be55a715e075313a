import AuditLog.Proofs.Record
import AuditLog.Proofs.Release
import AuditLog.Proofs.Stepwise

/-! What is logged. A reader only adds to the log: what it comes to, where it leaves the cursor and what it adds
are the same whatever the log holds. A record adds the warnings of its members, one at most for each version that
is read, and behind them, if it is told, the entry of its event; nothing else adds to the log. -/
namespace AuditLog
open Reading Reader

/-- Whatever is in the log, the reader comes to this, and leaves the cursor here and these notices behind the others. -/
def Reader.Tells {α : Type} (r : Reader α) (c : Cursor) (result : Except Fault α) (notes : List Notice) (d : Cursor) :
    Prop :=
  ∀ log, r.run ⟨c,log⟩ = (result,⟨d,notes.reverse ++ log⟩)

namespace Reader

variable {α β : Type} {r : Reader α} {f : α → Reader β} {c d e : Cursor} {notes notes' : List Notice}

theorem doneTells (a : α) (c : Cursor) : (pure a : Reader α).Tells c (.ok a) [] c := fun _ => rfl

theorem failTells (fault : Fault) (c : Cursor) : Tells (fail fault : Reader α) c (.error fault) [] c := fun _ => rfl

theorem noteTells (n : Notice) (c : Cursor) : (note n).Tells c (.ok ()) [n] c := fun _ => rfl

theorem noteAnyTells (n : Option Notice) (c : Cursor) : (noteAny n).Tells c (.ok ()) n.toList c := by
  cases n with
  | none => exact doneTells () c
  | some n => exact noteTells n c

theorem nextTells (c : Cursor) : next.Tells c c.next.1 [] c.next.2 := fun _ => rfl

theorem refuseTells (flaw : RecordFlaw) (c : Cursor) :
    (refuse flaw : Reader α).Tells c (.error (.record flaw c.start)) [] c := fun _ => rfl

theorem bindTells {a : α} {result : Except Fault β} (first : r.Tells c (.ok a) notes d)
    (second : (f a).Tells d result notes' e) : (r >>= f).Tells c result (notes ++ notes') e := by
  intro log
  rw [runBind,first log]
  simp only [second (notes.reverse ++ log),List.reverse_append,List.append_assoc]

theorem thenTells {a : α} {result : Except Fault β} (first : r.Tells c (.ok a) [] d)
    (second : (f a).Tells d result notes e) : (r >>= f).Tells c result notes e :=
  bindTells first second

theorem quietTells {a : α} {result : Except Fault β} (first : r.Tells c (.ok a) notes d)
    (second : (f a).Tells d result [] e) : (r >>= f).Tells c result notes e := by
  have both := bindTells first second
  rwa [List.append_nil] at both

theorem stopTells {fault : Fault} (first : r.Tells c (.error fault) notes d) :
    (r >>= f).Tells c (.error fault) notes d := by
  intro log
  rw [runBind,first log]

theorem sameTells {result result' : Except Fault α} (one : r.Tells c result notes d)
    (other : r.Tells c result' notes' e) : result' = result ∧ notes' = notes ∧ e = d := by
  have same := (other []).symm.trans (one [])
  simp only [List.append_nil,Prod.mk.injEq,Session.mk.injEq,List.reverse_inj] at same
  exact ⟨same.1,same.2.2,same.2.1⟩

def Leaves (good : Notice → Prop) (α : Type) (r : Reader α) (s : Session) : Prop :=
  ∃ result notes d, r.Tells s.cursor result notes d ∧ ∀ n ∈ notes, good n

theorem leavesAsking (good : Notice → Prop) : Asking (Leaves good) where
  done a s := ⟨_,_,_,doneTells a s.cursor,List.forall_mem_nil _⟩
  fails fault s := ⟨_,_,_,failTells fault s.cursor,List.forall_mem_nil _⟩
  binds {α β r f s} first second := by
    obtain ⟨result,notes,d,tells,all⟩ := first
    cases result with
    | error fault => exact ⟨_,_,_,stopTells tells,all⟩
    | ok a =>
        obtain ⟨result,notes',e,tells',all'⟩ := second a _ (tells s.noted)
        exact ⟨_,_,_,bindTells tells tells',List.forall_mem_append.mpr ⟨all,all'⟩⟩
  states {α f s} same holds := by
    obtain ⟨result,notes,d,tells,all⟩ := holds
    refine ⟨result,notes,d,fun log => ?_,all⟩
    rw [← tells log,← same ⟨s.cursor,log⟩ rfl]
    rfl
  nexts s := ⟨_,_,_,nextTells s.cursor,List.forall_mem_nil _⟩

theorem silent {s : Session} (leaves : Leaves (fun _ => False) α r s) : ∃ result d, r.Tells s.cursor result [] d := by
  obtain ⟨result,notes,d,tells,none⟩ := leaves
  rw [List.eq_nil_iff_forall_not_mem.mpr none] at tells
  exact ⟨result,d,tells⟩

end Reader

namespace Rule

theorem versionTells (ceiling : Float) (token : Option Token) (c : Cursor) :
    ∃ result notes d, ((Rule.version ceiling).read token).Tells c result notes d ∧ notes.length ≤ 1 ∧
      ∀ n ∈ notes, n.level = .warn := by
  obtain ⟨result,d,tells⟩ := silent ((leavesAsking (fun _ => False)).scalarTexts token ⟨c,[]⟩)
  cases result with
  | error fault => exact ⟨_,[],_,stopTells tells,Nat.zero_le 1,List.forall_mem_nil _⟩
  | ok version =>
      have warned : ∀ n ∈ (version.bind (Notice.ofVersion? ceiling)).toList, n.level = .warn := by
        intro n member
        obtain ⟨t,_,said⟩ := Option.bind_eq_some_iff.mp (Option.mem_toList.mp member)
        unfold Notice.ofVersion? at said
        repeat' split at said
        all_goals first | (cases said; done) | (cases said; rfl)
      refine ⟨.ok (Value.ofText? version),_,d,thenTells tells (quietTells (noteAnyTells _ d) (doneTells _ d)),?_,?_⟩
      · cases version.bind (Notice.ofVersion? ceiling) with
        | none => exact Nat.zero_le 1
        | some n => exact Nat.le_refl 1
      · exact warned

inductive Rounds (field : Text → Rule) : Cursor → List (Text × List Notice) → Cursor → Prop where
  | ends {c d found} (stepped : c.next = (found,d)) (other : ∀ name, found ≠ .ok (some (.field name))) :
      Rounds field c [] d
  | fails {c m d name fault notes} (stepped : c.next = (.ok (some (.field name)),m))
      (read : (field name).readNext.Tells m (.error fault) notes d) : Rounds field c [(name,notes)] d
  | member {c m u d name v notes others} (stepped : c.next = (.ok (some (.field name)),m))
      (read : (field name).readNext.Tells m (.ok v) notes u) (rest : Rounds field u others d) :
      Rounds field c ((name,notes) :: others) d

section
variable {field : Text → Rule}

theorem nameTells {name : Text} {c d : Cursor} {result : Except Fault Value} {notes : List Notice} (fields : Fields)
    (read : (field name).readNext.Tells c result notes d) :
    (fieldStep (fun name => (field name).read) fields (.field name)).Tells c
      (result.map (fun v => .inl (fields.put name v))) notes d := by
  intro log
  rw [fieldStepRun field fields name ⟨c,log⟩]
  cases result with
  | error fault => exact stopTells read log
  | ok v => exact quietTells read (doneTells (Sum.inl (fields.put name v) : Fields ⊕ Fields) d) log

theorem elseTells (field : Text → Rule) {token : Token} (fields : Fields) (other : ∀ name, token ≠ .field name) (c : Cursor) :
    ∃ result, (fieldStep (fun name => (field name).read) fields token).Tells c result [] c ∧
      ∀ so, result ≠ .ok (.inl so) := by
  cases token with
  | field name => exact absurd rfl (other name)
  | opening container => exact ⟨_,refuseTells _ c,nofun⟩
  | scalar scalar => exact ⟨_,refuseTells _ c,nofun⟩
  | closing container =>
      cases container with
      | array => exact ⟨_,refuseTells _ c,nofun⟩
      | object => exact ⟨_,doneTells (Sum.inr fields : Fields ⊕ Fields) c,nofun⟩

theorem roundsTold (tells : ∀ name c, ∃ result notes d, (field name).readNext.Tells c result notes d)
    (fields : Fields) (c : Cursor) :
    ∃ result members d, Rounds field c members d ∧
      (loop (fieldStep (fun name => (field name).read)) (fun _ => refuse .notFieldName) fields).Tells c result
        (members.flatMap Prod.snd) d := by
  induction size : c.unread using Nat.strongRecOn generalizing fields c with
  | _ size ih =>
      subst size
      have asked := nextTells c
      rw [loopUnrolled]
      cases stepped : c.next with
      | mk found m =>
          rw [stepped] at asked
          rcases found with fault | (_ | token)
          · exact ⟨_,[],m,.ends stepped nofun,stopTells asked⟩
          · exact ⟨_,[],m,.ends stepped nofun,thenTells asked (refuseTells _ m)⟩
          by_cases named : ∃ name, token = .field name
          · obtain ⟨name,rfl⟩ := named
            obtain ⟨result,notes,u,read⟩ := tells name m
            have went := nameTells fields read
            cases result with
            | error fault =>
                refine ⟨.error fault,[(name,notes)],u,.fails stepped read,?_⟩
                rw [List.flatMap_singleton]
                exact thenTells asked (stopTells went)
            | ok v =>
                have shorter : u.unread < c.unread := by
                  have forward := (field name).readNext.forwardTo (read [])
                  have takes := @Cursor.nextTakes c (.field name)
                  rw [stepped] at takes
                  exact Nat.lt_of_le_of_lt forward (takes rfl)
                obtain ⟨result,others,d,rest,read'⟩ := ih u.unread shorter (fields.put name v) u rfl
                refine ⟨result,(name,notes) :: others,d,.member stepped read rest,?_⟩
                rw [List.flatMap_cons]
                exact thenTells asked (bindTells went read')
          · have other (name : Text) (is : token = .field name) : False := named ⟨name,is⟩
            have ends : Rounds field c [] m := .ends stepped (fun name same => other name (by cases same; rfl))
            obtain ⟨result,went,last⟩ := elseTells field fields other m
            rcases result with fault | (so | fields)
            · exact ⟨_,[],m,ends,thenTells asked (stopTells went)⟩
            · exact absurd rfl (last so)
            · exact ⟨_,[],m,ends,thenTells asked (thenTells went (doneTells fields m))⟩

theorem roundsEach {good : Text → List Notice → Prop}
    (each : ∀ name c, ∃ result notes d, (field name).readNext.Tells c result notes d ∧ good name notes)
    {c d : Cursor} {members : List (Text × List Notice)} (rounds : Rounds field c members d) :
    ∀ m ∈ members, good m.1 m.2 := by
  have told {name c result notes d} (read : (field name).readNext.Tells c result notes d) : good name notes := by
    obtain ⟨_,notes',_,read',is⟩ := each name c
    rwa [(sameTells read read').2.1] at is
  induction rounds with
  | ends _ _ => exact List.forall_mem_nil _
  | fails _ read => exact List.forall_mem_singleton.mpr (told read)
  | member _ read _ ih => exact List.forall_mem_cons.mpr ⟨told read,ih⟩

end

def member : Rule → Text → Rule
  | .object _ field, name => field name
  | _, _ => .anything

end Rule

namespace Schema

theorem tableCeilings {allowed : Float → Prop} {entries : List (Text × Rule)}
    (all : ∀ p ∈ entries, p.2.Ceilings allowed) (name : Text) : (table entries name).Ceilings allowed := by
  induction entries with
  | nil => trivial
  | cons p entries ih =>
      rw [tableCons]
      split
      · exact all p List.mem_cons_self
      · exact ih (fun q member => all q (List.mem_cons_of_mem p member))

theorem textsCeilings {allowed : Float → Prop} (names : List String) : ∀ p ∈ texts names, p.2.Ceilings allowed := by
  intro p member
  obtain ⟨n,_,rfl⟩ := List.mem_map.mp member
  trivial

theorem versionMember (ceiling : Float) : (record ceiling).member (Text.of "eventVersion") = .version ceiling :=
  (tableCons _ _ _ _).trans (if_pos rfl)

theorem otherMember (ceiling ceiling' : Float) {name : Text} (other : name ≠ Text.of "eventVersion") :
    (record ceiling).member name = (record ceiling').member name :=
  ((tableCons _ _ _ _).trans (if_neg other)).trans ((tableCons _ _ _ _).trans (if_neg other)).symm

theorem otherCeilings {allowed : Float → Prop} (ceiling : Float) {name : Text} (other : name ≠ Text.of "eventVersion") :
    ((record ceiling).member name).Ceilings allowed := by
  have attributes' : attributes.Ceilings allowed := fun _ => trivial
  have sessionIssuer' : sessionIssuer.Ceilings allowed := tableCeilings (textsCeilings _)
  have webIdentity' : webIdentity.Ceilings allowed :=
    tableCeilings (List.forall_mem_cons.mpr ⟨attributes',textsCeilings _⟩)
  have sessionContext' : sessionContext.Ceilings allowed := by
    refine tableCeilings ?_
    simp only [List.forall_mem_cons]
    exact ⟨attributes',sessionIssuer',webIdentity',List.forall_mem_nil _⟩
  have userIdentity' : userIdentity.Ceilings allowed :=
    tableCeilings (List.forall_mem_cons.mpr ⟨sessionContext',textsCeilings _⟩)
  have resources' : resources.Ceilings allowed := fun _ => trivial
  show (table _ name).Ceilings allowed
  rw [tableCons,if_neg other]
  refine tableCeilings ?_ name
  simp only [List.forall_mem_cons]
  exact ⟨userIdentity',trivial,trivial,trivial,resources',trivial,List.forall_mem_nil _⟩

def Warned (name : Text) (notes : List Notice) : Prop :=
  (∀ n ∈ notes, n.level = .warn) ∧ notes.length ≤ if name = Text.of "eventVersion" then 1 else 0

theorem memberTells (ceiling : Float) (name : Text) (c : Cursor) :
    ∃ result notes d, ((record ceiling).member name).readNext.Tells c result notes d ∧ Warned name notes := by
  by_cases version : name = Text.of "eventVersion"
  · have asked := nextTells c
    rw [version,versionMember]
    cases stepped : c.next with
    | mk found m =>
        rw [stepped] at asked
        cases found with
        | error fault => exact ⟨_,[],m,stopTells asked,List.forall_mem_nil _,Nat.zero_le _⟩
        | ok token =>
            obtain ⟨result,notes,d,read,once,warned⟩ := Rule.versionTells ceiling token m
            exact ⟨result,notes,d,thenTells asked read,warned,once⟩
  · have asking := leavesAsking (fun _ => False)
    obtain ⟨result,d,read⟩ := silent (asking.binds (asking.nexts ⟨c,[]⟩) (fun token m _ =>
      asking.piecewise.reads ((record ceiling).member name) (otherCeilings ceiling version) token m))
    exact ⟨result,[],d,read,List.forall_mem_nil _,Nat.zero_le _⟩

end Schema

namespace Event

def identifier? (e : Event) : Option Uuid :=
  match e.data with
  | .object fields =>
      match fields.lookup (Text.of "eventID") with
      | some (.identifier id) => some id
      | _ => none
  | _ => none

def entry? (e : Event) : Option Notice :=
  match e.metadata.start, e.metadata.stop with
  | .counted start, .counted stop => some (.decoded start stop e.identifier?)
  | _, _ => none

end Event

namespace Rule

theorem objectElse {noun : Text} {field : Text → Rule} {token : Option Token} (other : token ≠ some (.opening .object)) :
    (Rule.object noun field).read token = refuse (.notShape noun) := by
  unfold Rule.read
  split
  · exact absurd rfl other
  · rfl

end Rule

namespace Trail

/-- How a record is read from here, whatever is in the log: with what result and which members, with what it says of
them and, behind all that, of its event, and how far. -/
structure Recorded (terms : Terms) (c : Cursor) (result : Except Fault Event) (members : List (Text × List Notice))
    (said : List Notice) (d : Cursor) : Prop where
  tells : (event terms).Tells c result (members.flatMap Prod.snd ++ said) d
  read : c.current = some (.opening .object) → Rule.Rounds (Schema.record terms.ceiling).member c members d
  unread : c.current ≠ some (.opening .object) → members = []
  warned : ∀ m ∈ members, Schema.Warned m.1 m.2
  said : result.toOption.toList.map Event.entry? = said.map some

theorem identifierHeld (data : Value) (metadata : Metadata) : Event.identifier? ⟨data,metadata⟩ = identifier? data := by
  cases data <;> rfl

theorem entryOf (provenance : Provenance) (data : Value) (start stop : Nat) :
    Event.entry? ⟨data,provenance.metadata (.counted start) (.counted stop)⟩ =
      some (.decoded start stop (identifier? data)) := by
  rw [← identifierHeld data (provenance.metadata (.counted start) (.counted stop))]
  cases provenance <;> rfl

theorem recordTold (terms : Terms) (c : Cursor) : ∃ result members said d, Recorded terms c result members said d := by
  have each (name : Text) (c : Cursor) := Schema.memberTells terms.ceiling name c
  by_cases stands : c.current = some (.opening .object)
  · obtain ⟨result,members,d,rounds,read⟩ := Rule.roundsTold
      (fun name c => (each name c).imp (fun _ h => h.imp (fun _ h => h.imp (fun _ h => h.1)))) [] c
    have warned := Rule.roundsEach each rounds
    have current : (Schema.record terms.ceiling).readCurrent.Tells c (result.map Value.object)
        (members.flatMap Prod.snd) d := by
      intro log
      simp only [Rule.readCurrent,runBind,runState]
      rw [stands]
      cases result with
      | error fault => exact stopTells read log
      | ok fields => exact quietTells read (doneTells (Value.object fields) d) log
    cases result with
    | error fault =>
        refine ⟨.error fault,members,[],d,?_,fun _ => rounds,fun other => absurd stands other,warned,rfl⟩
        rw [List.append_nil]
        exact fun log => stopTells current log
    | ok fields =>
        let record := Account.resolve (.object fields)
        refine ⟨.ok ⟨record,terms.provenance.metadata (.counted c.start) (.counted d.stop)⟩,members,
          [.decoded c.start d.stop (identifier? record)],d,fun log => bindTells current (fun _ => rfl) log,
          fun _ => rounds,fun other => absurd stands other,warned,?_⟩
        exact congrArg (fun entry => [entry]) (entryOf terms.provenance record c.start d.stop)
  · obtain ⟨flaw,gives⟩ : ∃ flaw, (Schema.record terms.ceiling).read c.current = refuse flaw :=
      ⟨_,Rule.objectElse stands⟩
    have refused : (Schema.record terms.ceiling).readCurrent.Tells c (.error (.record flaw c.start)) [] c := by
      intro log
      simp only [Rule.readCurrent,runBind,runState]
      rw [gives]
      exact refuseTells flaw c log
    exact ⟨.error (.record flaw c.start),[],[],c,fun log => stopTells refused log,fun same => absurd same stands,
      fun _ => rfl,List.forall_mem_nil _,rfl⟩

end Trail

/-- Of these notices, those that are no warnings are the entries of these events, one behind the other. -/
def Logged (events : List Event) (notes : List Notice) : Prop :=
  events.map Event.entry? = (notes.filter (fun n => n.level = .debug)).map some

theorem loggedAppend {es es' : List Event} {notes notes' : List Notice} (first : Logged es notes)
    (second : Logged es' notes') : Logged (es ++ es') (notes ++ notes') := by
  rw [Logged,List.map_append,List.filter_append,List.map_append,first,second]

theorem loggedWarnings {notes : List Notice} (warnings : ∀ n ∈ notes, n.level = .warn) : Logged [] notes := by
  have none : notes.filter (fun n => n.level = .debug) = [] :=
    List.filter_eq_nil_iff.mpr (fun n member => by simp [warnings n member])
  rw [Logged,none]
  rfl

theorem entryDebug {e : Event} {n : Notice} (entry : e.entry? = some n) : n.level = .debug := by
  unfold Event.entry? at entry
  split at entry <;> cases entry
  rfl

theorem loggedEntries {es : List Event} {notes : List Notice} (entries : es.map Event.entry? = notes.map some) :
    Logged es notes := by
  have all : notes.filter (fun n => n.level = .debug) = notes := by
    refine List.filter_eq_self.mpr (fun n member => ?_)
    have among : some n ∈ es.map Event.entry? := by
      rw [entries]
      exact List.mem_map.mpr ⟨n,member,rfl⟩
    obtain ⟨e,_,entry⟩ := List.mem_map.mp among
    simp [entryDebug entry]
  rw [Logged,all,entries]

namespace Session

def Logs (s : Session) (events : List Event) (t : Session) : Prop :=
  ∃ notes, t.noted = notes.reverse ++ s.noted ∧ Logged events notes

section
variable {s t u : Session} {es es' : List Event}

theorem logsNothing (same : t.noted = s.noted) : s.Logs [] t := ⟨[],same,rfl⟩

theorem logsThen (first : s.Logs es t) (second : t.Logs es' u) : s.Logs (es ++ es') u := by
  obtain ⟨notes,grown,logged⟩ := first
  obtain ⟨notes',grown',logged'⟩ := second
  exact ⟨notes ++ notes',by rw [grown',grown,List.reverse_append,List.append_assoc],loggedAppend logged logged'⟩

theorem logsWarnings {α : Type} {r : Reader α} (leaves : Leaves (fun n => n.level = .warn) α r s) :
    s.Logs [] (r.run s).2 := by
  obtain ⟨result,notes,d,tells,warnings⟩ := leaves
  refine ⟨notes,?_,loggedWarnings warnings⟩
  rw [show r.run s = _ from tells s.noted]

end
end Session

namespace Trail

theorem eventLogs {terms : Terms} {s t : Session} {result : Except Fault Event}
    (ran : (event terms).run s = (result,t)) : s.Logs result.toOption.toList t := by
  obtain ⟨_,members,said,d,recorded⟩ := recordTold terms s.cursor
  have same := ran.symm.trans (recorded.tells s.noted)
  cases same
  have warnings : ∀ n ∈ members.flatMap Prod.snd, n.level = .warn := by
    intro n member
    obtain ⟨m,among,inside⟩ := List.mem_flatMap.mp member
    exact (recorded.warned m among).1 n inside
  have logged := loggedAppend (loggedWarnings warnings) (loggedEntries recorded.said)
  exact ⟨_,rfl,logged⟩

theorem asksLog (s : Session) : s.Logs [] (more.run s).2 := Session.logsWarnings ((leavesAsking _).asks s)

theorem entersLog (field : Text) (s : Session) : s.Logs [] ((envelope field).run s).2 :=
  Session.logsWarnings ((leavesAsking _).envelopes field s)

theorem answersLeave (op : Operation) (s : Session) : Leaves (fun n => n.level = .warn) _ op.reader s := by
  refine (leavesAsking _).answers (fun ceiling token s => ?_) (fun s => ?_) op s
  · obtain ⟨result,notes,d,tells,_,warned⟩ := Rule.versionTells ceiling token s.cursor
    exact ⟨result,notes,d,tells,warned⟩
  · exact ⟨.ok (),[],s.cursor.close,fun _ => rfl,List.forall_mem_nil _⟩

theorem answersLog (op : Operation) (s : Session) : s.Logs [] (op.reader.run s).2 :=
  Session.logsWarnings (answersLeave op s)

theorem collectLogs (terms : Terms) (limit : Option Nat) (found : List Event) (s : Session) :
    ∃ events, (collectFrom terms limit found s).1.events = found.reverse ++ events ∧
      s.Logs events (collectFrom terms limit found s).2 := by
  induction size : s.unread using Nat.strongRecOn generalizing limit found s with
  | _ size ih =>
      subst size
      have asked := asksLog s
      rw [collectFurther]
      cases ran : more.run s with
      | mk result m =>
          rw [ran] at asked
          rcases result with fault | (_ | _)
          · exact ⟨[],(List.append_nil _).symm,asked⟩
          · exact ⟨[],(List.append_nil _).symm,asked⟩
          cases made : (event terms).run m with
          | mk result u =>
              have told := Session.logsThen asked (eventLogs made)
              simp only [made]
              cases result with
              | error fault => exact ⟨[],(List.append_nil _).symm,told⟩
              | ok e =>
                  have shorter := Nat.lt_of_le_of_lt ((event terms).forwardTo made) (moreTakes ran)
                  have last : ∃ events, (e :: found).reverse = found.reverse ++ events ∧ s.Logs events u :=
                    ⟨[e],List.reverse_cons,told⟩
                  have others (limit : Option Nat) :
                      ∃ events, (collectFrom terms limit (e :: found) u).1.events = found.reverse ++ events ∧
                        s.Logs events (collectFrom terms limit (e :: found) u).2 := by
                    obtain ⟨events,harvested,logs⟩ := ih _ shorter limit (e :: found) u rfl
                    refine ⟨e :: events,?_,Session.logsThen told logs⟩
                    rw [harvested,List.reverse_cons,List.append_assoc,List.singleton_append]
                  cases limit with
                  | none => exact others none
                  | some n =>
                      simp only [further]
                      split
                      · exact last
                      · exact others _

namespace Act

def events : Act → Trail → List Event
  | .take, t => t.take.1.toOption.toList
  | .collect limit, t => (t.collect limit).1.events
  | _, _ => []

def given : List Act → Trail → List Event
  | [], _ => []
  | act :: acts, t => act.events t ++ given acts (act.on t)

theorem performLogs {α : Type} {r : Reader α} {t : Trail} {f : Except Fault α → List Event}
    (none : ∀ fault, f (.error fault) = []) (logs : t.session.Logs (f (r.run t.session).1) (r.run t.session).2) :
    t.session.Logs (f (t.perform r).1) (t.perform r).2.session := by
  rw [perform]
  split
  · rw [none]
    exact Session.logsNothing rfl
  · exact logs

theorem actLogs (act : Act) (t : Trail) : t.session.Logs (act.events t) (act.on t).session := by
  cases act with
  | enter => exact performLogs (f := fun _ => []) (fun _ => rfl) (entersLog _ t.session)
  | another => exact performLogs (f := fun _ => []) (fun _ => rfl) (asksLog t.session)
  | take => exact performLogs (f := fun result => result.toOption.toList) (fun _ => rfl) (eventLogs rfl)
  | collect limit =>
      rw [events,on,Trail.collect]
      split
      · exact Session.logsNothing rfl
      · obtain ⟨events,harvested,logs⟩ := collectLogs t.terms limit [] t.session
        have same : (collectFrom t.terms limit [] t.session).1.events = events := harvested
        show t.session.Logs (collectFrom t.terms limit [] t.session).1.events (collectFrom t.terms limit [] t.session).2
        rwa [same]
  | close =>
      refine Session.logsNothing ?_
      rw [on,Trail.close]
      split <;> rfl
  | cursor op => exact answersLog op t.session

theorem afterLogs (acts : List Act) (t : Trail) : t.session.Logs (given acts t) (after acts t).session := by
  induction acts generalizing t with
  | nil => exact Session.logsNothing rfl
  | cons act acts ih => exact Session.logsThen (actLogs act t) (ih (act.on t))

end Act
end Trail
end AuditLog
