import AuditLog.Proofs.Independence
import AuditLog.Proofs.Prompt

/-! Records as they arrive. The last token of a record is the end of an object, and what ends an iteration is the
end of the list: neither needs the units that follow it, so a record is there with the chunk that its last unit
comes in, and the end of the list with the chunk of its bracket. -/
namespace AuditLog
open Reading Reader

structure Source.Spare (chunks : Nat) (s : Source) : Prop where
  broken : s.broken.isSome = true
  reads : s.history.count .read + s.pending.length = chunks

theorem Scanner.refillSpare {σ α : Type} {m : Scanner σ α} {flaw : FileFlaw} {state : σ} {position : Nat}
    {history : List Access} {pending : List Text} {a : α} {i : Input}
    (ran : m.refill (some flaw) state position history pending = (.ok a,i)) :
    i.source.Spare (history.count .read + pending.length) := by
  induction pending generalizing state position history with
  | nil => cases ran
  | cons chunk pending ih =>
      have once : (Access.read :: history).count .read = history.count .read + 1 := List.count_cons_self
      have same : (Access.read :: history).count .read + pending.length =
          history.count .read + (chunk :: pending).length := by
        rw [once,List.length_cons]
        omega
      rw [← same]
      rw [refill] at ran
      split at ran
      · exact ih ran
      · cases ran
        exact ⟨rfl,rfl⟩

namespace Lexer

def Sparing {α : Type} (chunks : Nat) (r : Lexer α) : Prop :=
  ∀ l a l', l.input.source.Spare chunks → r.run l = (.ok a,l') → l'.input.source.Spare chunks

theorem stepwiseSparing (chunks : Nat) : Stepwise (fun _ => Sparing chunks) where
  done a l b l' spare ran := by
    cases ran
    exact spare
  fails fault l b l' spare ran := by cases ran
  binds first second l b l' spare ran := by
    obtain ⟨a,m,ran,rest⟩ := okBind ran
    exact second a m b l' (first l a m spare ran) rest
  scans m state l a l' spare ran := by
    simp only [scan] at ran
    split at ran <;> cases ran
    rename_i i scanned
    show i.source.Spare chunks
    rw [Scanner.run] at scanned
    split at scanned
    · cases scanned
      exact spare
    · obtain ⟨flaw,broken⟩ := Option.isSome_iff_exists.mp spare.broken
      split at scanned
      · cases scanned
        exact spare
      · rw [broken] at scanned
        have left := Scanner.refillSpare scanned
        rwa [spare.reads] at left
  marks l b l' spare ran := by
    cases ran
    exact spare
  looks {α f} holds l b l' spare ran := holds _ _ l b l' spare ran

end Lexer

theorem Cursor.nextSpare {chunks : Nat} {c d : Cursor} {found : Option Token} (spare : c.input.source.Spare chunks)
    (stepped : c.next = (.ok found,d)) : d.input.source.Spare chunks := by
  unfold next at stepped
  split at stepped
  · cases stepped
  · split at stepped <;> cases stepped
    rename_i ran
    exact (Lexer.stepwiseSparing chunks).tokens c.expecting c.nesting.head? _ _ _ spare ran

def Session.Sparing (chunks : Nat) (α : Type) (r : Reader α) (s : Session) : Prop :=
  s.cursor.input.source.Spare chunks → ∀ a t, r.run s = (.ok a,t) → t.cursor.input.source.Spare chunks

theorem Session.throughoutSparing (chunks : Nat) : Throughout (Sparing chunks) where
  done a s spare b t ran := by
    cases ran
    exact spare
  fails fault s spare b t ran := by cases ran
  notes n s spare b t ran := by
    cases ran
    exact spare
  binds first second spare b t ran := by
    obtain ⟨a,m,ran,rest⟩ := okBind ran
    exact second a m ran (first spare a m ran) b t rest
  states _ holds spare b t ran := holds spare b t ran
  nexts s spare found t read := Cursor.nextSpare spare (Reader.readNext read)

theorem Cursor.latestChunk {chunks : List Text} {c : Cursor} (latest : c.Latest chunks) :
    ∃ front chunk later, chunks = front ++ chunk :: later ∧ front.flatten.length < c.stop ∧
      c.stop ≤ front.flatten.length + chunk.length ∧
      c.input.source.history = List.replicate (front.length + 1) .read := by
  obtain ⟨_,⟨arrived,later,split,holds,inside⟩,stop⟩ := latest
  obtain ⟨used,parts,place⟩ := holds.used
  have whole := congrArg List.length parts
  rw [List.length_append] at whole
  rcases List.eq_nil_or_concat arrived with rfl | ⟨front,chunk,concat⟩
  · rw [place] at inside
    simp only [List.flatten_nil,List.length_nil] at whole
    omega
  rw [List.concat_eq_append] at concat
  subst concat
  simp only [List.flatten_append,List.flatten_singleton,List.length_append] at whole
  rw [List.append_assoc,List.singleton_append] at split
  rw [List.dropLast_concat] at inside
  refine ⟨front,chunk,later,split,by rwa [stop],?_,?_⟩
  · rw [stop,place]
    omega
  · rw [holds.reads,List.length_append,List.length_singleton]

namespace Rule

theorem objectLatest {chunks : List Text} {noun : Text} {field : Text → Rule} {token : Option Token} {s t : Session}
    {v : Value} (fed : s.cursor.Fed chunks) (ran : ((Rule.object noun field).read token).run s = (.ok v,t)) :
    t.cursor.Latest chunks := by
  have blind := Session.keptBlind (@Cursor.fedNext chunks)
  unfold Rule.read at ran
  split at ran
  · obtain ⟨fields,u,looped,ran⟩ := okBind ran
    cases ran
    refine loopDone (fun _ s => s.cursor.Fed chunks) (fun _ t => t.cursor.Latest chunks) ?_ ?_ ?_ fed looped
    · intro a s t b u _ _ beyond
      cases beyond
    · intro a token s t b u fed read went
      unfold fieldStep at went
      split at went
      · cases went
        exact Cursor.nextLatest fed (Reader.readNext read)
      · obtain ⟨_,_,_,went⟩ := okBind went
        obtain ⟨_,_,_,went⟩ := okBind went
        cases went
      · cases went
    · intro a token s t so u fed read went
      refine ⟨?_,fun _ latest => latest⟩
      have fed' := Cursor.fedNext fed (Reader.readNext read)
      cases token with
      | field name =>
          rw [fieldStepRun] at went
          obtain ⟨v,m,valued,went⟩ := okBind went
          cases went
          exact (Trail.carriesAlone (blind.readNextCarries (field name)) ⟨rfl,fed'⟩ valued).1.2
      | closing container => cases container <;> cases went
      | _ => cases went
  · cases ran

end Rule

namespace Trail
open Cursor

theorem recordLatest {terms : Terms} {chunks : List Text} {e : Event} {s t : Session} (fed : s.cursor.Fed chunks)
    (ran : (event terms).run s = (.ok e,t)) :
    t.cursor.Latest chunks ∧ e.metadata = terms.provenance.metadata (.counted s.cursor.start) (.counted t.cursor.stop) := by
  obtain ⟨v,u,read,same,rfl⟩ := eventMade ran
  rw [same]
  exact ⟨Rule.objectLatest fed read,rfl⟩

theorem takeLatest {chunks : List Text} {e : Event} {t u : Trail} (fed : t.session.cursor.Fed chunks)
    (taken : t.take = (.ok e,u)) :
    u.session.cursor.Latest chunks ∧ e.metadata.stop = .counted u.session.cursor.stop := by
  obtain ⟨latest,metadata⟩ := recordLatest fed ((performRun (performOpened taken)).mp taken).2
  refine ⟨latest,?_⟩
  rw [metadata]
  cases t.terms.provenance <;> rfl

section
variable {chunks : List Text} {broken : Option FileFlaw}

theorem fedAfter (terms : Terms) (chunks : List Text) (broken : Option FileFlaw) (acts : List Act) :
    (Act.after acts (.ofSource terms ⟨chunks,broken,[]⟩)).session.cursor.Fed chunks :=
  Act.keptAfter acts fedNext fedClose (fedOfSource chunks broken)

theorem iteratedLast {t u : Trail} {es : List Event} (iterated : t.Iterated es none u) :
    ∃ acts m, m = Act.after acts t ∧ m.another = (.ok false,u) := by
  generalize ended : (none : Option Fault) = failure at iterated
  induction iterated with
  | done asked => exact ⟨[],_,rfl,asked⟩
  | refused _ => cases ended
  | failed _ _ => cases ended
  | event asked taken _ ih =>
      obtain ⟨acts,m,rfl,last⟩ := ih ended
      refine ⟨.another :: .take :: acts,_,?_,last⟩
      simp only [Act.after,Act.on,asked,taken]

end

theorem iteratedSpare {n : Nat} {t u : Trail} {es : List Event} (opened : t.closed = false)
    (spare : t.session.cursor.input.source.Spare n) (iterated : t.Iterated es none u) : u.session.cursor.input.source.Spare n := by
  have throughout := Session.throughoutSparing n
  generalize ended : (none : Option Fault) = failure at iterated
  induction iterated with
  | @done t u asked => exact throughout.asks t.session spare _ _ ((performRun opened).mp asked).2
  | refused _ => cases ended
  | failed _ _ => cases ended
  | @event t m u v e es failure asked taken _ ih =>
      obtain ⟨asked,taken,same⟩ := roundRun opened asked taken
      have spare' := throughout.asks t.session spare _ _ asked
      exact ih (by rw [same]) (throughout.stepwise.records t.terms m.session spare' _ _ taken) ended

theorem anotherFalse {t u : Trail} (asked : t.another = (.ok false,u)) :
    more.run t.session = (.ok false,u.session) :=
  ((performRun (performOpened asked)).mp asked).2

theorem iteratedCloses {lead : Text} {around : List Container} {t u : Trail} {es : List Event}
    (opened : t.closed = false) (awaits : Awaits t.session.cursor lead around) (past : Past t.session.cursor)
    (iterated : t.Iterated es none u) :
    u.session.cursor.current = some (.closing .array) ∧ u.session.cursor.nesting = around := by
  generalize ended : (none : Option Fault) = failure at iterated
  induction iterated generalizing lead with
  | @done t u asked =>
      obtain ⟨found,stepped,other⟩ := moreFalse (anotherFalse asked)
      have entry := awaitsEntry awaits
      cases found with
      | none => exact absurd stepped (entryGoes entry)
      | some token =>
          obtain ⟨on,rfl | starts⟩ := arrayEntry entry stepped
          · exact ⟨nextCurrent stepped,on.nesting⟩
          · exact absurd starts (other token rfl)
  | refused _ => cases ended
  | failed _ _ => cases ended
  | @event t m u v e es failure asked taken _ ih =>
      obtain ⟨asked,taken,same⟩ := roundRun opened asked taken
      obtain ⟨container,stepped⟩ := moreTrue asked
      obtain ⟨_,_,_,_,_,_,_,_,beyond,past',_⟩ := elementFound awaits past stepped taken
      exact ih (by rw [same]) (.inr ⟨rfl,beyond⟩) past' ended

def harvest (t : Trail) : (Except Fault Unit × Harvest) × Trail :=
  ((t.enter.1,(t.enter.2.collect none).1),(t.enter.2.collect none).2)

theorem harvestIff {t u : Trail} {events : List Event} (opened : t.closed = false) :
    t.harvest = ((.ok (),⟨events,none⟩),u) ↔ ∃ m, t.enter = (.ok (),m) ∧ m.Iterated events none u := by
  cases entering : t.enter with
  | mk result m =>
      have opened' : m.closed = false := by rw [((performRun opened).mp entering).1]
      cases collected : m.collect none with
      | mk harvest v =>
          simp only [Trail.harvest,entering,Prod.mk.injEq,collected]
          constructor
          · rintro ⟨⟨rfl,rfl⟩,rfl⟩
            exact ⟨m,⟨rfl,rfl⟩,(iteratedIff opened').mpr collected⟩
          · rintro ⟨_,⟨rfl,rfl⟩,iterated⟩
            rw [(iteratedIff opened').mp iterated] at collected
            cases collected
            exact ⟨⟨rfl,rfl⟩,rfl⟩

section
variable {reads : Nat} {later other : List Text} {broken : Option FileFlaw}

theorem harvestPrompt (t : Trail) : Prompt reads later other broken harvest t :=
  (enterPrompt t).andThen (g := fun entered t => ((entered,(t.collect none).1),(t.collect none).2))
    ((collectsPrompt none t.enter.2).maps (fun found => (t.enter.1,found)))

theorem takesPrompt (acts : List Act) (t : Trail) :
    Prompt reads later other broken (fun t => (Act.after acts t).take) t :=
  (afterPrompt acts t).andThen (g := fun _ t => t.take) (takePrompt (Act.after acts t))

theorem anothersPrompt (acts : List Act) (t : Trail) :
    Prompt reads later other broken (fun t => (Act.after acts t).another) t :=
  (afterPrompt acts t).andThen (g := fun _ t => t.another) (anotherPrompt (Act.after acts t))

end

structure ReadTo (front : List Text) (chunk : Text) (later : List Text) (broken : Option FileFlaw) (stop : Nat)
    (t : Trail) : Prop where
  before : front.flatten.length < stop
  within : stop ≤ front.flatten.length + chunk.length
  source : t.session.cursor.input.source = ⟨later,broken,List.replicate (front.length + 1) .read⟩

/-- This came of a source that was read up to the chunk with the unit before `stop`, and no further. It comes of each
source that begins with the same chunks, whatever there is behind them and however reads fail there. -/
def Arrives {α : Type} (f : Trail → α × Trail) (terms : Terms) (chunks : List Text) (broken : Option FileFlaw) (a : α)
    (u : Trail) (stop : Nat) : Prop :=
  ∃ front chunk later, chunks = front ++ chunk :: later ∧ u.ReadTo front chunk later broken stop ∧
    ∀ other broken', ∃ v, f (.ofSource terms ⟨front ++ chunk :: other,broken',[]⟩) = (a,v) ∧
      v.ReadTo front chunk other broken' stop

theorem promptArrives {α : Type} {f : Trail → α × Trail} {terms : Terms} {chunks : List Text}
    {broken : Option FileFlaw} {a : α} {u : Trail}
    (prompt : ∀ {reads later other broken'}, Prompt reads later other broken' f (.ofSource terms ⟨chunks,broken,[]⟩))
    (ran : f (.ofSource terms ⟨chunks,broken,[]⟩) = (a,u)) (latest : u.session.cursor.Latest chunks) :
    Arrives f terms chunks broken a u u.session.cursor.stop := by
  obtain ⟨front,chunk,later,split,before,within,reads⟩ := latestChunk latest
  have available (other : List Text) (broken' : Option FileFlaw) :
      ∃ v, f (.ofSource terms ⟨front ++ chunk :: other,broken',[]⟩) = (a,v) ∧
        v.ReadTo front chunk other broken' u.session.cursor.stop := by
    have parted : (Trail.ofSource terms ⟨chunks,broken,[]⟩).Parted (front.length + 1) later other broken'
        (.ofSource terms ⟨front ++ chunk :: other,broken',[]⟩) :=
      ⟨rfl,rfl,⟨rfl,fun _ => ⟨⟨front ++ [chunk],split.trans (List.append_cons _ _ _),
        List.append_cons _ _ _,by rw [List.length_append]; exact Nat.zero_add _⟩,rfl,rfl⟩⟩,rfl⟩
    have kept := prompt.keeps _ parted
    rw [ran] at kept
    generalize f (.ofSource terms ⟨front ++ chunk :: other,broken',[]⟩) = y at kept ⊢
    obtain ⟨b,v⟩ := y
    rcases kept with past | ⟨(same : b = a),(related : u.Parted _ _ _ _ v)⟩
    · have past : front.length + 1 < u.session.cursor.input.source.history.count .read := past
      rw [reads,List.count_replicate_self] at past
      omega
    · -- as often as the two supplies allow, the source was read, so nothing is left of what they have in common
      obtain ⟨⟨soon,_,pending,count⟩,fails,history⟩ := related.session.cursor.source latest.opened
      rw [reads,List.count_replicate_self] at count
      have none : soon = [] := List.length_eq_zero_iff.mp (by omega)
      rw [none,List.nil_append] at pending
      rw [reads] at history
      refine ⟨v,by rw [same],before,within,?_⟩
      generalize v.session.cursor.input.source = left at pending fails history
      cases left
      simp only at pending fails history
      rw [pending,fails,history]
  obtain ⟨v,again,there⟩ := available later broken
  rw [← split,ran] at again
  cases again
  exact ⟨front,chunk,later,split,there,available⟩

structure EndsList (u : Trail) : Prop where
  current : u.session.cursor.current = some (.closing .array)
  nesting : u.session.cursor.nesting = [.object]

section
variable {terms : Terms} {chunks : List Text} {broken : Option FileFlaw} {t u : Trail} {events : List Event}

theorem soundEnds (entering : (Trail.ofSource terms (.ofChunks chunks)).enter = (.ok (),t))
    (iterated : t.Iterated events none u) : u.EndsList := by
  obtain ⟨same,entered⟩ := (performRun rfl).mp entering
  obtain ⟨_,_,_,_,stands⟩ := envelopeFound rfl entered
  obtain ⟨current,nesting⟩ := iteratedCloses (by rw [same]) (.inl ⟨rfl,stands.on⟩) stands.past iterated
  exact ⟨current,nesting⟩

theorem iteratedEnds (entering : (Trail.ofSource terms ⟨chunks,broken,[]⟩).enter = (.ok (),t))
    (iterated : t.Iterated events none u) : u.EndsList := by
  cases broken with
  | none => exact soundEnds entering iterated
  | some flaw =>
      obtain ⟨same,entered⟩ := (performRun rfl).mp entering
      have spare : (⟨chunks,some flaw,[]⟩ : Source).Spare chunks.length := ⟨rfl,Nat.zero_add _⟩
      have spare := (Session.throughoutSparing chunks.length).envelopes terms.recordsField _ spare _ _ entered
      have spare := iteratedSpare (by rw [same]) spare iterated
      have parted : (Trail.ofSource terms ⟨chunks,some flaw,[]⟩).Parted chunks.length [] [] none
          (.ofSource terms (.ofChunks chunks)) :=
        ⟨rfl,rfl,⟨rfl,fun _ => ⟨⟨chunks,(List.append_nil _).symm,(List.append_nil _).symm,Nat.zero_add _⟩,rfl,rfl⟩⟩,rfl⟩
      have kept := (harvestPrompt _).keeps _ parted
      rw [(harvestIff rfl).mpr ⟨t,entering,iterated⟩] at kept
      cases harvested : (Trail.ofSource terms (.ofChunks chunks)).harvest with
      | mk found v =>
          rw [harvested] at kept
          rcases kept with past | ⟨same,related⟩
          · have past : chunks.length < u.session.cursor.input.source.history.count .read := past
            have reads := spare.reads
            omega
          · cases same
            obtain ⟨m,entering',iterated'⟩ := (harvestIff rfl).mp harvested
            obtain ⟨current,nesting⟩ := soundEnds entering' iterated'
            rw [related.session.cursor.frame] at current nesting
            exact ⟨current,nesting⟩

theorem anotherLatest (fed : t.session.cursor.Fed chunks) (asked : t.another = (.ok false,u))
    (ends : u.session.cursor.current = some (.closing .array)) : u.session.cursor.Latest chunks := by
  obtain ⟨found,stepped,_⟩ := moreFalse (anotherFalse asked)
  have same : found = some (.closing .array) := (nextCurrent stepped).symm.trans ends
  rw [same] at stepped
  exact nextLatest fed stepped

theorem iteratedLatest (entering : (Trail.ofSource terms ⟨chunks,broken,[]⟩).enter = (.ok (),t))
    (iterated : t.Iterated events none u) : u.session.cursor.Latest chunks := by
  obtain ⟨acts,m,after,last⟩ := iteratedLast iterated
  have fed : m.session.cursor.Fed chunks := by
    have fed := fedAfter terms chunks broken (.enter :: acts)
    simp only [Act.after,Act.on,entering] at fed
    rwa [after]
  exact anotherLatest fed last (iteratedEnds entering iterated).current

end

/-- Whatever was done with a trail before, an event that it gives has arrived with the chunk of the last unit of its
record, and the end of a list with the chunk of its bracket. An iteration from the start that comes to an end does so
at the end of the list of records, and all of it has arrived with that bracket. -/
theorem eventsArrive (terms : Terms) (chunks : List Text) (broken : Option FileFlaw) :
    (∀ acts e u, (Act.after acts (.ofSource terms ⟨chunks,broken,[]⟩)).take = (.ok e,u) →
      ∃ stop, e.metadata.stop = .counted stop ∧
        Arrives (fun t => (Act.after acts t).take) terms chunks broken (.ok e) u stop) ∧
      (∀ acts u, (Act.after acts (.ofSource terms ⟨chunks,broken,[]⟩)).another = (.ok false,u) →
        u.session.cursor.current = some (.closing .array) →
        Arrives (fun t => (Act.after acts t).another) terms chunks broken (.ok false) u u.session.cursor.stop) ∧
      ∀ t events u, (Trail.ofSource terms ⟨chunks,broken,[]⟩).enter = (.ok (),t) → t.Iterated events none u →
        u.EndsList ∧ Arrives harvest terms chunks broken (.ok (),⟨events,none⟩) u u.session.cursor.stop := by
  refine ⟨fun acts e u taken => ?_,fun acts u asked ends => ?_,fun t events u entering iterated =>
    ⟨iteratedEnds entering iterated,?_⟩⟩
  · obtain ⟨latest,stop⟩ := takeLatest (fedAfter terms chunks broken acts) taken
    exact ⟨_,stop,promptArrives (takesPrompt acts _) taken latest⟩
  · have latest := anotherLatest (fedAfter terms chunks broken acts) asked ends
    exact promptArrives (anothersPrompt acts _) asked latest
  · have harvested := (harvestIff rfl).mpr ⟨t,entering,iterated⟩
    exact promptArrives (harvestPrompt _) harvested (iteratedLatest entering iterated)

example : ((Act.after [.enter,.another] (.ofSource ⟨Terms.standardField,Terms.standardCeiling,.span⟩
    ⟨[Text.of "\x7b\"Records\":[\x7b\x7d"],some .directory,[]⟩)).take).1.toOption.isSome = true := by
  decide +kernel

end Trail
end AuditLog
