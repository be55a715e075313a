import AuditLog.Proofs.Decode
import AuditLog.Proofs.Quotation
import AuditLog.Proofs.Tiling
import Mathlib.Data.List.Forall2

/-! Records on their own. What stands at the place of an event is an object from which the event can
be told again: put into an otherwise empty log it gives the same data, alone or among its fellows. -/
namespace AuditLog
open Grammar

structure Event.Excerpt (t : Text) (e : Event) (start stop : Nat) (source : Text) : Prop where
  startsAt : e.metadata.start = .counted start
  stopsAt : e.metadata.stop = .counted stop
  filled : start < stop
  inside : stop ≤ t.length
  cut : source = t.between start stop
  raw : e.metadata.rawEvent = some source

def Event.Before (e f : Event) : Prop :=
  ∃ stop start, e.metadata.stop = .counted stop ∧ f.metadata.start = .counted start ∧ stop < start

def Text.bareLog (records : List Text) : Text :=
  Text.of "\x7b\"Records\":[" ++ join [0x2C] records ++ Text.of "]\x7d"

namespace Element

def pack : (place : Nat) → List Element → List Element
  | _, [] => []
  | place, e :: es => { e with start := place } :: pack (place + e.source.length + 1) es

end Element

namespace Grammar

theorem listedElements {lead r : Text} {place : Nat} {es : List Element} (listed : Listed lead place es r) :
    (∀ e ∈ es, Spelt (.value e.item) e.source ∧ place + lead.length ≤ e.start) ∧
      es.Pairwise (fun e f => e.stop < f.start) := by
  induction listed with
  | none _ => exact ⟨fun e member => absurd member List.not_mem_nil,.nil⟩
  | @some lead place w w' e es r _ _ start value _ ih =>
      have size : (w ++ lead ++ w').length = w.length + lead.length + w'.length := by
        simp only [List.length_append]
      refine ⟨List.forall_mem_cons.mpr ⟨⟨value,by omega⟩,fun f member => ?_⟩,List.pairwise_cons.mpr ⟨?_,ih.2⟩⟩
      · have behind := (ih.1 f member).2
        rw [Element.stop] at behind
        exact ⟨(ih.1 f member).1,by omega⟩
      · intro f member
        exact (ih.1 f member).2

theorem packedBehind {es : List Element} (spelt : ∀ e ∈ es, Spelt (.value e.item) e.source) (place : Nat) :
    Listed [0x2C] place (Element.pack (place + 1) es) ((es.map Element.source).flatMap (0x2C :: ·) ++ [0x5D]) := by
  induction es generalizing place with
  | nil => exact .none blankNil
  | cons e es ih =>
      obtain ⟨value,others⟩ := List.forall_mem_cons.mp spelt
      have one : Listed [0x2C] place _ _ := .some (e := { e with start := place + 1 }) blankNil blankNil rfl value
        (ih others (place + 1 + e.source.length))
      simpa [Element.pack] using one

theorem joinCons (separator t : Text) (rest : List Text) :
    Text.join separator (t :: rest) = t ++ rest.flatMap (separator ++ ·) := by
  induction rest generalizing t with
  | nil => simp [Text.join]
  | cons s rest ih => rw [Text.join,ih,List.flatMap_cons,List.append_assoc,List.append_assoc]; nofun

theorem packedListed {es : List Element} (spelt : ∀ e ∈ es, Spelt (.value e.item) e.source) (place : Nat) :
    Listed [] place (Element.pack place es) (Text.join [0x2C] (es.map Element.source) ++ [0x5D]) := by
  cases es with
  | nil => exact .none blankNil
  | cons e es =>
      obtain ⟨value,others⟩ := List.forall_mem_cons.mp spelt
      have one : Listed [] place _ _ := .some (e := { e with start := place }) blankNil blankNil rfl value
        (packedBehind others (place + e.source.length))
      rw [List.map_cons,joinCons,List.append_assoc]
      simpa [Element.pack] using one

theorem bareFront : Front Terms.standardField (Text.of "\x7b\"Records\":") := by
  have front := Front.mk (.inl rfl) blankNil blankNil (Quoted.quoteSpells Terms.standardField) blankNil blankNil
  exact front

theorem membersEnd {members : List (Text × Json)} {r : Text} (spelt : Spelt (.members members) r) :
    ∃ front, r = front ++ [0x7D] := by
  induction members generalizing r with
  | nil => cases spelt with | noMember blank => exact ⟨_,rfl⟩
  | cons m ms ih =>
      cases spelt with
      | nextMember _ _ _ rest =>
          obtain ⟨front,rfl⟩ := ih rest
          exact ⟨_,(List.append_assoc _ _ _).symm⟩

theorem objectEnds {members : List (Text × Json)} {source : Text} (spelt : Spelt (.value (.object members)) source) :
    source.head? = some 0x7B ∧ source.getLast? = some 0x7D := by
  cases spelt with
  | emptyObject blank => exact ⟨rfl,List.getLast?_concat⟩
  | object blank first rest =>
      obtain ⟨front,rfl⟩ := membersEnd rest
      refine ⟨rfl,?_⟩
      rw [← List.append_assoc]
      exact List.getLast?_concat

end Grammar

theorem Text.betweenSource {t source : Text} {start : Nat} (there : (t.drop start).take source.length = source) :
    t.between start (start + source.length) = source := by
  rw [between,List.drop_take,Nat.add_sub_cancel_left,there]

theorem Provenance.metadataPlaces (provenance : Provenance) (start stop : Place) :
    (provenance.metadata start stop).start = start ∧ (provenance.metadata start stop).stop = stop := by
  cases provenance <;> exact ⟨rfl,rfl⟩

theorem Element.eventParts {provenance : Provenance} {e : Element} {event : Event}
    (made : e.event? provenance = some event) :
    ∃ v members, Reference.record? e.item = some v ∧ e.item = .object members ∧
      event = ⟨Account.resolve v,provenance.metadata (.counted e.start) (.counted e.stop)⟩ := by
  obtain ⟨v,accepted,rfl⟩ := Option.map_eq_some_iff.mp made
  obtain ⟨item,start,source⟩ := e
  cases item with
  | object members => exact ⟨v,members,accepted,rfl,rfl⟩
  | _ => cases accepted

namespace Decoding

def EventsOf (provenance : Provenance) (es : List Element) (events : List Event) : Prop :=
  List.Forall₂ (fun e event => e.event? provenance = some event) es events

theorem eventsOf {provenance : Provenance} {es : List Element} {events : List Event} :
    es.mapM (Element.event? provenance) = some events ↔ EventsOf provenance es events := by
  unfold EventsOf
  induction es generalizing events with
  | nil => simp [eq_comm]
  | cons e es ih =>
      rw [List.mapM_cons,List.forall₂_cons_left_iff]
      simp only [← ih]
      cases e.event? provenance with
      | none => simp
      | some event => cases es.mapM (Element.event? provenance) <;> simp [eq_comm]

theorem eventElement {provenance : Provenance} {es : List Element} {events : List Event} {event : Event}
    (made : EventsOf provenance es events) (member : event ∈ events) :
    ∃ e ∈ es, e.event? provenance = some event :=
  Reference.mapMember (eventsOf.mpr made) member

theorem textElements {options : Options} {raw : Bool} {t : Text} (ended : (ofText options raw t).failure = none) :
    ∃ front es r rest, t = (front ++ [0x5B]) ++ r ++ rest ∧ Listed [] (front.length + 1) es r ∧
      EventsOf (provenance options raw t) es (ofText options raw t).events := by
  obtain ⟨front,es,r,rest,whole,is,listed⟩ := decodedList rfl ended
  have decoded := listDecoded ⟨options.recordsField,options.ceiling,provenance options raw t⟩ rfl whole is listed
  rw [Source.ofTextWhole] at whole
  refine ⟨front,es,r,rest,by rw [whole]; simp,listed,?_⟩
  cases made : es.mapM (Element.event? (provenance options raw t)) with
  | some events =>
      rw [made] at decoded
      exact decoded.1 ▸ eventsOf.mp made
  | none =>
      rw [made] at decoded
      exact absurd ended (Option.isSome_iff_ne_none.mp decoded)

theorem eventExcerpt {options : Options} {t before r more : Text} {place : Nat} {es : List Element} {e : Element}
    {event : Event} (whole : t = before ++ r ++ more) (here : before.length = place) (listed : Listed [] place es r)
    (member : e ∈ es) (made : e.event? (provenance options true t) = some event) :
    event.Excerpt t e.start e.stop e.source ∧ ∃ members, Spelt (.value (.object members)) e.source := by
  obtain ⟨v,members,_,object,rfl⟩ := Element.eventParts made
  have value := ((listedElements listed).1 e member).1
  rw [object] at value
  have there := listedPlaces listed before more here e member
  rw [← whole] at there
  have filled : 0 < e.source.length := by
    obtain ⟨opened,_⟩ := objectEnds value
    cases same : e.source with
    | nil => rw [same] at opened; cases opened
    | cons u rest => exact Nat.succ_pos _
  have size := congrArg List.length there
  rw [List.length_take,List.length_drop] at size
  have inside : e.stop ≤ t.length := by rw [Element.stop]; omega
  have cut := (Text.betweenSource there).symm
  have slice : Place.slice t.toArray (.counted e.start) (.counted e.stop) = e.source := by
    rw [Place.sliceBetween]
    exact cut.symm
  exact ⟨⟨rfl,rfl,Nat.lt_add_of_pos_right filled,inside,cut,by rw [← slice]; rfl⟩,members,value⟩

theorem eventsApart {provenance : Provenance} {es : List Element} {events : List Event}
    (made : EventsOf provenance es events) (apart : es.Pairwise (fun e f => e.stop < f.start)) :
    events.Pairwise Event.Before := by
  induction made with
  | nil => exact .nil
  | @cons e event es events one others ih =>
      obtain ⟨behind,later⟩ := List.pairwise_cons.mp apart
      refine List.pairwise_cons.mpr ⟨fun other member => ?_,ih later⟩
      obtain ⟨f,inside,found⟩ := eventElement others member
      obtain ⟨_,_,_,_,rfl⟩ := Element.eventParts one
      obtain ⟨_,_,_,_,rfl⟩ := Element.eventParts found
      exact ⟨e.stop,f.start,(provenance.metadataPlaces _ _).2,(provenance.metadataPlaces _ _).1,behind f inside⟩

theorem packedEvents {provenance : Provenance} {es : List Element} {events : List Event}
    (made : EventsOf provenance es events) (other : Provenance) (place : Nat) :
    ∃ events', EventsOf other (Element.pack place es) events' ∧ events'.map Event.data = events.map Event.data := by
  induction made generalizing place with
  | nil => exact ⟨[],.nil,rfl⟩
  | @cons e event es events one _ ih =>
      obtain ⟨v,_,accepted,_,rfl⟩ := Element.eventParts one
      obtain ⟨events',others,same⟩ := ih (place + e.source.length + 1)
      have moved : Element.event? other { e with start := place } =
          some ⟨Account.resolve v,other.metadata (.counted place) (.counted (place + e.source.length))⟩ := by
        rw [Element.event?,accepted]; rfl
      exact ⟨_ :: events',.cons moved others,by rw [List.map_cons,List.map_cons,same]⟩

theorem bareDecoded {was : Provenance} {es : List Element} {events : List Event} {again : Options}
    (field : again.recordsField = Terms.standardField) (raw : Bool)
    (spelt : ∀ e ∈ es, Spelt (.value e.item) e.source) (made : EventsOf was es events) :
    (ofText again raw (Text.bareLog (es.map Element.source))).failure = none ∧
      EventsOf (provenance again raw (Text.bareLog (es.map Element.source))) (Element.pack 12 es)
        (ofText again raw (Text.bareLog (es.map Element.source))).events ∧
      (ofText again raw (Text.bareLog (es.map Element.source))).events.map Event.data = events.map Event.data := by
  have whole : (Source.ofText again.chunkSize (Text.bareLog (es.map Element.source))).pending.flatten =
      Text.of "\x7b\"Records\":" ++ 0x5B :: ((Text.join [0x2C] (es.map Element.source) ++ [0x5D]) ++ [0x7D]) := by
    have opening : Text.of "\x7b\"Records\":[" = Text.of "\x7b\"Records\":" ++ [0x5B] := rfl
    have closing : Text.of "]\x7d" = [0x5D] ++ [0x7D] := rfl
    rw [Source.ofTextWhole,Text.bareLog,opening,closing]
    simp only [List.append_assoc,List.nil_append,List.cons_append]
  obtain ⟨events',others,same⟩ := packedEvents made (provenance again raw (Text.bareLog (es.map Element.source))) 12
  let terms : Terms :=
    ⟨again.recordsField,again.ceiling,provenance again raw (Text.bareLog (es.map Element.source))⟩
  have front : Front again.recordsField (Text.of "\x7b\"Records\":") := field ▸ bareFront
  have decoded := listDecoded terms rfl whole front (packedListed spelt 12)
  rw [eventsOf.mpr others] at decoded
  exact ⟨decoded.2.1,decoded.1 ▸ others,decoded.1 ▸ same⟩

theorem excerptAlone {was : Provenance} {e : Element} {event : Event} {again : Options}
    (field : again.recordsField = Terms.standardField) (raw : Bool) (spelt : Spelt (.value e.item) e.source)
    (one : e.event? was = some event) :
    ∃ alone, (ofText again raw (Text.bareLog [e.source])).failure = none ∧
      (ofText again raw (Text.bareLog [e.source])).events = [alone] ∧ alone.data = event.data ∧
      alone.metadata.start = .counted 12 ∧ alone.metadata.stop = .counted (12 + e.source.length) := by
  have single : ∀ f ∈ [e], Spelt (.value f.item) f.source := List.forall_mem_singleton.mpr spelt
  obtain ⟨ended,made,same⟩ := bareDecoded field raw single (.cons one .nil)
  rw [List.map_singleton] at ended made same
  cases told : (ofText again raw (Text.bareLog [e.source])).events with
  | nil => rw [told] at same; cases same
  | cons alone others =>
      rw [told] at made same
      obtain ⟨data,none⟩ := List.cons.inj same
      rw [List.map_eq_nil_iff.mp none] at told ⊢
      cases made with
      | cons first _ =>
          obtain ⟨_,_,_,_,rfl⟩ := Element.eventParts first
          exact ⟨_,ended,rfl,data,(Provenance.metadataPlaces _ _ _).1,(Provenance.metadataPlaces _ _ _).2⟩

theorem excerptsRaw {t : Text} {provenance : Provenance} {es : List Element} {events : List Event}
    (made : EventsOf provenance es events)
    (cut : ∀ e ∈ es, ∀ event, e.event? provenance = some event → event.Excerpt t e.start e.stop e.source) :
    events.map (fun e => e.metadata.rawEvent) = (es.map Element.source).map some := by
  induction made with
  | nil => rfl
  | cons one _ ih =>
      obtain ⟨here,later⟩ := List.forall_mem_cons.mp cut
      rw [List.map_cons,(here _ one).raw,ih later]; rfl

/-- What a text decodes to can be told again from excerpts of the text. The events are in the order of
their places and no two places meet; at each stands an object that makes a log of this one event, and
the objects of all of them make a log of the same data. -/
theorem recordsStandAlone (options : Options) (t : Text) (ended : (ofText options true t).failure = none)
    (again : Options) (field : again.recordsField = Terms.standardField) (raw : Bool) :
    (ofText options true t).events.Pairwise Event.Before ∧
      (∀ event ∈ (ofText options true t).events, ∃ start stop source, event.Excerpt t start stop source ∧
        source.head? = some 0x7B ∧ source.getLast? = some 0x7D ∧
        (∃ members, Spelt (.value (.object members)) source) ∧
        ∃ alone, (ofText again raw (Text.bareLog [source])).failure = none ∧
          (ofText again raw (Text.bareLog [source])).events = [alone] ∧ alone.data = event.data ∧
          alone.metadata.start = .counted 12 ∧ alone.metadata.stop = .counted (12 + source.length)) ∧
      ∃ sources, (ofText options true t).events.map (fun e => e.metadata.rawEvent) = sources.map some ∧
        (ofText again raw (Text.bareLog sources)).failure = none ∧
        (ofText again raw (Text.bareLog sources)).events.map Event.data =
          (ofText options true t).events.map Event.data := by
  obtain ⟨front,es,r,rest,whole,listed,made⟩ := textElements ended
  have excerpt (e : Element) (member : e ∈ es) (event : Event)
      (one : e.event? (provenance options true t) = some event) :=
    eventExcerpt whole (by simp) listed member one
  obtain ⟨spelt,apart⟩ := listedElements listed
  refine ⟨eventsApart made apart,fun event member => ?_,es.map Element.source,?_,?_⟩
  · obtain ⟨e,inside,one⟩ := eventElement made member
    obtain ⟨cut,members,value⟩ := excerpt e inside event one
    obtain ⟨opened,closed⟩ := objectEnds value
    exact ⟨e.start,e.stop,e.source,cut,opened,closed,⟨members,value⟩,excerptAlone field raw (spelt e inside).1 one⟩
  · exact excerptsRaw made (fun e inside event one => (excerpt e inside event one).1)
  · obtain ⟨again,_,same⟩ := bareDecoded field raw (fun e inside => (spelt e inside).1) made
    exact ⟨again,same⟩

theorem recordsOfMarkedTextStandAlone :
    let t := 0xFEFF :: Text.of "\x7b\"Records\" : [ \x7b\"b\":1 \x7d,\x7b\x7d ]\x7d"
    let sources := [Text.of "\x7b\"b\":1 \x7d",Text.of "\x7b\x7d"]
    (ofText Options.standard true t).events.map (fun e => e.metadata.rawEvent) = sources.map some ∧
      (ofText Options.standard false (Text.bareLog sources)).failure = none ∧
      (ofText Options.standard false (Text.bareLog sources)).events.map Event.data =
        (ofText Options.standard true t).events.map Event.data := by
  intro t sources
  obtain ⟨_,_,sources',raw,again⟩ := recordsStandAlone Options.standard t (by decide +kernel) Options.standard rfl false
  have two : (ofText Options.standard true t).events.map (fun e => e.metadata.rawEvent) = sources.map some := by
    decide +kernel
  have same : sources' = sources := (List.map_inj_right (fun _ _ => Option.some.inj)).mp (raw.symm.trans two)
  exact ⟨two,same ▸ again⟩

end Decoding
end AuditLog
