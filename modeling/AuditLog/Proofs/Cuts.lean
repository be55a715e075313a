import AuditLog.Proofs.Excerpts

/-! Texts that are cut short or go on. What a text decodes to depends on its head: where more follows, the
events stay and others may come after them. A text decodes without a fault only if it has the list of
records up to its end, so no piece of a log that ends inside the list is taken for the whole log. -/
namespace AuditLog
open Reading Grammar

namespace Decoding
open Trail

/-- The list of records in this field, which has to be the first, ends with the unit at this place. -/
def ListEnds (field t : Text) (place : Nat) : Prop :=
  ∃ front array rest items, t = front ++ array ++ rest ∧ Front field front ∧
    Spelt (.value (.array items)) array ∧ front.length + array.length = place + 1

theorem eventsElsewhere {provenance provenance' : Provenance} {es : List Element} {events : List Event}
    (made : EventsOf provenance es events) (same : ∀ e ∈ es, e.event? provenance' = e.event? provenance) :
    EventsOf provenance' es events := by
  induction made with
  | nil => exact .nil
  | cons one _ ih =>
      obtain ⟨here,later⟩ := List.forall_mem_cons.mp same
      exact .cons (here.trans one) (ih later)

theorem decodedLeading (terms : Terms) {source : Source} (sound : source.broken = none) :
    ((ofSource terms none source).events = [] ∧ (ofSource terms none source).failure ≠ none) ∨
      ∃ front es r rest, source.pending.flatten = front ++ 0x5B :: (r ++ rest) ∧ Front terms.recordsField front ∧
        Leading [] (front.length + 1) es r ∧ EventsOf terms.provenance es (ofSource terms none source).events ∧
        ((ofSource terms none source).failure = none → ∃ w more, Blank w ∧ rest = w ++ [0x5D] ++ more) := by
  obtain ⟨harvest,events,failure,⟨fault,_,_,rfl⟩ | ⟨s,entered,rfl⟩⟩ := ofSourceRun terms source
  · exact .inl ⟨events,by rw [failure]; nofun⟩
  · obtain ⟨front,more,same,is,stands⟩ := envelopeFound sound entered
    obtain ⟨es,r,rest,found,left,leading,made,harvested,closes⟩ :=
      collectLeading terms [] (.inl ⟨rfl,stands.on⟩) stands.past
    rw [stands.position] at leading
    rw [stands.rest] at left
    refine .inr ⟨front,es,r,rest,by rw [same,left],is,leading,?_,by rw [failure]; exact closes⟩
    rw [events,harvested]
    exact eventsOf.mp made

theorem leadingDecoded {terms : Terms} {source : Source} {front r rest : Text} {es : List Element} {events : List Event}
    (sound : source.broken = none) (same : source.pending.flatten = front ++ 0x5B :: (r ++ rest))
    (is : Front terms.recordsField front) (leading : Leading [] (front.length + 1) es r)
    (made : EventsOf terms.provenance es events) : events <+: (ofSource terms none source).events := by
  obtain ⟨s,entered,stands,_⟩ := envelopeRead sound same is
  obtain ⟨harvest,harvested,_,⟨_,_,refused,_⟩ | ⟨s',entered',rfl⟩⟩ := ofSourceRun terms source
  · rw [entered] at refused; cases refused
  · rw [entered] at entered'
    cases entered'
    obtain ⟨lead,t,awaits,past,_,ahead⟩ := collectAhead terms leading (eventsOf.mpr made) []
      (.inl ⟨rfl,stands.on⟩) stands.past stands.position stands.rest
    obtain ⟨_,_,_,later,_,_,_,all,_⟩ := collectLeading terms (events.reverse ++ []) awaits past
    refine ⟨later,?_⟩
    rw [harvested,ahead,all]
    simp

section
variable {terms terms' : Terms} {source source' : Source} {more : Text}

structure Further (terms terms' : Terms) (length : Nat) : Prop where
  field : terms.recordsField = terms'.recordsField
  told : ∀ e : Element, e.stop ≤ length → e.event? terms'.provenance = e.event? terms.provenance

theorem leadingFurther {front r rest : Text} {es : List Element} {events : List Event}
    (further : Further terms terms' source.pending.flatten.length)
    (same : source.pending.flatten = front ++ 0x5B :: (r ++ rest)) (leading : Leading [] (front.length + 1) es r)
    (made : EventsOf terms.provenance es events) : EventsOf terms'.provenance es events := by
  refine eventsElsewhere made (fun e member => further.told e ?_)
  have inside := (leadingEnds leading).2 e member
  rw [same]
  simp only [List.length_append,List.length_cons]
  omega

theorem eventsKept (further : Further terms terms' source.pending.flatten.length) (sound : source.broken = none)
    (sound' : source'.broken = none) (follows : source'.pending.flatten = source.pending.flatten ++ more) :
    (ofSource terms none source).events <+: (ofSource terms' none source').events := by
  rcases decodedLeading terms sound with ⟨none,_⟩ | ⟨front,es,r,rest,same,is,leading,made,_⟩
  · rw [none]
    exact List.nil_prefix
  · have same' : source'.pending.flatten = front ++ 0x5B :: (r ++ (rest ++ more)) := by
      rw [follows,same]
      simp
    exact leadingDecoded sound' same' (further.field ▸ is) leading (leadingFurther further same leading made)

theorem wholeKept (further : Further terms terms' source.pending.flatten.length) (sound : source.broken = none)
    (sound' : source'.broken = none) (follows : source'.pending.flatten = source.pending.flatten ++ more)
    (ended : (ofSource terms none source).failure = none) :
    (ofSource terms' none source').failure = none ∧
      (ofSource terms' none source').events = (ofSource terms none source).events := by
  rcases decodedLeading terms sound with ⟨_,failed⟩ | ⟨front,es,r,rest,same,is,leading,made,closes⟩
  · exact absurd ended failed
  · obtain ⟨w,behind,blank,rfl⟩ := closes ended
    have same' : source'.pending.flatten = front ++ 0x5B :: ((r ++ (w ++ [0x5D])) ++ (behind ++ more)) := by
      rw [follows,same]
      simp
    have decoded := listDecoded terms' sound' same' (further.field ▸ is) (leadingCloses leading blank)
    rw [eventsOf.mpr (leadingFurther further same leading made)] at decoded
    exact ⟨decoded.2.1,decoded.1⟩

end

theorem eventCut (options : Options) (raw : Bool) {p s : Text} (e : Element) (inside : e.stop ≤ p.length) :
    e.event? (provenance options raw (p ++ s)) = e.event? (provenance options raw p) := by
  cases raw with
  | false => rfl
  | true =>
      have cut : (p ++ s).between e.start e.stop = p.between e.start e.stop := by
        rw [Text.between,Text.between,List.take_append_of_le_length inside]
      simp only [Element.event?,provenance,Provenance.metadata,if_true,Option.map_some,Place.sliceBetween,cut]

theorem textFurther (options : Options) (raw : Bool) (p s : Text) :
    Further ⟨options.recordsField,options.ceiling,provenance options raw p⟩
      ⟨options.recordsField,options.ceiling,provenance options raw (p ++ s)⟩
      (Source.ofText options.chunkSize p).pending.flatten.length :=
  ⟨rfl,fun e inside => eventCut options raw e (by rwa [Source.ofTextWhole] at inside)⟩

theorem textFollows (options : Options) (p s : Text) :
    (Source.ofText options.chunkSize (p ++ s)).pending.flatten =
      (Source.ofText options.chunkSize p).pending.flatten ++ s := by
  rw [Source.ofTextWhole,Source.ofTextWhole]

theorem listRead {s : Session} {place : Nat} {r rest : Text} {items : List Json} (stands : AtList s place (r ++ rest))
    (spelt : Spelt (.value (.array items)) (0x5B :: r)) :
    ∃ d, Reader.subtree.run s = (.ok (Json.array items).compact,{ s with cursor := d }) ∧
      d.input.position = place + r.length := by
  obtain ⟨lead,behind,same,lexeme,_,goes⟩ := Cursor.speltWalkable spelt
  cases lexeme with
  | openArray =>
      cases same
      obtain ⟨d,walk,_,_,stop⟩ := goes s.cursor _ rest stands.on stands.rest
      exact ⟨d,Reader.subtreeRead rfl stands.stands walk,by rw [stop,stands.position]; rfl⟩

theorem endsOnce {field t : Text} {place place' : Nat} (ends : ListEnds field t place)
    (ends' : ListEnds field t place') : place = place' := by
  obtain ⟨front,array,rest,items,rfl,is,spelt,size⟩ := ends
  obtain ⟨front',array',rest',items',same,is',spelt',size'⟩ := ends'
  obtain ⟨_,r,rfl,_,_⟩ := arrayListed spelt 0
  obtain ⟨_,r',rfl,_,_⟩ := arrayListed spelt' 0
  have whole : (Source.ofChunks [front ++ 0x5B :: r ++ rest]).pending.flatten = front ++ 0x5B :: (r ++ rest) := by
    simp [Source.ofChunks]
  have whole' : (Source.ofChunks [front ++ 0x5B :: r ++ rest]).pending.flatten = front' ++ 0x5B :: (r' ++ rest') := by
    rw [whole]
    simpa using same
  obtain ⟨s,entered,stands,_⟩ := envelopeRead rfl whole is
  obtain ⟨s',entered',stands',_⟩ := envelopeRead rfl whole' is'
  rw [entered] at entered'
  cases entered'
  obtain ⟨d,read,stop⟩ := listRead stands spelt
  obtain ⟨d',read',stop'⟩ := listRead stands' spelt'
  have last : Session.mk d s.noted = ⟨d',s.noted⟩ := (Prod.mk.inj (read.symm.trans read')).2
  cases last
  rw [List.length_cons] at size size'
  omega

theorem endsFurther {field t more : Text} {place : Nat} (ends : ListEnds field t place) :
    ListEnds field (t ++ more) place := by
  obtain ⟨front,array,rest,items,rfl,is,spelt,size⟩ := ends
  exact ⟨front,array,rest ++ more,items,by simp,is,spelt,size⟩

theorem endsInside {field t : Text} {place : Nat} (ends : ListEnds field t place) : place < t.length := by
  obtain ⟨front,array,rest,items,rfl,is,spelt,size⟩ := ends
  simp only [List.length_append]
  omega

theorem endsBracket {field t : Text} {place : Nat} (ends : ListEnds field t place) : t[place]? = some 0x5D := by
  obtain ⟨front,array,rest,items,rfl,_,spelt,size⟩ := ends
  obtain ⟨_,r,rfl,_,listed⟩ := arrayListed spelt 0
  obtain ⟨r',w,rfl,_,_⟩ := listedLeading listed
  have here : (front ++ 0x5B :: (r' ++ w)).length = place := by
    simp only [List.length_append,List.length_cons,List.length_nil] at size ⊢
    omega
  have split : front ++ 0x5B :: (r' ++ (w ++ [0x5D])) ++ rest = (front ++ 0x5B :: (r' ++ w)) ++ 0x5D :: rest := by
    simp
  rw [split,← here,List.getElem?_append_right (Nat.le_refl _),Nat.sub_self]
  rfl

theorem endsFound {options : Options} {raw : Bool} {t : Text} (ended : (ofText options raw t).failure = none) :
    ∃ place, ListEnds options.recordsField t place := by
  obtain ⟨front,es,r,rest,whole,is,listed⟩ := decodedList rfl ended
  rw [Source.ofTextWhole] at whole
  exact ⟨front.length + r.length,front,0x5B :: r,rest,_,by rw [whole]; simp,is,listedArray listed,by simp; omega⟩

theorem cutDecodes {options : Options} {raw : Bool} {t : Text} {place : Nat}
    (ended : (ofText options raw t).failure = none) (ends : ListEnds options.recordsField t place) (n : Nat) :
    (ofText options raw (t.take n)).failure = none ↔ place < n := by
  constructor
  · intro cut
    obtain ⟨place',ends'⟩ := endsFound cut
    have further : ListEnds options.recordsField (t.take n ++ t.drop n) place' := endsFurther ends'
    rw [List.take_append_drop] at further
    have inside := endsInside ends'
    rw [endsOnce ends further]
    rw [List.length_take] at inside
    omega
  · intro beyond
    obtain ⟨front,array,rest,items,same,is,spelt,size⟩ := ends
    have cut : t.take n = front ++ array ++ rest.take (n - (front ++ array).length) := by
      rw [same,List.take_append,List.take_of_length_le (by rw [List.length_append]; omega)]
    obtain ⟨_,_,_,_,_,whole,_⟩ := textDecoded options raw cut is spelt (endsAccepted ended same is spelt)
    exact whole

/-- A text and the same text cut short. However the two are cut into chunks, the events of the shorter one
begin those of the longer one. If the shorter one decodes without a fault, so does the longer one, and to
the same events, whatever follows. If the longer one does, its pieces that do are those that hold the
list of records up to its closing bracket. -/
theorem eventsOfCut (options : Options) (raw : Bool) (p s : Text) :
    (∀ (terms : Terms) (chunks chunks' : List Text), chunks.flatten = p → chunks'.flatten = p ++ s →
        (ofSource terms none (.ofChunks chunks)).events <+: (ofSource terms none (.ofChunks chunks')).events) ∧
      (ofText options raw p).events <+: (ofText options raw (p ++ s)).events ∧
      ((ofText options raw p).failure = none → (ofText options raw (p ++ s)).failure = none ∧
        (ofText options raw (p ++ s)).events = (ofText options raw p).events) ∧
      ((ofText options raw (p ++ s)).failure = none →
        (∃ place, ListEnds options.recordsField (p ++ s) place) ∧
          ∀ place, ListEnds options.recordsField (p ++ s) place → (p ++ s)[place]? = some 0x5D ∧
            ∀ n, (ofText options raw ((p ++ s).take n)).failure = none ↔ place < n) := by
  have further := textFurther options raw p s
  have follows := textFollows options p s
  refine ⟨?_,eventsKept further rfl rfl follows,wholeKept further rfl rfl follows,fun ended => ⟨endsFound ended,?_⟩⟩
  · intro terms chunks chunks' same same'
    have parts : (Source.ofChunks chunks').pending.flatten = (Source.ofChunks chunks).pending.flatten ++ s := by
      rw [Source.ofChunks,Source.ofChunks,same,same']
    exact eventsKept ⟨rfl,fun _ _ => rfl⟩ rfl rfl parts
  · exact fun place ends => ⟨endsBracket ends,cutDecodes ended ends⟩

theorem eventsOfLogCutInKey :
    (ofText Options.standard true (Text.of "\x7b\"Records\":[\x7b\x7d,\x7b\"a")).events <+:
        (ofText Options.standard true (Text.of "\x7b\"Records\":[\x7b\x7d,\x7b\"a" ++ Text.of "\":1\x7d ]e")).events ∧
      ∃ place, ∀ n, (ofText Options.standard true
        ((Text.of "\x7b\"Records\":[\x7b\x7d,\x7b\"a" ++ Text.of "\":1\x7d ]e").take n)).failure = none ↔ place < n := by
  obtain ⟨_,kept,_,whole⟩ := eventsOfCut Options.standard true (Text.of "\x7b\"Records\":[\x7b\x7d,\x7b\"a")
    (Text.of "\":1\x7d ]e")
  obtain ⟨⟨place,ends⟩,decodes⟩ := whole (by decide +kernel)
  exact ⟨kept,place,(decodes place ends).2⟩

end Decoding
end AuditLog
