import AuditLog.Proofs.Harvest

/-! Whole decodings. A text decodes without a fault exactly if its head is an envelope around a list
of acceptable records, and then to the events of all of them. -/
namespace AuditLog
open Reading Grammar

namespace Decoding
open Trail

theorem ofSourceEntered (terms : Terms) (limit : Option Nat) (source : Source) :
    ofSource terms limit source =
      match (envelope terms.recordsField).run (.ofSource source) with
      | (.error fault,s) => finish ⟨[],some fault⟩ ⟨terms,s,false⟩
      | (.ok _,s) => finish (collectFrom terms limit [] s).1 ⟨terms,(collectFrom terms limit [] s).2,false⟩ := by
  have enters : (Trail.ofSource terms source).enter =
      (((envelope terms.recordsField).run (.ofSource source)).1,
        ⟨terms,((envelope terms.recordsField).run (.ofSource source)).2,false⟩) := rfl
  rw [ofSource,enters]
  cases (envelope terms.recordsField).run (.ofSource source) with
  | mk result s => cases result <;> rfl

theorem ofSourceRun (terms : Terms) (source : Source) :
    ∃ harvest, (ofSource terms none source).events = harvest.events ∧
      (ofSource terms none source).failure = harvest.failure ∧
      ((∃ fault s, (envelope terms.recordsField).run (.ofSource source) = (.error fault,s) ∧
          harvest = ⟨[],some fault⟩) ∨
        ∃ s, (envelope terms.recordsField).run (.ofSource source) = (.ok (),s) ∧
          harvest = (collectFrom terms none [] s).1) := by
  rw [ofSourceEntered]
  cases (envelope terms.recordsField).run (.ofSource source) with
  | mk result s =>
      cases result with
      | error fault => exact ⟨_,rfl,rfl,.inl ⟨fault,s,rfl,rfl⟩⟩
      | ok done => exact ⟨_,rfl,rfl,.inr ⟨s,rfl,rfl⟩⟩

theorem closeNotices (t : Trail) : t.close.session.notices = t.session.notices := by
  rw [Trail.close]
  split <;> rfl

theorem listDecoded (terms : Terms) {source : Source} {front r rest : Text} {es : List Element}
    (sound : source.broken = none) (same : source.pending.flatten = front ++ 0x5B :: (r ++ rest))
    (is : Front terms.recordsField front) (listed : Listed [] (front.length + 1) es r) :
    match es.mapM (Element.event? terms.provenance) with
    | some events => (ofSource terms none source).events = events ∧ (ofSource terms none source).failure = none ∧
        (ofSource terms none source).notices = es.flatMap (Element.notices terms.ceiling)
    | none => (ofSource terms none source).failure.isSome = true := by
  obtain ⟨s,entered,stands,fresh⟩ := envelopeRead sound same is
  have collected := collectListed terms listed [] (.inl ⟨rfl,stands.on⟩) stands.position stands.rest
  rw [ofSourceEntered,entered]
  generalize es.mapM (Element.event? terms.provenance) = found at collected ⊢
  cases found with
  | none => exact collected
  | some found =>
      obtain ⟨t,collected,noted⟩ := collected
      rw [fresh,List.append_nil] at noted
      have left : t.notices = es.flatMap (Element.notices terms.ceiling) := by rw [Session.notices,noted,List.reverse_reverse]
      simp only [collected]
      exact ⟨rfl,rfl,(closeNotices _).trans left⟩

theorem decodedList {terms : Terms} {source : Source} (sound : source.broken = none)
    (ended : (ofSource terms none source).failure = none) :
    ∃ front es r rest, source.pending.flatten = front ++ 0x5B :: (r ++ rest) ∧ Front terms.recordsField front ∧
      Listed [] (front.length + 1) es r := by
  obtain ⟨harvest,_,failure,⟨_,_,_,rfl⟩ | ⟨s,entered,rfl⟩⟩ := ofSourceRun terms source
  · rw [failure] at ended; cases ended
  · obtain ⟨front,more,same,is,stands⟩ := envelopeFound sound entered
    rw [failure] at ended
    obtain ⟨es,r,rest,left,listed⟩ := collectFound (.inl ⟨rfl,stands.on⟩) stands.past ended
    rw [stands.position] at listed
    rw [stands.rest] at left
    exact ⟨front,es,r,rest,by rw [same,left],is,listed⟩

theorem eventsAccepted (provenance : Provenance) {es : List Element} :
    (es.mapM (Element.event? provenance)).isSome = true ↔
      ∀ j ∈ es.map Element.item, (Reference.record? j).isSome = true := by
  simp [Reference.allAccepted,Element.event?]

def provenance (options : Options) (raw : Bool) (t : Text) : Provenance :=
  .delivery (options.logName.getD (Text.of "<text>")) (if raw then some t.toArray else none)

theorem textDecoded (options : Options) (raw : Bool) {t front array rest : Text} {items : List Json}
    (same : t = front ++ array ++ rest) (is : Front options.recordsField front)
    (spelt : Spelt (.value (.array items)) array)
    (accepted : ∀ j ∈ items, (Reference.record? j).isSome = true) :
    ∃ es r, array = 0x5B :: r ∧ Listed [] (front.length + 1) es r ∧ es.map Element.item = items ∧
      (ofText options raw t).failure = none ∧
      es.mapM (Element.event? (provenance options raw t)) = some (ofText options raw t).events ∧
      (ofText options raw t).notices = es.flatMap (Element.notices options.ceiling) := by
  obtain ⟨es,r,rfl,rfl,listed⟩ := arrayListed spelt (front.length + 1)
  have whole : (Source.ofText options.chunkSize t).pending.flatten = front ++ 0x5B :: (r ++ rest) := by
    rw [Source.ofTextWhole,same,List.append_assoc]; rfl
  have decoded := listDecoded ⟨options.recordsField,options.ceiling,provenance options raw t⟩ rfl whole is listed
  obtain ⟨events,made⟩ := Option.isSome_iff_exists.mp ((eventsAccepted (provenance options raw t)).mpr accepted)
  rw [made] at decoded
  refine ⟨es,r,rfl,listed,rfl,decoded.2.1,?_,decoded.2.2⟩
  rw [made,← decoded.1]
  rfl

theorem endsListed {options : Options} {raw : Bool} {t : Text} (ended : (ofText options raw t).failure = none) :
    ∃ front array rest items, t = front ++ array ++ rest ∧ Front options.recordsField front ∧
      Spelt (.value (.array items)) array := by
  obtain ⟨front,es,r,rest,whole,is,listed⟩ := decodedList rfl ended
  rw [Source.ofTextWhole] at whole
  exact ⟨front,0x5B :: r,rest,es.map Element.item,by rw [whole,List.append_assoc]; rfl,is,listedArray listed⟩

theorem endsAccepted {options : Options} {raw : Bool} {t front array rest : Text} {items : List Json}
    (ended : (ofText options raw t).failure = none) (same : t = front ++ array ++ rest)
    (is : Front options.recordsField front) (spelt : Spelt (.value (.array items)) array) :
    ∀ j ∈ items, (Reference.record? j).isSome = true := by
  obtain ⟨es,r,rfl,rfl,listed⟩ := arrayListed spelt (front.length + 1)
  have whole : (Source.ofText options.chunkSize t).pending.flatten = front ++ 0x5B :: (r ++ rest) := by
    rw [Source.ofTextWhole,same]
    simp
  have decoded := listDecoded ⟨options.recordsField,options.ceiling,provenance options raw t⟩ rfl whole is listed
  rw [← eventsAccepted (provenance options raw t)]
  cases made : es.mapM (Element.event? (provenance options raw t)) with
  | some events => rfl
  | none =>
      rw [made] at decoded
      exact absurd ended (Option.isSome_iff_ne_none.mp decoded)

end Decoding
end AuditLog
