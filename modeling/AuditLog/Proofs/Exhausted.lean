import AuditLog.Proofs.Accounts
import AuditLog.Proofs.Delivery
import AuditLog.Proofs.Flaws
import AuditLog.Proofs.Logging

/-! Iterations behind the end of the list. A trail does not keep that its list has ended: an iteration that is begun
after that goes on with the members behind it. Where none follows, no iteration finds a record; where one follows,
the first ends on its name, and the next takes its value for a record. -/
namespace AuditLog
open Reading Reader Grammar

namespace Grammar

def Continues (t : Text) : Prop := ∃ w more, Blank w ∧ t = w ++ 0x2C :: more

theorem continuesBlank {w t : Text} (blank : Blank w) (continues : Continues t) : Continues (w ++ t) := by
  obtain ⟨w',more,blank',rfl⟩ := continues
  exact ⟨w ++ w',more,blankAppend blank blank',(List.append_assoc _ _ _).symm⟩

end Grammar

namespace Cursor

theorem nextNone {c d : Cursor} (ready : c.Ready) (stepped : c.next = (.ok none,d)) : d.expecting = .nothing := by
  rw [nextOpen ready] at stepped
  split at stepped
  · cases stepped
  · cases stepped
    rfl

section
variable {c d : Cursor} {around : List Container} {result : Except Fault (Option Token)}

theorem beyondNext (beyond : Over c (.object :: around)) (stepped : c.next = (result,d)) :
    (∃ token, result = .ok (some token) ∧ ¬ StartsValue token) ∨ ∃ what, result = .error (.malformed what) := by
  rcases result with fault | (_ | token)
  · obtain ⟨what,rfl,_⟩ := nextFault beyond.ready stepped
    exact .inr ⟨what,rfl⟩
  · exact absurd stepped (entryGoes (overEntry beyond))
  · obtain ⟨_,_,taken⟩ := nextTaken beyond.ready stepped
    obtain ⟨_,fits,_⟩ := taken.before
    rw [(commaFits beyond).1,(commaFits beyond).2] at fits
    cases fits <;> exact .inl ⟨_,rfl,id⟩

theorem memberFailed {fault : Fault} (beyond : Over c (.object :: around)) (inside : 0 < c.input.position)
    (last : ¬ Continues c.input.rest) (stepped : c.next = (.error fault,d)) :
    ∃ w, Blank w ∧ c.input.rest = w ++ d.input.rest := by
  have ready := beyond.ready
  rw [nextOpen ready,(commaFits beyond).1,(commaFits beyond).2] at stepped
  split at stepped
  · rename_i found l ran
    cases stepped
    obtain ⟨w,more,m,same,margin,stands,ran⟩ := Lexer.skipThen (readyStands ready) ran
    have blank := marginInside margin inside
    obtain ⟨m',stands,ran⟩ := Lexer.orCloseFailed stands (Lexer.someFailed ran)
    rcases Lexer.separatedFailed stands ran with ⟨_,rest⟩ | ⟨w',more',_,rfl,_⟩
    · exact ⟨w,blank,by rw [same,← rest]⟩
    · exact absurd ⟨w,w' ++ more',blank,same⟩ last
  · cases stepped

theorem nothingNext (ready : c.Ready) (ended : c.expecting = .nothing) (stepped : c.next = (result,d)) :
    d.expecting = .nothing ∧ (result = .ok none ∨ ∃ what, result = .error (.malformed what)) := by
  rcases result with fault | (_ | token)
  · obtain ⟨what,rfl,_⟩ := nextFault ready stepped
    obtain ⟨_,_,rfl⟩ := nextFailed stepped
    exact ⟨ended,.inr ⟨what,rfl⟩⟩
  · exact ⟨nextNone ready stepped,.inl rfl⟩
  · obtain ⟨_,_,taken⟩ := nextTaken ready stepped
    obtain ⟨_,fits,_⟩ := taken.before
    rw [ended] at fits
    cases fits

inductive Spent (c : Cursor) : Prop where
  | before (beyond : Over c [.object]) (inside : 0 < c.input.position) (last : ¬ Continues c.input.rest) : Spent c
  | behind (ready : c.Ready) (ended : c.expecting = .nothing) : Spent c

theorem spentBefore (beyond : Over c [.object]) (inside : 0 < c.input.position) (last : ¬ Continues c.input.rest)
    (stepped : c.next = (result,d)) : Spent d := by
  obtain ⟨ready,onward⟩ := nextOnward beyond.ready stepped
  rcases result with fault | (_ | token)
  · -- the same step fails again, as no comma comes behind blanks
    obtain ⟨w,blank,rest⟩ := memberFailed beyond inside last stepped
    obtain ⟨taken,_,place⟩ := onward.moved
    obtain ⟨_,_,rfl⟩ := nextFailed stepped
    rw [rest] at last
    exact .before ⟨ready,beyond.nesting,beyond.expecting⟩ (by rw [place]; omega)
      (fun continues => last (continuesBlank blank continues))
  · exact absurd stepped (entryGoes (overEntry beyond))
  · obtain ⟨gap,source,taken⟩ := nextTaken beyond.ready stepped
    obtain ⟨separator,fits,before⟩ := taken.before
    rw [(commaFits beyond).1,(commaFits beyond).2] at fits
    cases fits with
    | member =>
        cases before with
        | @separated w _ w' margin _ =>
            refine absurd ⟨w,w' ++ source ++ d.input.rest,marginInside margin inside,?_⟩ last
            rw [taken.rest]
            simp
    | lastMember =>
        have on := takenOn taken
        rw [beyond.nesting] at on
        exact .behind ready (onClosing on).expecting

def NoStart (token : Option Token) : Prop := ∀ found, token = some found → ¬ StartsValue found

theorem noStart {token : Token} (other : ¬ StartsValue token) : NoStart (some token) :=
  fun _ same => Option.some.inj same ▸ other

theorem spentNext (spent : Spent c) (stepped : c.next = (result,d)) :
    Spent d ∧ ((∃ token, result = .ok token ∧ NoStart token) ∨ ∃ what, result = .error (.malformed what)) := by
  cases spent with
  | before beyond inside last =>
      refine ⟨spentBefore beyond inside last stepped,(beyondNext beyond stepped).imp_left ?_⟩
      rintro ⟨token,same,other⟩
      exact ⟨_,same,noStart other⟩
  | behind ready ended =>
      obtain ⟨ended',found⟩ := nothingNext ready ended stepped
      exact ⟨.behind (nextOnward ready stepped).1 ended',found.imp_left (fun same => ⟨none,same,nofun⟩)⟩

inductive Finished (c : Cursor) : Prop where
  | before {w w'} (beyond : Over c [.object]) (blank : Blank w) (blank' : Blank w')
      (rest : c.input.rest = w ++ [0x7D] ++ w') : Finished c
  | behind (ready : c.Ready) (ended : c.expecting = .nothing) (blank : Blank c.input.rest) : Finished c

theorem finishedNext (finished : Finished c) : ∃ token d, c.next = (.ok token,d) ∧ Finished d ∧ NoStart token := by
  cases finished with
  | before beyond blank blank' rest =>
      have fits : Fits c.expecting c.nesting.head? (.closing .object) none := by
        rw [(commaFits beyond).1,(commaFits beyond).2]
        exact .lastMember
      obtain ⟨d,stepped,_,on,left,_⟩ := oneTaken beyond.ready rest fits (.blank (.inl blank)) .closeObject trivial
      rw [beyond.nesting] at on
      exact ⟨_,d,stepped,.behind on.ready (onClosing on).expecting (left ▸ blank'),noStart id⟩
  | behind ready ended blank =>
      obtain ⟨d,stepped⟩ := endNext ready (.inl ended) (.inl blank)
      obtain ⟨ready',onward⟩ := nextOnward ready stepped
      obtain ⟨taken,rest,_⟩ := onward.moved
      rw [rest] at blank
      have behind : Blank d.input.rest := fun u member => blank u (List.mem_append_right taken member)
      exact ⟨none,d,stepped,.behind ready' (nextNone ready stepped) behind,nofun⟩

end
end Cursor

namespace Trail
open Cursor

theorem moreOther {s : Session} {token : Option Token} {d : Cursor} (stepped : s.cursor.next = (.ok token,d))
    (other : NoStart token) : more.run s = (.ok false,{ s with cursor := d }) := by
  simp only [more,runBind,nextRun stepped]
  cases token with
  | none => rfl
  | some token =>
      cases token with
      | opening container => exact absurd trivial (other _ rfl)
      | scalar scalar => exact absurd trivial (other _ rfl)
      | _ => rfl

theorem moreFault {s : Session} {fault : Fault} {d : Cursor} (stepped : s.cursor.next = (.error fault,d)) :
    more.run s = (.error fault,{ s with cursor := d }) := by
  simp only [more,runBind,nextRun stepped]

def Barren (h : Harvest) : Prop := h.events = [] ∧ ∀ fault, h.failure = some fault → ∃ what, fault = .malformed what

def harvests : List (Option Nat) → Trail → List Harvest
  | [], _ => []
  | limit :: limits, t => (t.collect limit).1 :: harvests limits (t.collect limit).2

theorem harvestsEach {kept : Cursor → Prop} {good : Harvest → Prop}
    (round : ∀ terms limit s, kept s.cursor → good (collectFrom terms limit [] s).1 ∧
      kept (collectFrom terms limit [] s).2.cursor) {t : Trail} (opened : t.closed = false)
    (before : kept t.session.cursor) (limits : List (Option Nat)) : ∀ h ∈ t.harvests limits, good h := by
  induction limits generalizing t with
  | nil => exact List.forall_mem_nil _
  | cons limit limits ih =>
      obtain ⟨fine,after⟩ := round t.terms limit t.session before
      rw [harvests,collectOpen opened]
      exact List.forall_mem_cons.mpr ⟨fine,ih rfl after⟩

section
variable (terms : Terms) (limit : Option Nat) (s : Session)

theorem collectOther {token : Option Token} {d : Cursor} (stepped : s.cursor.next = (.ok token,d))
    (other : NoStart token) : collectFrom terms limit [] s = (⟨[],none⟩,{ s with cursor := d }) := by
  rw [collectFurther,moreOther stepped other]
  rfl

theorem collectStopped {fault : Fault} {d : Cursor} (stepped : s.cursor.next = (.error fault,d)) :
    collectFrom terms limit [] s = (⟨[],some fault⟩,{ s with cursor := d }) := by
  rw [collectFurther,moreFault stepped]
  rfl

theorem barrenNone : Barren ⟨[],none⟩ := ⟨rfl,nofun⟩

theorem barrenMalformed (what : Malformed) : Barren ⟨[],some (.malformed what)⟩ :=
  ⟨rfl,fun fault same => by cases same; exact ⟨what,rfl⟩⟩

theorem beyondCollect {around : List Container} (beyond : Over s.cursor (.object :: around)) :
    Barren (collectFrom terms limit [] s).1 := by
  cases stepped : s.cursor.next with
  | mk result d =>
      rcases beyondNext beyond stepped with ⟨token,rfl,other⟩ | ⟨what,rfl⟩
      · rw [collectOther terms limit s stepped (noStart other)]
        exact barrenNone
      · rw [collectStopped terms limit s stepped]
        exact barrenMalformed what

theorem spentCollect (spent : Spent s.cursor) :
    Barren (collectFrom terms limit [] s).1 ∧ Spent (collectFrom terms limit [] s).2.cursor := by
  cases stepped : s.cursor.next with
  | mk result d =>
      obtain ⟨spent',⟨token,rfl,other⟩ | ⟨what,rfl⟩⟩ := spentNext spent stepped
      · rw [collectOther terms limit s stepped other]
        exact ⟨barrenNone,spent'⟩
      · rw [collectStopped terms limit s stepped]
        exact ⟨barrenMalformed what,spent'⟩

theorem finishedCollect (finished : Finished s.cursor) :
    (collectFrom terms limit [] s).1 = ⟨[],none⟩ ∧ Finished (collectFrom terms limit [] s).2.cursor := by
  obtain ⟨token,d,stepped,finished',other⟩ := finishedNext finished
  rw [collectOther terms limit s stepped other]
  exact ⟨rfl,finished'⟩

end

theorem furtherEvents (terms : Terms) (limit : Option Nat) (found : List Event) (s : Session) :
    ∃ events, (further terms limit found s).1.events = found.reverse ++ events := by
  have collects (limit : Option Nat) : ∃ events, (collectFrom terms limit found s).1.events = found.reverse ++ events :=
    (collectLogs terms limit found s).imp (fun _ h => h.1)
  cases limit with
  | none => exact collects none
  | some n =>
      rw [further]
      split
      · exact ⟨[],(List.append_nil _).symm⟩
      · exact collects _

structure Mistakes (j : Json) (h : Harvest) : Prop where
  told : ∀ d, Reference.recordData? j = some d → ∃ e events, h.events = e :: events ∧ e.data = d
  refused : Reference.recordData? j = none → h.events = [] ∧ h.failure.isSome = true
  misshapen : (∀ members, j ≠ .object members) → ∃ flaw offset, h.failure = some (.record flaw offset)

theorem eventRefused (terms : Terms) {s : Session} (other : s.cursor.current ≠ some (.opening .object)) :
    ∃ flaw, (event terms).run s = (.error (.record flaw s.cursor.start),s) := by
  obtain ⟨flaw,gives⟩ : ∃ flaw, (Schema.record terms.ceiling).read s.cursor.current = refuse flaw :=
    ⟨_,Rule.objectElse other⟩
  refine ⟨flaw,?_⟩
  simp only [event,runBind,runState,Rule.readCurrent,gives]
  rfl

theorem firstObject {j : Json} (object : j.first = .opening .object) : ∃ members, j = .object members := by
  cases j with
  | object members => exact ⟨members,rfl⟩
  | flag value => cases value <;> cases object
  | _ => cases object

theorem recordOther {j : Json} (other : j.first ≠ .opening .object) : Reference.recordData? j = none := by
  cases j with
  | object members => exact absurd rfl other
  | _ => rfl

theorem mistakesOther {j : Json} {s : Session} {c : Cursor} (terms : Terms) (limit : Option Nat)
    (other : j.first ≠ .opening .object) (stepped : s.cursor.next = (.ok (some j.first),c)) :
    ∃ flaw offset, (collectFrom terms limit [] s).1 = ⟨[],some (.record flaw offset)⟩ := by
  rw [collectFurther]
  cases first : j.first with
  | closing container => exact absurd j.firstStarts (by rw [first]; exact id)
  | field name => exact absurd j.firstStarts (by rw [first]; exact id)
  | scalar scalar =>
      rw [first] at stepped
      rw [moreScalar stepped]
      exact ⟨_,_,rfl⟩
  | opening container =>
      obtain ⟨flaw,refused⟩ := eventRefused terms (s := ⟨c,s.noted⟩) (by rw [nextCurrent stepped]; simpa using other)
      rw [first] at stepped
      rw [moreOpening stepped]
      simp only [refused]
      exact ⟨_,_,rfl⟩

theorem mistakesObject {s : Session} {c d : Cursor} {e : Element} (terms : Terms) (limit : Option Nat)
    (object : e.item.first = .opening .object) (stepped : s.cursor.next = (.ok (some e.item.first),c))
    (walk : Walk c e.item.others d) (start : c.start = e.start) (stop : d.stop = e.stop) :
    match Reference.recordData? e.item with
    | some data => ∃ made events, (collectFrom terms limit [] s).1.events = made :: events ∧ made.data = data
    | none => ∃ fault, (collectFrom terms limit [] s).1 = ⟨[],some fault⟩ := by
  have answers := eventAnswers terms (s := ⟨c,s.noted⟩) (nextCurrent stepped) walk start stop
  have told : Reference.recordData? e.item = (e.event? terms.provenance).map Event.data := by
    rw [Reference.recordData?,Element.event?,Option.map_map]
    rfl
  rw [object] at stepped
  rw [collectFurther,moreOpening stepped,told]
  generalize e.event? terms.provenance = made at answers
  cases made with
  | none =>
      obtain ⟨fault,last,ran⟩ := answers
      simp only [ran]
      exact ⟨fault,rfl⟩
  | some event =>
      have ran : (Trail.event terms).run ⟨c,s.noted⟩ = (.ok event,_) := answers
      obtain ⟨events,further⟩ := furtherEvents terms limit [event] ⟨d,(e.notices terms.ceiling).reverse ++ s.noted⟩
      simp only [ran]
      exact ⟨event,events,further,rfl⟩

theorem mistakesMember {w w' v more : Text} {name : Text} {j : Json} {s : Session} (terms : Terms) (limit : Option Nat)
    (on : On s.cursor (.field name) [.object]) (before : Blank w) (behind : Blank w') (value : Spelt (.value j) v)
    (rest : s.cursor.input.rest = (w ++ 0x3A :: w') ++ v ++ more) (delimited : Delimited more) :
    Mistakes j (collectFrom terms limit [] s).1 := by
  have fits : Fits s.cursor.expecting s.cursor.nesting.head? j.first (some 0x3A) := by
    rw [on.expecting]
    exact .value j.firstStarts
  obtain ⟨c,lead,others,parts,stepped,taken,d,walk,_,_,place⟩ :=
    valueTaken (speltWalkable value) on.ready rest fits (.separated (.inl before) behind) (stopsDelimited delimited)
  by_cases object : j.first = .opening .object
  · have past := walkPast walk taken.ready (takenPast taken)
    have stop : d.stop = (⟨j,c.start,v⟩ : Element).stop := by
      rw [← past.stop,place,taken.position,taken.stop,Element.stop,parts,List.length_append,Nat.add_assoc]
    have found := mistakesObject (e := ⟨j,c.start,v⟩) terms limit object stepped walk rfl stop
    refine ⟨fun data told => ?_,fun none => ?_,fun noObject => ?_⟩
    · rw [told] at found
      exact found
    · rw [none] at found
      obtain ⟨fault,same⟩ := found
      rw [same]
      exact ⟨rfl,rfl⟩
    · obtain ⟨members,same⟩ := firstObject object
      exact absurd same (noObject members)
  · obtain ⟨flaw,offset,same⟩ := mistakesOther terms limit object stepped
    rw [same]
    refine ⟨fun data told => ?_,fun _ => ⟨rfl,rfl⟩,fun _ => ⟨flaw,offset,rfl⟩⟩
    rw [recordOther object] at told
    cases told

theorem memberResumes {t : Trail} {w w' s more : Text} {name : Text} {j : Json} (opened : t.closed = false)
    (beyond : Over t.session.cursor [.object]) (before : Blank w) (behind : Blank w') (member : Spelt (.member name j) s)
    (rest : t.session.cursor.input.rest = (w ++ 0x2C :: w') ++ s ++ more) (delimited : Delimited more)
    (limit limit' : Option Nat) :
    ∃ second, t.harvests [limit,limit'] = [⟨[],none⟩,second] ∧ Mistakes j second := by
  cases member with
  | @member q _ w₂ w₃ _ v quotation ahead after value =>
      have fits : Fits t.session.cursor.expecting t.session.cursor.nesting.head? (.field name) (some 0x2C) := by
        rw [(commaFits beyond).1,(commaFits beyond).2]
        exact .member
      have rest' : t.session.cursor.input.rest = (w ++ 0x2C :: w') ++ q ++ ((w₂ ++ 0x3A :: w₃) ++ v ++ more) := by
        rw [rest]
        simp
      obtain ⟨d,stepped,_,on,left,_⟩ := oneTaken beyond.ready rest' fits (.separated (.inl before) behind)
        (.field quotation) trivial
      rw [beyond.nesting] at on
      have first : collectFrom t.terms limit [] t.session = (⟨[],none⟩,⟨d,t.session.noted⟩) :=
        collectOther t.terms limit t.session stepped (noStart id)
      refine ⟨_,?_,mistakesMember (s := ⟨d,t.session.noted⟩) t.terms limit' on ahead after value left delimited⟩
      rw [harvests,collectOpen opened,first,harvests,collectOpen rfl,harvests]

section
variable {terms : Terms} {chunks : List Text} {u : Trail}

theorem endsOver (acts : List Act) (asked : (Act.after acts (.ofSource terms (.ofChunks chunks))).another = (.ok false,u))
    (ends : u.EndsList) : u.closed = false ∧ Over u.session.cursor [.object] ∧ 0 < u.session.cursor.input.position := by
  have reached : Reached chunks.flatten (Act.after acts (.ofSource terms (.ofChunks chunks))).session.cursor :=
    Act.keptAfter acts reachedNext reachedClose ⟨settledOfChunks chunks,fun _ => ⟨[],rfl,rfl⟩,nofun⟩
  generalize Act.after acts (.ofSource terms (.ofChunks chunks)) = t at asked reached
  obtain ⟨same,asked⟩ := (performRun (performOpened asked)).mp asked
  obtain ⟨found,stepped,_⟩ := moreFalse asked
  have shown : found = some (.closing .array) := (nextCurrent stepped).symm.trans ends.current
  rw [shown] at stepped
  obtain ⟨_,_,taken⟩ := nextTaken (settledReady reached.settled (nextOpened stepped)) stepped
  refine ⟨by rw [same],⟨taken.ready,ends.nesting,?_⟩,takenPositive taken⟩
  rw [taken.expecting,ends.nesting]
  rfl

theorem listedEnds (terms : Terms) {lead r more : Text} {place : Nat} {es : List Element} {events : List Event}
    (listed : Listed lead place es r) (made : es.mapM (Element.event? terms.provenance) = some events) {s : Session}
    (awaits : Awaits s.cursor lead [.object]) (past : Past s.cursor) (here : s.cursor.input.position = place)
    (rest : s.cursor.input.rest = r ++ more) :
    ∃ last, collectFrom terms none [] s = (⟨events,none⟩,last) ∧ last.cursor.input.rest = more := by
  obtain ⟨r',w,rfl,blank,leading⟩ := listedLeading listed
  have rest' : s.cursor.input.rest = r' ++ (w ++ [0x5D] ++ more) := by rw [rest,List.append_assoc]
  obtain ⟨_,t,awaits',_,left,same⟩ := collectAhead terms leading made [] awaits past here rest'
  obtain ⟨nesting,fits⟩ := awaitsEnd awaits'
  have fits' : Fits t.cursor.expecting t.cursor.nesting.head? (.closing .array) none := by
    rw [nesting]
    exact fits
  have ready := (awaitsEntry awaits').ready
  obtain ⟨d,stepped,_,_,left,_⟩ := oneTaken ready left fits' (.blank (.inl blank)) .closeArray trivial
  refine ⟨⟨d,t.noted⟩,?_,left⟩
  rw [same,collectUnfold,moreClosing stepped]
  simp

theorem laidIterated {front array rest : Text} {items : List Json}
    (laid : Decoding.Laid terms.recordsField chunks.flatten front array rest items)
    (accepted : ∀ j ∈ items, (Reference.record? j).isSome = true) :
    ∃ t events u, (Trail.ofSource terms (.ofChunks chunks)).enter = (.ok (),t) ∧ t.Iterated events none u ∧
      items.mapM Reference.recordData? = some (events.map Event.data) ∧ u.session.cursor.input.rest = rest := by
  obtain ⟨es,r,rfl,rfl,listed⟩ := arrayListed laid.array (front.length + 1)
  obtain ⟨events,made⟩ := Option.isSome_iff_exists.mp ((Decoding.eventsAccepted terms.provenance).mpr accepted)
  have whole : (Source.ofChunks chunks).pending.flatten = front ++ 0x5B :: (r ++ rest) := by
    refine laid.whole.trans ?_
    simp
  obtain ⟨s,entered,stands,_⟩ := envelopeRead rfl whole laid.front
  obtain ⟨last,collected,left⟩ := listedEnds terms listed made (.inl ⟨rfl,stands.on⟩) stands.past stands.position
    stands.rest
  have entering : (Trail.ofSource terms (.ofChunks chunks)).enter = (.ok (),⟨terms,s,false⟩) :=
    (performRun rfl).mpr ⟨rfl,entered⟩
  have iterated : Iterated ⟨terms,s,false⟩ events none ⟨terms,last,false⟩ := by
    rw [iteratedIff rfl,collectOpen rfl,collected]
  exact ⟨_,events,_,entering,iterated,Decoding.eventsData made,left⟩

end

theorem nothingIff {t : Trail} {r w : Text} {members : List (Text × Json)} (opened : t.closed = false)
    (beyond : Over t.session.cursor [.object]) (spelt : Spelt (.members members) r) (blank : Blank w)
    (rest : t.session.cursor.input.rest = r ++ w) :
    (∀ limits, ∀ h ∈ t.harvests limits, h = ⟨[],none⟩) ↔ members = [] := by
  constructor
  · intro nothing
    cases spelt with
    | noMember _ => rfl
    | @nextMember _ _ _ j _ _ _ before behind member others =>
        rw [List.append_assoc] at rest
        obtain ⟨second,found,mistakes⟩ := memberResumes opened beyond before behind member rest
          (membersDelimited others w) none none
        have none : second = ⟨[],none⟩ := nothing [none,none] second (by rw [found]; simp)
        rw [none] at mistakes
        cases told : Reference.recordData? j with
        | none => cases (mistakes.refused told).2
        | some d =>
            obtain ⟨_,_,same,_⟩ := mistakes.told d told
            cases same
  · rintro rfl limits
    cases spelt with
    | noMember blank' => exact harvestsEach finishedCollect opened (.before beyond blank' blank rest) limits

/-- Asked for another record of a list in an envelope over these chunks, after whatever acts, a trail found its end. -/
structure Exhausted (terms : Terms) (chunks : List Text) (u : Trail) : Prop where
  asked : ∃ acts, (Act.after acts (.ofSource terms (.ofChunks chunks))).another = (.ok false,u)
  ends : u.EndsList

structure Resumes (u : Trail) : Prop where
  first : ∀ limit, Barren (u.collect limit).1
  last : ¬ Continues u.session.cursor.input.rest → ∀ limits, ∀ h ∈ u.harvests limits, Barren h
  member : ∀ w w' s more name j, Blank w → Blank w' → Spelt (.member name j) s → Delimited more →
    u.session.cursor.input.rest = (w ++ 0x2C :: w') ++ s ++ more →
      ∀ limit limit', ∃ second, u.harvests [limit,limit'] = [⟨[],none⟩,second] ∧ Mistakes j second
  whole : ∀ members r w, Spelt (.members members) r → Blank w → u.session.cursor.input.rest = r ++ w →
    ((∀ limits, ∀ h ∈ u.harvests limits, h = ⟨[],none⟩) ↔ members = [])

theorem exhaustedResumes {terms : Terms} {chunks : List Text} {u : Trail} (exhausted : Exhausted terms chunks u) :
    Resumes u := by
  obtain ⟨⟨acts,asked⟩,ends⟩ := exhausted
  obtain ⟨opened,beyond,inside⟩ := endsOver acts asked ends
  refine ⟨fun limit => ?_,fun last => ?_,fun w w' s more name j before behind member delimited rest => ?_,
    fun members r w spelt blank rest => nothingIff opened beyond spelt blank rest⟩
  · rw [collectOpen opened]
    exact beyondCollect u.terms limit u.session beyond
  · exact harvestsEach spentCollect opened (.before beyond inside last)
  · exact memberResumes opened beyond before behind member rest delimited

/-- A log of which all records are accepted can be iterated to the end of its list, with an event for each of them.
From there on the next iteration finds nothing, and unless another member follows, so do all of those that are begun
after it, but for faults of syntax. If one follows, the second takes its value for a record. So in a document that is
in order up to its end, they find nothing and no fault exactly if the list was in its last member. -/
theorem iterationsResume (terms : Terms) (chunks : List Text) :
    (∀ front array rest items, Decoding.Laid terms.recordsField chunks.flatten front array rest items →
      (∀ j ∈ items, (Reference.record? j).isSome = true) →
        ∃ t events u, (Trail.ofSource terms (.ofChunks chunks)).enter = (.ok (),t) ∧ t.Iterated events none u ∧
          items.mapM Reference.recordData? = some (events.map Event.data) ∧ Exhausted terms chunks u ∧
          u.session.cursor.input.rest = rest) ∧
      ∀ u, Exhausted terms chunks u → Resumes u := by
  refine ⟨fun front array rest items laid accepted => ?_,fun u => exhaustedResumes⟩
  obtain ⟨t,events,u,entering,iterated,told,left⟩ := laidIterated laid accepted
  obtain ⟨acts,m,rfl,asked⟩ := iteratedLast iterated
  refine ⟨t,events,u,entering,iterated,told,⟨⟨.enter :: acts,?_⟩,soundEnds entering iterated⟩,left⟩
  simp only [Act.after,Act.on,entering]
  exact asked

/-- The third iteration has an event, and the list is empty: it was made of the value of another member. -/
theorem memberIterated :
    ((Act.on .enter (.ofSource ⟨Terms.standardField,Terms.standardCeiling,.span⟩
      (.ofChunks [Text.of "\x7b\"Records\":[],\"x\":\x7b\x7d\x7d"]))).harvests [none,none,none]).map
        (fun h => (h.events.length,h.failure.isNone)) = [(0,true),(0,true),(1,true)] := by
  decide +kernel

end Trail
end AuditLog
