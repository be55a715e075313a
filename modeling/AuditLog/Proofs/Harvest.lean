import AuditLog.Proofs.Envelope

/-! Records are collected one by one, from the list on which an envelope ends. The token that stops
the loop without a fault is the end of that list: nothing else is taken for it, and no element
before it is left out. -/
namespace AuditLog
open Reading Reader Grammar

namespace Trail
open Cursor

def further (terms : Terms) (limit : Option Nat) (found : List Event) (s : Session) : Harvest × Session :=
  match limit with
  | none => collectFrom terms none found s
  | some n => if n ≤ 1 then (⟨found.reverse,none⟩,s) else collectFrom terms (some (n - 1)) found s

theorem collectFurther (terms : Terms) (limit : Option Nat) (found : List Event) (s : Session) :
    collectFrom terms limit found s =
      match more.run s with
      | (.error fault,after) => (⟨found.reverse,some fault⟩,after)
      | (.ok false,after) => (⟨found.reverse,none⟩,after)
      | (.ok true,after) =>
          match (event terms).run after with
          | (.error fault,last) => (⟨found.reverse,some fault⟩,last)
          | (.ok e,last) => further terms limit (e :: found) last := by
  rw [collectFrom]
  split
  · simp_all
  · simp_all
  · split
    · simp_all
    · rename_i _ asked _ _ went
      simp only [asked,went]
      rfl

theorem collectUnfold (terms : Terms) (found : List Event) (s : Session) :
    collectFrom terms none found s =
      match more.run s with
      | (.error fault,after) => (⟨found.reverse,some fault⟩,after)
      | (.ok false,after) => (⟨found.reverse,none⟩,after)
      | (.ok true,after) =>
          match (event terms).run after with
          | (.error fault,last) => (⟨found.reverse,some fault⟩,last)
          | (.ok e,last) => collectFrom terms none (e :: found) last :=
  collectFurther terms none found s

theorem moreOpening {s : Session} {d : Cursor} {container : Container}
    (stepped : s.cursor.next = (.ok (some (.opening container)),d)) :
    more.run s = (.ok true,{ s with cursor := d }) := by
  simp only [more,runBind,nextRun stepped]; rfl

theorem moreScalar {s : Session} {d : Cursor} {scalar : Scalar}
    (stepped : s.cursor.next = (.ok (some (.scalar scalar)),d)) :
    more.run s = (.error (.record .notRecord d.start),{ s with cursor := d }) := by
  simp only [more,runBind,nextRun stepped]; rfl

theorem moreClosing {s : Session} {d : Cursor} {container : Container}
    (stepped : s.cursor.next = (.ok (some (.closing container)),d)) :
    more.run s = (.ok false,{ s with cursor := d }) := by
  simp only [more,runBind,nextRun stepped]; rfl

theorem moreTrue {s t : Session} (ran : more.run s = (.ok true,t)) :
    ∃ container, s.cursor.next = (.ok (some (.opening container)),t.cursor) := by
  obtain ⟨token,m,read,done⟩ := okBind ran
  have stepped := readNext read
  cases token with
  | none => cases done
  | some token =>
      cases token with
      | opening container => cases done; exact ⟨container,stepped⟩
      | _ => cases done

theorem moreFalse {s t : Session} (ran : more.run s = (.ok false,t)) :
    ∃ token, s.cursor.next = (.ok token,t.cursor) ∧ ∀ found, token = some found → ¬ StartsValue found := by
  obtain ⟨token,m,read,done⟩ := okBind ran
  have stepped := readNext read
  cases token with
  | none => cases done; exact ⟨none,stepped,nofun⟩
  | some token =>
      cases token with
      | opening container => cases done
      | scalar scalar => cases done
      | closing container => cases done; exact ⟨_,stepped,fun found same => by cases same; exact id⟩
      | field name => cases done; exact ⟨_,stepped,fun found same => by cases same; exact id⟩

theorem recordScalar {j : Json} {scalar : Scalar} (first : j.first = .scalar scalar) :
    Reference.record? j = none := by
  cases j with
  | array items => cases first
  | object members => cases first
  | _ => rfl

theorem eventOpens {provenance : Provenance} {e : Element} {event : Event} (made : e.event? provenance = some event) :
    ∃ container, e.item.first = .opening container := by
  cases first : e.item.first with
  | opening container => exact ⟨container,rfl⟩
  | scalar scalar => rw [Element.event?,recordScalar first] at made; cases made
  | closing container => exact absurd e.item.firstStarts (by rw [first]; exact id)
  | field name => exact absurd e.item.firstStarts (by rw [first]; exact id)

theorem eventAnswers (terms : Terms) {e : Element} {s : Session} {d : Cursor}
    (stands : s.cursor.current = some e.item.first) (walk : Walk s.cursor e.item.others d)
    (start : s.cursor.start = e.start) (stop : d.stop = e.stop) :
    Answers ((event terms).run s) (e.event? terms.provenance) d ((e.notices terms.ceiling).reverse ++ s.noted) := by
  have read : Answers ((Schema.record terms.ceiling).readCurrent.run s) (Reference.record? e.item) d
      (((Schema.record terms.ceiling).remarks e.item).reverse ++ s.noted) := by
    have answers := Rule.readAnswers (Schema.record terms.ceiling) e.item s d stands walk
    rw [Schema.recordDenotes] at answers
    simp only [Rule.readCurrent,runBind,runState,stands]
    exact answers
  unfold Element.event? Element.notices
  rw [← start,← stop]
  unfold event
  rw [runBind,runState]
  generalize Reference.record? e.item = made at read
  cases made with
  | none =>
      obtain ⟨fault,t,ran⟩ := read
      exact ⟨fault,t,by simp only [runBind,ran]⟩
  | some v =>
      have ran : (Schema.record terms.ceiling).readCurrent.run s = (.ok v,_) := read
      rw [List.reverse_append,List.append_assoc]
      simp only [runBind,ran]
      rfl

theorem elementRead (terms : Terms) {lead w w' more : Text} {e : Element} {around : List Container} {s : Session}
    (awaits : Awaits s.cursor lead around) (before : Blank w) (behind : Blank w')
    (start : e.start = s.cursor.input.position + (w ++ lead ++ w').length) (value : Spelt (.value e.item) e.source)
    (rest : s.cursor.input.rest = w ++ lead ++ w' ++ e.source ++ more) (stops : Stops e.item.first more) :
    ∃ c d, s.cursor.next = (.ok (some e.item.first),c) ∧
      Answers ((event terms).run ⟨c,s.noted⟩) (e.event? terms.provenance) d
        ((e.notices terms.ceiling).reverse ++ s.noted) ∧ Over d (.array :: around) ∧ Past d ∧
      d.input.position = e.stop ∧ d.input.rest = more := by
  obtain ⟨separator,fits,gap⟩ := awaitsFits awaits e.item.firstStarts before behind
  have entry := awaitsEntry awaits
  obtain ⟨c,lead',others,parts,stepped,taken,d,walk,beyond,left,place⟩ :=
    valueTaken (speltWalkable value) entry.ready rest fits gap stops
  rw [entry.nesting] at beyond
  have past := walkPast walk taken.ready (takenPast taken)
  have startsAt : c.start = e.start := by rw [taken.start,start]
  have stopsAt : d.input.position = e.stop := by
    rw [place,takenPlace taken,Element.stop,start,parts]
    simp only [List.length_append]
    omega
  have answers := eventAnswers terms (s := ⟨c,s.noted⟩) (nextCurrent stepped) walk startsAt (past.stop.symm.trans stopsAt)
  exact ⟨c,d,stepped,answers,beyond,past,stopsAt,left⟩

theorem collectListed (terms : Terms) {lead r more : Text} {place : Nat} {es : List Element}
    (listed : Listed lead place es r) (found : List Event) {s : Session}
    (awaits : Awaits s.cursor lead [.object]) (here : s.cursor.input.position = place)
    (rest : s.cursor.input.rest = r ++ more) :
    match es.mapM (Element.event? terms.provenance) with
    | some events => ∃ t, collectFrom terms none found s = (⟨found.reverse ++ events,none⟩,t) ∧
        t.noted = (es.flatMap (Element.notices terms.ceiling)).reverse ++ s.noted
    | none => (collectFrom terms none found s).1.failure.isSome = true := by
  induction listed generalizing found s with
  | @none lead place w blank =>
      obtain ⟨nesting,fits⟩ := awaitsEnd awaits
      have fits' : Fits s.cursor.expecting s.cursor.nesting.head? (.closing .array) none := by
        rw [nesting]; exact fits
      have ready := (awaitsEntry awaits).ready
      obtain ⟨d,stepped,_⟩ := oneTaken ready rest fits' (.blank (.inl blank)) .closeArray trivial
      rw [collectUnfold,moreClosing stepped]
      exact ⟨⟨d,s.noted⟩,by simp,rfl⟩
  | @some lead place w w' e es r before behind start value others ih =>
      rw [← here] at start
      rw [List.append_assoc] at rest
      have stops : Stops e.item.first (r ++ more) := stopsDelimited (itemsDelimited (listedItems others) more)
      obtain ⟨c,d,stepped,answers,beyond,_,stop,left⟩ := elementRead terms awaits before behind start value rest stops
      rw [collectUnfold,List.mapM_cons]
      cases first : e.item.first with
      | closing container => exact absurd e.item.firstStarts (by rw [first]; exact id)
      | field name => exact absurd e.item.firstStarts (by rw [first]; exact id)
      | scalar scalar =>
          rw [first] at stepped
          rw [moreScalar stepped,Element.event?,recordScalar first]
          rfl
      | opening container =>
          rw [first] at stepped
          rw [moreOpening stepped]
          generalize e.event? terms.provenance = one at answers ⊢
          cases one with
          | none =>
              obtain ⟨fault,last,ran⟩ := answers
              simp [ran]
          | some event =>
              have ran : (Trail.event terms).run ⟨c,s.noted⟩ = (.ok event,_) := answers
              have later := ih (event :: found) (s := ⟨d,(e.notices terms.ceiling).reverse ++ s.noted⟩)
                (.inr ⟨rfl,beyond⟩) stop left
              simp only [ran]
              generalize es.mapM (Element.event? terms.provenance) = events at later ⊢
              cases events with
              | none => exact later
              | some events => simpa using later

theorem eventMade {terms : Terms} {e : Event} {s t : Session} (ran : (event terms).run s = (.ok e,t)) :
    ∃ v u, ((Schema.record terms.ceiling).read s.cursor.current).run s = (.ok v,u) ∧ t.cursor = u.cursor ∧
      e = ⟨Account.resolve v,terms.provenance.metadata (.counted s.cursor.start) (.counted u.cursor.stop)⟩ := by
  obtain ⟨_,_,looked,ran⟩ := okBind ran
  cases looked
  obtain ⟨v,u,read,ran⟩ := okBind ran
  obtain ⟨_,_,looked,ran⟩ := okBind ran
  cases looked
  obtain ⟨_,_,noted,done⟩ := okBind ran
  cases noted
  cases done
  obtain ⟨_,_,looked,read⟩ := okBind read
  cases looked
  exact ⟨v,u,read,rfl,rfl⟩

theorem eventRead {terms : Terms} {e : Event} {s t : Session} {token : Token}
    (ran : (event terms).run s = (.ok e,t)) (stands : s.cursor.current = some token) :
    ∃ v u, ((Schema.record terms.ceiling).read (some token)).run s = (.ok v,u) ∧ t.cursor = u.cursor := by
  obtain ⟨v,u,read,same,_⟩ := eventMade ran
  exact ⟨v,u,stands ▸ read,same⟩

theorem elementFound {terms : Terms} {lead : Text} {event : Event} {s t u : Session} {container : Container}
    {around : List Container} (awaits : Awaits s.cursor lead around) (past : Past s.cursor)
    (stepped : s.cursor.next = (.ok (some (.opening container)),t.cursor))
    (made : (Trail.event terms).run t = (.ok event,u)) :
    ∃ (e : Element) (w w' : Text), Blank w ∧ Blank w' ∧
      e.start = s.cursor.input.position + (w ++ lead ++ w').length ∧ Spelt (.value e.item) e.source ∧
      s.cursor.input.rest = w ++ lead ++ w' ++ e.source ++ u.cursor.input.rest ∧
      Over u.cursor (.array :: around) ∧ Past u.cursor ∧ u.cursor.input.position = e.stop ∧
      e.event? terms.provenance = some event := by
  have entry := awaitsEntry awaits
  have starts : StartsValue (.opening container) := trivial
  have current := nextCurrent stepped
  obtain ⟨gap,source,taken⟩ := nextTaken entry.ready stepped
  obtain ⟨on,_⟩ := arrayEntry entry stepped
  obtain ⟨v,u',read,same⟩ := eventRead made current
  obtain ⟨ts,climb⟩ := Rule.readWhole _ _ _ v t u' read current starts on
  rw [← same] at climb
  obtain ⟨j,others,first,rfl,spelt,rest,place⟩ := climbValue climb starts on (takenPositive taken) taken.lexeme
  have past' := walkPast (climbWalk climb) taken.ready (takenPast taken)
  rcases awaitsGap awaits past taken with ⟨closing,_⟩ | ⟨_,w,w',rfl,before,behind⟩
  · cases closing
  · let e : Element := ⟨j,s.cursor.input.position + (w ++ lead ++ w').length,source ++ others⟩
    have stop : u.cursor.input.position = e.stop := by
      rw [place,takenPlace taken]
      simp only [e,Element.stop,List.length_append]
      omega
    have answers : Answers ((Trail.event terms).run t) (e.event? terms.provenance) u.cursor _ :=
      eventAnswers terms (first ▸ current) (climbWalk climb) taken.start (past'.stop.symm.trans stop)
    refine ⟨e,w,w',before,behind,rfl,spelt,?_,climbOver climb,past',stop,(answers.iff event).mp (by rw [made])⟩
    rw [taken.rest,rest]
    simp [e]

theorem collectLeading (terms : Terms) {lead : Text} (found : List Event) {s : Session}
    (awaits : Awaits s.cursor lead [.object]) (past : Past s.cursor) :
    ∃ es r more events, s.cursor.input.rest = r ++ more ∧ Leading lead s.cursor.input.position es r ∧
      es.mapM (Element.event? terms.provenance) = some events ∧
      (collectFrom terms none found s).1.events = found.reverse ++ events ∧
      ((collectFrom terms none found s).1.failure = none → ∃ w rest, Blank w ∧ more = w ++ [0x5D] ++ rest) := by
  induction size : s.unread using Nat.strongRecOn generalizing lead found s with
  | _ size ih =>
      subst size
      have stops (failure : Option Fault)
          (closes : failure = none → ∃ w rest, Blank w ∧ s.cursor.input.rest = w ++ [0x5D] ++ rest) :
          ∃ es r more events, s.cursor.input.rest = r ++ more ∧ Leading lead s.cursor.input.position es r ∧
            es.mapM (Element.event? terms.provenance) = some events ∧ found.reverse = found.reverse ++ events ∧
            (failure = none → ∃ w rest, Blank w ∧ more = w ++ [0x5D] ++ rest) :=
        ⟨[],[],_,[],rfl,.none,rfl,(List.append_nil _).symm,closes⟩
      rw [collectUnfold]
      cases asked : more.run s with
      | mk result t =>
          cases result with
          | error fault => exact stops (some fault) nofun
          | ok another =>
              cases another with
              | false =>
                  obtain ⟨token,stepped,other⟩ := moreFalse asked
                  obtain ⟨w,blank,rest⟩ := awaitsClosing awaits past stepped other
                  exact stops none (fun _ => ⟨w,_,blank,rest⟩)
              | true =>
                  obtain ⟨container,stepped⟩ := moreTrue asked
                  cases made : (event terms).run t with
                  | mk result u =>
                      simp only [made]
                      cases result with
                      | error fault => exact stops (some fault) nofun
                      | ok event =>
                          obtain ⟨e,w,w',before,behind,start,spelt,rest,beyond,past',stop,is⟩ :=
                            elementFound awaits past stepped made
                          have shorter := Nat.lt_of_le_of_lt ((Trail.event terms).forwardTo made)
                            (moreTakes asked)
                          obtain ⟨es,r,more,events,rest',leading,others,harvested,ended⟩ :=
                            ih _ shorter (event :: found) (.inr ⟨rfl,beyond⟩) past' rfl
                          rw [stop] at leading
                          refine ⟨e :: es,_,more,event :: events,?_,.some before behind start spelt leading,?_,?_,ended⟩
                          · rw [rest,rest']
                            simp
                          · rw [List.mapM_cons,is,others]; rfl
                          · rw [harvested]
                            simp

theorem collectFound {terms : Terms} {lead : Text} {found : List Event} {s : Session}
    (awaits : Awaits s.cursor lead [.object]) (past : Past s.cursor)
    (ended : (collectFrom terms none found s).1.failure = none) :
    ∃ es r more, s.cursor.input.rest = r ++ more ∧ Listed lead s.cursor.input.position es r := by
  obtain ⟨es,r,_,_,rest,leading,_,_,closes⟩ := collectLeading terms found awaits past
  obtain ⟨w,more,blank,rfl⟩ := closes ended
  exact ⟨es,_,more,by rw [rest]; simp,leadingCloses leading blank⟩

theorem collectAhead (terms : Terms) {lead r more : Text} {place : Nat} {es : List Element} {events : List Event}
    (leading : Leading lead place es r) (made : es.mapM (Element.event? terms.provenance) = some events)
    (found : List Event) {s : Session} (awaits : Awaits s.cursor lead [.object]) (past : Past s.cursor)
    (here : s.cursor.input.position = place) (rest : s.cursor.input.rest = r ++ more) :
    ∃ lead' t, Awaits t.cursor lead' [.object] ∧ Past t.cursor ∧ t.cursor.input.rest = more ∧
      collectFrom terms none found s = collectFrom terms none (events.reverse ++ found) t := by
  induction leading generalizing found events s with
  | none => cases made; exact ⟨_,s,awaits,past,rest,rfl⟩
  | @some lead place w w' e es r before behind start value _ ih =>
      rw [← here] at start
      rw [List.append_assoc] at rest
      rw [List.mapM_cons] at made
      obtain ⟨event,is,made⟩ := Option.bind_eq_some_iff.mp made
      obtain ⟨later,others,made⟩ := Option.bind_eq_some_iff.mp made
      cases made
      obtain ⟨container,first⟩ := eventOpens is
      have stops : Stops e.item.first (r ++ more) := by rw [first]; trivial
      obtain ⟨c,d,stepped,answers,beyond,past',stop,left⟩ := elementRead terms awaits before behind start value rest stops
      rw [is] at answers
      have ran : (Trail.event terms).run ⟨c,s.noted⟩ = (.ok event,_) := answers
      rw [first] at stepped
      obtain ⟨lead',t,awaits',past'',rest',same⟩ :=
        ih others (event :: found) (s := ⟨d,_⟩) (.inr ⟨rfl,beyond⟩) past' stop left
      refine ⟨lead',t,awaits',past'',rest',?_⟩
      rw [collectUnfold,moreOpening stepped]
      simp only [ran]
      rw [same]
      simp

structure Told where
  data : Value
  start : Nat
  stop : Nat

def Told.event (provenance : Provenance) (told : Told) : Event :=
  ⟨told.data,provenance.metadata (.counted told.start) (.counted told.stop)⟩

def told (ceiling : Float) : Reader Told := do
  let before ← state
  let data ← (Schema.record ceiling).readCurrent
  let after ← state
  let record := Account.resolve data
  note (.decoded before.cursor.start after.cursor.stop (identifier? record))
  pure ⟨record,before.cursor.start,after.cursor.stop⟩

theorem eventTold (terms : Terms) (s : Session) :
    (event terms).run s =
      (((told terms.ceiling).run s).1.map (Told.event terms.provenance),((told terms.ceiling).run s).2) := by
  simp only [event,told,runBind,runState]
  generalize (Schema.record terms.ceiling).readCurrent.run s = x
  obtain ⟨result,last⟩ := x
  cases result <;> rfl

section
variable {R : Session → Session → Prop} {allowed : Fault → Prop}

theorem moreCarries (blind : Blind R allowed) : Blind.Carries R allowed R more := by
  refine coupledBind blind.nextCarries (fun token => ?_)
  split
  · exact coupledPure _ (fun _ _ h => h)
  · exact blind.refuseCarries _
  · exact coupledPure _ (fun _ _ h => h)

theorem toldCarries (blind : Blind R allowed) (ceiling : Float)
    (stop : ∀ s t, R s t → s.cursor.stop = t.cursor.stop) : Blind.Carries R allowed R (told ceiling) := by
  refine coupledState (fun s t related => ?_)
  rw [blind.start s t related]
  refine coupledBind (blind.readCurrentCarries _) (fun data => ?_) s t related
  refine coupledState (fun s' t' related' => ?_)
  rw [stop s' t' related']
  refine coupledBind (blind.noteCarries (some _)) (fun _ => ?_) s' t' related'
  exact coupledPure _ (fun _ _ h => h)

theorem eventCarries (blind : Blind R allowed) (terms : Terms)
    (stop : ∀ s t, R s t → s.cursor.stop = t.cursor.stop) : Blind.Carries R allowed R (event terms) := by
  intro s t related
  have paired := toldCarries blind terms.ceiling stop s t related
  rw [eventTold,eventTold]
  generalize (told terms.ceiling).run s = x at paired ⊢
  generalize (told terms.ceiling).run t = y at paired ⊢
  cases paired with
  | ok related => exact .ok related
  | error related => exact .error related

theorem demandCarries (blind : Blind R allowed) (wanted : Token) (flaw : EnvelopeFlaw) :
    Blind.Carries R (fun fault => allowed fault ∨ ∃ flaw offset, fault = .envelope flaw offset) R
      (demand wanted flaw) := by
  refine coupledBind (coupledWeaken blind.nextCarries (fun _ _ h => h) (fun _ _ _ h => h)
    (fun _ _ _ h => ⟨h.1,.inl h.2⟩)) (fun token => ?_)
  refine coupledState (fun s t related => ?_)
  rw [blind.start s t related]
  split
  · exact .ok related
  · exact .error ⟨related,.inr ⟨_,_,rfl⟩⟩

theorem envelopeCarries (blind : Blind R allowed) (field : Text) :
    Blind.Carries R (fun fault => allowed fault ∨ ∃ flaw offset, fault = .envelope flaw offset) R
      (envelope field) :=
  coupledBind (demandCarries blind _ _) (fun _ =>
    coupledBind (demandCarries blind _ _) (fun _ => demandCarries blind _ _))

theorem carriesAlone {α : Type} {r : Reader α} {s t : Session} {result : Except Fault α}
    (carries : Blind.Carries R allowed R r) (related : R s s) (ran : r.run s = (result,t)) :
    R t t ∧ ∀ fault, result = .error fault → allowed fault := by
  have paired := carries s s related
  rw [ran] at paired
  cases paired with
  | ok related => exact ⟨related,nofun⟩
  | error related => exact ⟨related.1,fun fault same => by cases same; exact related.2⟩

end

theorem openMore : Blind.Carries Session.AlikeOpen Fault.OfContent Session.AlikeOpen more :=
  moreCarries Session.openBlind

theorem openTold (ceiling : Float) :
    Blind.Carries Session.AlikeOpen Fault.OfContent Session.AlikeOpen (told ceiling) :=
  toldCarries Session.openBlind ceiling (fun _ _ h => h.1.cursor.stop)

end Trail

def Fault.OfLog (fault : Fault) : Prop := fault.OfContent ∨ ∃ flaw offset, fault = .envelope flaw offset

theorem Trail.openEnvelope (field : Text) :
    Blind.Carries Session.AlikeOpen Fault.OfLog Session.AlikeOpen (envelope field) :=
  envelopeCarries Session.openBlind field

end AuditLog
