import AuditLog.Decoding
import AuditLog.Proofs.Balance
import AuditLog.Proofs.Record

/-! The envelope of a log: an object whose first field holds the list of records. The grammar of such
a document tells where each element of the list stands; what the envelope reader accepts is read up
to the list. -/
namespace AuditLog
open Reading Reader Grammar

structure Element where
  item : Json
  start : Nat
  source : Text

def Element.stop (e : Element) : Nat := e.start + e.source.length

def Element.event? (provenance : Provenance) (e : Element) : Option Event :=
  (Reference.record? e.item).map (fun v =>
    ⟨Account.resolve v,provenance.metadata (.counted e.start) (.counted e.stop)⟩)

def Element.notices (ceiling : Float) (e : Element) : List Notice :=
  (Schema.record ceiling).remarks e.item ++
    [.decoded e.start e.stop ((Reference.record? e.item).bind (fun v => Trail.identifier? (Account.resolve v)))]

namespace Grammar

/-- What follows in an array from this place on; each element comes behind `lead`, later ones behind a comma. -/
inductive Listed : (lead : Text) → Nat → List Element → Text → Prop where
  | none {lead place w} (blank : Blank w) : Listed lead place [] (w ++ [0x5D])
  | some {lead place w w' e es r} (before : Blank w) (behind : Blank w')
      (start : e.start = place + (w ++ lead ++ w').length) (value : Spelt (.value e.item) e.source)
      (rest : Listed [0x2C] e.stop es r) : Listed lead place (e :: es) (w ++ lead ++ w' ++ e.source ++ r)

inductive Leading : (lead : Text) → Nat → List Element → Text → Prop where
  | none {lead place} : Leading lead place [] []
  | some {lead place w w' e es r} (before : Blank w) (behind : Blank w')
      (start : e.start = place + (w ++ lead ++ w').length) (value : Spelt (.value e.item) e.source)
      (rest : Leading [0x2C] e.stop es r) : Leading lead place (e :: es) (w ++ lead ++ w' ++ e.source ++ r)

/-- What comes before the list of records in this field, which has to be the first. -/
inductive Front (field : Text) : Text → Prop where
  | mk {b w w₁ q w₂ w₃} (mark : Mark b) (blank : Blank w) (inside : Blank w₁) (name : Quotation q field)
      (before : Blank w₂) (behind : Blank w₃) : Front field (b ++ w ++ 0x7B :: w₁ ++ q ++ w₂ ++ 0x3A :: w₃)

theorem listedItems {place : Nat} {es : List Element} {r : Text} (listed : Listed [0x2C] place es r) :
    Spelt (.items (es.map Element.item)) r := by
  generalize same : ([0x2C] : Text) = lead at listed
  induction listed with
  | none blank => exact .noItem blank
  | some before behind _ value _ ih =>
      subst same
      have spelt := Spelt.item before behind value (ih rfl)
      simpa using spelt

theorem listedArray {place : Nat} {es : List Element} {r : Text} (listed : Listed [] place es r) :
    Spelt (.value (.array (es.map Element.item))) (0x5B :: r) := by
  cases listed with
  | none blank => exact .emptyArray blank
  | some before behind _ value rest =>
      have spelt := Spelt.array (blankAppend before behind) value (listedItems rest)
      simpa using spelt

theorem itemsListed (items : List Json) {r : Text} (spelt : Spelt (.items items) r) (place : Nat) :
    ∃ es, es.map Element.item = items ∧ Listed [0x2C] place es r := by
  induction items generalizing r place with
  | nil => cases spelt with | noItem blank => exact ⟨[],rfl,.none blank⟩
  | cons j js ih =>
      cases spelt with
      | @item w w' _ s _ r before behind value rest =>
          let e : Element := ⟨j,place + (w ++ [0x2C] ++ w').length,s⟩
          obtain ⟨es,same,listed⟩ := ih rest e.stop
          refine ⟨e :: es,by rw [List.map_cons,same],?_⟩
          have one := Listed.some (e := e) before behind rfl value listed
          simpa using one

theorem arrayListed {items : List Json} {array : Text} (spelt : Spelt (.value (.array items)) array)
    (place : Nat) :
    ∃ es r, array = 0x5B :: r ∧ es.map Element.item = items ∧ Listed [] place es r := by
  cases spelt with
  | @emptyArray w blank => exact ⟨[],w ++ [0x5D],rfl,rfl,.none blank⟩
  | @array w j s js r blank first rest =>
      let e : Element := ⟨j,place + (w ++ [] ++ []).length,s⟩
      obtain ⟨es,same,listed⟩ := itemsListed js rest e.stop
      have one := Listed.some (e := e) blank blankNil rfl first listed
      exact ⟨e :: es,_,by simp [e],by rw [List.map_cons,same],one⟩

theorem leadingPlaces {lead r : Text} {place : Nat} {es : List Element} (leading : Leading lead place es r)
    (before more : Text) (here : before.length = place) (e : Element) (member : e ∈ es) :
    ((before ++ r ++ more).drop e.start).take e.source.length = e.source := by
  induction leading generalizing before with
  | none => cases member
  | @some lead place w w' f es r _ _ start _ _ ih =>
      subst here
      rcases List.mem_cons.mp member with rfl | later
      · have split : before ++ (w ++ lead ++ w' ++ e.source ++ r) ++ more =
            (before ++ (w ++ lead ++ w')) ++ (e.source ++ (r ++ more)) := by simp
        rw [split,start,← List.length_append,List.drop_left,List.take_left]
      · have split : before ++ (w ++ lead ++ w' ++ f.source ++ r) ++ more =
            (before ++ (w ++ lead ++ w') ++ f.source) ++ r ++ more := by simp
        rw [split]
        refine ih _ ?_ later
        rw [List.length_append,List.length_append,← start]
        rfl

theorem leadingEnds {lead r : Text} {place : Nat} {es : List Element} (leading : Leading lead place es r) :
    place ≤ place + r.length ∧ ∀ e ∈ es, e.stop ≤ place + r.length := by
  refine ⟨Nat.le_add_right _ _,?_⟩
  induction leading with
  | none => nofun
  | @some lead place w w' e es r _ _ start _ _ ih =>
      have stop : e.stop = place + (w ++ lead ++ w' ++ e.source).length := by
        simp only [Element.stop,start,List.length_append,Nat.add_assoc]
      rw [List.length_append,← Nat.add_assoc,← stop]
      exact List.forall_mem_cons.mpr ⟨Nat.le_add_right _ _,ih⟩

theorem leadingCloses {lead r w : Text} {place : Nat} {es : List Element} (leading : Leading lead place es r)
    (blank : Blank w) : Listed lead place es (r ++ (w ++ [0x5D])) := by
  induction leading with
  | none => exact .none blank
  | some before behind start value _ ih =>
      have one := Listed.some before behind start value ih
      simpa using one

theorem listedLeading {lead r : Text} {place : Nat} {es : List Element} (listed : Listed lead place es r) :
    ∃ r' w, r = r' ++ (w ++ [0x5D]) ∧ Blank w ∧ Leading lead place es r' := by
  induction listed with
  | none blank => exact ⟨[],_,rfl,blank,.none⟩
  | some before behind start value _ ih =>
      obtain ⟨r',w,rfl,blank,leading⟩ := ih
      exact ⟨_,w,(List.append_assoc _ _ _).symm,blank,.some before behind start value leading⟩

theorem listedPlaces {lead r : Text} {place : Nat} {es : List Element} (listed : Listed lead place es r)
    (before more : Text) (here : before.length = place) (e : Element) (member : e ∈ es) :
    ((before ++ r ++ more).drop e.start).take e.source.length = e.source := by
  obtain ⟨r',w,rfl,_,leading⟩ := listedLeading listed
  have places := leadingPlaces leading before (w ++ [0x5D] ++ more) here e member
  simpa using places

end Grammar

namespace Cursor

def Awaits (c : Cursor) (lead : Text) (around : List Container) : Prop :=
  lead = [] ∧ On c (.opening .array) around ∨ lead = [0x2C] ∧ Over c (.array :: around)

theorem awaitsEntry {c : Cursor} {lead : Text} {around : List Container} (awaits : Awaits c lead around) :
    Entry c .array around := by
  rcases awaits with ⟨_,on⟩ | ⟨_,beyond⟩
  · exact onEntry on
  · exact overEntry beyond

theorem awaitsFits {c : Cursor} {lead w w' : Text} {around : List Container} {token : Token}
    (awaits : Awaits c lead around) (starts : StartsValue token) (before : Blank w) (behind : Blank w') :
    ∃ separator, Fits c.expecting c.nesting.head? token separator ∧
      Gap c.input.position separator (w ++ lead ++ w') := by
  rcases awaits with ⟨rfl,on⟩ | ⟨rfl,beyond⟩
  · refine ⟨none,by rw [on.expecting]; exact .firstItem starts,?_⟩
    rw [List.append_nil]
    exact .blank (.inl (blankAppend before behind))
  · refine ⟨some 0x2C,?_,?_⟩
    · rw [(commaFits beyond).1,(commaFits beyond).2]; exact .item starts
    · rw [List.append_assoc,List.singleton_append]
      exact .separated (.inl before) behind

theorem awaitsEnd {c : Cursor} {lead : Text} {around : List Container} (awaits : Awaits c lead around) :
    c.nesting = .array :: around ∧ Fits c.expecting (some .array) (.closing .array) none := by
  rcases awaits with ⟨_,on⟩ | ⟨_,beyond⟩
  · exact ⟨on.nesting,by rw [on.expecting]; exact .noItem⟩
  · exact ⟨beyond.nesting,by rw [(commaFits beyond).1]; exact .lastItem⟩

theorem awaitsGap {c d : Cursor} {lead gap source : Text} {around : List Container} {token : Token}
    (awaits : Awaits c lead around) (past : Past c) (taken : Taken c gap token source d) :
    (token = .closing .array ∧ Blank gap) ∨
      StartsValue token ∧ ∃ w w', gap = w ++ lead ++ w' ∧ Blank w ∧ Blank w' := by
  obtain ⟨separator,fits,before⟩ := taken.before
  rcases awaits with ⟨rfl,on⟩ | ⟨rfl,beyond⟩
  · rw [on.expecting] at fits
    cases fits with
    | firstItem starts =>
        cases before with
        | blank margin => exact .inr ⟨starts,gap,[],by simp,marginInside margin past.inside,blankNil⟩
    | noItem =>
        cases before with
        | blank margin => exact .inl ⟨rfl,marginInside margin past.inside⟩
  · rw [(commaFits beyond).1,(commaFits beyond).2] at fits
    cases fits with
    | item starts =>
        cases before with
        | @separated w _ w' margin behind =>
            exact .inr ⟨starts,w,w',by simp,marginInside margin past.inside,behind⟩
    | lastItem =>
        cases before with
        | blank margin => exact .inl ⟨rfl,marginInside margin past.inside⟩

theorem awaitsClosing {c d : Cursor} {lead : Text} {around : List Container} {token : Option Token}
    (awaits : Awaits c lead around) (past : Past c) (stepped : c.next = (.ok token,d))
    (other : ∀ found, token = some found → ¬ StartsValue found) :
    ∃ w, Blank w ∧ c.input.rest = w ++ [0x5D] ++ d.input.rest := by
  have ready := (awaitsEntry awaits).ready
  cases token with
  | none =>
      have ended := (nextEnd ready stepped).1
      rcases awaits with ⟨_,on⟩ | ⟨_,beyond⟩
      · rw [on.expecting] at ended
        rcases ended with ended | ended <;> cases ended
      · rw [(commaFits beyond).1] at ended
        rcases ended with ended | ended <;> cases ended
  | some found =>
      obtain ⟨gap,source,taken⟩ := nextTaken ready stepped
      rcases awaitsGap awaits past taken with ⟨rfl,blank⟩ | ⟨starts,_⟩
      · have rest := taken.rest
        cases taken.lexeme
        exact ⟨gap,blank,rest⟩
      · exact absurd starts (other found rfl)

end Cursor

namespace Trail
open Cursor

theorem demandRun {wanted : Token} {flaw : EnvelopeFlaw} {s s' : Session} {token : Option Token}
    (read : next.run s = (.ok token,s')) :
    (demand wanted flaw).run s =
      if token = some wanted then (.ok (),s') else (.error (.envelope flaw s'.cursor.start),s') := by
  simp only [demand,runBind,read,runState]
  split <;> rfl

theorem demandOk {wanted : Token} {flaw : EnvelopeFlaw} {s s' : Session}
    (ran : (demand wanted flaw).run s = (.ok (),s')) :
    s.cursor.next = (.ok (some wanted),s'.cursor) := by
  obtain ⟨token,t,read,_⟩ := okBind ran
  rw [demandRun read] at ran
  split at ran
  · rename_i same
    cases ran
    rw [← same]
    exact Reader.readNext read
  · cases ran

theorem demandTaken {wanted : Token} (flaw : EnvelopeFlaw) {s : Session} {d : Cursor}
    (stepped : s.cursor.next = (.ok (some wanted),d)) :
    (demand wanted flaw).run s = (.ok (),{ s with cursor := d }) := by
  rw [demandRun (nextRun stepped),if_pos rfl]

structure AtList (s : Session) (place : Nat) (more : Text) : Prop where
  stands : s.cursor.current = some (.opening .array)
  on : On s.cursor (.opening .array) [.object]
  past : Past s.cursor
  position : s.cursor.input.position = place
  rest : s.cursor.input.rest = more

theorem envelopeFound {field : Text} {source : Source} {s : Session} (sound : source.broken = none)
    (ran : (envelope field).run (.ofSource source) = (.ok (),s)) :
    ∃ front more, source.pending.flatten = front ++ 0x5B :: more ∧ Front field front ∧
      AtList s (front.length + 1) more := by
  obtain ⟨_,s₁,first,ran⟩ := okBind ran
  obtain ⟨_,s₂,second,third⟩ := okBind ran
  have ready : (Cursor.ofSource source).Ready := ⟨rfl,sound,nofun⟩
  have origin : (Cursor.ofSource source).input.position = 0 := rfl
  obtain ⟨gap₁,source₁,taken₁⟩ := nextTaken ready (demandOk first)
  obtain ⟨gap₂,name,taken₂⟩ := nextTaken taken₁.ready (demandOk second)
  obtain ⟨gap₃,source₃,taken₃⟩ := nextTaken taken₂.ready (demandOk third)
  have on₁ := takenOn taken₁
  have on₂ := takenOn taken₂
  have past₁ := (takenPast taken₁).inside
  have past₂ := (takenPast taken₂).inside
  obtain ⟨_,fits₁,before₁⟩ := taken₁.before
  obtain ⟨_,fits₂,before₂⟩ := taken₂.before
  obtain ⟨_,fits₃,before₃⟩ := taken₃.before
  rw [on₁.expecting] at fits₂
  rw [on₂.expecting] at fits₃
  cases fits₁; cases fits₂; cases fits₃
  cases before₁ with
  | blank margin₁ =>
      cases before₂ with
      | blank margin₂ =>
          cases before₃ with
          | @separated w₂ _ w₃ margin₃ behind =>
              obtain ⟨b,w,rfl,mark,blank⟩ := marginMark.mp margin₁
              have quotation := Lexer.fieldQuotation taken₂.lexeme
              have front := Front.mk mark blank (marginInside margin₂ past₁) quotation
                (marginInside margin₃ past₂) behind
              have rest₁ := taken₁.rest
              have place₁ := takenPlace taken₁
              have place₃ := takenPlace taken₃
              cases taken₁.lexeme
              cases taken₃.lexeme
              rw [takenPlace taken₂,place₁] at place₃
              rw [taken₂.rest,taken₃.rest] at rest₁
              refine ⟨_,s.cursor.input.rest,?_,front,nextCurrent (demandOk third),?_,takenPast taken₃,?_,rfl⟩
              · exact rest₁.trans (by simp)
              · have on₃ := takenOn taken₃
                have nesting₂ : s₂.cursor.nesting = s₁.cursor.nesting := on₂.nesting
                rw [nesting₂,on₁.nesting] at on₃
                exact on₃
              · rw [place₃,origin]
                simp only [List.length_append,List.length_cons,List.length_nil]
                omega

theorem envelopeRead {field front more : Text} {source : Source} (sound : source.broken = none)
    (same : source.pending.flatten = front ++ 0x5B :: more) (is : Front field front) :
    ∃ s, (envelope field).run (.ofSource source) = (.ok (),s) ∧ AtList s (front.length + 1) more ∧ s.noted = [] := by
  have ready : (Cursor.ofSource source).Ready := ⟨rfl,sound,nofun⟩
  have origin : (Cursor.ofSource source).input.position = 0 := rfl
  cases is with
  | @mk b w w₁ name w₂ w₃ mark blank inside quotation before behind =>
      have all : (Cursor.ofSource source).input.rest =
          (b ++ w) ++ [0x7B] ++ (w₁ ++ name ++ ((w₂ ++ 0x3A :: w₃) ++ [0x5B] ++ more)) := by
        refine same.trans ?_
        simp
      have fits₁ : Fits .root none (.opening .object) none := .root trivial
      obtain ⟨c₁,stepped₁,taken₁,on₁,rest₁,place₁⟩ := oneTaken ready all fits₁
        (.blank (marginMark.mpr ⟨b,w,rfl,mark,blank⟩)) .openObject trivial
      have nesting₁ : c₁.nesting = [.object] := on₁.nesting
      obtain ⟨c₂,stepped₂,taken₂,on₂,rest₂,place₂⟩ := oneTaken taken₁.ready rest₁
        (by rw [on₁.expecting]; exact .firstMember) (.blank (.inl inside)) (.field quotation) trivial
      have fits₃ : Fits .colon c₂.nesting.head? (.opening .array) (some 0x3A) := .value trivial
      obtain ⟨c₃,stepped₃,taken₃,on₃,rest₃,place₃⟩ := oneTaken taken₂.ready rest₂
        (by rw [on₂.expecting]; exact fits₃) (.separated (.inl before) behind) .openArray trivial
      have nesting₂ : c₂.nesting = c₁.nesting := on₂.nesting
      rw [nesting₂,nesting₁] at on₃
      refine ⟨⟨c₃,[]⟩,?_,⟨nextCurrent stepped₃,on₃,takenPast taken₃,?_,rest₃⟩,rfl⟩
      · have first : (demand (.opening .object) .notObject).run (.ofSource source) = (.ok (),⟨c₁,[]⟩) :=
          demandTaken _ stepped₁
        have second : (demand (.field field) (.firstField field)).run ⟨c₁,[]⟩ = (.ok (),⟨c₂,[]⟩) :=
          demandTaken _ stepped₂
        have third : (demand (.opening .array) (.notArray field)).run ⟨c₂,[]⟩ = (.ok (),⟨c₃,[]⟩) :=
          demandTaken _ stepped₃
        simp only [envelope,runBind,first,second,third]
      · rw [place₃,place₂,place₁,origin]
        simp only [List.length_append,List.length_cons,List.length_nil]
        omega

end Trail
end AuditLog
