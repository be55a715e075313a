import AuditLog.Proofs.Decode
import AuditLog.Proofs.Growth
import AuditLog.Proofs.Insertion
import AuditLog.Proofs.Quotation

/-! Additions to a log. A member of which the schema knows nothing may be inserted into a record, or into a
structure within it, wherever members may stand. It turns up where it was inserted and changes nothing else:
no other field, no account, no event beside it, and no warning. -/
namespace AuditLog
open Grammar

namespace Rule
open Value

def at? : Rule → List Leg → Option Rule
  | .object noun field => fun path =>
      match path with
      | [] => some (.object noun field)
      | .field name :: rest => (field name).at? rest
      | _ => none
  | .list noun item => fun path =>
      match path with
      | [] => some (.list noun item)
      | .item _ :: rest => item.at? rest
      | _ => none
  | .nullable rule => rule.at?
  | rule => fun path =>
      match path with
      | [] => some rule
      | _ => none

variable {key : Text} {value j j' : Json} {rule : Rule} {path : Option (List Leg)}

theorem atField (noun : Text) (field : Text → Rule) (name : Text) (rest : List Leg) :
    (Rule.object noun field).at? (.field name :: rest) = (field name).at? rest := by
  simp only [at?]

theorem atStructure (noun : Text) (field : Text → Rule) (name : Text) (rest : List Leg) :
    (Rule.nullable (.object noun field)).at? (.field name :: rest) = (field name).at? rest := by
  simp only [at?]

theorem growsAt (grows : Grows key value rule path j j') {p : List Leg} (kept : path = some p) :
    rule.at? (p ++ [.field key]) = some .anything := by
  induction grows generalizing p with
  | here unknown _ =>
      cases kept
      simp only [List.nil_append,at?,unknown]
  | @member noun field name path behind ahead j j' inside ih =>
      rw [through] at kept
      split at kept
      · cases kept
      · obtain ⟨p',same,rfl⟩ := Option.map_eq_some_iff.mp kept
        rw [List.cons_append,atField]
        exact ih same
  | item _ ih =>
      obtain ⟨p',same,rfl⟩ := Option.map_eq_some_iff.mp kept
      exact ih same
  | nullable _ ih => exact ih kept

theorem atFurther (rule : Rule) : ∀ {p further : List Leg} {found : Rule}, rule.at? p = some .anything →
    rule.at? (p ++ further) = some found → found = .anything := by
  induction rule with
  | object noun field ih =>
      intro p further found here there
      cases p with
      | nil => simp only [at?] at here; cases here
      | cons leg p =>
          cases leg with
          | field name =>
              rw [List.cons_append,atField] at there
              rw [atField] at here
              exact ih name here there
          | item index => simp only [at?] at here; cases here
  | list noun item ih =>
      intro p further found here there
      cases p with
      | nil => cases here
      | cons leg p =>
          cases leg with
          | field name => cases here
          | item index => exact ih here there
  | nullable rule ih => exact fun here there => ih here there
  | anything =>
      intro p further found here there
      cases p with
      | nil =>
          cases further with
          | nil => cases there; rfl
          | cons => cases there
      | cons => cases here
  | _ =>
      intro p further found here there
      cases p <;> cases here

end Rule

namespace Account
open Value

variable {key' : Text} {held v v' : Value} {p : List Leg}

theorem gainsText (gains : Gains key' held p v v') (place : List Text)
    (apart : ¬ p ++ [.field key'] <+: place.map .field) : textAt? place v' = textAt? place v := by
  induction gains generalizing place with
  | @here fields fields' others holds =>
      cases place with
      | nil => rfl
      | cons name place =>
          have other : name ≠ key' := by
            rintro rfl
            exact apart (List.prefix_append [Leg.field name] (place.map Leg.field))
          simp only [textAt?,field?]
          rw [← others,Fields.getErase,if_neg other]
  | @field name path v v' fields fields' keys was is others _ ih =>
      cases place with
      | nil => rfl
      | cons name' place =>
          simp only [textAt?,field?]
          by_cases same : name' = name
          · subst same
            rw [was,is]
            refine ih place (fun inside => apart ?_)
            exact List.cons_prefix_cons.mpr ⟨rfl,inside⟩
          · rw [others name' same]
  | item _ _ =>
      cases place with
      | nil => rfl
      | cons name place => rfl

theorem ofSame (same : ∀ place ∈ places, textAt? place v' = textAt? place v) : of? v' = of? v := by
  simp only [places,List.forall_mem_cons] at same
  simp only [of?,places,List.findSome?_cons,List.findSome?_nil,same]

theorem accountRuled (ceiling : Float) {place : List Text} (member : place ∈ places)
    (other : place ≠ [Text.of "recipientAccountId"]) :
    (Schema.record ceiling).at? (place.map .field) = some .text := by
  simp only [places,List.mem_cons,List.not_mem_nil,or_false] at member
  rcases member with rfl | rfl | rfl
  · exact absurd rfl other
  · refine (Rule.atField _ _ _ _).trans ?_
    show Schema.userIdentity.at? _ = _
    exact Rule.atStructure _ _ _ _
  · refine (Rule.atField _ _ _ _).trans ?_
    show Schema.userIdentity.at? _ = _
    refine (Rule.atStructure _ _ _ _).trans ?_
    show Schema.sessionContext.at? _ = _
    refine (Rule.atStructure _ _ _ _).trans ?_
    show Schema.sessionIssuer.at? _ = _
    exact Rule.atStructure _ _ _ _

section
variable {ceiling : Float} {value j j' : Json}

theorem accountApart (grows : Rule.Grows key' value (Schema.record ceiling) (some p) j j')
    (own : p = [] → key' ≠ Text.of "recipientAccountId") :
    ∀ place ∈ places, ¬ p ++ [.field key'] <+: place.map Leg.field := by
  intro place among inside
  obtain ⟨further,same⟩ := inside
  by_cases other : place = [Text.of "recipientAccountId"]
  · subst other
    cases p with
    | nil =>
        cases same
        exact own rfl rfl
    | cons leg p => cases p <;> cases same
  · have ruled := accountRuled ceiling among other
    rw [← same] at ruled
    cases Rule.atFurther _ (Rule.growsAt grows rfl) ruled

theorem accountSame (grows : Rule.Grows key' value (Schema.record ceiling) (some p) j j')
    (own : p = [] → key' ≠ Text.of "recipientAccountId") (gains : Gains key' held p v v') : of? v' = of? v :=
  ofSame (fun place among => gainsText gains place (accountApart grows own place among))

end

theorem bareAccount (fields : Fields) : of? (.object (fields.erase key)) = of? (.object fields) := by
  have same (name : Text) (other : name ≠ key) (rest : List Text) :
      textAt? (name :: rest) (.object (fields.erase key)) = textAt? (name :: rest) (.object fields) := by
    simp only [textAt?,field?,Fields.getErase,if_neg other]
  refine ofSame ?_
  simp only [places,List.forall_mem_cons]
  exact ⟨same _ (by decide) _,same _ (by decide) _,same _ (by decide) _,nofun⟩

theorem resolveObject (fields : Fields) :
    resolve (.object fields) = .object (match of? (.object fields) with
      | some account => (fields.erase key).put key (.text account)
      | none => fields.erase key) := by
  simp only [resolve,bareAccount]
  cases of? (.object fields) <;> rfl

theorem resolveAccount (fields : Fields) :
    (resolve (.object fields)).field? key = (of? (.object fields)).map Value.text := by
  rw [resolveObject]
  cases of? (.object fields) with
  | none => simp [field?,Fields.getErase]
  | some account => simp [field?,Fields.getPut]

theorem resolveGains (arranged : v'.Arranged) (same : of? v' = of? v) (gains : Gains key' held p v v')
    (own : p.head? ≠ some (.field key)) (other : p = [] → key' ≠ key) :
    Gains key' held p (resolve v) (resolve v') := by
  cases gains with
  | @here fields fields' others holds =>
      cases arranged with
      | object ordered _ =>
          have apart := other rfl
          have bare : Fields.erase (Fields.erase fields' key) key' = Fields.erase fields key := by
            rw [← others]
            simp only [Fields.erase,List.filter_filter,Bool.and_comm]
          rw [resolveObject,resolveObject,same]
          cases of? (.object fields) with
          | none => exact .here bare (by rw [Fields.getErase,if_neg apart,holds])
          | some account =>
              refine .here ?_ ?_
              · rw [Fields.erasePut (Fields.eraseOrdered ordered key) apart.symm,bare]
              · rw [Fields.getPut,if_neg apart,Fields.getErase,if_neg apart,holds]
  | @field name path w w' fields fields' keys was is others inside =>
      have apart : name ≠ key := by
        rintro rfl
        exact own rfl
      rw [resolveObject,resolveObject,same]
      cases of? (.object fields) with
      | none =>
          refine .field ?_ ?_ ?_ (fun k different => ?_) inside
          · rw [Fields.keysErase,Fields.keysErase,keys]
          · rw [Fields.getErase,if_neg apart,was]
          · rw [Fields.getErase,if_neg apart,is]
          · rw [Fields.getErase,Fields.getErase,others k different]
      | some account =>
          refine .field ?_ ?_ ?_ (fun k different => ?_) inside
          · rw [Fields.keysPut,Fields.keysPut,Fields.keysErase,Fields.keysErase,keys]
          · rw [Fields.getPut,if_neg apart,Fields.getErase,if_neg apart,was]
          · rw [Fields.getPut,if_neg apart,Fields.getErase,if_neg apart,is]
          · rw [Fields.getPut,Fields.getPut,Fields.getErase,Fields.getErase,others k different]
  | item inside => exact .item inside

theorem resolveSame {fields fields' : Fields} (same : of? (.object fields') = of? (.object fields)) :
    (resolve (.object fields')).field? key = (resolve (.object fields)).field? key := by
  rw [resolveAccount,resolveAccount,same]

end Account

namespace Rule

theorem growsRoom {key : Text} {value j j' : Json} {rule : Rule} {path : Option (List Value.Leg)} {t : Text}
    (grows : Grows key value rule path j j') (spelt : Spelt (.value j) t) : Room key value t (.value j') := by
  induction grows generalizing t with
  | here => exact objectRoom spelt
  | member _ ih => exact roomContained (objectContains spelt) (fun s spelt => ih spelt)
  | item _ ih => exact roomContained (arrayContains spelt) (fun s spelt => ih spelt)
  | nullable _ ih => exact ih spelt

end Rule

namespace Reference
open Value

def recordData? (j : Json) : Option Value := (record? j).map Account.resolve

theorem recordObject {j : Json} {v : Value} (read : record? j = some v) : ∃ fields, v = .object fields := by
  cases j with
  | object members =>
      obtain ⟨entries,_,rfl⟩ := Option.map_eq_some_iff.mp read
      exact ⟨_,rfl⟩
  | _ => cases read

section
variable {key : Text} {value j j' : Json} {ceiling : Float} {path : Option (List Leg)}

theorem accountUngrown {p : List Leg} (grows : Rule.Grows key value (Schema.record ceiling) (some p) j j') :
    p.head? ≠ some (.field Account.key) := by
  intro first
  obtain ⟨rest,rfl⟩ := List.head?_eq_some_iff.mp first
  have reached := (Rule.atField _ _ _ _).symm.trans (Rule.growsAt grows rfl)
  have bare : Rule.anything.at? (rest ++ [.field key]) = some .anything := reached
  cases rest <;> cases bare

theorem growsRecord (grows : Rule.Grows key value (Schema.record ceiling) path j j')
    (own : path = some [] → key ≠ Account.key ∧ key ≠ Text.of "recipientAccountId") {d : Value}
    (told : recordData? j = some d) :
    ∃ d', recordData? j' = some d' ∧ Grown key (anything value) path d d' ∧
      d'.field? Account.key = d.field? Account.key := by
  obtain ⟨v,read,rfl⟩ := Option.map_eq_some_iff.mp told
  rw [← Schema.recordDenotes ceiling] at read
  obtain ⟨v',read',grown⟩ := Rule.growsDecode grows v read
  have arranged := (Schema.record ceiling).decodeArranged _ _ read'
  rw [Schema.recordDenotes] at read read'
  obtain ⟨fields,rfl⟩ := recordObject read
  obtain ⟨fields',rfl⟩ := recordObject read'
  refine ⟨_,by rw [recordData?,read']; rfl,?_⟩
  cases path with
  | none => rw [show Value.object fields' = .object fields from grown]; exact ⟨rfl,rfl⟩
  | some p =>
      have account := Account.accountSame grows (fun here => (own (congrArg some here)).2) grown
      have gains := Account.resolveGains arranged account grown (accountUngrown grows)
        (fun here => (own (congrArg some here)).1)
      exact ⟨gains,Account.resolveSame account⟩

end
end Reference

namespace Decoding
open Trail

def warnings (d : Decoding) : List Notice := d.notices.filter (fun n => n.level = .warn)

theorem elementsWarn (ceiling : Float) (es : List Element) :
    (es.flatMap (Element.notices ceiling)).filter (fun n => n.level = .warn) =
      (es.map Element.item).flatMap (Schema.record ceiling).remarks := by
  have one (e : Element) : (e.notices ceiling).filter (fun n => n.level = .warn) =
      (Schema.record ceiling).remarks e.item := by
    rw [Element.notices,List.filter_append,List.filter_eq_self.mpr (fun n member => ?_)]
    · exact List.append_nil _
    · exact decide_eq_true (Rule.remarksWarn _ member)
  rw [List.filter_flatMap,List.flatMap_map]
  simp only [one]

theorem eventsData {provenance : Provenance} {es : List Element} {events : List Event}
    (made : es.mapM (Element.event? provenance) = some events) :
    (es.map Element.item).mapM Reference.recordData? = some (events.map Event.data) := by
  induction es generalizing events with
  | nil => cases made; rfl
  | cons e es ih =>
      rw [List.mapM_cons] at made
      obtain ⟨event,one,made⟩ := Option.bind_eq_some_iff.mp made
      obtain ⟨later,others,made⟩ := Option.bind_eq_some_iff.mp made
      cases made
      obtain ⟨v,read,rfl⟩ := Option.map_eq_some_iff.mp one
      rw [List.map_cons,List.mapM_cons,ih others,Reference.recordData?,read]
      rfl

structure Laid (field t front array rest : Text) (items : List Json) : Prop where
  whole : t = front ++ array ++ rest
  front : Front field front
  array : Spelt (.value (.array items)) array

theorem laidTells {options : Options} (raw : Bool) {t front array rest : Text} {items : List Json}
    (laid : Laid options.recordsField t front array rest items)
    (accepted : ∀ j ∈ items, (Reference.record? j).isSome = true) :
    (ofText options raw t).failure = none ∧
      items.mapM Reference.recordData? = some ((ofText options raw t).events.map Event.data) ∧
      (ofText options raw t).warnings = items.flatMap (Schema.record options.ceiling).remarks := by
  obtain ⟨es,_,_,_,rfl,ended,made,noted⟩ := textDecoded options raw laid.whole laid.front laid.array accepted
  refine ⟨ended,eventsData made,?_⟩
  rw [warnings,noted,elementsWarn]

/-- The log decodes as it did, but that the event of this number has grown. -/
structure Enlarged (options : Options) (raw : Bool) (t t' : Text) (number : Nat) (key : Text) (held : Value)
    (path : Option (List Value.Leg)) : Prop where
  accepted : (ofText options raw t').failure = none
  warnings : (ofText options raw t').warnings = (ofText options raw t).warnings
  events : ∃ before d d' after, before.length = number ∧
    (ofText options raw t).events.map Event.data = before ++ d :: after ∧
    (ofText options raw t').events.map Event.data = before ++ d' :: after ∧
    Value.Grown key held path d d' ∧ d'.field? Account.key = d.field? Account.key

section
variable {options : Options} {raw : Bool} {t front array rest : Text} {behind ahead : List Json} {key : Text}
  {value j j' : Json} {path : Option (List Value.Leg)}

theorem laidEnlarged (ended : (ofText options raw t).failure = none)
    (laid : Laid options.recordsField t front array rest (behind ++ j :: ahead))
    (grows : Rule.Grows key value (Schema.record options.ceiling) path j j')
    (own : path = some [] → key ≠ Account.key ∧ key ≠ Text.of "recipientAccountId") {t' array' : Text}
    (laid' : Laid options.recordsField t' front array' rest (behind ++ j' :: ahead)) :
    Enlarged options raw t t' behind.length key (Reference.anything value) path := by
  have accepted := endsAccepted ended laid.whole laid.front laid.array
  obtain ⟨_,made,noted⟩ := laidTells raw laid accepted
  obtain ⟨before,d,after,events,size,told,put⟩ := Reference.mapReplaced made
  obtain ⟨d',told',grown,account⟩ := Reference.growsRecord grows own told
  have accepted' : ∀ x ∈ behind ++ j' :: ahead, (Reference.record? x).isSome = true := by
    obtain ⟨first,rest⟩ := List.forall_mem_append.mp accepted
    refine List.forall_mem_append.mpr ⟨first,List.forall_mem_cons.mpr ⟨?_,(List.forall_mem_cons.mp rest).2⟩⟩
    obtain ⟨v',read',_⟩ := Option.map_eq_some_iff.mp told'
    rw [read']
    rfl
  obtain ⟨ended',made',noted'⟩ := laidTells raw laid' accepted'
  refine ⟨ended',?_,before,d,d',after,size,events,?_,grown,account⟩
  · rw [noted,noted',List.flatMap_append,List.flatMap_cons,List.flatMap_append,List.flatMap_cons,
      Rule.growsRemarks grows]
  · exact Option.some.inj (made'.symm.trans (put _ _ told'))

/-- Into every record of a log that decodes, and into every structure within it that is read by fields, a
member can be inserted at every place where members stand, if its name is new there, has no rule there,
and is not one that tells the account. However the list is then spelt, the log decodes to the same events
with the same warnings, but that the structure has this one field more, with the member's value as it is
kept without a rule. -/
theorem additionsKept (options : Options) (raw : Bool) (t : Text) (ended : (ofText options raw t).failure = none) :
    (∃ front array rest items, Laid options.recordsField t front array rest items) ∧
      ∀ front array rest behind j ahead, Laid options.recordsField t front array rest (behind ++ j :: ahead) →
        ∀ key value path j', Rule.Grows key value (Schema.record options.ceiling) path j j' →
          (path = some [] → key ≠ Account.key ∧ key ≠ Text.of "recipientAccountId") →
          Room key value array (.value (.array (behind ++ j' :: ahead))) ∧
            ∀ array', Spelt (.value (.array (behind ++ j' :: ahead))) array' →
              Enlarged options raw t (front ++ array' ++ rest) behind.length key (Reference.anything value) path := by
  refine ⟨?_,fun front array rest behind j ahead laid key value path j' grows own => ⟨?_,fun array' spelt' => ?_⟩⟩
  · obtain ⟨front,array,rest,items,whole,is,spelt⟩ := endsListed ended
    exact ⟨front,array,rest,items,whole,is,spelt⟩
  · exact roomContained (arrayContains laid.array) (fun s spelt => Rule.growsRoom grows spelt)
  · exact laidEnlarged ended laid grows own ⟨rfl,laid.front,spelt'⟩

theorem additionKeptBeforeMember :
    Enlarged Options.standard true (Text.of "\x7b\"Records\":[\x7b\"a\":0\x7d]\x7d")
      (Text.of "\x7b\"Records\":[\x7b\"__proto__\":[],\"a\":0\x7d]\x7d") 0 (Text.of "__proto__")
      (.text (Text.of "[]")) (some []) := by
  have front : Front (Text.of "Records") (Text.of "\x7b\"Records\":") :=
    .mk (.inl rfl) blankNil blankNil (Quoted.quoteSpells (Text.of "Records")) blankNil blankNil
  have member := Spelt.member (Quoted.quoteSpells (Text.of "a")) blankNil blankNil
    (.number (.positive .zero .none .none))
  have added := Spelt.member (Quoted.quoteSpells (Text.of "__proto__")) blankNil blankNil (.emptyArray blankNil)
  have record := Spelt.object blankNil member (.noMember blankNil)
  have record' := Spelt.object blankNil added (.nextMember blankNil blankNil member (.noMember blankNil))
  have array := Spelt.array blankNil record (.noItem blankNil)
  have array' := Spelt.array blankNil record' (.noItem blankNil)
  have inserted : Rule.Grows (Text.of "__proto__") (.array []) (Schema.record Terms.standardCeiling) (some [])
      (.object [(Text.of "a",.number [0x30])])
      (.object [(Text.of "__proto__",.array []),(Text.of "a",.number [0x30])]) :=
    @Rule.Grows.here _ _ _ _ [] _ rfl (by decide)
  have kept := additionsKept Options.standard true (Text.of "\x7b\"Records\":[\x7b\"a\":0\x7d]\x7d")
    (by decide +kernel)
  exact (kept.2 _ _ (Text.of "\x7d") [] _ [] ⟨rfl,front,array⟩ _ _ _ _ inserted (fun _ => by decide)).2 _ array'

end
end Decoding
end AuditLog
