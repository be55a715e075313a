import AuditLog.Proofs.Grammar
import AuditLog.Proofs.Lexeme

/-! Changes of a text. A value inside a text may be spelt in another way or replaced by another value, and
an object has room for a further member at every place between its members. -/
namespace AuditLog.Grammar

def Contains (t : Text) (part part' whole : Phrase) : Prop :=
  ∃ x s y, t = x ++ s ++ y ∧ Spelt part s ∧ ∀ s', Spelt part' s' → Spelt whole (x ++ s' ++ y)

def Room (name : Text) (j : Json) (t : Text) (whole : Phrase) : Prop :=
  ∃ a b lead trail, t = a ++ b ∧ (lead ++ trail = [] ∨ lead ++ trail = [0x2C]) ∧
    ∀ w m w', Blank w → Spelt (.member name j) m → Blank w' →
      Spelt whole (a ++ (lead ++ w ++ m ++ w' ++ trail) ++ b)

section
variable {part part' whole outer : Phrase} {name key : Text} {j j' value : Json} {t : Text}

theorem containsSelf (spelt : Spelt part t) : Contains t part part' part' :=
  ⟨[],t,[],by simp,spelt,fun s' spelt' => by simpa using spelt'⟩

theorem containsIn (inner : Contains t part part' whole) (a b : Text)
    (around : ∀ s, Spelt whole s → Spelt outer (a ++ s ++ b)) : Contains (a ++ t ++ b) part part' outer := by
  obtain ⟨x,s,y,rfl,spelt,put⟩ := inner
  refine ⟨a ++ x,s,y ++ b,by simp,spelt,fun s' spelt' => ?_⟩
  have outside := around _ (put s' spelt')
  simpa using outside

theorem roomIn (inner : Room name j t whole) (a b : Text)
    (around : ∀ s, Spelt whole s → Spelt outer (a ++ s ++ b)) : Room name j (a ++ t ++ b) outer := by
  obtain ⟨x,y,lead,trail,rfl,comma,put⟩ := inner
  refine ⟨a ++ x,y ++ b,lead,trail,by simp,comma,fun w m w' before member behind => ?_⟩
  have outside := around _ (put w m w' before member behind)
  simpa using outside

theorem roomContained (contains : Contains t part part' whole) (room : ∀ s, Spelt part s → Room name j s part') :
    Room name j t whole := by
  obtain ⟨x,s,y,rfl,spelt,put⟩ := contains
  exact roomIn (room s spelt) x y put

theorem memberContains (spelt : Spelt (.member name j) t) :
    Contains t (.value j) (.value j') (.member name j') := by
  cases spelt with
  | @member q _ w w' _ s quotation before behind value =>
      have inner : Contains s (.value j) (.value j') (.value j') := containsSelf value
      have contains := containsIn inner (q ++ w ++ 0x3A :: w') []
        (fun s' spelt' => by simpa using Spelt.member quotation before behind spelt')
      simpa using contains

theorem membersContain {behind ahead : List (Text × Json)} (spelt : Spelt (.members (behind ++ (name,j) :: ahead)) t) :
    Contains t (.value j) (.value j') (.members (behind ++ (name,j') :: ahead)) := by
  induction behind generalizing t with
  | nil =>
      cases spelt with
      | @nextMember w w' _ _ s _ r before behind member rest =>
          exact containsIn (memberContains member) (w ++ 0x2C :: w') r
            (fun s' spelt' => .nextMember before behind spelt' rest)
  | cons m behind ih =>
      cases spelt with
      | @nextMember w w' _ _ s _ r before behind' member rest =>
          have contains := containsIn (ih rest) (w ++ 0x2C :: w' ++ s) []
            (fun r' rest' => by simpa using Spelt.nextMember before behind' member rest')
          simpa using contains

theorem objectContains {behind ahead : List (Text × Json)}
    (spelt : Spelt (.value (.object (behind ++ (name,j) :: ahead))) t) :
    Contains t (.value j) (.value j') (.value (.object (behind ++ (name,j') :: ahead))) := by
  cases behind with
  | nil =>
      cases spelt with
      | @object w _ _ s _ r blank member rest =>
          exact containsIn (memberContains member) (0x7B :: w) r (fun s' spelt' => .object blank spelt' rest)
  | cons m behind =>
      cases spelt with
      | @object w _ _ s _ r blank member rest =>
          have later : Contains r (.value j) (.value j') (.members (behind ++ (name,j') :: ahead)) := membersContain rest
          have contains := containsIn later (0x7B :: w ++ s) []
            (fun r' rest' => by simpa using Spelt.object blank member rest')
          simpa using contains

theorem itemsContain {behind ahead : List Json} (spelt : Spelt (.items (behind ++ j :: ahead)) t) :
    Contains t (.value j) (.value j') (.items (behind ++ j' :: ahead)) := by
  induction behind generalizing t with
  | nil =>
      cases spelt with
      | @item w w' _ s _ r before behind value rest =>
          exact containsIn (containsSelf value) (w ++ 0x2C :: w') r
            (fun s' spelt' => .item before behind spelt' rest)
  | cons i behind ih =>
      cases spelt with
      | @item w w' _ s _ r before behind' value rest =>
          have contains := containsIn (ih rest) (w ++ 0x2C :: w' ++ s) []
            (fun r' rest' => by simpa using Spelt.item before behind' value rest')
          simpa using contains

theorem arrayContains {behind ahead : List Json} (spelt : Spelt (.value (.array (behind ++ j :: ahead))) t) :
    Contains t (.value j) (.value j') (.value (.array (behind ++ j' :: ahead))) := by
  cases behind with
  | nil =>
      cases spelt with
      | @array w _ s _ r blank value rest =>
          exact containsIn (containsSelf value) (0x5B :: w) r (fun s' spelt' => .array blank spelt' rest)
  | cons i behind =>
      cases spelt with
      | @array w _ s _ r blank value rest =>
          have later : Contains r (.value j) (.value j') (.items (behind ++ j' :: ahead)) := itemsContain rest
          have contains := containsIn later (0x5B :: w ++ s) []
            (fun r' rest' => by simpa using Spelt.array blank value rest')
          simpa using contains

theorem membersBlank {members : List (Text × Json)} (spelt : Spelt (.members members) t) {w : Text} (blank : Blank w) :
    Spelt (.members members) (w ++ t) := by
  cases spelt with
  | noMember behind => simpa using Spelt.noMember (blankAppend blank behind)
  | nextMember before behind member rest =>
      simpa using Spelt.nextMember (blankAppend blank before) behind member rest

theorem membersRoom {behind ahead : List (Text × Json)} (spelt : Spelt (.members (behind ++ ahead)) t) :
    Room key value t (.members (behind ++ (key,value) :: ahead)) := by
  induction behind generalizing t with
  | nil =>
      refine ⟨[],t,[0x2C],[],rfl,.inr rfl,fun w m w' before member behind => ?_⟩
      have one := Spelt.nextMember blankNil before member (membersBlank spelt behind)
      simpa using one
  | cons m behind ih =>
      cases spelt with
      | @nextMember w w' _ _ s _ r before behind' member rest =>
          have room := roomIn (ih rest) (w ++ 0x2C :: w' ++ s) []
            (fun r' rest' => by simpa using Spelt.nextMember before behind' member rest')
          simpa using room

theorem objectRoom {behind ahead : List (Text × Json)} (spelt : Spelt (.value (.object (behind ++ ahead))) t) :
    Room key value t (.value (.object (behind ++ (key,value) :: ahead))) := by
  cases behind with
  | nil =>
      cases ahead with
      | nil =>
          cases spelt with
          | @emptyObject w₀ blank =>
              refine ⟨[0x7B],w₀ ++ [0x7D],[],[],rfl,.inl rfl,fun w m w' before member behind => ?_⟩
              have one := Spelt.object before member (.noMember (blankAppend behind blank))
              simpa using one
      | cons first ahead =>
          cases spelt with
          | @object w₀ _ _ s _ r blank one rest =>
              refine ⟨[0x7B],w₀ ++ s ++ r,[],[0x2C],by simp,.inr rfl,fun w m w' before member behind => ?_⟩
              have both := Spelt.object before member (.nextMember behind blank one rest)
              simpa using both
  | cons m behind =>
      cases spelt with
      | @object w _ _ s _ r blank member rest =>
          have later : Room key value r (.members (behind ++ (key,value) :: ahead)) := membersRoom rest
          have room := roomIn later (0x7B :: w ++ s) []
            (fun r' rest' => by simpa using Spelt.object blank member rest')
          simpa using room

end
end AuditLog.Grammar
