import AuditLog.Proofs.Harvest
import AuditLog.Proofs.Quotation

/-! Lines of output. The line of an event is one JSON value: its numbers are counts in decimal, and
all else in it is quoted, named, or nested. -/
namespace AuditLog
open Grammar

namespace Text

theorem digitPlain : ∀ n < 10, isDigit (digit n) = true ∧ (digit n = 0x30 → n = 0) := by decide

theorem digitsSpell {n : Nat} (positive : 0 < n) :
    ∃ d ds, (digitsUp n).reverse = d :: ds ∧ isDigit d = true ∧ d ≠ 0x30 ∧ AllDigits ds := by
  induction n using Nat.strongRecOn with
  | _ n ih =>
      have small : n % 10 < 10 := Nat.mod_lt _ (by decide)
      obtain ⟨plain,zero⟩ := digitPlain (n % 10) small
      rw [digitsUp,dif_neg (Nat.pos_iff_ne_zero.mp positive),List.reverse_cons]
      by_cases more : 0 < n / 10
      · obtain ⟨d,ds,same,first,nonzero,others⟩ := ih (n / 10) (Nat.div_lt_self positive (by decide)) more
        refine ⟨d,ds ++ [digit (n % 10)],by rw [same]; rfl,first,nonzero,fun u member => ?_⟩
        rcases List.mem_append.mp member with before | last
        · exact others u before
        · rw [List.mem_singleton.mp last]; exact plain
      · have none : n / 10 = 0 := by omega
        refine ⟨digit (n % 10),[],by rw [none,digitsUp]; rfl,plain,fun same => ?_,?_⟩
        · have := zero same
          omega
        · exact fun u member => absurd member List.not_mem_nil

theorem numberOfNat (n : Nat) : Number (ofNat n) := by
  have whole : Whole (ofNat n) := by
    unfold ofNat
    split
    · exact .zero
    · rename_i nonzero
      obtain ⟨d,ds,same,first,nonzero,others⟩ := digitsSpell (Nat.pos_of_ne_zero nonzero)
      rw [same]
      exact .digits first nonzero others
  have number := Number.positive whole .none .none
  rwa [List.append_nil,List.append_nil] at number

end Text

namespace Json
variable {j : Json} {items : List Json} {members : List (Text × Json)}

theorem arrayNumeric (inside : Numeric (itemTokens items)) : Numeric (Json.array items).tokens :=
  numericOpening.mpr (numericAppend.mpr ⟨inside,numericLeaf nofun⟩)

theorem objectNumeric (inside : Numeric (memberTokens members)) : Numeric (Json.object members).tokens :=
  numericOpening.mpr (numericAppend.mpr ⟨inside,numericLeaf nofun⟩)

theorem noneNumeric : Numeric [] := nofun

theorem memberNumeric (name : Text) (value : Numeric j.tokens) (rest : Numeric (memberTokens members)) :
    Numeric (memberTokens ((name,j) :: members)) :=
  numericField.mpr (numericAppend.mpr ⟨value,rest⟩)

theorem stringNumeric (t : Text) : Numeric (Json.string t).tokens := numericLeaf nofun

theorem ofNatNumeric (n : Nat) : Numeric (ofNat n).tokens := by
  intro spelling member
  cases List.mem_singleton.mp member
  exact Text.numberOfNat n

end Json

namespace Value
open Json

mutual
theorem toJsonNumeric : (v : Value) → Numeric v.toJson.tokens
  | .null => numericLeaf nofun
  | .flag true => numericLeaf nofun
  | .flag false => numericLeaf nofun
  | .text t => stringNumeric t
  | .time i => stringNumeric i.text
  | .identifier u => stringNumeric u.text
  | .list items => arrayNumeric (listNumeric items)
  | .object fields => objectNumeric (fieldsNumeric fields)

theorem listNumeric : (items : List Value) → Numeric (Json.itemTokens (listToJson items))
  | [] => noneNumeric
  | v :: rest => numericAppend.mpr ⟨toJsonNumeric v,listNumeric rest⟩

theorem fieldsNumeric : (fields : List (Text × Value)) → Numeric (Json.memberTokens (fieldsToJson fields))
  | [] => noneNumeric
  | (name,v) :: rest => memberNumeric name (toJsonNumeric v) (fieldsNumeric rest)
end

end Value

def Event.toJson (e : Event) : Json :=
  .object [(Text.of "metadata",e.metadata.toJson),(Text.of "event",e.data.toJson)]

namespace Trail
open Json

theorem metadataNumeric (provenance : Provenance) (start stop : Nat) :
    Numeric (provenance.metadata (.counted start) (.counted stop)).toJson.tokens := by
  have places {members : List (Text × Json)} (rest : Numeric (memberTokens members)) : Numeric (memberTokens
      ((Text.of "charStart",ofNat start) :: (Text.of "charEnd",ofNat stop) :: members)) :=
    memberNumeric _ (ofNatNumeric start) (memberNumeric _ (ofNatNumeric stop) rest)
  cases provenance with
  | span => exact objectNumeric (places noneNumeric)
  | delivery logName document =>
      cases document with
      | none => exact objectNumeric (memberNumeric _ (stringNumeric logName) (places noneNumeric))
      | some t =>
          have raw := stringNumeric (Place.slice t (.counted start) (.counted stop))
          exact objectNumeric (memberNumeric _ (stringNumeric logName) (places (memberNumeric _ raw noneNumeric)))

theorem lineSpelt (provenance : Provenance) (told : Told) :
    Spelt (.value (told.event provenance).toJson) (told.event provenance).line := by
  have metadata := metadataNumeric provenance told.start told.stop
  exact compactSpelt _ (objectNumeric
    (memberNumeric _ metadata (memberNumeric _ told.data.toJsonNumeric noneNumeric)))

end Trail
end AuditLog
