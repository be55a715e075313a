import AuditLog.Proofs.Accounts

/-! Where the account of an event comes from. Of its places, those in the identity of a record take scalars only, and
a container there is refused. The recipient's own takes anything: a container that stands there goes for the account
as compact text, whatever stands in the other places. -/
namespace AuditLog
open Grammar

namespace Json

def member? (name : Text) : Json → Option Json
  | .object members => members.reverse.lookup name
  | _ => none

def at? : List Text → Json → Option Json
  | [], j => some j
  | name :: rest, j => (j.member? name).bind (at? rest)

def scalarAt? (place : List Text) (j : Json) : Option Text := (j.at? place).bind (fun k => (Reference.leaf? k).join)

def ContainerAt (place : List Text) (j k : Json) : Prop := j.at? place = some k ∧ Reference.leaf? k = none

inductive Occurs : List Text → Json → Json → Prop where
  | here {k} : Occurs [] k k
  | member {name rest members j k} (among : (name,j) ∈ members) (inside : Occurs rest j k) :
      Occurs (name :: rest) (.object members) k

theorem lastAmong {name : Text} {members : List (Text × Json)} {j : Json}
    (last : members.reverse.lookup name = some j) : (name,j) ∈ members := by
  obtain ⟨before,behind,split,_⟩ := List.lookup_eq_some_iff.mp last
  rw [← List.mem_reverse,split]
  simp

theorem scalarMember (name : Text) (rest : List Text) (j : Json) :
    scalarAt? (name :: rest) j = (j.member? name).bind (scalarAt? rest) := by
  rw [scalarAt?,at?,Option.bind_assoc]
  rfl

theorem scalarNull (place : List Text) : scalarAt? place .null = none := by cases place <;> rfl

end Json

namespace Reference

theorem membersRefused {field : Text → Json → Option Value} {members : List (Text × Json)} {name : Text} {j : Json}
    (among : (name,j) ∈ members) (refused : field name j = none) : members? field members = none := by
  have noEntries : entries? field members = none := by
    rw [← Option.not_isSome_iff_eq_none,entriesAccept]
    intro all
    have one := all _ among
    rw [refused] at one
    cases one
  rw [members?,noEntries]
  rfl

theorem membersField {field : Text → Json → Option Value} {members : List (Text × Json)} {v : Value}
    (read : members? field members = some v) (name : Text) :
    (members.reverse.lookup name = none ∧ v.field? name = none) ∨
      ∃ j w, members.reverse.lookup name = some j ∧ field name j = some w ∧ v.field? name = some w := by
  obtain ⟨entries,found,rfl⟩ := Option.map_eq_some_iff.mp read
  have held : (Value.object (Fields.assemble entries)).field? name = (members.reverse.lookup name).bind (field name) := by
    rw [← Fields.ofListAssembles,Value.field?,Fields.getOfList,entriesLast found]
  rw [held]
  cases last : members.reverse.lookup name with
  | none => exact .inl ⟨rfl,rfl⟩
  | some j =>
      cases one : field name j with
      | none =>
          rw [membersRefused (Json.lastAmong last) one] at read
          cases read
      | some w => exact .inr ⟨j,w,rfl,one,one⟩

theorem textTold {j : Json} {v : Value} (read : text? j = some v) : Account.textAt? [] v = Json.scalarAt? [] j := by
  unfold text? at read
  rw [Json.scalarAt?,Json.at?,Option.bind_some]
  split at read
  · rename_i t leaf; rw [leaf]; cases read; rfl
  · rename_i leaf; rw [leaf]; cases read; rfl
  · cases read

theorem anythingTold (j : Json) :
    Account.textAt? [] (anything j) = if leaf? j = none then some j.compact else Json.scalarAt? [] j := by
  rw [anything,Json.scalarAt?,Json.at?,Option.bind_some]
  cases leaf? j with
  | none => rfl
  | some text => cases text <;> rfl

end Reference

namespace Rule
open Account Json

theorem textStands {rule : Rule} {place : List Text} (ruled : rule.at? (place.map .field) = some .text) {j : Json}
    {v : Value} (read : rule.decode? j = some v) : textAt? place v = scalarAt? place j := by
  induction rule generalizing place j v with
  | object noun field ih =>
      cases place with
      | nil => simp only [List.map_nil,at?] at ruled; cases ruled
      | cons name rest =>
          rw [List.map_cons,atField] at ruled
          cases j with
          | object members =>
              simp only [decode?] at read
              rw [textAt?,scalarMember,member?]
              rcases Reference.membersField read name with ⟨last,none⟩ | ⟨k,w,last,one,found⟩
              · rw [last,none]
                rfl
              · rw [last,found]
                exact ih name ruled one
          | _ => simp only [decode?] at read; cases read
  | list noun item ih => cases place <;> (simp only [List.map_nil,List.map_cons,at?] at ruled; cases ruled)
  | nullable rule ih =>
      cases j with
      | null =>
          simp only [decode?] at read
          cases read
          rw [scalarNull]
          cases place <;> rfl
      | _ => exact ih ruled (by simpa only [decode?] using read)
  | text =>
      cases place with
      | nil => exact Reference.textTold read
      | cons => cases ruled
  | _ => cases place <;> cases ruled

theorem containerRefused {rule : Rule} {place : List Text} (ruled : rule.at? (place.map .field) = some .text)
    {j k : Json} (occurs : Occurs place j k) (container : Reference.leaf? k = none) : rule.decode? j = none := by
  induction rule generalizing place j with
  | object noun field ih =>
      cases occurs with
      | here => simp only [List.map_nil,at?] at ruled; cases ruled
      | member among inside =>
          rw [List.map_cons,atField] at ruled
          simp only [decode?]
          exact Reference.membersRefused among (ih _ ruled inside)
  | list noun item ih => cases place <;> (simp only [List.map_nil,List.map_cons,at?] at ruled; cases ruled)
  | nullable rule ih =>
      cases j with
      | null =>
          cases occurs
          cases container
      | _ => simpa only [decode?] using ih ruled occurs
  | text =>
      cases occurs with
      | here => rw [decode?,Reference.text?,container]
      | member => cases ruled
  | _ => cases place <;> cases ruled

end Rule

namespace Account
open Json

def scalar? (j : Json) : Option Text := places.findSome? (fun place => scalarAt? place j)

/-- What the account of an event is, by the record it was made of. -/
structure Origin (j : Json) (account : Option Value) : Prop where
  scalar : (∀ k, ¬ ContainerAt recipient j k) → account = (scalar? j).map .text
  container : ∀ k, ContainerAt recipient j k → account = some (.text k.compact)

section
variable {j : Json} {v : Value}

theorem recipientHeld (read : Reference.record? j = some v) :
    textAt? recipient v = (j.at? recipient).bind (fun k => textAt? [] (Reference.anything k)) := by
  cases j with
  | object members =>
      have unnamed (k : Json) : Reference.recordField? (Text.of "recipientAccountId") k = some (Reference.anything k) :=
        Reference.unnamedField (by decide) k
      simp only [recipient,textAt?,at?,member?]
      rcases Reference.membersField read (Text.of "recipientAccountId") with ⟨last,none⟩ | ⟨k,w,last,one,found⟩
      · rw [last,none]
        rfl
      · rw [unnamed] at one
        cases one
        rw [last,found]
        rfl
  | _ => cases read

theorem identityHeld (read : Reference.record? j = some v) {place : List Text} (member : place ∈ places)
    (other : place ≠ recipient) : textAt? place v = scalarAt? place j := by
  rw [← Schema.recordDenotes Terms.standardCeiling] at read
  exact Rule.textStands (accountRuled _ member other) read

theorem recipientScalar (read : Reference.record? j = some v) (noContainer : ∀ k, ¬ ContainerAt recipient j k) :
    textAt? recipient v = scalarAt? recipient j := by
  rw [recipientHeld read,scalarAt?]
  cases found : j.at? recipient with
  | none => rfl
  | some k =>
      have leaf : Reference.leaf? k ≠ none := fun container => noContainer k ⟨found,container⟩
      rw [Option.bind_some,Reference.anythingTold,if_neg leaf]
      rfl

theorem recordOrigin {d : Value} (told : Reference.recordData? j = some d) : Origin j (d.field? key) := by
  obtain ⟨v,read,rfl⟩ := Option.map_eq_some_iff.mp told
  obtain ⟨fields,rfl⟩ := Reference.recordObject read
  rw [resolveAccount]
  refine ⟨fun noContainer => ?_,fun k stands => ?_⟩
  · have same : ∀ place ∈ places, textAt? place (.object fields) = scalarAt? place j := by
      intro place member
      by_cases own : place = recipient
      · rw [own]
        exact recipientScalar read noContainer
      · exact identityHeld read member own
    simp only [places,List.forall_mem_cons] at same
    simp only [of?,scalar?,places,List.findSome?_cons,List.findSome?_nil,same]
  · have first : textAt? recipient (.object fields) = some k.compact := by
      rw [recipientHeld read,stands.1,Option.bind_some,Reference.anythingTold,if_pos stands.2]
    rw [goesIff.mp (.recipient (textAtIff.mpr first))]
    rfl

theorem identityRefused {k : Json} {place : List Text} (member : place ∈ places) (other : place ≠ recipient)
    (occurs : Occurs place j k) (container : Reference.leaf? k = none) : Reference.record? j = none := by
  rw [← Schema.recordDenotes Terms.standardCeiling]
  exact Rule.containerRefused (accountRuled _ member other) occurs container

end

open Decoding

/-- In every log that decodes, the account of an event is the text of the first scalar that stands in one of its
record's places, if no container stands in the recipient's own; a container there is the account, as compact text,
whatever scalars stand in the other places. A log with a container in one of these does not decode. -/
theorem accountsOriginate (options : Options) (raw : Bool) (t : Text) :
    ((ofText options raw t).failure = none →
      (∃ front array rest items, Laid options.recordsField t front array rest items) ∧
        ∀ front array rest items, Laid options.recordsField t front array rest items →
          List.Forall₂ (fun j (e : Event) => Origin j (e.data.field? key)) items (ofText options raw t).events) ∧
      ∀ front array rest items, Laid options.recordsField t front array rest items →
        ∀ j ∈ items, ∀ place ∈ places, place ≠ recipient → ∀ k, Occurs place j k → Reference.leaf? k = none →
          (ofText options raw t).failure.isSome = true := by
  refine ⟨fun ended => ⟨?_,fun front array rest items laid => ?_⟩,?_⟩
  · obtain ⟨front,array,rest,items,whole,is,spelt⟩ := endsListed ended
    exact ⟨front,array,rest,items,whole,is,spelt⟩
  · have accepted := endsAccepted ended laid.whole laid.front laid.array
    exact (laidPaired raw laid accepted).imp (fun _ _ told => recordOrigin told)
  · intro front array rest items laid j inside place member other k occurs container
    by_contra ended
    have accepted := endsAccepted (Option.not_isSome_iff_eq_none.mp ended) laid.whole laid.front laid.array j inside
    rw [identityRefused member other occurs container] at accepted
    cases accepted

/-- The recipient's own place holds an object, and the identity's the only scalar. -/
theorem containerTold : ∃ j : Json,
    (ofText Options.standard false (Text.of "\x7b\"Records\":[" ++ j.compact ++ Text.of "]\x7d")).events.map
        (fun e => textAt? [key] e.data) = [some (Text.of "\x7b\"id\":\"1\"\x7d")] ∧
      ContainerAt recipient j (.object [(Text.of "id",.string (Text.of "1"))]) ∧
      scalarAt? identity j = some (Text.of "2") :=
  ⟨.object [(Text.of "recipientAccountId",.object [(Text.of "id",.string (Text.of "1"))]),
    (Text.of "userIdentity",.object [(key,.string (Text.of "2"))])],by decide +kernel,⟨rfl,rfl⟩,rfl⟩

end Account
end AuditLog
