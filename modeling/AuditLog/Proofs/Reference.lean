import AuditLog.Proofs.KeyOrder
import AuditLog.Schema

/-! A decoder of trees, structure by structure, that knows nothing of tokens. None stands for a tree
that is not acceptable in its place. The rules of the schema denote this decoder. -/
namespace AuditLog

namespace Reference

/-- The text of a leaf. Null is a leaf without text; a container is no leaf. -/
def leaf? : Json → Option (Option Text)
  | .null => some none
  | .flag true => some (some (Text.of "true"))
  | .flag false => some (some (Text.of "false"))
  | .number spelling => some (some spelling)
  | .string value => some (some value)
  | _ => none

def text? (j : Json) : Option Value :=
  match leaf? j with
  | some (some t) => some (.text t)
  | some none => some .null
  | none => none

def flag? : Json → Option Value
  | .null => some .null
  | .flag value => some (.flag value)
  | _ => none

def time? (j : Json) : Option Value :=
  match leaf? j with
  | some (some t) => (Instant.ofText t).toOption.map .time
  | some none => some .null
  | none => none

def identifier? (j : Json) : Option Value :=
  match leaf? j with
  | some (some t) => (Uuid.ofText? t).map .identifier
  | _ => none

def anything (j : Json) : Value :=
  match leaf? j with
  | some (some t) => .text t
  | some none => .null
  | none => .text j.compact

def entries? (field : Text → Json → Option Value) (members : List (Text × Json)) :
    Option (List (Text × Value)) :=
  members.mapM (fun m => (field m.1 m.2).map (fun v => (m.1,v)))

def members? (field : Text → Json → Option Value) (members : List (Text × Json)) : Option Value :=
  (entries? field members).map (fun entries => .object (Fields.assemble entries))

def structure? (field : Text → Json → Option Value) : Json → Option Value
  | .null => some .null
  | .object members => members? field members
  | _ => none

def named (names : List String) (name : Text) : Bool := (names.map Text.of).contains name

def attributes? : Json → Option Value := structure? (fun _ => text?)

def sessionIssuer? : Json → Option Value :=
  structure? (fun name j =>
    if named ["type","principalId","arn","accountId","userName"] name then text? j else some (anything j))

def webIdentity? : Json → Option Value :=
  structure? (fun name j =>
    if named ["attributes"] name then attributes? j
    else if named ["federatedProvider"] name then text? j
    else some (anything j))

def sessionContext? : Json → Option Value :=
  structure? (fun name j =>
    if named ["attributes"] name then attributes? j
    else if named ["sessionIssuer"] name then sessionIssuer? j
    else if named ["webIdFederationData"] name then webIdentity? j
    else some (anything j))

def userIdentity? : Json → Option Value :=
  structure? (fun name j =>
    if named ["sessionContext"] name then sessionContext? j
    else if named ["type","principalId","arn","accountId","accessKeyId","userName","invokedBy","identityProvider"] name
    then text? j
    else some (anything j))

def resource? : Json → Option Value
  | .object members => members? (fun _ j => some (anything j)) members
  | _ => none

def resources? : Json → Option Value
  | .null => some .null
  | .array items => (items.mapM resource?).map .list
  | _ => none

def recordField? (name : Text) (j : Json) : Option Value :=
  if named ["eventVersion"] name then text? j
  else if named ["userIdentity"] name then userIdentity? j
  else if named ["eventTime"] name then time? j
  else if named ["eventID"] name then identifier? j
  else if named ["readOnly"] name then flag? j
  else if named ["resources"] name then resources? j
  else if named ["managementEvent"] name then flag? j
  else some (anything j)

def record? : Json → Option Value
  | .object members => members? recordField? members
  | _ => none

theorem allAccepted {α β : Type} {f : α → Option β} {as : List α} :
    (as.mapM f).isSome = true ↔ ∀ a ∈ as, (f a).isSome = true := by
  induction as with
  | nil => simp
  | cons a as ih =>
      rw [List.mapM_cons,List.forall_mem_cons,← ih]
      cases f a with
      | none => simp
      | some b => cases as.mapM f <;> simp

theorem mapMember {α β : Type} {f : α → Option β} {as : List α} {bs : List β} (made : as.mapM f = some bs)
    {b : β} (member : b ∈ bs) : ∃ a ∈ as, f a = some b := by
  induction as generalizing bs with
  | nil => cases made; cases member
  | cons a as ih =>
      rw [List.mapM_cons] at made
      obtain ⟨b',one,made⟩ := Option.bind_eq_some_iff.mp made
      obtain ⟨bs',others,made⟩ := Option.bind_eq_some_iff.mp made
      cases made
      rcases List.mem_cons.mp member with rfl | later
      · exact ⟨a,List.mem_cons_self,one⟩
      · obtain ⟨a',inside,found⟩ := ih others later
        exact ⟨a',List.mem_cons_of_mem _ inside,found⟩

theorem mapLength {α β : Type} {f : α → Option β} {as : List α} {bs : List β} (made : as.mapM f = some bs) :
    bs.length = as.length := by
  induction as generalizing bs with
  | nil => cases made; rfl
  | cons a as ih =>
      rw [List.mapM_cons] at made
      obtain ⟨b,_,made⟩ := Option.bind_eq_some_iff.mp made
      obtain ⟨bs',others,made⟩ := Option.bind_eq_some_iff.mp made
      cases made
      rw [List.length_cons,List.length_cons,ih others]

theorem mapReplaced {α β : Type} {f : α → Option β} {behind ahead : List α} {a : α} {bs : List β}
    (made : (behind ++ a :: ahead).mapM f = some bs) :
    ∃ before b after, bs = before ++ b :: after ∧ before.length = behind.length ∧ f a = some b ∧
      ∀ a' b', f a' = some b' → (behind ++ a' :: ahead).mapM f = some (before ++ b' :: after) := by
  rw [List.mapM_append] at made
  obtain ⟨before,first,made⟩ := Option.bind_eq_some_iff.mp made
  obtain ⟨rest,second,made⟩ := Option.bind_eq_some_iff.mp made
  rw [List.mapM_cons] at second
  obtain ⟨b,one,second⟩ := Option.bind_eq_some_iff.mp second
  obtain ⟨after,others,second⟩ := Option.bind_eq_some_iff.mp second
  cases second
  cases made
  refine ⟨before,b,after,rfl,mapLength first,one,fun a' b' one' => ?_⟩
  simp only [List.mapM_append,List.mapM_cons,first,one',others]
  rfl

section
variable {field : Text → Json → Option Value} {members : List (Text × Json)} {entries : List (Text × Value)}

theorem entriesCons (name : Text) (j : Json) (rest : List (Text × Json)) :
    entries? field ((name,j) :: rest) =
      (field name j).bind (fun v => (entries? field rest).map (fun es => (name,v) :: es)) := by
  simp only [entries?,List.mapM_cons]
  cases field name j with
  | none => rfl
  | some v => cases rest.mapM (fun m => (field m.1 m.2).map (fun v => (m.1,v))) <;> rfl

theorem entriesSplit {name : Text} {j : Json} {rest : List (Text × Json)}
    (h : entries? field ((name,j) :: rest) = some entries) :
    ∃ v es, field name j = some v ∧ entries? field rest = some es ∧ entries = (name,v) :: es := by
  rw [entriesCons] at h
  cases found : field name j with
  | none => rw [found] at h; cases h
  | some v =>
      cases others : entries? field rest with
      | none => rw [found,others] at h; cases h
      | some es =>
          rw [found,others] at h
          cases h
          exact ⟨v,es,rfl,rfl,rfl⟩

theorem entriesAccept :
    (entries? field members).isSome = true ↔ ∀ m ∈ members, (field m.1 m.2).isSome = true := by
  simp [entries?,allAccepted]

theorem entriesKeys (h : entries? field members = some entries) :
    entries.map Prod.fst = members.map Prod.fst := by
  induction members generalizing entries with
  | nil => cases h; rfl
  | cons m rest ih =>
      obtain ⟨v,es,_,others,rfl⟩ := entriesSplit h
      rw [List.map_cons,List.map_cons,ih others]

theorem entriesLast (h : entries? field members = some entries) (key : Text) :
    entries.reverse.lookup key = (members.reverse.lookup key).bind (field key) := by
  induction members generalizing entries with
  | nil => cases h; rfl
  | cons m rest ih =>
      obtain ⟨name,j⟩ := m
      obtain ⟨v,es,found,others,rfl⟩ := entriesSplit h
      have tail := ih others
      rw [List.reverse_cons,List.reverse_cons,List.lookup_append,List.lookup_append,tail]
      cases last : rest.reverse.lookup key with
      | none =>
          by_cases same : key = name
          · subst same; simp [found]
          · simp [List.lookup_cons,beq_false_of_ne same]
      | some j' =>
          obtain ⟨before,behind,split,_⟩ := List.lookup_eq_some_iff.mp last
          have member : (key,j') ∈ rest := by
            rw [← List.mem_reverse,split]; simp
          have accepted := entriesAccept.mp (by rw [others]; rfl) (key,j') member
          obtain ⟨v',found'⟩ := Option.isSome_iff_exists.mp accepted
          simp [found']

end

end Reference

def Rule.decode? : Rule → Json → Option Value
  | .anything => fun j => some (Reference.anything j)
  | .text => Reference.text?
  | .flag => Reference.flag?
  | .version _ => Reference.text?
  | .time => Reference.time?
  | .identifier => Reference.identifier?
  | .object _ field => fun j =>
      match j with
      | .object members => Reference.members? (fun name => (field name).decode?) members
      | _ => none
  | .list _ item => fun j =>
      match j with
      | .array items => (items.mapM item.decode?).map .list
      | _ => none
  | .nullable rule => fun j =>
      match j with
      | .null => some .null
      | j => rule.decode? j

namespace Schema
open Reference Rule

theorem tableCons (key : Text) (rule : Rule) (rest : List (Text × Rule)) (name : Text) :
    table ((key,rule) :: rest) name = if name = key then rule else table rest name := by
  simp only [table,List.lookup_cons]
  by_cases same : name = key
  · simp [same]
  · rw [beq_false_of_ne same,if_neg same]

theorem namedCons (n : String) (rest : List String) (name : Text) :
    named (n :: rest) name = true ↔ name = Text.of n ∨ named rest name = true := by
  simp [named]

theorem tableTexts (names : List String) (name : Text) :
    table (texts names) name = if named names name then .text else .anything := by
  induction names with
  | nil => rfl
  | cons n rest ih =>
      have cons : texts (n :: rest) = (Text.of n,.text) :: texts rest := rfl
      rw [cons,tableCons,ih]
      by_cases same : name = Text.of n <;> simp [namedCons,same]

theorem tableNamed (n : String) (rule : Rule) (rest : List (Text × Rule)) (name : Text) :
    table ((Text.of n,rule) :: rest) name = if named [n] name then rule else table rest name := by
  rw [tableCons]
  by_cases same : name = Text.of n <;> simp [named,same]

theorem tableNone (name : Text) : table [] name = .anything := rfl

theorem nullableObject {noun : Text} {rules : Text → Rule} {field : Text → Json → Option Value}
    (same : ∀ name j, (rules name).decode? j = field name j) (j : Json) :
    (Rule.nullable (.object noun rules)).decode? j = structure? field j := by
  have fields : (fun name => (rules name).decode?) = field := funext (fun name => funext (same name))
  cases j with
  | object members => simp only [decode?,structure?,fields]
  | _ => simp only [decode?,structure?]

theorem attributesDenotes (j : Json) : attributes.decode? j = attributes? j :=
  nullableObject (fun _ _ => rfl) j

theorem sessionIssuerDenotes (j : Json) : sessionIssuer.decode? j = sessionIssuer? j := by
  refine nullableObject (fun name j => ?_) j
  rw [tableTexts]
  split <;> rfl

theorem webIdentityDenotes (j : Json) : webIdentity.decode? j = webIdentity? j := by
  refine nullableObject (fun name j => ?_) j
  rw [tableNamed,tableTexts]
  split
  · exact attributesDenotes j
  · split <;> rfl

theorem sessionContextDenotes (j : Json) : sessionContext.decode? j = sessionContext? j := by
  refine nullableObject (fun name j => ?_) j
  rw [tableNamed,tableNamed,tableNamed,tableNone]
  split
  · exact attributesDenotes j
  · split
    · exact sessionIssuerDenotes j
    · split
      · exact webIdentityDenotes j
      · rfl

theorem userIdentityDenotes (j : Json) : userIdentity.decode? j = userIdentity? j := by
  refine nullableObject (fun name j => ?_) j
  rw [tableNamed,tableTexts]
  split
  · exact sessionContextDenotes j
  · split <;> rfl

theorem resourcesDenotes (j : Json) : resources.decode? j = resources? j := by
  have one : resource.decode? = resource? := by
    funext j
    cases j <;> simp only [resource,decode?,resource?]
  cases j with
  | array items => simp only [resources,decode?,resources?,one]
  | _ => simp only [resources,decode?,resources?]

theorem recordDenotes (ceiling : Float) (j : Json) : (record ceiling).decode? j = record? j := by
  cases j with
  | object members =>
      simp only [record,decode?,record?]
      congr 1
      funext name j
      simp only [tableNamed,tableNone,recordField?]
      split
      · rfl
      split
      · exact userIdentityDenotes j
      split
      · rfl
      split
      · rfl
      split
      · rfl
      split
      · exact resourcesDenotes j
      split <;> rfl
  | _ => simp only [record,decode?,record?]

end Schema
end AuditLog
