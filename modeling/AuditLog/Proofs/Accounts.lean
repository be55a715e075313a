import AuditLog.Proofs.Additions
import AuditLog.Proofs.Members
import Mathlib.Data.List.Forall2
import Mathlib.Data.List.Nodup

/-! The account of a record. Its sources alone tell it, the first that holds text before the others. What the
record claims to be its account is neither read nor kept, and the order of its members has no say in it. -/
namespace AuditLog
open Grammar

namespace Fields

theorem putErased {key : Text} (other : index? key = none) (fields : Fields) (value : Value) :
    put (erase fields key) key value = erase fields key ++ [(key,value)] := by
  have last (rest : Fields) : insertNew key value rest = rest ++ [(key,value)] := by
    induction rest with
    | nil => rfl
    | cons f rest ih =>
        have behind : goesBefore key f.1 = false := by simp only [goesBefore,other]
        rw [insertNew,behind,ih]
        rfl
  have absent : (erase fields key).any (fun f => f.1 == key) = false := by simp [erase]
  rw [put,absent,last]
  rfl

theorem lookupFiltered {β : Type} {name key : Text} (apart : name ≠ key) (entries : List (Text × β)) :
    (entries.filter (fun e => e.1 != key)).lookup name = entries.lookup name := by
  induction entries with
  | nil => rfl
  | cons e rest ih =>
      obtain ⟨k,b⟩ := e
      rw [List.filter_cons]
      split
      · rw [List.lookup_cons,List.lookup_cons,ih]
      · rename_i same
        have same : k = key := by simpa using same
        rw [ih,List.lookup_cons,same,beq_false_of_ne apart]

theorem lookupPermuted {β : Type} {entries entries' : List (Text × β)} (perm : entries.Perm entries')
    (distinct : (entries.map Prod.fst).Nodup) (name : Text) : entries'.lookup name = entries.lookup name := by
  induction perm with
  | nil => rfl
  | cons e _ ih => rw [List.lookup_cons,List.lookup_cons,ih (List.nodup_cons.mp distinct).2]
  | swap e e' rest =>
      have apart : e'.1 ≠ e.1 := fun same => (List.nodup_cons.mp distinct).1 (by simp [same])
      rw [List.lookup_cons,List.lookup_cons,List.lookup_cons,List.lookup_cons]
      by_cases first : name = e.1
      · rw [first,beq_false_of_ne apart.symm]
      · rw [beq_false_of_ne first]
  | trans first _ ih ih' => rw [ih' ((first.map Prod.fst).nodup_iff.mp distinct),ih distinct]

end Fields

namespace Account

inductive TextAt : List Text → Value → Text → Prop where
  | here {t} : TextAt [] (.text t) t
  | field {name rest fields v t} (found : Fields.get? fields name = some v) (inside : TextAt rest v t) :
      TextAt (name :: rest) (.object fields) t

def recipient : List Text := [Text.of "recipientAccountId"]
def identity : List Text := [Text.of "userIdentity",Text.of "accountId"]
def issuer : List Text :=
  [Text.of "userIdentity",Text.of "sessionContext",Text.of "sessionIssuer",Text.of "accountId"]

/-- The account that goes for a record; a source counts where those before it hold no text. -/
inductive Goes (record : Value) : Option Text → Prop where
  | recipient {t} (first : TextAt recipient record t) : Goes record (some t)
  | identity {t} (noRecipient : ∀ t, ¬ TextAt recipient record t) (second : TextAt identity record t) :
      Goes record (some t)
  | issuer {t} (noRecipient : ∀ t, ¬ TextAt recipient record t) (noIdentity : ∀ t, ¬ TextAt identity record t)
      (third : TextAt issuer record t) : Goes record (some t)
  | none (noRecipient : ∀ t, ¬ TextAt recipient record t) (noIdentity : ∀ t, ¬ TextAt identity record t)
      (noIssuer : ∀ t, ¬ TextAt issuer record t) : Goes record none

theorem textAtIff {path : List Text} {v : Value} {t : Text} : TextAt path v t ↔ textAt? path v = some t := by
  constructor
  · intro stands
    induction stands with
    | here => rfl
    | field found _ ih => rw [textAt?,Value.field?,found]; exact ih
  · intro found
    induction path generalizing v with
    | nil => cases v <;> cases found; exact .here
    | cons name rest ih =>
        obtain ⟨w,inside,there⟩ := Option.bind_eq_some_iff.mp found
        cases v with
        | object fields => exact .field inside (ih there)
        | _ => cases inside

theorem noTextIff {path : List Text} {v : Value} : (∀ t, ¬ TextAt path v t) ↔ textAt? path v = none := by
  simp only [textAtIff,Option.eq_none_iff_forall_ne_some,ne_eq]

theorem goesIff {record : Value} {account : Option Text} : Goes record account ↔ of? record = account := by
  have parts : of? record = ((textAt? recipient record).or (textAt? identity record)).or (textAt? issuer record) := by
    show [recipient,identity,issuer].findSome? _ = _
    simp only [List.findSome?_cons,List.findSome?_nil]
    cases textAt? recipient record <;> cases textAt? identity record <;> cases textAt? issuer record <;> rfl
  rw [parts]
  constructor
  · intro goes
    cases goes with
    | recipient first => rw [textAtIff.mp first]; rfl
    | identity noRecipient second => rw [noTextIff.mp noRecipient,textAtIff.mp second]; rfl
    | issuer noRecipient noIdentity third =>
        rw [noTextIff.mp noRecipient,noTextIff.mp noIdentity,textAtIff.mp third]; rfl
    | none noRecipient noIdentity noIssuer =>
        rw [noTextIff.mp noRecipient,noTextIff.mp noIdentity,noTextIff.mp noIssuer]; rfl
  · rintro rfl
    cases first : textAt? recipient record with
    | some t => exact .recipient (textAtIff.mpr first)
    | none =>
        have noRecipient := noTextIff.mpr first
        cases second : textAt? identity record with
        | some t => exact .identity noRecipient (textAtIff.mpr second)
        | none =>
            have noIdentity := noTextIff.mpr second
            cases third : textAt? issuer record with
            | some t => exact .issuer noRecipient noIdentity (textAtIff.mpr third)
            | none => exact .none noRecipient noIdentity (noTextIff.mpr third)

def entry (account : Option Text) : Fields := (account.map (fun t => (key,Value.text t))).toList

theorem resolveEntry (fields : Fields) :
    resolve (.object fields) = .object (fields.erase key ++ entry (of? (.object fields))) := by
  rw [resolveObject]
  cases of? (.object fields) with
  | none => rw [entry,Option.map_none,Option.toList_none,List.append_nil]
  | some account =>
      simp only [Fields.putErased (show Fields.index? key = none by decide)]
      rfl

theorem eraseEntry (fields : Fields) (account : Option Text) :
    (fields.erase key ++ entry account).erase key = fields.erase key := by
  rw [Fields.erase,List.filter_append,Fields.erase,List.filter_filter]
  cases account <;> simp [entry]

theorem resolveClaimed {fields fields' : Fields} (others : fields'.erase key = fields.erase key) :
    resolve (.object fields') = resolve (.object fields) := by
  rw [resolveEntry,resolveEntry,← bareAccount fields',others,bareAccount]

theorem resolveAgain (record : Value) : resolve (resolve record) = resolve record := by
  cases record with
  | object fields =>
      rw [resolveEntry fields]
      exact (resolveClaimed (eraseEntry fields _)).trans (resolveEntry fields)
  | _ => rfl

end Account

namespace Reference

theorem mapPaired {α β : Type} {f : α → Option β} {as : List α} {bs : List β} (made : as.mapM f = some bs) :
    List.Forall₂ (fun a b => f a = some b) as bs := by
  induction as generalizing bs with
  | nil => cases made; exact .nil
  | cons a as ih =>
      rw [List.mapM_cons] at made
      obtain ⟨b,one,made⟩ := Option.bind_eq_some_iff.mp made
      obtain ⟨bs',others,made⟩ := Option.bind_eq_some_iff.mp made
      cases made
      exact .cons one (ih others)

/-- The member for the account is set otherwise, or the members come in another order, each name once. -/
inductive Restated : Json → Json → Prop where
  | same {j} : Restated j j
  | claimed {members members'}
      (others : members'.filter (fun m => m.1 != Account.key) = members.filter (fun m => m.1 != Account.key)) :
      Restated (.object members) (.object members')
  | permuted {members members'} (distinct : (members.map Prod.fst).Nodup) (perm : members.Perm members') :
      Restated (.object members) (.object members')

theorem restatedAccepts {members members' : List (Text × Json)}
    (restated : Restated (.object members) (.object members'))
    (accepted : ∀ m ∈ members, (recordField? m.1 m.2).isSome = true) :
    ∀ m ∈ members', (recordField? m.1 m.2).isSome = true := by
  intro m member
  cases restated with
  | same => exact accepted m member
  | permuted _ perm => exact accepted m (perm.mem_iff.mpr member)
  | claimed others =>
      by_cases own : m.1 = Account.key
      · rw [own,unnamedField (by decide)]
        rfl
      · have kept : m ∈ members'.filter (fun m => m.1 != Account.key) := List.mem_filter.mpr ⟨member,by simpa using own⟩
        rw [others] at kept
        exact accepted m (List.mem_filter.mp kept).1

theorem restatedLast {members members' : List (Text × Json)} (restated : Restated (.object members) (.object members'))
    {name : Text} (other : name ≠ Account.key) : members'.reverse.lookup name = members.reverse.lookup name := by
  cases restated with
  | same => rfl
  | permuted distinct perm =>
      refine Fields.lookupPermuted ((List.reverse_perm _).trans (perm.trans (List.reverse_perm _).symm)) ?_ name
      rw [List.map_reverse]
      exact List.nodup_reverse.mpr distinct
  | claimed others =>
      rw [← Fields.lookupFiltered other members'.reverse,← Fields.lookupFiltered other members.reverse,
        List.filter_reverse,List.filter_reverse,others]

theorem restatedAccount {members members' : List (Text × Json)} {v v' : Value}
    (restated : Restated (.object members) (.object members')) (read : record? (.object members) = some v)
    (read' : record? (.object members') = some v') : Account.of? v' = Account.of? v := by
  obtain ⟨fields,rfl,_,told⟩ := recordFields read
  obtain ⟨fields',rfl,_,told'⟩ := recordFields read'
  have source (name : Text) (other : name ≠ Account.key) (rest : List Text) :
      Account.textAt? (name :: rest) (.object fields') = Account.textAt? (name :: rest) (.object fields) := by
    simp only [Account.textAt?,Value.field?,told,told',restatedLast restated other]
  refine Account.ofSame ?_
  simp only [Account.places,List.forall_mem_cons]
  exact ⟨source _ (by decide) _,source _ (by decide) _,source _ (by decide) _,List.forall_mem_nil _⟩

theorem restatedData {j j' : Json} (restated : Restated j j') {d : Value} (told : recordData? j = some d) :
    ∃ d', recordData? j' = some d' ∧ d'.field? Account.key = d.field? Account.key := by
  obtain ⟨v,read,rfl⟩ := Option.map_eq_some_iff.mp told
  have objects {members members' : List (Text × Json)} (restated : Restated (.object members) (.object members'))
      (read : record? (.object members) = some v) : ∃ d', recordData? (.object members') = some d' ∧
        d'.field? Account.key = (Account.resolve v).field? Account.key := by
    obtain ⟨v',read'⟩ := recordAccepts.mpr (restatedAccepts restated (recordAccepts.mp ⟨v,read⟩))
    have same := restatedAccount restated read read'
    obtain ⟨fields,rfl⟩ := recordObject read
    obtain ⟨fields',rfl⟩ := recordObject read'
    exact ⟨_,by rw [recordData?,read']; rfl,Account.resolveSame same⟩
  cases restated with
  | same => exact ⟨_,told,rfl⟩
  | claimed others => exact objects (.claimed others) read
  | permuted distinct perm => exact objects (.permuted distinct perm) read

theorem restatedList {items items' : List Json} (restated : List.Forall₂ Restated items items') {ds : List Value}
    (told : items.mapM recordData? = some ds) :
    ∃ ds', items'.mapM recordData? = some ds' ∧
      ds'.map (Value.field? Account.key) = ds.map (Value.field? Account.key) := by
  induction restated generalizing ds with
  | nil => cases told; exact ⟨[],rfl,rfl⟩
  | cons one _ ih =>
      rw [List.mapM_cons] at told
      obtain ⟨d,first,told⟩ := Option.bind_eq_some_iff.mp told
      obtain ⟨rest,later,told⟩ := Option.bind_eq_some_iff.mp told
      cases told
      obtain ⟨d',first',same⟩ := restatedData one first
      obtain ⟨rest',later',others⟩ := ih later
      refine ⟨d' :: rest',?_,by rw [List.map_cons,List.map_cons,same,others]⟩
      rw [List.mapM_cons,first',later']
      rfl

end Reference

namespace Decoding

theorem laidPaired {options : Options} (raw : Bool) {t front array rest : Text} {items : List Json}
    (laid : Laid options.recordsField t front array rest items)
    (accepted : ∀ j ∈ items, (Reference.record? j).isSome = true) :
    List.Forall₂ (fun j (e : Event) => Reference.recordData? j = some e.data) items (ofText options raw t).events := by
  obtain ⟨_,told,_⟩ := laidTells raw laid accepted
  have paired := Reference.mapPaired told
  rwa [List.forall₂_map_right_iff] at paired

def accounts (d : Decoding) : List (Option Value) := d.events.map (fun e => e.data.field? Account.key)

theorem laidAccounts {options : Options} {raw : Bool} {t front array rest t' front' array' rest' : Text}
    {items items' : List Json} (ended : (ofText options raw t).failure = none)
    (laid : Laid options.recordsField t front array rest items)
    (laid' : Laid options.recordsField t' front' array' rest' items')
    (restated : List.Forall₂ Reference.Restated items items') :
    (ofText options raw t').failure = none ∧ (ofText options raw t').accounts = (ofText options raw t).accounts := by
  obtain ⟨_,told,_⟩ := laidTells raw laid (endsAccepted ended laid.whole laid.front laid.array)
  obtain ⟨ds',made,same⟩ := Reference.restatedList restated told
  have accepted : ∀ j ∈ items', (Reference.record? j).isSome = true := by
    have all := Reference.allAccepted.mp (by rw [made]; rfl)
    exact fun j member => by simpa [Reference.recordData?] using all j member
  obtain ⟨ended',told',_⟩ := laidTells raw laid' accepted
  refine ⟨ended',?_⟩
  rw [made] at told'
  cases told'
  simpa only [accounts,List.map_map,Function.comp_def] using same

end Decoding

namespace Account
open Decoding

/-- What a record comes to is its own fields but for the account, as they were, and behind them the account
that goes for it, if any does. So neither what it was said to be nor a second reading makes a difference; and
a log tells the same accounts when its records claim others, or give their members in another order. -/
theorem accountGoes :
    (∀ fields : Fields, ∃ account, (∀ other, Goes (.object fields) other ↔ other = account) ∧
        resolve (.object fields) = .object (fields.erase key ++ entry account) ∧
        (resolve (.object fields)).field? key = account.map Value.text) ∧
      (∀ fields fields' : Fields, fields'.erase key = fields.erase key →
        resolve (.object fields') = resolve (.object fields)) ∧
      (∀ record, resolve (resolve record) = resolve record) ∧
      ∀ options raw t, (ofText options raw t).failure = none →
        (∃ front array rest items, Laid options.recordsField t front array rest items) ∧
          ∀ front array rest items t' front' array' rest' items',
            Laid options.recordsField t front array rest items →
            Laid options.recordsField t' front' array' rest' items' →
            List.Forall₂ Reference.Restated items items' → (ofText options raw t').failure = none ∧
              (ofText options raw t').accounts = (ofText options raw t).accounts := by
  refine ⟨fun fields => ⟨of? (.object fields),fun other => goesIff.trans eq_comm,resolveEntry fields,?_⟩,
    fun _ _ => resolveClaimed,resolveAgain,fun options raw t ended => ⟨?_,?_⟩⟩
  · exact resolveAccount fields
  · obtain ⟨front,array,rest,items,whole,is,spelt⟩ := endsListed ended
    exact ⟨front,array,rest,items,whole,is,spelt⟩
  · exact fun front array rest items t' front' array' rest' items' laid laid' restated =>
      laidAccounts ended laid laid' restated

end Account
end AuditLog
