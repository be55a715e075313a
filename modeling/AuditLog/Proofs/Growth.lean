import AuditLog.Proofs.Arranged
import AuditLog.Proofs.Denotation

/-! Members that a schema does not know. A member added to an object in which its name has no rule is kept as
it is under that name, where the object itself is kept; nothing else is made of the tree, and no notice more. -/
namespace AuditLog

namespace Value

inductive Leg where
  | field (name : Text)
  | item (index : Nat)
  deriving DecidableEq

inductive Gains (key : Text) (held : Value) : List Leg → Value → Value → Prop where
  | here {fields fields' : Fields} (others : fields'.erase key = fields) (holds : fields'.get? key = some held) :
      Gains key held [] (.object fields) (.object fields')
  | field {name path v v'} {fields fields' : Fields} (keys : fields'.map Prod.fst = fields.map Prod.fst)
      (was : fields.get? name = some v) (is : fields'.get? name = some v')
      (others : ∀ k, k ≠ name → fields'.get? k = fields.get? k) (inside : Gains key held path v v') :
      Gains key held (.field name :: path) (.object fields) (.object fields')
  | item {path behind ahead v v'} (inside : Gains key held path v v') :
      Gains key held (.item behind.length :: path) (.list (behind ++ v :: ahead)) (.list (behind ++ v' :: ahead))

def Grown (key : Text) (held : Value) (path : Option (List Leg)) (v v' : Value) : Prop :=
  match path with
  | some path => Gains key held path v v'
  | none => v' = v

end Value

namespace Rule
open Value Reference

def through (name : Text) (ahead : List (Text × Json)) (path : Option (List Leg)) : Option (List Leg) :=
  if name ∈ ahead.map Prod.fst then none else path.map (.field name :: ·)

/-- Somewhere in the tree an object that is read by fields has got a member more, whose name is new to it
and has no rule there. The path leads to what the object is read as, if that is kept. -/
inductive Grows (key : Text) (value : Json) : Rule → Option (List Leg) → Json → Json → Prop where
  | here {noun field behind ahead} (unknown : field key = .anything) (fresh : ∀ m ∈ behind ++ ahead, m.1 ≠ key) :
      Grows key value (.object noun field) (some []) (.object (behind ++ ahead))
        (.object (behind ++ (key,value) :: ahead))
  | member {noun field name path behind ahead j j'} (inside : Grows key value (field name) path j j') :
      Grows key value (.object noun field) (through name ahead path) (.object (behind ++ (name,j) :: ahead))
        (.object (behind ++ (name,j') :: ahead))
  | item {noun item path behind ahead j j'} (inside : Grows key value item path j j') :
      Grows key value (.list noun item) (path.map (.item behind.length :: ·)) (.array (behind ++ j :: ahead))
        (.array (behind ++ j' :: ahead))
  | nullable {rule path j j'} (inside : Grows key value rule path j j') : Grows key value (.nullable rule) path j j'

end Rule

namespace Fields

theorem lastSplit (behind ahead : List (Text × Value)) (name k : Text) (v : Value) :
    (behind ++ (name,v) :: ahead).reverse.lookup k =
      (ahead.reverse.lookup k).or (if k = name then some v else behind.reverse.lookup k) := by
  rw [List.reverse_append,List.reverse_cons,List.append_assoc,List.lookup_append,List.lookup_append]
  by_cases same : k = name
  · rw [if_pos same,List.lookup_cons,beq_iff_eq.mpr same]; rfl
  · rw [if_neg same,List.lookup_cons,beq_false_of_ne same]; rfl

theorem lookupNone {entries : List (Text × Value)} {k : Text} :
    entries.lookup k = none ↔ k ∉ entries.map Prod.fst := by
  rw [List.lookup_eq_none_iff,List.mem_map]
  refine ⟨fun apart ⟨e,member,same⟩ => ?_,fun absent e member => ?_⟩
  · simpa [same] using apart e member
  · rw [bne_iff_ne]
    rintro rfl
    exact absent ⟨e,member,rfl⟩

theorem ofListGains {behind ahead : List (Text × Value)} {key : Text} (fresh : ∀ e ∈ behind ++ ahead, e.1 ≠ key)
    (held : Value) :
    Value.Gains key held [] (.object (ofList (behind ++ ahead))) (.object (ofList (behind ++ (key,held) :: ahead))) := by
  refine .here ?_ ?_
  · rw [ofListErase,List.filter_append,List.filter_cons,if_neg (by simp),← List.filter_append]
    rw [List.filter_eq_self.mpr (fun e member => by simpa using fresh e member)]
  · have absent : key ∉ ahead.reverse.map Prod.fst := by
      intro member
      obtain ⟨e,inside,same⟩ := List.mem_map.mp member
      exact fresh e (List.mem_append_right _ (List.mem_reverse.mp inside)) same
    rw [getOfList,lastSplit,lookupNone.mpr absent,if_pos rfl]
    rfl

theorem ofListChanged {behind ahead : List (Text × Value)} {name key : Text} {held v v' : Value}
    {path : Option (List Value.Leg)} (inside : Value.Grown key held path v v') :
    Value.Grown key held (if name ∈ ahead.map Prod.fst then none else path.map (.field name :: ·))
      (.object (ofList (behind ++ (name,v) :: ahead))) (.object (ofList (behind ++ (name,v') :: ahead))) := by
  have keys : (behind ++ (name,v') :: ahead).map Prod.fst = (behind ++ (name,v) :: ahead).map Prod.fst := by simp
  have later : name ∈ ahead.map Prod.fst ↔ ahead.reverse.lookup name ≠ none := by
    rw [ne_eq,lookupNone,List.map_reverse,List.mem_reverse,Decidable.not_not]
  by_cases shadowed : name ∈ ahead.map Prod.fst
  · rw [if_pos shadowed]
    obtain ⟨last,found⟩ := Option.ne_none_iff_exists'.mp (later.mp shadowed)
    have same : ofList (behind ++ (name,v') :: ahead) = ofList (behind ++ (name,v) :: ahead) := by
      rw [ofListAssembles,ofListAssembles,assemble,assemble,keys]
      congr
      funext k
      rw [lastSplit,lastSplit]
      by_cases here : k = name
      · rw [here,found]; rfl
      · rw [if_neg here,if_neg here]
    exact congrArg Value.object same
  · rw [if_neg shadowed]
    cases path with
    | none => rw [show v' = v from inside]; exact rfl
    | some path =>
        have none' : ahead.reverse.lookup name = none := Decidable.not_not.mp (fun found => shadowed (later.mpr found))
        refine .field ?_ ?_ ?_ (fun k other => ?_) inside
        · rw [keysOfList,keysOfList,keys]
        · rw [getOfList,lastSplit,none',if_pos rfl]; rfl
        · rw [getOfList,lastSplit,none',if_pos rfl]; rfl
        · rw [getOfList,getOfList,lastSplit,lastSplit,if_neg other,if_neg other]

end Fields

namespace Reference

theorem entriesJoin {field : Text → Json → Option Value} {behind ahead : List (Text × Json)}
    {entries : List (Text × Value)} :
    entries? field (behind ++ ahead) = some entries ↔
      ∃ before after, entries? field behind = some before ∧ entries? field ahead = some after ∧
        entries = before ++ after := by
  simp only [entries?,List.mapM_append,Option.bind_eq_bind,Option.bind_eq_some_iff,Option.pure_def,Option.some.injEq]
  constructor
  · rintro ⟨before,first,after,second,same⟩
    exact ⟨before,after,first,second,same.symm⟩
  · rintro ⟨before,after,first,second,same⟩
    exact ⟨before,first,after,second,same.symm⟩

theorem entriesHead {field : Text → Json → Option Value} {name : Text} {j : Json} {v : Value}
    {rest : List (Text × Json)} {entries : List (Text × Value)} (one : field name j = some v)
    (others : entries? field rest = some entries) : entries? field ((name,j) :: rest) = some ((name,v) :: entries) := by
  rw [entriesCons,one,others]
  rfl

end Reference

namespace Rule
open Value Reference

variable {key : Text} {value : Json}

theorem growsInside {rule : Rule} {path : Option (List Leg)} {j j' : Json} (grows : Grows key value rule path j j') :
    (∃ k, j.first = .opening k) ∧ ∃ k, j'.first = .opening k := by
  induction grows with
  | here => exact ⟨⟨_,rfl⟩,_,rfl⟩
  | member => exact ⟨⟨_,rfl⟩,_,rfl⟩
  | item => exact ⟨⟨_,rfl⟩,_,rfl⟩
  | nullable _ ih => exact ih

theorem nullableInside (rule : Rule) {j : Json} {k : Container} (first : j.first = .opening k) :
    (Rule.nullable rule).decode? j = rule.decode? j ∧ (Rule.nullable rule).remarks j = rule.remarks j := by
  cases j with
  | null => cases first
  | _ => exact ⟨rfl,rfl⟩

theorem objectDecode {noun : Text} {field : Text → Rule} {members : List (Text × Json)} {v : Value} :
    (Rule.object noun field).decode? (.object members) = some v ↔
      ∃ entries, entries? (fun name => (field name).decode?) members = some entries ∧ v = .object (Fields.ofList entries) := by
  simp only [decode?,members?,Option.map_eq_some_iff,← Fields.ofListAssembles]
  exact exists_congr (fun _ => and_congr_right (fun _ => eq_comm))

theorem growsDecode {rule : Rule} {path : Option (List Leg)} {j j' : Json} (grows : Grows key value rule path j j')
    (v : Value) (read : rule.decode? j = some v) :
    ∃ v', rule.decode? j' = some v' ∧ Grown key (Reference.anything value) path v v' := by
  induction grows generalizing v with
  | @here noun field behind ahead unknown fresh =>
      obtain ⟨entries,made,rfl⟩ := objectDecode.mp read
      obtain ⟨before,after,first,second,rfl⟩ := entriesJoin.mp made
      have one : (field key).decode? value = some (Reference.anything value) := by rw [unknown]; rfl
      have all := entriesJoin.mpr ⟨before,_,first,entriesHead one second,rfl⟩
      refine ⟨_,objectDecode.mpr ⟨_,all,rfl⟩,Fields.ofListGains (fun e member => ?_) _⟩
      have names : (before ++ after).map Prod.fst = (behind ++ ahead).map Prod.fst := entriesKeys made
      obtain ⟨m,inside,same⟩ := List.mem_map.mp (names ▸ List.mem_map_of_mem member)
      exact same ▸ fresh m inside
  | @member noun field name path behind ahead j j' inside ih =>
      obtain ⟨entries,made,rfl⟩ := objectDecode.mp read
      obtain ⟨before,rest,first,second,rfl⟩ := entriesJoin.mp made
      obtain ⟨w,after,one,others,rfl⟩ := entriesSplit second
      obtain ⟨w',one',grown⟩ := ih w one
      have all := entriesJoin.mpr ⟨before,_,first,entriesHead one' others,rfl⟩
      refine ⟨_,objectDecode.mpr ⟨_,all,rfl⟩,?_⟩
      rw [through,← entriesKeys others]
      exact Fields.ofListChanged grown
  | @item noun item path behind ahead j j' inside ih =>
      obtain ⟨values,made,rfl⟩ := Option.map_eq_some_iff.mp read
      obtain ⟨before,w,after,rfl,size,one,put⟩ := mapReplaced made
      obtain ⟨w',one',grown⟩ := ih w one
      refine ⟨.list (before ++ w' :: after),?_,?_⟩
      · simp only [decode?,put _ _ one']
        rfl
      · cases path with
        | none => rw [show w' = w from grown]; exact rfl
        | some path => rw [← size]; exact .item grown
  | @nullable rule path j j' inside ih =>
      obtain ⟨⟨k,first⟩,k',first'⟩ := growsInside inside
      rw [(nullableInside rule first).1] at read
      rw [(nullableInside rule first').1]
      exact ih v read

theorem growsRemarks {rule : Rule} {path : Option (List Leg)} {j j' : Json} (grows : Grows key value rule path j j') :
    rule.remarks j' = rule.remarks j := by
  induction grows with
  | @here noun field behind ahead unknown fresh =>
      have none' : (field key).remarks value = [] := by rw [unknown]; rfl
      simp only [remarks,List.flatMap_append,List.flatMap_cons,none',List.nil_append]
  | member _ ih => simp only [remarks,List.flatMap_append,List.flatMap_cons,ih]
  | item _ ih => simp only [remarks,List.flatMap_append,List.flatMap_cons,ih]
  | @nullable rule path j j' inside ih =>
      obtain ⟨⟨k,first⟩,k',first'⟩ := growsInside inside
      rw [(nullableInside rule first).2,(nullableInside rule first').2,ih]

end Rule
end AuditLog
