import AuditLog.Value

/-! The order of keys. Setting keys one by one keeps indices first and ascending, then the others as
they first came; so the fields of a list of entries are told by its keys and their last values. -/
namespace AuditLog

namespace Text

def numberUp (digits : Text) : Nat := digits.foldr (fun u n => 10 * n + (u.toNat - 0x30)) 0

theorem digitBounds {u : CodeUnit} (digit : isDigit u = true) : 0x30 ≤ u.toNat ∧ u.toNat ≤ 0x39 := by
  simp only [isDigit,Bool.and_eq_true,decide_eq_true_eq,UInt16.le_iff_toNat_le] at digit
  exact digit

theorem digitOfUnit {u : CodeUnit} (is : isDigit u = true) : digit (u.toNat - 0x30) = u := by
  obtain ⟨low,high⟩ := digitBounds is
  have small : u.toNat - 0x30 < 10 := by omega
  have same : 0x30 + (u.toNat - 0x30) = u.toNat := by omega
  simp only [digit,small,if_true,same]
  exact UInt16.ofNat_toNat

theorem digitsUpCons {n : Nat} {u : CodeUnit} (is : isDigit u = true)
    (positive : 0 < 10 * n + (u.toNat - 0x30)) :
    digitsUp (10 * n + (u.toNat - 0x30)) = u :: digitsUp n := by
  obtain ⟨low,high⟩ := digitBounds is
  have last : (10 * n + (u.toNat - 0x30)) % 10 = u.toNat - 0x30 := by omega
  have rest : (10 * n + (u.toNat - 0x30)) / 10 = n := by omega
  rw [digitsUp,dif_neg (Nat.pos_iff_ne_zero.mp positive),last,rest,digitOfUnit is]

theorem digitsOfNumber {u : CodeUnit} {rest : Text} (digits : ∀ v ∈ u :: rest, isDigit v = true)
    (nonzero : (u :: rest).getLast? ≠ some 0x30) :
    0 < numberUp (u :: rest) ∧ digitsUp (numberUp (u :: rest)) = u :: rest := by
  have is := digits u (by simp)
  induction rest generalizing u with
  | nil =>
      obtain ⟨low,high⟩ := digitBounds is
      have apart : u.toNat ≠ 0x30 := by
        intro same
        exact nonzero (by simpa using UInt16.toNat_inj.mp same)
      have positive : 0 < 10 * 0 + (u.toNat - 0x30) := by omega
      refine ⟨positive,?_⟩
      have zero : digitsUp 0 = [] := by rw [digitsUp]; rfl
      exact (digitsUpCons is positive).trans (congrArg (List.cons u) zero)
  | cons v rest ih =>
      have inner := ih (fun x member => digits x (List.mem_cons_of_mem _ member)) (by simpa using nonzero)
        (digits v (by simp))
      have positive : 0 < 10 * numberUp (v :: rest) + (u.toNat - 0x30) := by omega
      refine ⟨positive,?_⟩
      exact (digitsUpCons is positive).trans (congrArg (List.cons u) inner.2)

end Text

namespace Fields

theorem indexSpelt {key : Text} {n : Nat} (is : index? key = some n) : key = Text.ofNat n := by
  unfold index? at is
  split at is
  · rename_i canonical
    simp only [Bool.and_eq_true,Bool.not_eq_true',List.all_eq_true,Bool.or_eq_true,beq_iff_eq,
    bne_iff_ne] at canonical
    obtain ⟨⟨left,digits⟩,leading⟩ := canonical
    have value : key.foldl (fun n u => 10 * n + (u.toNat - 0x30)) 0 = Text.numberUp key.reverse := by
      rw [Text.numberUp,List.foldr_reverse]
    simp only [value] at is
    split at is
    · cases is
      rcases leading with zero | nonzero
      · subst zero; rfl
      · cases backwards : key.reverse with
        | nil => simp_all
        | cons u rest =>
            have digits' : ∀ v ∈ u :: rest, Text.isDigit v = true := by
              intro v member
              rw [← backwards,List.mem_reverse] at member
              exact digits v member
            have nonzero' : (u :: rest).getLast? ≠ some 0x30 := by
              rw [← backwards,List.getLast?_reverse]
              exact nonzero
            obtain ⟨positive,spelt⟩ := Text.digitsOfNumber digits' nonzero'
            rw [Text.ofNat,if_neg (Nat.pos_iff_ne_zero.mp positive),spelt,← backwards,List.reverse_reverse]
    · cases is
  · cases is

theorem indexUnique {key other : Text} {n : Nat} (is : index? key = some n) (is' : index? other = some n) :
    key = other :=
  (indexSpelt is).trans (indexSpelt is').symm

def isIndex (key : Text) : Bool := (index? key).isSome

def indexLe (key other : Text) : Bool := decide ((index? key).getD 0 ≤ (index? other).getD 0)

def keyOrder (keys : List Text) : List Text :=
  (keys.eraseDups.filter isIndex).mergeSort indexLe ++ keys.eraseDups.filter (fun key => !isIndex key)

def insertKey (key : Text) : List Text → List Text
  | [] => [key]
  | k :: rest => if goesBefore key k then key :: k :: rest else k :: insertKey key rest

theorem keysInsertNew (key : Text) (value : Value) (fields : Fields) :
    (insertNew key value fields).map Prod.fst = insertKey key (fields.map Prod.fst) := by
  induction fields with
  | nil => rfl
  | cons f rest ih =>
      simp only [insertNew,List.map_cons,insertKey]
      split
      · rfl
      · rw [List.map_cons,ih]

theorem keysPut (fields : Fields) (key : Text) (value : Value) :
    (put fields key value).map Prod.fst =
      if key ∈ fields.map Prod.fst then fields.map Prod.fst else insertKey key (fields.map Prod.fst) := by
  have present : (fields.any (fun f => f.1 == key) = true) ↔ key ∈ fields.map Prod.fst := by
    simp [List.any_eq_true]
  unfold put
  split
  · rename_i is
    rw [if_pos (present.mp is),List.map_map]
    refine List.map_congr_left (fun f _ => ?_)
    simp only [Function.comp_apply]
    split
    · rename_i same; exact (eq_of_beq same).symm
    · rfl
  · rename_i is
    rw [if_neg (fun h => is (present.mpr h)),keysInsertNew]

theorem insertOther {key : Text} (other : isIndex key = false) (keys : List Text) :
    insertKey key keys = keys ++ [key] := by
  have last (k : Text) : goesBefore key k = false := by
    simp only [isIndex,Option.isSome_eq_false_iff,Option.isNone_iff_eq_none] at other
    simp only [goesBefore,other]
  induction keys with
  | nil => rfl
  | cons k rest ih => simp [insertKey,last,ih]

theorem insertPerm (key : Text) (keys : List Text) : (insertKey key keys).Perm (key :: keys) := by
  induction keys with
  | nil => exact .refl _
  | cons k rest ih =>
      simp only [insertKey]
      split
      · exact .refl _
      · exact (ih.cons k).trans (.swap ..)

theorem insertIndex {key : Text} (is : isIndex key = true) (indices : List Text) {others : List Text}
    (apart : ∀ k ∈ others, isIndex k = false) :
    insertKey key (indices ++ others) = insertKey key indices ++ others := by
  induction indices with
  | nil =>
      cases others with
      | nil => rfl
      | cons k rest =>
          obtain ⟨n,index⟩ := Option.isSome_iff_exists.mp is
          have other := apart k (by simp)
          simp only [isIndex,Option.isSome_eq_false_iff,Option.isNone_iff_eq_none] at other
          simp [insertKey,goesBefore,index,other]
  | cons k rest ih =>
      simp only [List.cons_append,insertKey]
      split
      · rfl
      · rw [ih]; rfl

theorem insertSorted {key : Text} (is : isIndex key = true) {indices : List Text}
    (all : ∀ k ∈ indices, isIndex k = true) (sorted : indices.Pairwise (indexLe · ·)) :
    (insertKey key indices).Pairwise (indexLe · ·) := by
  induction indices with
  | nil => simp [insertKey]
  | cons k rest ih =>
      obtain ⟨n,index⟩ := Option.isSome_iff_exists.mp is
      obtain ⟨m,index'⟩ := Option.isSome_iff_exists.mp (all k (by simp))
      obtain ⟨least,sorted⟩ := List.pairwise_cons.mp sorted
      have inner := ih (fun x member => all x (List.mem_cons_of_mem _ member)) sorted
      simp only [indexLe,index',decide_eq_true_eq,Option.getD_some] at least
      simp only [insertKey,goesBefore,index,index',decide_eq_true_eq]
      split
      · rename_i before
        refine List.pairwise_cons.mpr ⟨?_,List.pairwise_cons.mpr ⟨?_,sorted⟩⟩
        · intro x member
          simp only [indexLe,index,decide_eq_true_eq,Option.getD_some]
          rcases List.mem_cons.mp member with first | inside
          · rw [first,index']; exact Nat.le_of_lt before
          · exact Nat.le_trans (Nat.le_of_lt before) (least x inside)
        · simpa only [indexLe,index',decide_eq_true_eq,Option.getD_some] using least
      · rename_i behind
        refine List.pairwise_cons.mpr ⟨?_,inner⟩
        intro x member
        simp only [indexLe,index',decide_eq_true_eq,Option.getD_some]
        rcases List.mem_cons.mp ((insertPerm key rest).mem_iff.mp member) with first | inside
        · rw [first,index]; exact Nat.le_of_not_lt behind
        · exact least x inside

theorem sortSorted (keys : List Text) : (keys.mergeSort indexLe).Pairwise (indexLe · ·) := by
  refine List.pairwise_mergeSort ?_ ?_ keys
  · intro a b c
    simp only [indexLe,decide_eq_true_eq]
    exact Nat.le_trans
  · intro a b
    simp only [indexLe,Bool.or_eq_true,decide_eq_true_eq]
    exact Nat.le_total ..

theorem sortInserted {key : Text} (is : isIndex key = true) {keys : List Text}
    (all : ∀ k ∈ keys, isIndex k = true) :
    insertKey key (keys.mergeSort indexLe) = (keys ++ [key]).mergeSort indexLe := by
  have sortedIndices (k : Text) (member : k ∈ keys.mergeSort indexLe) : isIndex k = true :=
    all k (List.mem_mergeSort.mp member)
  refine List.Perm.eq_of_pairwise ?_ (insertSorted is sortedIndices (sortSorted keys)) (sortSorted (keys ++ [key])) ?_
  · intro a b left right le ge
    have index (x : Text) (member : x ∈ key :: keys) : ∃ n, index? x = some n := by
      rcases List.mem_cons.mp member with rfl | inside
      · exact Option.isSome_iff_exists.mp is
      · exact Option.isSome_iff_exists.mp (all x inside)
    obtain ⟨n,first⟩ := index a (by simpa using (insertPerm key _).mem_iff.mp left)
    obtain ⟨m,second⟩ := index b (by simpa [or_comm] using List.mem_mergeSort.mp right)
    simp only [indexLe,first,second,decide_eq_true_eq,Option.getD_some] at le ge
    exact indexUnique first (Nat.le_antisymm le ge ▸ second)
  · have sorted := List.mergeSort_perm keys indexLe
    have sorted' := List.mergeSort_perm (keys ++ [key]) indexLe
    have last := (List.perm_append_singleton key keys).symm
    exact (insertPerm key _).trans ((sorted.cons key).trans (last.trans sorted'.symm))

theorem keyOrderOld {key : Text} {keys : List Text} (member : key ∈ keys) :
    keyOrder (keys ++ [key]) = keyOrder keys := by
  have same : (keys ++ [key]).eraseDups = keys.eraseDups := by
    rw [List.eraseDups_append]
    simp [List.removeAll,member]
  unfold keyOrder
  rw [same]

theorem keyOrderNew {key : Text} {keys : List Text} (new : key ∉ keys) :
    keyOrder (keys ++ [key]) = insertKey key (keyOrder keys) := by
  have same : (keys ++ [key]).eraseDups = keys.eraseDups ++ [key] := by
    rw [List.eraseDups_append]
    simp [List.removeAll,new,List.eraseDups_cons]
  have others (k : Text) (member : k ∈ keys.eraseDups.filter (fun key => !isIndex key)) : isIndex k = false := by
    simpa using (List.mem_filter.mp member).2
  unfold keyOrder
  rw [same,List.filter_append,List.filter_append]
  cases is : isIndex key with
  | true =>
      rw [insertIndex is _ others,sortInserted is (fun k member => (List.mem_filter.mp member).2)]
      simp [is]
  | false =>
      rw [insertOther is]
      simp [is]

theorem memKeyOrder {key : Text} {keys : List Text} : key ∈ keyOrder keys ↔ key ∈ keys := by
  unfold keyOrder
  rw [List.mem_append,List.mem_mergeSort,List.mem_filter,List.mem_filter,List.mem_eraseDups]
  cases isIndex key <;> simp

theorem keysSet (entries : List (Text × Value)) {fields : Fields} {keys : List Text}
    (before : fields.map Prod.fst = keyOrder keys) :
    (entries.foldl (fun fields e => put fields e.1 e.2) fields).map Prod.fst =
      keyOrder (keys ++ entries.map Prod.fst) := by
  induction entries generalizing fields keys with
  | nil => simpa using before
  | cons e rest ih =>
      have one : (put fields e.1 e.2).map Prod.fst = keyOrder (keys ++ [e.1]) := by
        rw [keysPut,before]
        by_cases old : e.1 ∈ keys
        · rw [if_pos (memKeyOrder.mpr old),keyOrderOld old]
        · rw [if_neg (fun h => old (memKeyOrder.mp h)),keyOrderNew old]
      rw [List.foldl_cons,ih one]
      simp

theorem keysOfList (entries : List (Text × Value)) :
    (ofList entries).map Prod.fst = keyOrder (entries.map Prod.fst) := by
  have none : ([] : Fields).map Prod.fst = keyOrder [] := by simp [keyOrder]
  exact keysSet entries none

theorem getSet (entries : List (Text × Value)) (fields : Fields) (key : Text) :
    get? (entries.foldl (fun fields e => put fields e.1 e.2) fields) key =
      (entries.reverse.lookup key).or (get? fields key) := by
  induction entries generalizing fields with
  | nil => rfl
  | cons e rest ih =>
      rw [List.foldl_cons,ih,getPut,List.reverse_cons,List.lookup_append,List.lookup_cons,List.lookup_nil]
      cases rest.reverse.lookup key with
      | some v => rfl
      | none =>
          by_cases same : key = e.1
          · simp [same]
          · rw [beq_false_of_ne same]; simp [same]

theorem getOfList (entries : List (Text × Value)) (key : Text) :
    get? (ofList entries) key = entries.reverse.lookup key :=
  (getSet entries [] key).trans (Option.or_none ..)

def Ordered (fields : Fields) : Prop :=
  (fields.map Prod.fst).Pairwise (fun key later => key ≠ later ∧ goesBefore later key = false)

theorem beforeOnce {key other : Text} (before : goesBefore key other = true) :
    key ≠ other ∧ goesBefore other key = false := by
  refine ⟨?_,?_⟩
  · rintro rfl
    cases index : index? key <;> simp [goesBefore,index] at before
  · cases index : index? key <;> cases index' : index? other <;> simp [goesBefore,index,index'] at before ⊢
    omega

theorem beforeLater {key other later : Text} (before : goesBefore key other = true)
    (behind : goesBefore later other = false) : goesBefore later key = false := by
  cases index : index? key <;> cases index' : index? other <;> cases index'' : index? later <;>
    simp [goesBefore,index,index',index''] at before behind ⊢
  omega

theorem insertPairwise {key : Text} {keys : List Text} (new : key ∉ keys)
    (ordered : keys.Pairwise (fun key later => key ≠ later ∧ goesBefore later key = false)) :
    (insertKey key keys).Pairwise (fun key later => key ≠ later ∧ goesBefore later key = false) := by
  induction keys with
  | nil => exact List.pairwise_singleton _ _
  | cons k rest ih =>
      obtain ⟨apart,absent⟩ := List.ne_and_not_mem_of_not_mem_cons new
      obtain ⟨least,others⟩ := List.pairwise_cons.mp ordered
      rw [insertKey]
      split
      · rename_i before
        refine List.pairwise_cons.mpr ⟨List.forall_mem_cons.mpr ⟨beforeOnce before,fun x later => ⟨?_,?_⟩⟩,ordered⟩
        · rintro rfl; exact absent later
        · exact beforeLater before (least x later).2
      · rename_i behind
        refine List.pairwise_cons.mpr ⟨fun x member => ?_,ih absent others⟩
        rcases List.mem_cons.mp ((insertPerm key rest).mem_iff.mp member) with rfl | later
        · exact ⟨apart.symm,Bool.eq_false_iff.mpr behind⟩
        · exact least x later

theorem putOrdered {fields : Fields} (ordered : fields.Ordered) (key : Text) (value : Value) :
    (put fields key value).Ordered := by
  rw [Ordered,keysPut]
  split
  · exact ordered
  · rename_i new; exact insertPairwise new ordered

theorem keysErase (fields : Fields) (key : Text) :
    (erase fields key).map Prod.fst = (fields.map Prod.fst).filter (· != key) := by
  rw [erase,List.filter_map]
  rfl

theorem eraseOrdered {fields : Fields} (ordered : fields.Ordered) (key : Text) : (erase fields key).Ordered := by
  rw [Ordered,keysErase]
  exact List.Pairwise.filter _ ordered

theorem orderedDistinct {fields : Fields} (ordered : fields.Ordered) : (fields.map Prod.fst).Nodup :=
  ordered.imp And.left

theorem ofListOrdered (entries : List (Text × Value)) : (ofList entries).Ordered := by
  have set (fields : Fields) (ordered : fields.Ordered) :
      Ordered (entries.foldl (fun fields e => put fields e.1 e.2) fields) := by
    induction entries generalizing fields with
    | nil => exact ordered
    | cons e rest ih => exact ih _ (putOrdered ordered e.1 e.2)
  exact set [] .nil

theorem getMember {fields : Fields} (distinct : (fields.map Prod.fst).Nodup) {f : Text × Value}
    (member : f ∈ fields) :
    get? fields f.1 = some f.2 := by
  induction fields with
  | nil => cases member
  | cons g rest ih =>
      obtain ⟨k,v⟩ := g
      obtain ⟨new,distinct⟩ := List.nodup_cons.mp distinct
      rw [getCons]
      rcases List.mem_cons.mp member with first | inside
      · rw [first,if_pos rfl]
      · have apart : f.1 ≠ k := by
          intro same
          subst same
          exact new (List.mem_map.mpr ⟨f,inside,rfl⟩)
        rw [if_neg apart]
        exact ih distinct inside

theorem getFound {fields : Fields} {key : Text} {v : Value} (found : get? fields key = some v) : (key,v) ∈ fields := by
  obtain ⟨before,behind,rfl,_⟩ := List.lookup_eq_some_iff.mp found
  simp

theorem ofListMember {entries : List (Text × Value)} {f : Text × Value} (member : f ∈ ofList entries) :
    f ∈ entries := by
  have found := getMember (orderedDistinct (ofListOrdered entries)) member
  rw [getOfList] at found
  exact List.mem_reverse.mp (getFound found)

theorem beforeAll {key other later : Text} (before : goesBefore key other = true)
    (behind : goesBefore later other = false) : goesBefore key later = true := by
  cases index : index? key <;> cases index' : index? other <;> cases index'' : index? later <;>
    simp [goesBefore,index,index',index''] at before behind ⊢
  omega

theorem eraseCons (key : Text) (f : Text × Value) (rest : Fields) :
    erase (f :: rest) key = if f.1 = key then erase rest key else f :: erase rest key := by
  rw [erase,List.filter_cons]
  by_cases same : f.1 = key <;> simp [erase,same]

theorem insertFirst {key : Text} (value : Value) {fields : Fields} (before : ∀ f ∈ fields, goesBefore key f.1 = true) :
    insertNew key value fields = (key,value) :: fields := by
  cases fields with
  | nil => rfl
  | cons f rest => rw [insertNew,if_pos (before f List.mem_cons_self)]

theorem eraseInsertNew {fields : Fields} (ordered : fields.Ordered) {key other : Text} (apart : other ≠ key)
    (value : Value) : erase (insertNew other value fields) key = insertNew other value (erase fields key) := by
  induction fields with
  | nil => simp [insertNew,erase,apart]
  | cons f rest ih =>
      obtain ⟨least,later⟩ := List.pairwise_cons.mp ordered
      by_cases before : goesBefore other f.1 = true
      · rw [insertNew,if_pos before,eraseCons,if_neg apart]
        refine (insertFirst value (fun g member => ?_)).symm
        rcases List.mem_cons.mp (List.mem_filter.mp member).1 with rfl | inside
        · exact before
        · exact beforeAll before (least g.1 (List.mem_map_of_mem inside)).2
      · rw [insertNew,if_neg before,eraseCons,eraseCons,ih later]
        split
        · rfl
        · rw [insertNew,if_neg before]

theorem eraseInsertSame (fields : Fields) (key : Text) (value : Value) :
    erase (insertNew key value fields) key = erase fields key := by
  induction fields with
  | nil => simp [insertNew,erase]
  | cons f rest ih =>
      rw [insertNew]
      split
      · rw [eraseCons,if_pos rfl]
      · rw [eraseCons,eraseCons,ih]

theorem eraseReplaced (fields : Fields) (key other : Text) (value : Value) :
    erase (fields.map (fun f => if f.1 == other then (other,value) else f)) key =
      (erase fields key).map (fun f => if f.1 == other then (other,value) else f) := by
  rw [erase,List.filter_map,erase]
  congr 1
  refine List.filter_congr (fun f _ => ?_)
  rw [Function.comp_apply]
  split
  · rename_i same; rw [beq_iff_eq.mp same]
  · rfl

theorem erasePut {fields : Fields} (ordered : fields.Ordered) {key other : Text} (apart : other ≠ key) (value : Value) :
    erase (put fields other value) key = put (erase fields key) other value := by
  have present : (erase fields key).any (fun f => f.1 == other) = fields.any (fun f => f.1 == other) := by
    rw [Bool.eq_iff_iff,List.any_eq_true,List.any_eq_true]
    refine ⟨fun ⟨f,member,same⟩ => ⟨f,(List.mem_filter.mp member).1,same⟩,fun ⟨f,member,same⟩ => ?_⟩
    refine ⟨f,List.mem_filter.mpr ⟨member,?_⟩,same⟩
    rw [beq_iff_eq.mp same]
    simpa using apart
  rw [put,put,present]
  split
  · exact eraseReplaced fields key other value
  · exact eraseInsertNew ordered apart value

theorem erasePutSame (fields : Fields) (key : Text) (value : Value) :
    erase (put fields key value) key = erase fields key := by
  rw [put]
  split
  · rw [eraseReplaced]
    refine (List.map_congr_left (fun f member => ?_)).trans (List.map_id _)
    exact if_neg (by simpa using (List.mem_filter.mp member).2)
  · exact eraseInsertSame fields key value

theorem ofListErase (entries : List (Text × Value)) (key : Text) :
    erase (ofList entries) key = ofList (entries.filter (fun e => e.1 != key)) := by
  have set (fields : Fields) (ordered : fields.Ordered) :
      erase (entries.foldl (fun fields e => put fields e.1 e.2) fields) key =
        (entries.filter (fun e => e.1 != key)).foldl (fun fields e => put fields e.1 e.2) (erase fields key) := by
    induction entries generalizing fields with
    | nil => rfl
    | cons e rest ih =>
        rw [List.foldl_cons,ih _ (putOrdered ordered e.1 e.2),List.filter_cons]
        by_cases same : e.1 = key
        · rw [if_neg (by simpa using same),same,erasePutSame]
        · rw [if_pos (by simpa using same),List.foldl_cons,erasePut ordered same]
  exact set [] .nil

theorem toldByKey {fields part : Fields} (found : ∀ f ∈ part, get? fields f.1 = some f.2) :
    part = (part.map Prod.fst).filterMap (fun key => (get? fields key).map (fun v => (key,v))) := by
  induction part with
  | nil => rfl
  | cons f rest ih =>
      rw [List.map_cons,List.filterMap_cons,found f (by simp)]
      exact congrArg (List.cons f) (ih (fun g member => found g (List.mem_cons_of_mem _ member)))

def assemble (entries : List (Text × Value)) : Fields :=
  (keyOrder (entries.map Prod.fst)).filterMap (fun key => (entries.reverse.lookup key).map (fun v => (key,v)))

theorem ofListAssembles (entries : List (Text × Value)) : ofList entries = assemble entries := by
  have told := toldByKey (fun f => getMember (orderedDistinct (ofListOrdered entries)))
  rw [keysOfList] at told
  rw [told]
  unfold assemble
  simp only [getOfList]

end Fields
end AuditLog
