import AuditLog.Instant
import AuditLog.Json
import AuditLog.Uuid

/-! Decoded values. The fields of an object come in key order: indices first, in ascending order,
then every other key in the order it was first set. Setting a key again keeps its place. -/
namespace AuditLog

inductive Value where
  | null
  | flag (value : Bool)
  | text (value : Text)
  | time (value : Instant)
  | identifier (value : Uuid)
  | list (items : List Value)
  | object (fields : List (Text × Value))
  deriving Inhabited

abbrev Fields := List (Text × Value)

namespace Fields

/-- A key that spells an index: the digits of a number below `2 ^ 32 - 1`, no zero in front. -/
def index? (key : Text) : Option Nat :=
  if !key.isEmpty && key.all Text.isDigit && (key == [0x30] || key.head? != some 0x30) then
    let n := key.foldl (fun n u => 10 * n + (u.toNat - 0x30)) 0
    if n < 4294967295 then some n else none
  else none

def goesBefore (key other : Text) : Bool :=
  match index? key, index? other with
  | some i, some j => i < j
  | some _, none => true
  | none, _ => false

def get? (fields : Fields) (key : Text) : Option Value := fields.lookup key

def insertNew (key : Text) (value : Value) : Fields → Fields
  | [] => [(key,value)]
  | (k,v) :: rest =>
      if goesBefore key k then (key,value) :: (k,v) :: rest else (k,v) :: insertNew key value rest

def put (fields : Fields) (key : Text) (value : Value) : Fields :=
  if fields.any (fun f => f.1 == key) then fields.map (fun f => if f.1 == key then (key,value) else f)
  else insertNew key value fields

def ofList (entries : List (Text × Value)) : Fields := entries.foldl (fun fields e => put fields e.1 e.2) []

def erase (fields : Fields) (key : Text) : Fields := fields.filter (fun f => f.1 != key)

theorem getCons (k key : Text) (v : Value) (rest : Fields) :
    get? ((k,v) :: rest) key = if key = k then some v else get? rest key := by
  simp only [get?,List.lookup_cons]
  cases e : key == k with
  | true => rw [if_pos (by simpa using e)]
  | false => rw [if_neg (by simpa using e)]

theorem getInsertNew (fields : Fields) (key k : Text) (value : Value)
    (fresh : ∀ f ∈ fields, f.1 ≠ key) :
    get? (insertNew key value fields) k = if k = key then some value else get? fields k := by
  induction fields with
  | nil => rw [insertNew,getCons]
  | cons f rest ih =>
      obtain ⟨other,v⟩ := f
      have apart : other ≠ key := fresh (other,v) (by simp)
      have tail := ih (fun f member => fresh f (List.mem_cons_of_mem _ member))
      unfold insertNew
      split
      · rw [getCons,getCons]
      · rw [getCons,getCons,tail]
        by_cases first : k = other
        · subst first; simp [apart]
        · simp [first]

theorem getReplace (fields : Fields) (key k : Text) (value : Value) (present : ∃ f ∈ fields, f.1 = key) :
    get? (fields.map (fun f => if f.1 == key then (key,value) else f)) k =
      if k = key then some value else get? fields k := by
  induction fields with
  | nil => obtain ⟨f,member,_⟩ := present; cases member
  | cons f rest ih =>
      obtain ⟨other,v⟩ := f
      by_cases same : other = key
      · subst same
        rw [List.map_cons,if_pos (by simp),getCons,getCons]
        by_cases first : k = other
        · simp [first]
        · simp only [first,if_false]
          by_cases again : ∃ f ∈ rest, f.1 = other
          · rw [ih again]; simp [first]
          · rw [List.map_congr_left (g := id)]
            · simp
            · intro f member
              have apart : f.1 ≠ other := fun e => again ⟨f,member,e⟩
              simp [apart]
      · have tail : ∃ f ∈ rest, f.1 = key := by
          obtain ⟨f,member,e⟩ := present
          rcases List.mem_cons.mp member with first | inside
          · subst first; exact absurd e same
          · exact ⟨f,inside,e⟩
        rw [List.map_cons,if_neg (by simpa using same),getCons,getCons,ih tail]
        by_cases first : k = other
        · subst first; simp [same]
        · simp [first]

theorem getPut (fields : Fields) (key k : Text) (value : Value) :
    get? (put fields key value) k = if k = key then some value else get? fields k := by
  unfold put
  split
  · rename_i present
    obtain ⟨f,member,same⟩ := List.any_eq_true.mp present
    exact getReplace fields key k value ⟨f,member,by simpa using same⟩
  · rename_i absent
    refine getInsertNew fields key k value ?_
    intro f member same
    exact absent (List.any_eq_true.mpr ⟨f,member,by simpa using same⟩)

theorem getErase (fields : Fields) (key k : Text) :
    get? (erase fields key) k = if k = key then none else get? fields k := by
  induction fields with
  | nil => simp [erase,get?]
  | cons f rest ih =>
      obtain ⟨other,v⟩ := f
      unfold erase at ih ⊢
      rw [List.filter_cons]
      by_cases same : other = key
      · subst same
        rw [if_neg (by simp),ih,getCons]
        by_cases first : k = other <;> simp [first]
      · rw [if_pos (by simpa using same),getCons,getCons,ih]
        by_cases first : k = other
        · subst first; simp [same]
        · simp [first]

end Fields

namespace Value

def ofText? : Option Text → Value
  | none => .null
  | some t => .text t

def field? (key : Text) : Value → Option Value
  | .object fields => Fields.get? fields key
  | _ => none

mutual
def toJson : Value → Json
  | .null => .null
  | .flag b => .flag b
  | .text t => .string t
  | .time i => .string i.text
  | .identifier u => .string u.text
  | .list items => .array (listToJson items)
  | .object fields => .object (fieldsToJson fields)

def listToJson : List Value → List Json
  | [] => []
  | v :: rest => toJson v :: listToJson rest

def fieldsToJson : List (Text × Value) → List (Text × Json)
  | [] => []
  | (k,v) :: rest => (k,toJson v) :: fieldsToJson rest
end

end Value
end AuditLog
