import AuditLog.Proofs.Arranged
import AuditLog.Proofs.Canonical
import AuditLog.Proofs.Dates

/-! The members of an object in its source. The last member of a name tells what is kept under that
name, and a container that is kept as text has the tokens it has in the source. -/
namespace AuditLog
open Grammar

structure Member where
  name : Text
  item : Json
  source : Text

namespace Member

def pair (m : Member) : Text × Json := (m.name,m.item)

def last? (ms : List Member) (name : Text) : Option Member := ms.reverse.find? (fun m => m.name == name)

theorem lastMember {ms : List Member} {name : Text} {m : Member} (last : last? ms name = some m) :
    m ∈ ms ∧ m.name = name :=
  ⟨List.mem_reverse.mp (List.mem_of_find?_eq_some last),by simpa using List.find?_some last⟩

end Member

namespace Grammar

end Grammar

namespace Reader
open Cursor

end Reader

namespace Reference

def recordNames : List String :=
  ["eventVersion","userIdentity","eventTime","eventID","readOnly","resources","managementEvent"]

theorem unnamedField {name : Text} (unnamed : named recordNames name = false) (j : Json) :
    recordField? name j = some (anything j) := by
  have other (n : String) (listed : n ∈ recordNames) : ¬ named [n] name = true := by
    intro single
    have same : name = Text.of n := by simpa [named] using single
    have among : named recordNames name = true := by
      simp only [named,List.contains_eq_mem,decide_eq_true_eq]
      exact List.mem_map.mpr ⟨n,listed,same.symm⟩
    rw [unnamed] at among
    cases among
  simp only [recordField?]
  repeat rw [if_neg (other _ (by decide))]

end Reference
end AuditLog
