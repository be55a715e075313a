import AuditLog.Binary

/-! Chunk sizes: how many units or bytes one read supplies, never zero. -/
namespace AuditLog

structure ChunkSize where
  size : Nat
  positive : 0 < size
  deriving DecidableEq, Repr

namespace ChunkSize

def standard : ChunkSize := ⟨65536,by decide⟩

def ofFloat? (x : Float) : Option ChunkSize :=
  match (Binary.ofFloat x).whole? with
  | some (.ofNat (n + 1)) => some ⟨n + 1,Nat.succ_pos n⟩
  | _ => none

def toFloat (c : ChunkSize) : Float := Float.ofScientific c.size false 0

def cut {α : Type} (c : ChunkSize) : List α → List (List α)
  | [] => []
  | x :: rest => (x :: rest).take c.size :: cut c ((x :: rest).drop c.size)
termination_by xs => xs.length
decreasing_by
  have := c.positive
  simp only [List.length_drop,List.length_cons]; omega

/-- The length that a read of a file asks for: the size as a signed word of 32 bits. -/
@[irreducible] def asked (c : ChunkSize) : Int := Int.bmod c.size 4294967296

theorem askedShort {c : ChunkSize} (short : c.size < 2147483648) : c.asked = c.size := by
  unfold asked
  exact Int.bmod_eq_of_le (by omega) (by omega)

theorem askedAbove {c : ChunkSize} (short : c.size < 2147483648) : 0 < c.asked := by
  rw [askedShort short]
  have := c.positive
  omega

theorem cutFlatten {α : Type} (c : ChunkSize) (xs : List α) : (c.cut xs).flatten = xs := by
  fun_induction cut c xs with
  | case1 => rfl
  | case2 x rest ih => simp [ih]

end ChunkSize
end AuditLog
