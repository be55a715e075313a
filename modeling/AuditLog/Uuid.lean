import AuditLog.Text

/-! Event identifiers: 128 bits as lower-case hexadecimal digits in groups of 8, 4, 4, 4 and 12.
Either case is read, any version and variant passes. -/
namespace AuditLog

inductive Glyph where
  | hex
  | hyphen
  | other
  deriving DecidableEq, Repr

def Glyph.of (u : CodeUnit) : Glyph :=
  if (Text.hexValue? u).isSome then .hex else if u = 0x2D then .hyphen else .other

namespace Uuid

def group (length : Nat) : List Glyph := List.replicate length .hex

def layout : List Glyph :=
  group 8 ++ .hyphen :: group 4 ++ .hyphen :: group 4 ++ .hyphen :: group 4 ++ .hyphen :: group 12

def Canonical (t : Text) : Prop := t.map Glyph.of = layout ∧ t.map Text.lower = t

instance (t : Text) : Decidable (Canonical t) := inferInstanceAs (Decidable (_ ∧ _))

end Uuid

structure Uuid where
  text : Text
  canonical : Uuid.Canonical text
  deriving DecidableEq

namespace Uuid

def ofText? (t : Text) : Option Uuid :=
  if h : Canonical (t.map Text.lower) then some ⟨t.map Text.lower,h⟩ else none

end Uuid
end AuditLog
