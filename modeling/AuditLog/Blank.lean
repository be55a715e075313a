import AuditLog.Text

/-! Blank characters around a number: the ASCII blanks, the Unicode space separators,
the two line separators and the byte order mark. -/
namespace AuditLog.Blank

def isBlank (u : CodeUnit) : Bool :=
  (0x09 ≤ u && u ≤ 0x0D) || u = 0x20 || u = 0xA0 || u = 0x1680 || (0x2000 ≤ u && u ≤ 0x200A) ||
    u = 0x2028 || u = 0x2029 || u = 0x202F || u = 0x205F || u = 0x3000 || u = 0xFEFF

def trimStart (t : Text) : Text := t.dropWhile isBlank
def trim (t : Text) : Text := (trimStart (trimStart t).reverse).reverse

end AuditLog.Blank
