import AuditLog.Text

/-! Quoted text. A quote and a backslash are escaped, so are controls and unpaired surrogates;
every other character stands for itself, so quoted text is well formed whatever it quotes. -/
namespace AuditLog.Quoted

def quoteMark : CodeUnit := 0x22
def backslash : CodeUnit := 0x5C

def hexEscape (n : Nat) : Text :=
  [backslash, 0x75, Text.digit (n / 0x1000 % 16), Text.digit (n / 0x100 % 16),
    Text.digit (n / 0x10 % 16), Text.digit (n % 16)]

def escape (n : Nat) : Text :=
  if n = 0x22 then [backslash,quoteMark]
  else if n = 0x5C then [backslash,backslash]
  else if n = 0x08 then [backslash,0x62]
  else if n = 0x09 then [backslash,0x74]
  else if n = 0x0A then [backslash,0x6E]
  else if n = 0x0C then [backslash,0x66]
  else if n = 0x0D then [backslash,0x72]
  else if n < 0x20 then hexEscape n
  else if Text.isScalar n then Text.ofCodePoint n
  else hexEscape n

def quote (t : Text) : Text := quoteMark :: (Text.codePoints t).flatMap escape ++ [quoteMark]

end AuditLog.Quoted
