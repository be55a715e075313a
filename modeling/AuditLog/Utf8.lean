import AuditLog.Text

/-! UTF-8 text. Decoding never fails: each longest start of a character that cannot be
completed becomes one replacement unit. `held` are the last bytes that wait for a later piece. -/
namespace AuditLog.Utf8

abbrev Bytes := List UInt8

def replacement : CodeUnit := 0xFFFD

/-- A character of which `more + 1` bytes are missing, the next one between `low` and `high`. -/
structure Pending where
  more : Nat
  low : UInt8
  high : UInt8
  value : Nat
  deriving DecidableEq, Repr

structure Decoder where
  written : Text
  pending : Option Pending
  deriving DecidableEq, Repr

def Decoder.fresh : Decoder := ⟨[],none⟩

def Decoder.lead (written : Text) (b : UInt8) : Decoder :=
  if b < 0x80 then ⟨b.toUInt16 :: written,none⟩
  else if b < 0xC2 then ⟨replacement :: written,none⟩
  else if b < 0xE0 then ⟨written,some ⟨0,0x80,0xBF,b.toNat - 0xC0⟩⟩
  else if b < 0xF0 then
    ⟨written,some ⟨1,if b = 0xE0 then 0xA0 else 0x80,if b = 0xED then 0x9F else 0xBF,b.toNat - 0xE0⟩⟩
  else if b < 0xF5 then
    ⟨written,some ⟨2,if b = 0xF0 then 0x90 else 0x80,if b = 0xF4 then 0x8F else 0xBF,b.toNat - 0xF0⟩⟩
  else ⟨replacement :: written,none⟩

def Decoder.feed (d : Decoder) (b : UInt8) : Decoder :=
  match d.pending with
  | none => lead d.written b
  | some p =>
      if p.low ≤ b && b ≤ p.high then
        let value := p.value * 0x40 + (b.toNat - 0x80)
        match p.more with
        | 0 => ⟨(Text.ofCodePoint value).reverse ++ d.written,none⟩
        | more + 1 => ⟨d.written,some ⟨more,0x80,0xBF,value⟩⟩
      else lead (replacement :: d.written) b

def Decoder.finish (d : Decoder) : Text :=
  match d.pending with
  | none => d.written.reverse
  | some _ => (replacement :: d.written).reverse

def decode (bytes : Bytes) : Text := (bytes.foldl Decoder.feed Decoder.fresh).finish

def announced (b : UInt8) : Nat :=
  if b < 0xC0 then 0 else if b < 0xE0 then 2 else if b < 0xF0 then 3 else if b < 0xF8 then 4 else 0

def lookBack : (limit seen : Nat) → Bytes → Nat
  | 0, _, _ => 0
  | _, _, [] => 0
  | limit + 1, seen, b :: before =>
      if 0x80 ≤ b && b < 0xC0 then lookBack limit (seen + 1) before
      else if seen + 1 < announced b then seen + 1 else 0

def heldCount (bytes : Bytes) : Nat := lookBack 3 0 bytes.reverse

def complete (bytes : Bytes) : Bytes := bytes.take (bytes.length - heldCount bytes)
def held (bytes : Bytes) : Bytes := bytes.drop (bytes.length - heldCount bytes)

def encodePoint (n : Nat) : Bytes :=
  if n < 0x80 then [UInt8.ofNat n]
  else if n < 0x800 then [UInt8.ofNat (0xC0 + n / 0x40), UInt8.ofNat (0x80 + n % 0x40)]
  else if n < 0x10000 then
    [UInt8.ofNat (0xE0 + n / 0x1000), UInt8.ofNat (0x80 + n / 0x40 % 0x40), UInt8.ofNat (0x80 + n % 0x40)]
  else
    [UInt8.ofNat (0xF0 + n / 0x40000), UInt8.ofNat (0x80 + n / 0x1000 % 0x40),
      UInt8.ofNat (0x80 + n / 0x40 % 0x40), UInt8.ofNat (0x80 + n % 0x40)]

def encode (t : Text) : Bytes :=
  (Text.codePoints t).flatMap (fun n => encodePoint (if Text.isScalar n then n else replacement.toNat))

theorem completeHeld (bytes : Bytes) : complete bytes ++ held bytes = bytes :=
  List.take_append_drop _ bytes

end AuditLog.Utf8
