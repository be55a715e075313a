/-! Text as a list of UTF-16 code units. Offsets, lengths and slices count units,
so an unpaired surrogate is an ordinary unit and every position is a boundary. -/
namespace AuditLog

abbrev CodeUnit := UInt16
abbrev Text := List CodeUnit

namespace Text

def isHigh (u : CodeUnit) : Bool := 0xD800 ≤ u && u < 0xDC00
def isLow (u : CodeUnit) : Bool := 0xDC00 ≤ u && u < 0xE000

def ofCodePoint (n : Nat) : Text :=
  if n < 0x10000 then [UInt16.ofNat n]
  else [UInt16.ofNat (0xD800 + (n - 0x10000) / 0x400), UInt16.ofNat (0xDC00 + (n - 0x10000) % 0x400)]

def of (s : String) : Text := s.toList.flatMap (fun c => ofCodePoint c.toNat)

def codePointsOnto (found : List Nat) : Text → List Nat
  | [] => found.reverse
  | [u] => (u.toNat :: found).reverse
  | u :: v :: rest =>
      if isHigh u && isLow v then
        codePointsOnto ((0x10000 + (u.toNat - 0xD800) * 0x400 + (v.toNat - 0xDC00)) :: found) rest
      else codePointsOnto (u.toNat :: found) (v :: rest)

def codePoints (t : Text) : List Nat := codePointsOnto [] t

def isScalar (n : Nat) : Bool := n < 0xD800 || 0xE000 ≤ n

def wellFormed (t : Text) : Bool := (codePoints t).all isScalar

def chars (t : Text) : List Char :=
  (codePoints t).map (fun n => if isScalar n then Char.ofNat n else Char.ofNat 0xFFFD)

def toString? (t : Text) : Option String :=
  if wellFormed t then some (String.ofList (chars t)) else none

def clamp (length : Nat) (position : Int) : Nat :=
  if position < 0 then (length + position).toNat else min position.toNat length

def lower (u : CodeUnit) : CodeUnit := if 0x41 ≤ u && u ≤ 0x5A then u + 0x20 else u

def isDigit (u : CodeUnit) : Bool := 0x30 ≤ u && u ≤ 0x39

def hexValue? (u : CodeUnit) : Option Nat :=
  if isDigit u then some (u.toNat - 0x30)
  else if 0x41 ≤ u && u ≤ 0x46 then some (u.toNat - 0x37)
  else if 0x61 ≤ u && u ≤ 0x66 then some (u.toNat - 0x57)
  else none

def digit (n : Nat) : CodeUnit := UInt16.ofNat (if n < 10 then 0x30 + n else 0x57 + n)

def digitsUp (n : Nat) : Text := if h : n = 0 then [] else digit (n % 10) :: digitsUp (n / 10)
termination_by n
decreasing_by omega

def ofNat (n : Nat) : Text := if n = 0 then [digit 0] else (digitsUp n).reverse

def padded : Nat → Nat → Text
  | 0, _ => []
  | width + 1, n => padded width (n / 10) ++ [digit (n % 10)]

def join (separator : Text) : List Text → Text
  | [] => []
  | [t] => t
  | t :: rest => t ++ separator ++ join separator rest

theorem codePointsOntoAppend (found : List Nat) (t : Text) :
    codePointsOnto found t = found.reverse ++ codePoints t := by
  unfold codePoints
  suffices h : ∀ (n : Nat) (t : Text), t.length ≤ n → ∀ found,
      codePointsOnto found t = found.reverse ++ codePointsOnto [] t from h t.length t (Nat.le_refl _) found
  intro n
  induction n with
  | zero => intro t small found; cases t with
    | nil => simp [codePointsOnto]
    | cons u rest => simp at small
  | succ n ih =>
      intro t small found
      match t with
      | [] => simp [codePointsOnto]
      | [u] => simp [codePointsOnto]
      | u :: v :: rest =>
          simp only [List.length_cons] at small
          unfold codePointsOnto
          split
          · rw [ih rest (by omega), ih rest (by omega) [_]]; simp
          · rw [ih (v :: rest) (by simp only [List.length_cons]; omega),
              ih (v :: rest) (by simp only [List.length_cons]; omega) [_]]; simp

theorem codePointsPair (u v : CodeUnit) (rest : Text) (high : isHigh u = true) (low : isLow v = true) :
    codePoints (u :: v :: rest) =
      (0x10000 + (u.toNat - 0xD800) * 0x400 + (v.toNat - 0xDC00)) :: codePoints rest := by
  conv => lhs; unfold codePoints codePointsOnto
  simp only [high, low, Bool.and_self, if_true]
  rw [codePointsOntoAppend]; rfl

theorem codePointsAlone (u v : CodeUnit) (rest : Text) (apart : (isHigh u && isLow v) = false) :
    codePoints (u :: v :: rest) = u.toNat :: codePoints (v :: rest) := by
  conv => lhs; unfold codePoints codePointsOnto
  simp only [apart, Bool.false_eq_true, if_false]
  rw [codePointsOntoAppend]; rfl

end Text
end AuditLog
