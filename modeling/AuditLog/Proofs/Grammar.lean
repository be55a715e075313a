import AuditLog.Json
import AuditLog.Token

/-! The grammar of JSON texts, written over code units and said without any reader. A phrase is a
value, a member, or what follows an entry up to the end of its container; `Spelt` relates it to
every text that spells it, whatever the layout. `tokens` lists a tree in document order. -/
namespace AuditLog

namespace Grammar

def spaces : List CodeUnit := [0x20,0x09,0x0A,0x0D]

def Blank (t : Text) : Prop := ∀ u ∈ t, u ∈ spaces

def shortEscapes : List (CodeUnit × CodeUnit) :=
  [(0x22,0x22),(0x5C,0x5C),(0x2F,0x2F),(0x62,0x08),(0x66,0x0C),(0x6E,0x0A),(0x72,0x0D),(0x74,0x09)]

inductive Spelling : Text → Text → Prop where
  | nil : Spelling [] []
  | plain {u s t} (quote : u ≠ 0x22) (backslash : u ≠ 0x5C) (control : ¬ u < 0x20) (rest : Spelling s t) :
      Spelling (u :: s) (u :: t)
  | short {u v s t} (escape : (u,v) ∈ shortEscapes) (rest : Spelling s t) :
      Spelling (0x5C :: u :: s) (v :: t)
  | hex {a b c d i j k l s t} (first : Text.hexValue? a = some i) (second : Text.hexValue? b = some j)
      (third : Text.hexValue? c = some k) (fourth : Text.hexValue? d = some l) (rest : Spelling s t) :
      Spelling (0x5C :: 0x75 :: a :: b :: c :: d :: s) (UInt16.ofNat (((i * 16 + j) * 16 + k) * 16 + l) :: t)

inductive Quotation : Text → Text → Prop where
  | marks {s t} (inside : Spelling s t) : Quotation (0x22 :: s ++ [0x22]) t

def AllDigits (t : Text) : Prop := ∀ u ∈ t, Text.isDigit u = true

def Digits (t : Text) : Prop := t ≠ [] ∧ AllDigits t

inductive Whole : Text → Prop where
  | zero : Whole [0x30]
  | digits {d ds} (first : Text.isDigit d = true) (nonzero : d ≠ 0x30) (rest : AllDigits ds) : Whole (d :: ds)

inductive Fraction : Text → Prop where
  | none : Fraction []
  | point {ds} (digits : Digits ds) : Fraction (0x2E :: ds)

inductive Exponent : Text → Prop where
  | none : Exponent []
  | bare {mark ds} (letter : mark = 0x65 ∨ mark = 0x45) (digits : Digits ds) : Exponent (mark :: ds)
  | signed {mark sign ds} (letter : mark = 0x65 ∨ mark = 0x45) (either : sign = 0x2B ∨ sign = 0x2D)
      (digits : Digits ds) : Exponent (mark :: sign :: ds)

inductive Number : Text → Prop where
  | positive {w f e} (whole : Whole w) (fraction : Fraction f) (exponent : Exponent e) : Number (w ++ f ++ e)
  | negative {w f e} (whole : Whole w) (fraction : Fraction f) (exponent : Exponent e) :
      Number (0x2D :: (w ++ f ++ e))

/-- `items` and `members` are the entries that follow another one. -/
inductive Phrase where
  | value (j : Json)
  | member (name : Text) (j : Json)
  | items (js : List Json)
  | members (ms : List (Text × Json))

inductive Spelt : Phrase → Text → Prop where
  | null : Spelt (.value .null) (Text.of "null")
  | yes : Spelt (.value (.flag true)) (Text.of "true")
  | no : Spelt (.value (.flag false)) (Text.of "false")
  | number {t} (number : Number t) : Spelt (.value (.number t)) t
  | string {q t} (quotation : Quotation q t) : Spelt (.value (.string t)) q
  | emptyArray {w} (blank : Blank w) : Spelt (.value (.array [])) (0x5B :: w ++ [0x5D])
  | array {w j s js r} (blank : Blank w) (first : Spelt (.value j) s) (rest : Spelt (.items js) r) :
      Spelt (.value (.array (j :: js))) (0x5B :: w ++ s ++ r)
  | emptyObject {w} (blank : Blank w) : Spelt (.value (.object [])) (0x7B :: w ++ [0x7D])
  | object {w n j s ms r} (blank : Blank w) (first : Spelt (.member n j) s) (rest : Spelt (.members ms) r) :
      Spelt (.value (.object ((n,j) :: ms))) (0x7B :: w ++ s ++ r)
  | member {q n w w' j s} (name : Quotation q n) (before : Blank w) (behind : Blank w')
      (value : Spelt (.value j) s) : Spelt (.member n j) (q ++ w ++ 0x3A :: w' ++ s)
  | noItem {w} (blank : Blank w) : Spelt (.items []) (w ++ [0x5D])
  | item {w w' j s js r} (before : Blank w) (behind : Blank w') (value : Spelt (.value j) s)
      (rest : Spelt (.items js) r) : Spelt (.items (j :: js)) (w ++ 0x2C :: w' ++ s ++ r)
  | noMember {w} (blank : Blank w) : Spelt (.members []) (w ++ [0x7D])
  | nextMember {w w' n j s ms r} (before : Blank w) (behind : Blank w') (value : Spelt (.member n j) s)
      (rest : Spelt (.members ms) r) : Spelt (.members ((n,j) :: ms)) (w ++ 0x2C :: w' ++ s ++ r)

def Mark (t : Text) : Prop := t = [] ∨ t = [0xFEFF]

inductive Document : Option Json → Text → Prop where
  | empty {b w} (mark : Mark b) (blank : Blank w) : Document none (b ++ w)
  | value {b w j s w'} (mark : Mark b) (before : Blank w) (value : Spelt (.value j) s) (behind : Blank w') :
      Document (some j) (b ++ w ++ s ++ w')

end Grammar

namespace Json

mutual
def tokens : Json → List Token
  | .null => [.scalar .null]
  | .flag true => [.scalar .yes]
  | .flag false => [.scalar .no]
  | .number spelling => [.scalar (.number spelling)]
  | .string value => [.scalar (.string value)]
  | .array items => .opening .array :: (itemTokens items ++ [.closing .array])
  | .object members => .opening .object :: (memberTokens members ++ [.closing .object])

def itemTokens : List Json → List Token
  | [] => []
  | item :: rest => tokens item ++ itemTokens rest

def memberTokens : List (Text × Json) → List Token
  | [] => []
  | (name,value) :: rest => .field name :: (tokens value ++ memberTokens rest)
end

end Json

def Grammar.Phrase.tokens : Grammar.Phrase → List Token
  | .value j => j.tokens
  | .member name j => .field name :: j.tokens
  | .items js => Json.itemTokens js ++ [.closing .array]
  | .members ms => Json.memberTokens ms ++ [.closing .object]

end AuditLog
