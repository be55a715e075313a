import AuditLog.Reading
import AuditLog.Scanner

/-! Lexemes of JSON. Every lexeme is a scanner, so none depends on chunk borders. A failed lexeme
leaves the units before the flaw consumed; the flaw says where it is. -/
namespace AuditLog.Lexer

structure Lexing where
  input : Input
  start : Nat
  deriving DecidableEq, Repr

def unread (l : Lexing) : Nat := l.input.remaining

end Lexer

abbrev Lexer := Reading Lexer.Lexing Lexer.unread

namespace Lexer
open Reading

variable {σ α : Type}

def scan (m : Scanner σ α) (state : σ) : Lexer α where
  run l :=
    match m.run state l.input with
    | (.error flaw,input) => (.error (.file flaw),⟨input,l.start⟩)
    | (.ok a,input) => (.ok a,⟨input,l.start⟩)
  forward l := by
    have h := m.runShorter state l.input
    split <;> (rename_i e; rw [e] at h; exact h)
  asks _ := 0

def lexeme (m : Scanner σ (Except Malformed α)) (state : σ) : Lexer α := do
  match ← scan m state with
  | .error what => fail (.malformed what)
  | .ok a => pure a

def mark : Lexer Unit := ⟨fun l => (.ok (),⟨l.input,l.input.position⟩),fun _ => Nat.le_refl _,fun _ => 0⟩

def isSpace (u : CodeUnit) : Bool := u == 0x20 || u == 0x09 || u == 0x0A || u == 0x0D

/-- A byte order mark is blank at the very start of the document only. -/
def blanks : Scanner Unit Unit where
  step position _ u := if isSpace u || (u == 0xFEFF && position == 0) then .take () else .leave ()
  atEnd _ _ := ()

def skip : Lexer Unit := do
  scan blanks ()
  mark

def atEnd : Lexer Bool := scan ⟨fun _ _ _ => .leave false,fun _ _ => true⟩ ()

def accept (wanted : CodeUnit) : Lexer Bool :=
  scan ⟨fun _ _ u => if u = wanted then .finish true else .leave false,fun _ _ => false⟩ ()

def missing {α : Type} (wanted : Wanted) (found : Option CodeUnit) (position : Nat) : Except Malformed α :=
  .error ⟨.expected wanted found,position⟩

def separator (wanted : Wanted) (unit : CodeUnit) : Scanner Unit (Except Malformed Unit) where
  step position _ u := if u = unit then .finish (.ok ()) else .leave (missing wanted (some u) position)
  atEnd position _ := missing wanted none position

inductive Lead where
  | whole (token : Token)
  | quote
  | word (scalar : Scalar)
  | number (first : CodeUnit)
  deriving DecidableEq, Repr

def lead? (u : CodeUnit) : Option Lead :=
  if u = 0x7B then some (.whole (.opening .object))
  else if u = 0x5B then some (.whole (.opening .array))
  else if u = 0x22 then some .quote
  else if u = 0x74 then some (.word .yes)
  else if u = 0x66 then some (.word .no)
  else if u = 0x6E then some (.word .null)
  else if u = 0x2D || Text.isDigit u then some (.number u)
  else none

def lead : Scanner Unit (Except Malformed Lead) where
  step position _ u :=
    match lead? u with
    | some l => .finish (.ok l)
    | none => .leave (missing .value (some u) position)
  atEnd position _ := missing .value none position

def openingQuote : Scanner Unit (Except Malformed Unit) := separator .fieldName 0x22

inductive StringState where
  | plain (taken : Text)
  | escaped (taken : Text) (place : Nat)
  | hex (taken : Text) (place more value : Nat)
  deriving DecidableEq, Repr

def shortEscape? (u : CodeUnit) : Option CodeUnit :=
  if u = 0x22 || u = 0x5C || u = 0x2F then some u
  else if u = 0x62 then some 0x08
  else if u = 0x66 then some 0x0C
  else if u = 0x6E then some 0x0A
  else if u = 0x72 then some 0x0D
  else if u = 0x74 then some 0x09
  else none

def string (opening : Nat) : Scanner StringState (Except Malformed Text) where
  step position state u :=
    match state with
    | .plain taken =>
        if u = 0x22 then .finish (.ok taken.reverse)
        else if u = 0x5C then .take (.escaped taken position)
        else if u < 0x20 then .leave (.error ⟨.control,position⟩)
        else .take (.plain (u :: taken))
    | .escaped taken place =>
        if u = 0x75 then .take (.hex taken place 3 0)
        else
          match shortEscape? u with
          | some v => .take (.plain (v :: taken))
          | none => .finish (.error ⟨.escape u,place⟩)
    | .hex taken place more value =>
        match Text.hexValue? u, more with
        | some d, 0 => .take (.plain (UInt16.ofNat (value * 16 + d) :: taken))
        | some d, more + 1 => .take (.hex taken place more (value * 16 + d))
        | none, _ => .leave (.error ⟨.hexEscape,place⟩)
  atEnd _ state :=
    match state with
    | .plain _ => .error ⟨.unterminated,opening⟩
    | .escaped _ place => .error ⟨.unterminated,place⟩
    | .hex _ place _ _ => .error ⟨.hexEscape,place⟩

inductive NumberPart where
  | minus
  | zero
  | whole
  | point
  | fraction
  | mark
  | sign
  | exponent
  deriving DecidableEq, Repr

namespace NumberPart

def first (u : CodeUnit) : NumberPart := if u = 0x2D then .minus else if u = 0x30 then .zero else .whole

def isMark (u : CodeUnit) : Bool := u == 0x65 || u == 0x45

def next? : NumberPart → CodeUnit → Option NumberPart
  | .minus, u => if u = 0x30 then some .zero else if Text.isDigit u then some .whole else none
  | .zero, u => if u = 0x2E then some .point else if isMark u then some .mark else none
  | .whole, u =>
      if Text.isDigit u then some .whole
      else if u = 0x2E then some .point else if isMark u then some .mark else none
  | .point, u => if Text.isDigit u then some .fraction else none
  | .fraction, u => if Text.isDigit u then some .fraction else if isMark u then some .mark else none
  | .mark, u =>
      if u = 0x2B || u = 0x2D then some .sign else if Text.isDigit u then some .exponent else none
  | .sign, u => if Text.isDigit u then some .exponent else none
  | .exponent, u => if Text.isDigit u then some .exponent else none

def complete : NumberPart → Bool
  | .zero => true
  | .whole => true
  | .fraction => true
  | .exponent => true
  | _ => false

end NumberPart

def numberEnd (part : NumberPart) (taken : Text) (found : Option CodeUnit) (position : Nat) :
    Except Malformed Text :=
  if part.complete then .ok taken.reverse else missing .digit found position

def number : Scanner (NumberPart × Text) (Except Malformed Text) where
  step position state u :=
    match state.1.next? u with
    | some part => .take (part,u :: state.2)
    | none => .leave (numberEnd state.1 state.2 (some u) position)
  atEnd position state := numberEnd state.1 state.2 none position

def word (scalar : Scalar) (start : Nat) : Scanner Text (Except Malformed Unit) where
  step _ rest u :=
    match rest with
    | [] => .leave (.ok ())
    | v :: more =>
        if u = v then (if more.isEmpty then .finish (.ok ()) else .take more)
        else .leave (.error ⟨.literal scalar.text,start⟩)
  atEnd _ _ := .error ⟨.literal scalar.text,start⟩

def afterLead : Lead → Lexer Token
  | .whole token => pure token
  | .quote => do
      let l ← state
      let t ← lexeme (string l.start) (.plain [])
      pure (.scalar (.string t))
  | .word scalar => do
      let l ← state
      lexeme (word scalar l.start) (scalar.text.drop 1)
      pure (.scalar scalar)
  | .number first => do
      let t ← lexeme number (NumberPart.first first,[first])
      pure (.scalar (.number t))

def value : Lexer Token := do
  let l ← lexeme lead ()
  afterLead l

def key : Lexer Token := do
  lexeme openingQuote ()
  let l ← state
  let name ← lexeme (string l.start) (.plain [])
  pure (.field name)

inductive Expecting where
  | root
  | elementOrEnd
  | memberOrEnd
  | colon
  | commaOrEnd
  | nothing
  deriving DecidableEq, Repr

def afterComma (next : Lexer Token) : Lexer Token := do
  lexeme (separator .comma 0x2C) ()
  skip
  next

def orClose (container : Container) (otherwise : Lexer Token) : Lexer Token := do
  if ← accept (match container with | .object => 0x7D | .array => 0x5D) then pure (.closing container)
  else otherwise

def token (expecting : Expecting) (inside : Option Container) : Lexer (Option Token) := do
  skip
  match expecting, inside with
  | .nothing, _ => do
      if ← atEnd then pure none
      else
        let l ← state
        fail (.malformed ⟨.trailing,l.input.position⟩)
  | .root, _ => do
      if ← atEnd then pure none else some <$> value
  | .elementOrEnd, _ => some <$> orClose .array value
  | .memberOrEnd, _ => some <$> orClose .object key
  | .colon, _ => do
      lexeme (separator .colon 0x3A) ()
      skip
      some <$> value
  | .commaOrEnd, some .object => some <$> orClose .object (afterComma key)
  | .commaOrEnd, some .array => some <$> orClose .array (afterComma value)
  | .commaOrEnd, none => some <$> afterComma value

theorem scanTakes {m : Scanner σ α} {state : σ} {good : α → Prop} (takes : m.Takes state good) :
    (scan m state).Takes good := by
  intro l a h ok
  have step := @Scanner.runTakes _ _ m state good takes l.input a
  simp only [scan,unread] at h ⊢
  split at h
  · cases h
  · rename_i e
    rw [e] at step
    cases h
    exact step rfl ok

theorem lexemeTakes {m : Scanner σ (Except Malformed α)} {state : σ} {good : α → Prop}
    (takes : m.Takes state (fun r => ∃ a, r = .ok a)) : (lexeme m state).Takes good := by
  refine takesBind (fun r => ?_)
  cases r with
  | error what => exact .inr (takesFail _ _)
  | ok a =>
      refine .inl (scanTakes ⟨?_,?_⟩)
      · intro position u result h same
        exact takes.1 position u result h ⟨a,same⟩
      · intro position same
        exact takes.2 position ⟨a,same⟩

theorem separatorTakes (wanted : Wanted) (unit : CodeUnit) (good : Unit → Prop) :
    (lexeme (separator wanted unit) ()).Takes good := by
  refine lexemeTakes ⟨?_,?_⟩
  · intro position u result h
    simp only [separator] at h
    split at h <;> simp_all [missing]
    subst h; simp
  · intro position; simp [separator,missing]

theorem leadTakes (good : Lead → Prop) : (lexeme lead ()).Takes good := by
  refine lexemeTakes ⟨?_,?_⟩
  · intro position u result h
    simp only [lead] at h
    split at h <;> simp_all [missing]
    subst h; simp
  · intro position; simp [lead,missing]

theorem acceptTakes (wanted : CodeUnit) : (accept wanted).Takes (fun b => b = true) := by
  refine scanTakes ⟨?_,?_⟩
  · intro position u result h
    simp only at h
    split at h <;> simp_all
  · intro position; simp

theorem valueTakes (good : Token → Prop) : value.Takes good :=
  takesBind (fun _ => .inl (leadTakes _))

theorem keyTakes (good : Token → Prop) : key.Takes good :=
  takesBind (fun _ => .inl (separatorTakes _ _ _))

theorem afterCommaTakes (next : Lexer Token) (good : Token → Prop) : (afterComma next).Takes good :=
  takesBind (fun _ => .inl (separatorTakes _ _ _))

theorem orCloseTakes (container : Container) {otherwise : Lexer Token} {good : Token → Prop}
    (takes : otherwise.Takes good) : (orClose container otherwise).Takes good := by
  refine takesBind (fun b => ?_)
  cases b with
  | true => exact .inl (acceptTakes _)
  | false => exact .inr takes

theorem someTakes {r : Lexer Token} {good : Option Token → Prop} (takes : ∀ p, r.Takes p) :
    (some <$> r).Takes good :=
  takesBind (fun _ => .inl (takes _))

theorem tokenTakes (expecting : Expecting) (inside : Option Container) :
    (token expecting inside).Takes (fun t => t.isSome = true) := by
  refine takesBind (fun _ => .inr ?_)
  split
  · refine takesBind (fun b => .inr ?_)
    split
    · exact takesPure (by simp)
    · exact takesBind (fun _ => .inr (takesFail _ _))
  · refine takesBind (fun b => .inr ?_)
    split
    · exact takesPure (by simp)
    · exact someTakes valueTakes
  · exact someTakes (fun p => orCloseTakes _ (valueTakes p))
  · exact someTakes (fun p => orCloseTakes _ (keyTakes p))
  · exact takesBind (fun _ => .inl (separatorTakes _ _ _))
  · exact someTakes (fun p => orCloseTakes _ (afterCommaTakes _ p))
  · exact someTakes (fun p => orCloseTakes _ (afterCommaTakes _ p))
  · exact someTakes (fun p => afterCommaTakes _ p)

end Lexer
end AuditLog
