import AuditLog.Lexer

/-! A cursor over the tokens of a document. A failed step moves the read position and the start
of the token under way, nothing else. -/
namespace AuditLog

structure Cursor where
  input : Input
  start : Nat
  stop : Nat
  expecting : Lexer.Expecting
  nesting : List Container
  token : Option Token
  name : Option Text
  closed : Bool
  deriving DecidableEq, Repr

namespace Cursor

def ofSource (source : Source) : Cursor := ⟨Input.ofSource source,0,0,.root,[],none,none,false⟩

def current (c : Cursor) : Option Token := if c.closed then none else c.token

def text (c : Cursor) : Text := (c.token.map Token.text).getD []

def nestingAfter (nesting : List Container) : Token → List Container
  | .opening container => container :: nesting
  | .closing _ => nesting.tail
  | _ => nesting

def expectingAfter (nesting : List Container) : Option Token → Lexer.Expecting
  | none => .nothing
  | some (.opening .object) => .memberOrEnd
  | some (.opening .array) => .elementOrEnd
  | some (.field _) => .colon
  | some _ => if nesting.isEmpty then .nothing else .commaOrEnd

def nameAfter (previous token : Option Token) : Option Text :=
  match token, previous with
  | some (.field name), _ => some name
  | _, some (.field name) => some name
  | _, _ => none

def advanced (c : Cursor) (token : Option Token) (l : Lexer.Lexing) : Cursor :=
  let nesting := (token.map (nestingAfter c.nesting)).getD c.nesting
  ⟨l.input,l.start,l.input.position,expectingAfter nesting token,nesting,token,
    nameAfter c.token token,c.closed⟩

def next (c : Cursor) : Except Fault (Option Token) × Cursor :=
  if c.closed then (.error .cursorClosed,c)
  else
    match (Lexer.token c.expecting c.nesting.head?).run ⟨c.input,c.start⟩ with
    | (.error fault,l) => (.error fault,{ c with input := l.input, start := l.start })
    | (.ok token,l) => (.ok token,advanced c token l)

def flag (c : Cursor) : Except Fault Bool :=
  match c.current with
  | some (.scalar .yes) => .ok true
  | some (.scalar .no) => .ok false
  | token => .error (.notBoolean token c.start)

def close (c : Cursor) : Cursor :=
  if c.closed then c
  else { c with input := { c.input with source := c.input.source.close }, closed := true }

def unread (c : Cursor) : Nat := c.input.remaining

theorem nextForward (c : Cursor) : (c.next).2.unread ≤ c.unread := by
  unfold next
  split
  · exact Nat.le_refl _
  · have h := (Lexer.token c.expecting c.nesting.head?).forward ⟨c.input,c.start⟩
    split <;> (rename_i e; rw [e] at h; exact h)

theorem nextTakes {c : Cursor} {token : Token} (h : (c.next).1 = .ok (some token)) :
    (c.next).2.unread < c.unread := by
  have takes := Lexer.tokenTakes c.expecting c.nesting.head? ⟨c.input,c.start⟩ (some token)
  unfold next at h ⊢
  split at h
  · cases h
  · rename_i opened
    rw [if_neg opened]
    split at h
    · cases h
    · rename_i found l e
      cases h
      rw [e] at takes
      exact takes rfl rfl

end Cursor
end AuditLog
