import AuditLog.Cursor
import AuditLog.Notice

/-! Readers: computations over a cursor that may leave notices. `loop` is the one way to repeat;
it ends because every token read leaves less unread. -/
namespace AuditLog

structure Session where
  cursor : Cursor
  noted : List Notice

namespace Session

def ofSource (source : Source) : Session := ⟨Cursor.ofSource source,[]⟩

def unread (s : Session) : Nat := s.cursor.unread

def notices (s : Session) : List Notice := s.noted.reverse

def close (s : Session) : Session := { s with cursor := s.cursor.close }

end Session

abbrev Reader := Reading Session Session.unread

namespace Reader
open Reading

variable {α β : Type}

def next : Reader (Option Token) where
  run s :=
    let (result,cursor) := s.cursor.next
    (result,{ s with cursor })
  forward s := s.cursor.nextForward
  asks _ := 1

theorem nextTakes {s : Session} {token : Token} {after : Session}
    (h : next.run s = (.ok (some token),after)) : after.unread < s.unread := by
  have e := congrArg Prod.fst h
  have same := congrArg Prod.snd h
  subst same
  exact Cursor.nextTakes e

def note (n : Notice) : Reader Unit :=
  ⟨fun s => (.ok (),{ s with noted := n :: s.noted }),fun _ => Nat.le_refl _,fun _ => 0⟩

def noteAny : Option Notice → Reader Unit
  | none => pure ()
  | some n => note n

def refuse (flaw : RecordFlaw) : Reader α := do
  let s ← state
  fail (.record flaw s.cursor.start)

def loopFrom (step : α → Token → Reader (α ⊕ β)) (atEnd : α → Reader β) (a : α) (s : Session) :
    Except Fault β × Session :=
  match read : next.run s with
  | (.error fault,after) => (.error fault,after)
  | (.ok none,after) => (atEnd a).run after
  | (.ok (some token),after) =>
      match went : (step a token).run after with
      | (.error fault,last) => (.error fault,last)
      | (.ok (.inr b),last) => (.ok b,last)
      | (.ok (.inl so),last) =>
          have : last.unread < s.unread :=
            Nat.lt_of_le_of_lt ((step a token).forwardTo went) (nextTakes read)
          loopFrom step atEnd so last
termination_by s.unread

theorem loopForward (step : α → Token → Reader (α ⊕ β)) (atEnd : α → Reader β) (a : α) (s : Session) :
    (loopFrom step atEnd a s).2.unread ≤ s.unread := by
  fun_induction loopFrom step atEnd a s with
  | case1 a s fault after read => exact next.forwardTo read
  | case2 a s after read => exact Nat.le_trans ((atEnd a).forward after) (next.forwardTo read)
  | case3 a s token after read fault last went =>
      exact Nat.le_trans ((step a token).forwardTo went) (next.forwardTo read)
  | case4 a s token after read b last went =>
      exact Nat.le_trans ((step a token).forwardTo went) (next.forwardTo read)
  | case5 a s token after read so last went shorter ih =>
      exact Nat.le_trans ih (Nat.le_of_lt shorter)

def loopAsks (step : α → Token → Reader (α ⊕ β)) (atEnd : α → Reader β) (a : α) (s : Session) : Nat :=
  next.asks s +
    match read : next.run s with
    | (.error _,_) => 0
    | (.ok none,after) => (atEnd a).asks after
    | (.ok (some token),after) =>
        (step a token).asks after +
          match went : (step a token).run after with
          | (.error _,_) => 0
          | (.ok (.inr _),_) => 0
          | (.ok (.inl so),last) =>
              have : last.unread < s.unread :=
                Nat.lt_of_le_of_lt ((step a token).forwardTo went) (nextTakes read)
              loopAsks step atEnd so last
termination_by s.unread

def loop (step : α → Token → Reader (α ⊕ β)) (atEnd : α → Reader β) (a : α) : Reader β :=
  ⟨loopFrom step atEnd a,loopForward step atEnd a,loopAsks step atEnd a⟩

def piece (previous token : Token) : Text :=
  let comma : Text := if previous.endsValue && !token.closes then [0x2C] else []
  match token with
  | .field name => comma ++ Quoted.quote name ++ [0x3A]
  | .scalar (.string value) => comma ++ Quoted.quote value
  | _ => comma ++ token.text

structure Subtree where
  pieces : List Text
  previous : Token
  depth : Nat
  deriving DecidableEq, Repr

def depthAfter (depth : Nat) : Token → Nat
  | .opening _ => depth + 1
  | .closing _ => depth - 1
  | _ => depth

def subtreeStep (so : Subtree) (token : Token) : Reader (Subtree ⊕ Text) :=
  let pieces := piece so.previous token :: so.pieces
  let depth := depthAfter so.depth token
  pure (if depth = 0 then .inr pieces.reverse.flatten else .inl ⟨pieces,token,depth⟩)

def subtreeUnended (_ : Subtree) : Reader Text := do
  let s ← state
  fail (.malformed ⟨.endOfInput,s.cursor.input.position⟩)

def subtree : Reader Text := do
  let s ← state
  match s.cursor.current with
  | some (.opening container) =>
      loop subtreeStep subtreeUnended ⟨[(Token.opening container).text],.opening container,1⟩
  | token => fail (.notContainer token s.cursor.start)

def flag : Reader Bool := do
  let s ← state
  match s.cursor.flag with
  | .ok b => pure b
  | .error fault => fail fault

def nextText : Reader (Option Text) := do
  match ← next with
  | some (.scalar (.string value)) => pure (some value)
  | _ => pure none

end Reader
end AuditLog
