import AuditLog.Schema

/-! What may be asked of a session, one operation after another, and what is seen of it after each.
A fault ends its operation, not the session: the next operation goes on where that one stopped. -/
namespace AuditLog

inductive Operation where
  | next
  | nextText
  | flag
  | leafText
  | subtree
  | readNext (rule : Rule)
  | readCurrent (rule : Rule)
  | close

inductive Answer where
  | token (found : Option Token)
  | text (found : Option Text)
  | flag (value : Bool)
  | value (value : Value)
  | closed

structure View where
  token : Option Token
  text : Text
  name : Option Text
  start : Nat
  stop : Nat
  deriving DecidableEq, Repr

def Cursor.view (c : Cursor) : View := ⟨c.current,c.text,c.name,c.start,c.stop⟩

structure Outcome where
  result : Except Fault Answer
  view : View
  notices : List Notice

theorem Cursor.closeForward (c : Cursor) : c.close.unread ≤ c.unread := by
  unfold close
  split
  · exact Nat.le_refl _
  · simp only [unread,Input.remaining,Input.rest,Source.close,List.length_append]
    simp

def Reader.close : Reader Unit := ⟨fun s => (.ok (),s.close),fun s => s.cursor.closeForward,fun _ => 0⟩

def Reader.leafText : Reader (Option Text) := do
  let s ← Reading.state
  pure (s.cursor.current.bind Token.leafText?)

namespace Operation

def reader : Operation → Reader Answer
  | .next => .token <$> Reader.next
  | .nextText => .text <$> Reader.nextText
  | .flag => .flag <$> Reader.flag
  | .leafText => .text <$> Reader.leafText
  | .subtree => (fun t => .text (some t)) <$> Reader.subtree
  | .readNext rule => .value <$> rule.readNext
  | .readCurrent rule => .value <$> rule.readCurrent
  | .close => (fun _ => .closed) <$> Reader.close

def outcome (op : Operation) (s : Session) : Outcome :=
  ⟨(op.reader.run s).1,(op.reader.run s).2.cursor.view,(op.reader.run s).2.notices⟩

def transcript : List Operation → Session → List Outcome
  | [], _ => []
  | op :: ops, s => op.outcome s :: transcript ops (op.reader.run s).2

def after : List Operation → Session → Session
  | [], s => s
  | op :: ops, s => after ops (op.reader.run s).2

end Operation
end AuditLog
