import AuditLog.Account
import AuditLog.Event
import AuditLog.Schema

/-! A trail of events: the records of `{ "Records": [ … ] }`, read one at a time. Members after the
list are no part of it, though a trail that is asked again past the end goes on with their tokens.
A released trail refuses every further operation. -/
namespace AuditLog
open Reading Reader

structure Terms where
  recordsField : Text
  ceiling : Float
  provenance : Provenance

def Terms.standardField : Text := Text.of "Records"
def Terms.standardCeiling : Float := 1.06

structure Trail where
  terms : Terms
  session : Session
  closed : Bool

structure Harvest where
  events : List Event
  failure : Option Fault

namespace Trail

def ofSource (terms : Terms) (source : Source) : Trail := ⟨terms,Session.ofSource source,false⟩

def demand (wanted : Token) (flaw : EnvelopeFlaw) : Reader Unit := do
  let found ← next
  let s ← state
  if found = some wanted then pure () else fail (.envelope flaw s.cursor.start)

def envelope (field : Text) : Reader Unit := do
  demand (.opening .object) .notObject
  demand (.field field) (.firstField field)
  demand (.opening .array) (.notArray field)

def more : Reader Bool := do
  match ← next with
  | some (.opening _) => pure true
  | some (.scalar _) => refuse .notRecord
  | _ => pure false

def identifier? (record : Value) : Option Uuid :=
  match record.field? (Text.of "eventID") with
  | some (.identifier id) => some id
  | _ => none

def event (terms : Terms) : Reader Event := do
  let before ← state
  let data ← (Schema.record terms.ceiling).readCurrent
  let after ← state
  let record := Account.resolve data
  let start := before.cursor.start
  let stop := after.cursor.stop
  note (.decoded start stop (identifier? record))
  pure ⟨record,terms.provenance.metadata (.counted start) (.counted stop)⟩

theorem moreTakes {s after : Session} (h : more.run s = (.ok true,after)) : after.unread < s.unread := by
  simp only [more,runBind] at h
  split at h
  · cases h
  · rename_i token s' e
    split at h
    · simp only [runPure,Prod.mk.injEq] at h
      rw [← h.2]
      exact nextTakes e
    · simp [refuse,runBind,runState,runFail] at h
    · simp [runPure] at h

def collectFrom (terms : Terms) (limit : Option Nat) (found : List Event) (s : Session) : Harvest × Session :=
  match asked : more.run s with
  | (.error fault,after) => (⟨found.reverse,some fault⟩,after)
  | (.ok false,after) => (⟨found.reverse,none⟩,after)
  | (.ok true,after) =>
      match read : (event terms).run after with
      | (.error fault,last) => (⟨found.reverse,some fault⟩,last)
      | (.ok e,last) =>
          have : last.unread < s.unread :=
            Nat.lt_of_le_of_lt ((event terms).forwardTo read) (moreTakes asked)
          match limit with
          | none => collectFrom terms none (e :: found) last
          | some n =>
              if n ≤ 1 then (⟨(e :: found).reverse,none⟩,last)
              else collectFrom terms (some (n - 1)) (e :: found) last
termination_by s.unread

def collectAsks (terms : Terms) (limit : Option Nat) (s : Session) : Nat :=
  more.asks s +
    match asked : more.run s with
    | (.error _,_) => 0
    | (.ok false,_) => 0
    | (.ok true,after) =>
        (event terms).asks after +
          match read : (event terms).run after with
          | (.error _,_) => 0
          | (.ok _,last) =>
              have : last.unread < s.unread :=
                Nat.lt_of_le_of_lt ((event terms).forwardTo read) (moreTakes asked)
              match limit with
              | none => collectAsks terms none last
              | some n => if n ≤ 1 then 0 else collectAsks terms (some (n - 1)) last
termination_by s.unread

def perform {α : Type} (t : Trail) (r : Reader α) : Except Fault α × Trail :=
  if t.closed then (.error .trailClosed,t)
  else
    let (result,session) := r.run t.session
    (result,{ t with session })

def enter (t : Trail) : Except Fault Unit × Trail := t.perform (envelope t.terms.recordsField)

def another (t : Trail) : Except Fault Bool × Trail := t.perform more

def take (t : Trail) : Except Fault Event × Trail := t.perform (event t.terms)

def collect (t : Trail) (limit : Option Nat) : Harvest × Trail :=
  if t.closed then (⟨[],some .trailClosed⟩,t)
  else
    let (harvest,session) := collectFrom t.terms limit [] t.session
    (harvest,{ t with session })

def close (t : Trail) : Trail :=
  if t.closed then t else { t with session := t.session.close, closed := true }

end Trail
end AuditLog
