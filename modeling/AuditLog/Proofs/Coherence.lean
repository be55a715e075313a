import AuditLog.Proofs.Consume

/-! The parts of a cursor agree. Its state, token and name and the containers open around it go together
after every step, be it a failed one, and the open containers are those of the tokens told so far. -/
namespace AuditLog
open Reading Grammar

namespace Grammar

inductive Balanced : List Token → Prop where
  | nil : Balanced []
  | field {name ts} (rest : Balanced ts) : Balanced (.field name :: ts)
  | scalar {scalar ts} (rest : Balanced ts) : Balanced (.scalar scalar :: ts)
  | pair {container inner ts} (inside : Balanced inner) (rest : Balanced ts) :
      Balanced (.opening container :: inner ++ .closing container :: ts)

inductive Unclosed : List Container → List Token → Prop where
  | none {ts} (balanced : Balanced ts) : Unclosed [] ts
  | some {container stack front ts} (outer : Unclosed stack front) (balanced : Balanced ts) :
      Unclosed (container :: stack) (front ++ .opening container :: ts)

theorem balancedAppend {ts ts' : List Token} (first : Balanced ts) (second : Balanced ts') :
    Balanced (ts ++ ts') := by
  induction first with
  | nil => exact second
  | field _ ih => exact .field ih
  | scalar _ ih => exact .scalar ih
  | @pair container inner ts inside _ _ ih =>
      have paired : Balanced (.opening container :: inner ++ .closing container :: (ts ++ ts')) := .pair inside ih
      simpa using paired

theorem unclosedAppend {stack : List Container} {ts ts' : List Token} (unclosed : Unclosed stack ts)
    (balanced : Balanced ts') : Unclosed stack (ts ++ ts') := by
  cases unclosed with
  | none first => exact .none (balancedAppend first balanced)
  | @some container stack front ts outer inner =>
      have longer : Unclosed (container :: stack) (front ++ .opening container :: (ts ++ ts')) :=
        .some outer (balancedAppend inner balanced)
      simpa using longer

theorem unclosedOpening {stack : List Container} {ts : List Token} (unclosed : Unclosed stack ts)
    (container : Container) : Unclosed (container :: stack) (ts ++ [.opening container]) :=
  .some unclosed .nil

theorem unclosedClosing {stack : List Container} {ts : List Token} {container : Container}
    (unclosed : Unclosed (container :: stack) ts) : Unclosed stack (ts ++ [.closing container]) := by
  cases unclosed with
  | @some _ _ front ts outer inner =>
      have paired : Balanced (.opening container :: ts ++ [.closing container]) := .pair inner .nil
      have shut := unclosedAppend outer paired
      simpa using shut

end Grammar

def Outcome.token? (o : Outcome) : Option Token :=
  match o.result with
  | .ok (.token found) => found
  | _ => none

namespace Operation

theorem afterAppend (ops ops' : List Operation) (s : Session) : after (ops ++ ops') s = after ops' (after ops s) := by
  induction ops generalizing s with
  | nil => rfl
  | cons op ops ih => exact ih _

theorem transcriptAppend (ops ops' : List Operation) (s : Session) :
    transcript (ops ++ ops') s = transcript ops s ++ transcript ops' (after ops s) := by
  induction ops generalizing s with
  | nil => rfl
  | cons op ops ih => rw [List.cons_append,transcript,transcript,ih]; rfl

def told (n : Nat) (s : Session) : List Token := (transcript (List.replicate n .next) s).filterMap Outcome.token?

theorem stepTold (n : Nat) {s : Session} {d : Cursor} {result : Except Fault (Option Token)}
    (stepped : (after (List.replicate n .next) s).cursor.next = (result,d)) :
    (after (List.replicate (n + 1) .next) s).cursor = d ∧
      told (n + 1) s = told n s ++ (result.toOption.bind id).toList := by
  obtain ⟨outcome,last⟩ := nextRan stepped
  rw [told,List.replicate_succ',afterAppend,transcriptAppend,List.filterMap_append]
  refine ⟨by simp only [after,last],congrArg (List.append _) ?_⟩
  simp only [transcript,outcome,List.filterMap_cons,List.filterMap_nil,Outcome.token?]
  cases result with
  | error fault => rfl
  | ok found => cases found <;> rfl

end Operation

namespace Cursor

inductive Behind (c : Cursor) : Prop where
  | start (expecting : c.expecting = .root) (nesting : c.nesting = []) (token : c.token = none)
  | token (expecting : c.expecting = expectingAfter c.nesting c.token) (ended : c.token = none → c.nesting = [])
      (opened : ∀ container, c.token = some (.opening container) → c.nesting.head? = some container)
      (named : ∀ name, c.token = some (.field name) → c.nesting.head? = some .object ∧ c.name = some name)

theorem expectingOutside {nesting : List Container} {token : Token}
    (beyond : expectingAfter nesting (some token) = .nothing ∨ expectingAfter nesting (some token) = .root) :
    nesting = [] := by
  cases nesting with
  | nil => rfl
  | cons container nesting =>
      cases token with
      | opening k => cases k <;> simp [expectingAfter] at beyond
      | _ => simp [expectingAfter] at beyond

theorem behindOutside {c : Cursor} (behind : Behind c) (beyond : c.expecting = .nothing ∨ c.expecting = .root) :
    c.nesting = [] := by
  cases behind with
  | start _ nesting _ => exact nesting
  | token expecting ended _ _ =>
      cases shown : c.token with
      | none => exact ended shown
      | some token =>
          rw [expecting,shown] at beyond
          exact expectingOutside beyond

theorem expectingMember {nesting : List Container} {token : Option Token}
    (same : expectingAfter nesting token = .memberOrEnd) : token = some (.opening .object) := by
  cases token with
  | none => cases same
  | some token =>
      cases token with
      | opening container => cases container <;> first | rfl | cases same
      | field name => cases same
      | _ => simp only [expectingAfter] at same; split at same <;> cases same

theorem expectingElement {nesting : List Container} {token : Option Token}
    (same : expectingAfter nesting token = .elementOrEnd) : token = some (.opening .array) := by
  cases token with
  | none => cases same
  | some token =>
      cases token with
      | opening container => cases container <;> first | rfl | cases same
      | field name => cases same
      | _ => simp only [expectingAfter] at same; split at same <;> cases same

theorem behindMember {c : Cursor} (behind : Behind c) (member : c.expecting = .memberOrEnd) :
    c.nesting.head? = some .object := by
  cases behind with
  | start root _ _ => rw [root] at member; cases member
  | token expecting _ opened _ => exact opened _ (expectingMember (expecting.symm.trans member))

theorem behindElement {c : Cursor} (behind : Behind c) (element : c.expecting = .elementOrEnd) :
    c.nesting.head? = some .array := by
  cases behind with
  | start root _ _ => rw [root] at element; cases element
  | token expecting _ opened _ => exact opened _ (expectingElement (expecting.symm.trans element))

def Suits (inside : Option Container) : Token → Prop
  | .field _ => inside = some .object
  | .closing container => inside = some container
  | _ => True

theorem startsSuits {token : Token} (starts : StartsValue token) (inside : Option Container) : Suits inside token := by
  cases token with
  | field name => cases starts
  | closing container => cases starts
  | _ => trivial

theorem behindSuits {c : Cursor} (behind : Behind c) {token : Token} {separator : Option CodeUnit}
    (fits : Fits c.expecting c.nesting.head? token separator) : Suits c.nesting.head? token := by
  generalize same : c.expecting = expecting at fits
  generalize around : c.nesting.head? = inside at fits ⊢
  cases fits with
  | root starts => exact startsSuits starts _
  | firstItem starts => exact startsSuits starts _
  | noItem => exact around.symm.trans (behindElement behind same)
  | firstMember => exact around.symm.trans (behindMember behind same)
  | noMember => exact around.symm.trans (behindMember behind same)
  | value starts => exact startsSuits starts _
  | item starts => exact startsSuits starts _
  | loose starts => exact startsSuits starts _
  | _ => rfl

theorem takenBehind {c d : Cursor} {gap source : Text} {token : Token} (behind : Behind c)
    (taken : Taken c gap token source d) : Behind d := by
  obtain ⟨separator,fits,_⟩ := taken.before
  refine .token (by rw [taken.token,taken.expecting]) (by rw [taken.token]; nofun) ?_ ?_
  · intro container shown
    rw [taken.token] at shown
    cases shown
    rw [taken.nesting]; rfl
  · intro name shown
    rw [taken.token] at shown
    cases shown
    have nesting : d.nesting = c.nesting := taken.nesting
    exact ⟨by rw [nesting]; exact behindSuits behind fits,taken.name⟩

theorem takenUnclosed {c d : Cursor} {gap source : Text} {token : Token} {ts : List Token} (behind : Behind c)
    (taken : Taken c gap token source d) (unclosed : Unclosed c.nesting ts) : Unclosed d.nesting (ts ++ [token]) := by
  obtain ⟨separator,fits,_⟩ := taken.before
  rw [taken.nesting]
  cases token with
  | opening container => exact unclosedOpening unclosed container
  | field name => exact unclosedAppend unclosed (.field .nil)
  | scalar scalar => exact unclosedAppend unclosed (.scalar .nil)
  | closing container =>
      have innermost : c.nesting.head? = some container := behindSuits behind fits
      cases same : c.nesting with
      | nil => rw [same] at innermost; cases innermost
      | cons k stack =>
          rw [same] at innermost unclosed
          cases innermost
          exact unclosedClosing unclosed

def Stepped (chunks : List Text) (c : Cursor) : Prop :=
  ∃ n, (Operation.after (List.replicate n .next) (.ofSource (.ofChunks chunks))).cursor = c ∧
    Unclosed c.nesting (Operation.told n (.ofSource (.ofChunks chunks)))

structure Driven (chunks : List Text) (c : Cursor) : Prop where
  reached : Reached chunks.flatten c
  sane : c.closed = false → Behind c ∧ Stepped chunks c

theorem drivenNext {chunks : List Text} {c d : Cursor} {result : Except Fault (Option Token)}
    (driven : Driven chunks c) (stepped : c.next = (result,d)) : Driven chunks d := by
  cases shut : c.closed with
  | true =>
      obtain ⟨rfl,_⟩ := nextClosed shut stepped
      exact driven
  | false =>
      refine ⟨reachedNext driven.reached stepped,fun _ => ?_⟩
      have ready := settledReady driven.reached.settled shut
      obtain ⟨behind,n,here,unclosed⟩ := driven.sane shut
      rw [← here] at stepped
      obtain ⟨there,told⟩ := Operation.stepTold n stepped
      rw [here] at stepped
      cases result with
      | error fault =>
          have told : _ = _ ++ [] := told
          rw [List.append_nil] at told
          obtain ⟨_,_,rfl⟩ := nextFailed stepped
          refine ⟨?_,n + 1,there,by rw [told]; exact unclosed⟩
          cases behind with
          | start expecting nesting token => exact .start expecting nesting token
          | token expecting ended opened named => exact .token expecting ended opened named
      | ok found =>
          cases found with
          | none =>
              have ended := nextEnded ready stepped
              have nesting : d.nesting = [] := ended.nesting.trans (behindOutside behind ended.beyond)
              have told : _ = _ ++ [] := told
              rw [List.append_nil] at told
              refine ⟨.token ?_ (fun _ => nesting) ?_ ?_,n + 1,there,?_⟩
              · rw [ended.expecting,ended.token]; rfl
              · rw [ended.token]; nofun
              · rw [ended.token]; nofun
              · rw [told,ended.nesting]; exact unclosed
          | some token =>
              obtain ⟨_,_,taken⟩ := nextTaken ready stepped
              refine ⟨takenBehind behind taken,n + 1,there,?_⟩
              rw [told]
              exact takenUnclosed behind taken unclosed

theorem drivenClose {chunks : List Text} {c : Cursor} (driven : Driven chunks c) : Driven chunks c.close := by
  refine ⟨reachedClose driven.reached,?_⟩
  unfold close
  split
  · exact driven.sane
  · nofun

theorem drivenAfter (chunks : List Text) (ops : List Operation) :
    Driven chunks (Operation.after ops (.ofSource (.ofChunks chunks))).cursor :=
  Session.keptAfter ops drivenNext drivenClose
    ⟨reachedAfter chunks [],fun _ => ⟨.start rfl rfl rfl,0,rfl,.none .nil⟩⟩

/-- How the state of a cursor, its token, its name and the containers around it go together. -/
structure Coherent (c : Cursor) : Prop where
  root : c.expecting = .root → c.nesting = [] ∧ c.current = none
  memberOrEnd : c.expecting = .memberOrEnd ↔ c.current = some (.opening .object)
  inObject : c.current = some (.opening .object) → c.nesting.head? = some .object
  elementOrEnd : c.expecting = .elementOrEnd ↔ c.current = some (.opening .array)
  inArray : c.current = some (.opening .array) → c.nesting.head? = some .array
  colon : c.expecting = .colon ↔ ∃ name, c.current = some (.field name)
  named : (∃ name, c.current = some (.field name)) → c.nesting.head? = some .object ∧ c.name = some c.text
  commaOrEnd : c.expecting = .commaOrEnd → c.nesting ≠ [] ∧ ∃ token, c.current = some token ∧ token.endsValue = true
  nothing : c.expecting = .nothing → c.nesting = []

theorem behindCoherent {c : Cursor} (behind : Behind c) (open' : c.closed = false) : Coherent c := by
  have shown := currentOpen open'
  have spelt : c.text = (c.token.map Token.text).getD [] := rfl
  rw [← shown] at spelt
  cases behind with
  | start expecting nesting token =>
      rw [← shown] at token
      constructor <;> simp [expecting,nesting,token]
  | token expecting ended opened named =>
      rw [← shown] at expecting ended opened named
      have value {token : Token} (same : c.current = some token) (whole : token.endsValue = true)
          (state : c.expecting = if c.nesting.isEmpty then .nothing else .commaOrEnd) : Coherent c := by
        cases token with
        | opening container => cases whole
        | field name => cases whole
        | _ => cases around : c.nesting <;> constructor <;> simp [state,around,same,Token.endsValue]
      cases same : c.current with
      | none =>
          rw [same] at expecting
          constructor <;> simp [expecting,expectingAfter,same,ended same]
      | some token =>
          rw [same] at expecting spelt opened named
          cases token with
          | opening container =>
              have inside := opened container rfl
              cases container with
              | object =>
                  have state : c.expecting = .memberOrEnd := expecting
                  constructor <;> simp [state,same,inside]
              | array =>
                  have state : c.expecting = .elementOrEnd := expecting
                  constructor <;> simp [state,same,inside]
          | field field =>
              obtain ⟨inside,name⟩ := named field rfl
              have state : c.expecting = .colon := expecting
              have text : c.text = field := spelt
              constructor <;> simp [state,same,inside,name,text]
          | closing container => exact value same rfl expecting
          | scalar scalar => exact value same rfl expecting

end Cursor
end AuditLog
