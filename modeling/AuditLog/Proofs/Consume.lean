import AuditLog.Proofs.Balance
import AuditLog.Proofs.Canonical

/-! Rules take one value each. From wherever a session has come, a rule that is followed to a result leaves
the cursor on the last token of the value, where as many single steps would have left it. -/
namespace AuditLog
open Reading Grammar

namespace Cursor

theorem nextFailed {c d : Cursor} {fault : Fault} (stepped : c.next = (.error fault,d)) :
    ∃ input start, d = { c with input, start } := by
  unfold next at stepped
  split at stepped
  · cases stepped; exact ⟨_,_,rfl⟩
  · split at stepped
    · cases stepped; exact ⟨_,_,rfl⟩
    · cases stepped

theorem nextClosed {c d : Cursor} {result : Except Fault (Option Token)} (shut : c.closed = true)
    (stepped : c.next = (result,d)) : d = c ∧ result = .error .cursorClosed := by
  rw [next,shut] at stepped
  cases stepped
  exact ⟨rfl,rfl⟩

theorem nextOpened {c d : Cursor} {found : Option Token} (stepped : c.next = (.ok found,d)) : c.closed = false := by
  cases shut : c.closed with
  | false => rfl
  | true => cases (nextClosed shut stepped).2

theorem currentOpen {c : Cursor} (opened : c.closed = false) : c.current = c.token := by
  rw [current,opened]; rfl

structure Reached (t : Text) (c : Cursor) : Prop where
  settled : c.Settled
  split : c.closed = false → ∃ front, t = front ++ c.input.rest ∧ front.length = c.input.position
  begun : ∀ token, c.token = some token → 0 < c.input.position

theorem settledReady {c : Cursor} (settled : c.Settled) (opened : c.closed = false) : c.Ready :=
  ⟨opened,(settled.alike.input opened).left⟩

theorem reachedNext {t : Text} {c d : Cursor} {result : Except Fault (Option Token)} (reached : Reached t c)
    (stepped : c.next = (result,d)) : Reached t d := by
  cases shut : c.closed with
  | true =>
      obtain ⟨rfl,_⟩ := nextClosed shut stepped
      exact reached
  | false =>
      have ready := settledReady reached.settled shut
      obtain ⟨ready',_,taken,rest,position⟩ := nextOnward ready stepped
      refine ⟨settledNext reached.settled stepped,fun _ => ?_,fun token stands => ?_⟩
      · obtain ⟨front,whole,place⟩ := reached.split shut
        exact ⟨front ++ taken,by rw [whole,rest,List.append_assoc],by rw [position,List.length_append,place]⟩
      · cases result with
        | error fault =>
            obtain ⟨_,_,rfl⟩ := nextFailed stepped
            have begun := reached.begun token stands
            show 0 < _
            rw [position]
            omega
        | ok found =>
            have shown := nextCurrent stepped
            rw [currentOpen ready'.opened,stands] at shown
            subst shown
            obtain ⟨_,_,taken⟩ := nextTaken ready stepped
            exact takenPositive taken

theorem reachedClose {t : Text} {c : Cursor} (reached : Reached t c) : Reached t c.close := by
  refine ⟨settledClose reached.settled,?_,?_⟩
  · unfold close
    split
    · exact reached.split
    · nofun
  · unfold close
    split <;> exact reached.begun

theorem reachedAfter (chunks : List Text) (ops : List Operation) :
    Reached chunks.flatten (Operation.after ops (.ofSource (.ofChunks chunks))).cursor :=
  Session.keptAfter ops reachedNext reachedClose
    ⟨settledOfChunks chunks,fun _ => ⟨[],rfl,rfl⟩,nofun⟩

theorem walkReplay {ts : List Token} {s : Session} {d : Cursor} (walk : Walk s.cursor ts d) :
    (Operation.after (List.replicate ts.length .next) s).cursor = d := by
  induction ts generalizing s with
  | nil => cases walk; rfl
  | cons token ts ih =>
      cases walk with
      | @cons _ c _ _ _ stepped rest =>
          rw [List.length_cons,List.replicate_succ,Operation.after,(Operation.nextRan stepped).2]
          exact ih (s := { s with cursor := c }) rest

theorem walkCurrent {c d : Cursor} {token : Token} {ts : List Token} (walk : Walk c (token :: ts) d) :
    d.current = (token :: ts).getLast? := by
  induction ts generalizing c token with
  | nil => exact @Reader.walkLast _ _ [] _ walk
  | cons other ts ih =>
      cases walk with
      | cons _ rest => rw [List.getLast?_cons_cons]; exact ih rest

theorem walkEnds {c d : Cursor} {token : Token} {ts : List Token} (walk : Walk c (token :: ts) d)
    (ready : c.Ready) : Past d := by
  cases walk with
  | cons stepped rest =>
      obtain ⟨_,_,taken⟩ := nextTaken ready stepped
      exact walkPast rest taken.ready (takenPast taken)

end Cursor

namespace Rule
open Cursor

/-- From `s` to `s'` these tokens and this part of the text are gone over, back to these containers. -/
structure GoesOver (t : Text) (s : Session) (ts : List Token) (part : Text) (around : List Container)
    (s' : Session) : Prop where
  place : ∃ front, t = front ++ part ++ s'.cursor.input.rest ∧ front.length = s.cursor.input.position ∧
    (front ++ part).length = s'.cursor.stop
  last : s'.cursor.current = ts.getLast?
  nesting : s'.cursor.nesting = around
  steps : (Operation.after (List.replicate ts.length .next) s).cursor = s'.cursor

theorem walkGoesOver {t part : Text} {s s' : Session} {token : Token} {ts : List Token} {around : List Container}
    (reached : Reached t s.cursor) (ready : s.cursor.Ready) (walk : Walk s.cursor (token :: ts) s'.cursor)
    (beyond : Over s'.cursor around) (rest : s.cursor.input.rest = part ++ s'.cursor.input.rest)
    (stop : s'.cursor.input.position = s.cursor.input.position + part.length) :
    GoesOver t s (token :: ts) part around s' := by
  obtain ⟨front,whole,place⟩ := reached.split ready.opened
  refine ⟨⟨front,by rw [whole,rest,List.append_assoc],place,?_⟩,walkCurrent walk,beyond.nesting,walkReplay walk⟩
  rw [← (walkEnds walk ready).stop,stop,List.length_append,place]

theorem nextGoesOver {t : Text} {rule : Rule} {s s' : Session} {d : Cursor} {token : Token} {v : Value}
    (reached : Reached t s.cursor) (stepped : s.cursor.next = (.ok (some token),d)) (starts : StartsValue token)
    (ran : rule.readNext.run s = (.ok v,s')) :
    ∃ j gap source separator, Fits s.cursor.expecting s.cursor.nesting.head? token separator ∧
      Gap s.cursor.input.position separator gap ∧ Spelt (.value j) source ∧
      GoesOver t s j.tokens (gap ++ source) s.cursor.nesting s' := by
  have ready := settledReady reached.settled (nextOpened stepped)
  obtain ⟨token',m,read,ran⟩ := okBind ran
  have stepped' := Reader.readNext read
  rw [stepped] at stepped'
  cases stepped'
  obtain ⟨gap,lead,taken⟩ := nextTaken ready stepped
  obtain ⟨separator,fits,before⟩ := taken.before
  have on := takenOn taken
  obtain ⟨ts,climb⟩ := rule.readWhole token _ v m s' ran (nextCurrent stepped) starts on
  obtain ⟨j,r,rfl,rfl,spelt,rest,stop⟩ := climbValue climb starts on (takenPositive taken) taken.lexeme
  refine ⟨j,gap,lead ++ r,separator,fits,before,spelt,?_⟩
  rw [j.tokensParts]
  refine walkGoesOver reached ready (.cons stepped (climbWalk climb)) (climbOver climb) ?_ ?_
  · rw [taken.rest,rest]
    simp
  · rw [stop,takenPlace taken]
    simp only [List.length_append]
    omega

theorem okRun {α : Type} {r : Reader α} {s : Session} (ok : (r.run s).1.isOk = true) :
    ∃ a s', r.run s = (.ok a,s') := by
  cases ran : r.run s with
  | mk result s' =>
      rw [ran] at ok
      cases result with
      | error fault => cases ok
      | ok a => exact ⟨a,s',rfl⟩

theorem currentGoesOver {t : Text} {rule : Rule} {s s' : Session} {container : Container} {v : Value}
    (reached : Reached t s.cursor) (stands : s.cursor.current = some (.opening container))
    (ran : rule.readCurrent.run s = (.ok v,s')) :
    ∃ j body, Spelt (.value j) ((Token.opening container).text ++ body) ∧
      GoesOver t s j.others body s.cursor.nesting.tail s' := by
  have on := settledOn reached.settled stands
  have token : s.cursor.token = some (.opening container) := (currentOpen on.ready.opened).symm.trans stands
  have read : (rule.read (some (.opening container))).run s = (.ok v,s') := by
    simpa only [readCurrent,runBind,runState,stands] using ran
  have starts : StartsValue (.opening container) := trivial
  obtain ⟨ts,climb⟩ := rule.readWhole _ _ v s s' read stands starts on
  obtain ⟨j,body,first,rfl,spelt,rest,stop⟩ :=
    climbValue climb starts on (reached.begun _ token) (openingLexeme container)
  refine ⟨j,body,spelt,?_⟩
  have walk := climbWalk climb
  obtain ⟨ts,_,others,_⟩ := Reader.Subtree.keepsInside first
  rw [others] at walk ⊢
  cases ts with
  | nil => exact walkGoesOver reached on.ready walk (climbOver climb) rest stop
  | cons token ts => exact walkGoesOver reached on.ready walk (climbOver climb) rest stop

/-- Whatever was asked of the session before: a rule that gives a result where a value comes next has gone
over the text of one value and what parts it from the token before; one that gives a result where the
opening of a container stands has gone over the rest of that container. The cursor is left on the last
token of the value, at its end in the text, inside the containers around it, and is in every respect
the cursor that as many single steps would have left. -/
theorem takesOneValue (rule : Rule) (chunks : List Text) (ops : List Operation) (s s' : Session) (v : Value)
    (reached : s = Operation.after ops (.ofSource (.ofChunks chunks))) :
    (∀ token d, s.cursor.next = (.ok (some token),d) → StartsValue token → rule.readNext.run s = (.ok v,s') →
        ∃ j gap source separator, Fits s.cursor.expecting s.cursor.nesting.head? token separator ∧
          Gap s.cursor.input.position separator gap ∧ Spelt (.value j) source ∧
          GoesOver chunks.flatten s j.tokens (gap ++ source) s.cursor.nesting s') ∧
      ∀ container, s.cursor.current = some (.opening container) → rule.readCurrent.run s = (.ok v,s') →
        ∃ j body, Spelt (.value j) ((Token.opening container).text ++ body) ∧
          GoesOver chunks.flatten s j.others body s.cursor.nesting.tail s' := by
  subst reached
  have reached := reachedAfter chunks ops
  exact ⟨fun _ _ stepped starts ran => nextGoesOver reached stepped starts ran,
    fun _ stands ran => currentGoesOver reached stands ran⟩

theorem takesMemberAndObject :
    (∃ j part s', GoesOver (Text.of "\x7b\"a\": [1,\x7b\x7d] ,\"b\":2\x7d")
        (Operation.after [.next,.next] (.ofSource (.ofChunks [Text.of "\x7b\"a\": [1",Text.of ",\x7b\x7d] ,\"b\":2\x7d"])))
        (Json.tokens j) part [.object] s') ∧
      ∃ j part s', GoesOver (Text.of "\x7b\"a\": [1,\x7b\x7d] ,\"b\":2\x7d")
        (Operation.after [.next] (.ofSource (.ofChunks [Text.of "\x7b\"a\": [1",Text.of ",\x7b\x7d] ,\"b\":2\x7d"])))
        (Json.others j) part [] s' := by
  constructor
  · obtain ⟨v,s',ran⟩ := okRun (r := Rule.anything.readNext) (s := Operation.after [.next,.next]
      (.ofSource (.ofChunks [Text.of "\x7b\"a\": [1",Text.of ",\x7b\x7d] ,\"b\":2\x7d"]))) (by decide +kernel)
    obtain ⟨j,_,_,_,_,_,_,goes⟩ := (takesOneValue .anything _ _ _ s' v rfl).1 (.opening .array) _ rfl trivial ran
    exact ⟨j,_,s',goes⟩
  · obtain ⟨v,s',ran⟩ := okRun (r := Schema.resource.readCurrent) (s := Operation.after [.next]
      (.ofSource (.ofChunks [Text.of "\x7b\"a\": [1",Text.of ",\x7b\x7d] ,\"b\":2\x7d"]))) (by decide +kernel)
    obtain ⟨j,_,_,goes⟩ := (takesOneValue Schema.resource _ _ _ s' v rfl).2 .object (by decide) ran
    exact ⟨j,_,s',goes⟩

end Rule
end AuditLog
