import AuditLog.Proofs.Containment

/-! The arrival of chunks. Whatever is done with a cursor, a chunk is read only when all that came before it is
used up, and the end of the source is asked for once. A token that closes a container is told without a look
at what follows it. -/
namespace AuditLog
open Reading

namespace Input

structure Holds (arrived later : List Text) (i : Input) : Prop where
  pending : i.source.pending = later
  reads : i.source.history = List.replicate arrived.length .read
  going : i.ended = false
  used : ∃ used, arrived.flatten = used ++ i.ahead ∧ i.position = used.length
  latest : arrived.dropLast.flatten.length ≤ i.position

structure Spent (chunks : List Text) (i : Input) : Prop where
  pending : i.source.pending = []
  ahead : i.ahead = []
  told : i.source.broken = none → i.ended = true ∧ i.source.history = List.replicate (chunks.length + 1) .read

inductive Supplied (chunks : List Text) (i : Input) : Prop where
  | holds {arrived later} (split : chunks = arrived ++ later) (holds : i.Holds arrived later)
  | spent (spent : i.Spent chunks)

theorem suppliedOfSource (chunks : List Text) (broken : Option FileFlaw) :
    (ofSource ⟨chunks,broken,[]⟩).Supplied chunks :=
  .holds (List.nil_append chunks).symm ⟨rfl,rfl,rfl,⟨[],rfl,rfl⟩,Nat.le_refl _⟩

end Input

namespace Scanner
variable {σ α : Type}

structure Finishes (m : Scanner σ α) (good : α → Prop) : Prop where
  leave : ∀ position state u a, m.step position state u = .leave a → ¬ good a
  atEnd : ∀ position state, ¬ good (m.atEnd position state)

theorem alongFinishes {m : Scanner σ α} {good : α → Prop} (finishes : m.Finishes good) {state : σ}
    {position after : Nat} {t ahead : Text} {a : α} (ran : m.along state position t = .done a after ahead)
    (is : good a) : position < after := by
  induction t generalizing state position with
  | nil => cases ran
  | cons u rest ih =>
      rw [along] at ran
      cases step : m.step position state u with
      | take next =>
          rw [step] at ran
          exact Nat.lt_of_succ_lt (ih ran)
      | finish b =>
          rw [step] at ran
          cases ran
          exact Nat.lt_succ_self _
      | leave b =>
          rw [step] at ran
          cases ran
          exact absurd is (finishes.leave _ _ _ _ step)

def Leaves (chunks : List Text) (good : α → Prop) (ran : Except FileFlaw α × Input) : Prop :=
  ran.2.Supplied chunks ∧ ∀ a, ran.1 = .ok a → good a → ∃ arrived later, chunks = arrived ++ later ∧
    ran.2.Holds arrived later ∧ arrived.dropLast.flatten.length < ran.2.position

theorem refillLeaves {m : Scanner σ α} {good : α → Prop} (finishes : m.Finishes good) (broken : Option FileFlaw)
    (state : σ) {position : Nat} {arrived : List Text} (used : position = arrived.flatten.length)
    {history : List Access} (reads : history = List.replicate arrived.length .read) (pending : List Text) :
    Leaves (arrived ++ pending) good (m.refill broken state position history pending) := by
  induction pending generalizing state position arrived history with
  | nil =>
      cases broken with
      | some flaw => exact ⟨.spent ⟨rfl,rfl,nofun⟩,nofun⟩
      | none =>
          refine ⟨.spent ⟨rfl,rfl,fun _ => ⟨rfl,?_⟩⟩,fun a same is => ?_⟩
          · rw [List.append_nil,List.replicate_succ,← reads]
            rfl
          · cases same
            exact absurd is (finishes.atEnd _ _)
  | cons chunk pending ih =>
      have split : arrived ++ chunk :: pending = (arrived ++ [chunk]) ++ pending := by simp
      have reads' : .read :: history = List.replicate (arrived ++ [chunk]).length .read := by
        rw [List.length_append,List.length_singleton,List.replicate_succ,reads]
      rw [refill]
      cases ran : m.along state position chunk with
      | dry next after =>
          have used' : after = (arrived ++ [chunk]).flatten.length := by
            rw [alongPassed ran,used]
            simp
          rw [split]
          exact ih next used' reads'
      | done result after ahead =>
          obtain ⟨taken,rfl,place⟩ := alongAhead ran
          have holds : Input.Holds (arrived ++ [taken ++ ahead]) pending
              ⟨ahead,after,⟨pending,broken,.read :: history⟩,false⟩ := by
            refine ⟨rfl,reads',rfl,⟨arrived.flatten ++ taken,by simp,?_⟩,?_⟩
            · rw [place,used,List.length_append]
            · rw [List.dropLast_concat,place,used]
              exact Nat.le_add_right _ _
          refine ⟨.holds split holds,fun a same is => ⟨_,_,split,holds,?_⟩⟩
          cases same
          rw [List.dropLast_concat,← used]
          exact alongFinishes finishes ran is

theorem runLeaves {m : Scanner σ α} {good : α → Prop} (finishes : m.Finishes good) (state : σ) {chunks : List Text}
    {i : Input} (supplied : i.Supplied chunks) : Leaves chunks good (m.run state i) := by
  rw [run]
  cases supplied with
  | spent spent =>
      rw [spent.ahead,along]
      by_cases ended : i.ended = true
      · simp only [if_pos ended]
        refine ⟨.spent ⟨spent.pending,rfl,fun sound => ⟨rfl,(spent.told sound).2⟩⟩,fun a same is => ?_⟩
        cases same
        exact absurd is (finishes.atEnd _ _)
      · simp only [if_neg ended]
        cases broken : i.source.broken with
        | none => exact absurd (spent.told broken).1 ended
        | some flaw =>
            rw [spent.pending]
            refine ⟨.spent ⟨rfl,rfl,fun sound => ?_⟩,fun a same _ => ?_⟩
            · cases sound
            · cases same
  | @holds arrived later split holds =>
      obtain ⟨used,parts,place⟩ := holds.used
      cases ran : m.along state i.position i.ahead with
      | done result after ahead =>
          obtain ⟨taken,same,further⟩ := alongAhead ran
          have holds' : Input.Holds arrived later ⟨ahead,after,i.source,i.ended⟩ := by
            refine ⟨holds.pending,holds.reads,holds.going,⟨used ++ taken,by rw [parts,same,List.append_assoc],?_⟩,?_⟩
            · rw [further,place,List.length_append]
            · rw [further]
              exact Nat.le_add_right_of_le holds.latest
          refine ⟨.holds split holds',fun a found is => ⟨_,_,split,holds',?_⟩⟩
          cases found
          exact Nat.lt_of_le_of_lt holds.latest (alongFinishes finishes ran is)
      | dry next after =>
          have used' : after = arrived.flatten.length := by rw [alongPassed ran,parts,place,List.length_append]
          simp only [holds.going,Bool.false_eq_true,if_false]
          rw [split,← holds.pending]
          exact refillLeaves finishes i.source.broken next used' holds.reads i.source.pending

theorem runSupplied (m : Scanner σ α) (state : σ) {chunks : List Text} {i : Input} (supplied : i.Supplied chunks) :
    (m.run state i).2.Supplied chunks :=
  (@runLeaves _ _ m (fun _ => False) ⟨fun _ _ _ _ _ => id,fun _ _ => id⟩ state _ _ supplied).1

end Scanner

namespace Lexer
variable {σ α : Type}

def Fed (chunks : List Text) (l k : Lexing) : Prop := l = k ∧ l.input.Supplied chunks

theorem keptFed (chunks : List Text) : Kept (Fed chunks) (fun fault => ∃ flaw, fault = .file flaw) where
  scans m state l k h := by
    obtain ⟨rfl,supplied⟩ := h
    have left := m.runSupplied state supplied
    have found := (m.runAsks state l.input).2
    simp only [scan]
    generalize m.run state l.input = ran at left found ⊢
    obtain ⟨result,i⟩ := ran
    cases result with
    | error flaw => exact .error ⟨⟨rfl,left⟩,flaw,rfl⟩
    | ok a => exact .ok ⟨⟨rfl,left⟩,_,found a rfl⟩
  marks l k h := ⟨by rw [h.1],h.2⟩
  start l k h := by rw [h.1]
  position l k h := by rw [h.1]

def Latest (chunks : List Text) (i : Input) : Prop :=
  ∃ arrived later, chunks = arrived ++ later ∧ i.Holds arrived later ∧ arrived.dropLast.flatten.length < i.position

theorem acceptFinishes (wanted : CodeUnit) : @Scanner.Finishes Unit Bool
    ⟨fun _ _ u => if u = wanted then .finish true else .leave false,fun _ _ => false⟩ (fun b => b = true) where
  leave position state u a step is := by
    subst is
    simp only at step
    split at step <;> cases step
  atEnd _ _ := Bool.false_ne_true

theorem acceptLatest {chunks : List Text} {wanted : CodeUnit} {l l' : Lexing} (supplied : l.input.Supplied chunks)
    (ran : (accept wanted).run l = (.ok true,l')) : Latest chunks l'.input := by
  have left := (Scanner.runLeaves (acceptFinishes wanted) () supplied).2
  simp only [accept,scan] at ran
  split at ran <;> cases ran
  rename_i looked
  rw [looked] at left
  exact left true rfl rfl

theorem leadOpens : lead.Yields (fun r => ∀ token, r = .ok (.whole token) → ∃ container, token = .opening container) where
  finish position state u a step token same := by
    subst same
    simp only [lead] at step
    split at step <;> cases step
    rename_i found
    simp only [lead?] at found
    repeat' split at found
    all_goals first | cases found; done | (cases found; exact ⟨_,rfl⟩)
  leave position state u a step token same := by
    subst same
    simp only [lead] at step
    split at step <;> cases step
  atEnd _ _ _ := nofun

theorem lexemeYields {m : Scanner σ (Except Malformed α)} {good : Except Malformed α → Prop} (yields : m.Yields good)
    {state : σ} {l l' : Lexing} {a : α} (ran : (lexeme m state).run l = (.ok a,l')) : good (.ok a) := by
  obtain ⟨r,l₁,scanned,ran⟩ := okBind ran
  cases r with
  | error what => cases ran
  | ok b =>
      cases ran
      simp only [scan] at scanned
      split at scanned <;> cases scanned
      rename_i looked
      obtain ⟨t,same⟩ := (m.runAsks state l.input).2 (.ok a) (by rw [looked])
      rw [same]
      exact Scanner.flatYields yields _ _ _

def Opening (r : Lexer Token) : Prop := ∀ l l' container, r.run l ≠ (.ok (.closing container),l')

theorem valueOpening : Opening value := by
  intro l l' container ran
  obtain ⟨found,m,read,ran⟩ := okBind ran
  cases found with
  | whole token =>
      obtain ⟨k,rfl⟩ := lexemeYields leadOpens read token rfl
      cases ran
  | quote =>
      obtain ⟨_,_,_,ran⟩ := okBind ran
      obtain ⟨_,_,_,ran⟩ := okBind ran
      cases ran
  | word scalar =>
      obtain ⟨_,_,_,ran⟩ := okBind ran
      obtain ⟨_,_,_,ran⟩ := okBind ran
      cases ran
  | number first =>
      obtain ⟨_,_,_,ran⟩ := okBind ran
      cases ran

theorem keyOpening : Opening key := by
  intro l l' container ran
  obtain ⟨_,_,_,ran⟩ := okBind ran
  obtain ⟨_,_,_,ran⟩ := okBind ran
  obtain ⟨_,_,_,ran⟩ := okBind ran
  cases ran

theorem afterCommaOpening {r : Lexer Token} (opening : Opening r) : Opening (afterComma r) := by
  intro l l' container ran
  obtain ⟨_,_,_,ran⟩ := okBind ran
  obtain ⟨_,_,_,ran⟩ := okBind ran
  exact opening _ _ _ ran

theorem orCloseLatest {chunks : List Text} {container k : Container} {r : Lexer Token} (opening : Opening r)
    {l l' : Lexing} (supplied : l.input.Supplied chunks)
    (ran : (some <$> orClose container r).run l = (.ok (some (.closing k)),l')) : Latest chunks l'.input := by
  obtain ⟨closed,m,accepted,ran⟩ := okBind (someOk ran)
  cases closed with
  | true =>
      cases ran
      exact acceptLatest supplied accepted
  | false => exact absurd ran (opening _ _ _)

theorem tokenLatest {chunks : List Text} {expecting : Expecting} {inside : Option Container} {k : Container}
    {l l' : Lexing} (supplied : l.input.Supplied chunks)
    (ran : (token expecting inside).run l = (.ok (some (.closing k)),l')) : Latest chunks l'.input := by
  obtain ⟨_,m,skipped,ran⟩ := okBind ran
  have paired := skipSteady (keptFed chunks) l l ⟨rfl,supplied⟩
  rw [skipped] at paired
  have supplied' : m.input.Supplied chunks := by
    cases paired with
    | ok related => exact related.2
  cases expecting with
  | nothing =>
      obtain ⟨ended,_,_,ran⟩ := okBind ran
      cases ended <;> cases ran
  | root =>
      obtain ⟨ended,_,_,ran⟩ := okBind ran
      cases ended with
      | true => cases ran
      | false => exact absurd (someOk ran) (valueOpening _ _ _)
  | elementOrEnd => exact orCloseLatest valueOpening supplied' ran
  | memberOrEnd => exact orCloseLatest keyOpening supplied' ran
  | colon =>
      obtain ⟨_,_,_,ran⟩ := okBind ran
      obtain ⟨_,_,_,ran⟩ := okBind ran
      exact absurd (someOk ran) (valueOpening _ _ _)
  | commaOrEnd =>
      cases inside with
      | none => exact absurd (someOk ran) (afterCommaOpening valueOpening _ _ _)
      | some container =>
          cases container with
          | object => exact orCloseLatest (afterCommaOpening keyOpening) supplied' ran
          | array => exact orCloseLatest (afterCommaOpening valueOpening) supplied' ran

end Lexer

namespace Cursor

def Fed (chunks : List Text) (c : Cursor) : Prop := c.closed = false → c.input.Supplied chunks

section
variable {chunks : List Text} {c d : Cursor}

theorem fedOfSource (chunks : List Text) (broken : Option FileFlaw) : (ofSource ⟨chunks,broken,[]⟩).Fed chunks :=
  fun _ => Input.suppliedOfSource chunks broken

theorem fedNext {result : Except Fault (Option Token)} (fed : c.Fed chunks) (stepped : c.next = (result,d)) :
    d.Fed chunks := by
  cases shut : c.closed with
  | true =>
      obtain ⟨rfl,_⟩ := nextClosed shut stepped
      exact fed
  | false =>
      have steady := Lexer.tokenSteady (Lexer.keptFed chunks) c.expecting c.nesting.head? ⟨c.input,c.start⟩
        ⟨c.input,c.start⟩ ⟨rfl,fed shut⟩
      simp only [next,shut,Bool.false_eq_true,if_false] at stepped
      generalize (Lexer.token c.expecting c.nesting.head?).run ⟨c.input,c.start⟩ = ran at stepped steady
      cases steady with
      | ok related => cases stepped; exact fun _ => related.2
      | error related => cases stepped; exact fun _ => related.1.2

theorem fedClose (fed : c.Fed chunks) : c.close.Fed chunks := by
  unfold close
  split
  · exact fed
  · exact nofun

structure Latest (chunks : List Text) (c : Cursor) : Prop where
  opened : c.closed = false
  latest : Lexer.Latest chunks c.input
  stop : c.stop = c.input.position

theorem nextLatest {container : Container} (fed : c.Fed chunks)
    (stepped : c.next = (.ok (some (.closing container)),d)) : d.Latest chunks := by
  cases shut : c.closed with
  | true => cases (nextClosed shut stepped).2
  | false =>
      simp only [next,shut,Bool.false_eq_true,if_false] at stepped
      split at stepped <;> cases stepped
      rename_i ran
      exact ⟨shut,Lexer.tokenLatest (fed shut) ran,rfl⟩

end
end Cursor

namespace Trail.Act

theorem keptAfter {kept : Cursor → Prop} (acts : List Act)
    (steps : ∀ {c d result}, kept c → c.next = (result,d) → kept d) (closes : ∀ {c}, kept c → kept c.close)
    {t : Trail} (before : kept t.session.cursor) : kept (after acts t).session.cursor := by
  have blind := Session.keptBlind steps
  have performs {α : Type} {allowed : Fault → Prop} {r : Reader α} {t : Trail} (before : kept t.session.cursor)
      (carries : Blind.Carries (fun s t => s = t ∧ kept s.cursor) allowed (fun s t => s = t ∧ kept s.cursor) r) :
      kept (t.perform r).2.session.cursor := by
    rw [perform]
    split
    · exact before
    · exact (carriesAlone carries ⟨rfl,before⟩ rfl).1.2
  induction acts generalizing t with
  | nil => exact before
  | cons act acts ih =>
      refine ih ?_
      cases act with
      | enter => exact performs before (envelopeCarries blind _)
      | another => exact performs before (moreCarries blind)
      | take => exact performs before (eventCarries blind t.terms (fun s t h => by rw [h.1]))
      | collect limit =>
          rw [on,Trail.collect]
          split
          · exact before
          · obtain ⟨found,failure,u,_,related,same,_⟩ := @collectAgree t.terms t.terms _ (carriesTogether (moreCarries blind))
              (carriesTogether (toldCarries blind t.terms.ceiling (fun s t h => by rw [h.1]))) limit [] _ _ ⟨rfl,before⟩
            rw [List.map_nil] at same
            simp only [same]
            exact related.2
      | close =>
          rw [on,Trail.close]
          split
          · exact before
          · exact closes before
      | cursor op => exact Session.keptAfter [op] steps closes before

end Trail.Act
end AuditLog
