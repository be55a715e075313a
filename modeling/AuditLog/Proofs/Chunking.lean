import AuditLog.Proofs.Coupling

/-! Chunk borders cannot be seen. Two inputs at the same place of the same text scan alike, so do
the lexers, cursors and sessions above them, and no sequence of operations tells two cuts of one
text apart. -/
namespace AuditLog
open Reading

def Input.Sound (i : Input) : Prop :=
  i.source.broken = none ∧ (i.ended = true → i.source.pending = [])

structure Input.Alike (i j : Input) : Prop where
  left : i.Sound
  right : j.Sound
  position : i.position = j.position
  rest : i.rest = j.rest

theorem Input.soundOfChunks (chunks : List Text) : (Input.ofSource (.ofChunks chunks)).Sound :=
  ⟨rfl,fun h => by cases h⟩

theorem Input.alikeSelf {i : Input} (h : i.Sound) : Input.Alike i i := ⟨h,h,rfl,rfl⟩

structure Input.Onward (i j : Input) : Prop where
  sound : j.Sound
  moved : ∃ taken, i.rest = taken ++ j.rest ∧ j.position = i.position + taken.length

theorem Input.onwardSelf {i : Input} (sound : i.Sound) : Onward i i := ⟨sound,[],rfl,rfl⟩

theorem Input.onwardThen {i j k : Input} (first : Onward i j) (second : Onward j k) : Onward i k := by
  obtain ⟨taken,rest,position⟩ := first.moved
  obtain ⟨taken',rest',position'⟩ := second.moved
  refine ⟨second.sound,taken ++ taken',by rw [rest,rest',List.append_assoc],?_⟩
  rw [position',position,List.length_append,Nat.add_assoc]

namespace Scanner
variable {σ α : Type}

theorem flatTaken (m : Scanner σ α) (state : σ) (position : Nat) (t : Text) :
    ∃ taken, t = taken ++ (m.flat state position t).2.2 ∧ (m.flat state position t).2.1 = position + taken.length := by
  induction t generalizing state position with
  | nil => exact ⟨[],rfl,rfl⟩
  | cons u t ih =>
      simp only [flat]
      split
      · rename_i next _
        obtain ⟨taken,rest,place⟩ := ih next (position + 1)
        refine ⟨u :: taken,congrArg (List.cons u) rest,?_⟩
        rw [place,List.length_cons]
        omega
      · exact ⟨[u],rfl,rfl⟩
      · exact ⟨[],rfl,rfl⟩

structure Yields (m : Scanner σ α) (good : α → Prop) : Prop where
  finish : ∀ position state u a, m.step position state u = .finish a → good a
  leave : ∀ position state u a, m.step position state u = .leave a → good a
  atEnd : ∀ position state, good (m.atEnd position state)

theorem flatYields {m : Scanner σ α} {good : α → Prop} (yields : m.Yields good) (state : σ) (position : Nat)
    (t : Text) : good (m.flat state position t).1 := by
  induction t generalizing state position with
  | nil => exact yields.atEnd position state
  | cons u t ih =>
      simp only [flat]
      split
      · exact ih _ _
      · exact yields.finish _ _ _ _ ‹_›
      · exact yields.leave _ _ _ _ ‹_›

def Frank (m : Scanner σ (Except Malformed α)) : Prop :=
  m.Yields (fun r => ∀ what, r = .error what → what.flaw ≠ .endOfInput)

theorem runSound (m : Scanner σ α) (state : σ) {i : Input} (h : i.Sound) :
    ∃ j : Input, m.run state i = (.ok (m.flat state i.position i.rest).1,j) ∧ j.Sound ∧
      j.position = (m.flat state i.position i.rest).2.1 ∧ j.rest = (m.flat state i.position i.rest).2.2 := by
  obtain ⟨result,position,rest,ended,broken⟩ := runFlat m state i h.1 h.2
  exact ⟨(m.run state i).2,by rw [← result],⟨broken,ended⟩,position,rest⟩

theorem runAlike (m : Scanner σ α) (state : σ) {i j : Input} (h : Input.Alike i j) :
    ∃ i' j', m.run state i = (.ok (m.flat state i.position i.rest).1,i') ∧
      m.run state j = (.ok (m.flat state i.position i.rest).1,j') ∧ Input.Alike i' j' := by
  obtain ⟨i',left,sound,position,rest⟩ := runSound m state h.left
  obtain ⟨j',right,sound',position',rest'⟩ := runSound m state h.right
  rw [← h.position,← h.rest] at right position' rest'
  exact ⟨i',j',left,right,sound,sound',position.trans position'.symm,rest.trans rest'.symm⟩

end Scanner

namespace Lexer
variable {σ α : Type}

structure Lexing.Alike (l m : Lexing) : Prop where
  input : Input.Alike l.input m.input
  start : l.start = m.start

structure Kept (R : Lexing → Lexing → Prop) (torn : Fault → Prop) : Prop where
  scans : ∀ {σ α : Type} (m : Scanner σ α) (state : σ), Coupled R (scan m state) (scan m state)
    (fun a l k => R l k ∧ ∃ position t, a = (m.flat state position t).1) (fun fault l k => R l k ∧ torn fault)
  marks : ∀ l k, R l k → R ⟨l.input,l.input.position⟩ ⟨k.input,k.input.position⟩
  start : ∀ l k, R l k → l.start = k.start
  position : ∀ l k, R l k → l.input.position = k.input.position

def Steady (R : Lexing → Lexing → Prop) (torn : Fault → Prop) (r : Lexer α) : Prop :=
  Coupled R r r (fun _ => R)
    (fun fault l k => R l k ∧ (torn fault ∨ ∃ what, fault = .malformed what ∧ what.flaw ≠ .endOfInput))

theorem keptAlike : Kept Lexing.Alike (fun _ => False) where
  scans m state l k h := by
    obtain ⟨i,j,left,right,alike⟩ := m.runAlike state h.input
    simp only [scan,left,right]
    exact .ok ⟨⟨alike,h.start⟩,_,_,rfl⟩
  marks _ _ h := ⟨h.input,h.input.position⟩
  start _ _ h := h.start
  position _ _ h := h.input.position

def Along (i : Input) (l k : Lexing) : Prop := l = k ∧ i.Onward l.input

theorem keptAlong (i : Input) : Kept (Along i) (fun _ => False) where
  scans m state l k h := by
    obtain ⟨rfl,onward⟩ := h
    obtain ⟨j,ran,sound,position,rest⟩ := m.runSound state onward.sound
    obtain ⟨taken,parts,place⟩ := m.flatTaken state l.input.position l.input.rest
    rw [← rest] at parts
    rw [← position] at place
    simp only [scan,ran]
    exact .ok ⟨⟨rfl,Input.onwardThen onward ⟨sound,taken,parts,place⟩⟩,_,_,rfl⟩
  marks _ _ h := ⟨by rw [h.1],h.2⟩
  start _ _ h := by rw [h.1]
  position _ _ h := by rw [h.1]

section
variable {R : Lexing → Lexing → Prop} {torn : Fault → Prop}

theorem scanSteady (kept : Kept R torn) (m : Scanner σ α) (state : σ) : Steady R torn (scan m state) :=
  coupledWeaken (kept.scans m state) (fun _ _ h => h) (fun _ _ _ h => h.1) (fun _ _ _ h => ⟨h.1,.inl h.2⟩)

theorem pureSteady (a : α) : Steady R torn (pure a) := coupledPure a (fun _ _ h => h)

theorem failSteady {what : Malformed} (frank : what.flaw ≠ .endOfInput) :
    Steady R torn (fail (.malformed what) : Lexer α) :=
  coupledFail _ (fun _ _ h => ⟨h,.inr ⟨what,rfl,frank⟩⟩)

theorem bindSteady {β : Type} {r : Lexer α} {f : α → Lexer β} (first : Steady R torn r)
    (second : ∀ a, Steady R torn (f a)) : Steady R torn (r >>= f) :=
  coupledBind first second

theorem lexemeSteady (kept : Kept R torn) {m : Scanner σ (Except Malformed α)} (frank : m.Frank) (state : σ) :
    Steady R torn (lexeme m state) := by
  refine coupledBind (coupledWeaken (kept.scans m state) (fun _ _ h => h) (fun _ _ _ h => h)
    (fun _ _ _ h => ⟨h.1,.inl h.2⟩)) (fun r => ?_)
  intro l k h
  obtain ⟨related,position,t,rfl⟩ := h
  have blames := Scanner.flatYields frank state position t
  cases result : (m.flat state position t).1 with
  | error what => exact failSteady (blames what result) l k related
  | ok a => exact pureSteady a l k related

theorem skipSteady (kept : Kept R torn) : Steady R torn skip :=
  bindSteady (scanSteady kept blanks ()) (fun _ l k h => .ok (kept.marks l k h))

theorem startSteady (kept : Kept R torn) (f : Nat → Lexer α) (h : ∀ start, Steady R torn (f start)) :
    Steady R torn (state >>= fun l => f l.start) := by
  refine coupledState (fun l k related => ?_)
  rw [← kept.start l k related]
  exact h l.start l k related

theorem missingFrank (wanted : Wanted) (found : Option CodeUnit) (position : Nat) (what : Malformed)
    (same : (missing wanted found position : Except Malformed α) = .error what) : what.flaw ≠ .endOfInput := by
  cases same
  nofun

theorem separatorFrank (wanted : Wanted) (unit : CodeUnit) : (separator wanted unit).Frank where
  finish position state u a step what same := by
    simp only [separator] at step
    split at step <;> cases step
    cases same
  leave position state u a step := by
    simp only [separator] at step
    split at step <;> cases step
    exact missingFrank _ _ _
  atEnd _ _ := missingFrank _ _ _

theorem leadFrank : lead.Frank where
  finish position state u a step what same := by
    simp only [lead] at step
    split at step <;> cases step
    cases same
  leave position state u a step := by
    simp only [lead] at step
    split at step <;> cases step
    exact missingFrank _ _ _
  atEnd _ _ := missingFrank _ _ _

theorem stringFrank (opening : Nat) : (string opening).Frank where
  finish position state u a step what same := by
    subst same
    cases state <;> simp only [string] at step <;> repeat' split at step
    all_goals cases step
    nofun
  leave position state u a step what same := by
    subst same
    cases state <;> simp only [string] at step <;> repeat' split at step
    all_goals cases step
    all_goals nofun
  atEnd position state what same := by
    cases state <;> (cases same; nofun)

theorem numberEndFrank (part : NumberPart) (taken : Text) (found : Option CodeUnit) (position : Nat) (what : Malformed)
    (same : numberEnd part taken found position = .error what) : what.flaw ≠ .endOfInput := by
  simp only [numberEnd] at same
  split at same
  · cases same
  · exact missingFrank _ _ _ what same

theorem numberFrank : number.Frank where
  finish position state u a step := by
    simp only [number] at step
    split at step <;> cases step
  leave position state u a step := by
    simp only [number] at step
    split at step <;> cases step
    exact numberEndFrank _ _ _ _
  atEnd _ _ := numberEndFrank _ _ _ _

theorem wordFrank (scalar : Scalar) (start : Nat) : (word scalar start).Frank where
  finish position state u a step what same := by
    subst same
    simp only [word] at step
    repeat' split at step
    all_goals cases step
  leave position state u a step what same := by
    subst same
    simp only [word] at step
    repeat' split at step
    all_goals cases step
    nofun
  atEnd position state what same := by
    cases same
    nofun

theorem quotedSteady (kept : Kept R torn) (f : Text → Token) :
    Steady R torn (state >>= fun l => lexeme (string l.start) (.plain []) >>= fun t => pure (f t)) :=
  startSteady kept (fun start => lexeme (string start) (.plain []) >>= fun t => pure (f t))
    (fun start => bindSteady (lexemeSteady kept (stringFrank start) _) (fun t => pureSteady (f t)))

theorem valueSteady (kept : Kept R torn) : Steady R torn value := by
  refine bindSteady (lexemeSteady kept leadFrank ()) (fun found => ?_)
  cases found with
  | whole token => exact pureSteady token
  | quote => exact quotedSteady kept (fun t => .scalar (.string t))
  | word scalar =>
      exact startSteady kept
        (fun start => lexeme (word scalar start) (scalar.text.drop 1) >>= fun _ => pure (Token.scalar scalar))
        (fun start => bindSteady (lexemeSteady kept (wordFrank scalar start) _) (fun _ => pureSteady _))
  | number first => exact bindSteady (lexemeSteady kept numberFrank _) (fun _ => pureSteady _)

theorem keySteady (kept : Kept R torn) : Steady R torn key :=
  bindSteady (lexemeSteady kept (separatorFrank _ _) ()) (fun _ => quotedSteady kept .field)

theorem afterCommaSteady (kept : Kept R torn) {r : Lexer Token} (h : Steady R torn r) : Steady R torn (afterComma r) :=
  bindSteady (lexemeSteady kept (separatorFrank _ _) _) (fun _ => bindSteady (skipSteady kept) (fun _ => h))

theorem orCloseSteady (kept : Kept R torn) (container : Container) {r : Lexer Token} (h : Steady R torn r) :
    Steady R torn (orClose container r) := by
  refine bindSteady (scanSteady kept _ _) (fun closed => ?_)
  cases closed with
  | true => exact pureSteady _
  | false => exact h

theorem someSteady {r : Lexer Token} (h : Steady R torn r) : Steady R torn (some <$> r) :=
  bindSteady h (fun _ => pureSteady _)

theorem tokenSteady (kept : Kept R torn) (expecting : Expecting) (inside : Option Container) :
    Steady R torn (token expecting inside) := by
  refine bindSteady (skipSteady kept) (fun _ => ?_)
  split
  · refine bindSteady (scanSteady kept _ _) (fun ended => ?_)
    cases ended with
    | true => exact pureSteady none
    | false =>
        refine coupledState (fun l k related => ?_)
        rw [← kept.position l k related]
        exact failSteady (fun same => by cases same) l k related
  · refine bindSteady (scanSteady kept _ _) (fun ended => ?_)
    cases ended with
    | true => exact pureSteady none
    | false => exact someSteady (valueSteady kept)
  · exact someSteady (orCloseSteady kept _ (valueSteady kept))
  · exact someSteady (orCloseSteady kept _ (keySteady kept))
  · exact bindSteady (lexemeSteady kept (separatorFrank _ _) _)
      (fun _ => bindSteady (skipSteady kept) (fun _ => someSteady (valueSteady kept)))
  · exact someSteady (orCloseSteady kept _ (afterCommaSteady kept (keySteady kept)))
  · exact someSteady (orCloseSteady kept _ (afterCommaSteady kept (valueSteady kept)))
  · exact someSteady (afterCommaSteady kept (valueSteady kept))

end

end Lexer

structure Cursor.Alike (c d : Cursor) : Prop where
  input : c.closed = false → Input.Alike c.input d.input
  position : c.input.position = d.input.position
  start : c.start = d.start
  stop : c.stop = d.stop
  expecting : c.expecting = d.expecting
  nesting : c.nesting = d.nesting
  token : c.token = d.token
  name : c.name = d.name
  closed : c.closed = d.closed

namespace Cursor

theorem alikeOfChunks {chunks other : List Text} (same : chunks.flatten = other.flatten) :
    Alike (ofSource (.ofChunks chunks)) (ofSource (.ofChunks other)) :=
  ⟨fun _ => ⟨Input.soundOfChunks _,Input.soundOfChunks _,rfl,same⟩,rfl,rfl,rfl,rfl,rfl,rfl,rfl,rfl⟩

theorem currentAlike {c d : Cursor} (h : Alike c d) : c.current = d.current := by
  simp only [current,h.closed,h.token]

theorem closeAlike {c d : Cursor} (h : Alike c d) : Alike c.close d.close := by
  have shut' := h.closed
  cases shut : c.closed with
  | true => simp only [close,shut,← shut',if_true]; exact h
  | false =>
      simp only [close,shut,← shut',Bool.false_eq_true,if_false]
      exact ⟨nofun,h.position,h.start,h.stop,h.expecting,h.nesting,h.token,
        h.name,rfl⟩

theorem nextAlike {c d : Cursor} (h : Alike c d) :
    Paired (fun token c' d' => Alike c' d' ∧ c'.closed = false ∧ c'.current = token)
      (fun fault c' d' => Alike c' d' ∧ c'.closed = c.closed ∧
        (c.closed = false → ∃ what, fault = .malformed what)) c.next d.next := by
  cases shut : c.closed with
  | true =>
      have shut' : d.closed = true := h.closed ▸ shut
      simp only [next,shut,shut',if_true]
      exact .error ⟨h,shut,nofun⟩
  | false =>
      have shut' : d.closed = false := h.closed ▸ shut
      have paired := Lexer.tokenSteady Lexer.keptAlike c.expecting c.nesting.head? ⟨c.input,c.start⟩ ⟨d.input,d.start⟩
        ⟨h.input shut,h.start⟩
      simp only [next,shut,shut',Bool.false_eq_true,if_false,← h.expecting,← h.nesting]
      generalize (Lexer.token c.expecting c.nesting.head?).run ⟨c.input,c.start⟩ = x at paired ⊢
      generalize (Lexer.token c.expecting c.nesting.head?).run ⟨d.input,d.start⟩ = y at paired ⊢
      cases paired with
      | @ok token l m alike =>
          refine .ok ⟨?_,by simp [advanced,shut],by simp [advanced,current,shut]⟩
          simp only [advanced,← h.nesting,← h.token,← h.closed]
          exact ⟨fun _ => alike.input,alike.input.position,alike.start,alike.input.position,rfl,rfl,rfl,rfl,rfl⟩
      | @error fault l m alike =>
          refine .error ⟨?_,rfl,fun _ => (alike.2.resolve_left id).imp (fun _ blamed => blamed.1)⟩
          exact ⟨fun _ => alike.1.input,alike.1.input.position,alike.1.start,h.stop,rfl,rfl,h.token,h.name,rfl⟩

theorem viewAlike {c d : Cursor} (h : Alike c d) : c.view = d.view := by
  simp only [view,currentAlike h,text,h.token,h.name,h.start,h.stop]

end Cursor

namespace Session

structure Alike (s t : Session) : Prop where
  cursor : Cursor.Alike s.cursor t.cursor
  noted : s.noted = t.noted

theorem alikeOfChunks {chunks other : List Text} (same : chunks.flatten = other.flatten) :
    Alike (ofSource (.ofChunks chunks)) (ofSource (.ofChunks other)) :=
  ⟨Cursor.alikeOfChunks same,rfl⟩

theorem nextAlike {s t : Session} (h : Alike s t) :
    Paired (fun token s' t' => Alike s' t' ∧ s'.cursor.closed = false ∧ s'.cursor.current = token)
      (fun fault s' t' => Alike s' t' ∧ s'.cursor.closed = s.cursor.closed ∧
        (s.cursor.closed = false → ∃ what, fault = .malformed what))
      (Reader.next.run s) (Reader.next.run t) := by
  have paired := Cursor.nextAlike h.cursor
  simp only [Reader.next]
  generalize s.cursor.next = x at paired ⊢
  generalize t.cursor.next = y at paired ⊢
  cases paired with
  | ok related => exact .ok ⟨⟨related.1,h.noted⟩,related.2⟩
  | error related => exact .error ⟨⟨related.1,h.noted⟩,related.2⟩

theorem notedAlike (n : Notice) {s t : Session} (h : Alike s t) :
    Alike { s with noted := n :: s.noted } { t with noted := n :: t.noted } :=
  ⟨h.cursor,by rw [h.noted]⟩

theorem alikeBlind : Blind Alike (fun _ => True) where
  reads s t h := by
    have paired := nextAlike h
    generalize Reader.next.run s = x at paired ⊢
    generalize Reader.next.run t = y at paired ⊢
    cases paired with
    | ok related => exact .ok ⟨related.1,related.2.2⟩
    | error related => exact .error ⟨related.1,trivial⟩
  noted n _ _ h := notedAlike n h
  current _ _ h := Cursor.currentAlike h.cursor
  name _ _ h := h.cursor.name
  start _ _ h := h.cursor.start
  position _ _ h := h.cursor.position
  content _ _ := trivial

def AlikeOpen (s t : Session) : Prop := Alike s t ∧ s.cursor.closed = false

theorem openBlind : Blind AlikeOpen Fault.OfContent where
  reads s t h := by
    have paired := nextAlike h.1
    generalize Reader.next.run s = x at paired ⊢
    generalize Reader.next.run t = y at paired ⊢
    cases paired with
    | ok related => exact .ok ⟨⟨related.1,related.2.1⟩,related.2.2⟩
    | error related =>
        obtain ⟨what,same⟩ := related.2.2 h.2
        subst same
        exact .error ⟨⟨related.1,related.2.1.trans h.2⟩,trivial⟩
  noted n _ _ h := ⟨notedAlike n h.1,h.2⟩
  current _ _ h := Cursor.currentAlike h.1.cursor
  name _ _ h := h.1.cursor.name
  start _ _ h := h.1.cursor.start
  position _ _ h := h.1.cursor.position
  content _ h := h

end Session

namespace Operation

theorem transcriptAlike (ops : List Operation) {s t : Session} (h : Session.Alike s t) :
    transcript ops s = transcript ops t :=
  Session.alikeBlind.transcriptCarries (fun _ => trivial)
    (fun _ _ h => ⟨Cursor.closeAlike h.cursor,h.noted⟩) (fun _ _ h => Cursor.viewAlike h.cursor)
    (fun _ _ h => by rw [Session.notices,Session.notices,h.noted]) ops h

/-- Two cuts of one text, be they any lists of chunks or cuts of any two sizes, give the same answers
and faults, show the same cursor and leave the same notices after every operation. -/
theorem chunkBordersInvisible (chunks other : List Text) (same : chunks.flatten = other.flatten)
    (ops : List Operation) :
    transcript ops (.ofSource (.ofChunks chunks)) = transcript ops (.ofSource (.ofChunks other)) ∧
      ∀ (t : Text) (size size' : ChunkSize),
        transcript ops (.ofSource (.ofText size t)) = transcript ops (.ofSource (.ofText size' t)) := by
  refine ⟨transcriptAlike ops (Session.alikeOfChunks same),fun t size size' => ?_⟩
  refine transcriptAlike ops (Session.alikeOfChunks ?_)
  rw [size.cutFlatten,size'.cutFlatten]

theorem chunkBordersInvisibleAcrossCuts :
    transcript [.next,.nextText,.next,.flag,.readNext .anything,.next,.close,.next]
        (.ofSource (.ofChunks [0xFEFF :: Text.of "[\"\\n😀\",true,-1.5e3]"])) =
      transcript [.next,.nextText,.next,.flag,.readNext .anything,.next,.close,.next]
        (.ofSource (.ofChunks [[0xFEFF],[],Text.of "[\"\\",0x6E :: [0xD83D],[0xDE00] ++ Text.of "\",tr",
          Text.of "ue,-1.",Text.of "5e3]"])) :=
  (chunkBordersInvisible _ _ (by decide) _).1

end Operation
end AuditLog
