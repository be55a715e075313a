import AuditLog.Proofs.Canonical
import AuditLog.Proofs.Flaws
import AuditLog.Proofs.Lookahead

/-! Syntax faults point to the right place. Up to there the text can still be made a document, whatever is open;
and where the flaw is in the unit that stands there, it is beyond repair with that unit. -/
namespace AuditLog
open Reading Grammar

namespace Grammar

theorem fitsDelimited {position : Nat} {expecting : Lexer.Expecting} {inside : Option Container} {token : Token}
    {separator : Option CodeUnit} {gap source : Text} (fits : Fits expecting inside token separator)
    (behind : expecting = .commaOrEnd) (within : 0 < position) (before : Gap position separator gap)
    (lexeme : Lexeme token source) (more : Text) : Delimited (gap ++ source ++ more) := by
  have separated {w w' : Text} (margin : Margin position w) : Delimited ((w ++ 0x2C :: w') ++ source ++ more) := by
    simp only [List.append_assoc,List.cons_append]
    exact delimitedBlank (marginInside margin within) (by decide)
  have closed {w : Text} {u : CodeUnit} (margin : Margin position w) (unit : u ∈ delimiters) :
      Delimited (w ++ [u] ++ more) := by
    simp only [List.append_assoc,List.cons_append]
    exact delimitedBlank (marginInside margin within) unit
  cases fits with
  | item | member | loose => cases before with | separated margin _ => exact separated margin
  | lastItem => cases before with | blank margin => cases lexeme; exact closed margin (by decide)
  | lastMember => cases before with | blank margin => cases lexeme; exact closed margin (by decide)
  | _ => cases behind

end Grammar

namespace Cursor
open Lexer (closer)

structure Ending (c : Cursor) : Prop where
  state : c.expecting = .nothing ∨ c.expecting = .commaOrEnd
  inside : 0 < c.input.position

theorem numberEnding {c d : Cursor} {gap source t : Text} (taken : Taken c gap (.scalar (.number t)) source d) :
    Ending d := by
  refine ⟨?_,takenPositive taken⟩
  rw [taken.expecting]
  simp only [expectingAfter]
  split
  · exact .inl rfl
  · exact .inr rfl

theorem takenStops {c d : Cursor} {gap source more : Text} {token : Token} (taken : Taken c gap token source d)
    (delimited : Ending d → Delimited more) : Stops token more := by
  unfold Stops
  split
  · exact delimited (numberEnding taken)
  · trivial

theorem walkAnew {c d : Cursor} {ts : List Token} (walk : Walk c ts d) (ready : c.Ready) :
    ∃ front, c.input.rest = front ++ d.input.rest ∧ d.input.position = c.input.position + front.length ∧
      ∀ more', (Ending d → Delimited more') → (Ending c → Delimited (front ++ more')) ∧
        ∀ c', Abreast c c' → c'.input.rest = front ++ more' →
          ∃ d', Walk c' ts d' ∧ Abreast d d' ∧ d'.input.rest = more' := by
  induction walk with
  | nil => exact ⟨[],rfl,rfl,fun more' delimited => ⟨delimited,fun c' abreast rest => ⟨c',.nil,abreast,rest⟩⟩⟩
  | @cons c d e token ts stepped _ ih =>
      obtain ⟨gap,source,taken⟩ := nextTaken ready stepped
      obtain ⟨front,rest,position,goes⟩ := ih taken.ready
      obtain ⟨separator,fits,before⟩ := taken.before
      refine ⟨gap ++ source ++ front,?_,?_,fun more' delimited => ⟨?_,?_⟩⟩
      · rw [taken.rest,rest]
        simp only [List.append_assoc]
      · rw [position,takenPlace taken]
        simp only [List.length_append,Nat.add_assoc]
      · intro ending
        rw [List.append_assoc]
        rcases ending.state with beyond | behind
        · rw [beyond] at fits
          cases fits
        · exact fitsDelimited fits behind ending.inside before taken.lexeme _
      · intro c' abreast rest'
        obtain ⟨further,again⟩ := goes more' delimited
        rw [List.append_assoc] at rest'
        rw [← abreast.position] at before
        rw [← abreast.expecting,← abreast.nesting] at fits
        obtain ⟨d',stepped',taken',left⟩ := takenNext abreast.right rest' fits before taken.lexeme
          (takenStops taken further)
        have nesting : d'.nesting = d.nesting := by rw [taken'.nesting,taken.nesting,abreast.nesting]
        have position' : d'.input.position = d.input.position := by
          rw [takenPlace taken',takenPlace taken,abreast.position]
        have start : d'.start = d.start := by rw [taken'.start,taken.start,abreast.position]
        have expecting : d'.expecting = d.expecting := by rw [taken'.expecting,taken.expecting,nesting]
        obtain ⟨e',walk',same,last⟩ := again d' ⟨taken.ready,taken'.ready,position',start,expecting,nesting⟩ left
        exact ⟨e',.cons stepped' walk',same,last⟩

/-! What makes a text that breaks off a document. -/

theorem closerLexeme (container : Container) : Lexeme (.closing container) [closer container] := by
  cases container
  · exact .closeObject
  · exact .closeArray

theorem closes {c : Cursor} {around : List Container} (beyond : Over c around)
    (rest : c.input.rest = around.map closer) : ∃ ts d e, Walk c ts d ∧ d.next = (.ok none,e) := by
  induction around generalizing c with
  | nil =>
      obtain ⟨e,ended⟩ := endNext beyond.ready (.inl beyond.expecting) (.inl (by rw [rest]; exact blankNil))
      exact ⟨[],c,e,.nil,ended⟩
  | cons container around ih =>
      have fits : Fits c.expecting (some container) (.closing container) none := by
        rw [(commaFits beyond).1]
        cases container
        · exact .lastMember
        · exact .lastItem
      obtain ⟨d,walk,beyond,left,_⟩ := closingArrives beyond.ready beyond.nesting fits blankNil (closerLexeme container)
        rest
      obtain ⟨ts,e,f,walk',ended⟩ := ih beyond left
      exact ⟨_,e,f,walkAppend walk walk',ended⟩

def completion (token : Token) (nesting : List Container) : Text :=
  (match token with
  | .field _ => 0x3A :: Text.of "null"
  | _ => []) ++ nesting.map closer

theorem completionStops (token : Token) (nesting : List Container) : Stops token (completion token nesting) := by
  cases token with
  | scalar scalar =>
      refine stopsDelimited ?_
      intro u rest same
      cases nesting with
      | nil => cases same
      | cons container nesting => cases container <;> cases same <;> decide
  | _ => trivial

theorem completes {c : Cursor} {token : Token} {around : List Container} (on : On c token around)
    (rest : c.input.rest = completion token c.nesting) : ∃ ts d e, Walk c ts d ∧ d.next = (.ok none,e) := by
  cases token with
  | scalar scalar => exact closes ⟨on.ready,rfl,on.expecting⟩ rest
  | closing container => exact closes ⟨on.ready,rfl,on.expecting⟩ rest
  | field name =>
      have fits : Fits c.expecting c.nesting.head? (.scalar .null) (some 0x3A) := by
        rw [on.expecting]
        exact .value trivial
      obtain ⟨d,stepped,taken,on',left,_⟩ := oneTaken on.ready rest fits (.separated (.inl blankNil) blankNil) .null
        trivial
      obtain ⟨ts,e,f,walk,ended⟩ := closes (onScalar on') left
      exact ⟨_,e,f,.cons stepped walk,ended⟩
  | opening container =>
      have nesting : c.nesting = container :: around := on.nesting
      rw [nesting] at rest
      have fits : Fits c.expecting (some container) (.closing container) none := by
        rw [on.expecting]
        cases container
        · exact .noMember
        · exact .noItem
      obtain ⟨d,walk,beyond,left,_⟩ := closingArrives on.ready nesting fits blankNil (closerLexeme container) rest
      obtain ⟨ts,e,f,walk',ended⟩ := closes beyond left
      exact ⟨_,e,f,walkAppend walk walk',ended⟩

theorem opensDocument {chunks : List Text} {ts : List Token} {c : Cursor} {g : Text}
    (walk : Walk (ofSource (.ofChunks chunks)) ts c)
    (opens : Lexer.Opens c.input.position c.expecting c.nesting.head? g) :
    ∃ front e, chunks.flatten = front ++ c.input.rest ∧ front.length = c.input.position ∧
      ∀ chunks' : List Text, chunks'.flatten = front ++ g ++ e →
        ∃ ts d f, Walk (ofSource (.ofChunks chunks')) ts d ∧ d.next = (.ok none,f) := by
  obtain ⟨front,rest,position,goes⟩ := walkAnew walk (readyOfChunks chunks)
  have place : front.length = c.input.position := by rw [position]; exact (Nat.zero_add _).symm
  generalize state : c.expecting = expecting at opens
  cases opens with
  | @token _ _ token separator gap source _ e fits before lexeme whole =>
      subst state
      have delimited (ending : Ending c) (more : Text) : Delimited (gap ++ source ++ more) := by
        rcases ending.state with beyond | behind
        · rw [beyond] at fits
          cases fits
        · exact fitsDelimited fits behind ending.inside before lexeme more
      refine ⟨front,e ++ completion token (nestingAfter c.nesting token),rest,place,fun chunks' same => ?_⟩
      obtain ⟨c',walk',abreast,left⟩ := (goes _ (fun ending => delimited ending _)).2 _ (abreastOfChunks chunks chunks')
        (same.trans (by rw [List.append_assoc,← List.append_assoc g,whole]))
      rw [← abreast.position] at before
      rw [← abreast.expecting,← abreast.nesting] at fits
      obtain ⟨d,stepped,taken,on,left,_⟩ := oneTaken abreast.right left fits before lexeme (completionStops _ _)
      have nesting : nestingAfter c.nesting token = d.nesting := by rw [taken.nesting,abreast.nesting]
      rw [nesting] at left
      obtain ⟨ts',e',f,walk'',ended⟩ := completes on left
      exact ⟨_,e',f,walkAppend walk' (.cons stepped walk''),ended⟩
  | done margin =>
      refine ⟨front,[],rest,place,fun chunks' same => ?_⟩
      rw [List.append_nil] at same
      obtain ⟨c',walk',abreast,left⟩ := (goes g (fun ending => blankDelimited (marginInside margin ending.inside))).2 _
        (abreastOfChunks chunks chunks') same
      rw [← abreast.position] at margin
      obtain ⟨f,ended⟩ := endNext abreast.right (.inl (abreast.expecting.trans state)) (by rw [left]; exact margin)
      exact ⟨_,c',f,walk',ended⟩

end Cursor

namespace Reader
open Cursor

/-- Some document begins with this text. -/
def Viable (t : Text) : Prop :=
  ∃ chunks seen, t <+: List.flatten chunks ∧ (drain.run (.ofSource (.ofChunks chunks))).1 = .ok seen

theorem drainStuck {cut : List Text} {ts : List Token} {c d : Cursor} {what : Malformed}
    (walk : Walk (ofSource (.ofChunks cut)) ts c) (failed : c.next = (.error (.malformed what),d)) :
    (drain.run (.ofSource (.ofChunks cut))).1 = .error (.malformed what) := by
  have stuck (token : Token) (f : Cursor) : c.next ≠ (.ok (some token),f) := fun h => by rw [failed] at h; cases h
  obtain ⟨ts',c',walk',_,out⟩ := drainWalks (s := .ofSource (.ofChunks cut)) [] (readyOfChunks cut)
  rcases out with ⟨e,ended,_⟩ | ⟨what',e,failed',ran⟩
  · obtain ⟨_,rfl⟩ := walkUnique walk walk' stuck (fun token f h => by rw [ended] at h; cases h)
    rw [failed] at ended
    cases ended
  · obtain ⟨_,rfl⟩ := walkUnique walk walk' stuck (fun token f h => by rw [failed'] at h; cases h)
    rw [failed] at failed'
    cases failed'
    exact ran

theorem metAgain {chunks : List Text} {ts : List Token} {c d : Cursor} {what : Malformed} {g left : Text} {u : CodeUnit}
    (walk : Walk (ofSource (.ofChunks chunks)) ts c) (failed : c.next = (.error (.malformed what),d))
    (whole : c.input.rest = g ++ d.input.rest) (met : d.input.rest = u :: left) :
    ∃ front, chunks.flatten = front ++ c.input.rest ∧ front.length = c.input.position ∧
      ∀ chunks', front ++ g ++ [u] <+: List.flatten chunks' →
        (drain.run (.ofSource (.ofChunks chunks'))).1 = .error (.malformed what) := by
  obtain ⟨ready,front,rest,position,near⟩ := walkNear walk (readyOfChunks chunks)
  obtain ⟨taken,rest',_,near'⟩ := nextNear ready failed
  have same : g = taken := List.append_cancel_right (whole.symm.trans rest')
  subst same
  refine ⟨front,rest,by rw [position]; exact (Nat.zero_add _).symm,fun chunks' begins => ?_⟩
  obtain ⟨more,text⟩ := begins
  obtain ⟨c',walk',abreast,left⟩ := near (ofSource (.ofChunks chunks')) (g ++ u :: more)
    (abreastOfChunks chunks chunks') (text.symm.trans (by simp)) (by rw [whole,met]; exact Text.headAppend rfl)
  obtain ⟨d',failed',_,_⟩ := near' c' (u :: more) abreast left (by rw [met]; rfl)
  exact drainStuck walk' failed'

theorem drainFails {chunks : List Text} {what : Malformed}
    (failed : (drain.run (.ofSource (.ofChunks chunks))).1 = .error (.malformed what)) :
    ∃ ts c d, Walk (ofSource (.ofChunks chunks)) ts c ∧ c.Ready ∧ c.next = (.error (.malformed what),d) := by
  obtain ⟨ts,c,walk,ready,out⟩ := drainWalks (s := .ofSource (.ofChunks chunks)) [] (readyOfChunks chunks)
  rcases out with ⟨_,_,ran⟩ | ⟨what',d,stepped,ran⟩
  · cases ran.symm.trans failed
  · cases ran.symm.trans failed
    exact ⟨ts,c,d,walk,ready,stepped⟩

theorem opensViable {chunks : List Text} {ts : List Token} {c : Cursor} {g more : Text}
    (walk : Walk (ofSource (.ofChunks chunks)) ts c) (whole : c.input.rest = g ++ more)
    (opens : Lexer.Opens c.input.position c.expecting c.nesting.head? g) :
    c.input.position + g.length + more.length = chunks.flatten.length ∧
      Viable (chunks.flatten.take (c.input.position + g.length)) := by
  obtain ⟨front,e,split,place,document⟩ := opensDocument walk opens
  rw [whole,← List.append_assoc] at split
  have length : (front ++ g).length = c.input.position + g.length := by rw [List.length_append,place]
  refine ⟨by rw [split,← length]; exact List.length_append.symm,?_⟩
  obtain ⟨ts',d,f,walk',ended⟩ := document [front ++ g ++ e] (List.append_nil _)
  refine ⟨[front ++ g ++ e],_,?_,drainTold walk' ended⟩
  rw [split,List.take_left' length,List.flatten_singleton]
  exact List.prefix_append _ _

theorem metNotViable {chunks : List Text} {ts : List Token} {c d : Cursor} {what : Malformed} {g : Text}
    (walk : Walk (ofSource (.ofChunks chunks)) ts c) (failed : c.next = (.error (.malformed what),d))
    (whole : c.input.rest = g ++ d.input.rest) (some' : d.input.rest ≠ []) :
    ¬ Viable (chunks.flatten.take (c.input.position + g.length + 1)) := by
  obtain ⟨u,left,met⟩ := List.exists_cons_of_ne_nil some'
  obtain ⟨front,split,place,again⟩ := metAgain walk failed whole met
  rintro ⟨chunks',seen,begins,drained⟩
  have length : (front ++ g ++ [u]).length = c.input.position + g.length + 1 := by
    rw [List.length_append,List.length_append,place]
    rfl
  have parts : chunks.flatten = front ++ g ++ [u] ++ left := by
    rw [split,whole,met]
    simp
  rw [parts,List.take_left' length] at begins
  rw [again chunks' begins] at drained
  cases drained

/-- Where a text is refused, what stands before the place of the fault can still go on to a document. If the fault
tells what was found there, of content behind the value, or of a control character, no document goes on with that
unit as well; and if it tells that the end was found, the place is the end of the text. -/
theorem faultsPointToFlaw (chunks : List Text) (what : Malformed)
    (failed : (drain.run (.ofSource (.ofChunks chunks))).1 = .error (.malformed what)) :
    what.offset ≤ chunks.flatten.length ∧ Viable (chunks.flatten.take what.offset) ∧
      ((∃ wanted u, what.flaw = .expected wanted (some u)) ∨ what.flaw = .trailing ∨ what.flaw = .control →
        ¬ Viable (chunks.flatten.take (what.offset + 1))) ∧
      ∀ wanted, what.flaw = .expected wanted none → what.offset = chunks.flatten.length := by
  obtain ⟨ts,c,d,walk,ready,stepped⟩ := drainFails failed
  have blames := nextBlames ready stepped
  generalize left : d.input.rest = rest at blames
  cases blames with
  | begun whole opened begun =>
      obtain ⟨length,viable⟩ := opensViable walk whole opened
      refine ⟨by rw [← length]; exact Nat.le_add_right _ _,viable,fun tells => ?_,fun wanted tells => ?_⟩
      · rcases tells with ⟨_,_,tells⟩ | tells | tells <;> (cases tells; cases begun)
      · cases tells
        cases begun
  | met whole opened met =>
      obtain ⟨length,viable⟩ := opensViable walk whole opened
      refine ⟨by rw [← length]; exact Nat.le_add_right _ _,viable,fun tells => ?_,fun wanted tells => ?_⟩
      · refine metNotViable walk stepped (by rw [whole,left]) ?_
        rw [left]
        rcases tells with ⟨_,_,tells⟩ | tells | tells
        · cases tells
          intro none'
          rw [none'] at met
          cases met
        · cases tells
          exact met
        · cases tells
          exact met
      · cases tells
        rw [List.head?_eq_none_iff.mp met.symm] at length
        exact length

theorem faultPointsToLetter : Viable (Text.of "[1 ") ∧ ¬ Viable (Text.of "[1 x") := by
  have told : (match (drain.run (.ofSource (.ofChunks [Text.of "[1",Text.of " x]"]))).1 with
      | .error (.malformed what) => some what
      | _ => none) = some ⟨.expected .comma (some 0x78),3⟩ := by decide +kernel
  split at told <;> cases told
  rename_i failed
  have points := faultsPointToFlaw [Text.of "[1",Text.of " x]"] ⟨.expected .comma (some 0x78),3⟩ failed
  exact ⟨points.2.1,points.2.2.1 (.inl ⟨_,_,rfl⟩)⟩

end Reader
end AuditLog
