import AuditLog.Place
import AuditLog.Proofs.Step

/-! The places of tokens. Each call that gives a token goes past a gap and the source of that token,
so calls tile the text: gaps and sources, one after another, are the text itself. -/
namespace AuditLog
open Reading

namespace Text

def between (t : Text) (start stop : Nat) : Text := (t.take stop).drop start

theorem betweenPart (front part more : Text) :
    (front ++ part ++ more).between front.length (front.length + part.length) = part := by
  rw [between,← List.length_append,List.take_left,List.drop_left]

theorem betweenAppend (t : Text) {start middle stop : Nat} (ordered : start ≤ middle) (ordered' : middle ≤ stop) :
    t.between start middle ++ t.between middle stop = t.between start stop := by
  simp only [between,List.drop_take]
  have inner : t.drop middle = (t.drop start).drop (middle - start) := by
    rw [List.drop_drop,Nat.add_sub_cancel' ordered]
  have total : stop - start = (middle - start) + (stop - middle) := by omega
  rw [inner,total,List.take_add]

theorem betweenEnd (t : Text) (start : Nat) : t.between start t.length = t.drop start := by
  rw [between,List.take_length]

end Text

theorem Place.sliceBetween (t : Text) (start stop : Nat) :
    slice t.toArray (.counted start) (.counted stop) = t.between start stop := by
  simp only [slice,boundary,List.size_toArray,Text.between,List.extract_toArray,List.extract_eq_take_drop,
    List.drop_take]
  by_cases inside : start ≤ t.length
  · rw [Nat.min_eq_left inside,List.take_eq_take_iff,List.length_drop]
    omega
  · have beyond : t.length ≤ start := Nat.le_of_lt (Nat.lt_of_not_le inside)
    rw [Nat.min_eq_right beyond,List.drop_length,List.drop_eq_nil_of_le beyond]
    simp

namespace Grammar

def Sourced : Token → Text → Prop
  | .field name, source => Quotation source name
  | .scalar (.string value), source => Quotation source value
  | token, source => source = token.text

/-- What has to part a token from the one before it, where these containers are open. -/
inductive Due : List Container → Option Token → Token → Option CodeUnit → Prop where
  | first {token} : Due [] none token none
  | entry {around container token} : Due around (some (.opening container)) token none
  | value {around name token} : Due around (some (.field name)) token (some 0x3A)
  | item {around last token} (ended : last.endsValue = true) (starts : StartsValue token) :
      Due (.array :: around) (some last) token (some 0x2C)
  | member {around last name} (ended : last.endsValue = true) :
      Due (.object :: around) (some last) (.field name) (some 0x2C)
  | close {around last container} (ended : last.endsValue = true) :
      Due (container :: around) (some last) (.closing container) none

theorem lexemeSourced {token : Token} {source : Text} (lexeme : Lexeme token source) : Sourced token source := by
  cases lexeme with
  | field quotation => exact quotation
  | string quotation => exact quotation
  | number number => rfl
  | _ => rfl

end Grammar

open Grammar

/-- Outcomes of calls that go over a text from this place on, behind this token and inside these
containers; `gap` says what may stand before a token, or before the end, besides what is due. -/
inductive Tiles (gap : Nat → Option CodeUnit → Text → Prop) (t : Text) :
    List Container → Option Token → Nat → List Outcome → Prop where
  | nil {around previous place} : Tiles gap t around previous place []
  | token {around previous place found separator o rest} (result : o.result = .ok (.token (some found)))
      (shown : o.view.token = some found) (text : o.view.text = found.text) (ordered : place ≤ o.view.start)
      (filled : o.view.start < o.view.stop) (inside : o.view.stop ≤ t.length)
      (source : Sourced found (t.between o.view.start o.view.stop)) (due : Due around previous found separator)
      (before : gap place separator (t.between place o.view.start))
      (others : Tiles gap t (Cursor.nestingAfter around found) (some found) o.view.stop rest) :
      Tiles gap t around previous place (o :: rest)
  | ended {previous place o rest} (result : o.result = .ok (.token none)) (shown : o.view.token = none)
      (start : o.view.start = t.length) (stop : o.view.stop = t.length)
      (before : gap place none (t.between place o.view.start)) (others : Tiles gap t [] none t.length rest) :
      Tiles gap t [] previous place (o :: rest)

namespace Tiles
variable {gap : Nat → Option CodeUnit → Text → Prop} {t : Text} {around : List Container}
  {previous : Option Token} {place : Nat} {outcomes : List Outcome}

def told (t : Text) : Nat → List Outcome → Text
  | _, [] => []
  | place, o :: rest =>
      t.between place o.view.start ++ (t.between o.view.start o.view.stop ++ told t o.view.stop rest)

theorem toldUpTo (tiles : Tiles gap t around previous place outcomes) (inside : place ≤ t.length) :
    ∃ stop, place ≤ stop ∧ stop ≤ t.length ∧ told t place outcomes = t.between place stop ∧
      ((∃ o ∈ outcomes, o.view.token = none) → stop = t.length) := by
  induction tiles with
  | nil =>
      refine ⟨_,Nat.le_refl _,inside,?_,fun ⟨_,member,_⟩ => absurd member List.not_mem_nil⟩
      simp [told,Text.between]
  | @token _ _ place found _ o rest _ shown _ ordered filled inside' _ _ _ _ ih =>
      obtain ⟨stop,reaches,bound,same,whole⟩ := ih inside'
      have starts : o.view.start ≤ stop := Nat.le_trans (Nat.le_of_lt filled) reaches
      refine ⟨stop,Nat.le_trans ordered starts,bound,?_,fun ⟨o',member,null⟩ => ?_⟩
      · rw [told,same,Text.betweenAppend t (Nat.le_of_lt filled) reaches,Text.betweenAppend t ordered starts]
      · rcases List.mem_cons.mp member with rfl | later
        · rw [shown] at null; cases null
        · exact whole ⟨o',later,null⟩
  | @ended _ place o rest _ _ start stop _ _ ih =>
      obtain ⟨last,reaches,bound,same,_⟩ := ih (Nat.le_refl _)
      have done : last = t.length := Nat.le_antisymm bound reaches
      refine ⟨t.length,inside,Nat.le_refl _,?_,fun _ => rfl⟩
      rw [told,start,stop,same,done,Text.betweenAppend t (Nat.le_refl _) (Nat.le_refl _),
        Text.betweenAppend t inside (Nat.le_refl _)]

theorem toldPrefix (tiles : Tiles gap t around previous 0 outcomes) :
    told t 0 outcomes <+: t ∧ ((∃ o ∈ outcomes, o.view.token = none) → told t 0 outcomes = t) := by
  obtain ⟨stop,_,_,same,whole⟩ := tiles.toldUpTo (Nat.zero_le _)
  have upTo : told t 0 outcomes = t.take stop := same
  refine ⟨by rw [upTo]; exact List.take_prefix _ _,fun null => ?_⟩
  rw [upTo,whole null,List.take_length]

end Tiles

namespace Lexer

theorem endStands {l l' : Lexing} {start position : Nat} {t : Text} {expecting : Expecting} {inside : Option Container}
    (h : l.Stands start position t) (ran : (Lexer.token expecting inside).run l = (.ok none,l')) :
    l'.Stands (position + t.length) (position + t.length) [] := by
  obtain ⟨_,m,skipped,ran⟩ := okBind ran
  obtain ⟨w,more,rfl,_,stands⟩ := skipFound h skipped
  have beyond {ended : Bool} {m' : Lexing} (looked : atEnd.run m = (.ok ended,m')) (was : ended = true) :
      m'.Stands (position + (w ++ more).length) (position + (w ++ more).length) [] := by
    obtain ⟨same,stands⟩ := atEndFound stands looked
    rw [was] at same
    rw [List.isEmpty_iff.mp same.symm] at stands ⊢
    rwa [List.append_nil]
  cases expecting with
  | nothing =>
      obtain ⟨ended,m',looked,ran⟩ := okBind ran
      cases ended with
      | true => cases ran; exact beyond looked rfl
      | false => cases ran
  | root =>
      obtain ⟨ended,m',looked,ran⟩ := okBind ran
      cases ended with
      | true => cases ran; exact beyond looked rfl
      | false => exact (someNever ran).elim
  | elementOrEnd => exact (someNever ran).elim
  | memberOrEnd => exact (someNever ran).elim
  | colon =>
      obtain ⟨_,_,_,_,_,_,ran⟩ := separatedFound stands ran
      exact (someNever ran).elim
  | commaOrEnd =>
      cases inside with
      | none => exact (someNever ran).elim
      | some container => cases container <;> exact (someNever ran).elim

end Lexer

namespace Cursor

structure Ended (c d : Cursor) : Prop where
  ready : d.Ready
  beyond : c.expecting = .nothing ∨ c.expecting = .root
  margin : Margin c.input.position c.input.rest
  rest : d.input.rest = []
  start : d.start = c.input.position + c.input.rest.length
  stop : d.stop = d.start
  position : d.input.position = d.stop
  nesting : d.nesting = c.nesting
  expecting : d.expecting = .nothing
  token : d.token = none

theorem nextEnded {c d : Cursor} (ready : c.Ready) (stepped : c.next = (.ok none,d)) : Ended c d := by
  obtain ⟨beyond,margin⟩ := nextEnd ready stepped
  rw [nextOpen ready] at stepped
  split at stepped
  · cases stepped
  · rename_i found l ran
    cases stepped
    have stands := Lexer.endStands (readyStands ready) ran
    exact ⟨⟨ready.opened,stands.sound⟩,beyond,margin,stands.rest,stands.start,
      stands.position.trans stands.start.symm,rfl,rfl,rfl,rfl⟩

structure Reaches (t : Text) (c : Cursor) (around : List Container) (previous : Option Token) (place : Nat) : Prop where
  ready : c.Ready
  split : ∃ front, t = front ++ c.input.rest ∧ front.length = place
  position : c.input.position = place
  nesting : c.nesting = around
  expecting : c.expecting = .root ∧ previous = none ∧ around = [] ∨ c.expecting = .nothing ∧ around = [] ∨
    ∃ last, previous = some last ∧ c.expecting = expectingAfter around (some last)

theorem reachesStart (chunks : List Text) : Reaches chunks.flatten (ofSource (.ofChunks chunks)) [] none 0 :=
  ⟨readyOfChunks chunks,⟨[],rfl,rfl⟩,rfl,rfl,.inl ⟨rfl,rfl,rfl⟩⟩

section
variable {t : Text} {c d : Cursor} {around : List Container} {previous : Option Token} {place : Nat}

theorem fitsDue {token : Token} {separator : Option CodeUnit} (reaches : Reaches t c around previous place)
    (fits : Fits c.expecting c.nesting.head? token separator) : Due around previous token separator := by
  have behind {last : Token} (ended : last.endsValue = true)
      (fits : Fits (if around.isEmpty then .nothing else .commaOrEnd) around.head? token separator) :
      Due around (some last) token separator := by
    cases around with
    | nil => cases fits
    | cons container around =>
        cases fits with
        | item starts => exact .item ended starts
        | lastItem => exact .close ended
        | member => exact .member ended
        | lastMember => exact .close ended
  rw [reaches.nesting] at fits
  rcases reaches.expecting with ⟨root,rfl,rfl⟩ | ⟨nothing,_⟩ | ⟨last,rfl,expecting⟩
  · rw [root] at fits
    cases fits
    exact .first
  · rw [nothing] at fits
    cases fits
  · rw [expecting] at fits
    cases last with
    | opening container => cases container <;> (cases fits <;> exact .entry)
    | field name => cases fits; exact .value
    | closing container => exact behind rfl fits
    | scalar scalar => exact behind rfl fits

structure Tile (gap : Nat → Option CodeUnit → Text → Prop) (t : Text) (around : List Container)
    (previous : Option Token) (place : Nat) (token : Token) (d : Cursor) : Prop where
  ordered : place ≤ d.start
  filled : d.start < d.stop
  inside : d.stop ≤ t.length
  source : Sourced token (t.between d.start d.stop)
  due : ∃ separator, Due around previous token separator ∧ gap place separator (t.between place d.start)
  reaches : Reaches t d (nestingAfter around token) (some token) d.stop

theorem takenTile {gap : Nat → Option CodeUnit → Text → Prop} {space source : Text} {token : Token}
    (reaches : Reaches t c around previous place) (taken : Taken c space token source d)
    (before : ∃ separator, Fits c.expecting c.nesting.head? token separator ∧ gap place separator space) :
    Tile gap t around previous place token d := by
  obtain ⟨front,whole,rfl⟩ := reaches.split
  obtain ⟨separator,fits,fills⟩ := before
  have start : d.start = front.length + space.length := by rw [taken.start,reaches.position]
  have stop : d.stop = (front ++ space).length + source.length := by
    rw [taken.stop,start,List.length_append]
  have parts : t = front ++ space ++ source ++ d.input.rest := by rw [whole,taken.rest]; simp
  have gapAt : t.between front.length d.start = space := by
    rw [parts,start,List.append_assoc (front ++ space)]
    exact Text.betweenPart front space _
  have sourceAt : t.between d.start d.stop = source := by
    rw [parts,stop,start,← List.length_append]
    exact Text.betweenPart (front ++ space) source _
  have size : t.length = d.stop + d.input.rest.length := by
    rw [parts,stop]
    simp only [List.length_append]
  obtain ⟨u,rest,nonempty,_⟩ := lexemeHead taken.lexeme
  have filled : d.start < d.stop := by rw [taken.stop,nonempty,List.length_cons]; omega
  refine ⟨by omega,filled,by omega,?_,⟨separator,fitsDue reaches fits,?_⟩,?_⟩
  · rw [sourceAt]; exact lexemeSourced taken.lexeme
  · rw [gapAt]; exact fills
  · refine ⟨taken.ready,⟨front ++ space ++ source,parts,?_⟩,taken.position,?_,.inr (.inr ⟨token,rfl,?_⟩)⟩
    · rw [stop]; simp only [List.length_append]
    · rw [taken.nesting,reaches.nesting]
    · rw [taken.expecting,taken.nesting,reaches.nesting]

theorem endedOutside (reaches : Reaches t c around previous place)
    (beyond : c.expecting = .nothing ∨ c.expecting = .root) : around = [] := by
  rcases reaches.expecting with ⟨_,_,outside⟩ | ⟨_,outside⟩ | ⟨last,_,expecting⟩
  · exact outside
  · exact outside
  · have behind (same : c.expecting = if around.isEmpty then .nothing else .commaOrEnd) : around = [] := by
      cases around with
      | nil => rfl
      | cons container around => rw [same] at beyond; simp at beyond
    cases last with
    | opening container => rw [expecting] at beyond; cases container <;> simp [expectingAfter] at beyond
    | field name => rw [expecting] at beyond; simp [expectingAfter] at beyond
    | closing container => exact behind expecting
    | scalar scalar => exact behind expecting

theorem endedReaches (reaches : Reaches t c around previous place) (ended : Ended c d) :
    d.start = t.length ∧ d.stop = t.length ∧ t.between place d.start = c.input.rest ∧
      Reaches t d [] none t.length := by
  obtain ⟨front,whole,rfl⟩ := reaches.split
  have start : d.start = t.length := by rw [ended.start,reaches.position,whole,List.length_append]
  have stop : d.stop = t.length := ended.stop.trans start
  refine ⟨start,stop,?_,ended.ready,⟨t,?_,rfl⟩,ended.position.trans stop,?_,.inr (.inl ⟨ended.expecting,rfl⟩)⟩
  · rw [start,Text.betweenEnd,whole,List.drop_left]
  · rw [ended.rest,List.append_nil]
  · rw [ended.nesting,reaches.nesting,endedOutside reaches ended.beyond]

end
end Cursor

namespace Operation
open Cursor

theorem nextRan {s : Session} {result : Except Fault (Option Token)} {d : Cursor} (stepped : s.cursor.next = (result,d)) :
    Operation.next.outcome s = ⟨result.map .token,d.view,s.notices⟩ ∧
      (Operation.next.reader.run s).2 = { s with cursor := d } := by
  have ran : Operation.next.reader.run s = (result.map .token,{ s with cursor := d }) := by
    show (Reader.next >>= fun token => pure (Answer.token token)).run s = _
    rw [runBind,nextRun stepped]
    cases result <;> rfl
  rw [outcome,ran]
  exact ⟨rfl,rfl⟩

theorem viewToken {d : Cursor} {token : Option Token} (ready : d.Ready) (same : d.token = token) :
    d.view = ⟨token,(token.map Token.text).getD [],d.name,d.start,d.stop⟩ := by
  simp only [view,current,ready.opened,text,same]
  rfl

theorem tilesTaken {gap : Nat → Option CodeUnit → Text → Prop} {t : Text} {around : List Container}
    {previous : Option Token} {place n : Nat} {token : Token} {s : Session} {d : Cursor}
    (stepped : s.cursor.next = (.ok (some token),d)) (tile : Tile gap t around previous place token d)
    (shown : d.token = some token)
    (others : Tiles gap t (nestingAfter around token) (some token) d.stop
      (transcript (List.replicate n .next) { s with cursor := d })) :
    Tiles gap t around previous place (transcript (List.replicate (n + 1) .next) s) := by
  obtain ⟨outcome,after⟩ := nextRan stepped
  obtain ⟨separator,due,fills⟩ := tile.due
  simp only [List.replicate_succ,transcript,outcome,after,viewToken tile.reaches.ready shown]
  exact .token rfl rfl rfl tile.ordered tile.filled tile.inside tile.source due fills others

theorem tilesEnded {gap : Nat → Option CodeUnit → Text → Prop} {t : Text} {around : List Container}
    {previous : Option Token} {place n : Nat} {s : Session} {d : Cursor}
    (stepped : s.cursor.next = (.ok none,d)) (reaches : Reaches t s.cursor around previous place)
    (fills : gap place none s.cursor.input.rest)
    (others : Tiles gap t [] none t.length (transcript (List.replicate n .next) { s with cursor := d })) :
    Tiles gap t around previous place (transcript (List.replicate (n + 1) .next) s) := by
  obtain ⟨outcome,after⟩ := nextRan stepped
  have ended := nextEnded reaches.ready stepped
  obtain ⟨start,stop,space,_⟩ := endedReaches reaches ended
  rw [← space] at fills
  rw [endedOutside reaches ended.beyond]
  simp only [List.replicate_succ,transcript,outcome,after,viewToken ended.ready ended.token]
  exact .ended rfl rfl start stop fills others

theorem callsTile {t : Text} (n : Nat) {s : Session} {around : List Container} {previous : Option Token} {place : Nat}
    (reaches : Reaches t s.cursor around previous place)
    (succeed : ∀ o ∈ transcript (List.replicate n .next) s, o.result.isOk = true) :
    Tiles Gap t around previous place (transcript (List.replicate n .next) s) := by
  induction n generalizing s around previous place with
  | zero => exact .nil
  | succ n ih =>
      cases stepped : s.cursor.next with
      | mk result d =>
          obtain ⟨outcome,after⟩ := nextRan stepped
          have first := succeed
          simp only [List.replicate_succ,transcript,outcome,after,List.forall_mem_cons] at first
          obtain ⟨ok,later⟩ := first
          cases result with
          | error fault => cases ok
          | ok token =>
              cases token with
              | none =>
                  have ended := nextEnded reaches.ready stepped
                  have margin := ended.margin
                  rw [reaches.position] at margin
                  exact tilesEnded stepped reaches (.blank margin) (ih (endedReaches reaches ended).2.2.2 later)
              | some token =>
                  obtain ⟨space,source,taken⟩ := nextTaken reaches.ready stepped
                  have before := taken.before
                  rw [reaches.position] at before
                  have tile := takenTile reaches taken before
                  exact tilesTaken stepped tile taken.token (ih tile.reaches later)

/-- As long as no call fails, tokens and gaps tile the text: each token has the place of its source, and
before it stand blanks, with the separator that is due there and no other unit among them. At the end
the text is used up, and gaps and sources are the whole of it. -/
theorem tokensTileText (chunks : List Text) (n : Nat)
    (succeed : ∀ o ∈ transcript (List.replicate n .next) (.ofSource (.ofChunks chunks)), o.result.isOk = true) :
    Tiles Gap chunks.flatten [] none 0 (transcript (List.replicate n .next) (.ofSource (.ofChunks chunks))) ∧
      Tiles.told chunks.flatten 0 (transcript (List.replicate n .next) (.ofSource (.ofChunks chunks))) <+:
        chunks.flatten ∧
      ((∃ o ∈ transcript (List.replicate n .next) (.ofSource (.ofChunks chunks)), o.view.token = none) →
        Tiles.told chunks.flatten 0 (transcript (List.replicate n .next) (.ofSource (.ofChunks chunks))) =
          chunks.flatten) := by
  have tiles := callsTile n (s := .ofSource (.ofChunks chunks)) (reachesStart chunks) succeed
  exact ⟨tiles,tiles.toldPrefix⟩

theorem markedTextTiled :
    Tiles.told (0xFEFF :: Text.of " \x7b\"a\" : [1, true]\x7d ") 0
      (transcript (List.replicate 9 .next)
        (.ofSource (.ofChunks [[0xFEFF],Text.of " \x7b\"a",Text.of "\" : [1",Text.of ", true]\x7d "]))) =
      0xFEFF :: Text.of " \x7b\"a\" : [1, true]\x7d " :=
  (tokensTileText [[0xFEFF],Text.of " \x7b\"a",Text.of "\" : [1",Text.of ", true]\x7d "] 9
    (by decide +kernel)).2.2 (by decide +kernel)

end Operation
end AuditLog
