import AuditLog.Proofs.Reads

/-! One step of a cursor, against the grammar. A token taken has a gap before it that fits the state
of the cursor and a source that spells it; and such a token, if its source is not cut short by what
follows, is the one taken. -/
namespace AuditLog
open Reading

namespace Lexer
open Grammar

structure Placed (expecting : Expecting) (inside : Option Container) (position : Nat) (token : Token)
    (gap source more : Text) (l : Lexing) : Prop where
  before : ∃ separator, Fits expecting inside token separator ∧ Gap position separator gap
  lexeme : Lexeme token source
  stands : l.Stands (position + gap.length) (position + gap.length + source.length) more

section
variable {expecting : Expecting} {inside : Option Container} {position : Nat} {token : Token}
  {w w' source more : Text} {unit : CodeUnit} {l l' : Lexing}

theorem placedPlain (margin : Margin position w) (fits : Fits expecting inside token none)
    (lexeme : Lexeme token source)
    (stands : l'.Stands (position + w.length) (position + w.length + source.length) more) :
    Placed expecting inside position token w source more l' :=
  ⟨⟨none,fits,.blank margin⟩,lexeme,stands⟩

theorem behindPlace : position + (w ++ unit :: w').length = position + w.length + 1 + w'.length := by
  simp only [List.length_append,List.length_cons]; omega

theorem placedBehind (margin : Margin position w) (blank : Blank w')
    (fits : Fits expecting inside token (some unit)) (lexeme : Lexeme token source)
    (stands : l'.Stands (position + w.length + 1 + w'.length)
      (position + w.length + 1 + w'.length + source.length) more) :
    Placed expecting inside position token (w ++ unit :: w') source more l' := by
  refine ⟨⟨some unit,fits,.separated margin blank⟩,lexeme,?_⟩
  rw [behindPlace]; exact stands

theorem someOk {r : Lexer Token} (ran : (some <$> r).run l = (.ok (some token),l')) :
    r.run l = (.ok token,l') := by
  obtain ⟨a,m,ran,done⟩ := okBind ran
  cases done
  exact ran

theorem okSome {r : Lexer Token} (ran : r.run l = (.ok token,l')) :
    (some <$> r).run l = (.ok (some token),l') := by
  show (r >>= fun a => pure (some a)).run l = _
  simp only [runBind,ran]; rfl

theorem tokenFound {start : Nat} {t : Text} (h : l.Stands start position t)
    (ran : (Lexer.token expecting inside).run l = (.ok (some token),l')) :
    ∃ gap source more, t = gap ++ source ++ more ∧ Placed expecting inside position token gap source more l' := by
  obtain ⟨_,m,skipped,ran⟩ := okBind ran
  obtain ⟨w,t,rfl,margin,stands⟩ := skipFound h skipped
  have plain {source more : Text} (same : t = source ++ more) : w ++ t = w ++ source ++ more := by
    rw [same,List.append_assoc]
  have behind {unit : CodeUnit} {w' t' source more : Text} (same : t = unit :: w' ++ t')
      (same' : t' = source ++ more) :
      w ++ t = (w ++ unit :: w') ++ source ++ more := by
    simp [same,same']
  cases expecting with
  | nothing =>
      obtain ⟨ended,_,_,ran⟩ := okBind ran
      cases ended <;> cases ran
  | root =>
      obtain ⟨ended,m',looked,ran⟩ := okBind ran
      obtain ⟨_,stands⟩ := atEndFound stands looked
      cases ended with
      | true => cases ran
      | false =>
          obtain ⟨source,more,same,lexeme,starts,stands⟩ := valueFound stands (someOk ran)
          exact ⟨w,source,more,plain same,placedPlain margin (.root starts) lexeme stands⟩
  | elementOrEnd =>
      rcases orCloseFound stands (someOk ran) with ⟨more,same,rfl,stands⟩ | ⟨m',stands,ran⟩
      · exact ⟨w,[0x5D],more,plain same,placedPlain margin .noItem .closeArray stands⟩
      · obtain ⟨source,more,same,lexeme,starts,stands⟩ := valueFound stands ran
        exact ⟨w,source,more,plain same,placedPlain margin (.firstItem starts) lexeme stands⟩
  | memberOrEnd =>
      rcases orCloseFound stands (someOk ran) with ⟨more,same,rfl,stands⟩ | ⟨m',stands,ran⟩
      · exact ⟨w,[0x7D],more,plain same,placedPlain margin .noMember .closeObject stands⟩
      · obtain ⟨name,source,more,rfl,same,quotation,stands⟩ := keyFound stands ran
        exact ⟨w,source,more,plain same,placedPlain margin .firstMember (.field quotation) stands⟩
  | colon =>
      obtain ⟨w',t',m',same,blank,stands,ran⟩ := separatedFound stands ran
      obtain ⟨source,more,same',lexeme,starts,stands⟩ := valueFound stands (someOk ran)
      exact ⟨_,source,more,behind same same',placedBehind margin blank (.value starts) lexeme stands⟩
  | commaOrEnd =>
      cases inside with
      | none =>
          obtain ⟨w',t',m',same,blank,stands,ran⟩ := separatedFound stands (someOk ran)
          obtain ⟨source,more,same',lexeme,starts,stands⟩ := valueFound stands ran
          exact ⟨_,source,more,behind same same',placedBehind margin blank (.loose starts) lexeme stands⟩
      | some container =>
          cases container with
          | object =>
              rcases orCloseFound stands (someOk ran) with ⟨more,same,rfl,stands⟩ | ⟨m',stands,ran⟩
              · exact ⟨w,[0x7D],more,plain same,placedPlain margin .lastMember .closeObject stands⟩
              · obtain ⟨w',t',m',same,blank,stands,ran⟩ := separatedFound stands ran
                obtain ⟨name,source,more,rfl,same',quotation,stands⟩ := keyFound stands ran
                exact ⟨_,source,more,behind same same',placedBehind margin blank .member (.field quotation) stands⟩
          | array =>
              rcases orCloseFound stands (someOk ran) with ⟨more,same,rfl,stands⟩ | ⟨m',stands,ran⟩
              · exact ⟨w,[0x5D],more,plain same,placedPlain margin .lastItem .closeArray stands⟩
              · obtain ⟨w',t',m',same,blank,stands,ran⟩ := separatedFound stands ran
                obtain ⟨source,more,same',lexeme,starts,stands⟩ := valueFound stands ran
                exact ⟨_,source,more,behind same same',placedBehind margin blank (.item starts) lexeme stands⟩

theorem notCloser (container : Container) {u : CodeUnit} {t : Text} (apart : u ≠ closer container) :
    ∀ rest, u :: t ≠ closer container :: rest := by
  intro rest same
  cases same
  exact apart rfl

theorem valueNotCloser (lexeme : Lexeme token source) (starts : StartsValue token) :
    ∀ rest, source ++ more ≠ closer .array :: rest := by
  obtain ⟨u,rest,rfl,_,_,apart⟩ := lexemeHead lexeme
  exact notCloser .array (apart starts)

theorem quotationNotCloser {name : Text} (quotation : Quotation source name) :
    ∀ rest, source ++ more ≠ closer .object :: rest := by
  cases quotation
  exact notCloser .object (by decide)

theorem fieldQuotation {name : Text} (lexeme : Lexeme (.field name) source) : Quotation source name := by
  cases lexeme; assumption

theorem firmUnit {u : CodeUnit} (solid : u ∉ spaces) (notMark : u ≠ 0xFEFF) (t : Text) : Firm (u :: t) := by
  intro v rest same
  cases same
  exact ⟨solid,notMark⟩

theorem plainRead {start : Nat} (fits : Fits expecting inside token none) (margin : Margin position w)
    (lexeme : Lexeme token source) (stops : Stops token more)
    (h : l.Stands start position (w ++ source ++ more)) :
    ∃ l', (Lexer.token expecting inside).run l = (.ok (some token),l') ∧
      l'.Stands (position + w.length) (position + w.length + source.length) more := by
  rw [List.append_assoc] at h
  obtain ⟨m,skipped,stands⟩ := skipRead h margin (lexemeFirm lexeme more)
  simp only [Lexer.token,runBind,skipped]
  cases fits with
  | root starts =>
      obtain ⟨m',looked,stands⟩ := atEndRead stands
      have some' : (source ++ more).isEmpty = false := by
        obtain ⟨u,rest,rfl,_⟩ := lexemeHead lexeme; rfl
      obtain ⟨l',ran,stands⟩ := valueRead stands lexeme starts stops
      exact ⟨l',by simp only [runBind,looked,some']; exact okSome ran,stands⟩
  | firstItem starts =>
      obtain ⟨m',stands,same⟩ := orCloseOpen value stands (valueNotCloser lexeme starts)
      obtain ⟨l',ran,stands⟩ := valueRead stands lexeme starts stops
      exact ⟨l',okSome (same.trans ran),stands⟩
  | noItem =>
      cases lexeme
      obtain ⟨l',ran,stands⟩ := orCloseShut .array value stands
      exact ⟨l',okSome ran,stands⟩
  | firstMember =>
      have quotation := fieldQuotation lexeme
      obtain ⟨m',stands,same⟩ := orCloseOpen key stands (quotationNotCloser quotation)
      obtain ⟨l',ran,stands⟩ := keyRead stands quotation
      exact ⟨l',okSome (same.trans ran),stands⟩
  | noMember =>
      cases lexeme
      obtain ⟨l',ran,stands⟩ := orCloseShut .object key stands
      exact ⟨l',okSome ran,stands⟩
  | lastItem =>
      cases lexeme
      obtain ⟨l',ran,stands⟩ := orCloseShut .array (afterComma value) stands
      exact ⟨l',okSome ran,stands⟩
  | lastMember =>
      cases lexeme
      obtain ⟨l',ran,stands⟩ := orCloseShut .object (afterComma key) stands
      exact ⟨l',okSome ran,stands⟩

theorem behindRead {start : Nat} (fits : Fits expecting inside token (some unit)) (margin : Margin position w)
    (blank : Blank w') (lexeme : Lexeme token source) (stops : Stops token more)
    (h : l.Stands start position ((w ++ unit :: w') ++ source ++ more)) :
    ∃ l', (Lexer.token expecting inside).run l = (.ok (some token),l') ∧
      l'.Stands (position + (w ++ unit :: w').length) (position + (w ++ unit :: w').length + source.length) more := by
  have firm := lexemeFirm lexeme more
  have solid : unit ∉ spaces ∧ unit ≠ 0xFEFF ∧ unit ≠ 0x5D ∧ unit ≠ 0x7D := by
    cases fits <;> decide
  have same : (w ++ unit :: w') ++ source ++ more = w ++ (unit :: w' ++ (source ++ more)) := by simp
  rw [same] at h
  obtain ⟨m,skipped,stands⟩ := skipRead h margin (firmUnit solid.1 solid.2.1 _)
  rw [behindPlace]
  simp only [Lexer.token,runBind,skipped]
  cases fits with
  | value starts =>
      obtain ⟨m',stands,same⟩ := separatedRead .colon (some <$> value) stands blank firm
      obtain ⟨l',ran,stands⟩ := valueRead stands lexeme starts stops
      exact ⟨l',same.trans (okSome ran),stands⟩
  | item starts =>
      obtain ⟨m',stands,open'⟩ := orCloseOpen (afterComma value) stands (notCloser .array solid.2.2.1)
      obtain ⟨m'',stands,same⟩ := separatedRead .comma value stands blank firm
      obtain ⟨l',ran,stands⟩ := valueRead stands lexeme starts stops
      exact ⟨l',okSome (open'.trans (same.trans ran)),stands⟩
  | member =>
      obtain ⟨m',stands,open'⟩ := orCloseOpen (afterComma key) stands (notCloser .object solid.2.2.2)
      obtain ⟨m'',stands,same⟩ := separatedRead .comma key stands blank firm
      obtain ⟨l',ran,stands⟩ := keyRead stands (fieldQuotation lexeme)
      exact ⟨l',okSome (open'.trans (same.trans ran)),stands⟩
  | loose starts =>
      obtain ⟨m',stands,same⟩ := separatedRead .comma value stands blank firm
      obtain ⟨l',ran,stands⟩ := valueRead stands lexeme starts stops
      exact ⟨l',okSome (same.trans ran),stands⟩

theorem fittingRead {separator : Option CodeUnit} {gap : Text} {start : Nat}
    (fits : Fits expecting inside token separator) (before : Gap position separator gap) (lexeme : Lexeme token source)
    (stops : Stops token more) (h : l.Stands start position (gap ++ source ++ more)) :
    ∃ l', (Lexer.token expecting inside).run l = (.ok (some token),l') ∧
      l'.Stands (position + gap.length) (position + gap.length + source.length) more := by
  cases before with
  | blank margin => exact plainRead fits margin lexeme stops h
  | separated margin blank => exact behindRead fits margin blank lexeme stops h

theorem someNever {r : Lexer Token} (ran : (some <$> r).run l = (.ok none,l')) : False := by
  obtain ⟨_,_,_,done⟩ := okBind ran
  cases done

theorem endFound {start : Nat} {t : Text} (h : l.Stands start position t)
    (ran : (Lexer.token expecting inside).run l = (.ok none,l')) :
    (expecting = .nothing ∨ expecting = .root) ∧ Margin position t := by
  obtain ⟨_,m,skipped,ran⟩ := okBind ran
  obtain ⟨w,t,rfl,margin,stands⟩ := skipFound h skipped
  have beyond {ended : Bool} {m m' : Lexing} (stands : m.Stands (position + w.length) (position + w.length) t)
      (looked : atEnd.run m = (.ok ended,m')) (was : ended = true) : Margin position (w ++ t) := by
    obtain ⟨same,_⟩ := atEndFound stands looked
    rw [was] at same
    rw [List.isEmpty_iff.mp same.symm,List.append_nil]
    exact margin
  cases expecting with
  | nothing =>
      obtain ⟨ended,m',looked,ran⟩ := okBind ran
      cases ended with
      | true => exact ⟨.inl rfl,beyond stands looked rfl⟩
      | false => cases ran
  | root =>
      obtain ⟨ended,m',looked,ran⟩ := okBind ran
      cases ended with
      | true => exact ⟨.inr rfl,beyond stands looked rfl⟩
      | false => exact (someNever ran).elim
  | elementOrEnd => exact (someNever ran).elim
  | memberOrEnd => exact (someNever ran).elim
  | colon =>
      obtain ⟨_,_,_,_,_,_,ran⟩ := separatedFound stands ran
      exact (someNever ran).elim
  | commaOrEnd =>
      cases inside with
      | none => exact (someNever ran).elim
      | some container => cases container <;> exact (someNever ran).elim

theorem endRead {start : Nat} {t : Text} (h : l.Stands start position t)
    (beyond : expecting = .nothing ∨ expecting = .root) (margin : Margin position t) :
    ∃ l', (Lexer.token expecting inside).run l = (.ok none,l') := by
  have shown : t = t ++ [] := (List.append_nil t).symm
  rw [shown] at h
  obtain ⟨m,skipped,stands⟩ := skipRead h margin nofun
  obtain ⟨l',looked,_⟩ := atEndRead stands
  refine ⟨l',?_⟩
  rcases beyond with rfl | rfl <;> simp only [Lexer.token,runBind,skipped,looked] <;> rfl

end

end Lexer

namespace Cursor
open Grammar

structure Ready (c : Cursor) : Prop where
  opened : c.closed = false
  sound : c.input.Sound

structure Taken (c : Cursor) (gap : Text) (token : Token) (source : Text) (d : Cursor) : Prop where
  ready : d.Ready
  before : ∃ separator, Fits c.expecting c.nesting.head? token separator ∧ Gap c.input.position separator gap
  lexeme : Lexeme token source
  rest : c.input.rest = gap ++ source ++ d.input.rest
  start : d.start = c.input.position + gap.length
  stop : d.stop = d.start + source.length
  position : d.input.position = d.stop
  nesting : d.nesting = nestingAfter c.nesting token
  expecting : d.expecting = expectingAfter d.nesting (some token)
  name : d.name = nameAfter c.token (some token)
  token : d.token = some token

theorem readyOfChunks (chunks : List Text) : (ofSource (.ofChunks chunks)).Ready :=
  ⟨rfl,Input.soundOfChunks chunks⟩

theorem readyStands {c : Cursor} (ready : c.Ready) :
    (Lexer.Lexing.mk c.input c.start).Stands c.start c.input.position c.input.rest :=
  ⟨ready.sound,rfl,rfl,rfl⟩

theorem nextOpen {c : Cursor} (ready : c.Ready) :
    c.next =
      match (Lexer.token c.expecting c.nesting.head?).run ⟨c.input,c.start⟩ with
      | (.error fault,l) => (.error fault,{ c with input := l.input, start := l.start })
      | (.ok token,l) => (.ok token,advanced c token l) := by
  rw [next,ready.opened]; rfl

theorem advancedTaken {c : Cursor} {gap source more : Text} {token : Token} {l : Lexer.Lexing}
    (ready : c.Ready) (same : c.input.rest = gap ++ source ++ more)
    (placed : Lexer.Placed c.expecting c.nesting.head? c.input.position token gap source more l) :
    Taken c gap token source (c.advanced (some token) l) := by
  obtain ⟨before,lexeme,sound,start,position,rest⟩ := placed
  refine ⟨⟨ready.opened,sound⟩,before,lexeme,?_,start,?_,rfl,rfl,rfl,rfl,rfl⟩
  · rw [same,← rest]; rfl
  · show l.input.position = l.start + source.length
    rw [position,start]

theorem nextTaken {c d : Cursor} {token : Token} (ready : c.Ready) (stepped : c.next = (.ok (some token),d)) :
    ∃ gap source, Taken c gap token source d := by
  rw [nextOpen ready] at stepped
  split at stepped
  · cases stepped
  · rename_i found l ran
    cases stepped
    obtain ⟨gap,source,more,same,placed⟩ := Lexer.tokenFound (readyStands ready) ran
    exact ⟨gap,source,advancedTaken ready same placed⟩

theorem takenNext {c : Cursor} {gap source more : Text} {token : Token} {separator : Option CodeUnit}
    (ready : c.Ready) (same : c.input.rest = gap ++ source ++ more)
    (fits : Fits c.expecting c.nesting.head? token separator) (before : Gap c.input.position separator gap)
    (lexeme : Lexeme token source) (stops : Stops token more) :
    ∃ d, c.next = (.ok (some token),d) ∧ Taken c gap token source d ∧ d.input.rest = more := by
  have stands := readyStands ready
  rw [same] at stands
  obtain ⟨l,ran,stands⟩ := Lexer.fittingRead fits before lexeme stops stands
  refine ⟨c.advanced (some token) l,by rw [nextOpen ready,ran],?_,stands.rest⟩
  exact advancedTaken ready same ⟨⟨separator,fits,before⟩,lexeme,stands⟩

theorem nextEnd {c d : Cursor} (ready : c.Ready) (stepped : c.next = (.ok none,d)) :
    (c.expecting = .nothing ∨ c.expecting = .root) ∧ Margin c.input.position c.input.rest := by
  rw [nextOpen ready] at stepped
  split at stepped
  · cases stepped
  · rename_i found l ran
    cases stepped
    exact Lexer.endFound (readyStands ready) ran

theorem endNext {c : Cursor} (ready : c.Ready) (beyond : c.expecting = .nothing ∨ c.expecting = .root)
    (margin : Margin c.input.position c.input.rest) : ∃ d, c.next = (.ok none,d) := by
  obtain ⟨l,ran⟩ := Lexer.endRead (readyStands ready) beyond margin
  exact ⟨_,by rw [nextOpen ready,ran]⟩

theorem nextFault {c d : Cursor} {fault : Fault} (ready : c.Ready) (stepped : c.next = (.error fault,d)) :
    ∃ what, fault = .malformed what ∧ what.flaw ≠ .endOfInput := by
  rw [nextOpen ready] at stepped
  have steady := Lexer.tokenSteady Lexer.keptAlike c.expecting c.nesting.head? ⟨c.input,c.start⟩ ⟨c.input,c.start⟩
    ⟨Input.alikeSelf ready.sound,rfl⟩
  generalize (Lexer.token c.expecting c.nesting.head?).run ⟨c.input,c.start⟩ = x at stepped steady
  cases steady with
  | ok _ => cases stepped
  | error related => cases stepped; exact related.2.resolve_left id

theorem nextOnward {c d : Cursor} {result : Except Fault (Option Token)} (ready : c.Ready)
    (stepped : c.next = (result,d)) : d.Ready ∧ c.input.Onward d.input := by
  rw [nextOpen ready] at stepped
  have steady := Lexer.tokenSteady (Lexer.keptAlong c.input) c.expecting c.nesting.head? ⟨c.input,c.start⟩
    ⟨c.input,c.start⟩ ⟨rfl,Input.onwardSelf ready.sound⟩
  generalize (Lexer.token c.expecting c.nesting.head?).run ⟨c.input,c.start⟩ = x at stepped steady
  cases steady with
  | ok related => cases stepped; exact ⟨⟨ready.opened,related.2.sound⟩,related.2⟩
  | error related => cases stepped; exact ⟨⟨ready.opened,related.1.2.sound⟩,related.1.2⟩

theorem takenPlace {c d : Cursor} {gap source : Text} {token : Token} (taken : Taken c gap token source d) :
    d.input.position = c.input.position + (gap ++ source).length := by
  rw [taken.position,taken.stop,taken.start,List.length_append,Nat.add_assoc]

theorem takenPositive {c d : Cursor} {gap source : Text} {token : Token} (taken : Taken c gap token source d) :
    0 < d.input.position := by
  obtain ⟨u,rest,same,_⟩ := lexemeHead taken.lexeme
  rw [taken.position,taken.stop,same,List.length_cons]
  omega

theorem nextCurrent {c d : Cursor} {token : Option Token} (stepped : c.next = (.ok token,d)) : d.current = token := by
  unfold next at stepped
  split at stepped
  · cases stepped
  · rename_i opened
    split at stepped
    · cases stepped
    · cases stepped
      simp [current,advanced,opened]

theorem nextRun {s : Session} {result : Except Fault (Option Token)} {d : Cursor} (stepped : s.cursor.next = (result,d)) :
    Reader.next.run s = (result,{ s with cursor := d }) := by
  simp only [Reader.next,stepped]

end Cursor

theorem Reader.readNext {s t : Session} {token : Option Token} (read : next.run s = (.ok token,t)) :
    s.cursor.next = (.ok token,t.cursor) := by
  cases stepped : s.cursor.next with
  | mk result d =>
      rw [Cursor.nextRun stepped] at read
      cases read
      rfl

end AuditLog
