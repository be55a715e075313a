import AuditLog.Proofs.Walk

/-! The other way round. A climb is a walk back to the nesting `base`, through deeper ones only. A
climb from the first token of a value to where the value stands has walked a value of the grammar:
read backwards, each step turns what is owed behind its token into what is owed before it. -/
namespace AuditLog
namespace Cursor
open Grammar

inductive Climb (base : List Container) : Cursor → List Token → Cursor → Prop where
  | stop {c} (beyond : Over c base) : Climb base c [] c
  | step {c d e token ts} (deep : base.length < c.nesting.length) (stepped : c.next = (.ok (some token),d))
      (rest : Climb base d ts e) : Climb base c (token :: ts) e

theorem climbOver {base : List Container} {c d : Cursor} {ts : List Token} (climb : Climb base c ts d) :
    Over d base := by
  induction climb with
  | stop beyond => exact beyond
  | step _ _ _ ih => exact ih

theorem climbWalk {base : List Container} {c d : Cursor} {ts : List Token} (climb : Climb base c ts d) :
    Walk c ts d := by
  induction climb with
  | stop _ => exact .nil
  | step _ stepped _ ih => exact .cons stepped ih

theorem climbThen {base inner : List Container} {c d e : Cursor} {ts ts' : List Token}
    (first : Climb inner c ts d) (deep : base.length < inner.length) (second : Climb base d ts' e) :
    Climb base c (ts ++ ts') e := by
  induction first with
  | stop _ => exact second
  | step deeper stepped _ ih => exact .step (Nat.lt_trans deep deeper) stepped (ih second)

inductive Closes (base : List Container) : List Container → List Token → Text → Prop where
  | done : Closes base base [] []
  | array {js r stack ts t} (items : Spelt (.items js) r) (rest : Closes base stack ts t) :
      Closes base (.array :: stack) (Json.itemTokens js ++ .closing .array :: ts) (r ++ t)
  | object {ms r stack ts t} (members : Spelt (.members ms) r) (rest : Closes base stack ts t) :
      Closes base (.object :: stack) (Json.memberTokens ms ++ .closing .object :: ts) (r ++ t)

def Owed (base : List Container) (token : Token) (source : Text) (around : List Container) (ts : List Token)
    (t : Text) : Prop :=
  match token with
  | .closing _ => Closes base around.tail ts t
  | .field name => ∃ j r ts' t', ts = j.tokens ++ ts' ∧ t = r ++ t' ∧ Spelt (.member name j) (source ++ r) ∧
      Closes base around ts' t'
  | token => ∃ j r ts' t', j.first = token ∧ ts = j.others ++ ts' ∧ t = r ++ t' ∧ Spelt (.value j) (source ++ r) ∧
      Closes base around ts' t'

theorem owedValue {base around : List Container} {token : Token} {source t : Text} {ts : List Token}
    (starts : StartsValue token) (owed : Owed base token source around ts t) :
    ∃ j r ts' t', j.first = token ∧ ts = j.others ++ ts' ∧ t = r ++ t' ∧ Spelt (.value j) (source ++ r) ∧
      Closes base around ts' t' := by
  cases token with
  | opening container => exact owed
  | scalar scalar => exact owed
  | closing container => cases starts
  | field name => cases starts

theorem closesArray {base stack : List Container} {ts : List Token} {t : Text}
    (closes : Closes base (.array :: stack) ts t) (deep : base.length < (Container.array :: stack).length) :
    ∃ js r ts' t', ts = Json.itemTokens js ++ .closing .array :: ts' ∧ t = r ++ t' ∧ Spelt (.items js) r ∧
      Closes base stack ts' t' := by
  cases closes with
  | done => exact absurd deep (Nat.lt_irrefl _)
  | array items rest => exact ⟨_,_,_,_,rfl,rfl,items,rest⟩

theorem closesObject {base stack : List Container} {ts : List Token} {t : Text}
    (closes : Closes base (.object :: stack) ts t) (deep : base.length < (Container.object :: stack).length) :
    ∃ ms r ts' t', ts = Json.memberTokens ms ++ .closing .object :: ts' ∧ t = r ++ t' ∧ Spelt (.members ms) r ∧
      Closes base stack ts' t' := by
  cases closes with
  | done => exact absurd deep (Nat.lt_irrefl _)
  | object members rest => exact ⟨_,_,_,_,rfl,rfl,members,rest⟩

theorem scalarSpelt {scalar : Scalar} {source : Text} (lexeme : Lexeme (.scalar scalar) source) :
    ∃ j : Json, j.first = .scalar scalar ∧ j.others = [] ∧ Spelt (.value j) source := by
  cases lexeme with
  | string quotation => exact ⟨.string _,rfl,rfl,.string quotation⟩
  | number number => exact ⟨.number source,rfl,rfl,.number number⟩
  | yes => exact ⟨.flag true,rfl,rfl,.yes⟩
  | no => exact ⟨.flag false,rfl,rfl,.no⟩
  | null => exact ⟨.null,rfl,rfl,.null⟩

theorem closesEntry {base : List Container} {c d : Cursor} {gap source t : Text} {token : Token}
    {ts : List Token} (beyond : c.expecting = .commaOrEnd) (inside : 0 < c.input.position)
    (deep : base.length < c.nesting.length) (taken : Taken c gap token source d)
    (owed : Owed base token source c.nesting ts t) :
    Closes base c.nesting (token :: ts) (gap ++ source ++ t) := by
  obtain ⟨separator,fits,before⟩ := taken.before
  rw [beyond] at fits
  generalize around : c.nesting = nesting at fits owed deep ⊢
  cases nesting with
  | nil => cases deep
  | cons container stack =>
      cases fits with
      | @item token starts =>
          cases before with
          | separated margin behind =>
              obtain ⟨j,r,ts,t,rfl,rfl,rfl,value,closes⟩ := owedValue starts owed
              obtain ⟨js,r',ts,t,rfl,rfl,items,closes⟩ := closesArray closes deep
              have spelt := Spelt.item (marginInside margin inside) behind value items
              simpa [Json.itemTokens,j.tokensParts] using Closes.array spelt closes
      | lastItem =>
          cases before with
          | blank margin =>
              cases taken.lexeme
              have spelt := Spelt.noItem (marginInside margin inside)
              exact Closes.array spelt owed
      | member =>
          cases before with
          | separated margin behind =>
              obtain ⟨j,r,ts,t,rfl,rfl,value,closes⟩ := owed
              obtain ⟨ms,r',ts,t,rfl,rfl,members,closes⟩ := closesObject closes deep
              have spelt := Spelt.nextMember (marginInside margin inside) behind value members
              simpa [Json.memberTokens] using Closes.object spelt closes
      | lastMember =>
          cases before with
          | blank margin =>
              cases taken.lexeme
              have spelt := Spelt.noMember (marginInside margin inside)
              exact Closes.object spelt owed

theorem owedArray {base around : List Container} {c d : Cursor} {gap source t : Text} {token : Token}
    {ts : List Token} (on : On c (.opening .array) around) (inside : 0 < c.input.position)
    (deep : base.length < c.nesting.length) (taken : Taken c gap token source d)
    (owed : Owed base token source c.nesting ts t) :
    Owed base (.opening .array) [0x5B] around (token :: ts) (gap ++ source ++ t) := by
  obtain ⟨separator,fits,before⟩ := taken.before
  have nesting : c.nesting = .array :: around := on.nesting
  rw [on.expecting,nesting] at fits
  rw [nesting] at owed deep
  cases fits with
  | firstItem starts =>
      cases before with
      | blank margin =>
          obtain ⟨j,r,ts,t,rfl,rfl,rfl,value,closes⟩ := owedValue starts owed
          obtain ⟨js,r',ts,t,rfl,rfl,items,closes⟩ := closesArray closes deep
          have spelt := Spelt.array (marginInside margin inside) value items
          refine ⟨.array (j :: js),gap ++ (source ++ r) ++ r',ts,t,rfl,?_,by simp,by simpa using spelt,closes⟩
          simp [Json.others,Json.itemTokens,j.tokensParts]
  | noItem =>
      cases before with
      | blank margin =>
          cases taken.lexeme
          have spelt := Spelt.emptyArray (marginInside margin inside)
          exact ⟨.array [],gap ++ [0x5D],ts,t,rfl,rfl,rfl,spelt,owed⟩

theorem owedObject {base around : List Container} {c d : Cursor} {gap source t : Text} {token : Token}
    {ts : List Token} (on : On c (.opening .object) around) (inside : 0 < c.input.position)
    (deep : base.length < c.nesting.length) (taken : Taken c gap token source d)
    (owed : Owed base token source c.nesting ts t) :
    Owed base (.opening .object) [0x7B] around (token :: ts) (gap ++ source ++ t) := by
  obtain ⟨separator,fits,before⟩ := taken.before
  have nesting : c.nesting = .object :: around := on.nesting
  rw [on.expecting,nesting] at fits
  rw [nesting] at owed deep
  cases fits with
  | @firstMember _ name =>
      cases before with
      | blank margin =>
          obtain ⟨j,r,ts,t,rfl,rfl,member,closes⟩ := owed
          obtain ⟨ms,r',ts,t,rfl,rfl,members,closes⟩ := closesObject closes deep
          have spelt := Spelt.object (marginInside margin inside) member members
          refine ⟨.object ((name,j) :: ms),gap ++ (source ++ r) ++ r',ts,t,rfl,?_,by simp,
            by simpa using spelt,closes⟩
          simp [Json.others,Json.memberTokens]
  | noMember =>
      cases before with
      | blank margin =>
          cases taken.lexeme
          have spelt := Spelt.emptyObject (marginInside margin inside)
          exact ⟨.object [],gap ++ [0x7D],ts,t,rfl,rfl,rfl,spelt,owed⟩

theorem owedMember {base around : List Container} {c d : Cursor} {gap source lead t : Text} {token : Token}
    {name : Text} {ts : List Token} (on : On c (.field name) around) (inside : 0 < c.input.position)
    (lexeme : Lexeme (.field name) lead) (taken : Taken c gap token source d)
    (owed : Owed base token source c.nesting ts t) :
    Owed base (.field name) lead around (token :: ts) (gap ++ source ++ t) := by
  obtain ⟨separator,fits,before⟩ := taken.before
  have nesting : c.nesting = around := on.nesting
  rw [on.expecting] at fits
  rw [nesting] at owed
  cases fits with
  | value starts =>
      cases before with
      | @separated w _ w' margin behind =>
          obtain ⟨j,r,ts,t,rfl,rfl,rfl,value,closes⟩ := owedValue starts owed
          have spelt := Spelt.member (Lexer.fieldQuotation lexeme) (marginInside margin inside) behind value
          refine ⟨j,w ++ 0x3A :: w' ++ (source ++ r),ts,t,by rw [j.tokensParts]; rfl,by simp,?_,closes⟩
          simpa using spelt

theorem owedStep {base around : List Container} {c d : Cursor} {gap source lead t : Text} {token last : Token}
    {ts : List Token} (on : On c last around) (inside : 0 < c.input.position) (lexeme : Lexeme last lead)
    (deep : base.length < c.nesting.length) (taken : Taken c gap token source d)
    (owed : Owed base token source c.nesting ts t) :
    Owed base last lead around (token :: ts) (gap ++ source ++ t) := by
  have nested : c.nesting.isEmpty = false := by
    cases same : c.nesting with
    | nil => rw [same] at deep; cases deep
    | cons _ _ => rfl
  cases last with
  | opening container =>
      cases container with
      | object => cases lexeme; exact owedObject on inside deep taken owed
      | array => cases lexeme; exact owedArray on inside deep taken owed
  | field name => exact owedMember on inside lexeme taken owed
  | closing container =>
      have beyond : c.expecting = .commaOrEnd := by simp [on.expecting,expectingAfter,nested]
      have closes := closesEntry beyond inside deep taken owed
      rw [on.nesting] at closes
      exact closes
  | scalar scalar =>
      have beyond : c.expecting = .commaOrEnd := by simp [on.expecting,expectingAfter,nested]
      have closes := closesEntry beyond inside deep taken owed
      rw [on.nesting] at closes
      obtain ⟨j,first,others,spelt⟩ := scalarSpelt lexeme
      exact ⟨j,[],_,_,first,by rw [others]; rfl,rfl,by simpa using spelt,closes⟩

theorem owedNothing {base around : List Container} {c : Cursor} {lead : Text} {last : Token}
    (on : On c last around) (lexeme : Lexeme last lead) (beyond : Over c base) :
    Owed base last lead around [] [] := by
  have expecting := on.expecting.symm.trans beyond.expecting
  have nesting := on.nesting.symm.trans beyond.nesting
  cases last with
  | opening container =>
      cases container <;> simp only [expectingAfter] at expecting <;> split at expecting <;> cases expecting
  | field name => simp only [expectingAfter] at expecting; split at expecting <;> cases expecting
  | closing container =>
      have closes : Closes base around.tail [] [] := by rw [← nesting]; exact .done
      exact closes
  | scalar scalar =>
      have closes : Closes base around [] [] := by rw [← nesting]; exact .done
      obtain ⟨j,first,others,spelt⟩ := scalarSpelt lexeme
      exact ⟨j,[],[],[],first,by rw [others]; rfl,rfl,by simpa using spelt,closes⟩

theorem climbOwed {base around : List Container} {c e : Cursor} {ts : List Token} {last : Token} {lead : Text}
    (climb : Climb base c ts e) (on : On c last around) (inside : 0 < c.input.position) (lexeme : Lexeme last lead) :
    ∃ t, c.input.rest = t ++ e.input.rest ∧ e.input.position = c.input.position + t.length ∧
      Owed base last lead around ts t := by
  induction climb generalizing last lead around with
  | stop beyond => exact ⟨[],rfl,rfl,owedNothing on lexeme beyond⟩
  | step deep stepped _ ih =>
      obtain ⟨gap,source,taken⟩ := nextTaken on.ready stepped
      obtain ⟨t,rest,place,owed⟩ := ih (takenOn taken) (takenPositive taken) taken.lexeme
      refine ⟨gap ++ source ++ t,by rw [taken.rest,rest]; simp,?_,owedStep on inside lexeme deep taken owed⟩
      rw [place,takenPlace taken]
      simp only [List.length_append]; omega

theorem closesDown {base stack : List Container} {ts : List Token} {t : Text}
    (closes : Closes base stack ts t) :
    base.length ≤ stack.length := by
  induction closes with
  | done => exact Nat.le_refl _
  | array _ _ ih => exact Nat.le_succ_of_le ih
  | object _ _ ih => exact Nat.le_succ_of_le ih

theorem closesNothing {base : List Container} {ts : List Token} {t : Text} (closes : Closes base base ts t) :
    ts = [] ∧ t = [] := by
  generalize same : base = stack at closes
  cases closes with
  | done => exact ⟨rfl,rfl⟩
  | array _ rest => exact absurd (closesDown rest) (Nat.not_succ_le_self _)
  | object _ rest => exact absurd (closesDown rest) (Nat.not_succ_le_self _)

theorem climbValue {around : List Container} {c e : Cursor} {ts : List Token} {token : Token} {lead : Text}
    (climb : Climb around c ts e) (starts : StartsValue token) (on : On c token around) (inside : 0 < c.input.position)
    (lexeme : Lexeme token lead) :
    ∃ j r, j.first = token ∧ ts = j.others ∧ Spelt (.value j) (lead ++ r) ∧ c.input.rest = r ++ e.input.rest ∧
      e.input.position = c.input.position + r.length := by
  obtain ⟨t,rest,place,owed⟩ := climbOwed climb on inside lexeme
  obtain ⟨j,r,ts,t,first,rfl,rfl,spelt,closes⟩ := owedValue starts owed
  obtain ⟨rfl,rfl⟩ := closesNothing closes
  rw [List.append_nil] at rest place ⊢
  exact ⟨j,r,first,rfl,spelt,rest,place⟩

end Cursor
end AuditLog
