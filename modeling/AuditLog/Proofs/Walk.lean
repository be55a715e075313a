import AuditLog.Proofs.Step

/-! Walks: a cursor moved on token by token. The tokens of a phrase of the grammar can be walked to
the end of the phrase, whatever the text behind it. -/
namespace AuditLog

namespace Json

def first : Json → Token
  | .null => .scalar .null
  | .flag true => .scalar .yes
  | .flag false => .scalar .no
  | .number spelling => .scalar (.number spelling)
  | .string value => .scalar (.string value)
  | .array _ => .opening .array
  | .object _ => .opening .object

def others : Json → List Token
  | .array items => itemTokens items ++ [.closing .array]
  | .object members => memberTokens members ++ [.closing .object]
  | _ => []

theorem tokensParts (j : Json) : j.tokens = j.first :: j.others := by
  cases j with
  | flag b => cases b <;> rfl
  | _ => rfl

theorem firstStarts (j : Json) : Grammar.StartsValue j.first := by
  cases j with
  | flag b => cases b <;> trivial
  | _ => trivial

end Json

namespace Grammar

theorem delimitedBlank {w t : Text} {u : CodeUnit} (blank : Blank w) (unit : u ∈ delimiters) :
    Delimited (w ++ u :: t) := by
  cases w with
  | nil =>
      intro v rest same
      cases same
      exact unit
  | cons v w =>
      intro v' rest same
      cases same
      have space := (blankCons.mp blank).1
      simp only [spaces,List.mem_cons,List.not_mem_nil,or_false] at space
      rcases space with rfl | rfl | rfl | rfl <;> decide

theorem itemsDelimited {js : List Json} {r : Text} (spelt : Spelt (.items js) r) (more : Text) :
    Delimited (r ++ more) := by
  cases spelt with
  | noItem blank =>
      rw [List.append_assoc]
      exact delimitedBlank blank (by decide)
  | item before behind value rest =>
      simp only [List.append_assoc,List.cons_append]
      exact delimitedBlank before (by decide)

theorem membersDelimited {ms : List (Text × Json)} {r : Text} (spelt : Spelt (.members ms) r) (more : Text) :
    Delimited (r ++ more) := by
  cases spelt with
  | noMember blank =>
      rw [List.append_assoc]
      exact delimitedBlank blank (by decide)
  | nextMember before behind value rest =>
      simp only [List.append_assoc,List.cons_append]
      exact delimitedBlank before (by decide)

theorem stopsDelimited {token : Token} {more : Text} (delimited : Delimited more) : Stops token more := by
  unfold Stops
  split
  · exact delimited
  · trivial

end Grammar

namespace Cursor
open Grammar

inductive Walk : Cursor → List Token → Cursor → Prop where
  | nil {c} : Walk c [] c
  | cons {c d e token ts} (stepped : c.next = (.ok (some token),d)) (rest : Walk d ts e) : Walk c (token :: ts) e

theorem walkAppend {c d e : Cursor} {ts ts' : List Token} (first : Walk c ts d) (second : Walk d ts' e) :
    Walk c (ts ++ ts') e := by
  induction first with
  | nil => exact second
  | cons stepped _ ih => exact .cons stepped (ih second)

theorem walkSplit {c e : Cursor} {ts ts' : List Token} (walk : Walk c (ts ++ ts') e) :
    ∃ d, Walk c ts d ∧ Walk d ts' e := by
  induction ts generalizing c with
  | nil => exact ⟨c,.nil,walk⟩
  | cons token ts ih =>
      cases walk with
      | cons stepped rest =>
          obtain ⟨d,first,second⟩ := ih rest
          exact ⟨d,.cons stepped first,second⟩

structure On (c : Cursor) (token : Token) (around : List Container) : Prop where
  ready : c.Ready
  nesting : c.nesting = nestingAfter around token
  expecting : c.expecting = expectingAfter c.nesting (some token)

structure Over (c : Cursor) (around : List Container) : Prop where
  ready : c.Ready
  nesting : c.nesting = around
  expecting : c.expecting = if around.isEmpty then .nothing else .commaOrEnd

structure Past (c : Cursor) : Prop where
  inside : 0 < c.input.position
  stop : c.input.position = c.stop

theorem takenOn {c d : Cursor} {gap source : Text} {token : Token} (taken : Taken c gap token source d) :
    On d token c.nesting :=
  ⟨taken.ready,taken.nesting,taken.expecting⟩

theorem takenPast {c d : Cursor} {gap source : Text} {token : Token} (taken : Taken c gap token source d) :
    Past d :=
  ⟨takenPositive taken,taken.position⟩

theorem walkPast {c d : Cursor} {ts : List Token} (walk : Walk c ts d) (ready : c.Ready) (past : Past c) :
    Past d := by
  induction walk with
  | nil => exact past
  | cons stepped _ ih =>
      obtain ⟨gap,source,taken⟩ := nextTaken ready stepped
      exact ih taken.ready (takenPast taken)

theorem onScalar {c : Cursor} {scalar : Scalar} {around : List Container} (on : On c (.scalar scalar) around) :
    Over c around := by
  have nesting : c.nesting = around := on.nesting
  refine ⟨on.ready,nesting,?_⟩
  rw [on.expecting,nesting]; rfl

theorem onClosing {c : Cursor} {container k : Container} {around : List Container}
    (on : On c (.closing container) (k :: around)) : Over c around := by
  have nesting : c.nesting = around := on.nesting
  refine ⟨on.ready,nesting,?_⟩
  rw [on.expecting,nesting]; rfl

def Arrives (c : Cursor) (ts : List Token) (around : List Container) (t more : Text) : Prop :=
  ∃ d, Walk c ts d ∧ Over d around ∧ d.input.rest = more ∧ d.input.position = c.input.position + t.length

theorem arrivesAppend {c d : Cursor} {ts ts' : List Token} {around : List Container} {t t' more : Text}
    (walk : Walk c ts d) (place : d.input.position = c.input.position + t.length)
    (second : Arrives d ts' around t' more) : Arrives c (ts ++ ts') around (t ++ t') more := by
  obtain ⟨e,walk',beyond,rest,place'⟩ := second
  refine ⟨e,walkAppend walk walk',beyond,rest,?_⟩
  rw [place',place,List.length_append,Nat.add_assoc]

theorem oneTaken {c : Cursor} {gap source more : Text} {token : Token} {separator : Option CodeUnit}
    (ready : c.Ready) (same : c.input.rest = gap ++ source ++ more)
    (fits : Fits c.expecting c.nesting.head? token separator) (before : Gap c.input.position separator gap)
    (lexeme : Lexeme token source) (stops : Stops token more) :
    ∃ d, c.next = (.ok (some token),d) ∧ Taken c gap token source d ∧ On d token c.nesting ∧ d.input.rest = more ∧
      d.input.position = c.input.position + (gap ++ source).length := by
  obtain ⟨d,stepped,taken,rest⟩ := takenNext ready same fits before lexeme stops
  exact ⟨d,stepped,taken,takenOn taken,rest,takenPlace taken⟩

def Walkable : Phrase → Text → Prop
  | .value j, t => ∃ lead rest, t = lead ++ rest ∧ Lexeme j.first lead ∧
      (∀ more, Stops j.first more → Stops j.first (rest ++ more)) ∧
      ∀ c around more, On c j.first around → c.input.rest = rest ++ more → Arrives c j.others around rest more
  | .member name j, t => ∃ lead rest, t = lead ++ rest ∧ Quotation lead name ∧
      ∀ c around more, On c (.field name) (.object :: around) → c.input.rest = rest ++ more → Delimited more →
        Arrives c j.tokens (.object :: around) rest more
  | .items js, t => ∀ c around more, Over c (.array :: around) → c.input.rest = t ++ more →
      Arrives c (Json.itemTokens js ++ [.closing .array]) around t more
  | .members ms, t => ∀ c around more, Over c (.object :: around) → c.input.rest = t ++ more →
      Arrives c (Json.memberTokens ms ++ [.closing .object]) around t more

theorem valueTaken {c : Cursor} {j : Json} {gap t more : Text} {separator : Option CodeUnit}
    (walkable : Walkable (.value j) t) (ready : c.Ready) (same : c.input.rest = gap ++ t ++ more)
    (fits : Fits c.expecting c.nesting.head? j.first separator) (before : Gap c.input.position separator gap)
    (stops : Stops j.first more) :
    ∃ d lead rest, t = lead ++ rest ∧ c.next = (.ok (some j.first),d) ∧ Taken c gap j.first lead d ∧
      Arrives d j.others c.nesting rest more := by
  obtain ⟨lead,rest,rfl,lexeme,stops',goes⟩ := walkable
  have same' : c.input.rest = gap ++ lead ++ (rest ++ more) := by rw [same]; simp
  obtain ⟨d,stepped,taken,on,left,_⟩ := oneTaken ready same' fits before lexeme (stops' more stops)
  exact ⟨d,lead,rest,rfl,stepped,taken,goes d c.nesting more on left⟩

theorem valueArrives {c : Cursor} {j : Json} {gap t : Text} (more : Text) {separator : Option CodeUnit}
    (walkable : Walkable (.value j) t) (ready : c.Ready) (same : c.input.rest = gap ++ t ++ more)
    (fits : Fits c.expecting c.nesting.head? j.first separator) (before : Gap c.input.position separator gap)
    (stops : Stops j.first more) : Arrives c j.tokens c.nesting (gap ++ t) more := by
  obtain ⟨d,lead,rest,rfl,stepped,taken,arrives⟩ := valueTaken walkable ready same fits before stops
  rw [j.tokensParts,← List.append_assoc]
  exact arrivesAppend (.cons stepped .nil) (takenPlace taken) arrives

theorem scalarWalkable {j : Json} {t : Text} {scalar : Scalar} (is : j.first = .scalar scalar)
    (none : j.others = []) (lexeme : Lexeme (.scalar scalar) t) : Walkable (.value j) t := by
  refine ⟨t,[],(List.append_nil t).symm,is ▸ lexeme,fun _ stops => stops,?_⟩
  intro c around more on rest
  rw [is] at on
  have beyond := onScalar on
  rw [none]
  exact ⟨c,.nil,beyond,rest,rfl⟩

theorem closingArrives {c : Cursor} {container : Container} {around : List Container} {gap source more : Text}
    (ready : c.Ready) (nesting : c.nesting = container :: around)
    (fits : Fits c.expecting (some container) (.closing container) none) (blank : Blank gap)
    (lexeme : Lexeme (.closing container) source) (same : c.input.rest = gap ++ source ++ more) :
    Arrives c [.closing container] around (gap ++ source) more := by
  have fits' : Fits c.expecting c.nesting.head? (.closing container) none := by rw [nesting]; exact fits
  obtain ⟨d,stepped,taken,on,rest,place⟩ := oneTaken ready same fits' (.blank (.inl blank)) lexeme trivial
  rw [nesting] at on
  have beyond := onClosing on
  exact ⟨d,.cons stepped .nil,beyond,rest,place⟩

theorem commaFits {c : Cursor} {container : Container} {around : List Container}
    (beyond : Over c (container :: around)) :
    c.expecting = .commaOrEnd ∧ c.nesting.head? = some container :=
  ⟨beyond.expecting,by rw [beyond.nesting]; rfl⟩

theorem memberArrives {c : Cursor} {name : Text} {j : Json} {around : List Container} {gap t : Text}
    (more : Text) {separator : Option CodeUnit} (walkable : Walkable (.member name j) t) (ready : c.Ready)
    (nesting : c.nesting = .object :: around) (same : c.input.rest = gap ++ t ++ more)
    (fits : Fits c.expecting (some .object) (.field name) separator)
    (before : Gap c.input.position separator gap) (delimited : Delimited more) :
    Arrives c (.field name :: j.tokens) (.object :: around) (gap ++ t) more := by
  obtain ⟨lead,rest,rfl,quotation,goes⟩ := walkable
  have same' : c.input.rest = gap ++ lead ++ (rest ++ more) := by rw [same]; simp
  have fits' : Fits c.expecting c.nesting.head? (.field name) separator := by rw [nesting]; exact fits
  obtain ⟨d,stepped,taken,on,left,place⟩ := oneTaken ready same' fits' before (.field quotation) trivial
  rw [nesting] at on
  rw [← List.append_assoc]
  exact arrivesAppend (.cons stepped .nil) place (goes d around more on left delimited)

theorem arrivesThen {c : Cursor} {ts ts' : List Token} {container : Container} {around : List Container}
    {t t' more : Text} (entry : Arrives c ts (container :: around) t (t' ++ more))
    (others : ∀ d, Over d (container :: around) → d.input.rest = t' ++ more → Arrives d ts' around t' more) :
    Arrives c (ts ++ ts') around (t ++ t') more := by
  obtain ⟨d,walk,beyond,rest,place⟩ := entry
  exact arrivesAppend walk place (others d beyond rest)

theorem speltWalkable {phrase : Phrase} {t : Text} (spelt : Spelt phrase t) : Walkable phrase t := by
  induction spelt with
  | null => exact scalarWalkable rfl rfl .null
  | yes => exact scalarWalkable rfl rfl .yes
  | no => exact scalarWalkable rfl rfl .no
  | number number => exact scalarWalkable rfl rfl (.number number)
  | string quotation => exact scalarWalkable rfl rfl (.string quotation)
  | @emptyArray w blank =>
      refine ⟨[0x5B],w ++ [0x5D],rfl,.openArray,fun _ _ => trivial,fun c around more on same => ?_⟩
      refine closingArrives on.ready on.nesting ?_ blank .closeArray same
      rw [on.expecting]; exact .noItem
  | @emptyObject w blank =>
      refine ⟨[0x7B],w ++ [0x7D],rfl,.openObject,fun _ _ => trivial,fun c around more on same => ?_⟩
      refine closingArrives on.ready on.nesting ?_ blank .closeObject same
      rw [on.expecting]; exact .noMember
  | @array w j s js r blank first rest ihFirst ihRest =>
      refine ⟨[0x5B],w ++ s ++ r,by simp,.openArray,fun _ _ => trivial,fun c around more on same => ?_⟩
      have fits : Fits c.expecting c.nesting.head? j.first none := by
        rw [on.expecting]; exact .firstItem j.firstStarts
      have entry := valueArrives (r ++ more) ihFirst on.ready (by rw [same]; simp) fits (.blank (.inl blank))
        (stopsDelimited (itemsDelimited rest more))
      rw [on.nesting] at entry
      have arrives := arrivesThen entry (fun d beyond left => ihRest d around more beyond left)
      rwa [← List.append_assoc] at arrives
  | @object w n j s ms r blank first rest ihFirst ihRest =>
      refine ⟨[0x7B],w ++ s ++ r,by simp,.openObject,fun _ _ => trivial,fun c around more on same => ?_⟩
      have fits : Fits c.expecting (some .object) (.field n) none := by
        rw [on.expecting]; exact .firstMember
      have entry := memberArrives (r ++ more) ihFirst on.ready on.nesting (by rw [same]; simp) fits
        (.blank (.inl blank)) (membersDelimited rest more)
      have arrives := arrivesThen entry (fun d beyond left => ihRest d around more beyond left)
      rwa [List.cons_append,← List.append_assoc] at arrives
  | @member q n w w' j s name before behind value ih =>
      refine ⟨q,w ++ 0x3A :: w' ++ s,by simp,name,fun c around more on same delimited => ?_⟩
      have fits : Fits c.expecting c.nesting.head? j.first (some 0x3A) := by
        rw [on.expecting]; exact .value j.firstStarts
      have arrives := valueArrives more ih on.ready same fits (.separated (.inl before) behind)
        (stopsDelimited delimited)
      rwa [on.nesting] at arrives
  | @noItem w blank =>
      intro c around more beyond same
      refine closingArrives beyond.ready beyond.nesting ?_ blank .closeArray same
      rw [(commaFits beyond).1]; exact .lastItem
  | @noMember w blank =>
      intro c around more beyond same
      refine closingArrives beyond.ready beyond.nesting ?_ blank .closeObject same
      rw [(commaFits beyond).1]; exact .lastMember
  | @item w w' j s js r before behind value rest ihValue ihRest =>
      intro c around more beyond same
      have fits : Fits c.expecting c.nesting.head? j.first (some 0x2C) := by
        rw [(commaFits beyond).1,(commaFits beyond).2]; exact .item j.firstStarts
      have entry := valueArrives (r ++ more) ihValue beyond.ready (by rw [same]; simp) fits
        (.separated (.inl before) behind) (stopsDelimited (itemsDelimited rest more))
      rw [beyond.nesting] at entry
      have arrives := arrivesThen entry (fun d beyond left => ihRest d around more beyond left)
      rwa [← List.append_assoc] at arrives
  | @nextMember w w' n j s ms r before behind value rest ihValue ihRest =>
      intro c around more beyond same
      have fits : Fits c.expecting (some .object) (.field n) (some 0x2C) := by
        rw [(commaFits beyond).1]; exact .member
      have entry := memberArrives (r ++ more) ihValue beyond.ready beyond.nesting (by rw [same]; simp) fits
        (.separated (.inl before) behind) (membersDelimited rest more)
      have arrives := arrivesThen entry (fun d beyond left => ihRest d around more beyond left)
      rwa [List.cons_append,← List.append_assoc] at arrives

end Cursor
end AuditLog
