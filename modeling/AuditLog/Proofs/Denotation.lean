import AuditLog.Proofs.Compact
import AuditLog.Proofs.Reference

/-! Following a rule over the tokens of a tree gives what the rule makes of the tree, leaves the notices
that the rule has for it, and the cursor on the last of them; where the rule makes nothing of the tree,
the reader fails. -/
namespace AuditLog
open Reading Reader

def Rule.remarks : Rule → Json → List Notice
  | .version ceiling => fun j => (((Reference.leaf? j).join).bind (Notice.ofVersion? ceiling)).toList
  | .object _ field => fun j =>
      match j with
      | .object members => members.flatMap (fun m => (field m.1).remarks m.2)
      | _ => []
  | .list _ item => fun j =>
      match j with
      | .array items => items.flatMap item.remarks
      | _ => []
  | .nullable rule => fun j =>
      match j with
      | .null => []
      | j => rule.remarks j
  | _ => fun _ => []

theorem Notice.ofVersionWarns {ceiling : Float} {version : Text} {n : Notice}
    (noted : ofVersion? ceiling version = some n) : n.level = .warn := by
  unfold ofVersion? at noted
  split at noted
  · cases noted
    rfl
  · split at noted
    · cases noted
      rfl
    · obtain ⟨_,same⟩ := Option.ite_none_right_eq_some.mp noted
      cases same
      rfl

theorem Rule.remarksWarn (rule : Rule) {j : Json} {n : Notice} (member : n ∈ rule.remarks j) : n.level = .warn := by
  induction rule generalizing j with
  | version ceiling =>
      obtain ⟨version,_,noted⟩ := Option.bind_eq_some_iff.mp (Option.mem_toList.mp member)
      exact Notice.ofVersionWarns noted
  | object noun field ih =>
      simp only [remarks] at member
      cases j with
      | object members =>
          obtain ⟨m,_,inside⟩ := List.mem_flatMap.mp member
          exact ih m.1 inside
      | _ => cases member
  | list noun item ih =>
      cases j with
      | array items =>
          obtain ⟨i,_,inside⟩ := List.mem_flatMap.mp member
          exact ih inside
      | _ => cases member
  | nullable rule ih =>
      cases j with
      | null => cases member
      | _ => exact ih member
  | _ => cases member

/-- Success with this value at this cursor and these notices, or failure where no value is expected. -/
def Answers {α : Type} (ran : Except Fault α × Session) (expected : Option α) (d : Cursor) (noted : List Notice) : Prop :=
  match expected with
  | some v => ran = (.ok v,⟨d,noted⟩)
  | none => ∃ fault s, ran = (.error fault,s)

namespace Answers
variable {α β : Type}

theorem pure {s : Session} (a : α) :
    Answers ((Pure.pure a : Reader α).run s) (some a) s.cursor s.noted := rfl

theorem refused {s : Session} {d : Cursor} {noted : List Notice} (flaw : RecordFlaw) :
    Answers ((refuse flaw : Reader α).run s) none d noted :=
  ⟨_,_,rfl⟩

theorem bind {r : Reader α} {f : α → Reader β} {s : Session} {x : Option α} {g : α → Option β} {d e : Cursor}
    {noted noted' : List Notice} (first : Answers (r.run s) x d noted)
    (others : ∀ a, x = some a → Answers ((f a).run ⟨d,noted⟩) (g a) e noted') :
    Answers ((r >>= f).run s) (x.bind g) e noted' := by
  rw [runBind]
  cases x with
  | none =>
      obtain ⟨fault,s',ran⟩ := first
      rw [ran]
      exact ⟨fault,s',rfl⟩
  | some a =>
      rw [show r.run s = _ from first]
      exact others a rfl

theorem map {r : Reader α} (f : α → β) {s : Session} {x : Option α} {d : Cursor} {noted : List Notice}
    (first : Answers (r.run s) x d noted) :
    Answers ((f <$> r).run s) (x.map f) d noted := by
  have both := bind (f := fun a => Pure.pure (f a)) (g := fun a => some (f a)) first (fun a _ => rfl)
  cases x <;> exact both

end Answers

namespace Rule
open Cursor Reference

theorem scalarTextAnswers {j : Json} {s : Session} {d : Cursor} (walk : Walk s.cursor j.others d) :
    Answers ((scalarText (some j.first)).run s) (leaf? j) d s.noted := by
  cases j with
  | array items => exact .refused _
  | object members => exact .refused _
  | flag value => cases value <;> (cases walk; exact .pure _)
  | _ => cases walk; exact .pure _

theorem textOfLeaf (j : Json) : text? j = (leaf? j).map Value.ofText? := by
  unfold text?
  cases leaf? j with
  | none => rfl
  | some text => cases text <;> rfl

theorem textAnswers {j : Json} {s : Session} {d : Cursor} (walk : Walk s.cursor j.others d) :
    Answers ((Value.ofText? <$> scalarText (some j.first)).run s) (text? j) d s.noted := by
  rw [textOfLeaf]
  exact (scalarTextAnswers walk).map Value.ofText?

theorem flagAnswers {j : Json} {s : Session} {d : Cursor} (walk : Walk s.cursor j.others d) :
    Answers ((flagValue (some j.first)).run s) (flag? j) d s.noted := by
  cases j with
  | null => cases walk; exact .pure _
  | flag value => cases value <;> (cases walk; exact .pure _)
  | _ => exact .refused _

theorem looseAnswers {j : Json} {s : Session} {d : Cursor} (stands : s.cursor.current = some j.first)
    (walk : Walk s.cursor j.others d) :
    Answers ((looseValue (some j.first)).run s) (some (Reference.anything j)) d s.noted := by
  have container {k : Container} (first : j.first = .opening k)
      (value : Reference.anything j = Value.text j.compact) :
      Answers ((looseValue (some j.first)).run s) (some (Reference.anything j)) d s.noted := by
    have read : Answers (subtree.run s) (some j.compact) d s.noted := subtreeRead first (first ▸ stands) walk
    rw [first,value]
    exact read.map Value.text
  cases j with
  | array items => exact container rfl rfl
  | object members => exact container rfl rfl
  | flag value => cases value <;> (cases walk; exact .pure _)
  | _ => cases walk; exact .pure _

theorem timeAnswers (text : Option Text) (s : Session) :
    Answers ((state >>= fun s => lift (timeOf text (some (.counted s.cursor.start)))).run s)
      (match text with | some t => (Instant.ofText t).toOption.map .time | none => some .null) s.cursor s.noted := by
  cases text with
  | none => exact .pure _
  | some t =>
      simp only [timeOf,runBind,runState]
      cases Instant.ofText t with
      | ok i => exact .pure _
      | error flaw => exact ⟨_,_,rfl⟩

theorem identifierAnswers (text : Option Text) (s : Session) :
    Answers ((state >>= fun s => lift (identifierValue text (.counted s.cursor.start))).run s)
      (match text with | some t => (Uuid.ofText? t).map .identifier | none => none) s.cursor s.noted := by
  cases text with
  | none => exact ⟨_,_,rfl⟩
  | some t =>
      simp only [identifierValue,identifierOf,runBind,runState]
      cases Uuid.ofText? t with
      | some id => exact .pure _
      | none => exact ⟨_,_,rfl⟩

def Followed (rule : Rule) : Prop :=
  ∀ (j : Json) (s : Session) (d : Cursor), s.cursor.current = some j.first → Walk s.cursor j.others d →
    Answers ((rule.read (some j.first)).run s) (rule.decode? j) d ((rule.remarks j).reverse ++ s.noted)

theorem nextAnswers {j : Json} {rule : Rule} (followed : Followed rule) {s : Session} {d : Cursor}
    (walk : Walk s.cursor j.tokens d) :
    Answers (rule.readNext.run s) (rule.decode? j) d ((rule.remarks j).reverse ++ s.noted) := by
  rw [j.tokensParts] at walk
  cases walk with
  | cons stepped rest =>
      simp only [readNext,runBind,nextRun stepped]
      exact followed j _ d (nextCurrent stepped) rest

theorem loopAnswers {α β : Type} {step : α → Token → Reader (α ⊕ β)} {atEnd : α → Reader β} {a : α}
    {token : Token} {s : Session} {c d e : Cursor} {x : Option α} {g : α → Option β} {noted noted' : List Notice}
    (stepped : s.cursor.next = (.ok (some token),c))
    (first : Answers ((step a token).run { s with cursor := c }) (x.map .inl) d noted)
    (others : ∀ so, x = some so → Answers ((loop step atEnd so).run ⟨d,noted⟩) (g so) e noted') :
    Answers ((loop step atEnd a).run s) (x.bind g) e noted' := by
  show Answers (loopFrom step atEnd a s) _ _ _
  rw [loopUnfold,nextRun stepped]
  cases x with
  | none =>
      obtain ⟨fault,s',ran⟩ := first
      simp only [ran]
      exact ⟨fault,s',rfl⟩
  | some so =>
      simp only [show (step a token).run { s with cursor := c } = _ from first]
      exact others so rfl

theorem loopEnds {α β : Type} {step : α → Token → Reader (α ⊕ β)} {atEnd : α → Reader β} {a : α} {b : β}
    {token : Token} {s : Session} {d : Cursor} (stepped : s.cursor.next = (.ok (some token),d))
    (last : step a token = Pure.pure (.inr b)) :
    Answers ((loop step atEnd a).run s) (some b) d s.noted := by
  show Answers (loopFrom step atEnd a s) _ _ _
  rw [loopUnfold,nextRun stepped]
  simp only [last,runPure]
  rfl

theorem fieldStepRun (field : Text → Rule) (fields : Fields) (name : Text) (s : Session) :
    (fieldStep (fun name => (field name).read) fields (.field name)).run s =
      ((field name).readNext >>= fun v => Pure.pure (.inl (fields.put name v))).run s := by
  simp only [fieldStep,readNext,runBind]
  generalize next.run s = x
  obtain ⟨result,last⟩ := x
  cases result <;> rfl

theorem itemStepFirst (item : Option Token → Reader Value) (items : List Value) (j : Json) :
    itemStep item items j.first = (item (some j.first) >>= fun v => Pure.pure (.inl (v :: items))) := by
  cases j with
  | flag value => cases value <;> rfl
  | _ => rfl

theorem membersAnswers {field : Text → Rule} (followed : ∀ name, Followed (field name))
    (members : List (Text × Json)) (fields : Fields) {s : Session} {d : Cursor}
    (walk : Walk s.cursor (Json.memberTokens members ++ [.closing .object]) d) :
    Answers ((loop (fieldStep (fun name => (field name).read)) (fun _ => refuse .notFieldName) fields).run s)
      ((entries? (fun name => (field name).decode?) members).map
        (fun entries => entries.foldl (fun fields e => fields.put e.1 e.2) fields)) d
      ((members.flatMap (fun m => (field m.1).remarks m.2)).reverse ++ s.noted) := by
  induction members generalizing fields s with
  | nil =>
      cases walk with
      | cons stepped rest => cases rest; exact loopEnds stepped rfl
  | cons m rest ih =>
      obtain ⟨name,j⟩ := m
      simp only [Json.memberTokens,List.cons_append,List.append_assoc] at walk
      cases walk with
      | @cons _ c _ _ _ stepped walk =>
          obtain ⟨e,value,others⟩ := walkSplit walk
          have read : Answers ((field name).readNext.run { s with cursor := c }) ((field name).decode? j) e
              (((field name).remarks j).reverse ++ s.noted) :=
            nextAnswers (followed name) value
          have first : Answers ((fieldStep (fun name => (field name).read) fields (.field name)).run { s with cursor := c })
              (((field name).decode? j).map (fun v => fields.put name v) |>.map .inl) e
              (((field name).remarks j).reverse ++ s.noted) := by
            rw [fieldStepRun,Option.map_map]
            exact read.map _
          have both := loopAnswers stepped first
            (fun so _ => ih so (s := ⟨e,((field name).remarks j).reverse ++ s.noted⟩) others)
          rw [entriesCons,List.flatMap_cons,List.reverse_append,List.append_assoc]
          generalize (field name).decode? j = found at both ⊢
          cases found with
          | none => exact both
          | some v =>
              generalize entries? (fun name => (field name).decode?) rest = entries at both ⊢
              cases entries <;> exact both

theorem itemsAnswers {item : Rule} (followed : Followed item) (items : List Json)
    (found : List Value) {s : Session} {d : Cursor}
    (walk : Walk s.cursor (Json.itemTokens items ++ [.closing .array]) d) :
    Answers ((loop (itemStep item.read) (fun _ => refuse (.notShape item.noun)) found).run s)
      ((items.mapM item.decode?).map (fun values => found.reverse ++ values)) d
      ((items.flatMap item.remarks).reverse ++ s.noted) := by
  induction items generalizing found s with
  | nil =>
      cases walk with
      | cons stepped rest => cases rest; exact loopEnds stepped (by simp [itemStep])
  | cons j rest ih =>
      simp only [Json.itemTokens,List.append_assoc,j.tokensParts,List.cons_append] at walk
      cases walk with
      | @cons _ c _ _ _ stepped walk =>
          obtain ⟨e,value,others⟩ := walkSplit walk
          have read : Answers ((item.read (some j.first)).run { s with cursor := c }) (item.decode? j) e
              ((item.remarks j).reverse ++ s.noted) :=
            followed j _ e (nextCurrent stepped) value
          have first : Answers ((itemStep item.read found j.first).run { s with cursor := c })
              (((item.decode? j).map (fun v => v :: found)).map .inl) e ((item.remarks j).reverse ++ s.noted) := by
            rw [itemStepFirst,Option.map_map]
            exact read.map _
          have both := loopAnswers stepped first
            (fun so _ => ih so (s := ⟨e,(item.remarks j).reverse ++ s.noted⟩) others)
          simp only [List.mapM_cons]
          rw [List.flatMap_cons,List.reverse_append,List.append_assoc]
          generalize item.decode? j = one at both ⊢
          cases one with
          | none => exact both
          | some v =>
              generalize rest.mapM item.decode? = values at both ⊢
              cases values with
              | none => exact both
              | some values => simpa using both

theorem versionAnswers {ceiling : Float} {j : Json} {s : Session} {d : Cursor}
    (walk : Walk s.cursor j.others d) :
    Answers (((Rule.version ceiling).read (some j.first)).run s) (text? j) d
      (((Rule.version ceiling).remarks j).reverse ++ s.noted) := by
  have noted (version : Option Text) (s : Session) :
      Answers ((noteAny (version.bind (Notice.ofVersion? ceiling)) >>= fun _ =>
          Pure.pure (Value.ofText? version)).run s)
        (some (Value.ofText? version)) s.cursor
        ((version.bind (Notice.ofVersion? ceiling)).toList.reverse ++ s.noted) := by
    cases version.bind (Notice.ofVersion? ceiling) <;> rfl
  rw [textOfLeaf,Option.map_eq_bind]
  refine (scalarTextAnswers walk).bind (fun version same => ?_)
  simp only [remarks,same]
  exact noted version ⟨d,s.noted⟩

theorem timedAnswers {j : Json} {s : Session} {d : Cursor} (walk : Walk s.cursor j.others d) :
    Answers ((Rule.time.read (some j.first)).run s) (time? j) d s.noted := by
  have both := (scalarTextAnswers walk).bind (fun text _ => timeAnswers text ⟨d,s.noted⟩)
  unfold time?
  cases same : leaf? j with
  | none => rw [same] at both; exact both
  | some text => rw [same] at both; cases text <;> exact both

theorem identifiedAnswers {j : Json} {s : Session} {d : Cursor} (walk : Walk s.cursor j.others d) :
    Answers ((Rule.identifier.read (some j.first)).run s) (identifier? j) d s.noted := by
  have both := (scalarTextAnswers walk).bind (fun text _ => identifierAnswers text ⟨d,s.noted⟩)
  unfold identifier?
  cases same : leaf? j with
  | none => rw [same] at both; exact both
  | some text => rw [same] at both; cases text <;> exact both

theorem readAnswers (rule : Rule) : Followed rule := by
  induction rule with
  | anything => exact fun j s d stands walk => looseAnswers stands walk
  | text => exact fun j s d _ walk => textAnswers walk
  | flag => exact fun j s d _ walk => flagAnswers walk
  | version ceiling => exact fun j s d _ walk => versionAnswers walk
  | time => exact fun j s d _ walk => timedAnswers walk
  | identifier => exact fun j s d _ walk => identifiedAnswers walk
  | object noun field ih =>
      intro j s d _ walk
      cases j with
      | object members =>
          have read := (membersAnswers ih members [] walk).map Value.object
          have same : (Rule.object noun field).decode? (.object members) =
              ((entries? (fun name => (field name).decode?) members).map
                (fun entries => entries.foldl (fun fields e => Fields.put fields e.1 e.2) [])).map Value.object := by
            simp only [decode?,members?,Option.map_map]
            congr 1
            funext entries
            exact congrArg Value.object (Fields.ofListAssembles entries).symm
          rw [same]
          simp only [remarks]
          exact read
      | flag value => cases value <;> (simp only [decode?]; exact .refused _)
      | _ => simp only [decode?]; exact .refused _
  | list noun item ih =>
      intro j s d _ walk
      cases j with
      | array items =>
          have read := (itemsAnswers ih items [] walk).map Value.list
          simp only [List.reverse_nil,List.nil_append,Option.map_id'] at read
          simp only [decode?]
          exact read
      | flag value => cases value <;> (simp only [decode?]; exact .refused _)
      | _ => simp only [decode?]; exact .refused _
  | nullable rule ih =>
      intro j s d stands walk
      cases j with
      | null => cases walk; exact .pure _
      | flag value =>
          have read := ih (.flag value) s d stands walk
          cases value <;> exact read
      | number spelling => exact ih (.number spelling) s d stands walk
      | string value => exact ih (.string value) s d stands walk
      | array items => exact ih (.array items) s d stands walk
      | object members => exact ih (.object members) s d stands walk

end Rule
end AuditLog
