import AuditLog.Proofs.Climb
import AuditLog.Proofs.Denotation

/-! A rule that is followed to a value has read a whole value: from its first token the cursor has
climbed back to where the value stands. So no damaged value is taken for a shorter one. -/
namespace AuditLog
open Reading Grammar

namespace Reader
open Cursor

theorem loopDone {α β : Type} {step : α → Token → Reader (α ⊕ β)} {atEnd : α → Reader β}
    (invariant : α → Session → Prop) (done : Session → Session → Prop)
    (ends : ∀ a s t b u, invariant a s → next.run s = (.ok none,t) → (atEnd a).run t = (.ok b,u) → done s u)
    (stops : ∀ a token s t b u, invariant a s → next.run s = (.ok (some token),t) →
      (step a token).run t = (.ok (.inr b),u) → done s u)
    (goes : ∀ a token s t so u, invariant a s → next.run s = (.ok (some token),t) →
      (step a token).run t = (.ok (.inl so),u) → invariant so u ∧ ∀ v, done u v → done s v)
    {a : α} {s s' : Session} {b : β} (before : invariant a s) (ran : loopFrom step atEnd a s = (.ok b,s')) :
    done s s' := by
  fun_induction loopFrom step atEnd a s with
  | case1 a s fault after read => cases ran
  | case2 a s after read => exact ends a s after b s' before read ran
  | case3 a s token after read fault last went => cases ran
  | case4 a s token after read b last went =>
      cases ran
      exact stops a token s after _ _ before read went
  | case5 a s token after read so last went _ ih =>
      obtain ⟨again,carry⟩ := goes a token s after so last before read went
      exact carry s' (ih again ran)

theorem loopFailed {α β : Type} {step : α → Token → Reader (α ⊕ β)} {atEnd : α → Reader β}
    (invariant : α → Session → Prop) (blamed : Fault → Prop)
    (reads : ∀ a s fault t, invariant a s → next.run s = (.error fault,t) → blamed fault)
    (ends : ∀ a s t fault u, invariant a s → next.run s = (.ok none,t) → (atEnd a).run t = (.error fault,u) →
      blamed fault)
    (stops : ∀ a token s t fault u, invariant a s → next.run s = (.ok (some token),t) →
      (step a token).run t = (.error fault,u) → blamed fault)
    (goes : ∀ a token s t so u, invariant a s → next.run s = (.ok (some token),t) →
      (step a token).run t = (.ok (.inl so),u) → invariant so u)
    {a : α} {s s' : Session} {fault : Fault} (before : invariant a s)
    (ran : loopFrom step atEnd a s = (.error fault,s')) : blamed fault := by
  fun_induction loopFrom step atEnd a s with
  | case1 a s fault after read => cases ran; exact reads a s _ _ before read
  | case2 a s after read => exact ends a s after fault s' before read ran
  | case3 a s token after read fault last went => cases ran; exact stops a token s after _ _ before read went
  | case4 a s token after read b last went => cases ran
  | case5 a s token after read so last went _ ih => exact ih (goes a token s after so last before read went) ran

end Reader

namespace Cursor

structure Entry (c : Cursor) (container : Container) (around : List Container) : Prop where
  ready : c.Ready
  nesting : c.nesting = container :: around
  expecting : c.expecting = .commaOrEnd ∨ c.expecting = expectingAfter c.nesting (some (.opening container))

theorem onEntry {c : Cursor} {container : Container} {around : List Container}
    (on : On c (.opening container) around) :
    Entry c container around :=
  ⟨on.ready,on.nesting,.inr on.expecting⟩

theorem overEntry {c : Cursor} {container : Container} {around : List Container}
    (beyond : Over c (container :: around)) :
    Entry c container around :=
  ⟨beyond.ready,beyond.nesting,.inl beyond.expecting⟩

theorem entryDeep {c : Cursor} {container : Container} {around : List Container} (entry : Entry c container around) :
    around.length < c.nesting.length := by
  rw [entry.nesting]
  exact Nat.lt_succ_self _

theorem arrayEntry {c d : Cursor} {around : List Container} {token : Token} (entry : Entry c .array around)
    (stepped : c.next = (.ok (some token),d)) :
    On d token (.array :: around) ∧ (token = .closing .array ∨ StartsValue token) := by
  obtain ⟨gap,source,taken⟩ := nextTaken entry.ready stepped
  obtain ⟨separator,fits,_⟩ := taken.before
  have on := takenOn taken
  rw [entry.nesting] at on fits
  refine ⟨on,?_⟩
  rcases entry.expecting with comma | first
  · rw [comma] at fits
    cases fits with
    | item starts => exact .inr starts
    | lastItem => exact .inl rfl
  · rw [first] at fits
    cases fits with
    | firstItem starts => exact .inr starts
    | noItem => exact .inl rfl

theorem objectEntry {c d : Cursor} {around : List Container} {token : Token} (entry : Entry c .object around)
    (stepped : c.next = (.ok (some token),d)) :
    On d token (.object :: around) ∧ (token = .closing .object ∨ ∃ name, token = .field name) := by
  obtain ⟨gap,source,taken⟩ := nextTaken entry.ready stepped
  obtain ⟨separator,fits,_⟩ := taken.before
  have on := takenOn taken
  rw [entry.nesting] at on fits
  refine ⟨on,?_⟩
  rcases entry.expecting with comma | first
  · rw [comma] at fits
    cases fits with
    | member => exact .inr ⟨_,rfl⟩
    | lastMember => exact .inl rfl
  · rw [first] at fits
    cases fits with
    | firstMember => exact .inr ⟨_,rfl⟩
    | noMember => exact .inl rfl

theorem fieldValue {c d : Cursor} {around : List Container} {name : Text} {token : Token}
    (on : On c (.field name) around) (stepped : c.next = (.ok (some token),d)) :
    On d token around ∧ StartsValue token := by
  obtain ⟨gap,source,taken⟩ := nextTaken on.ready stepped
  obtain ⟨separator,fits,_⟩ := taken.before
  have on' := takenOn taken
  have nesting : c.nesting = around := on.nesting
  rw [nesting] at on'
  rw [on.expecting] at fits
  cases fits with
  | value starts => exact ⟨on',starts⟩

def Climbs (around : List Container) (s s' : Session) : Prop := ∃ ts, Climb around s.cursor ts s'.cursor

theorem closingClimbs {s t : Session} {container : Container} {around : List Container} {token : Token}
    (nesting : s.cursor.nesting = container :: around) (stepped : s.cursor.next = (.ok (some token),t.cursor))
    (on : On t.cursor (.closing container) (container :: around)) : Climbs around s t := by
  refine ⟨[token],.step ?_ stepped (.stop (onClosing on))⟩
  rw [nesting]
  exact Nat.lt_succ_self _

end Cursor

namespace Rule
open Reader Cursor

def Whole (rule : Rule) : Prop :=
  ∀ (token : Token) (around : List Container) (v : Value) (s s' : Session),
    (rule.read (some token)).run s = (.ok v,s') → s.cursor.current = some token → StartsValue token → On s.cursor token around → Climbs around s s'

theorem scalarTextStays {token : Token} {text : Option Text} {s s' : Session}
    (ran : (scalarText (some token)).run s = (.ok text,s')) : s' = s ∧ ∃ scalar, token = .scalar scalar := by
  cases token with
  | scalar scalar => cases scalar <;> (cases ran; exact ⟨rfl,_,rfl⟩)
  | _ => cases ran

theorem scalarClimbs {scalar : Scalar} {around : List Container} {s s' : Session}
    (same : s'.cursor = s.cursor) (on : On s.cursor (.scalar scalar) around) : Climbs around s s' :=
  ⟨[],by rw [same]; exact .stop (onScalar on)⟩

theorem nextWhole {rule : Rule} (whole : Whole rule) {name : Text} {container : Container}
    {around : List Container} {v : Value} {s s' : Session}
    (on : On s.cursor (.field name) (container :: around)) (ran : rule.readNext.run s = (.ok v,s')) :
    Over s'.cursor (container :: around) ∧ ∀ u, Climbs around s' u → Climbs around s u := by
  obtain ⟨token,t,read,ran⟩ := okBind ran
  have stepped := Reader.readNext read
  cases token with
  | none =>
      have beyond := (nextEnd on.ready stepped).1
      rw [on.expecting] at beyond
      rcases beyond with beyond | beyond <;> cases beyond
  | some token =>
      obtain ⟨on',starts⟩ := fieldValue on stepped
      obtain ⟨ts,climb⟩ := whole token _ v t s' ran (nextCurrent stepped) starts on'
      refine ⟨climbOver climb,fun u behind => ?_⟩
      obtain ⟨ts',climb'⟩ := behind
      have nesting : s.cursor.nesting = container :: around := on.nesting
      have deep : around.length < s.cursor.nesting.length := by rw [nesting]; exact Nat.lt_succ_self _
      exact ⟨_,.step deep stepped (climbThen climb (Nat.lt_succ_self _) climb')⟩

theorem memberGoes {field : Text → Rule} (whole : ∀ name, Whole (field name)) {fields so : Fields} {token : Token}
    {around : List Container} {s t u : Session} (entry : Entry s.cursor .object around)
    (stepped : s.cursor.next = (.ok (some token),t.cursor))
    (went : (fieldStep (fun name => (field name).read) fields token).run t = (.ok (.inl so),u)) :
    Entry u.cursor .object around ∧ ∀ v, Climbs around u v → Climbs around s v := by
  obtain ⟨on,rfl | ⟨name,rfl⟩⟩ := objectEntry entry stepped
  · cases went
  · rw [fieldStepRun] at went
    obtain ⟨v,m,ran,done⟩ := okBind went
    cases done
    obtain ⟨beyond,carry⟩ := nextWhole (whole name) on ran
    refine ⟨overEntry beyond,fun v behind => ?_⟩
    obtain ⟨ts,climb⟩ := carry v behind
    exact ⟨_,.step (entryDeep entry) stepped climb⟩

theorem membersWhole {field : Text → Rule} (whole : ∀ name, Whole (field name)) {fields found : Fields}
    {around : List Container} {s s' : Session} (entry : Entry s.cursor .object around)
    (ran : loopFrom (fieldStep (fun name => (field name).read)) (fun _ => refuse .notFieldName) fields s =
      (.ok found,s')) :
    Climbs around s s' := by
  refine loopDone (fun _ s => Entry s.cursor .object around) (Climbs around) ?_ ?_ ?_ entry ran
  · intro a s t b u _ _ beyond
    cases beyond
  · intro a token s t b u entry read went
    have stepped := Reader.readNext read
    obtain ⟨on,rfl | ⟨name,rfl⟩⟩ := objectEntry entry stepped
    · cases went
      exact closingClimbs entry.nesting stepped on
    · rw [fieldStepRun] at went
      obtain ⟨_,_,_,done⟩ := okBind went
      cases done
  · intro a token s t so u entry read went
    exact memberGoes whole entry (Reader.readNext read) went

theorem itemStepStarts {item : Option Token → Reader Value} {items : List Value} {token : Token}
    (starts : StartsValue token) :
    itemStep item items token = (item (some token) >>= fun v => Pure.pure (.inl (v :: items))) := by
  cases token with
  | closing container => cases starts
  | _ => rfl

theorem itemGoes {item : Rule} (whole : Whole item) {items so : List Value} {token : Token} {around : List Container}
    {s t u : Session} (entry : Entry s.cursor .array around) (stepped : s.cursor.next = (.ok (some token),t.cursor))
    (went : (itemStep item.read items token).run t = (.ok (.inl so),u)) :
    Entry u.cursor .array around ∧ ∀ v, Climbs around u v → Climbs around s v := by
  obtain ⟨on,rfl | starts⟩ := arrayEntry entry stepped
  · cases went
  · rw [itemStepStarts starts] at went
    obtain ⟨v,m,ran,done⟩ := okBind went
    cases done
    obtain ⟨ts,climb⟩ := whole token _ v t u ran (nextCurrent stepped) starts on
    refine ⟨overEntry (climbOver climb),fun v behind => ?_⟩
    obtain ⟨ts',climb'⟩ := behind
    exact ⟨_,.step (entryDeep entry) stepped (climbThen climb (Nat.lt_succ_self _) climb')⟩

theorem itemsWhole {item : Rule} (whole : Whole item) {items found : List Value}
    {around : List Container} {s s' : Session} (entry : Entry s.cursor .array around)
    (ran : loopFrom (itemStep item.read) (fun _ => refuse (.notShape item.noun)) items s = (.ok found,s')) :
    Climbs around s s' := by
  refine loopDone (fun _ s => Entry s.cursor .array around) (Climbs around) ?_ ?_ ?_ entry ran
  · intro a s t b u _ _ beyond
    cases beyond
  · intro a token s t b u entry read went
    have stepped := Reader.readNext read
    obtain ⟨on,rfl | starts⟩ := arrayEntry entry stepped
    · cases went
      exact closingClimbs entry.nesting stepped on
    · rw [itemStepStarts starts] at went
      obtain ⟨_,_,_,done⟩ := okBind went
      cases done
  · intro a token s t so u entry read went
    exact itemGoes whole entry (Reader.readNext read) went

structure Within (around : List Container) (so : Subtree) (s : Session) : Prop where
  ready : s.cursor.Ready
  deep : so.depth ≠ 0
  nesting : ∃ opened, s.cursor.nesting = opened ++ around ∧ opened.length = so.depth

theorem withinPush {around : List Container} {so : Subtree} {token : Token} {s t : Session}
    (within : Within around so s) (stepped : s.cursor.next = (.ok (some token),t.cursor)) :
    (∃ opened, t.cursor.nesting = opened ++ around ∧ opened.length = (so.push token).depth) ∧
      ((so.push token).depth = 0 → Over t.cursor around) := by
  obtain ⟨gap,source,taken⟩ := nextTaken within.ready stepped
  obtain ⟨opened,nesting,depth⟩ := within.nesting
  have on := takenOn taken
  have after := taken.nesting
  rw [nesting] at on after
  cases opened with
  | nil => exact absurd depth.symm within.deep
  | cons k opened =>
      cases token with
      | opening container =>
          refine ⟨⟨container :: k :: opened,after,?_⟩,nofun⟩
          simp only [List.length_cons] at depth ⊢
          simp [Subtree.push,depthAfter,depth]
      | closing container =>
          have one : opened.length = (so.push (.closing container)).depth := by
            simp only [List.length_cons] at depth
            simp only [Subtree.push,depthAfter]
            omega
          refine ⟨⟨opened,after,one⟩,fun zero => ?_⟩
          rw [zero] at one
          rw [List.length_eq_zero_iff.mp one] at on
          exact onClosing on
      | field name => exact ⟨⟨k :: opened,after,depth⟩,fun zero => absurd zero within.deep⟩
      | scalar scalar => exact ⟨⟨k :: opened,after,depth⟩,fun zero => absurd zero within.deep⟩

theorem withinDeep {around : List Container} {so : Subtree} {s : Session} (within : Within around so s) :
    around.length < s.cursor.nesting.length := by
  obtain ⟨opened,nesting,depth⟩ := within.nesting
  have deep := within.deep
  rw [nesting,List.length_append]
  omega

theorem subtreeGoes {around : List Container} {so after : Subtree} {token : Token} {s t u : Session}
    (within : Within around so s) (stepped : s.cursor.next = (.ok (some token),t.cursor))
    (went : (subtreeStep so token).run t = (.ok (.inl after),u)) :
    u = t ∧ Within around after u ∧ ∀ v, Climbs around u v → Climbs around s v := by
  rw [subtreeStepPush] at went
  split at went
  · cases went
  · rename_i inside
    cases went
    obtain ⟨gap,source,taken⟩ := nextTaken within.ready stepped
    refine ⟨rfl,⟨taken.ready,inside,(withinPush within stepped).1⟩,fun v behind => ?_⟩
    obtain ⟨ts,climb⟩ := behind
    exact ⟨_,.step (withinDeep within) stepped climb⟩

theorem subtreeWhole {around : List Container} {so : Subtree} {text : Text} {s s' : Session}
    (within : Within around so s) (ran : loopFrom subtreeStep subtreeUnended so s = (.ok text,s')) :
    Climbs around s s' := by
  refine loopDone (Within around) (Climbs around) ?_ ?_ ?_ within ran
  · intro a s t b u _ _ beyond
    cases beyond
  · intro so token s t b u within read went
    have stepped := Reader.readNext read
    rw [subtreeStepPush] at went
    split at went
    · rename_i zero
      cases went
      exact ⟨_,.step (withinDeep within) stepped (.stop ((withinPush within stepped).2 zero))⟩
    · cases went
  · intro so token s t after u within read went
    exact (subtreeGoes within (Reader.readNext read) went).2

theorem subtreeEntered {s : Session} {container : Container} (stands : s.cursor.current = some (.opening container)) :
    subtree.run s =
      loopFrom subtreeStep subtreeUnended ⟨[(Token.opening container).text],.opening container,1⟩ s := by
  simp only [subtree,runBind,runState,stands]; rfl

theorem onWithin {s : Session} {container : Container} {around : List Container}
    (on : On s.cursor (.opening container) around) :
    Within around ⟨[(Token.opening container).text],.opening container,1⟩ s :=
  ⟨on.ready,Nat.one_ne_zero,[container],on.nesting,rfl⟩

theorem looseWhole : Whole .anything := by
  intro token around v s s' ran stands starts on
  cases token with
  | opening container =>
      obtain ⟨text,m,read,done⟩ := okBind ran
      cases done
      rw [subtreeEntered stands] at read
      exact subtreeWhole (onWithin on) read
  | scalar scalar =>
      cases ran
      exact scalarClimbs rfl on
  | closing container => cases starts
  | field name => cases starts

theorem liftStays {α : Type} {x : Except Fault α} {a : α} {s s' : Session} (ran : (lift x).run s = (.ok a,s')) :
    s' = s := by
  cases x <;> cases ran
  rfl

theorem liftedStays {α : Type} {f : Session → Except Fault α} {a : α} {s s' : Session}
    (ran : (state >>= fun s => lift (f s)).run s = (.ok a,s')) : s' = s := by
  obtain ⟨_,_,looked,lifted⟩ := okBind ran
  cases looked
  exact liftStays lifted

theorem leafWhole {f : Option Text → Reader Value} {token : Token} {around : List Container} {v : Value}
    {s s' : Session} (ran : (scalarText (some token) >>= f).run s = (.ok v,s')) (on : On s.cursor token around)
    (stays : ∀ text, (f text).run s = (.ok v,s') → s'.cursor = s.cursor) : Climbs around s s' := by
  obtain ⟨text,m,read,rest⟩ := okBind ran
  obtain ⟨rfl,scalar,rfl⟩ := scalarTextStays read
  exact scalarClimbs (stays text rest) on

theorem readWhole (rule : Rule) : Whole rule := by
  induction rule with
  | anything => exact looseWhole
  | text => exact fun token around v s s' ran _ _ on => leafWhole ran on (fun text done => by cases done; rfl)
  | flag =>
      intro token around v s s' ran _ _ on
      cases token with
      | scalar scalar =>
          cases scalar with
          | string value => cases ran
          | number spelling => cases ran
          | _ => cases ran; exact scalarClimbs rfl on
      | _ => cases ran
  | version ceiling =>
      intro token around v s s' ran _ _ on
      refine leafWhole ran on (fun text rest => ?_)
      obtain ⟨_,m,noted,done⟩ := okBind rest
      cases done
      cases same : text.bind (Notice.ofVersion? ceiling) <;> (rw [same] at noted; cases noted; rfl)
  | time => exact fun token around v s s' ran _ _ on => leafWhole ran on (fun text rest => by rw [liftedStays rest])
  | identifier => exact fun token around v s s' ran _ _ on => leafWhole ran on (fun text rest => by rw [liftedStays rest])
  | object noun field ih =>
      intro token around v s s' ran _ _ on
      unfold Rule.read at ran
      split at ran
      · rename_i same
        cases same
        obtain ⟨fields,m,read,done⟩ := okBind ran
        cases done
        exact membersWhole ih (onEntry on) read
      · cases ran
  | list noun item ih =>
      intro token around v s s' ran _ _ on
      unfold Rule.read at ran
      split at ran
      · rename_i same
        cases same
        obtain ⟨items,m,read,done⟩ := okBind ran
        cases done
        exact itemsWhole ih (onEntry on) read
      · cases ran
  | nullable rule ih =>
      intro token around v s s' ran stands starts on
      unfold Rule.read at ran
      split at ran
      · rename_i same
        cases same
        cases ran
        exact scalarClimbs rfl on
      · exact ih token around v s s' ran stands starts on

end Rule
end AuditLog
