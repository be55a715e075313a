import AuditLog.Proofs.Step
import AuditLog.Trail

/-! Readers and lexers part by part. What holds of a reader wherever it holds of the parts it is made of, holds of
every rule and of every record: rules end all their loops over tokens with a refusal, and ask for the value of a
member only behind its name. -/
namespace AuditLog

theorem Reading.ext {σ α : Type} {unread : σ → Nat} {r r' : Reading σ unread α} (run : r.run = r'.run)
    (asks : r.asks = r'.asks) : r = r' := by
  cases r
  cases r'
  cases run
  cases asks
  rfl

structure Seen where
  token : Option Token
  name : Option Text
  start : Nat
  stop : Nat
  position : Nat

def Session.seen (s : Session) : Seen :=
  ⟨s.cursor.current,s.cursor.name,s.cursor.start,s.cursor.stop,s.cursor.input.position⟩

namespace Reader
open Reading Rule

variable {α β : Type}

def unrolled (step : α → Token → Reader (α ⊕ β)) (atEnd : α → Reader β) (a : α) : Reader β :=
  next >>= fun found =>
    match found with
    | none => atEnd a
    | some token =>
        step a token >>= fun out =>
          match out with
          | .inr b => pure b
          | .inl so => loop step atEnd so

theorem loopUnrolled (step : α → Token → Reader (α ⊕ β)) (atEnd : α → Reader β) (a : α) :
    loop step atEnd a = unrolled step atEnd a := by
  refine Reading.ext (funext fun s => ?_) (funext fun s => ?_)
  · show loopFrom step atEnd a s = _
    rw [loopUnfold,unrolled,runBind]
    cases next.run s with
    | mk result m =>
        cases result with
        | error fault => rfl
        | ok found =>
            cases found with
            | none => rfl
            | some token =>
                simp only [runBind]
                cases (step a token).run m with
                | mk result u =>
                    cases result with
                    | error fault => rfl
                    | ok out => cases out <;> rfl
  · show loopAsks step atEnd a s = _
    rw [loopAsks,unrolled,asksBind]
    congr 1
    split
    · simp_all
    · simp_all
    · rename_i token m read
      simp only [read,asksBind]
      congr 1
      split
      · simp_all
      · simp_all
        rfl
      · simp_all
        rfl

end Reader

open Reading in
/-- A property of readers, each at a session, that goes part by part. What a reader makes of a session is told by what
it may see of it. -/
structure Composed (P : (α : Type) → Reader α → Session → Prop) : Prop where
  done : ∀ {α : Type} (a : α) (s : Session), P α (pure a) s
  fails : ∀ {α : Type} (fault : Fault) (s : Session), P α (fail fault) s
  binds : ∀ {α β : Type} {r : Reader α} {f : α → Reader β} {s : Session}, P α r s →
    (∀ a m, r.run s = (.ok a,m) → P β (f a) m) → P β (r >>= f) s
  states : ∀ {α : Type} {f : Session → Reader α} {s : Session}, (∀ t, t.seen = s.seen → f t = f s) → P α (f s) s →
    P α (state >>= f) s

open Reading Reader in
structure Piecewise (P : (α : Type) → Reader α → Session → Prop) : Prop extends Composed P where
  goesOn : ∀ {α : Type} {f : Option Token → Reader α} {fault : Seen → Fault} {s : Session},
    (f none = state >>= fun s => fail (fault s.seen)) →
    (∀ token m, next.run s = (.ok (some token),m) → P α (f (some token)) m) → P α (next >>= f) s
  named : ∀ {α : Type} {f : Option Token → Reader α} {s : Session}, s.cursor.expecting = .colon →
    (∀ token m, next.run s = (.ok (some token),m) → P α (f (some token)) m) → P α (next >>= f) s

open Reader in
structure Stepwise (P : (α : Type) → Reader α → Session → Prop) : Prop extends Piecewise P where
  notes : ∀ (n : Notice) (s : Session), P Unit (note n) s

def Rule.Ceilings (allowed : Float → Prop) : Rule → Prop
  | .version ceiling => allowed ceiling
  | .object _ field => ∀ name, (field name).Ceilings allowed
  | .list _ item => item.Ceilings allowed
  | .nullable rule => rule.Ceilings allowed
  | _ => True

theorem Rule.ceilingsAll {allowed : Float → Prop} (all : ∀ ceiling, allowed ceiling) (rule : Rule) : rule.Ceilings allowed := by
  induction rule with
  | version ceiling => exact all ceiling
  | object noun field ih => exact ih
  | list noun item ih => exact ih
  | nullable rule ih => exact ih
  | _ => trivial

namespace Composed
open Reading Reader Rule

variable {P : (α : Type) → Reader α → Session → Prop} {α β : Type}

theorem looks (composed : Composed P) {f : Seen → Reader α} {s : Session} (holds : P α (f s.seen) s) :
    P α (state >>= fun s => f s.seen) s :=
  composed.states (f := fun s => f s.seen) (fun t same => by rw [same]) holds

theorem maps (composed : Composed P) {r : Reader α} {f : α → β} {s : Session} (holds : P α r s) : P β (f <$> r) s :=
  composed.binds holds (fun a m _ => composed.done (f a) m)

theorem refuses (composed : Composed P) (flaw : RecordFlaw) (s : Session) : P α (refuse flaw) s :=
  composed.looks (f := fun seen => fail (.record flaw seen.start)) (composed.fails _ s)

theorem lifts (composed : Composed P) (x : Except Fault α) (s : Session) : P α (lift x) s := by
  cases x with
  | ok a => exact composed.done a s
  | error fault => exact composed.fails fault s

theorem scalarTexts (composed : Composed P) (token : Option Token) (s : Session) : P _ (scalarText token) s := by
  unfold scalarText
  split
  · exact composed.done _ s
  · exact composed.done _ s
  · exact composed.looks (f := fun seen => refuse (.notText seen.name)) (composed.refuses _ s)

theorem flags (composed : Composed P) (token : Option Token) (s : Session) : P _ (flagValue token) s := by
  unfold flagValue
  split
  · exact composed.done _ s
  · exact composed.done _ s
  · exact composed.done _ s
  · exact composed.looks (f := fun seen => refuse (.notFlag seen.name)) (composed.refuses _ s)

theorem flag (composed : Composed P) (s : Session) : P Bool Reader.flag s := by
  refine composed.states (fun t same => ?_) ?_
  · have current : t.cursor.current = s.cursor.current := congrArg Seen.token same
    have start : t.cursor.start = s.cursor.start := congrArg Seen.start same
    simp only [Cursor.flag,current,start]
  · cases s.cursor.flag with
    | ok b => exact composed.done b s
    | error fault => exact composed.fails fault s

end Composed

namespace Piecewise
open Reading Reader Rule

variable {P : (α : Type) → Reader α → Session → Prop} {α β : Type}

theorem colonGoes {s m : Session} (colon : s.cursor.expecting = .colon) : next.run s ≠ (.ok none,m) := by
  intro read
  have stepped := Reader.readNext read
  generalize m.cursor = d at stepped
  rw [Cursor.next,colon] at stepped
  split at stepped
  · cases stepped
  · split at stepped <;> cases stepped
    rename_i ran
    obtain ⟨_,_,_,ran⟩ := okBind ran
    obtain ⟨_,_,_,ran⟩ := okBind ran
    obtain ⟨_,_,_,ran⟩ := okBind ran
    exact Lexer.someNever ran

theorem loops (piecewise : Piecewise P) {step : α → Token → Reader (α ⊕ β)} {atEnd : α → Reader β}
    (fault : Seen → Fault) (ends : ∀ a, atEnd a = state >>= fun s => fail (fault s.seen))
    (steps : ∀ a token s m, next.run s = (.ok (some token),m) → P _ (step a token) m) (a : α) (s : Session) :
    P β (loop step atEnd a) s := by
  induction size : s.unread using Nat.strongRecOn generalizing a s with
  | _ size ih =>
      subst size
      rw [loopUnrolled]
      refine piecewise.goesOn (ends a) (fun token m read => ?_)
      refine piecewise.binds (steps a token s m read) (fun out u went => ?_)
      cases out with
      | inr b => exact piecewise.done b u
      | inl so => exact ih _ (Nat.lt_of_le_of_lt ((step a token).forwardTo went) (nextTakes read)) so u rfl

theorem subtrees (piecewise : Piecewise P) (s : Session) : P Text subtree s := by
  refine piecewise.states (fun t same => ?_) ?_
  · have current : t.cursor.current = s.cursor.current := congrArg Seen.token same
    have start : t.cursor.start = s.cursor.start := congrArg Seen.start same
    simp only [current,start]
  · split
    · exact piecewise.loops (fun seen => .malformed ⟨.endOfInput,seen.position⟩) (fun _ => rfl)
        (fun so token _ m _ => piecewise.done _ m) _ s
    · exact piecewise.fails _ s

theorem loose (piecewise : Piecewise P) (token : Option Token) (s : Session) : P Value (looseValue token) s := by
  unfold looseValue
  split
  · exact piecewise.maps (piecewise.subtrees s)
  · exact piecewise.done _ s

theorem fieldExpecting {s m : Session} {name : Text} (read : next.run s = (.ok (some (.field name)),m)) :
    m.cursor.expecting = .colon := by
  have stepped := Reader.readNext read
  generalize m.cursor = d at stepped ⊢
  unfold Cursor.next at stepped
  split at stepped
  · cases stepped
  · split at stepped <;> cases stepped
    rfl

theorem reads (piecewise : Piecewise P) (rule : Rule)
    (within : rule.Ceilings (fun ceiling => ∀ token s, P Value ((Rule.version ceiling).read token) s))
    (token : Option Token) (s : Session) : P Value (rule.read token) s := by
  induction rule generalizing token s with
  | anything => exact piecewise.loose token s
  | text => exact piecewise.maps (piecewise.scalarTexts token s)
  | flag => exact piecewise.flags token s
  | version ceiling => exact within token s
  | time =>
      refine piecewise.binds (piecewise.scalarTexts token s) (fun text m _ => ?_)
      exact piecewise.looks (f := fun seen => lift (timeOf text (some (.counted seen.start)))) (piecewise.lifts _ m)
  | identifier =>
      refine piecewise.binds (piecewise.scalarTexts token s) (fun text m _ => ?_)
      exact piecewise.looks (f := fun seen => lift (identifierValue text (.counted seen.start))) (piecewise.lifts _ m)
  | object noun field ih =>
      unfold Rule.read
      split
      · refine piecewise.maps (piecewise.loops (fun seen => .record .notFieldName seen.start) (fun _ => rfl)
          (fun fields token s m read => ?_) _ s)
        unfold fieldStep
        split
        · exact piecewise.done _ m
        · rename_i name
          refine piecewise.named (fieldExpecting read) (fun token u _ => ?_)
          exact piecewise.binds (ih name (within name) (some token) u) (fun v w _ => piecewise.done _ w)
        · exact piecewise.refuses _ m
      · exact piecewise.refuses _ s
  | list noun item ih =>
      unfold Rule.read
      split
      · refine piecewise.maps (piecewise.loops (fun seen => .record (.notShape item.noun) seen.start) (fun _ => rfl)
          (fun items token s m read => ?_) _ s)
        unfold itemStep
        split
        · exact piecewise.done _ m
        · exact piecewise.binds (ih within (some token) m) (fun v w _ => piecewise.done _ w)
      · exact piecewise.refuses _ s
  | nullable rule ih =>
      unfold Rule.read
      split
      · exact piecewise.done _ s
      · exact ih within token s

end Piecewise

namespace Stepwise
open Reading Reader Rule

variable {P : (α : Type) → Reader α → Session → Prop}

theorem versions (stepwise : Stepwise P) (ceiling : Float) (token : Option Token) (s : Session) :
    P Value ((Rule.version ceiling).read token) s := by
  refine stepwise.binds (stepwise.scalarTexts token s) (fun version m _ => ?_)
  refine stepwise.binds ?_ (fun _ u _ => stepwise.done _ u)
  cases version.bind (Notice.ofVersion? ceiling) with
  | none => exact stepwise.done () m
  | some n => exact stepwise.notes n m

theorem reads (stepwise : Stepwise P) (rule : Rule) (token : Option Token) (s : Session) : P Value (rule.read token) s :=
  stepwise.toPiecewise.reads rule (ceilingsAll stepwise.versions rule) token s

theorem readsCurrent (stepwise : Stepwise P) (rule : Rule) (s : Session) : P Value rule.readCurrent s :=
  stepwise.looks (f := fun seen => rule.read seen.token) (stepwise.reads rule _ s)

theorem records (stepwise : Stepwise P) (terms : Terms) (s : Session) : P Event (Trail.event terms) s := by
  let ends (before : Seen) (data : Value) (after : Seen) : Reader Event :=
    note (.decoded before.start after.stop (Trail.identifier? (Account.resolve data))) >>= fun _ =>
      pure ⟨Account.resolve data,terms.provenance.metadata (.counted before.start) (.counted after.stop)⟩
  refine stepwise.looks (f := fun before => (Schema.record terms.ceiling).readCurrent >>= fun data =>
    state >>= fun s => ends before data s.seen) ?_
  refine stepwise.binds (stepwise.readsCurrent _ s) (fun data m _ => stepwise.looks ?_)
  exact stepwise.binds (stepwise.notes _ m) (fun _ u _ => stepwise.done _ u)

end Stepwise

open Reader in
structure Asking (P : (α : Type) → Reader α → Session → Prop) : Prop extends Composed P where
  nexts : ∀ s : Session, P _ next s

open Reader in
structure Throughout (P : (α : Type) → Reader α → Session → Prop) : Prop extends Asking P where
  notes : ∀ (n : Notice) (s : Session), P Unit (note n) s

namespace Asking
open Reading Reader

variable {P : (α : Type) → Reader α → Session → Prop}

theorem piecewise (asking : Asking P) : Piecewise P where
  toComposed := asking.toComposed
  goesOn {α f fault s} gives goes := by
    refine asking.binds (asking.nexts s) (fun found m read => ?_)
    cases found with
    | none =>
        rw [gives]
        exact asking.looks (f := fun seen => fail (fault seen)) (asking.fails _ m)
    | some token => exact goes token m read
  named {α f s} colon goes := by
    refine asking.binds (asking.nexts s) (fun found m read => ?_)
    cases found with
    | none => exact absurd read (Piecewise.colonGoes colon)
    | some token => exact goes token m read

theorem asks (asking : Asking P) (s : Session) : P Bool Trail.more s := by
  refine asking.binds (asking.nexts s) (fun found m _ => ?_)
  split
  · exact asking.done _ m
  · exact asking.refuses _ m
  · exact asking.done _ m

theorem demands (asking : Asking P) (wanted : Token) (flaw : EnvelopeFlaw) (s : Session) :
    P Unit (Trail.demand wanted flaw) s := by
  refine asking.binds (asking.nexts s) (fun found m _ => ?_)
  refine asking.looks
    (f := fun seen => if found = some wanted then pure () else fail (.envelope flaw seen.start)) ?_
  split
  · exact asking.done _ m
  · exact asking.fails _ m

theorem envelopes (asking : Asking P) (field : Text) (s : Session) : P Unit (Trail.envelope field) s :=
  asking.binds (asking.demands _ _ s) (fun _ m _ =>
    asking.binds (asking.demands _ _ m) (fun _ u _ => asking.demands _ _ u))

theorem texts (asking : Asking P) (s : Session) : P _ nextText s := by
  refine asking.binds (asking.nexts s) (fun found m _ => ?_)
  split
  · exact asking.done _ m
  · exact asking.done _ m

theorem answers (asking : Asking P) (versions : ∀ ceiling token s, P Value ((Rule.version ceiling).read token) s)
    (closes : ∀ s, P Unit close s) (op : Operation) (s : Session) : P Answer op.reader s := by
  have reads (rule : Rule) (token : Option Token) (s : Session) : P Value (rule.read token) s :=
    asking.piecewise.reads rule (rule.ceilingsAll versions) token s
  cases op with
  | next => exact asking.maps (asking.nexts s)
  | nextText => exact asking.maps (asking.texts s)
  | flag => exact asking.maps (asking.flag s)
  | leafText =>
      exact asking.maps (asking.looks (f := fun seen => pure (seen.token.bind Token.leafText?)) (asking.done _ s))
  | subtree => exact asking.maps (asking.piecewise.subtrees s)
  | readNext rule => exact asking.maps (asking.binds (asking.nexts s) (fun token m _ => reads rule token m))
  | readCurrent rule => exact asking.maps (asking.looks (f := fun seen => rule.read seen.token) (reads rule _ s))
  | close => exact asking.maps (closes s)

end Asking

namespace Throughout
open Reading Reader

variable {P : (α : Type) → Reader α → Session → Prop}

theorem stepwise (throughout : Throughout P) : Stepwise P := ⟨throughout.piecewise,throughout.notes⟩

end Throughout

namespace Lexer
open Reading

structure Stepwise (P : (α : Type) → Lexer α → Prop) : Prop where
  done : ∀ {α : Type} (a : α), P α (pure a)
  fails : ∀ {α : Type} (fault : Fault), P α (fail fault)
  binds : ∀ {α β : Type} {r : Lexer α} {f : α → Lexer β}, P α r → (∀ a, P β (f a)) → P β (r >>= f)
  scans : ∀ {σ α : Type} (m : Scanner σ α) (state : σ), P α (scan m state)
  marks : P Unit mark
  looks : ∀ {α : Type} {f : Nat → Nat → Lexer α}, (∀ start position, P α (f start position)) →
    P α (state >>= fun l => f l.start l.input.position)

namespace Stepwise

variable {P : (α : Type) → Lexer α → Prop} {σ α : Type}

theorem lexemes (stepwise : Stepwise P) (m : Scanner σ (Except Malformed α)) (state : σ) : P α (lexeme m state) := by
  refine stepwise.binds (stepwise.scans m state) (fun r => ?_)
  cases r with
  | error what => exact stepwise.fails _
  | ok a => exact stepwise.done a

theorem skips (stepwise : Stepwise P) : P Unit skip :=
  stepwise.binds (stepwise.scans blanks ()) (fun _ => stepwise.marks)

theorem quoted (stepwise : Stepwise P) (f : Text → Token) :
    P Token (state >>= fun l => lexeme (string l.start) (.plain []) >>= fun t => pure (f t)) :=
  stepwise.looks (f := fun start _ => lexeme (string start) (.plain []) >>= fun t => pure (f t))
    (fun _ _ => stepwise.binds (stepwise.lexemes _ _) (fun t => stepwise.done (f t)))

theorem values (stepwise : Stepwise P) : P Token value := by
  refine stepwise.binds (stepwise.lexemes lead ()) (fun found => ?_)
  cases found with
  | whole token => exact stepwise.done token
  | quote => exact stepwise.quoted (fun t => .scalar (.string t))
  | word scalar =>
      exact stepwise.looks
        (f := fun start _ => lexeme (word scalar start) (scalar.text.drop 1) >>= fun _ => pure (Token.scalar scalar))
        (fun _ _ => stepwise.binds (stepwise.lexemes _ _) (fun _ => stepwise.done _))
  | number first => exact stepwise.binds (stepwise.lexemes number _) (fun _ => stepwise.done _)

theorem keys (stepwise : Stepwise P) : P Token key :=
  stepwise.binds (stepwise.lexemes openingQuote ()) (fun _ => stepwise.quoted .field)

theorem somes (stepwise : Stepwise P) {r : Lexer Token} (holds : P Token r) : P _ (some <$> r) :=
  stepwise.binds holds (fun _ => stepwise.done _)

theorem afterCommas (stepwise : Stepwise P) {r : Lexer Token} (holds : P Token r) : P Token (afterComma r) :=
  stepwise.binds (stepwise.lexemes _ _) (fun _ => stepwise.binds stepwise.skips (fun _ => holds))

theorem orCloses (stepwise : Stepwise P) (container : Container) {r : Lexer Token} (holds : P Token r) :
    P Token (orClose container r) := by
  refine stepwise.binds (stepwise.scans _ _) (fun closed => ?_)
  cases closed with
  | true => exact stepwise.done _
  | false => exact holds

theorem tokens (stepwise : Stepwise P) (expecting : Expecting) (inside : Option Container) :
    P _ (token expecting inside) := by
  refine stepwise.binds stepwise.skips (fun _ => ?_)
  split
  · refine stepwise.binds (stepwise.scans _ _) (fun ended => ?_)
    cases ended with
    | true => exact stepwise.done none
    | false =>
        exact stepwise.looks (f := fun _ position => fail (.malformed ⟨.trailing,position⟩)) (fun _ _ => stepwise.fails _)
  · refine stepwise.binds (stepwise.scans _ _) (fun ended => ?_)
    cases ended with
    | true => exact stepwise.done none
    | false => exact stepwise.somes stepwise.values
  · exact stepwise.somes (stepwise.orCloses _ stepwise.values)
  · exact stepwise.somes (stepwise.orCloses _ stepwise.keys)
  · exact stepwise.binds (stepwise.lexemes _ _) (fun _ =>
      stepwise.binds stepwise.skips (fun _ => stepwise.somes stepwise.values))
  · exact stepwise.somes (stepwise.orCloses _ (stepwise.afterCommas stepwise.keys))
  · exact stepwise.somes (stepwise.orCloses _ (stepwise.afterCommas stepwise.values))
  · exact stepwise.somes (stepwise.afterCommas stepwise.values)

end Stepwise
end Lexer
end AuditLog
