import AuditLog.Proofs.Tokens

/-! How far a step looks. What comes of a step, be it a token or a fault, is told by the units that it takes
and the one behind them, so it comes of every text that goes on alike up to there. -/
namespace AuditLog
open Reading

theorem Text.headAppend {taken more more' : Text} (head : more.head? = more'.head?) :
    (taken ++ more).head? = (taken ++ more').head? := by
  cases taken with
  | nil => exact head
  | cons u taken => rfl

namespace Scanner
variable {σ α : Type}

theorem flatNear (m : Scanner σ α) (state : σ) (position : Nat) (t : Text) :
    ∃ taken more, t = taken ++ more ∧ ∀ more', more.head? = more'.head? →
      m.flat state position (taken ++ more') = ((m.flat state position t).1,position + taken.length,more') := by
  induction t generalizing state position with
  | nil =>
      refine ⟨[],[],rfl,fun more' head => ?_⟩
      rw [List.head?_eq_none_iff.mp head.symm]
      rfl
  | cons u t ih =>
      cases step : m.step position state u with
      | take next =>
          obtain ⟨taken,more,rfl,near⟩ := ih next (position + 1)
          refine ⟨u :: taken,more,rfl,fun more' head => ?_⟩
          simp only [List.cons_append,flat,step,near more' head,List.length_cons]
          rw [Lexer.oneFurther]
      | finish result => exact ⟨[u],t,rfl,fun more' _ => by simp only [List.cons_append,List.nil_append,flat,step]; rfl⟩
      | leave result =>
          refine ⟨[],u :: t,rfl,fun more' head => ?_⟩
          obtain ⟨rest,rfl⟩ := List.head?_eq_some_iff.mp head.symm
          simp only [List.nil_append,flat,step]
          rfl

end Scanner

namespace Lexer
open Grammar

variable {σ α : Type}

def Near (r : Lexer α) : Prop :=
  ∀ {l l' : Lexing} {start position : Nat} {t : Text} {x : Except Fault α}, l.Stands start position t →
    r.run l = (x,l') → ∃ taken more, t = taken ++ more ∧ l'.Stands l'.start (position + taken.length) more ∧
      ∀ (k : Lexing) (more' : Text), k.Stands start position (taken ++ more') → more.head? = more'.head? →
        ∃ k', r.run k = (x,k') ∧ k'.Stands l'.start (position + taken.length) more'

theorem pureNear (a : α) : Near (pure a) := by
  intro l l' start position t x stands ran
  cases ran
  exact ⟨[],t,rfl,⟨stands.sound,rfl,stands.position,stands.rest⟩,
    fun k _ stands' _ => ⟨k,rfl,stands'.sound,stands'.start.trans stands.start.symm,stands'.position,stands'.rest⟩⟩

theorem failNear (fault : Fault) : Near (fail fault : Lexer α) := by
  intro l l' start position t x stands ran
  cases ran
  exact ⟨[],t,rfl,⟨stands.sound,rfl,stands.position,stands.rest⟩,
    fun k _ stands' _ => ⟨k,rfl,stands'.sound,stands'.start.trans stands.start.symm,stands'.position,stands'.rest⟩⟩

theorem bindNear {β : Type} {r : Lexer α} {f : α → Lexer β} (first : Near r) (second : ∀ a, Near (f a)) :
    Near (r >>= f) := by
  intro l l' start position t x stands ran
  rw [runBind] at ran
  cases went : r.run l with
  | mk result m =>
      obtain ⟨taken,more,rfl,stands,near⟩ := first stands went
      rw [went] at ran
      cases result with
      | error fault =>
          cases ran
          refine ⟨taken,more,rfl,stands,fun k more' stands' head => ?_⟩
          obtain ⟨k',ran',stands'⟩ := near k more' stands' head
          exact ⟨k',by rw [runBind,ran'],stands'⟩
      | ok a =>
          obtain ⟨taken',more,rfl,stands,near'⟩ := second a stands ran
          refine ⟨taken ++ taken',more,(List.append_assoc ..).symm,?_,fun k more' stands' head => ?_⟩
          · rw [List.length_append,← Nat.add_assoc]
            exact stands
          · rw [List.append_assoc] at stands'
            obtain ⟨k',ran',stands'⟩ := near k _ stands' (Text.headAppend head)
            obtain ⟨k'',ran'',stands'⟩ := near' k' more' stands' head
            rw [List.length_append,← Nat.add_assoc]
            exact ⟨k'',by rw [runBind,ran']; exact ran'',stands'⟩

theorem stateNear {f : Lexing → Lexer α} (near : ∀ l, Near (f l))
    (same : ∀ l k : Lexing, l.start = k.start → l.input.position = k.input.position → f l = f k) :
    Near (state >>= f) := by
  intro l l' start position t x stands ran
  obtain ⟨taken,more,parts,stands',goes⟩ := near l stands ran
  refine ⟨taken,more,parts,stands',fun k more' other head => ?_⟩
  obtain ⟨k',ran',stands'⟩ := goes k more' other head
  have alike := same l k (stands.start.trans other.start.symm) (stands.position.trans other.position.symm)
  refine ⟨k',?_,stands'⟩
  show (f k).run k = _
  rw [← alike]
  exact ran'

theorem scanNear (m : Scanner σ α) (state : σ) : Near (scan m state) := by
  intro l l' start position t x stands ran
  obtain ⟨l'',ran'',stands''⟩ := scanStands m state stands
  rw [ran''] at ran
  cases ran
  obtain ⟨taken,more,rfl,near⟩ := m.flatNear state position t
  have here := near more rfl
  rw [here] at stands''
  refine ⟨taken,more,rfl,⟨stands''.sound,rfl,stands''.position,stands''.rest⟩,fun k more' other head => ?_⟩
  obtain ⟨k',ran',stands'⟩ := scanRead other (near more' head)
  exact ⟨k',ran',stands'.sound,stands'.start.trans stands''.start.symm,stands'.position,stands'.rest⟩

theorem lexemeNear (m : Scanner σ (Except Malformed α)) (state : σ) : Near (lexeme m state) := by
  refine bindNear (scanNear m state) (fun r => ?_)
  cases r with
  | error what => exact failNear _
  | ok a => exact pureNear a

theorem markNear : Near mark := by
  intro l l' start position t x stands ran
  cases ran
  refine ⟨[],t,rfl,⟨stands.sound,rfl,stands.position,stands.rest⟩,fun k more' stands' _ => ?_⟩
  exact ⟨_,rfl,stands'.sound,stands'.position.trans stands.position.symm,stands'.position,stands'.rest⟩

theorem skipNear : Near skip := bindNear (scanNear blanks ()) (fun _ => markNear)

theorem startNear {f : Nat → Lexer α} (near : ∀ start, Near (f start)) : Near (state >>= fun l => f l.start) :=
  stateNear (fun l => near l.start) (fun _ _ start _ => by rw [start])

theorem quotedNear (f : Text → Token) :
    Near (state >>= fun l => lexeme (string l.start) (.plain []) >>= fun t => pure (f t)) :=
  startNear (f := fun start => lexeme (string start) (.plain []) >>= fun t => pure (f t))
    (fun _ => bindNear (lexemeNear _ _) (fun t => pureNear (f t)))

theorem valueNear : Near value := by
  refine bindNear (lexemeNear lead ()) (fun found => ?_)
  cases found with
  | whole token => exact pureNear token
  | quote => exact quotedNear (fun t => .scalar (.string t))
  | word scalar =>
      exact startNear
        (f := fun start => lexeme (word scalar start) (scalar.text.drop 1) >>= fun _ => pure (Token.scalar scalar))
        (fun _ => bindNear (lexemeNear _ _) (fun _ => pureNear _))
  | number first => exact bindNear (lexemeNear number _) (fun _ => pureNear _)

theorem keyNear : Near key := bindNear (lexemeNear openingQuote ()) (fun _ => quotedNear .field)

theorem afterCommaNear {r : Lexer Token} (near : Near r) : Near (afterComma r) :=
  bindNear (lexemeNear _ _) (fun _ => bindNear skipNear (fun _ => near))

theorem orCloseNear (container : Container) {r : Lexer Token} (near : Near r) : Near (orClose container r) := by
  refine bindNear (scanNear _ _) (fun closed => ?_)
  cases closed with
  | true => exact pureNear _
  | false => exact near

theorem someNear {r : Lexer Token} (near : Near r) : Near (some <$> r) :=
  bindNear near (fun _ => pureNear _)

theorem tokenNear (expecting : Expecting) (inside : Option Container) : Near (token expecting inside) := by
  refine bindNear skipNear (fun _ => ?_)
  split
  · refine bindNear (scanNear _ _) (fun ended => ?_)
    cases ended with
    | true => exact pureNear none
    | false => exact stateNear (fun _ => failNear _) (fun _ _ _ position => by rw [position])
  · refine bindNear (scanNear _ _) (fun ended => ?_)
    cases ended with
    | true => exact pureNear none
    | false => exact someNear valueNear
  · exact someNear (orCloseNear _ valueNear)
  · exact someNear (orCloseNear _ keyNear)
  · exact bindNear (lexemeNear _ _) (fun _ => bindNear skipNear (fun _ => someNear valueNear))
  · exact someNear (orCloseNear _ (afterCommaNear keyNear))
  · exact someNear (orCloseNear _ (afterCommaNear valueNear))
  · exact someNear (afterCommaNear valueNear)

end Lexer

namespace Cursor

structure Abreast (c c' : Cursor) : Prop where
  left : c.Ready
  right : c'.Ready
  position : c'.input.position = c.input.position
  start : c'.start = c.start
  expecting : c'.expecting = c.expecting
  nesting : c'.nesting = c.nesting

theorem abreastOfChunks (chunks chunks' : List Text) :
    Abreast (ofSource (.ofChunks chunks)) (ofSource (.ofChunks chunks')) :=
  ⟨readyOfChunks chunks,readyOfChunks chunks',rfl,rfl,rfl,rfl⟩

theorem nextNear {c d : Cursor} {result : Except Fault (Option Token)} (ready : c.Ready)
    (stepped : c.next = (result,d)) : ∃ taken, c.input.rest = taken ++ d.input.rest ∧
      d.input.position = c.input.position + taken.length ∧ ∀ c' more', Abreast c c' →
        c'.input.rest = taken ++ more' → d.input.rest.head? = more'.head? →
        ∃ d', c'.next = (result,d') ∧ Abreast d d' ∧ d'.input.rest = more' := by
  cases ran : (Lexer.token c.expecting c.nesting.head?).run ⟨c.input,c.start⟩ with
  | mk found l =>
      obtain ⟨taken,more,parts,stands,near⟩ := Lexer.tokenNear c.expecting c.nesting.head? (readyStands ready) ran
      rw [nextOpen ready,ran] at stepped
      have input : d.input = l.input := by cases found <;> cases stepped <;> rfl
      refine ⟨taken,by rw [parts,input,stands.rest],by rw [input,stands.position],fun c' more' abreast rest head => ?_⟩
      rw [input,stands.rest] at head
      obtain ⟨k,ran',stands'⟩ := near ⟨c'.input,c'.start⟩ more'
        ⟨abreast.right.sound,abreast.start,abreast.position,rest⟩ head
      have stepped' := nextOpen abreast.right
      rw [abreast.expecting,abreast.nesting,ran'] at stepped'
      have ready' : Cursor.Ready d := (nextOnward ready (by rw [nextOpen ready,ran]; exact stepped)).1
      cases found with
      | error fault =>
          cases stepped
          exact ⟨_,stepped',⟨ready',⟨abreast.right.opened,stands'.sound⟩,stands'.position.trans stands.position.symm,
            stands'.start,rfl,rfl⟩,stands'.rest⟩
      | ok token =>
          cases stepped
          have nesting : (c'.advanced token k).nesting = (c.advanced token l).nesting := by
            simp only [advanced,abreast.nesting]
          refine ⟨_,stepped',⟨ready',⟨abreast.right.opened,stands'.sound⟩,stands'.position.trans stands.position.symm,
            stands'.start,?_,nesting⟩,stands'.rest⟩
          exact congrArg (fun nesting => expectingAfter nesting token) nesting

theorem walkNear {c d : Cursor} {ts : List Token} (walk : Walk c ts d) (ready : c.Ready) :
    d.Ready ∧ ∃ front, c.input.rest = front ++ d.input.rest ∧ d.input.position = c.input.position + front.length ∧
      ∀ c' more', Abreast c c' → c'.input.rest = front ++ more' → d.input.rest.head? = more'.head? →
        ∃ d', Walk c' ts d' ∧ Abreast d d' ∧ d'.input.rest = more' := by
  induction walk with
  | nil => exact ⟨ready,[],rfl,rfl,fun c' more' abreast rest _ => ⟨c',.nil,abreast,rest⟩⟩
  | cons stepped _ ih =>
      obtain ⟨taken,rest,position,near⟩ := nextNear ready stepped
      obtain ⟨ready',front,rest',position',near'⟩ := ih (nextOnward ready stepped).1
      refine ⟨ready',taken ++ front,?_,?_,fun c' more' abreast same head => ?_⟩
      · rw [rest,rest',List.append_assoc]
      · rw [position',position,List.length_append,Nat.add_assoc]
      · rw [List.append_assoc] at same
        obtain ⟨d',stepped',abreast,same⟩ := near c' _ abreast same (by rw [rest']; exact Text.headAppend head)
        obtain ⟨e',walk',abreast,same⟩ := near' d' more' abreast same head
        exact ⟨e',.cons stepped' walk',abreast,same⟩

end Cursor
end AuditLog
