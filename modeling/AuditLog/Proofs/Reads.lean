import AuditLog.Proofs.Chunking
import AuditLog.Proofs.Numbers

/-! The parts of a step of the lexer, against the grammar: blanks, values, keys, separators and the
ends of containers. Each comes twice, as in the grammar of lexemes: what the text has is read, and
what is read the text has. -/
namespace AuditLog
open Reading

namespace Grammar

inductive Lexeme : Token → Text → Prop where
  | openObject : Lexeme (.opening .object) [0x7B]
  | openArray : Lexeme (.opening .array) [0x5B]
  | closeObject : Lexeme (.closing .object) [0x7D]
  | closeArray : Lexeme (.closing .array) [0x5D]
  | field {q name} (quotation : Quotation q name) : Lexeme (.field name) q
  | string {q t} (quotation : Quotation q t) : Lexeme (.scalar (.string t)) q
  | number {t} (number : Number t) : Lexeme (.scalar (.number t)) t
  | yes : Lexeme (.scalar .yes) (Text.of "true")
  | no : Lexeme (.scalar .no) (Text.of "false")
  | null : Lexeme (.scalar .null) (Text.of "null")

def StartsValue : Token → Prop
  | .opening _ => True
  | .scalar _ => True
  | _ => False

def Stops : Token → Text → Prop
  | .scalar (.number _), more => Delimited more
  | _, _ => True

/-- Which tokens may stand where, and the separator due before them. -/
inductive Fits : Lexer.Expecting → Option Container → Token → Option CodeUnit → Prop where
  | root {inside token} (starts : StartsValue token) : Fits .root inside token none
  | firstItem {inside token} (starts : StartsValue token) : Fits .elementOrEnd inside token none
  | noItem {inside} : Fits .elementOrEnd inside (.closing .array) none
  | firstMember {inside name} : Fits .memberOrEnd inside (.field name) none
  | noMember {inside} : Fits .memberOrEnd inside (.closing .object) none
  | value {inside token} (starts : StartsValue token) : Fits .colon inside token (some 0x3A)
  | item {token} (starts : StartsValue token) : Fits .commaOrEnd (some .array) token (some 0x2C)
  | lastItem : Fits .commaOrEnd (some .array) (.closing .array) none
  | member {name} : Fits .commaOrEnd (some .object) (.field name) (some 0x2C)
  | lastMember : Fits .commaOrEnd (some .object) (.closing .object) none
  | loose {token} (starts : StartsValue token) : Fits .commaOrEnd none token (some 0x2C)

inductive Gap (position : Nat) : Option CodeUnit → Text → Prop where
  | blank {w} (margin : Margin position w) : Gap position none w
  | separated {w u w'} (margin : Margin position w) (blank : Blank w') : Gap position (some u) (w ++ u :: w')

theorem lexemeHead {token : Token} {source : Text} (lexeme : Lexeme token source) :
    ∃ u rest, source = u :: rest ∧ u ∉ spaces ∧ u ≠ 0xFEFF ∧ (StartsValue token → u ≠ 0x5D) := by
  cases lexeme with
  | openObject => exact ⟨_,_,rfl,by decide,by decide,fun _ => by decide⟩
  | openArray => exact ⟨_,_,rfl,by decide,by decide,fun _ => by decide⟩
  | closeObject => exact ⟨_,_,rfl,by decide,by decide,nofun⟩
  | closeArray => exact ⟨_,_,rfl,by decide,by decide,nofun⟩
  | field quotation => cases quotation; exact ⟨_,_,rfl,by decide,by decide,nofun⟩
  | string quotation => cases quotation; exact ⟨_,_,rfl,by decide,by decide,fun _ => by decide⟩
  | yes => exact ⟨_,_,rfl,by decide,by decide,fun _ => by decide⟩
  | no => exact ⟨_,_,rfl,by decide,by decide,fun _ => by decide⟩
  | null => exact ⟨_,_,rfl,by decide,by decide,fun _ => by decide⟩
  | number number =>
      cases source with
      | nil => exact absurd number Lexer.numberNotNil
      | cons u rest =>
          obtain ⟨first,_⟩ := Lexer.numberCons.mp number
          refine ⟨u,rest,rfl,?_,?_,fun _ => ?_⟩
          · intro space
            simp only [spaces,List.mem_cons,List.not_mem_nil,or_false] at space
            rcases space with rfl | rfl | rfl | rfl <;> revert first <;> decide
          · intro same
            subst same
            revert first
            decide
          · intro same
            subst same
            revert first
            decide

theorem lexemeFirm {token : Token} {source : Text} (lexeme : Lexeme token source) (more : Text) :
    Firm (source ++ more) := by
  obtain ⟨u,rest,rfl,solid,notMark,_⟩ := lexemeHead lexeme
  intro v rest' same
  cases same
  exact ⟨solid,notMark⟩

end Grammar

theorem Reading.okBind {σ α β : Type} {unread : σ → Nat} {r : Reading σ unread α} {f : α → Reading σ unread β}
    {s s' : σ} {b : β} (h : (r >>= f).run s = (.ok b,s')) :
    ∃ a m, r.run s = (.ok a,m) ∧ (f a).run m = (.ok b,s') := by
  rw [runBind] at h
  cases ran : r.run s with
  | mk result m =>
      rw [ran] at h
      cases result with
      | error fault => cases h
      | ok a => exact ⟨a,m,rfl,h⟩

namespace Lexer
open Grammar

variable {σ α : Type}

structure Lexing.Stands (l : Lexing) (start position : Nat) (t : Text) : Prop where
  sound : l.input.Sound
  start : l.start = start
  position : l.input.position = position
  rest : l.input.rest = t

variable {l l' : Lexing} {start position : Nat} {t more : Text}

theorem scanStands (m : Scanner σ α) (state : σ) (h : l.Stands start position t) :
    ∃ l', (scan m state).run l = (.ok (m.flat state position t).1,l') ∧
      l'.Stands start (m.flat state position t).2.1 (m.flat state position t).2.2 := by
  obtain ⟨input,ran,sound,place,rest⟩ := Scanner.runSound m state h.sound
  rw [h.position,h.rest] at ran place rest
  exact ⟨⟨input,l.start⟩,by simp only [scan,ran],sound,h.start,place,rest⟩

theorem scanRead {m : Scanner σ α} {state : σ} {after : Nat} {a : α}
    (h : l.Stands start position t) (flat : m.flat state position t = (a,after,more)) :
    ∃ l', (scan m state).run l = (.ok a,l') ∧ l'.Stands start after more := by
  obtain ⟨l',ran,stands⟩ := scanStands m state h
  rw [flat] at ran stands
  exact ⟨l',ran,stands⟩

theorem scanFound {m : Scanner σ α} {state : σ} {a : α}
    (h : l.Stands start position t) (ran : (scan m state).run l = (.ok a,l')) :
    ∃ after more, m.flat state position t = (a,after,more) ∧ l'.Stands start after more := by
  obtain ⟨l'',same,stands⟩ := scanStands m state h
  rw [same] at ran
  cases ran
  exact ⟨_,_,rfl,stands⟩

theorem lexemeRead {m : Scanner σ (Except Malformed α)} {state : σ} {after : Nat} {a : α}
    (h : l.Stands start position t) (flat : m.flat state position t = (.ok a,after,more)) :
    ∃ l', (lexeme m state).run l = (.ok a,l') ∧ l'.Stands start after more := by
  obtain ⟨l',ran,stands⟩ := scanRead h flat
  exact ⟨l',by simp only [lexeme,runBind,ran]; rfl,stands⟩

theorem lexemeFound {m : Scanner σ (Except Malformed α)} {state : σ} {a : α} (h : l.Stands start position t)
    (ran : (lexeme m state).run l = (.ok a,l')) :
    ∃ after more, m.flat state position t = (.ok a,after,more) ∧ l'.Stands start after more := by
  obtain ⟨result,middle,scanned,finished⟩ := okBind ran
  obtain ⟨after,more,flat,stands⟩ := scanFound h scanned
  cases result with
  | error what => cases finished
  | ok b => cases finished; exact ⟨after,more,flat,stands⟩

theorem skipRead {w : Text} (h : l.Stands start position (w ++ more))
    (margin : Margin position w) (firm : Firm more) :
    ∃ l', skip.run l = (.ok (),l') ∧ l'.Stands (position + w.length) (position + w.length) more := by
  obtain ⟨m,ran,stands⟩ := scanRead h (blanksFlat margin firm)
  exact ⟨⟨m.input,m.input.position⟩,by simp only [skip,runBind,ran]; rfl,
    stands.sound,stands.position,stands.position,stands.rest⟩

theorem skipFound (h : l.Stands start position t)
    (ran : skip.run l = (.ok (),l')) :
    ∃ w more, t = w ++ more ∧ Margin position w ∧
      l'.Stands (position + w.length) (position + w.length) more := by
  obtain ⟨w,more,same,margin,flat⟩ := blanksFound t position
  obtain ⟨m,scanned,stands⟩ := scanRead h flat
  simp only [skip,runBind,scanned,mark,Prod.mk.injEq,true_and] at ran
  subst ran
  exact ⟨w,more,same,margin,stands.sound,stands.position,stands.position,stands.rest⟩

theorem leadFlat {u : CodeUnit} {lead' : Lead} (is : lead? u = some lead') (position : Nat) (more : Text) :
    lead.flat () position (u :: more) = (.ok lead',position + 1,more) := by
  simp only [Scanner.flat,lead,is]

theorem leadFound {after : Nat} {lead' : Lead}
    (found : lead.flat () position t = (.ok lead',after,more)) :
    ∃ u, t = u :: more ∧ after = position + 1 ∧ lead? u = some lead' := by
  cases t with
  | nil => cases found
  | cons u t =>
      cases is : lead? u with
      | none => simp [Scanner.flat,lead,is,missing] at found
      | some other =>
          rw [leadFlat is] at found
          cases found
          exact ⟨u,rfl,rfl,is⟩

theorem leadNumber {u : CodeUnit} : lead? u = some (.number u) ↔ u = 0x2D ∨ Text.isDigit u = true := by
  constructor
  · intro h
    unfold lead? at h
    repeat' split at h
    all_goals first | (cases h; done) | skip
    rename_i first
    simpa using first
  · intro first
    have apart (v : CodeUnit) (other : ¬ (v = 0x2D ∨ Text.isDigit v = true)) : u ≠ v :=
      fun same => other (same ▸ first)
    simp only [lead?,apart 0x7B (by decide),apart 0x5B (by decide),apart 0x22 (by decide),apart 0x74 (by decide),
      apart 0x66 (by decide),apart 0x6E (by decide),Bool.or_eq_true,decide_eq_true_eq,first,if_true,if_false]

theorem leadUnit {u : CodeUnit} {lead' : Lead} (is : lead? u = some lead') :
    (u,lead') ∈ [((0x7B : CodeUnit),Lead.whole (.opening .object)),(0x5B,.whole (.opening .array)),(0x22,.quote),
      (0x74,.word .yes),(0x66,.word .no),(0x6E,.word .null),(u,.number u)] := by
  unfold lead? at is
  repeat' split at is
  all_goals first | (cases is; done) | skip
  all_goals cases is; simp [*]

theorem quotedRead {s : Text} (inside : Spelling s t)
    (h : l.Stands start position (s ++ 0x22 :: more)) (opening : Nat) :
    ∃ l', (lexeme (string opening) (.plain [])).run l = (.ok t,l') ∧
      l'.Stands start (position + s.length + 1) more := by
  refine lexemeRead h ?_
  rw [stringFlat opening inside]; rfl

theorem quotedFound {opening : Nat} {d : Text} (h : l.Stands start position t)
    (ran : (lexeme (string opening) (.plain [])).run l = (.ok d,l')) :
    ∃ s more, t = s ++ 0x22 :: more ∧ Spelling s d ∧ l'.Stands start (position + s.length + 1) more := by
  obtain ⟨after,more,flat,stands⟩ := lexemeFound h ran
  obtain ⟨s,same,rfl,e,spelling,rfl⟩ := stringFound flat
  exact ⟨s,more,same,spelling,stands⟩

theorem wordRead {scalar : Scalar} (left : scalar.text.drop 1 ≠ [])
    (h : l.Stands start position (scalar.text.drop 1 ++ more)) (opening : Nat) :
    ∃ l', (lexeme (word scalar opening) (scalar.text.drop 1)).run l = (.ok (),l') ∧
      l'.Stands start (position + (scalar.text.drop 1).length) more :=
  lexemeRead h (wordFlat scalar opening left)

theorem wordLexeme {opening : Nat} {scalar : Scalar} (left : scalar.text.drop 1 ≠ [])
    (h : l.Stands start position t)
    (ran : (lexeme (word scalar opening) (scalar.text.drop 1)).run l = (.ok (),l')) :
    ∃ more, t = scalar.text.drop 1 ++ more ∧ l'.Stands start (position + (scalar.text.drop 1).length) more := by
  obtain ⟨after,more,flat,stands⟩ := lexemeFound h ran
  obtain ⟨same,rfl⟩ := wordFound scalar opening left flat
  exact ⟨more,same,stands⟩

theorem wordParts {scalar : Scalar} {u : CodeUnit} (is : lead? u = some (.word scalar)) :
    scalar.text.drop 1 ≠ [] ∧ scalar.text = u :: scalar.text.drop 1 ∧ Lexeme (.scalar scalar) scalar.text := by
  have among := leadUnit is
  simp only [List.mem_cons,Prod.mk.injEq,reduceCtorEq,and_false,Lead.word.injEq,List.not_mem_nil,false_or,
    or_false] at among
  rcases among with ⟨rfl,rfl⟩ | ⟨rfl,rfl⟩ | ⟨rfl,rfl⟩
  · exact ⟨by decide,by decide,.yes⟩
  · exact ⟨by decide,by decide,.no⟩
  · exact ⟨by decide,by decide,.null⟩

theorem wholeParts {u : CodeUnit} {token : Token} (is : lead? u = some (.whole token)) :
    Lexeme token [u] ∧ StartsValue token := by
  have among := leadUnit is
  simp only [List.mem_cons,Prod.mk.injEq,reduceCtorEq,and_false,Lead.whole.injEq,List.not_mem_nil,
    or_false] at among
  rcases among with ⟨rfl,rfl⟩ | ⟨rfl,rfl⟩
  · exact ⟨.openObject,trivial⟩
  · exact ⟨.openArray,trivial⟩

theorem quoteUnit {u : CodeUnit} (is : lead? u = some .quote) : u = 0x22 := by
  simpa using leadUnit is

theorem numberUnit {u first : CodeUnit} (is : lead? u = some (.number first)) :
    first = u ∧ (u = 0x2D ∨ Text.isDigit u = true) := by
  have same : first = u := by simpa using leadUnit is
  exact ⟨same,leadNumber.mp (same ▸ is)⟩

theorem afterLeadFound {u : CodeUnit} {lead' : Lead} {token : Token} (is : lead? u = some lead')
    (h : l.Stands start (position + 1) t) (ran : (afterLead lead').run l = (.ok token,l')) :
    ∃ source more, u :: t = source ++ more ∧ Lexeme token source ∧ StartsValue token ∧
      l'.Stands start (position + source.length) more := by
  cases lead' with
  | whole token' =>
      cases ran
      obtain ⟨lexeme,starts⟩ := wholeParts is
      exact ⟨[u],t,rfl,lexeme,starts,h⟩
  | quote =>
      obtain ⟨_,_,looked,ran⟩ := okBind ran
      cases looked
      obtain ⟨d,m,read,done⟩ := okBind ran
      cases done
      obtain ⟨s,more,rfl,spelling,stands⟩ := quotedFound h read
      refine ⟨0x22 :: s ++ [0x22],more,by simp [quoteUnit is],.string (.marks spelling),trivial,?_⟩
      rw [oneFurther,Nat.add_assoc] at stands
      simpa using stands
  | word scalar =>
      obtain ⟨_,_,looked,ran⟩ := okBind ran
      cases looked
      obtain ⟨_,m,read,done⟩ := okBind ran
      cases done
      obtain ⟨left,spelt,lexeme⟩ := wordParts is
      obtain ⟨more,same,stands⟩ := wordLexeme left h read
      refine ⟨scalar.text,more,by rw [spelt,same]; rfl,lexeme,trivial,?_⟩
      rw [oneFurther] at stands
      rw [spelt]; exact stands
  | number first =>
      obtain ⟨d,m,read,done⟩ := okBind ran
      cases done
      obtain ⟨rfl,leads⟩ := numberUnit is
      obtain ⟨after,more,flat,stands⟩ := lexemeFound h read
      obtain ⟨s,rfl,rfl,tail,rfl⟩ := numberFound flat
      refine ⟨first :: s,more,rfl,.number (numberCons.mpr ⟨leads,tail⟩),trivial,?_⟩
      rwa [oneFurther] at stands

theorem valueFound {token : Token} (h : l.Stands start position t)
    (ran : value.run l = (.ok token,l')) :
    ∃ source more, t = source ++ more ∧ Lexeme token source ∧ StartsValue token ∧
      l'.Stands start (position + source.length) more := by
  obtain ⟨lead',m,first,ran⟩ := okBind ran
  obtain ⟨after,more,flat,stands⟩ := lexemeFound h first
  obtain ⟨u,rfl,rfl,is⟩ := leadFound flat
  exact afterLeadFound is stands ran

theorem lexemeLead {token : Token} {source : Text} (lexeme : Lexeme token source) (starts : StartsValue token) :
    ∃ u rest lead', source = u :: rest ∧ lead? u = some lead' ∧
      ∀ (l : Lexing) (start position : Nat) (more : Text),
      Stops token more → l.Stands start (position + 1) (rest ++ more) →
        ∃ l', (afterLead lead').run l = (.ok token,l') ∧ l'.Stands start (position + source.length) more := by
  have word (u : CodeUnit) {scalar : Scalar} (is : lead? u = some (.word scalar)) {l : Lexing}
      {start position : Nat} {more : Text} (h : l.Stands start (position + 1) (scalar.text.drop 1 ++ more)) :
      ∃ l', (afterLead (.word scalar)).run l = (.ok (.scalar scalar),l') ∧
        l'.Stands start (position + scalar.text.length) more := by
    obtain ⟨left,spelt,_⟩ := wordParts is
    obtain ⟨l',ran,stands⟩ := wordRead left h l.start
    refine ⟨l',by simp only [afterLead,runBind,runState,ran]; rfl,?_⟩
    rw [oneFurther] at stands
    rw [spelt]; exact stands
  cases lexeme with
  | openObject => exact ⟨_,_,_,rfl,rfl,fun l start position more _ h => ⟨l,rfl,h⟩⟩
  | openArray => exact ⟨_,_,_,rfl,rfl,fun l start position more _ h => ⟨l,rfl,h⟩⟩
  | closeObject => cases starts
  | closeArray => cases starts
  | field quotation => cases starts
  | yes => exact ⟨_,_,_,rfl,rfl,fun l start position more _ h => word 0x74 rfl h⟩
  | no => exact ⟨_,_,_,rfl,rfl,fun l start position more _ h => word 0x66 rfl h⟩
  | null => exact ⟨_,_,_,rfl,rfl,fun l start position more _ h => word 0x6E rfl h⟩
  | string quotation =>
      cases quotation with
      | @marks s t inside =>
          refine ⟨0x22,s ++ [0x22],_,rfl,rfl,fun l start position more _ h => ?_⟩
          rw [List.append_assoc,List.singleton_append] at h
          obtain ⟨l',ran,stands⟩ := quotedRead inside h l.start
          refine ⟨l',by simp only [afterLead,runBind,runState,ran]; rfl,?_⟩
          rw [oneFurther,Nat.add_assoc] at stands
          simpa using stands
  | number number =>
      cases source with
      | nil => exact absurd number numberNotNil
      | cons u s =>
          obtain ⟨leads,tail⟩ := numberCons.mp number
          refine ⟨u,s,_,rfl,leadNumber.mpr leads,fun l start position more stops h => ?_⟩
          obtain ⟨l',ran,stands⟩ := lexemeRead h (numberFlat tail stops [u] _)
          refine ⟨l',by simp only [afterLead,runBind,ran]; rfl,?_⟩
          rwa [oneFurther] at stands

theorem valueRead {source : Text} {token : Token}
    (h : l.Stands start position (source ++ more)) (lexeme : Lexeme token source) (starts : StartsValue token)
    (stops : Stops token more) :
    ∃ l', value.run l = (.ok token,l') ∧ l'.Stands start (position + source.length) more := by
  obtain ⟨u,rest,lead',rfl,is,goes⟩ := lexemeLead lexeme starts
  obtain ⟨m,first,stands⟩ := lexemeRead h (leadFlat is position (rest ++ more))
  obtain ⟨l',ran,stands⟩ := goes m start position more stops stands
  exact ⟨l',by simp only [value,runBind,first]; exact ran,stands⟩

theorem separatorRead (wanted : Wanted) {unit : CodeUnit} (h : l.Stands start position (unit :: more)) :
    ∃ l', (lexeme (separator wanted unit) ()).run l = (.ok (),l') ∧ l'.Stands start (position + 1) more :=
  lexemeRead h (by simp [Scanner.flat,separator])

theorem separatorFound {wanted : Wanted} {unit : CodeUnit} (h : l.Stands start position t)
    (ran : (lexeme (separator wanted unit) ()).run l = (.ok (),l')) :
    ∃ more, t = unit :: more ∧ l'.Stands start (position + 1) more := by
  obtain ⟨after,more,flat,stands⟩ := lexemeFound h ran
  cases t with
  | nil => cases flat
  | cons u t =>
      by_cases same : u = unit
      · subst same
        simp only [Scanner.flat,separator,if_true,Prod.mk.injEq,true_and] at flat
        obtain ⟨rfl,rfl⟩ := flat
        exact ⟨t,rfl,stands⟩
      · simp [Scanner.flat,separator,same,missing] at flat

theorem keyRead {source : Text} {name : Text} (h : l.Stands start position (source ++ more))
    (quotation : Quotation source name) :
    ∃ l', key.run l = (.ok (.field name),l') ∧ l'.Stands start (position + source.length) more := by
  cases quotation with
  | @marks s _ inside =>
      rw [List.append_assoc,List.singleton_append] at h
      obtain ⟨m,opened,stands⟩ := separatorRead .fieldName h
      obtain ⟨l',ran,stands⟩ := quotedRead inside stands m.start
      refine ⟨l',by simp only [key,openingQuote,runBind,opened,runState,ran]; rfl,?_⟩
      rw [oneFurther,Nat.add_assoc] at stands
      simpa using stands

theorem keyFound {token : Token} (h : l.Stands start position t)
    (ran : key.run l = (.ok token,l')) :
    ∃ name source more, token = .field name ∧ t = source ++ more ∧ Quotation source name ∧
      l'.Stands start (position + source.length) more := by
  obtain ⟨_,m,opened,ran⟩ := okBind ran
  obtain ⟨_,_,looked,ran⟩ := okBind ran
  cases looked
  obtain ⟨name,m',read,done⟩ := okBind ran
  cases done
  obtain ⟨t,rfl,stands⟩ := separatorFound h opened
  obtain ⟨s,more,rfl,spelling,stands⟩ := quotedFound stands read
  refine ⟨name,0x22 :: s ++ [0x22],more,rfl,by simp,.marks spelling,?_⟩
  rw [oneFurther,Nat.add_assoc] at stands
  simpa using stands

theorem atEndFound {ended : Bool} (h : l.Stands start position t)
    (ran : atEnd.run l = (.ok ended,l')) : ended = t.isEmpty ∧ l'.Stands start position t := by
  obtain ⟨after,more,flat,stands⟩ := scanFound h ran
  cases t <;> cases flat <;> exact ⟨rfl,stands⟩

theorem atEndRead (h : l.Stands start position t) :
    ∃ l', atEnd.run l = (.ok t.isEmpty,l') ∧ l'.Stands start position t :=
  scanRead h (by cases t <;> rfl)

def closer : Container → CodeUnit
  | .object => 0x7D
  | .array => 0x5D

theorem orCloseShut (container : Container) (otherwise : Lexer Token)
    (h : l.Stands start position (closer container :: more)) :
    ∃ l', (orClose container otherwise).run l = (.ok (.closing container),l') ∧
      l'.Stands start (position + 1) more := by
  obtain ⟨l',ran,stands⟩ : ∃ l', (accept (closer container)).run l = (.ok true,l') ∧
      l'.Stands start (position + 1) more := scanRead h (by simp [Scanner.flat])
  refine ⟨l',?_,stands⟩
  cases container <;> (simp only [closer] at ran; simp only [orClose,runBind,ran]; rfl)

theorem orCloseOpen {container : Container} (otherwise : Lexer Token) (h : l.Stands start position t)
    (other : ∀ rest, t ≠ closer container :: rest) :
    ∃ m, m.Stands start position t ∧ (orClose container otherwise).run l = otherwise.run m := by
  have flat : (Scanner.mk (fun _ _ u => if u = closer container then .finish true else .leave false)
      (fun _ _ => false) : Scanner Unit Bool).flat () position t = (false,position,t) := by
    cases t with
    | nil => rfl
    | cons u t =>
        have apart : u ≠ closer container := fun same => other t (by rw [same])
        simp [Scanner.flat,apart]
  obtain ⟨m,ran,stands⟩ : ∃ m, (accept (closer container)).run l = (.ok false,m) ∧ m.Stands start position t :=
    scanRead h flat
  refine ⟨m,stands,?_⟩
  cases container <;> (simp only [closer] at ran; simp only [orClose,runBind,ran]; rfl)

theorem orCloseFound {container : Container} {otherwise : Lexer Token} {token : Token}
    (h : l.Stands start position t) (ran : (orClose container otherwise).run l = (.ok token,l')) :
    (∃ more, t = closer container :: more ∧ token = .closing container ∧ l'.Stands start (position + 1) more) ∨
      ∃ m, m.Stands start position t ∧ otherwise.run m = (.ok token,l') := by
  by_cases shut : ∃ more, t = closer container :: more
  · obtain ⟨more,rfl⟩ := shut
    obtain ⟨m,closed,stands⟩ := orCloseShut container otherwise h
    rw [closed] at ran
    cases ran
    exact .inl ⟨more,rfl,rfl,stands⟩
  · obtain ⟨m,stands,same⟩ := orCloseOpen otherwise h (fun rest is => shut ⟨rest,is⟩)
    exact .inr ⟨m,stands,same ▸ ran⟩

theorem separatedRead {α : Type} (wanted : Wanted) {unit : CodeUnit} {w : Text} (next : Lexer α)
    (h : l.Stands start position (unit :: w ++ more)) (blank : Blank w) (firm : Firm more) :
    ∃ m, m.Stands (position + 1 + w.length) (position + 1 + w.length) more ∧
      (lexeme (separator wanted unit) () >>= fun _ => skip >>= fun _ => next).run l = next.run m := by
  obtain ⟨m,separated,stands⟩ := separatorRead wanted h
  obtain ⟨m',skipped,stands⟩ := skipRead stands (.inl blank) firm
  exact ⟨m',stands,by simp only [runBind,separated,skipped]⟩

theorem separatedFound {α : Type} {wanted : Wanted} {unit : CodeUnit} {next : Lexer α} {a : α}
    (h : l.Stands start position t)
    (ran : (lexeme (separator wanted unit) () >>= fun _ => skip >>= fun _ => next).run l = (.ok a,l')) :
    ∃ w more m, t = unit :: w ++ more ∧ Blank w ∧
      m.Stands (position + 1 + w.length) (position + 1 + w.length) more ∧ next.run m = (.ok a,l') := by
  obtain ⟨_,m,separated,ran⟩ := okBind ran
  obtain ⟨_,m',skipped,ran⟩ := okBind ran
  obtain ⟨t,rfl,stands⟩ := separatorFound h separated
  obtain ⟨w,more,rfl,margin,stands⟩ := skipFound stands skipped
  exact ⟨w,more,m',rfl,marginInside margin (Nat.succ_pos _),stands,ran⟩

end Lexer
end AuditLog
