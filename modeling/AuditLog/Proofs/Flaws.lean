import AuditLog.Proofs.Guards

/-! Where a syntax fault points. The text before its place begins something that may come next, and the flaw
either tells of what stands at that place or of a lexeme that began there. -/
namespace AuditLog
open Reading Grammar

namespace SyntaxFlaw

def Met : SyntaxFlaw → Text → Prop
  | .expected _ found, left => found = left.head?
  | .trailing, left => left ≠ []
  | .control, left => left ≠ []
  | _, _ => False

def Begun : SyntaxFlaw → Prop
  | .unterminated => True
  | .escape _ => True
  | .hexEscape => True
  | .literal _ => True
  | _ => False

end SyntaxFlaw

namespace Lexer

inductive Blames (opens : Text → Prop) (position : Nat) (t : Text) : Malformed → (left : Text) → Prop where
  | met {g left flaw} (whole : t = g ++ left) (opened : opens g) (met : flaw.Met left) :
      Blames opens position t ⟨flaw,position + g.length⟩ left
  | begun {g more left flaw} (whole : t = g ++ more) (opened : opens g) (begun : flaw.Begun) :
      Blames opens position t ⟨flaw,position + g.length⟩ left

section
variable {α : Type} {opens opens' : Text → Prop} {position start : Nat} {t front left : Text}
  {l l' : Lexing} {fault : Fault}

def Blaming (opens : Text → Prop) (position : Nat) (t : Text) (fault : Fault) (left : Text) : Prop :=
  ∃ what, fault = .malformed what ∧ Blames opens position t what left

theorem blamesHere {flaw : SyntaxFlaw} (opened : opens []) (met : flaw.Met t) :
    Blaming opens position t (.malformed ⟨flaw,position⟩) t :=
  ⟨_,rfl,.met rfl opened met⟩

theorem begunHere {flaw : SyntaxFlaw} (opened : opens []) (begun : flaw.Begun) :
    Blaming opens position t (.malformed ⟨flaw,position⟩) left :=
  ⟨_,rfl,.begun rfl opened begun⟩

theorem blamesBehind (blaming : Blaming opens (position + front.length) t fault left)
    (further : ∀ g, opens g → opens' (front ++ g)) : Blaming opens' position (front ++ t) fault left := by
  obtain ⟨what,rfl,blames⟩ := blaming
  have place (g : Text) : position + front.length + g.length = position + (front ++ g).length := by
    rw [List.length_append,Nat.add_assoc]
  refine ⟨what,rfl,?_⟩
  cases blames with
  | met whole opened met =>
      rw [whole,← List.append_assoc,place]
      exact .met rfl (further _ opened) met
  | begun whole opened begun =>
      rw [whole,← List.append_assoc,place]
      exact .begun rfl (further _ opened) begun

theorem lexemeFailed {σ : Type} {m : Scanner σ (Except Malformed α)} {state : σ} (h : l.Stands start position t)
    (ran : (lexeme m state).run l = (.error fault,l')) :
    ∃ what after more, m.flat state position t = (.error what,after,more) ∧ fault = .malformed what ∧
      l'.Stands start after more := by
  obtain ⟨middle,scanned,stands⟩ := scanStands m state h
  simp only [lexeme,runBind,scanned] at ran
  generalize m.flat state position t = found at ran stands
  obtain ⟨result,after,more⟩ := found
  cases result with
  | ok a => cases ran
  | error what => cases ran; exact ⟨what,after,more,rfl,rfl,stands⟩

/-! Strings. -/

def StringState.place? : StringState → Option Nat
  | .plain _ => none
  | .escaped _ place => some place
  | .hex _ place _ _ => some place

inductive Strays (opening position : Nat) (state : StringState) (t : Text) (more : Text) : Malformed → Prop where
  | unterminated : Strays opening position state t more ⟨.unterminated,opening⟩
  | escape {place flaw} (escaped : state.place? = some place) (begun : flaw.Begun) :
      Strays opening position state t more ⟨flaw,place⟩
  | nested {s d rest flaw} (whole : t = s ++ rest) (awaited : Awaited state s d) (begun : flaw.Begun) :
      Strays opening position state t more ⟨flaw,position + s.length⟩
  | control {s d} (whole : t = s ++ more) (awaited : Awaited state s d) (control : SyntaxFlaw.control.Met more) :
      Strays opening position state t more ⟨.control,position + s.length⟩

theorem awaitedPlain (taken : Text) : Awaited (.plain taken) [] taken.reverse :=
  ⟨[],.nil,(List.append_nil _).symm⟩

theorem straysTake {opening : Nat} {state next : StringState} {u : CodeUnit} {more : Text} {what : Malformed}
    (step : (string opening).step position state u = .take next)
    (strays : Strays opening (position + 1) next t more what) : Strays opening position state (u :: t) more what := by
  cases strays with
  | unterminated => exact .unterminated
  | @escape place flaw escaped begun =>
      cases state with
      | plain taken =>
          simp only [string] at step
          repeat' split at step
          all_goals cases step
          · cases escaped
            exact .nested rfl (awaitedPlain taken) begun
          · cases escaped
      | escaped taken place' =>
          simp only [string] at step
          repeat' split at step
          all_goals cases step
          · exact .escape escaped begun
          · cases escaped
      | hex taken place' more' value =>
          simp only [string] at step
          repeat' split at step
          all_goals cases step
          · cases escaped
          · exact .escape escaped begun
  | nested whole awaited begun =>
      rw [whole,oneFurther]
      exact .nested rfl (awaitedTake step awaited) begun
  | control whole awaited control =>
      rw [whole,oneFurther]
      exact .control rfl (awaitedTake step awaited) control

theorem stringStrays {opening after : Nat} {state : StringState} {more : Text} {what : Malformed}
    (found : (string opening).flat state position t = (.error what,after,more)) :
    Strays opening position state t more what := by
  induction t generalizing state position with
  | nil =>
      cases state <;> cases found
      · exact .unterminated
      · exact .escape rfl trivial
      · exact .escape rfl trivial
  | cons u t ih =>
      cases step : (string opening).step position state u with
      | take next =>
          simp only [Scanner.flat,step] at found
          exact straysTake step (ih found)
      | finish result =>
          simp only [Scanner.flat,step] at found
          cases found
          cases state <;> simp only [string] at step <;> repeat' split at step
          all_goals cases step
          exact .escape rfl trivial
      | leave result =>
          simp only [Scanner.flat,step] at found
          cases found
          cases state <;> simp only [string] at step <;> repeat' split at step
          all_goals cases step
          · exact .control rfl (awaitedPlain _) (List.cons_ne_nil _ _)
          · exact .escape rfl trivial

def QuotationOpens (g : Text) : Prop := ∃ e d, Quotation (g ++ e) d

theorem quotationOpens : QuotationOpens [] := ⟨[0x22,0x22],[],.marks .nil⟩

theorem spellingOpens {s d : Text} (spelling : Spelling s d) : QuotationOpens (0x22 :: s) :=
  ⟨[0x22],d,.marks spelling⟩

theorem quotedFailed (h : l.Stands start (position + 1) t)
    (ran : (lexeme (string position) (.plain [])).run l = (.error fault,l')) :
    Blaming QuotationOpens position (0x22 :: t) fault l'.input.rest := by
  obtain ⟨what,after,more,flat,rfl,stands⟩ := lexemeFailed h ran
  refine ⟨what,rfl,?_⟩
  cases stringStrays flat with
  | unterminated => exact .begun rfl quotationOpens trivial
  | escape escaped _ => cases escaped
  | nested whole awaited begun =>
      obtain ⟨e,spelling,_⟩ := awaited
      rw [whole,oneFurther]
      exact .begun rfl (spellingOpens spelling) begun
  | control whole awaited control =>
      obtain ⟨e,spelling,_⟩ := awaited
      rw [whole,oneFurther,stands.rest]
      exact .met rfl (spellingOpens spelling) control

/-! Numbers, words, and the first unit of a value. -/

theorem incompleteTail {part : NumberPart} (incomplete : part.complete = false) : Tail part [0x30] := by
  rw [tailCons]
  cases part with
  | minus => exact ⟨.zero,rfl,(tailNil _).mpr rfl⟩
  | point => exact ⟨.fraction,rfl,(tailNil _).mpr rfl⟩
  | mark => exact ⟨.exponent,rfl,(tailNil _).mpr rfl⟩
  | sign => exact ⟨.exponent,rfl,(tailNil _).mpr rfl⟩
  | _ => cases incomplete

theorem numberEndFails {part : NumberPart} {taken : Text} {found : Option CodeUnit} {what : Malformed}
    (ends : numberEnd part taken found position = .error what) :
    what = ⟨.expected .digit found,position⟩ ∧ Tail part [0x30] := by
  unfold numberEnd at ends
  split at ends
  · cases ends
  · cases ends
    exact ⟨rfl,incompleteTail (Bool.eq_false_iff.mpr ‹_›)⟩

theorem numberFails {part : NumberPart} {taken more : Text} {after : Nat} {what : Malformed}
    (found : number.flat (part,taken) position t = (.error what,after,more)) :
    ∃ s, t = s ++ more ∧ what = ⟨.expected .digit more.head?,position + s.length⟩ ∧
      Tail part (s ++ [0x30]) := by
  induction t generalizing part taken position with
  | nil =>
      simp only [Scanner.flat,number,Prod.mk.injEq] at found
      obtain ⟨ends,_,rfl⟩ := found
      obtain ⟨rfl,tail⟩ := numberEndFails ends
      exact ⟨[],rfl,rfl,tail⟩
  | cons u t ih =>
      cases goes : part.next? u with
      | none =>
          simp only [Scanner.flat,number,goes,Prod.mk.injEq] at found
          obtain ⟨ends,_,rfl⟩ := found
          obtain ⟨rfl,tail⟩ := numberEndFails ends
          exact ⟨[],rfl,rfl,tail⟩
      | some next =>
          have step : number.step position (part,taken) u = .take (next,u :: taken) := by simp only [number,goes]
          simp only [Scanner.flat,step] at found
          obtain ⟨s,rfl,rfl,tail⟩ := ih found
          refine ⟨u :: s,rfl,?_,(tailCons part u _).mpr ⟨next,goes,tail⟩⟩
          rw [List.length_cons,oneFurther]

theorem wordFails {scalar : Scalar} {opening after : Nat} {rest more : Text} {what : Malformed}
    (found : (word scalar opening).flat rest position t = (.error what,after,more)) :
    what = ⟨.literal scalar.text,opening⟩ := by
  induction t generalizing rest position with
  | nil => cases found; rfl
  | cons u t ih =>
      cases step : (word scalar opening).step position rest u with
      | take next =>
          simp only [Scanner.flat,step] at found
          exact ih found
      | finish result =>
          simp only [Scanner.flat,step] at found
          cases found
          simp only [word] at step
          repeat' split at step
          all_goals cases step
      | leave result =>
          simp only [Scanner.flat,step] at found
          cases found
          simp only [word] at step
          repeat' split at step
          all_goals cases step
          rfl

theorem leadFails {after : Nat} {more : Text} {what : Malformed}
    (found : lead.flat () position t = (.error what,after,more)) :
    what = ⟨.expected .value t.head?,position⟩ ∧ more = t := by
  cases t with
  | nil => cases found; exact ⟨rfl,rfl⟩
  | cons u t =>
      cases is : lead? u with
      | none =>
          simp only [Scanner.flat,lead,is] at found
          cases found
          exact ⟨rfl,rfl⟩
      | some lead' =>
          rw [leadFlat is] at found
          cases found

theorem separatorFails {wanted : Wanted} {unit : CodeUnit} {after : Nat} {more : Text} {what : Malformed}
    (found : (separator wanted unit).flat () position t = (.error what,after,more)) :
    what = ⟨.expected wanted t.head?,position⟩ ∧ more = t := by
  cases t with
  | nil => cases found; exact ⟨rfl,rfl⟩
  | cons u t =>
      simp only [Scanner.flat,separator] at found
      by_cases same : u = unit
      · simp only [if_pos same] at found
        cases found
      · simp only [if_neg same] at found
        cases found
        exact ⟨rfl,rfl⟩

/-! Values and keys. -/

def ValueOpens (g : Text) : Prop := ∃ e token, Lexeme token (g ++ e) ∧ StartsValue token

theorem valueOpens : ValueOpens [] := ⟨_,_,.null,trivial⟩

theorem afterLeadFailed {u : CodeUnit} {lead' : Lead} (is : lead? u = some lead')
    (h : l.Stands position (position + 1) t) (ran : (afterLead lead').run l = (.error fault,l')) :
    Blaming ValueOpens position (u :: t) fault l'.input.rest := by
  cases lead' with
  | whole token => cases ran
  | quote =>
      rcases errorBind ran with looked | ⟨k,_,looked,ran⟩
      · cases looked
      cases looked
      rcases errorBind ran with read | ⟨_,_,_,done⟩
      · rw [h.start] at read
        obtain ⟨what,rfl,blames⟩ := quotedFailed h read
        rw [quoteUnit is]
        have opened {g : Text} (opens : QuotationOpens g) : ValueOpens g := by
          obtain ⟨e,d,quotation⟩ := opens
          exact ⟨e,_,.string quotation,trivial⟩
        refine ⟨what,rfl,?_⟩
        cases blames with
        | met whole opens met => exact .met whole (opened opens) met
        | begun whole opens begun => exact .begun whole (opened opens) begun
      · cases done
  | word scalar =>
      rcases errorBind ran with looked | ⟨k,_,looked,ran⟩
      · cases looked
      cases looked
      rcases errorBind ran with read | ⟨_,_,_,done⟩
      · obtain ⟨what,after,more,flat,rfl,_⟩ := lexemeFailed h read
        rw [h.start] at flat
        cases wordFails flat
        exact begunHere valueOpens trivial
      · cases done
  | number first =>
      rcases errorBind ran with read | ⟨_,_,_,done⟩
      · obtain ⟨what,after,more,flat,rfl,stands⟩ := lexemeFailed h read
        obtain ⟨rfl,leads⟩ := numberUnit is
        obtain ⟨s,rfl,rfl,tail⟩ := numberFails flat
        refine ⟨_,rfl,?_⟩
        rw [oneFurther,stands.rest]
        have opened : ValueOpens (first :: s) := ⟨[0x30],_,.number (numberCons.mpr ⟨leads,tail⟩),trivial⟩
        exact .met rfl opened rfl
      · cases done

theorem valueFailed (h : l.Stands position position t) (ran : value.run l = (.error fault,l')) :
    Blaming ValueOpens position t fault l'.input.rest := by
  rcases errorBind ran with first | ⟨lead',m,first,ran⟩
  · obtain ⟨what,after,more,flat,rfl,stands⟩ := lexemeFailed h first
    obtain ⟨rfl,rfl⟩ := leadFails flat
    rw [stands.rest]
    exact blamesHere valueOpens rfl
  · obtain ⟨after,more,flat,stands⟩ := lexemeFound h first
    obtain ⟨u,rfl,rfl,is⟩ := leadFound flat
    exact afterLeadFailed is stands ran

theorem keyFailed (h : l.Stands position position t) (ran : key.run l = (.error fault,l')) :
    Blaming QuotationOpens position t fault l'.input.rest := by
  rcases errorBind ran with opened | ⟨_,m,opened,ran⟩
  · obtain ⟨what,after,more,flat,rfl,stands⟩ := lexemeFailed h opened
    obtain ⟨rfl,rfl⟩ := separatorFails flat
    rw [stands.rest]
    exact blamesHere quotationOpens rfl
  · obtain ⟨more,rfl,stands⟩ := separatorFound h opened
    rcases errorBind ran with looked | ⟨k,_,looked,ran⟩
    · cases looked
    cases looked
    rcases errorBind ran with read | ⟨_,_,_,done⟩
    · rw [stands.start] at read
      exact quotedFailed stands read
    · cases done

/-! What comes between. -/

theorem skipThen {f : Unit → Lexer α} {x : Except Fault α} (h : l.Stands start position t)
    (ran : (skip >>= f).run l = (x,l')) :
    ∃ w more m, t = w ++ more ∧ Margin position w ∧ m.Stands (position + w.length) (position + w.length) more ∧
      (f ()).run m = (x,l') := by
  obtain ⟨w,more,same,margin,flat⟩ := blanksFound t position
  obtain ⟨m,scanned,stands⟩ := scanRead h flat
  have skipped : skip.run l = (.ok (),⟨m.input,m.input.position⟩) := by simp only [skip,runBind,scanned]; rfl
  rw [runBind,skipped] at ran
  exact ⟨w,more,⟨m.input,m.input.position⟩,same,margin,
    ⟨stands.sound,stands.position,stands.position,stands.rest⟩,ran⟩

theorem atEndThen {f : Bool → Lexer α} {x : Except Fault α} (h : l.Stands start position t)
    (ran : (atEnd >>= f).run l = (x,l')) : ∃ m, m.Stands start position t ∧ (f t.isEmpty).run m = (x,l') := by
  obtain ⟨m,looked,stands⟩ := atEndRead h
  rw [runBind,looked] at ran
  exact ⟨m,stands,ran⟩

theorem orCloseFailed {container : Container} {otherwise : Lexer Token} (h : l.Stands start position t)
    (ran : (orClose container otherwise).run l = (.error fault,l')) :
    ∃ m, m.Stands start position t ∧ otherwise.run m = (.error fault,l') := by
  by_cases shut : ∃ more, t = closer container :: more
  · obtain ⟨more,rfl⟩ := shut
    obtain ⟨m,closed,_⟩ := orCloseShut container otherwise h
    rw [closed] at ran
    cases ran
  · obtain ⟨m,stands,same⟩ := orCloseOpen otherwise h (fun rest is => shut ⟨rest,is⟩)
    exact ⟨m,stands,same ▸ ran⟩

theorem separatedFailed {wanted : Wanted} {unit : CodeUnit} {next : Lexer α} (h : l.Stands start position t)
    (ran : (lexeme (separator wanted unit) () >>= fun _ => skip >>= fun _ => next).run l = (.error fault,l')) :
    (fault = .malformed ⟨.expected wanted t.head?,position⟩ ∧ l'.input.rest = t) ∨
      ∃ w more m, t = unit :: w ++ more ∧ Blank w ∧
        m.Stands (position + 1 + w.length) (position + 1 + w.length) more ∧ next.run m = (.error fault,l') := by
  rcases errorBind ran with failed | ⟨_,m,separated,ran⟩
  · obtain ⟨what,after,more,flat,rfl,stands⟩ := lexemeFailed h failed
    obtain ⟨rfl,rfl⟩ := separatorFails flat
    exact .inl ⟨rfl,stands.rest⟩
  · obtain ⟨t,rfl,stands⟩ := separatorFound h separated
    obtain ⟨w,more,m',rfl,margin,stands,ran⟩ := skipThen stands ran
    exact .inr ⟨w,more,m',rfl,marginInside margin (Nat.succ_pos _),stands,ran⟩

theorem someFailed {r : Lexer Token} (ran : (some <$> r).run l = (.error fault,l')) : r.run l = (.error fault,l') := by
  rcases errorBind ran with failed | ⟨_,_,_,done⟩
  · exact failed
  · cases done

end

inductive Opens (position : Nat) : Expecting → Option Container → Text → Prop where
  | token {expecting inside token separator gap source g e} (fits : Fits expecting inside token separator)
      (before : Gap position separator gap) (lexeme : Lexeme token source) (whole : g ++ e = gap ++ source) :
      Opens position expecting inside g
  | done {inside w} (margin : Margin position w) : Opens position .nothing inside w

section
variable {position start : Nat} {expecting : Expecting} {inside : Option Container} {token : Token} {unit : CodeUnit}
  {t w w' g e source : Text} {l l' : Lexing} {fault : Fault}

theorem opensPlain (margin : Margin position w) (fits : Fits expecting inside token none)
    (lexeme : Lexeme token (g ++ e)) : Opens position expecting inside (w ++ g) :=
  .token fits (.blank margin) lexeme (List.append_assoc ..)

theorem opensBehind (margin : Margin position w) (blank : Blank w') (fits : Fits expecting inside token (some unit))
    (lexeme : Lexeme token (g ++ e)) : Opens position expecting inside (w ++ unit :: w' ++ g) :=
  .token fits (.separated margin blank) lexeme (List.append_assoc ..)

theorem opensSeparator (margin : Margin position w) (fits : Fits expecting inside token (some unit))
    (lexeme : Lexeme token source) : Opens position expecting inside w :=
  .token fits (.separated margin blankNil) lexeme (List.append_assoc w [unit] source).symm

theorem opensClosing (margin : Margin position w) (fits : Fits expecting inside token none)
    (lexeme : Lexeme token source) : Opens position expecting inside w :=
  .token fits (.blank margin) lexeme rfl

theorem separatedBlames {α : Type} {wanted : Wanted} {next : Lexer α} {opens : Text → Prop} {more : Text}
    (stands : l.Stands (position + w.length) (position + w.length) more)
    (ran : (lexeme (separator wanted unit) () >>= fun _ => skip >>= fun _ => next).run l = (.error fault,l'))
    (here : Opens position expecting inside w)
    (behind : ∀ w' g, Blank w' → opens g → Opens position expecting inside (w ++ unit :: w' ++ g))
    (fails : ∀ {position t m}, m.Stands position position t → next.run m = (.error fault,l') →
      Blaming opens position t fault l'.input.rest) :
    Blaming (Opens position expecting inside) position (w ++ more) fault l'.input.rest := by
  rcases separatedFailed stands ran with ⟨rfl,rest⟩ | ⟨w',rest,m,rfl,blank,stands,ran⟩
  · rw [rest]
    exact ⟨_,rfl,.met rfl here rfl⟩
  · rw [← behindPlace] at stands
    have blaming := blamesBehind (fails stands ran) (fun g => behind w' g blank)
    rwa [List.append_assoc] at blaming

theorem tokenFailed (h : l.Stands start position t) (ran : (Lexer.token expecting inside).run l = (.error fault,l')) :
    Blaming (Opens position expecting inside) position t fault l'.input.rest := by
  obtain ⟨w,more,m,rfl,margin,stands,ran⟩ := skipThen h ran
  have null : StartsValue (.scalar .null) := trivial
  cases expecting with
  | nothing =>
      obtain ⟨m',stands,ran⟩ := atEndThen stands ran
      cases more with
      | nil => cases ran
      | cons u more =>
          cases ran
          rw [stands.position,stands.rest]
          exact ⟨_,rfl,.met rfl (.done margin) (List.cons_ne_nil _ _)⟩
  | root =>
      obtain ⟨m',stands,ran⟩ := atEndThen stands ran
      cases more with
      | nil => cases ran
      | cons u more =>
          refine blamesBehind (valueFailed stands (someFailed ran)) (fun g opens => ?_)
          obtain ⟨e,token,lexeme,starts⟩ := opens
          exact opensPlain margin (.root starts) lexeme
  | elementOrEnd =>
      obtain ⟨m',stands,ran⟩ := orCloseFailed stands (someFailed ran)
      refine blamesBehind (valueFailed stands ran) (fun g opens => ?_)
      obtain ⟨e,token,lexeme,starts⟩ := opens
      exact opensPlain margin (.firstItem starts) lexeme
  | memberOrEnd =>
      obtain ⟨m',stands,ran⟩ := orCloseFailed stands (someFailed ran)
      refine blamesBehind (keyFailed stands ran) (fun g opens => ?_)
      obtain ⟨e,name,quotation⟩ := opens
      exact opensPlain margin .firstMember (.field quotation)
  | colon =>
      refine separatedBlames stands ran (opensSeparator margin (.value null) .null) (fun w' g blank opens => ?_)
        (fun stands ran => valueFailed stands (someFailed ran))
      obtain ⟨e,token,lexeme,starts⟩ := opens
      exact opensBehind margin blank (.value starts) lexeme
  | commaOrEnd =>
      cases inside with
      | none =>
          refine separatedBlames stands (someFailed ran) (opensSeparator margin (.loose null) .null)
            (fun w' g blank opens => ?_) valueFailed
          obtain ⟨e,token,lexeme,starts⟩ := opens
          exact opensBehind margin blank (.loose starts) lexeme
      | some container =>
          cases container with
          | object =>
              obtain ⟨m',stands,ran⟩ := orCloseFailed stands (someFailed ran)
              refine separatedBlames stands ran (opensClosing margin .lastMember .closeObject)
                (fun w' g blank opens => ?_) keyFailed
              obtain ⟨e,name,quotation⟩ := opens
              exact opensBehind margin blank .member (.field quotation)
          | array =>
              obtain ⟨m',stands,ran⟩ := orCloseFailed stands (someFailed ran)
              refine separatedBlames stands ran (opensClosing margin .lastItem .closeArray)
                (fun w' g blank opens => ?_) valueFailed
              obtain ⟨e,token,lexeme,starts⟩ := opens
              exact opensBehind margin blank (.item starts) lexeme

end
end Lexer

theorem Cursor.nextBlames {c d : Cursor} {what : Malformed} (ready : c.Ready)
    (stepped : c.next = (.error (.malformed what),d)) :
    Lexer.Blames (Lexer.Opens c.input.position c.expecting c.nesting.head?) c.input.position c.input.rest what
      d.input.rest := by
  rw [nextOpen ready] at stepped
  split at stepped
  · rename_i fault l ran
    cases stepped
    obtain ⟨_,same,blames⟩ := Lexer.tokenFailed (readyStands ready) ran
    cases same
    exact blames
  · cases stepped

end AuditLog
