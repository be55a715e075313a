import AuditLog.Lexer
import AuditLog.Proofs.Grammar

/-! What the scanners of lexemes find in a text, against the grammar. Each comes twice: a spelling
of the grammar with a suitable rest is found, and whatever is found is such a spelling. -/
namespace AuditLog

namespace Grammar

def Firm (t : Text) : Prop := ∀ u rest, t = u :: rest → u ∉ spaces ∧ u ≠ 0xFEFF

def delimiters : List CodeUnit := [0x20,0x09,0x0A,0x0D,0x2C,0x5D,0x7D]

def Delimited (t : Text) : Prop := ∀ u rest, t = u :: rest → u ∈ delimiters

def Margin (position : Nat) (t : Text) : Prop :=
  Blank t ∨ position = 0 ∧ ∃ w, t = 0xFEFF :: w ∧ Blank w

theorem blankNil : Blank [] := nofun

theorem blankCons {u : CodeUnit} {t : Text} : Blank (u :: t) ↔ u ∈ spaces ∧ Blank t := by
  simp [Blank]

theorem blankAppend {w w' : Text} (blank : Blank w) (blank' : Blank w') : Blank (w ++ w') := by
  intro u member
  rcases List.mem_append.mp member with first | second
  · exact blank u first
  · exact blank' u second

theorem marginInside {position : Nat} {w : Text} (margin : Margin position w) (inside : 0 < position) :
    Blank w := by
  rcases margin with blank | ⟨first,_⟩
  · exact blank
  · exact absurd first (Nat.pos_iff_ne_zero.mp inside)

theorem marginMark {t : Text} : Margin 0 t ↔ ∃ b w, t = b ++ w ∧ Mark b ∧ Blank w := by
  constructor
  · intro found
    rcases found with blank | ⟨_,w,rfl,blank⟩
    · exact ⟨[],t,rfl,.inl rfl,blank⟩
    · exact ⟨[0xFEFF],w,rfl,.inr rfl,blank⟩
  · intro found
    obtain ⟨b,w,rfl,rfl | rfl,blank⟩ := found
    · exact .inl blank
    · exact .inr ⟨rfl,w,rfl,blank⟩

end Grammar

namespace Lexer
open Grammar

theorem oneFurther (position length : Nat) : position + 1 + length = position + (length + 1) := by omega

/-! Blanks. -/

theorem isSpaceIff (u : CodeUnit) : isSpace u = true ↔ u ∈ spaces := by
  simp [isSpace,spaces,or_assoc]

theorem blanksInside {w more : Text} {position : Nat} (blank : Blank w) (firm : Firm more) :
    blanks.flat () position (w ++ more) = ((),position + w.length,more) := by
  induction w generalizing position with
  | nil =>
      cases more with
      | nil => rfl
      | cons u rest =>
          obtain ⟨solid,notMark⟩ := firm u rest rfl
          rw [← isSpaceIff] at solid
          simp [Scanner.flat,blanks,solid,notMark]
  | cons u w ih =>
      obtain ⟨space,blank⟩ := blankCons.mp blank
      rw [← isSpaceIff] at space
      have step : blanks.step position () u = .take () := by simp [blanks,space]
      simp only [List.cons_append,Scanner.flat,step,ih blank,List.length_cons]
      rw [oneFurther]

theorem blanksFlat {w more : Text} {position : Nat} (margin : Margin position w) (firm : Firm more) :
    blanks.flat () position (w ++ more) = ((),position + w.length,more) := by
  rcases margin with blank | ⟨first,v,same,blank⟩
  · exact blanksInside blank firm
  · subst first; subst same
    have step : blanks.step 0 () 0xFEFF = .take () := rfl
    simp only [List.cons_append,Scanner.flat,step,blanksInside blank firm,List.length_cons]
    rw [oneFurther]

theorem blanksInsideFound (t : Text) (position : Nat) (inside : 0 < position) :
    ∃ w more, t = w ++ more ∧ Blank w ∧ blanks.flat () position t = ((),position + w.length,more) := by
  induction t generalizing position with
  | nil => exact ⟨[],[],rfl,blankNil,rfl⟩
  | cons u rest ih =>
      by_cases space : isSpace u = true
      · obtain ⟨w,more,same,blank,run⟩ := ih (position + 1) (Nat.succ_pos _)
        refine ⟨u :: w,more,by rw [same]; rfl,blankCons.mpr ⟨(isSpaceIff u).mp space,blank⟩,?_⟩
        have step : blanks.step position () u = .take () := by simp [blanks,space]
        simp only [Scanner.flat,step,run,List.length_cons]
        rw [oneFurther]
      · refine ⟨[],u :: rest,rfl,blankNil,?_⟩
        have step : blanks.step position () u = .leave () := by
          simp [blanks,space,Nat.pos_iff_ne_zero.mp inside]
        simp only [Scanner.flat,step]
        rfl

theorem blanksFound (t : Text) (position : Nat) :
    ∃ w more, t = w ++ more ∧ Margin position w ∧ blanks.flat () position t = ((),position + w.length,more) := by
  cases t with
  | nil => exact ⟨[],[],rfl,.inl blankNil,rfl⟩
  | cons u rest =>
      cases step : blanks.step position () u with
      | finish => simp only [blanks] at step; split at step <;> cases step
      | leave => exact ⟨[],u :: rest,rfl,.inl blankNil,by simp only [Scanner.flat,step]; rfl⟩
      | take =>
          obtain ⟨w,more,same,blank,run⟩ := blanksInsideFound rest (position + 1) (Nat.succ_pos _)
          refine ⟨u :: w,more,by rw [same]; rfl,?_,?_⟩
          · simp only [blanks] at step
            split at step
            · rename_i taken
              simp only [Bool.or_eq_true,Bool.and_eq_true,beq_iff_eq] at taken
              rcases taken with space | ⟨mark,first⟩
              · exact .inl (blankCons.mpr ⟨(isSpaceIff u).mp space,blank⟩)
              · exact .inr ⟨first,w,by rw [mark],blank⟩
            · cases step
          · simp only [Scanner.flat,step,run,List.length_cons]
            rw [oneFurther]

/-! Words. -/

theorem wordFlat (scalar : Scalar) (start : Nat) {rest more : Text} {position : Nat} (left : rest ≠ []) :
    (word scalar start).flat rest position (rest ++ more) = (.ok (),position + rest.length,more) := by
  induction rest generalizing position with
  | nil => exact absurd rfl left
  | cons v rest ih =>
      cases rest with
      | nil => simp [Scanner.flat,word]
      | cons v' rest =>
          have step : (word scalar start).step position (v :: v' :: rest) v = .take (v' :: rest) := by simp [word]
          rw [List.cons_append]
          simp only [Scanner.flat,step,ih (by simp),List.length_cons]
          rw [oneFurther]

theorem wordFound (scalar : Scalar) (start : Nat) {rest t more : Text} {position after : Nat}
    (left : rest ≠ []) (found : (word scalar start).flat rest position t = (.ok (),after,more)) :
    t = rest ++ more ∧ after = position + rest.length := by
  induction t generalizing position rest with
  | nil => simp [Scanner.flat,word] at found
  | cons u t ih =>
      cases rest with
      | nil => exact absurd rfl left
      | cons v rest =>
          simp only [Scanner.flat,word] at found
          by_cases same : u = v
          · subst same
            cases rest with
            | nil =>
                simp only [List.isEmpty_nil,if_true,Prod.mk.injEq,true_and] at found
                exact ⟨by rw [found.2]; rfl,found.1.symm⟩
            | cons v' rest =>
                simp only [List.isEmpty_cons,Bool.false_eq_true,if_false,if_true] at found
                obtain ⟨spelt,place⟩ := ih (by simp) found
                exact ⟨by rw [spelt]; rfl,by rw [place]; simp only [List.length_cons]; omega⟩
          · simp [same] at found

/-! Strings. -/

theorem shortEscapeIff (u v : CodeUnit) : shortEscape? u = some v ↔ (u,v) ∈ shortEscapes := by
  simp only [shortEscapes,List.mem_cons,Prod.mk.injEq,List.not_mem_nil,or_false]
  constructor
  · intro h
    unfold shortEscape? at h
    simp only [Bool.or_eq_true,decide_eq_true_eq] at h
    repeat' split at h
    all_goals grind
  · intro found
    rcases found with ⟨rfl,rfl⟩ | ⟨rfl,rfl⟩ | ⟨rfl,rfl⟩ | ⟨rfl,rfl⟩ | ⟨rfl,rfl⟩ | ⟨rfl,rfl⟩ | ⟨rfl,rfl⟩ | ⟨rfl,rfl⟩ <;> rfl

theorem shortEscapeLetter {u v : CodeUnit} (h : (u,v) ∈ shortEscapes) : u ≠ 0x75 := by
  intro same
  subst same
  simp [shortEscapes] at h

theorem stringFlat (opening : Nat) {s d : Text} (spelling : Spelling s d) (taken more : Text) (position : Nat) :
    (string opening).flat (.plain taken) position (s ++ 0x22 :: more) =
      (.ok (taken.reverse ++ d),position + s.length + 1,more) := by
  induction spelling generalizing taken position with
  | nil => simp [Scanner.flat,string]
  | @plain u s d quote backslash control rest ih =>
      have step : (string opening).step position (.plain taken) u = .take (.plain (u :: taken)) := by
        simp [string,quote,backslash,control]
      rw [List.cons_append]
      simp only [Scanner.flat,step,ih,List.length_cons,List.reverse_cons,List.append_assoc]
      rw [oneFurther]; rfl
  | @short u v s d escape rest ih =>
      have letter := shortEscapeLetter escape
      rw [← shortEscapeIff] at escape
      have first : (string opening).step position (.plain taken) 0x5C = .take (.escaped taken position) := rfl
      have second : (string opening).step (position + 1) (.escaped taken position) u =
          .take (.plain (v :: taken)) := by
        simp [string,letter,escape]
      rw [List.cons_append,List.cons_append]
      simp only [Scanner.flat,first,second,ih,List.length_cons,List.reverse_cons,List.append_assoc]
      rw [oneFurther,oneFurther]; rfl
  | @hex a b c e i j k l s d first second third fourth rest ih =>
      have opened : (string opening).step position (.plain taken) 0x5C = .take (.escaped taken position) := rfl
      have marked : (string opening).step (position + 1) (.escaped taken position) 0x75 =
          .take (.hex taken position 3 0) := rfl
      have digit {n m v : Nat} {x : CodeUnit} (h : Text.hexValue? x = some v) (at' value : Nat) :
          (string opening).step at' (.hex taken n (m + 1) value) x = .take (.hex taken n m (value * 16 + v)) := by
        simp [string,h]
      have last {n v : Nat} {x : CodeUnit} (h : Text.hexValue? x = some v) (at' value : Nat) :
          (string opening).step at' (.hex taken n 0 value) x =
            .take (.plain (UInt16.ofNat (value * 16 + v) :: taken)) := by
        simp [string,h]
      simp only [List.cons_append,Scanner.flat,opened,marked,digit first,digit second,digit third,last fourth,ih,
        List.length_cons,List.reverse_cons,List.append_assoc,Nat.zero_mul,Nat.zero_add]
      have place : position + 1 + 1 + 1 + 1 + 1 + 1 + s.length + 1 =
          position + (s.length + 1 + 1 + 1 + 1 + 1 + 1) + 1 := by omega
      rw [place]
      rfl

inductive HexRun : Nat → Text → Nat → Prop where
  | nil {n} : HexRun n [] n
  | cons {n u i t m} (digit : Text.hexValue? u = some i) (rest : HexRun (n * 16 + i) t m) : HexRun n (u :: t) m

def Awaited : StringState → Text → Text → Prop
  | .plain taken, s, d => ∃ e, Spelling s e ∧ d = taken.reverse ++ e
  | .escaped taken _, s, d => ∃ e, Spelling (0x5C :: s) e ∧ d = taken.reverse ++ e
  | .hex taken _ more value, s, d =>
      ∃ digits r n e, s = digits ++ r ∧ HexRun value digits n ∧ digits.length = more + 1 ∧ Spelling r e ∧
        d = taken.reverse ++ UInt16.ofNat n :: e

theorem spellingHex {digits r e : Text} {n : Nat} (run : HexRun 0 digits n) (four : digits.length = 4)
    (rest : Spelling r e) : Spelling (0x5C :: 0x75 :: (digits ++ r)) (UInt16.ofNat n :: e) := by
  obtain _ | ⟨first,run⟩ := run
  · cases four
  obtain _ | ⟨second,run⟩ := run
  · cases four
  obtain _ | ⟨third,run⟩ := run
  · cases four
  obtain _ | ⟨fourth,run⟩ := run
  · cases four
  cases run with
  | cons _ _ => simp at four
  | nil =>
      have spelling := Spelling.hex first second third fourth rest
      simpa only [Nat.zero_mul,Nat.zero_add,List.cons_append,List.nil_append] using spelling

theorem awaitedTake {opening position : Nat} {state next : StringState} {u : CodeUnit} {s d : Text}
    (step : (string opening).step position state u = .take next) (awaited : Awaited next s d) :
    Awaited state (u :: s) d := by
  cases state with
  | plain taken =>
      simp only [string] at step
      split at step
      · cases step
      · rename_i quote
        split at step
        · rename_i backslash
          cases step; subst backslash; exact awaited
        · rename_i backslash
          split at step
          · cases step
          · rename_i control
            cases step
            obtain ⟨e,spelling,same⟩ := awaited
            exact ⟨u :: e,.plain quote backslash control spelling,by simpa using same⟩
  | escaped taken place =>
      simp only [string] at step
      split at step
      · rename_i hex
        cases step; subst hex
        obtain ⟨digits,r,n,e,spelt,run,four,rest,same⟩ := awaited
        subst spelt
        exact ⟨UInt16.ofNat n :: e,spellingHex run four rest,same⟩
      · split at step
        · rename_i v found
          cases step
          obtain ⟨e,spelling,same⟩ := awaited
          exact ⟨v :: e,.short ((shortEscapeIff u v).mp found) spelling,by simpa using same⟩
        · cases step
  | hex taken place more value =>
      simp only [string] at step
      split at step
      · rename_i i found
        cases step
        obtain ⟨e,spelling,same⟩ := awaited
        exact ⟨[u],s,_,e,rfl,.cons found .nil,rfl,spelling,by simpa using same⟩
      · rename_i i more found
        cases step
        obtain ⟨digits,r,n,e,spelt,run,length,rest,same⟩ := awaited
        exact ⟨u :: digits,r,n,e,by rw [spelt]; rfl,.cons found run,by simp [length],rest,same⟩
      · cases step

theorem awaitedFinish {opening position : Nat} {state : StringState} {u : CodeUnit} {d : Text}
    (step : (string opening).step position state u = .finish (.ok d)) : u = 0x22 ∧ Awaited state [] d := by
  cases state with
  | plain taken =>
      simp only [string] at step
      split at step
      · rename_i quote
        cases step
        exact ⟨quote,[],.nil,by simp⟩
      · split at step
        · cases step
        · split at step <;> cases step
  | escaped taken place =>
      simp only [string] at step
      split at step
      · cases step
      · split at step <;> cases step
  | hex taken place more value =>
      simp only [string] at step
      split at step <;> cases step

theorem stringFound {opening position after : Nat} {state : StringState} {t d more : Text}
    (found : (string opening).flat state position t = (.ok d,after,more)) :
    ∃ s, t = s ++ 0x22 :: more ∧ after = position + s.length + 1 ∧ Awaited state s d := by
  induction t generalizing state position with
  | nil => cases state <;> simp [Scanner.flat,string] at found
  | cons u t ih =>
      simp only [Scanner.flat] at found
      split at found
      · rename_i next step
        obtain ⟨s,spelt,place,awaited⟩ := ih found
        refine ⟨u :: s,by rw [spelt]; rfl,?_,awaitedTake step awaited⟩
        rw [place,oneFurther]; rfl
      · rename_i result step
        cases found
        obtain ⟨quote,awaited⟩ := awaitedFinish step
        subst quote
        exact ⟨[],rfl,rfl,awaited⟩
      · rename_i result step
        cases found
        cases state <;> simp only [string] at step <;> repeat' split at step
        all_goals cases step

end Lexer
end AuditLog
