import AuditLog.Proofs.Lexeme

/-! What the scanner of numbers finds in a text. `Tail` is what may still come after a part of a
number that has been read; with the first unit before it, it is a number of the grammar. -/
namespace AuditLog
namespace Lexer
open Grammar

def Starred (last : Text → Prop) (t : Text) : Prop := ∃ ds r, t = ds ++ r ∧ AllDigits ds ∧ last r

def Plussed (last : Text → Prop) (t : Text) : Prop :=
  ∃ d r, t = d :: r ∧ Text.isDigit d = true ∧ Starred last r

def Ends (t : Text) : Prop := t = []

def AfterWhole (t : Text) : Prop := ∃ f e, t = f ++ e ∧ Fraction f ∧ Exponent e

def AfterMark (t : Text) : Prop :=
  Plussed Ends t ∨ ∃ sign r, t = sign :: r ∧ (sign = 0x2B ∨ sign = 0x2D) ∧ Plussed Ends r

def Tail : NumberPart → Text → Prop
  | .minus => fun t => ∃ w r, t = w ++ r ∧ Whole w ∧ AfterWhole r
  | .zero => AfterWhole
  | .whole => Starred AfterWhole
  | .point => Plussed Exponent
  | .fraction => Starred Exponent
  | .mark => AfterMark
  | .sign => Plussed Ends
  | .exponent => Starred Ends

theorem starredNil {last : Text → Prop} : Starred last [] ↔ last [] := by
  constructor
  · intro found
    obtain ⟨ds,r,same,_,h⟩ := found
    obtain ⟨_,rfl⟩ := List.append_eq_nil_iff.mp same.symm
    exact h
  · exact fun h => ⟨[],[],rfl,nofun,h⟩

theorem starredCons {last : Text → Prop} {u : CodeUnit} {t : Text} :
    Starred last (u :: t) ↔ Text.isDigit u = true ∧ Starred last t ∨ last (u :: t) := by
  constructor
  · intro found
    obtain ⟨ds,r,same,digits,h⟩ := found
    cases ds with
    | nil => exact .inr (by simpa [same] using h)
    | cons d ds =>
        cases same
        exact .inl ⟨digits _ (by simp),ds,r,rfl,fun x member => digits x (by simp [member]),h⟩
  · intro found
    rcases found with ⟨digit,ds,r,same,digits,h⟩ | h
    · refine ⟨u :: ds,r,by rw [same]; rfl,?_,h⟩
      intro x member
      rcases List.mem_cons.mp member with first | rest
      · rw [first]; exact digit
      · exact digits x rest
    · exact ⟨[],u :: t,rfl,nofun,h⟩

theorem plussedCons {last : Text → Prop} {u : CodeUnit} {t : Text} :
    Plussed last (u :: t) ↔ Text.isDigit u = true ∧ Starred last t := by
  constructor
  · intro found
    obtain ⟨d,r,same,digit,h⟩ := found
    cases same; exact ⟨digit,h⟩
  · exact fun h => ⟨u,t,rfl,h⟩

theorem plussedNil {last : Text → Prop} : ¬ Plussed last [] := nofun

theorem digitsPlussed {ds : Text} : Digits ds ↔ Plussed Ends ds := by
  constructor
  · intro found
    obtain ⟨some,digits⟩ := found
    cases ds with
    | nil => exact absurd rfl some
    | cons d ds =>
        exact ⟨d,ds,rfl,digits d (by simp),ds,[],by simp,fun x member => digits x (by simp [member]),rfl⟩
  · intro found
    obtain ⟨d,r,rfl,digit,ds,_,rfl,digits,rfl⟩ := found
    refine ⟨by simp,?_⟩
    intro x member
    rw [List.append_nil] at member
    rcases List.mem_cons.mp member with first | rest
    · rw [first]; exact digit
    · exact digits x rest

theorem digitsThen {last : Text → Prop} {t : Text} :
    (∃ ds r, t = ds ++ r ∧ Digits ds ∧ last r) ↔ Plussed last t := by
  constructor
  · intro found
    obtain ⟨ds,r,rfl,digits,h⟩ := found
    obtain ⟨d,rest,rfl,digit,ds,_,rfl,more,rfl⟩ := digitsPlussed.mp digits
    exact ⟨d,ds ++ r,by simp,digit,ds,r,rfl,more,h⟩
  · intro found
    obtain ⟨d,_,rfl,digit,ds,r,rfl,digits,h⟩ := found
    exact ⟨d :: ds,r,rfl,digitsPlussed.mpr ⟨d,ds,rfl,digit,ds,[],by simp,digits,rfl⟩,h⟩

theorem isMarkIff (u : CodeUnit) : NumberPart.isMark u = true ↔ u = 0x65 ∨ u = 0x45 := by
  simp [NumberPart.isMark]

theorem exponentCons {u : CodeUnit} {t : Text} :
    Exponent (u :: t) ↔ NumberPart.isMark u = true ∧ AfterMark t := by
  rw [isMarkIff]
  constructor
  · intro h
    cases h with
    | bare letter digits => exact ⟨letter,.inl (digitsPlussed.mp digits)⟩
    | signed letter either digits => exact ⟨letter,.inr ⟨_,_,rfl,either,digitsPlussed.mp digits⟩⟩
  · intro found
    obtain ⟨letter,plain | ⟨sign,r,rfl,either,digits⟩⟩ := found
    · exact .bare letter (digitsPlussed.mpr plain)
    · exact .signed letter either (digitsPlussed.mpr digits)

theorem afterWholeNil : AfterWhole [] := ⟨[],[],rfl,.none,.none⟩

theorem afterWholeCons {u : CodeUnit} {t : Text} :
    AfterWhole (u :: t) ↔ u = 0x2E ∧ Plussed Exponent t ∨ NumberPart.isMark u = true ∧ AfterMark t := by
  rw [← exponentCons]
  constructor
  · intro found
    obtain ⟨f,e,same,fraction,exponent⟩ := found
    cases fraction with
    | none => exact .inr (same ▸ exponent)
    | point digits =>
        cases same
        exact .inl ⟨rfl,digitsThen.mp ⟨_,e,rfl,digits,exponent⟩⟩
  · intro found
    rcases found with ⟨rfl,digits⟩ | exponent
    · obtain ⟨ds,e,rfl,digits,exponent⟩ := digitsThen.mpr digits
      exact ⟨0x2E :: ds,e,rfl,.point digits,exponent⟩
    · exact ⟨[],u :: t,rfl,.none,exponent⟩

theorem wholeThen {u : CodeUnit} {t : Text} :
    Tail .minus (u :: t) ↔ u = 0x30 ∧ AfterWhole t ∨ Text.isDigit u = true ∧ u ≠ 0x30 ∧ Starred AfterWhole t := by
  constructor
  · intro found
    obtain ⟨w,r,same,whole,h⟩ := found
    cases whole with
    | zero => cases same; exact .inl ⟨rfl,h⟩
    | digits first nonzero rest => cases same; exact .inr ⟨first,nonzero,_,r,rfl,rest,h⟩
  · intro found
    rcases found with ⟨rfl,h⟩ | ⟨first,nonzero,ds,r,rfl,digits,h⟩
    · exact ⟨[0x30],t,rfl,.zero,h⟩
    · exact ⟨u :: ds,r,rfl,.digits first nonzero digits,h⟩

theorem tailNil (part : NumberPart) : Tail part [] ↔ part.complete = true := by
  cases part with
  | minus =>
      refine ⟨?_,nofun⟩
      intro found
      obtain ⟨w,r,same,whole,_⟩ := found
      cases whole <;> cases same
  | zero => exact ⟨fun _ => rfl,fun _ => afterWholeNil⟩
  | whole => exact ⟨fun _ => rfl,fun _ => starredNil.mpr afterWholeNil⟩
  | point => exact ⟨fun h => absurd h plussedNil,nofun⟩
  | fraction => exact ⟨fun _ => rfl,fun _ => starredNil.mpr .none⟩
  | mark =>
      refine ⟨?_,nofun⟩
      intro found
      rcases found with digits | ⟨_,_,same,_⟩
      · exact absurd digits plussedNil
      · cases same
  | sign => exact ⟨fun h => absurd h plussedNil,nofun⟩
  | exponent => exact ⟨fun _ => rfl,fun _ => starredNil.mpr rfl⟩

theorem afterMarkCons {u : CodeUnit} {t : Text} :
    AfterMark (u :: t) ↔
      (u = 0x2B ∨ u = 0x2D) ∧ Plussed Ends t ∨ Text.isDigit u = true ∧ Starred Ends t := by
  constructor
  · intro found
    rcases found with digits | ⟨sign,r,same,either,digits⟩
    · exact .inr (plussedCons.mp digits)
    · cases same; exact .inl ⟨either,digits⟩
  · intro found
    rcases found with ⟨either,digits⟩ | digits
    · exact .inr ⟨u,t,rfl,either,digits⟩
    · exact .inl (plussedCons.mpr digits)

theorem nextHere {c : Prop} [Decidable c] {part : NumberPart} {x : Option NumberPart} {t : Text} :
    (∃ next, (if c then some part else x) = some next ∧ Tail next t) ↔
      c ∧ Tail part t ∨ ¬ c ∧ ∃ next, x = some next ∧ Tail next t := by
  by_cases c <;> simp [*]

theorem nextNowhere {t : Text} : ¬ ∃ next, (none : Option NumberPart) = some next ∧ Tail next t := nofun

theorem tailCons (part : NumberPart) (u : CodeUnit) (t : Text) :
    Tail part (u :: t) ↔ ∃ next, part.next? u = some next ∧ Tail next t := by
  have noDigit : Text.isDigit 0x2E = false ∧ Text.isDigit 0x65 = false ∧ Text.isDigit 0x45 = false ∧
    Text.isDigit 0x2B = false ∧ Text.isDigit 0x2D = false := by decide
  have noMark : NumberPart.isMark 0x2E = false := by decide
  cases part <;> simp only [NumberPart.next?,nextHere,nextNowhere,Bool.or_eq_true,decide_eq_true_eq]
  case minus =>
    rw [wholeThen]
    simp only [Tail]
    have zeroDigit : Text.isDigit 0x30 = true := by decide
    grind
  case zero =>
    simp only [Tail]
    rw [afterWholeCons]
    grind
  case whole =>
    simp only [Tail]
    rw [starredCons,afterWholeCons,isMarkIff]
    grind
  case point =>
    simp only [Tail]
    rw [plussedCons]
    grind
  case fraction =>
    simp only [Tail]
    rw [starredCons,exponentCons,isMarkIff]
    grind
  case mark =>
    simp only [Tail]
    rw [afterMarkCons]
    grind
  case sign =>
    simp only [Tail]
    rw [plussedCons]
    grind
  case exponent =>
    simp only [Tail]
    rw [starredCons]
    grind [Ends]

theorem delimiterEnds {u : CodeUnit} (h : u ∈ delimiters) (part : NumberPart) : part.next? u = none := by
  simp only [delimiters,List.mem_cons,List.not_mem_nil,or_false] at h
  rcases h with rfl | rfl | rfl | rfl | rfl | rfl | rfl <;> cases part <;> decide

theorem numberFlat {part : NumberPart} {s more : Text} (tail : Tail part s) (delimited : Delimited more)
    (taken : Text) (position : Nat) :
    number.flat (part,taken) position (s ++ more) = (.ok (taken.reverse ++ s),position + s.length,more) := by
  induction s generalizing part taken position with
  | nil =>
      have complete := (tailNil part).mp tail
      cases more with
      | nil => simp [Scanner.flat,number,numberEnd,complete]
      | cons u rest =>
          have beyond := delimiterEnds (delimited u rest rfl) part
          simp [Scanner.flat,number,beyond,numberEnd,complete]
  | cons u s ih =>
      obtain ⟨next,goes,tail⟩ := (tailCons part u s).mp tail
      have step : number.step position (part,taken) u = .take (next,u :: taken) := by simp only [number,goes]
      rw [List.cons_append]
      simp only [Scanner.flat,step,ih tail,List.length_cons,List.reverse_cons,List.append_assoc]
      rw [oneFurther]; rfl

theorem numberEnded {part : NumberPart} {taken d : Text} {seen : Option CodeUnit} {place : Nat}
    (h : numberEnd part taken seen place = .ok d) : Tail part [] ∧ d = taken.reverse ++ [] := by
  unfold numberEnd at h
  split at h
  · rename_i complete
    cases h
    exact ⟨(tailNil part).mpr complete,by simp⟩
  · cases h

theorem numberFound {part : NumberPart} {taken t d more : Text} {position after : Nat}
    (found : number.flat (part,taken) position t = (.ok d,after,more)) :
    ∃ s, t = s ++ more ∧ after = position + s.length ∧ Tail part s ∧ d = taken.reverse ++ s := by
  induction t generalizing part taken position with
  | nil =>
      simp only [Scanner.flat,number,Prod.mk.injEq] at found
      obtain ⟨result,place,none⟩ := found
      obtain ⟨tail,same⟩ := numberEnded result
      exact ⟨[],none,place.symm,tail,same⟩
  | cons u t ih =>
      cases goes : part.next? u with
      | none =>
          simp only [Scanner.flat,number,goes,Prod.mk.injEq] at found
          obtain ⟨result,place,rest⟩ := found
          obtain ⟨tail,same⟩ := numberEnded result
          exact ⟨[],rest,place.symm,tail,same⟩
      | some next =>
          have step : number.step position (part,taken) u = .take (next,u :: taken) := by simp only [number,goes]
          simp only [Scanner.flat,step] at found
          obtain ⟨s,spelt,place,tail,same⟩ := ih found
          refine ⟨u :: s,by rw [spelt]; rfl,?_,(tailCons part u s).mpr ⟨next,goes,tail⟩,by simp [same]⟩
          rw [place,oneFurther]; rfl

theorem numberParts {t : Text} : Number t ↔ Tail .minus t ∨ ∃ s, t = 0x2D :: s ∧ Tail .minus s := by
  constructor
  · intro number
    cases number with
    | positive whole fraction exponent =>
        exact .inl ⟨_,_,List.append_assoc ..,whole,_,_,rfl,fraction,exponent⟩
    | negative whole fraction exponent =>
        exact .inr ⟨_,rfl,_,_,List.append_assoc ..,whole,_,_,rfl,fraction,exponent⟩
  · intro found
    rcases found with ⟨w,_,rfl,whole,f,e,rfl,fraction,exponent⟩ | ⟨_,rfl,w,_,rfl,whole,f,e,rfl,fraction,exponent⟩
    · rw [← List.append_assoc]; exact .positive whole fraction exponent
    · rw [← List.append_assoc]; exact .negative whole fraction exponent

theorem numberCons {u : CodeUnit} {s : Text} :
    Number (u :: s) ↔ (u = 0x2D ∨ Text.isDigit u = true) ∧ Tail (NumberPart.first u) s := by
  have minusDigit : Text.isDigit 0x2D = false := by decide
  have zeroDigit : Text.isDigit 0x30 = true := by decide
  rw [numberParts,wholeThen]
  simp only [List.cons.injEq,NumberPart.first]
  by_cases minus : u = 0x2D
  · subst minus; simp [minusDigit]
  · by_cases zero : u = 0x30
    · subst zero; simp [zeroDigit,Tail]
    · simp [minus,zero,Tail]

theorem numberNotNil : ¬ Number [] := by
  rw [numberParts]
  intro found
  rcases found with ⟨w,r,same,whole,_⟩ | ⟨_,same,_⟩
  · cases whole <;> cases same
  · cases same

end Lexer
end AuditLog
