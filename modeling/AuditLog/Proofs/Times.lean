import AuditLog.Proofs.Calendar
import AuditLog.Rule

/-! Times from texts: the layout in which a text shows the parts of a date, and which texts are taken
for a time. -/
namespace AuditLog
namespace Instant

def decimal (ds : Text) : Nat := ds.foldl (fun n u => 10 * n + (u.toNat - 0x30)) 0

/-- The text shows these parts in the one layout, year to second, and nothing else. -/
inductive Shows : Text → Civil → Prop where
  | mk {t year month day hour minute second} (parts : Parts t year month day hour minute second) :
      Shows t ⟨decimal year,decimal month,decimal day,decimal hour,decimal minute,decimal second⟩

theorem digitsRead {n start : Nat} {t before ds rest : Text} (digits : Digits n ds) (here : before.length = start)
    (same : t = before ++ (ds ++ rest)) : digitsAt t start n = decimal ds := by
  rw [digitsAt,same,← here,← digits.length,List.drop_left,List.take_left]
  rfl

theorem partsRead {t year month day hour minute second : Text} (parts : Parts t year month day hour minute second) :
    civilOf t = ⟨decimal year,decimal month,decimal day,decimal hour,decimal minute,decimal second⟩ := by
  have origin : ([] : Text).length = 0 := rfl
  obtain ⟨_,here₁,same₁⟩ := digitsThere 5 rfl parts.year origin parts.whole
  obtain ⟨_,here₂,same₂⟩ := digitsThere 8 rfl parts.month here₁ same₁
  obtain ⟨_,here₃,same₃⟩ := digitsThere 11 rfl parts.day here₂ same₂
  obtain ⟨_,here₄,same₄⟩ := digitsThere 14 rfl parts.hour here₃ same₃
  obtain ⟨_,here₅,same₅⟩ := digitsThere 17 rfl parts.minute here₄ same₄
  simp only [civilOf,digitsRead parts.year origin parts.whole,digitsRead parts.month here₁ same₁,
    digitsRead parts.day here₂ same₂,digitsRead parts.hour here₃ same₃,digitsRead parts.minute here₄ same₄,
    digitsRead parts.second here₅ same₅]

theorem shownParts {n : Nat} {ds rest : Text} (digits : Digits n ds) :
    shown (ds ++ rest) = List.replicate n 0x30 ++ shown rest := by
  have zeros : shown ds = List.replicate n 0x30 := by
    rw [← digits.length]
    exact List.map_eq_replicate_iff.mpr (fun u member => if_pos (digits.digits u member))
  rw [← zeros]
  exact List.map_append

theorem partsLaid {t year month day hour minute second : Text} (parts : Parts t year month day hour minute second) :
    hasLayout t = true := by
  obtain ⟨whole,years,months,days,hours,minutes,seconds⟩ := parts
  have mark {u : CodeUnit} {rest : Text} (plain : Text.isDigit u = false) : shown (u :: rest) = u :: shown rest := by
    simp [shown,plain]
  refine beq_iff_eq.mpr ?_
  show shown t = layout
  rw [whole,shownParts years,mark rfl,shownParts months,mark rfl,shownParts days,mark rfl,shownParts hours,mark rfl,
    shownParts minutes,mark rfl,shownParts seconds,mark rfl]
  rfl

theorem showsIff {t : Text} {c : Civil} : Shows t c ↔ hasLayout t = true ∧ civilOf t = c := by
  constructor
  · rintro ⟨parts⟩
    exact ⟨partsLaid parts,partsRead parts⟩
  · rintro ⟨laid,rfl⟩
    obtain ⟨year,month,day,hour,minute,second,parts⟩ := layoutParts laid
    rw [partsRead parts]
    exact .mk parts

theorem ofTextReal {t : Text} {c : Civil} (shows : Shows t c) (real : c.Real) : ofText t = .ok (ofCivil c) := by
  obtain ⟨laid,rfl⟩ := showsIff.mp shows
  simp only [ofText,laid,if_true,civilKept real]

theorem ofTextUnreal {t : Text} {c : Civil} (shows : Shows t c) (unreal : ¬ c.Real) :
    ofText t = .error .calendar := by
  obtain ⟨laid,rfl⟩ := showsIff.mp shows
  simp only [ofText,laid,if_true,if_neg (mt civilReal.mp unreal)]

theorem ofTextShapeless {t : Text} (shapeless : ∀ c, ¬ Shows t c) : ofText t = .error .shape := by
  have unlaid : ¬ hasLayout t = true := fun laid => shapeless _ (showsIff.mpr ⟨laid,rfl⟩)
  simp only [ofText,if_neg unlaid]

theorem ofTextRead {t : Text} {i : Instant} (read : ofText t = .ok i) :
    ∃ c, Shows t c ∧ c.Real ∧ i = ofCivil c := by
  by_cases shown' : ∃ c, Shows t c
  · obtain ⟨c,shown'⟩ := shown'
    by_cases real : c.Real
    · rw [ofTextReal shown' real] at read
      cases read
      exact ⟨c,shown',real,rfl⟩
    · rw [ofTextUnreal shown' real] at read
      cases read
  · rw [ofTextShapeless (fun c is => shown' ⟨c,is⟩)] at read
    cases read

theorem digitsRise {a a' : Nat} {ds ds' : Text} (length : ds.length = ds'.length)
    (digits : ∀ u ∈ ds, Text.isDigit u = true) (digits' : ∀ u ∈ ds', Text.isDigit u = true) (less : a < a') :
    ds.foldl (fun n u => 10 * n + (u.toNat - 0x30)) a < ds'.foldl (fun n u => 10 * n + (u.toNat - 0x30)) a' := by
  induction ds generalizing a a' ds' with
  | nil => cases ds' with
    | nil => exact less
    | cons => cases length
  | cons u ds ih =>
      cases ds' with
      | nil => cases length
      | cons u' ds' =>
          obtain ⟨first,others⟩ := List.forall_mem_cons.mp digits
          obtain ⟨_,others'⟩ := List.forall_mem_cons.mp digits'
          have bounds := Text.digitBounds first
          have shorter : ds.length = ds'.length := by simpa using length
          rw [List.foldl_cons,List.foldl_cons]
          exact ih shorter others others' (by omega)

theorem digitsLess {n : Nat} {ds ds' rest rest' : Text} (digits : Digits n ds) (digits' : Digits n ds')
    (less : ds ++ rest < ds' ++ rest') : decimal ds < decimal ds' ∨ decimal ds = decimal ds' ∧ rest < rest' := by
  unfold decimal
  generalize 0 = a
  obtain ⟨length,digits⟩ := digits
  obtain ⟨length',digits'⟩ := digits'
  have same := length.trans length'.symm
  clear length length'
  induction ds generalizing a ds' with
  | nil =>
      cases List.length_eq_zero_iff.mp same.symm
      exact .inr ⟨rfl,less⟩
  | cons u ds ih =>
      cases ds' with
      | nil => cases same
      | cons u' ds' =>
          have shorter : ds.length = ds'.length := by simpa using same
          obtain ⟨first,others⟩ := List.forall_mem_cons.mp digits
          obtain ⟨first',others'⟩ := List.forall_mem_cons.mp digits'
          rcases List.cons_lt_cons_iff.mp less with lower | ⟨rfl,later⟩
          · have bounds := Text.digitBounds first
            have step := UInt16.lt_iff_toNat_lt.mp lower
            rw [List.foldl_cons,List.foldl_cons]
            exact .inl (digitsRise shorter others others' (by omega))
          · exact ih later _ others others' shorter

theorem markLess {mark : CodeUnit} {rest rest' : Text} (less : mark :: rest < mark :: rest') : rest < rest' := by
  rcases List.cons_lt_cons_iff.mp less with lower | ⟨_,later⟩
  · exact absurd lower (UInt16.lt_irrefl mark)
  · exact later

theorem showsBefore {t t' : Text} {c c' : Civil} (is : Shows t c) (is' : Shows t' c') (less : t < t') : Before c c' := by
  obtain ⟨whole,years,months,days,hours,minutes,seconds⟩ := is
  obtain ⟨whole',years',months',days',hours',minutes',seconds'⟩ := is'
  rw [whole,whole'] at less
  simp only [Before,Int.ofNat_lt,Int.ofNat_inj]
  refine (digitsLess years years' less).imp_right (And.imp_right (fun less => ?_))
  refine (digitsLess months months' (markLess less)).imp_right (And.imp_right (fun less => ?_))
  refine (digitsLess days days' (markLess less)).imp_right (And.imp_right (fun less => ?_))
  refine (digitsLess hours hours' (markLess less)).imp_right (And.imp_right (fun less => ?_))
  refine (digitsLess minutes minutes' (markLess less)).imp_right (And.imp_right (fun less => ?_))
  rcases digitsLess seconds seconds' (markLess less) with lower | ⟨_,later⟩
  · exact lower
  · exact absurd later (List.lt_irrefl _)

theorem instantsOrdered {t t' : Text} {i i' : Instant} (read : ofText t = .ok i) (read' : ofText t' = .ok i') :
    i.seconds < i'.seconds ↔ t < t' := by
  obtain ⟨c,is,real,rfl⟩ := ofTextRead read
  obtain ⟨c',is',real',rfl⟩ := ofTextRead read'
  constructor
  · intro earlier
    rcases Std.lt_trichotomy t t' with less | same | less
    · exact less
    · subst same
      rw [Except.ok.inj (read.symm.trans read')] at earlier
      exact absurd earlier (Int.lt_irrefl _)
    · have := civilBefore real' real (showsBefore is' is less)
      omega
  · exact fun less => civilBefore real real' (showsBefore is is' less)

end Instant

namespace Rule
open Instant

theorem timeTaken {t : Text} {place : Option Place} {i : Instant} (taken : timeOf (some t) place = .ok (.time i)) :
    ofText t = .ok i := by
  simp only [timeOf] at taken
  split at taken
  · rename_i read
    cases taken
    exact read
  · cases taken

/-- A text is taken for a time exactly if it shows the parts of a real date in the one layout. The instant is written
with the text up to its seconds, and instants come in the order of their texts. Any other text is refused together
with the text and the reason: that it has another shape, or else that its date is not in the calendar. -/
theorem timesReal (t : Text) (place : Option Place) :
    ((∃ i, timeOf (some t) place = .ok (.time i)) ↔ ∃ c, Shows t c ∧ c.Real) ∧
      (∀ i, timeOf (some t) place = .ok (.time i) → Shows t i.toCivil ∧ i.text = t.take 19 ++ Text.of ".000Z") ∧
      ((∀ c, ¬ Shows t c) → timeOf (some t) place = .error (.time t .shape place)) ∧
      (∀ c, Shows t c → ¬ c.Real → timeOf (some t) place = .error (.time t .calendar place)) ∧
      (∀ flaw, (Fault.time t flaw place).name = Text.of "DateParseError") ∧
      ∀ t' place' i i', timeOf (some t) place = .ok (.time i) → timeOf (some t') place' = .ok (.time i') →
        (i.seconds < i'.seconds ↔ t < t') := by
  have shapeless (none : ∀ c, ¬ Shows t c) : timeOf (some t) place = .error (.time t .shape place) := by
    simp only [timeOf,ofTextShapeless none]
  have unreal (c : Civil) (shows : Shows t c) (not : ¬ c.Real) :
      timeOf (some t) place = .error (.time t .calendar place) := by
    simp only [timeOf,ofTextUnreal shows not]
  refine ⟨⟨?_,?_⟩,fun i taken => ?_,shapeless,unreal,fun _ => rfl,fun t' place' i i' taken taken' => ?_⟩
  · rintro ⟨i,taken⟩
    obtain ⟨c,shows,real,_⟩ := ofTextRead (timeTaken taken)
    exact ⟨c,shows,real⟩
  · rintro ⟨c,shows,real⟩
    exact ⟨ofCivil c,by simp only [timeOf,ofTextReal shows real]⟩
  · have read := timeTaken taken
    obtain ⟨c,shows,real,rfl⟩ := ofTextRead read
    rw [civilKept real]
    exact ⟨shows,textRead read⟩
  · exact instantsOrdered (timeTaken taken) (timeTaken taken')

end Rule
end AuditLog
