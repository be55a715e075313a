import AuditLog.Proofs.KeyOrder
import Mathlib.Data.List.Induction

/-! Dates written back. An instant that was read from a text is written with the digits of that text,
and with milliseconds, of which the text had none. -/
namespace AuditLog

namespace Text

theorem paddedDigits (ds : Text) (digits : ∀ u ∈ ds, isDigit u = true) :
    padded ds.length (ds.foldl (fun n u => 10 * n + (u.toNat - 0x30)) 0) = ds := by
  induction ds using List.reverseRecOn with
  | nil => rfl
  | append_singleton ds u ih =>
      obtain ⟨before,last⟩ := List.forall_mem_append.mp digits
      have is := last u (List.mem_singleton.mpr rfl)
      obtain ⟨low,high⟩ := digitBounds is
      rw [List.length_append,List.length_singleton,padded,List.foldl_append,List.foldl_cons,List.foldl_nil]
      generalize ds.foldl (fun n u => 10 * n + (u.toNat - 0x30)) 0 = n at ih ⊢
      have rest : (10 * n + (u.toNat - 0x30)) / 10 = n := by omega
      have digit : (10 * n + (u.toNat - 0x30)) % 10 = u.toNat - 0x30 := by omega
      rw [rest,digit,ih before,digitOfUnit is]

end Text

namespace Instant

def shown (t : Text) : Text := t.map (fun u => if Text.isDigit u then 0x30 else u)

structure Digits (n : Nat) (ds : Text) : Prop where
  length : ds.length = n
  digits : ∀ u ∈ ds, Text.isDigit u = true

theorem shownDigits {n : Nat} {mark : CodeUnit} {t rest : Text} (other : mark ≠ 0x30)
    (laid : shown t = List.replicate n 0x30 ++ mark :: rest) :
    ∃ ds t', t = ds ++ mark :: t' ∧ Digits n ds ∧ shown t' = rest := by
  obtain ⟨ds,_,rfl,first,behind⟩ := List.map_eq_append_iff.mp laid
  obtain ⟨u,t',rfl,second,others⟩ := List.map_eq_cons_iff.mp behind
  have same : u = mark := by
    split at second
    · exact absurd second.symm other
    · exact second
  subst same
  refine ⟨ds,t',rfl,⟨?_,fun v member => ?_⟩,others⟩
  · have size := congrArg List.length first
    rwa [List.length_map,List.length_replicate] at size
  · have zero := List.eq_of_mem_replicate (first ▸ List.mem_map_of_mem member)
    split at zero
    · assumption
    · rw [zero]; decide

structure Parts (t year month day hour minute second : Text) : Prop where
  whole : t = year ++ 0x2D :: (month ++ 0x2D :: (day ++ 0x54 :: (hour ++ 0x3A :: (minute ++ 0x3A :: (second ++ [0x5A])))))
  year : Digits 4 year
  month : Digits 2 month
  day : Digits 2 day
  hour : Digits 2 hour
  minute : Digits 2 minute
  second : Digits 2 second

theorem layoutParts {t : Text} (laid : hasLayout t = true) :
    ∃ year month day hour minute second, Parts t year month day hour minute second := by
  have whole : shown t = List.replicate 4 0x30 ++ 0x2D :: (List.replicate 2 0x30 ++ 0x2D ::
      (List.replicate 2 0x30 ++ 0x54 :: (List.replicate 2 0x30 ++ 0x3A :: (List.replicate 2 0x30 ++ 0x3A ::
        (List.replicate 2 0x30 ++ 0x5A :: []))))) := eq_of_beq laid
  obtain ⟨year,t₁,first,years,rest₁⟩ := shownDigits (by decide) whole
  obtain ⟨month,t₂,rfl,months,rest₂⟩ := shownDigits (by decide) rest₁
  obtain ⟨day,t₃,rfl,days,rest₃⟩ := shownDigits (by decide) rest₂
  obtain ⟨hour,t₄,rfl,hours,rest₄⟩ := shownDigits (by decide) rest₃
  obtain ⟨minute,t₅,rfl,minutes,rest₅⟩ := shownDigits (by decide) rest₄
  obtain ⟨second,t₆,rfl,seconds,rest₆⟩ := shownDigits (by decide) rest₅
  cases List.map_eq_nil_iff.mp rest₆
  exact ⟨year,month,day,hour,minute,second,first,years,months,days,hours,minutes,seconds⟩

theorem digitsThere {n start : Nat} {mark : CodeUnit} {t ds before rest : Text} (stop : Nat) (next : start + n + 1 = stop)
    (digits : Digits n ds) (here : before.length = start) (same : t = before ++ (ds ++ mark :: rest)) :
    Text.padded n (digitsAt t start n).toNat = ds ∧ (before ++ ds ++ [mark]).length = stop ∧
      t = before ++ ds ++ [mark] ++ rest := by
  obtain ⟨rfl,digits⟩ := digits
  subst here same next
  refine ⟨?_,by simp [Nat.add_assoc],by simp⟩
  rw [digitsAt,List.drop_left,List.take_left]
  exact Text.paddedDigits ds digits

theorem ofTextCivil {t : Text} {i : Instant} (read : ofText t = .ok i) :
    hasLayout t = true ∧ i.toCivil = civilOf t := by
  unfold ofText at read
  split at read
  · rename_i laid
    simp only at read
    split at read
    · rename_i real
      cases read
      exact ⟨laid,real⟩
    · cases read
  · cases read

theorem textRead {t : Text} {i : Instant} (read : ofText t = .ok i) : i.text = t.take 19 ++ Text.of ".000Z" := by
  obtain ⟨laid,real⟩ := ofTextCivil read
  obtain ⟨year,month,day,hour,minute,second,parts⟩ := layoutParts laid
  have origin : ([] : Text).length = 0 := rfl
  obtain ⟨years,here₁,same₁⟩ := digitsThere 5 rfl parts.year origin parts.whole
  obtain ⟨months,here₂,same₂⟩ := digitsThere 8 rfl parts.month here₁ same₁
  obtain ⟨days,here₃,same₃⟩ := digitsThere 11 rfl parts.day here₂ same₂
  obtain ⟨hours,here₄,same₄⟩ := digitsThere 14 rfl parts.hour here₃ same₃
  obtain ⟨minutes,here₅,same₅⟩ := digitsThere 17 rfl parts.minute here₄ same₄
  obtain ⟨seconds,_,_⟩ := digitsThere 20 rfl parts.second here₅ same₅
  have cut {front : Text} (same : t = front ++ (second ++ [0x5A])) (here : front.length = 17) :
      t.take 19 = front ++ second := by
    rw [same,← List.append_assoc]
    exact List.take_left' (by rw [List.length_append,here,parts.second.length])
  rw [cut same₅ here₅,text,real]
  simp only [civilOf,years,months,days,hours,minutes,seconds]
  simp

end Instant
end AuditLog
