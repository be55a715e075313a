import AuditLog.Source

/-! Bytes that come in pieces. What is held back is the start of a character, so that decoding what is
complete and, later, what was held back together with what follows is decoding the whole. -/
namespace AuditLog

namespace Utf8

def Follows (b : UInt8) : Prop := 0x80 ≤ b ∧ b < 0xC0

def Unfinished (bytes : Bytes) (missing : Nat) : Prop :=
  ∃ before lead tail, bytes = before ++ lead :: tail ∧ (∀ b ∈ tail, Follows b) ∧
    tail.length + 1 + missing = announced lead

def Decoder.Waits (d : Decoder) (bytes : Bytes) : Prop :=
  ∀ p, d.pending = some p → Unfinished bytes (p.more + 1) ∧ ∀ b, p.low ≤ b → b ≤ p.high → Follows b

theorem feedWritten (written : Text) (d : Decoder) (b : UInt8) :
    Decoder.feed ⟨d.written ++ written,d.pending⟩ b = ⟨(d.feed b).written ++ written,(d.feed b).pending⟩ := by
  have lead (before : Text) : Decoder.lead (before ++ written) b =
      ⟨(Decoder.lead before b).written ++ written,(Decoder.lead before b).pending⟩ := by
    unfold Decoder.lead
    repeat' split
    all_goals rfl
  unfold Decoder.feed
  cases d.pending with
  | none => exact lead d.written
  | some p =>
      simp only
      split
      · cases p.more with
        | zero => simp
        | succ more => rfl
      · exact lead (replacement :: d.written)

theorem foldWritten (written : Text) (d : Decoder) (bytes : Bytes) :
    bytes.foldl Decoder.feed ⟨d.written ++ written,d.pending⟩ =
      ⟨(bytes.foldl Decoder.feed d).written ++ written,(bytes.foldl Decoder.feed d).pending⟩ := by
  induction bytes generalizing d with
  | nil => rfl
  | cons b bytes ih => rw [List.foldl_cons,feedWritten,ih,List.foldl_cons]

theorem finishWritten (written : Text) (d : Decoder) :
    Decoder.finish ⟨d.written ++ written,d.pending⟩ = written.reverse ++ d.finish := by
  unfold Decoder.finish
  cases d.pending <;> simp

theorem finishFrom (written : Text) (bytes : Bytes) :
    (bytes.foldl Decoder.feed ⟨written,none⟩).finish = written.reverse ++ decode bytes := by
  have moved := foldWritten written Decoder.fresh bytes
  rw [decode,← finishWritten,← moved]
  rfl

theorem leadWaits (written : Text) (before : Bytes) (b : UInt8) : (Decoder.lead written b).Waits (before ++ [b]) := by
  intro p pending
  have short {more : Nat} (size : 1 + (more + 1) = announced b) : Unfinished (before ++ [b]) (more + 1) :=
    ⟨before,b,[],rfl,nofun,by simpa using size⟩
  unfold Decoder.lead at pending
  repeat' split at pending
  all_goals first | (cases pending; done) | skip
  all_goals
    cases pending
    refine ⟨short ?_,fun c low high => ?_⟩
  all_goals
    simp only [announced,Follows,UInt8.lt_iff_toNat_lt,UInt8.le_iff_toNat_le] at *
    grind

theorem feedWaits {d : Decoder} {before : Bytes} (waits : d.Waits before) (b : UInt8) :
    (d.feed b).Waits (before ++ [b]) := by
  unfold Decoder.feed
  cases same : d.pending with
  | none => exact leadWaits _ _ _
  | some p =>
      simp only
      split
      · rename_i inside
        simp only [Bool.and_eq_true,decide_eq_true_eq] at inside
        obtain ⟨⟨front,lead,tail,rfl,follow,size⟩,range⟩ := waits p same
        cases more : p.more with
        | zero => exact nofun
        | succ more' =>
            intro q pending
            cases pending
            refine ⟨⟨front,lead,tail ++ [b],by simp,?_,?_⟩,fun c low high => ?_⟩
            · intro c member
              rcases List.mem_append.mp member with old | new
              · exact follow c old
              · rw [List.mem_singleton.mp new]; exact range b inside.1 inside.2
            · simp only [List.length_append,List.length_singleton]; omega
            · simp only [Follows,UInt8.lt_iff_toNat_lt,UInt8.le_iff_toNat_le] at *
              exact ⟨low,Nat.lt_succ_of_le high⟩
      · exact leadWaits _ _ _

theorem foldWaits {d : Decoder} {before : Bytes} (waits : d.Waits before) (bytes : Bytes) :
    (bytes.foldl Decoder.feed d).Waits (before ++ bytes) := by
  induction bytes generalizing d before with
  | nil => rw [List.append_nil]; exact waits
  | cons b bytes ih =>
      have fed := ih (feedWaits waits b)
      rwa [List.append_assoc,List.singleton_append] at fed

theorem lookBackPast {tail rest : Bytes} (follow : ∀ b ∈ tail, Follows b) (limit seen : Nat) :
    lookBack (limit + tail.length) seen (tail ++ rest) = lookBack limit (seen + tail.length) rest := by
  induction tail generalizing seen with
  | nil => rfl
  | cons b tail ih =>
      obtain ⟨here,others⟩ := List.forall_mem_cons.mp follow
      have further : (0x80 ≤ b && b < 0xC0) = true := by simpa [Follows] using here
      rw [List.length_cons,← Nat.add_assoc,List.cons_append,lookBack,if_pos further,ih others]
      congr 1
      omega

theorem lookBackFound {limit seen : Nat} {bytes : Bytes} (found : 0 < lookBack limit seen bytes) :
    ∃ tail lead before, bytes = tail ++ lead :: before ∧ lookBack limit seen bytes = seen + tail.length + 1 ∧
      1 < announced lead := by
  induction bytes generalizing limit seen with
  | nil => cases limit <;> exact absurd found (Nat.lt_irrefl 0)
  | cons b bytes ih =>
      cases limit with
      | zero => exact absurd found (Nat.lt_irrefl 0)
      | succ limit =>
          rw [lookBack] at found ⊢
          split at found
          · rename_i follows
            obtain ⟨tail,lead,before,rfl,count,starts⟩ := ih found
            refine ⟨b :: tail,lead,before,rfl,?_,starts⟩
            rw [if_pos follows,count,List.length_cons]
            omega
          · rename_i other
            split at found
            · rename_i short
              exact ⟨[],b,bytes,rfl,by rw [if_neg other,if_pos short]; rfl,by omega⟩
            · exact absurd found (Nat.lt_irrefl 0)

theorem announcedLead {b : UInt8} (starts : 1 < announced b) : ¬ Follows b ∧ announced b ≤ 4 := by
  unfold announced Follows at *
  grind

theorem heldStarts {bytes : Bytes} (found : 0 < heldCount bytes) :
    ∃ lead rest, held bytes = lead :: rest ∧ ¬ Follows lead := by
  obtain ⟨tail,lead,before,same,count,starts⟩ := lookBackFound found
  have whole : bytes = before.reverse ++ (lead :: tail.reverse) := by
    rw [← List.reverse_reverse bytes,same]
    simp
  refine ⟨lead,tail.reverse,?_,(announcedLead starts).1⟩
  rw [held,heldCount,count]
  have front : bytes.length - (0 + tail.length + 1) = before.reverse.length := by
    rw [whole]
    simp only [List.length_append,List.length_cons,List.length_reverse]
    omega
  rw [front,whole,List.drop_left]

theorem unfinishedHeld {bytes : Bytes} {missing : Nat} (unfinished : Unfinished bytes (missing + 1)) :
    0 < heldCount bytes := by
  obtain ⟨before,lead,tail,rfl,follow,size⟩ := unfinished
  obtain ⟨other,bound⟩ := announcedLead (b := lead) (by omega)
  have further : ¬ (0x80 ≤ lead && lead < 0xC0) = true := by simpa [Follows] using other
  obtain ⟨limit,three⟩ : ∃ limit, 3 = limit + 1 + tail.reverse.length :=
    ⟨2 - tail.length,by rw [List.length_reverse]; omega⟩
  rw [heldCount,List.reverse_append,List.reverse_cons,List.append_assoc,three,
    lookBackPast (fun b member => follow b (List.mem_reverse.mp member)),List.singleton_append,lookBack,if_neg further,
    if_pos (by rw [List.length_reverse]; omega)]
  exact Nat.succ_pos _

theorem decodeCompleted (bytes more : Bytes) :
    decode (bytes ++ more) = decode (complete bytes) ++ decode (held bytes ++ more) := by
  have fresh : Decoder.fresh.Waits [] := nofun
  have waits := foldWaits fresh (complete bytes)
  rw [List.nil_append] at waits
  conv => lhs; rw [← completeHeld bytes,List.append_assoc]
  rw [decode,decode,List.foldl_append]
  generalize (complete bytes).foldl Decoder.feed Decoder.fresh = d at waits ⊢
  obtain ⟨written,pending⟩ := d
  cases pending with
  | none => exact finishFrom written _
  | some p =>
      obtain ⟨unfinished,range⟩ := waits p rfl
      have waiting : 0 < heldCount bytes := by
        refine Nat.pos_of_ne_zero (fun none => ?_)
        have found := unfinishedHeld unfinished
        rw [complete,none,Nat.sub_zero,List.take_length,none] at found
        exact absurd found (Nat.lt_irrefl 0)
      obtain ⟨lead,rest,same,other⟩ := heldStarts waiting
      have outside : ¬ (p.low ≤ lead && lead ≤ p.high) = true := by
        intro inside
        simp only [Bool.and_eq_true,decide_eq_true_eq] at inside
        exact other (range lead inside.1 inside.2)
      have fed : Decoder.feed ⟨written,some p⟩ lead = Decoder.feed ⟨replacement :: written,none⟩ lead := by
        simp only [Decoder.feed,if_neg outside]
      rw [same,List.cons_append,List.foldl_cons,fed,← List.foldl_cons,finishFrom]
      rfl

end Utf8

namespace Source
open Utf8

theorem assembleFlatten (kept : Bytes) (pieces : List Bytes) :
    (assemble kept pieces).flatten = decode (kept ++ pieces.flatten) := by
  induction pieces generalizing kept with
  | nil =>
      rw [assemble,List.flatten_nil,List.append_nil]
      cases kept with
      | nil => rfl
      | cons b kept => simp
  | cons piece rest ih =>
      have whole : (assemble kept (piece :: rest)).flatten =
          decode (complete (kept ++ piece)) ++ (assemble (held (kept ++ piece)) rest).flatten := by
        simp only [assemble]
        split
        · rename_i empty; rw [List.isEmpty_iff.mp empty]; rfl
        · rfl
      rw [whole,ih,← decodeCompleted,List.flatten_cons,List.append_assoc]

theorem cutWhole (size : ChunkSize) (bytes : Bytes) : (assemble [] (size.cut bytes)).flatten = decode bytes := by
  rw [assembleFlatten,size.cutFlatten,List.nil_append]

end Source
end AuditLog
