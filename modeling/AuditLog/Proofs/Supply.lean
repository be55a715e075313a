import AuditLog.Proofs.Characters

/-! The chunks of a file, one a read. None is empty and no border between two parts a pair of surrogates,
however the bytes are cut; after the last one there is nothing more to read. So it is for every chunk size
that is above zero as a signed word of 32 bits; of any other, no read gets at a byte. Scanners leave their
source as so many reads leave it. -/
namespace AuditLog

namespace Text

def PartsPair (s t : Text) : Prop :=
  ∃ u v, s.getLast? = some u ∧ t.head? = some v ∧ isHigh u = true ∧ isLow v = true

theorem wholeLast : (t : Text) → t.wellFormed = true → ∀ u, t.getLast? = some u → isHigh u = false
  | [], _, _, last => by cases last
  | [u], whole, _, last => by
      cases last
      exact scalarNotHigh (by simpa [wellFormed,codePoints,codePointsOnto] using whole)
  | u :: v :: rest, whole, w, last => by
      by_cases pair : (isHigh u && isLow v) = true
      · have halves := pair
        rw [Bool.and_eq_true] at halves
        rw [wellFormed,codePointsPair u v rest halves.1 halves.2,List.all_cons,Bool.and_eq_true] at whole
        cases rest with
        | nil =>
            have same : v = w := by simpa using last
            subst same
            have low := lowBounds.mp halves.2
            rw [Bool.eq_false_iff,ne_eq,highBounds]
            omega
        | cons x rest => exact wholeLast (x :: rest) whole.2 w last
      · rw [wellFormed,codePointsAlone u v rest (Bool.eq_false_iff.mpr pair),List.all_cons,Bool.and_eq_true] at whole
        exact wholeLast (v :: rest) whole.2 w last

theorem wholePartsNone {s : Text} (whole : s.wellFormed = true) (t : Text) : ¬ PartsPair s t := by
  rintro ⟨u,_,last,_,high,_⟩
  rw [wholeLast s whole u last] at high
  cases high

theorem wholeAppend {s t : Text} (first : s.wellFormed = true) (second : t.wellFormed = true) :
    (s ++ t).wellFormed = true := by
  rw [wellFormed,codePointsAppend t s first,List.all_append,Bool.and_eq_true]
  exact ⟨first,second⟩

theorem ofCodePointWhole {n : Nat} (scalar : isScalar n = true) (bounded : n < 0x110000) :
    (ofCodePoint n).wellFormed = true := by
  by_cases printed : 0x20 ≤ n
  · exact (ofCodePointClean printed scalar bounded).paired
  · have unit : (UInt16.ofNat n).toNat = n := UInt16.toNat_ofNat_of_lt' (by change _ < 0x10000; omega)
    have one : ofCodePoint n = [UInt16.ofNat n] := if_pos (by omega)
    rw [one]
    simpa [wellFormed,codePoints,codePointsOnto,unit] using scalar

theorem ofCodePointFilled (n : Nat) : ofCodePoint n ≠ [] := by
  unfold ofCodePoint
  split <;> nofun

end Text

namespace Utf8

theorem decodedWhole {bytes : Bytes} {t : Text} (decoded : Decoded bytes t) : t.wellFormed = true := by
  induction decoded with
  | nil => rfl
  | character is _ ih => exact Text.wholeAppend (Text.ofCodePointWhole is.1 is.2) ih
  | flaw _ _ ih => exact Text.wholeAppend (s := [replacement]) (by decide) ih

theorem decodedFilled {bytes : Bytes} {t : Text} (decoded : Decoded bytes t) (filled : bytes ≠ []) : t ≠ [] := by
  cases decoded with
  | nil => exact absurd rfl filled
  | character is _ => exact fun none => Text.ofCodePointFilled _ (List.append_eq_nil_iff.mp none).1
  | flaw _ _ => nofun

end Utf8

namespace Source
open Utf8

theorem assembleChunks (kept : Bytes) (pieces : List Bytes) :
    ∀ chunk ∈ assemble kept pieces, chunk ≠ [] ∧ chunk.wellFormed = true := by
  have whole (bytes : Bytes) : (decode bytes).wellFormed = true := decodedWhole (decodedIff.mpr rfl)
  induction pieces generalizing kept with
  | nil =>
      rw [assemble]
      split
      · exact List.forall_mem_nil _
      · rename_i some
        rw [List.isEmpty_iff] at some
        exact List.forall_mem_singleton.mpr ⟨decodedFilled (decodedIff.mpr rfl) some,whole kept⟩
  | cons piece rest ih =>
      simp only [assemble]
      split
      · exact ih _
      · rename_i some
        rw [List.isEmpty_iff] at some
        exact List.forall_mem_cons.mpr ⟨⟨some,whole _⟩,ih _⟩

def reads : Nat → Source → List (Except FileFlaw (Option Text))
  | 0, _ => []
  | n + 1, s => s.read.1 :: reads n s.read.2

def afterReads : Nat → Source → Source
  | 0, s => s
  | n + 1, s => afterReads n s.read.2

theorem readsPending (chunks : List Text) (history : List Access) (n : Nat) :
    reads n ⟨chunks,none,history⟩ =
      (chunks.take n).map (fun chunk => .ok (some chunk)) ++ List.replicate (n - chunks.length) (.ok none) := by
  induction n generalizing chunks history with
  | zero => simp [reads]
  | succ n ih =>
      cases chunks with
      | nil =>
          rw [reads,read,ih,List.take_nil,List.take_nil,List.length_nil,Nat.sub_zero,Nat.sub_zero,List.replicate_succ]
          rfl
      | cons chunk rest =>
          rw [reads,read,ih,List.take_succ_cons,List.length_cons,Nat.succ_sub_succ]
          rfl

theorem readsBroken (flaw : FileFlaw) (history : List Access) (n : Nat) :
    reads n ⟨[],some flaw,history⟩ = List.replicate n (.error flaw) := by
  induction n generalizing history with
  | zero => rfl
  | succ n ih =>
      rw [reads,read,ih,List.replicate_succ]

/-- Reads of the source give these chunks and then, for ever, none. The chunks are not empty, none is cut within a
pair of surrogates, and joined they are the one reading of all these bytes as characters and flaws, which is what
decoding them at once gives. -/
structure Conveys (source : Source) (bytes : Bytes) (chunks : List Text) : Prop where
  reads : ∀ n, reads n source =
    (chunks.take n).map (fun chunk => .ok (some chunk)) ++ List.replicate (n - chunks.length) (.ok none)
  filled : ∀ chunk ∈ chunks, chunk ≠ []
  paired : ∀ chunk ∈ chunks, chunk.wellFormed = true ∧ ∀ next, ¬ Text.PartsPair chunk next
  reading : ∀ t, Decoded bytes t ↔ chunks.flatten = t
  whole : chunks.flatten = decode bytes

theorem cutConveys (size : ChunkSize) (bytes : Bytes) :
    (ofChunks (assemble [] (size.cut bytes))).Conveys bytes (assemble [] (size.cut bytes)) where
  reads := readsPending _ []
  filled chunk member := (assembleChunks [] (size.cut bytes) chunk member).1
  paired chunk member :=
    have whole := (assembleChunks [] (size.cut bytes) chunk member).2
    ⟨whole,Text.wholePartsNone whole⟩
  reading t := by
    rw [cutWhole]
    exact decodedIff
  whole := cutWhole size bytes

theorem decodeFilled {bytes : Bytes} (filled : bytes ≠ []) : decode bytes ≠ [] :=
  decodedFilled (decodedIff.mpr rfl) filled

theorem bareConveys {broken : Option FileFlaw} {bytes : Bytes} {chunks : List Text}
    (conveys : Conveys ⟨[],broken,[]⟩ bytes chunks) : broken = none ∧ bytes = [] := by
  have first := conveys.reads 1
  cases chunks with
  | nil =>
      refine ⟨?_,?_⟩
      · cases broken with
        | none => rfl
        | some flaw => rw [readsBroken] at first; cases first
      · exact Decidable.of_not_not (fun filled => decodeFilled filled conveys.whole.symm)
  | cons chunk rest =>
      cases broken with
      | none => rw [readsPending] at first; cases first
      | some flaw => rw [readsBroken] at first; cases first

theorem askingConveys {length : Int} {bytes : Bytes} :
    (∃ chunks, (asking length (fun size => ofChunks (assemble [] (size.cut bytes)))).Conveys bytes chunks) ↔
      0 < length ∨ length = 0 ∧ bytes = [] := by
  by_cases above : 0 < length
  · obtain ⟨size,served⟩ := askingAbove (fun size => ofChunks (assemble [] (size.cut bytes))) above
    rw [served]
    exact ⟨fun _ => .inl above,fun _ => ⟨_,cutConveys size bytes⟩⟩
  · rw [askingBare _ (Int.not_lt.mp above)]
    constructor
    · rintro ⟨_,conveys⟩
      obtain ⟨whole,empty⟩ := bareConveys conveys
      split at whole
      · cases whole
      · exact .inr ⟨by omega,empty⟩
    · rintro (positive | ⟨rfl,rfl⟩)
      · exact absurd positive above
      · have nothing := cutConveys ChunkSize.standard []
        rw [ChunkSize.cut,assemble] at nothing
        exact ⟨[],nothing⟩

/-- A file conveys its bytes exactly if reads ask for a length above zero, as they do for every chunk size below
2147483648, or if they ask for none and there is nothing to convey. Asked for no byte, every read gives none, whatever
is in the file; asked for a length below zero, every read is refused. -/
theorem fileSupplied (size : ChunkSize) (path : Text) (bytes : Bytes) :
    ∃ source, ofFile size path (.content bytes) = .ok source ∧
      ((∃ chunks, source.Conveys bytes chunks) ↔ 0 < size.asked ∨ size.asked = 0 ∧ bytes = []) ∧
      (size.asked = 0 → ∀ n, reads n source = List.replicate n (.ok none)) ∧
      (size.asked < 0 → ∀ n, reads n source = List.replicate n (.error (.length size.asked))) ∧
      (size.size < 2147483648 → 0 < size.asked) := by
  refine ⟨_,rfl,askingConveys,fun none n => ?_,fun below n => ?_,ChunkSize.askedAbove⟩
  · rw [ofBytes,askingBare _ (by omega),if_neg (by omega),readsPending,List.take_nil]
    rfl
  · rw [ofBytes,askingBare _ (by omega),if_pos below]
    exact readsBroken _ [] n

/-- Of this size, a read asks for no byte at all, and the file seems to have ended before it began. -/
theorem wrappedSizeReadsNothing :
    let size : ChunkSize := ⟨4294967296,by decide⟩
    ∃ source, ofFile size (Text.of "f") (.content [0x61]) = .ok source ∧ decode [0x61] = Text.of "a" ∧
      reads 1 source = [.ok none] ∧ ¬ ∃ chunks, source.Conveys [0x61] chunks := by
  intro size
  have none : size.asked = 0 := by decide +kernel
  have opened : ofBytes size [0x61] = ofChunks [] := by
    rw [ofBytes,none]
    rfl
  refine ⟨_,rfl,by decide,?_,?_⟩
  · rw [opened]
    rfl
  · rw [opened]
    rintro ⟨_,conveys⟩
    cases (bareConveys conveys).2

end Source

namespace Scanner
variable {σ α : Type}

theorem refillAfterReads (m : Scanner σ α) (state : σ) (position : Nat) (broken : Option FileFlaw) (history : List Access)
    (pending : List Text) :
    ∃ n, (m.refill broken state position history pending).2.source = Source.afterReads n ⟨pending,broken,history⟩ := by
  induction pending generalizing state position history with
  | nil =>
      refine ⟨1,?_⟩
      rw [m.refillByReads state position ⟨[],broken,history⟩]
      cases broken <;> rfl
  | cons chunk pending ih =>
      rw [m.refillByReads state position ⟨chunk :: pending,broken,history⟩]
      simp only [Source.read]
      split
      · obtain ⟨n,same⟩ := ih ‹_› ‹_› (.read :: history)
        exact ⟨n + 1,same⟩
      · exact ⟨1,rfl⟩

theorem runAfterReads (m : Scanner σ α) (state : σ) (i : Input) :
    ∃ n, (m.run state i).2.source = i.source.afterReads n := by
  unfold run
  split
  · exact ⟨0,rfl⟩
  · split
    · exact ⟨0,rfl⟩
    · exact m.refillAfterReads ‹_› ‹_› i.source.broken i.source.history i.source.pending

end Scanner
end AuditLog
