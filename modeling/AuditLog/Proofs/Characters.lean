import AuditLog.Proofs.Clean
import AuditLog.Proofs.Pieces

/-! UTF-8 said by its characters. Bytes are a row of encoded characters and of flaws between them; a flaw
is the longest start of a character that cannot go on, or one byte that starts none, and stands for one
replacement unit. Each row of bytes has one such reading, and that is what decoding gives. -/
namespace AuditLog.Utf8

def IsCharacter (n : Nat) : Prop := Text.isScalar n = true ∧ n < 0x110000

def Starts (part : Bytes) : Prop := ∃ n, IsCharacter n ∧ part <+: encodePoint n

structure Flaw (part rest : Bytes) : Prop where
  filled : part ≠ []
  none : ∀ n, IsCharacter n → ¬ encodePoint n <+: part ++ rest
  longest : (Starts part ∧ ∀ b, rest.head? = some b → ¬ Starts (part ++ [b])) ∨ ∃ b, part = [b] ∧ ¬ Starts [b]

inductive Decoded : Bytes → Text → Prop where
  | nil : Decoded [] []
  | character {n rest t} (is : IsCharacter n) (others : Decoded rest t) :
      Decoded (encodePoint n ++ rest) (Text.ofCodePoint n ++ t)
  | flaw {part rest t} (flaw : Flaw part rest) (others : Decoded rest t) :
      Decoded (part ++ rest) (replacement :: t)

def upper (n : Nat) : Nat → Nat
  | 0 => n
  | more + 1 => upper n more / 0x40

def following (n more : Nat) : UInt8 := UInt8.ofNat (0x80 + upper n more % 0x40)

def trailing (n : Nat) : Nat → Bytes
  | 0 => []
  | more + 1 => following n more :: trailing n more

theorem byteOfNat {n : Nat} (small : n < 0x100) : (UInt8.ofNat n).toNat = n := UInt8.toNat_ofNat_of_lt' small

theorem followingNat (n more : Nat) : (following n more).toNat = 0x80 + upper n more % 0x40 := byteOfNat (by omega)

theorem upperOnto (v more : Nat) : ∃ n, upper n more = v := by
  induction more generalizing v with
  | zero => exact ⟨v,rfl⟩
  | succ more ih =>
      obtain ⟨n,same⟩ := ih (v * 0x40)
      exact ⟨n,by rw [upper,same]; omega⟩

namespace Pending

structure Under (p : Pending) (part : Bytes) : Prop where
  open' : p.low ≤ p.high
  range : 0x80 ≤ p.low.toNat ∧ p.high.toNat ≤ 0xBF
  every : ∀ b n, p.low ≤ b → b ≤ p.high → upper n p.more + 0x80 = p.value * 0x40 + b.toNat →
    IsCharacter n ∧ encodePoint n = part ++ b :: trailing n p.more

structure Toward (p : Pending) (n : Nat) : Prop where
  value : p.value = upper n (p.more + 1)
  low : p.low ≤ following n p.more
  high : following n p.more ≤ p.high

theorem towardBits {p : Pending} {n : Nat} (value : p.value = upper n p.more / 0x40)
    (low : p.low.toNat ≤ 0x80 + upper n p.more % 0x40) (high : 0x80 + upper n p.more % 0x40 ≤ p.high.toNat) :
    p.Toward n := by
  rw [← followingNat] at low high
  exact ⟨value,UInt8.le_iff_toNat_le.mpr low,UInt8.le_iff_toNat_le.mpr high⟩

end Pending

open Pending

theorem encodeLong {n more : Nat} {lead : UInt8} (is : IsCharacter n)
    (size : more = 0 ∧ 0x80 ≤ n ∧ n < 0x800 ∧ lead.toNat = 0xC0 + n / 0x40 ∨
      more = 1 ∧ 0x800 ≤ n ∧ n < 0x10000 ∧ lead.toNat = 0xE0 + n / 0x1000 ∨
      more = 2 ∧ 0x10000 ≤ n ∧ lead.toNat = 0xF0 + n / 0x40000) :
    encodePoint n = lead :: trailing n (more + 1) := by
  have bound := is.2
  have byte {m : Nat} (same : lead.toNat = m) : lead = UInt8.ofNat m := by rw [← same,UInt8.ofNat_toNat]
  rcases size with ⟨rfl,small,large,same⟩ | ⟨rfl,small,large,same⟩ | ⟨rfl,small,same⟩
  · rw [encodePoint,if_neg (by omega),if_pos large,byte same]; rfl
  · rw [encodePoint,if_neg (by omega),if_neg (by omega),if_pos large,byte same]; rfl
  · have far : n / 0x40 / 0x40 = n / 0x1000 := by omega
    rw [encodePoint,if_neg (by omega),if_neg (by omega),if_neg (by omega),byte same]
    simp only [trailing,following,upper,far]

theorem followingByte {p : Pending} {b : UInt8} {n : Nat} (low : 0x80 ≤ b.toNat) (high : b.toNat ≤ 0xBF)
    (next : upper n p.more + 0x80 = p.value * 0x40 + b.toNat) : following n p.more = b := by
  have same := followingNat n p.more
  exact UInt8.toNat_inj.mp (by omega)

def Pending.Range (p : Pending) (least low last high : Nat) : Prop :=
  (p.value = least ∧ p.low.toNat = low ∨ p.value ≠ least ∧ p.low.toNat = 0x80) ∧
    (p.value = last ∧ p.high.toNat = high ∨ p.value ≠ last ∧ p.high.toNat = 0xBF)

def Pending.LedBy (p : Pending) (b : UInt8) : Prop :=
  (p.more = 0 ∧ b.toNat = 0xC0 + p.value ∧ 2 ≤ p.value ∧ p.value < 0x20 ∧
      p.low.toNat = 0x80 ∧ p.high.toNat = 0xBF) ∨
    (p.more = 1 ∧ b.toNat = 0xE0 + p.value ∧ p.value < 0x10 ∧
      Range p 0 0xA0 0xD 0x9F) ∨
    (p.more = 2 ∧ b.toNat = 0xF0 + p.value ∧ p.value < 5 ∧
      Range p 0 0x90 4 0x8F)

theorem leadCases (b : UInt8) :
    (b.toNat < 0x80 ∧ ∀ written, Decoder.lead written b = ⟨b.toUInt16 :: written,none⟩) ∨
      (∃ p : Pending, p.LedBy b ∧ ∀ written, Decoder.lead written b = ⟨written,some p⟩) ∨
      (0x80 ≤ b.toNat ∧ (b.toNat < 0xC2 ∨ 0xF5 ≤ b.toNat)) ∧
        ∀ written, Decoder.lead written b = ⟨replacement :: written,none⟩ := by
  have stricter (c strict usual : UInt8) {base least : Nat} (same : c.toNat = base + least) (above : base ≤ b.toNat) :
      b.toNat - base = least ∧ (if b = c then strict else usual).toNat = strict.toNat ∨
        b.toNat - base ≠ least ∧ (if b = c then strict else usual).toNat = usual.toNat := by
    split
    · rename_i is
      rw [is]
      exact .inl ⟨by omega,rfl⟩
    · rename_i other
      have apart := mt UInt8.toNat_inj.mp other
      exact .inr ⟨by omega,rfl⟩
  unfold Decoder.lead
  simp only [UInt8.lt_iff_toNat_lt,UInt8.reduceToNat]
  by_cases ascii : b.toNat < 0x80
  · exact .inl ⟨ascii,fun written => if_pos ascii⟩
  by_cases stray : b.toNat < 0xC2
  · exact .inr (.inr ⟨⟨by omega,.inl stray⟩,fun written => by rw [if_neg ascii,if_pos stray]⟩)
  by_cases two : b.toNat < 0xE0
  · refine .inr (.inl ⟨_,?_,fun written => by rw [if_neg ascii,if_neg stray,if_pos two]⟩)
    exact .inl ⟨rfl,by simp only; omega,by simp only; omega,by simp only; omega,rfl,rfl⟩
  by_cases three : b.toNat < 0xF0
  · refine .inr (.inl ⟨_,?_,fun written => by rw [if_neg ascii,if_neg stray,if_neg two,if_pos three]⟩)
    exact .inr (.inl ⟨rfl,by simp only; omega,by simp only; omega,
      stricter 0xE0 0xA0 0x80 rfl (by omega),stricter 0xED 0x9F 0xBF rfl (by omega)⟩)
  by_cases four : b.toNat < 0xF5
  · refine .inr (.inl ⟨_,?_,fun written => by rw [if_neg ascii,if_neg stray,if_neg two,if_neg three,if_pos four]⟩)
    exact .inr (.inr ⟨rfl,by simp only; omega,by simp only; omega,
      stricter 0xF0 0x90 0x80 rfl (by omega),stricter 0xF4 0x8F 0xBF rfl (by omega)⟩)
  · refine .inr (.inr ⟨⟨by omega,.inr (by omega)⟩,fun written => ?_⟩)
    rw [if_neg ascii,if_neg stray,if_neg two,if_neg three,if_neg four]

theorem ledRange {p : Pending} {b : UInt8} (led : p.LedBy b) :
    0x80 ≤ p.low.toNat ∧ p.low.toNat ≤ p.high.toNat ∧ p.high.toNat ≤ 0xBF := by
  unfold LedBy Range at led
  omega

theorem ledLong {p : Pending} {b c : UInt8} {n : Nat} (led : p.LedBy b) (above : p.low.toNat ≤ c.toNat)
    (below : c.toNat ≤ p.high.toNat) (next : upper n p.more + 0x80 = p.value * 0x40 + c.toNat) :
    IsCharacter n ∧ encodePoint n = b :: trailing n (p.more + 1) := by
  have is (apart : n < 0xD800 ∨ 0xE000 ≤ n) (bound : n < 0x110000) : IsCharacter n := by
    simpa [IsCharacter,Text.isScalar] using ⟨apart,bound⟩
  rcases led with ⟨more,lead,_,_,low,high⟩ | ⟨more,lead,_,low,high⟩ | ⟨more,lead,_,low,high⟩
  · rw [more,upper] at next
    have one := is (by omega) (by omega)
    exact ⟨one,encodeLong one (.inl ⟨more,by omega,by omega,by omega⟩)⟩
  · rw [more,upper,upper] at next
    have one := is (by omega) (by omega)
    exact ⟨one,encodeLong one (.inr (.inl ⟨more,by omega,by omega,by omega⟩))⟩
  · rw [more,upper,upper,upper] at next
    have one := is (by omega) (by omega)
    exact ⟨one,encodeLong one (.inr (.inr ⟨more,by omega,by omega⟩))⟩

theorem ledUnder {p : Pending} {b : UInt8} (led : p.LedBy b) : p.Under [b] := by
  obtain ⟨least,open',most⟩ := ledRange led
  refine ⟨UInt8.le_iff_toNat_le.mpr open',⟨least,most⟩,fun c n above below next => ?_⟩
  rw [UInt8.le_iff_toNat_le] at above below
  obtain ⟨is,whole⟩ := ledLong led above below next
  rw [trailing,followingByte (by omega) (by omega) next] at whole
  exact ⟨is,whole⟩

theorem underStarts {p : Pending} {part : Bytes} {b : UInt8} (under : p.Under part) (low : p.low ≤ b) (high : b ≤ p.high) :
    Starts (part ++ [b]) := by
  have least := UInt8.le_iff_toNat_le.mp low
  have follows := under.range.1
  obtain ⟨n,same⟩ := upperOnto (p.value * 0x40 + b.toNat - 0x80) p.more
  obtain ⟨is,whole⟩ := under.every b n low high (by omega)
  exact ⟨n,is,trailing n p.more,by rw [whole,List.append_assoc]; rfl⟩

theorem characterLed {n : Nat} (is : IsCharacter n) (long : 0x80 ≤ n) :
    ∃ (b : UInt8) (p : Pending), p.LedBy b ∧ (∀ written, Decoder.lead written b = ⟨written,some p⟩) ∧
      encodePoint n = b :: trailing n (p.more + 1) ∧ p.Toward n := by
  have bound := is.2
  have apart : n < 0xD800 ∨ 0xE000 ≤ n := by simpa [Text.isScalar] using is.1
  obtain ⟨b,first⟩ : ∃ b : UInt8, n < 0x800 ∧ b.toNat = 0xC0 + n / 0x40 ∨
      0x800 ≤ n ∧ n < 0x10000 ∧ b.toNat = 0xE0 + n / 0x1000 ∨ 0x10000 ≤ n ∧ b.toNat = 0xF0 + n / 0x40000 := by
    by_cases two : n < 0x800
    · exact ⟨UInt8.ofNat (0xC0 + n / 0x40),.inl ⟨two,byteOfNat (by omega)⟩⟩
    by_cases three : n < 0x10000
    · exact ⟨UInt8.ofNat (0xE0 + n / 0x1000),.inr (.inl ⟨by omega,three,byteOfNat (by omega)⟩)⟩
    · exact ⟨UInt8.ofNat (0xF0 + n / 0x40000),.inr (.inr ⟨by omega,byteOfNat (by omega)⟩)⟩
  rcases leadCases b with ⟨ascii,_⟩ | ⟨p,led,leads⟩ | ⟨stray,_⟩
  · omega
  · refine ⟨b,p,led,leads,encodeLong is ?_,towardBits ?_ ?_ ?_⟩
    · rcases led with ⟨more,lead,_,bound',_⟩ | ⟨more,lead,bound',_⟩ | ⟨more,lead,bound',_⟩
      · exact .inl ⟨more,long,by omega,by omega⟩
      · exact .inr (.inl ⟨more,by omega,by omega,by omega⟩)
      · exact .inr (.inr ⟨more,by omega,by omega⟩)
    all_goals
      rcases led with ⟨more,led⟩ | ⟨more,lead,bound',low,high⟩ | ⟨more,lead,bound',low,high⟩
      all_goals
        rw [more]
        simp only [upper]
        omega
  · omega

def onward (n more : Nat) : Pending := ⟨more,0x80,0xBF,upper n (more + 1)⟩

theorem onwardToward (n more : Nat) : (onward n more).Toward n := by
  refine towardBits rfl ?_ ?_
  · exact Nat.le_add_right _ _
  · have bits : upper n more % 0x40 < 0x40 := Nat.mod_lt _ (by decide)
    show 0x80 + upper n more % 0x40 ≤ 0xBF
    omega

theorem towardFed (written : Text) {p : Pending} {n : Nat} (toward : p.Toward n) :
    Decoder.feed ⟨written,some p⟩ (following n p.more) =
      match p.more with
      | 0 => ⟨(Text.ofCodePoint n).reverse ++ written,none⟩
      | more + 1 => ⟨written,some (onward n more)⟩ := by
  have inside : (p.low ≤ following n p.more && following n p.more ≤ p.high) = true := by
    simpa using ⟨toward.low,toward.high⟩
  have joined : p.value * 0x40 + ((following n p.more).toNat - 0x80) = upper n p.more := by
    rw [followingNat,toward.value,upper]
    omega
  simp only [Decoder.feed,if_pos inside,joined]
  cases p.more <;> rfl

theorem onwardUnder {p : Pending} {n more : Nat} {part : Bytes} (under : p.Under part) (toward : p.Toward n)
    (size : p.more = more + 1) : (onward n more).Under (part ++ [following n p.more]) := by
  refine ⟨(by decide : (0x80 : UInt8) ≤ 0xBF),⟨Nat.le_refl 0x80,Nat.le_refl 0xBF⟩,fun c m above below next => ?_⟩
  have least : 0x80 ≤ c.toNat := UInt8.le_iff_toNat_le.mp above
  have most : c.toNat ≤ 0xBF := UInt8.le_iff_toNat_le.mp below
  have same : following m more = c := followingByte least most next
  have common : upper m p.more = upper n p.more := by
    have bits : upper m more + 0x80 = upper n (more + 1) * 0x40 + c.toNat := next
    rw [size,upper]
    omega
  have here : upper m p.more + 0x80 = p.value * 0x40 + (following n p.more).toNat := by
    rw [followingNat,toward.value,common,upper]
    omega
  obtain ⟨is,whole⟩ := under.every _ m toward.low toward.high here
  rw [size,trailing,same,← size] at whole
  exact ⟨is,by rw [whole,List.append_assoc]; rfl⟩

theorem trailingRead {written : Text} {p : Pending} {n : Nat} (toward : p.Toward n) :
    (trailing n (p.more + 1)).foldl Decoder.feed ⟨written,some p⟩ =
      ⟨(Text.ofCodePoint n).reverse ++ written,none⟩ := by
  induction size : p.more generalizing p with
  | zero =>
      have fed := towardFed written toward
      rw [size] at fed
      rw [trailing,List.foldl_cons,fed]
      rfl
  | succ more ih =>
      have fed := towardFed written toward
      rw [size] at fed
      rw [trailing,List.foldl_cons,fed]
      exact ih (onwardToward n more) rfl

theorem trailingStarted {written : Text} {p : Pending} {n : Nat} {part tail : Bytes} (under : p.Under part)
    (toward : p.Toward n) (start : tail <+: trailing n (p.more + 1)) (short : tail ≠ trailing n (p.more + 1)) :
    ∃ q : Pending, tail.foldl Decoder.feed ⟨written,some p⟩ = ⟨written,some q⟩ ∧ q.Under (part ++ tail) := by
  induction tail generalizing p part with
  | nil => exact ⟨p,rfl,by rwa [List.append_nil]⟩
  | cons b tail ih =>
      rw [trailing,List.cons_prefix_cons] at start
      obtain ⟨rfl,start⟩ := start
      have fed := towardFed written toward
      cases size : p.more with
      | zero =>
          rw [size] at start
          rw [List.prefix_nil.mp start,trailing,size] at short
          exact absurd rfl short
      | succ more =>
          rw [size] at fed start
          have others : tail ≠ trailing n ((onward n more).more + 1) := by
            rintro rfl
            rw [trailing,size] at short
            exact short rfl
          obtain ⟨q,read,under'⟩ := ih (onwardUnder under toward size) (onwardToward n more) start others
          rw [List.append_assoc,size] at under'
          rw [List.foldl_cons,fed]
          exact ⟨q,read,under'⟩

theorem encodeShort {n : Nat} (short : n < 0x80) : encodePoint n = [UInt8.ofNat n] := if_pos short

theorem shortRead {written : Text} {n : Nat} (short : n < 0x80) :
    Decoder.lead written (UInt8.ofNat n) = ⟨(Text.ofCodePoint n).reverse ++ written,none⟩ := by
  have byte : (UInt8.ofNat n).toNat = n := byteOfNat (by omega)
  have unit : (UInt8.ofNat n).toUInt16 = UInt16.ofNat n := by
    apply UInt16.toNat_inj.mp
    rw [UInt8.toNat_toUInt16,byte,UInt16.toNat_ofNat_of_lt' (Nat.lt_trans short (by decide))]
  have whole : Text.ofCodePoint n = [UInt16.ofNat n] := if_pos (by omega)
  rcases leadCases (UInt8.ofNat n) with ⟨_,leads⟩ | ⟨p,led,_⟩ | ⟨stray,_⟩
  · rw [leads,unit,whole]
    rfl
  · unfold LedBy at led
    omega
  · omega

theorem characterRead (written : Text) {n : Nat} (is : IsCharacter n) :
    (encodePoint n).foldl Decoder.feed ⟨written,none⟩ = ⟨(Text.ofCodePoint n).reverse ++ written,none⟩ := by
  by_cases long : 0x80 ≤ n
  · obtain ⟨b,p,_,leads,whole,toward⟩ := characterLed is long
    rw [whole,List.foldl_cons,Decoder.feed,leads,trailingRead toward]
  · rw [encodeShort (Nat.not_le.mp long),List.foldl_cons,List.foldl_nil,Decoder.feed,shortRead (Nat.not_le.mp long)]

theorem startRead (written : Text) {part : Bytes} (filled : part ≠ []) (starts : Starts part)
    (unended : ∀ n, IsCharacter n → part ≠ encodePoint n) :
    ∃ p : Pending, part.foldl Decoder.feed ⟨written,none⟩ = ⟨written,some p⟩ ∧ p.Under part := by
  obtain ⟨n,is,start⟩ := starts
  cases part with
  | nil => exact absurd rfl filled
  | cons b tail =>
      by_cases long : 0x80 ≤ n
      · obtain ⟨lead,p,led,leads,whole,toward⟩ := characterLed is long
        rw [whole,List.cons_prefix_cons] at start
        obtain ⟨rfl,start⟩ := start
        have short : tail ≠ trailing n (p.more + 1) := by
          rintro rfl
          exact unended n is whole.symm
        rw [List.foldl_cons,Decoder.feed,leads]
        exact trailingStarted (ledUnder led) toward start short
      · have whole := encodeShort (Nat.not_le.mp long)
        rw [whole,List.cons_prefix_cons] at start
        obtain ⟨rfl,start⟩ := start
        rw [List.prefix_nil.mp start] at unended
        exact absurd whole.symm (unended n is)

theorem strayRead {written : Text} {b : UInt8} (stray : ¬ Starts [b]) :
    Decoder.lead written b = ⟨replacement :: written,none⟩ := by
  rcases leadCases b with ⟨ascii,_⟩ | ⟨p,led,_⟩ | ⟨_,leads⟩
  · have is : IsCharacter b.toNat := ⟨by simp only [Text.isScalar,Bool.or_eq_true,decide_eq_true_eq]; omega,by omega⟩
    have whole : encodePoint b.toNat = [b] := by rw [encodeShort ascii,UInt8.ofNat_toNat]
    exact absurd ⟨b.toNat,is,whole ▸ List.prefix_rfl⟩ stray
  · have under := ledUnder led
    obtain ⟨n,is,start⟩ := underStarts under UInt8.le_rfl under.open'
    exact absurd ⟨n,is,(List.prefix_append [b] [p.low]).trans start⟩ stray
  · exact leads written

theorem flawRead {part rest : Bytes} (flaw : Flaw part rest) :
    decode (part ++ rest) = replacement :: decode rest := by
  have alone (read : part.foldl Decoder.feed Decoder.fresh = ⟨[replacement],none⟩) :
      decode (part ++ rest) = replacement :: decode rest := by
    rw [decode,List.foldl_append,read,finishFrom]
    rfl
  rcases flaw.longest with ⟨starts,stops⟩ | ⟨b,rfl,stray⟩
  · have unended (n : Nat) (is : IsCharacter n) : part ≠ encodePoint n := fun same =>
      flaw.none n is (same ▸ List.prefix_append part rest)
    obtain ⟨p,read,under⟩ := startRead [] flaw.filled starts unended
    have fresh : part.foldl Decoder.feed Decoder.fresh = ⟨[],some p⟩ := read
    cases rest with
    | nil =>
        rw [List.append_nil,decode,fresh]
        rfl
    | cons b rest =>
        have outside : ¬ (p.low ≤ b && b ≤ p.high) = true := by
          intro inside
          simp only [Bool.and_eq_true,decide_eq_true_eq] at inside
          exact stops b rfl (underStarts under inside.1 inside.2)
        have fed : Decoder.feed ⟨[],some p⟩ b = Decoder.feed ⟨[replacement],none⟩ b := by
          simp only [Decoder.feed,if_neg outside]
        rw [decode,List.foldl_append,fresh,List.foldl_cons,fed,← List.foldl_cons,finishFrom]
        rfl
  · exact alone (strayRead stray)

theorem decodedUnique {bytes : Bytes} {t : Text} (decoded : Decoded bytes t) : decode bytes = t := by
  induction decoded with
  | nil => rfl
  | @character n rest t is _ ih =>
      have read := characterRead [] is
      have fresh : (encodePoint n).foldl Decoder.feed Decoder.fresh = ⟨(Text.ofCodePoint n).reverse ++ [],none⟩ := read
      rw [decode,List.foldl_append,fresh,finishFrom,List.append_nil,List.reverse_reverse,ih]
  | flaw flaw _ ih => rw [flawRead flaw,ih]

theorem startExtends (rest part : Bytes) (filled : part ≠ []) (starts : Starts part) :
    ∃ part' rest', part ++ rest = part' ++ rest' ∧ part' ≠ [] ∧ Starts part' ∧
      ∀ b, rest'.head? = some b → ¬ Starts (part' ++ [b]) := by
  induction rest generalizing part with
  | nil => exact ⟨part,[],rfl,filled,starts,nofun⟩
  | cons b rest ih =>
      by_cases further : Starts (part ++ [b])
      · obtain ⟨part',rest',same,others⟩ := ih (part ++ [b]) (by simp) further
        exact ⟨part',rest',by rw [← same,List.append_assoc]; rfl,others⟩
      · exact ⟨part,b :: rest,rfl,filled,starts,fun c first => by cases first; exact further⟩

theorem flawFound {bytes : Bytes} (filled : bytes ≠ []) (none : ∀ n, IsCharacter n → ¬ encodePoint n <+: bytes) :
    ∃ part rest, bytes = part ++ rest ∧ Flaw part rest := by
  cases bytes with
  | nil => exact absurd rfl filled
  | cons b bytes =>
      by_cases starts : Starts [b]
      · obtain ⟨part,rest,same,filled',starts',stops⟩ := startExtends bytes [b] (by simp) starts
        exact ⟨part,rest,same,filled',same ▸ none,.inl ⟨starts',stops⟩⟩
      · exact ⟨[b],bytes,rfl,by simp,none,.inr ⟨b,rfl,starts⟩⟩

theorem encodeFilled (n : Nat) : encodePoint n ≠ [] := by
  unfold encodePoint
  repeat' split
  all_goals nofun

theorem decodedExists (bytes : Bytes) : ∃ t, Decoded bytes t := by
  induction size : bytes.length using Nat.strongRecOn generalizing bytes with
  | _ size ih =>
      subst size
      by_cases filled : bytes = []
      · rw [filled]
        exact ⟨[],.nil⟩
      by_cases character : ∃ n, IsCharacter n ∧ encodePoint n <+: bytes
      · obtain ⟨n,is,rest,rfl⟩ := character
        have shorter : rest.length < (encodePoint n ++ rest).length := by
          have first := List.length_pos_iff.mpr (encodeFilled n)
          rw [List.length_append]
          omega
        obtain ⟨t,others⟩ := ih _ shorter rest rfl
        exact ⟨_,.character is others⟩
      · obtain ⟨part,rest,rfl,flaw⟩ := flawFound filled (fun n is start => character ⟨n,is,start⟩)
        have shorter : rest.length < (part ++ rest).length := by
          have first := List.length_pos_iff.mpr flaw.filled
          rw [List.length_append]
          omega
        obtain ⟨t,others⟩ := ih _ shorter rest rfl
        exact ⟨_,.flaw flaw others⟩

theorem decodedIff {bytes : Bytes} {t : Text} : Decoded bytes t ↔ decode bytes = t := by
  refine ⟨decodedUnique,?_⟩
  rintro rfl
  obtain ⟨t,decoded⟩ := decodedExists bytes
  exact decodedUnique decoded ▸ decoded

end AuditLog.Utf8
