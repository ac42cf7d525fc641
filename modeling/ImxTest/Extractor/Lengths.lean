import ImxTest.Extractor.Annexb

/-! Which data `mme_mp4_to_annexb_frame` can walk through without leaving it, whatever
lengths there are in it. -/
namespace ImxTest.Extractor
open Lib.BitString Lib.Copy Lib.While

/-! ## The lengths that are found -/

section Fields
variable (mem : Bytes) (lengthSize : Nat)

/-- How far the sum of a length and its own size is beyond 32 bits; the next length is
read so many bytes on, out of bytes that have been written already. -/
def overlap (p : Nat) : Nat := lengthSize + word (span mem p lengthSize) - 2 ^ 32

/-- The end of all that is read of the length at `p`. -/
def fieldEnd (p : Nat) : Nat := p + overlap mem lengthSize p + lengthSize

/-- Where the length behind the one at `p` is. -/
def following (p : Nat) : Nat :=
  if lengthSize + word (span mem p lengthSize) < 2 ^ 32 then p + (lengthSize + word (span mem p lengthSize))
  else
    fieldEnd mem lengthSize p +
      word ((bytesOf lengthSize 1).drop (overlap mem lengthSize p) ++
        span mem (p + lengthSize) (overlap mem lengthSize p))

/-- The lengths that the data leads to, from the first one on. -/
inductive Reached (bytesused : Nat) : Nat → Prop where
  | start : Reached bytesused 0
  | next {p : Nat} : Reached bytesused p → p < bytesused → Reached bytesused (following mem lengthSize p)

/-- Every length that is looked at, the places counted in 32 bits, ends in the data. -/
def LengthsWhole (bytesused : Nat) : Prop :=
  ∀ p, Reached mem lengthSize bytesused p → u32 p < bytesused → fieldEnd mem lengthSize p ≤ bytesused

end Fields

/-! ## The walk from one length to the next -/

/-- The walk at place `p`, which 32 bits count. -/
def Walk.at (now : Bytes) (p : Nat) : Walk := { mem := now, pdata := p, consumed := u32 p }

/-- Behind `p` nothing is written yet. -/
def Kept (mem now : Bytes) (p : Nat) : Prop := ∀ a, p ≤ a → now a = mem a

section Walks
variable {mem now : Bytes} {lengthSize bytesused p : Nat}

theorem Kept.span_eq (kept : Kept mem now p) {a n : Nat} (behind : p ≤ a) : span now a n = span mem a n :=
  span_eq_iff.mpr fun k _ => kept _ (Nat.le_trans behind (Nat.le_add_right a k))

theorem leaves (behind : ¬ u32 p < bytesused) :
    Ends (annexbTurn lengthSize bytesused) (.at now p) (.ok now) :=
  ends_leave (if_neg behind)

theorem fails (more : u32 p < bytesused) (outside : ¬ p + lengthSize ≤ bytesused) :
    Ends (annexbTurn lengthSize bytesused) (.at now p) (.error .outside) :=
  ends_error (by rw [annexbTurn, Walk.at, if_pos more, if_neg outside])

theorem u32_add {m n : Nat} : u32 (u32 m + n) = u32 (m + n) := Nat.mod_add_mod _ _ _

/-- One turn, by as much as 32 bits hold of a length and its size. -/
theorem ends_turn (fits : lengthSize ≤ 4) (more : u32 p < bytesused) (inside : p + lengthSize ≤ bytesused)
    {outcome : Except Fault Bytes} :
    Ends (annexbTurn lengthSize bytesused) (.at now p) outcome ↔
      Ends (annexbTurn lengthSize bytesused) (.at (pitcherBytestreamSetBe p lengthSize 1 now)
        (p + u32 (lengthSize + word (span now p lengthSize)))) outcome := by
  apply ends_again
  rw [annexbTurn, Walk.at, if_pos more, if_pos inside]
  dsimp only
  rw [getBe_word fits, u32_add]
  rfl

/-- Bytes that have been written are a one, then come those that have not. -/
theorem span_overlap {k : Nat} (kept : Kept mem now p) (small : k ≤ lengthSize) :
    span (pitcherBytestreamSetBe p lengthSize 1 now) (p + k) lengthSize =
      (bytesOf lengthSize 1).drop k ++ span mem (p + lengthSize) k := by
  have split : lengthSize = (lengthSize - k) + k := by omega
  have written := @span_setBe now p lengthSize 1
  have parts : span (pitcherBytestreamSetBe p lengthSize 1 now) p lengthSize =
      span (pitcherBytestreamSetBe p lengthSize 1 now) p k ++
        span (pitcherBytestreamSetBe p lengthSize 1 now) (p + k) (lengthSize - k) := by
    rw [← span_append, Nat.add_sub_cancel' small]
  have behind : span (pitcherBytestreamSetBe p lengthSize 1 now) (p + k + (lengthSize - k)) k =
      span mem (p + lengthSize) k := by
    rw [Nat.add_assoc, Nat.add_sub_cancel' small]
    refine span_eq_iff.mpr fun j _ => ?_
    rw [setBe_outside (by omega), kept _ (by omega)]
  rw [← written, parts, List.drop_left' span_length, ← behind, ← span_append, ← split]

theorem overlap_lt (some_ : 0 < lengthSize) (fits : lengthSize ≤ 4) : overlap mem lengthSize p < lengthSize := by
  have small := word_lt (span mem p lengthSize)
  have upTo : 2 ^ (8 * lengthSize) ≤ 2 ^ 32 := Nat.pow_le_pow_right (by decide) (by omega)
  rw [span_length] at small
  unfold overlap
  omega

theorem wrapped (wraps : 2 ^ 32 ≤ lengthSize + word (span mem p lengthSize)) (some_ : 0 < lengthSize)
    (fits : lengthSize ≤ 4) : lengthSize = 4 ∧
      u32 (lengthSize + word (span mem p lengthSize)) = overlap mem lengthSize p := by
  have small := word_lt (span mem p lengthSize)
  rw [span_length] at small
  constructor
  · by_contra less
    have upTo : 2 ^ (8 * lengthSize) ≤ 2 ^ 24 := Nat.pow_le_pow_right (by decide) (by omega)
    omega
  · have upTo : 2 ^ (8 * lengthSize) ≤ 2 ^ 32 := Nat.pow_le_pow_right (by decide) (by omega)
    unfold u32 overlap
    omega

/-- A length that begins in a start code is small. -/
theorem word_overlap {k : Nat} (small : k < 4) : word ((bytesOf 4 1).drop k ++ span mem p k) < 2 ^ 25 := by
  have one : ∀ j < 4, word ((bytesOf 4 1).drop j) = 1 := by decide
  have rest := word_lt (span mem p k)
  have upTo : 2 ^ (8 * k) ≤ 2 ^ 24 := Nat.pow_le_pow_right (by decide) (by omega)
  rw [span_length] at rest
  rw [word_append, one k small, span_length]
  omega

variable (some_ : 0 < lengthSize) (fits : lengthSize ≤ 4) (small : bytesused < 2 ^ 32) (kept : Kept mem now p)
  (more : u32 p < bytesused)
include some_ fits small kept more

/-- The turns from one length to the next; there are two where the sum wraps around. -/
theorem walk_following (whole : fieldEnd mem lengthSize p ≤ bytesused) :
    ∃ later, Kept mem later (following mem lengthSize p) ∧ p < following mem lengthSize p ∧ ∀ outcome,
      Ends (annexbTurn lengthSize bytesused) (.at now p) outcome ↔
        Ends (annexbTurn lengthSize bytesused) (.at later (following mem lengthSize p)) outcome := by
  have short := @overlap_lt mem lengthSize p some_ fits
  have length := kept.span_eq (Nat.le_refl p) (n := lengthSize)
  unfold fieldEnd at whole
  have first := fun outcome => @ends_turn now lengthSize bytesused p fits more (by omega) outcome
  rw [length] at first
  by_cases noWrap : lengthSize + word (span mem p lengthSize) < 2 ^ 32
  · rw [u32_small noWrap] at first
    rw [following, if_pos noWrap]
    refine ⟨_, fun a behind => ?_, by omega, first⟩
    rw [setBe_outside (by omega), kept a (by omega)]
  · obtain ⟨rfl, turned⟩ := wrapped (Nat.le_of_not_lt noWrap) some_ fits
    rw [turned] at first
    have onward : u32 (p + overlap mem 4 p) < bytesused := by
      rw [u32_small (by omega)]
      omega
    have second := fun outcome =>
      @ends_turn (pitcherBytestreamSetBe p 4 1 now) 4 bytesused (p + overlap mem 4 p) fits onward whole outcome
    have least := @word_overlap mem (p + 4) (overlap mem 4 p) short
    rw [span_overlap kept (Nat.le_of_lt short), u32_small (by omega), ← Nat.add_assoc] at second
    rw [following, if_neg noWrap]
    refine ⟨_, fun a behind => ?_, by unfold fieldEnd; omega, fun outcome => (first outcome).trans (second outcome)⟩
    unfold fieldEnd at behind
    rw [setBe_outside (by omega), setBe_outside (by omega), kept a (by omega)]

theorem walk_fails (broken : ¬ fieldEnd mem lengthSize p ≤ bytesused) :
    Ends (annexbTurn lengthSize bytesused) (.at now p) (.error .outside) := by
  have short := @overlap_lt mem lengthSize p some_ fits
  unfold fieldEnd at broken
  by_cases inside : p + lengthSize ≤ bytesused
  · have wraps : 2 ^ 32 ≤ lengthSize + word (span mem p lengthSize) := by
      unfold overlap at broken
      omega
    obtain ⟨rfl, turned⟩ := wrapped wraps some_ fits
    rw [ends_turn fits more inside, kept.span_eq (Nat.le_refl p), turned]
    refine fails ?_ broken
    rw [u32_small (by omega)]
    omega
  · exact fails more inside

end Walks

/-! ## Data that is not left -/

section Data
variable {mem : Bytes} {lengthSize bytesused : Nat} (some_ : 0 < lengthSize) (fits : lengthSize ≤ 4)
  (small : bytesused < 2 ^ 32)
include some_ fits small

/-- A walk that ends comes to every length that is reached. -/
theorem reached_ends {after : Bytes} (ended : MmeMp4ToAnnexbFrame lengthSize bytesused mem (.ok after)) {p : Nat}
    (reached : Reached mem lengthSize bytesused p) :
    ∃ now, Kept mem now p ∧ Ends (annexbTurn lengthSize bytesused) (.at now p) (.ok after) := by
  induction reached with
  | start => exact ⟨mem, fun _ _ => rfl, ended⟩
  | @next p reached low ih =>
    obtain ⟨now, kept, ends⟩ := ih
    have more : u32 p < bytesused := Nat.lt_of_le_of_lt (Nat.mod_le _ _) low
    by_cases whole : fieldEnd mem lengthSize p ≤ bytesused
    · obtain ⟨later, kept, -, same⟩ := walk_following some_ fits small kept more whole
      exact ⟨later, kept, (same _).mp ends⟩
    · exact absurd ((walk_fails some_ fits small kept more whole).unique ends) (by simp)

theorem LengthsWhole.ends (whole : LengthsWhole mem lengthSize bytesused) {p : Nat}
    (reached : Reached mem lengthSize bytesused p) {now : Bytes} (kept : Kept mem now p) :
    ∃ after, Ends (annexbTurn lengthSize bytesused) (.at now p) (.ok after) := by
  induction left : bytesused - p using Nat.strongRecOn generalizing p now with
  | ind left ih =>
    by_cases more : u32 p < bytesused
    · have inside := whole p reached more
      have low : p < bytesused := by
        unfold fieldEnd at inside
        omega
      obtain ⟨later, kept, onward, same⟩ := walk_following some_ fits small kept more inside
      obtain ⟨after, ended⟩ := ih _ (by omega) (reached.next low) kept rfl
      exact ⟨after, (same _).mpr ended⟩
    · exact ⟨now, leaves more⟩

end Data

/-- The frame is converted without leaving its data exactly if every length that is come to
is whole, and none leads around 32 bits and back into the data. -/
theorem mmeMp4ToAnnexbFrame_iff (mem : Bytes) (lengthSize bytesused : Nat) (known : lengthSize = 3 ∨ lengthSize = 4)
    (small : bytesused < 2 ^ 32) :
    (∃ after, MmeMp4ToAnnexbFrame lengthSize bytesused mem (.ok after)) ↔ LengthsWhole mem lengthSize bytesused := by
  constructor
  · rintro ⟨after, ended⟩ p reached more
    obtain ⟨now, kept, ends⟩ := reached_ends (by omega) (by omega) small ended reached
    by_contra broken
    exact absurd ((walk_fails (by omega) (by omega) small kept more broken).unique ends) (by simp)
  · intro whole
    exact whole.ends (by omega) (by omega) small .start fun _ _ => rfl

/-- A NAL unit of two bytes behind its length. -/
theorem mmeMp4ToAnnexbFrame_unit : ∃ after,
    MmeMp4ToAnnexbFrame 4 6 (fun a => if a = 3 then 2 else 0) (.ok after) := by
  refine (mmeMp4ToAnnexbFrame_iff (fun a => if a = 3 then 2 else 0) 4 6 (.inr rfl) (by decide)).mpr ?_
  have whole : ∀ p, Reached (fun a => if a = 3 then 2 else 0) 4 6 p → p = 0 ∨ p = 6 := by
    intro p reached
    induction reached with
    | start => exact .inl rfl
    | next reached low ih =>
      rcases ih with rfl | rfl
      · exact .inr (by decide)
      · exact absurd low (by decide)
  intro p reached more
  rcases whole p reached with rfl | rfl
  · decide
  · exact absurd more (by decide)

/-- Of a sample of one byte four bytes are read. -/
theorem mmeMp4ToAnnexbFrame_short : ¬ ∃ after, MmeMp4ToAnnexbFrame 4 1 (fun _ => 0) (.ok after) := by
  rintro ⟨after, fuel, ended⟩
  cases fuel with
  | zero => cases ended
  | succ fuel => cases ended

end ImxTest.Extractor
