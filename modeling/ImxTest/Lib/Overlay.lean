import Mathlib.Tactic.Ring

/-! Words that are put together from pieces: some bits are new and the others stay. -/
namespace ImxTest.Lib.Overlay

variable {w : Nat}

/-- The bits of the mask, from `s` on, become those of `v`. -/
def put (mask : BitVec w) (s : Nat) (v x : BitVec w) : BitVec w := x &&& ~~~(mask <<< s) ||| (v &&& mask) <<< s

/-- The low bits of one word below the others of another. -/
def mix (n : Nat) (low high : BitVec w) : BitVec w := put (.ofNat w (2 ^ n - 1)) 0 low high

section Put
variable {mask v x low high : BitVec w} {s n m i : Nat}

theorem getLsbD_put (inside : i < w) : (put mask s v x).getLsbD i =
    if s ≤ i ∧ mask.getLsbD (i - s) then v.getLsbD (i - s) else x.getLsbD i := by
  unfold put
  simp only [BitVec.getLsbD_or, BitVec.getLsbD_and, BitVec.getLsbD_not, BitVec.getLsbD_shiftLeft, inside, decide_true,
    Bool.true_and]
  by_cases below : i < s
  · have front : ¬(s ≤ i ∧ mask.getLsbD (i - s) = true) := fun both => absurd both.1 (by omega)
    simp [below, front]
  · have from_ : s ≤ i := by omega
    cases set : mask.getLsbD (i - s) <;> simp [below, from_]

theorem getLsbD_ones : (BitVec.ofNat w (2 ^ n - 1)).getLsbD i = decide (i < w ∧ i < n) := by
  rw [BitVec.getLsbD_ofNat, Nat.testBit_two_pow_sub_one, Bool.decide_and]

theorem getLsbD_mix (inside : i < w) : (mix n low high).getLsbD i = if i < n then low.getLsbD i else high.getLsbD i := by
  rw [mix, getLsbD_put inside, Nat.sub_zero, getLsbD_ones]
  simp [inside]

variable (low high) in
theorem mix_zero : mix 0 low high = high := by
  apply BitVec.eq_of_getLsbD_eq
  intro i inside
  rw [getLsbD_mix inside, if_neg (Nat.not_lt_zero i)]

/-- Nothing is left of a word that is replaced as far as it differs. -/
theorem mix_eq (same : ∀ i < w, n ≤ i → low.getLsbD i = high.getLsbD i) : mix n low high = low := by
  apply BitVec.eq_of_getLsbD_eq
  intro i inside
  rw [getLsbD_mix inside]
  split
  · rfl
  · exact (same i inside (by omega)).symm

/-- The next bits of the new word are put to those below. -/
theorem put_mix (next : ∀ i < w, n ≤ i → mask.getLsbD (i - n) = decide (i < n + m))
    (new : ∀ i < w, n ≤ i → i < n + m → v.getLsbD (i - n) = low.getLsbD i) :
    put mask n v (mix n low high) = mix (n + m) low high := by
  apply BitVec.eq_of_getLsbD_eq
  intro i inside
  rw [getLsbD_put inside, getLsbD_mix inside, getLsbD_mix inside]
  by_cases from_ : n ≤ i
  · rw [next i inside from_]
    by_cases within : i < n + m
    · rw [if_pos ⟨from_, by simpa using within⟩, if_pos within, new i inside from_ within]
    · rw [if_neg (by simp [within]), if_neg (by omega), if_neg within]
  · rw [if_neg (fun both => from_ both.1), if_pos (by omega), if_pos (by omega)]

end Put

end ImxTest.Lib.Overlay
