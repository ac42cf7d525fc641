import Mathlib.Tactic.Ring

/-! Rounding by a mask, in words of some bits. -/
namespace ImxTest.Lib.Masks

/-- `a & ~(n - 1)` -/
def down (bits a n : Nat) : Nat := a &&& (2 ^ bits - n)

/-- `(a + n - 1) & ~(n - 1)` -/
def up (bits a n : Nat) : Nat := down bits ((a + n - 1) % 2 ^ bits) n

section Down
variable {bits k a : Nat}

theorem down_eq (short : k ≤ bits) (small : a < 2 ^ bits) : down bits a (2 ^ k) = a - a % 2 ^ k := by
  have ones : 2 ^ bits - 2 ^ k = 2 ^ k * (2 ^ (bits - k) - 1) := by
    rw [Nat.mul_sub_one, ← Nat.pow_add, Nat.add_sub_cancel' short]
  rw [down, ones, ← Nat.div_mul_self_eq_mod_sub_self, Nat.mul_comm (a / 2 ^ k)]
  apply Nat.eq_of_testBit_eq
  intro i
  simp only [Nat.testBit_and, Nat.testBit_two_pow_mul, Nat.testBit_two_pow_sub_one, Nat.testBit_div_two_pow]
  by_cases low : k ≤ i
  · rw [Nat.sub_add_cancel low]
    by_cases high : i < bits
    · have within : i - k < bits - k := by omega
      simp [low, within]
    · have clear : a.testBit i = false :=
        Nat.testBit_lt_two_pow (small.trans_le (Nat.pow_le_pow_right (by omega) (by omega)))
      simp [clear]
  · simp [low]

theorem up_mod (bits a : Nat) {n : Nat} (positive : 0 < n) : up bits (a % 2 ^ bits) n = up bits a n := by
  have left : a % 2 ^ bits + n - 1 = a % 2 ^ bits + (n - 1) := by omega
  have right : a + n - 1 = a + (n - 1) := by omega
  rw [up, up, left, right, Nat.mod_add_mod]

/-- What is rounded up is reached just where the rounding does not wrap. -/
theorem le_up_iff (short : k ≤ bits) : a ≤ up bits a (2 ^ k) ↔ a + 2 ^ k ≤ 2 ^ bits := by
  have positive : 0 < 2 ^ k := Nat.two_pow_pos k
  have whole : 2 ^ k ∣ 2 ^ bits := Nat.pow_dvd_pow 2 short
  rw [up, down_eq short (Nat.mod_lt _ (Nat.two_pow_pos bits))]
  constructor
  · intro reached
    have rest := Nat.mod_lt (a + 2 ^ k - 1) (Nat.two_pow_pos bits)
    generalize (a + 2 ^ k - 1) % 2 ^ bits = b at reached rest
    have rounded : b - b % 2 ^ k + 2 ^ k ≤ 2 ^ bits := by
      obtain ⟨m, same⟩ := whole
      have below : b / 2 ^ k < m := Nat.div_lt_of_lt_mul (by omega)
      calc b - b % 2 ^ k + 2 ^ k = 2 ^ k * (b / 2 ^ k + 1) := by
            rw [← Nat.div_mul_self_eq_mod_sub_self]
            ring
        _ ≤ 2 ^ k * m := Nat.mul_le_mul_left _ below
        _ = 2 ^ bits := same.symm
    omega
  · intro fits
    rw [Nat.mod_eq_of_lt (by omega)]
    have rest := Nat.mod_lt (a + 2 ^ k - 1) positive
    omega

end Down

end ImxTest.Lib.Masks
