import Mathlib.Tactic.Common
import Mathlib.Tactic.Ring

/-! Whole numbers as machine words of 32 bits take them, with a sign and without. -/
namespace ImxTest.Lib.Words

/-- In two's complement. -/
@[irreducible] def int (v : Int) : Int := v.bmod (2 ^ 32)

@[irreducible] def uint (v : Int) : Nat := (v % 2 ^ 32).toNat

section Int
variable {v w : Int} {n : Nat}

theorem int_bounds (v : Int) : -2 ^ 31 ≤ int v ∧ int v < 2 ^ 31 := by
  have low := Int.le_bmod (x := v) (m := 2 ^ 32) (by omega)
  have high := Int.bmod_lt (x := v) (m := 2 ^ 32) (by omega)
  unfold int
  omega

theorem int_eq (low : -2 ^ 31 ≤ v) (high : v < 2 ^ 31) : int v = v := by
  unfold int
  rw [Int.bmod_eq_of_le (by omega) (by omega)]

theorem int_natCast (small : n < 2 ^ 31) : int n = n := int_eq (by omega) (by omega)

/-- Whole turns do not count. -/
theorem int_congr {k : Int} (same : v = w + k * 2 ^ 32) : int v = int w := by
  unfold int
  rw [same]
  exact Int.add_mul_bmod_self_right ..

/-- A word differs from its number by whole turns. -/
theorem exists_int (v : Int) : ∃ k : Int, int v = v + k * 2 ^ 32 := by
  refine ⟨-(Int.bdiv v (2 ^ 32)), ?_⟩
  have parts := Int.bmod_add_bdiv v (2 ^ 32)
  unfold int
  omega

theorem int_int_add (v w : Int) : int (int v + w) = int (v + w) := by
  obtain ⟨k, same⟩ := exists_int v
  exact int_congr (k := k) (by rw [same]; ac_rfl)

theorem int_int_mul (v w : Int) : int (int v * w) = int (v * w) := by
  obtain ⟨k, same⟩ := exists_int v
  exact int_congr (k := k * w) (by rw [same]; ring)

end Int

section Uint
variable {v w : Int} {n : Nat}

theorem uint_lt (v : Int) : uint v < 2 ^ 32 := by
  unfold uint
  omega

theorem uint_mod (n : Nat) : uint n = n % 2 ^ 32 := by
  unfold uint
  omega

theorem uint_natCast (small : n < 2 ^ 32) : uint n = n := by
  unfold uint
  omega

theorem uint_natCast_add {k : Nat} (small : n + k < 2 ^ 32) : uint ((n : Int) + k) = n + k := uint_natCast (n := n + k) small

/-- Whole turns do not count. -/
theorem uint_turns {k : Int} (same : v = n + k * 2 ^ 32) (small : n < 2 ^ 32) : uint v = n := by
  unfold uint
  omega

theorem uint_congr {k : Int} (same : v = w + k * 2 ^ 32) : uint v = uint w := by
  unfold uint
  omega

theorem uint_add {a : Nat} {k : Int} (same : v = n + k * 2 ^ 32) (small : a + n < 2 ^ 32) : uint (a + v) = a + n :=
  uint_turns (k := k) (by rw [same]; push_cast; ac_rfl) small

theorem exists_uint (v : Int) : ∃ k : Int, (uint v : Int) = v + k * 2 ^ 32 := by
  refine ⟨-(v / 2 ^ 32), ?_⟩
  unfold uint
  omega

theorem uint_int_add (v w : Int) : uint (int v + w) = uint (v + w) := by
  obtain ⟨k, same⟩ := exists_int v
  rw [same]
  unfold uint
  omega

theorem uint_int (v : Int) : uint (int v) = uint v := by
  rw [← Int.add_zero (int v), uint_int_add, Int.add_zero]

end Uint

end ImxTest.Lib.Words
