import Mathlib.Algebra.BigOperators.Group.Finset.Basic
import Mathlib.Algebra.Order.Ring.Nat
import Mathlib.Data.Nat.Log
import Mathlib.Tactic.Ring
import Mathlib.Tactic.IntervalCases
import Mathlib.Tactic.Linarith

/-! A number times a fraction, by the binary digits of the fraction and halves of the number
that are rounded down. -/
namespace ImxTest.Lib.Expansion

open Finset

variable (num den size : Nat)

/-- What is left of the numerator behind so many digits. -/
def rest (n : Nat) : Nat := num * 2 ^ n % den

/-- A digit behind the point. -/
def digit (n : Nat) : Nat := num * 2 ^ (n + 1) / den % 2

/-- The whole part and so many digits. -/
def upTo (n : Nat) : Nat := num / den * size + ∑ k ∈ range n, digit num den k * (size / 2 ^ (k + 1))

/-- The halves that are more than 2. -/
def halves : Nat := Nat.log 2 (size / 3)

/-- The digits of all halves that are more than 2. -/
def sum : Nat := upTo num den size (halves size)

variable {num den size} {n m : Nat}

variable (num) in
theorem rest_lt (pos : 0 < den) (n : Nat) : rest num den n < den := Nat.mod_lt _ pos

@[simp] theorem rest_zero : rest num den 0 = num % den := by rw [rest, pow_zero, Nat.mul_one]

@[simp] theorem upTo_zero : upTo num den size 0 = num / den * size := by rw [upTo, sum_range_zero, Nat.add_zero]

theorem upTo_succ (n : Nat) :
    upTo num den size (n + 1) = upTo num den size n + digit num den n * (size / 2 ^ (n + 1)) := by
  rw [upTo, sum_range_succ, ← Nat.add_assoc]
  rfl

variable (num) in
/-- A digit, and what is left behind it, from what was left before. -/
theorem double_rest (pos : 0 < den) (n : Nat) :
    2 * rest num den n = digit num den n * den + rest num den (n + 1) := by
  have parts := Nat.div_add_mod (num * 2 ^ n) den
  have small := rest_lt num pos n
  have doubled : num * 2 ^ (n + 1) = 2 * rest num den n + den * (2 * (num * 2 ^ n / den)) := by
    rw [pow_succ, ← Nat.mul_assoc, rest]
    linarith
  have quotient : 2 * rest num den n / den < 2 := by
    rw [Nat.div_lt_iff_lt_mul pos]
    omega
  have first : digit num den n = 2 * rest num den n / den := by
    rw [digit, doubled, Nat.add_mul_div_left _ _ pos, Nat.add_mul_mod_self_left, Nat.mod_eq_of_lt quotient]
  have second : rest num den (n + 1) = 2 * rest num den n % den := by
    rw [rest, doubled, Nat.add_mul_mod_self_left]
  rw [first, second, Nat.mul_comm _ den]
  exact (Nat.div_add_mod ..).symm

theorem digit_of_le (pos : 0 < den) (le : den ≤ 2 * rest num den n) : digit num den n = 1 := by
  have double := double_rest num pos n
  have small := rest_lt num pos (n + 1)
  have bit : digit num den n < 2 := Nat.mod_lt _ (by decide)
  interval_cases digit num den n
  · omega
  · rfl

theorem digit_of_lt (pos : 0 < den) (lt : 2 * rest num den n < den) : digit num den n = 0 := by
  have double := double_rest num pos n
  have bit : digit num den n < 2 := Nat.mod_lt _ (by decide)
  interval_cases digit num den n
  · rfl
  · omega

/-- Where nothing is left there are no more digits. -/
theorem upTo_of_rest_zero (pos : 0 < den) (none : rest num den n = 0) (le : n ≤ m) :
    upTo num den size m = upTo num den size n ∧ rest num den m = 0 := by
  induction m, le using Nat.le_induction with
  | base => exact ⟨rfl, none⟩
  | succ m le ih =>
    obtain ⟨same, still⟩ := ih
    have zero := digit_of_lt (n := m) pos (by rw [still]; exact pos)
    have double := double_rest num pos m
    rw [still, zero] at double
    rw [upTo_succ, zero, same]
    omega

variable (num size) in
/-- How far the digits are from the product: what is left, and less than one for each digit. -/
theorem upTo_bounds (pos : 0 < den) (n : Nat) :
    den * 2 ^ n * upTo num den size n + size * rest num den n ≤ 2 ^ n * (size * num) ∧
      2 ^ n * (size * num) ≤ den * 2 ^ n * (upTo num den size n + n) + size * rest num den n := by
  induction n with
  | zero =>
    have parts := Nat.div_add_mod num den
    have product : size * num = den * (num / den * size) + size * (num % den) := by
      conv_lhs => rw [← parts]
      ring
    simp only [pow_zero, Nat.mul_one, Nat.one_mul, upTo_zero, rest_zero, Nat.add_zero]
    omega
  | succ n ih =>
    obtain ⟨low, high⟩ := ih
    have double : size * (2 * rest num den n) = size * (digit num den n * den + rest num den (n + 1)) := by
      rw [double_rest num pos]
    have half := Nat.div_add_mod size (2 ^ (n + 1))
    have cut := Nat.mod_lt size (show 0 < 2 ^ (n + 1) from Nat.two_pow_pos _)
    have bit : digit num den n < 2 := Nat.mod_lt _ (by decide)
    have cut_le : digit num den n * den * (size % 2 ^ (n + 1)) ≤ den * 2 ^ (n + 1) := by
      calc digit num den n * den * (size % 2 ^ (n + 1)) ≤ 1 * den * 2 ^ (n + 1) := by
            gcongr
            omega
        _ = den * 2 ^ (n + 1) := by rw [Nat.one_mul]
    have split : digit num den n * den * size = den * 2 ^ (n + 1) * (digit num den n * (size / 2 ^ (n + 1))) +
        digit num den n * den * (size % 2 ^ (n + 1)) := by
      conv_lhs => rw [← half]
      ring
    have cut_zero := Nat.zero_le (digit num den n * den * (size % 2 ^ (n + 1)))
    rw [upTo_succ, pow_succ] at *
    constructor <;> linarith

/-- A half is more than 2 exactly at the places that count. -/
theorem le_halves_iff (pos : 0 < n) : n ≤ halves size ↔ 2 < size / 2 ^ n := by
  have power := Nat.two_pow_pos n
  have third : 2 ^ n ≤ size / 3 ↔ 2 < size / 2 ^ n := by
    rw [Nat.le_div_iff_mul_le (by decide), Nat.lt_iff_add_one_le, Nat.le_div_iff_mul_le power, Nat.mul_comm]
  rw [← third, halves]
  by_cases small : size / 3 = 0
  · rw [small, Nat.log_zero_right]
    omega
  · exact Nat.le_log_iff_pow_le (by decide) small

variable (num size) in
theorem sum_le (pos : 0 < den) : den * sum num den size ≤ size * num := by
  have low := (upTo_bounds num size pos (halves size)).1
  refine Nat.le_of_mul_le_mul_left ?_ (Nat.two_pow_pos (halves size))
  calc 2 ^ halves size * (den * sum num den size) = den * 2 ^ halves size * upTo num den size (halves size) := by
        rw [sum]
        ring
    _ ≤ 2 ^ halves size * (size * num) := (Nat.le_add_right _ _).trans low

variable (num) in
theorem lt_sum (pos : 0 < den) (some : 0 < size) : size * num < den * (sum num den size + Nat.log 2 size + 6) := by
  have high := (upTo_bounds num size pos (halves size)).2
  have left := rest_lt num pos (halves size)
  have log_le : halves size ≤ Nat.log 2 size := Nat.log_mono_right (Nat.div_le_self size 3)
  have third : size < 2 ^ halves size * 6 := by
    have lt := Nat.lt_pow_succ_log_self (b := 2) (by decide) (size / 3)
    change size / 3 < 2 ^ (halves size + 1) at lt
    rw [Nat.div_lt_iff_lt_mul (by decide), pow_succ] at lt
    omega
  have tail : size * rest num den (halves size) < 2 ^ halves size * (den * 6) := by
    calc size * rest num den (halves size) < size * den := Nat.mul_lt_mul_of_pos_left left some
      _ ≤ 2 ^ halves size * 6 * den := Nat.mul_le_mul_right _ third.le
      _ = 2 ^ halves size * (den * 6) := by ring
  refine Nat.lt_of_mul_lt_mul_left (a := 2 ^ halves size) ?_
  calc 2 ^ halves size * (size * num)
      ≤ den * 2 ^ halves size * (upTo num den size (halves size) + halves size) + size * rest num den (halves size) := high
    _ < den * 2 ^ halves size * (upTo num den size (halves size) + halves size) + 2 ^ halves size * (den * 6) := by omega
    _ = 2 ^ halves size * (den * (sum num den size + halves size + 6)) := by
        rw [sum]
        ring
    _ ≤ 2 ^ halves size * (den * (sum num den size + Nat.log 2 size + 6)) := by gcongr

end ImxTest.Lib.Expansion
