import Mathlib.Algebra.BigOperators.Group.Finset.Basic
import Mathlib.Algebra.Order.BigOperators.Group.Finset
import Mathlib.Algebra.Order.Group.Int
import Mathlib.Logic.Function.Iterate
import Mathlib.Tactic.Abel
import Mathlib.Tactic.Linarith

/-! Running sums one after the other, and differences at a lower rate behind them. Together
they are moving sums, in any additive group: a group in which the running sums go round is
as good as the integers. -/
namespace ImxTest.Lib.Cascade
open Finset

section Group
variable {R : Type} [AddCommGroup R]

/-- The sum of everything up to a place. -/
def running (x : Nat → R) (n : Nat) : R := ∑ i ∈ range (n + 1), x i

/-- Zeros stand before the start. -/
def delayed (L : Nat) (x : Nat → R) (n : Nat) : R := if L ≤ n then x (n - L) else 0

def difference (L : Nat) (x : Nat → R) (n : Nat) : R := x n - delayed L x n

/-- The sum of the last `L` values. -/
def moving (L : Nat) (x : Nat → R) (n : Nat) : R := ∑ i ∈ range L, delayed i x n

/-- The last of every `L` values. -/
def sampled (L : Nat) (x : Nat → R) (n : Nat) : R := x (L * n + (L - 1))

variable {x : Nat → R} {L n : Nat}

@[simp] theorem delayed_zero : delayed 0 x n = x n := if_pos (Nat.zero_le n)

@[simp] theorem delayed_one_zero : delayed 1 x 0 = 0 := rfl

@[simp] theorem delayed_one_succ : delayed 1 x (n + 1) = x n := if_pos (Nat.le_add_left _ _)

theorem running_succ : running x (n + 1) = running x n + x (n + 1) := sum_range_succ ..

theorem running_eq : running x n = delayed 1 (running x) n + x n := by
  cases n with
  | zero => simp [running]
  | succ n => rw [delayed_one_succ, running_succ]

theorem delayed_running_succ : delayed L (running x) n - delayed (L + 1) (running x) n = delayed L x n := by
  unfold delayed
  by_cases started : L ≤ n
  · obtain ⟨k, rfl⟩ := Nat.exists_eq_add_of_le started
    cases k with
    | zero => simp [running]
    | succ k =>
      rw [if_pos started, if_pos (by omega), if_pos started, Nat.add_sub_cancel_left,
        show L + (k + 1) - (L + 1) = k by omega, running_succ, add_sub_cancel_left]
  · rw [if_neg started, if_neg (by omega), if_neg started, sub_zero]

theorem difference_running : difference L (running x) = moving L x := by
  funext n
  induction L with
  | zero => simp [difference, moving]
  | succ L ih =>
    unfold moving at ih ⊢
    rw [sum_range_succ, ← ih, ← delayed_running_succ]
    unfold difference
    abel

theorem running_delayed : running (delayed L x) = delayed L (running x) := by
  funext n
  induction n with
  | zero =>
    cases L with
    | zero => simp [running]
    | succ L => simp [running, delayed]
  | succ n ih =>
    rw [running_succ, ih]
    unfold delayed
    rcases Nat.lt_trichotomy L (n + 1) with before | rfl | behind
    · rw [if_pos (by omega), if_pos before.le, if_pos before.le, Nat.sub_add_comm (by omega), running_succ]
    · simp [running]
    · rw [if_neg (by omega), if_neg (by omega), if_neg (by omega), add_zero]

theorem difference_commute : Function.Commute (difference L) (running (R := R)) := by
  intro x
  funext n
  have inside := congrFun (@running_delayed R _ x L) n
  simp only [difference, running, sum_sub_distrib] at inside ⊢
  rw [inside]

theorem difference_running_iterate (k : Nat) : (difference L)^[k] (running^[k] x) = (moving L)^[k] x := by
  have both : difference L ∘ running = moving L := funext fun x : Nat → R => difference_running
  rw [← both, difference_commute.comp_iterate, Function.comp_apply]

theorem sampled_difference (positive : 0 < L) :
    Function.Semiconj (sampled L) (difference L) (difference 1 (R := R)) := by
  intro x
  funext n
  unfold difference
  cases n with
  | zero =>
    rw [delayed_one_zero, sampled, delayed, if_neg (by omega)]
    rfl
  | succ n =>
    rw [delayed_one_succ, sampled, delayed, if_pos (by rw [Nat.mul_succ]; omega)]
    simp only [sampled, Nat.mul_succ]
    rw [show L * n + L + (L - 1) - L = L * n + (L - 1) by omega]

/-- So many running sums, sampled, and as many differences of the samples. -/
theorem cascade_eq (positive : 0 < L) (k : Nat) :
    (difference 1)^[k] (sampled L (running^[k] x)) = sampled L ((moving L)^[k] x) := by
  rw [← (sampled_difference positive).iterate_right k, difference_running_iterate]

variable {S : Type} [AddCommGroup S]

theorem moving_map (f : R →+ S) : moving L (f ∘ x) = f ∘ moving L x := by
  funext n
  simp only [moving, Function.comp_apply, map_sum]
  refine sum_congr rfl fun i _ => ?_
  unfold delayed
  rw [apply_ite f, map_zero]
  rfl

theorem moving_iterate_map (f : R →+ S) (k : Nat) : (moving L)^[k] (f ∘ x) = f ∘ (moving L)^[k] x := by
  have step : Function.Semiconj (fun x : Nat → R => f ∘ x) (moving L) (moving L) := fun x => (moving_map f).symm
  exact (step.iterate_right k x).symm

end Group

section Bounds
variable {x : Nat → Int} {L : Nat} {b : Int}

theorem moving_bound (bounded : ∀ n, |x n| ≤ b) (n : Nat) : |moving L x n| ≤ L * b := by
  have nonneg := (abs_nonneg _).trans (bounded 0)
  unfold moving
  calc |∑ i ∈ range L, delayed i x n| ≤ ∑ i ∈ range L, |delayed i x n| := abs_sum_le_sum_abs ..
    _ ≤ ∑ _i ∈ range L, b := by
      refine sum_le_sum fun i _ => ?_
      unfold delayed
      split
      · exact bounded _
      · simpa using nonneg
    _ = L * b := by rw [sum_const, card_range, nsmul_eq_mul]

theorem moving_iterate_bound (bounded : ∀ n, |x n| ≤ b) (k n : Nat) : |(moving L)^[k] x n| ≤ L ^ k * b := by
  induction k generalizing n with
  | zero => simpa using bounded n
  | succ k ih =>
    rw [Function.iterate_succ_apply', pow_succ', mul_assoc]
    exact moving_bound ih n

end Bounds

end ImxTest.Lib.Cascade
