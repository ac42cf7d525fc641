import Mathlib.Data.Multiset.Bind
import Mathlib.Tactic.Common
import Mathlib.Tactic.Ring

/-! What three nested loops run over: the numbers in their order, and some order of them. -/
namespace ImxTest.Lib.Loops

variable {α β : Type} {a b c n : Nat} {f g : Nat → Nat → Nat → α}

/-- What is made of the counters, in the order of the loops. -/
def loops (a b c : Nat) (f : Nat → Nat → Nat → α) : List α :=
  (List.range a).flatMap fun i => (List.range b).flatMap fun j => (List.range c).map (f i j)

theorem map_loops (h : α → β) : (loops a b c f).map h = loops a b c fun i j k => h (f i j k) := by
  simp only [loops, List.map_flatMap, List.map_map]
  rfl

theorem mem_loops {x : α} : x ∈ loops a b c f ↔ ∃ i < a, ∃ j < b, ∃ k < c, f i j k = x := by
  simp only [loops, List.mem_flatMap, List.mem_map, List.mem_range]

theorem loops_congr (same : ∀ i < a, ∀ j < b, ∀ k < c, f i j k = g i j k) : loops a b c f = loops a b c g := by
  refine List.flatMap_congr fun i mem => List.flatMap_congr fun j mem' => List.map_congr_left fun k mem'' => ?_
  exact same i (List.mem_range.mp mem) j (List.mem_range.mp mem') k (List.mem_range.mp mem'')

/-! ## The numbers of the digits -/

theorem range_mul (a b : Nat) : List.range (a * b) = (List.range a).flatMap fun i => (List.range b).map (i * b + ·) := by
  induction a with
  | zero => simp
  | succ a ih => rw [Nat.succ_mul, List.range_add, ih, List.range_succ, List.flatMap_append, List.flatMap_singleton]

/-- The numbers in their order. -/
theorem loops_range (a b c : Nat) : loops a b c (fun i j k => i * (b * c) + (j * c + k)) = List.range (a * (b * c)) := by
  rw [range_mul a, loops]
  refine List.flatMap_congr fun i _ => ?_
  rw [range_mul b, List.map_flatMap]
  refine List.flatMap_congr fun j _ => ?_
  rw [List.map_map]
  rfl

theorem flatMap_swap (xs ys : List Nat) (f : Nat → Nat → List α) :
    (xs.flatMap fun x => ys.flatMap fun y => f x y).Perm (ys.flatMap fun y => xs.flatMap fun x => f x y) := by
  have swap := Multiset.bind_bind (xs : Multiset Nat) (ys : Multiset Nat) (f := fun x y => (f x y : Multiset α))
  simp only [Multiset.coe_bind] at swap
  exact Multiset.coe_eq_coe.mp swap

/-- The two outer loops the other way round. -/
theorem loops_swap_outer : (loops a b c f).Perm (loops b a c fun j i k => f i j k) := flatMap_swap _ _ _

/-- The two inner loops the other way round. -/
theorem loops_swap_inner : (loops a b c f).Perm (loops a c b fun i k j => f i j k) := by
  refine List.Perm.flatMap_left _ fun i _ => ?_
  simp only [List.map_eq_flatMap]
  exact flatMap_swap ..

/-! ## What is made of one number -/

section Digits
variable {i j k : Nat} (j_lt : j < b) (k_lt : k < c)
include j_lt k_lt

theorem inner_lt : j * c + k < b * c := by
  calc j * c + k < (j + 1) * c := by rw [Nat.succ_mul]; omega
    _ ≤ b * c := Nat.mul_le_mul_right c j_lt

theorem outer_digit : (i * (b * c) + (j * c + k)) / (b * c) = i := by
  have small := inner_lt j_lt k_lt
  rw [Nat.mul_comm, Nat.mul_add_div (by omega), Nat.div_eq_of_lt small, Nat.add_zero]

theorem middle_digit : (i * (b * c) + (j * c + k)) / c % b = j := by
  have split : i * (b * c) + (j * c + k) = c * (b * i + j) + k := by ring
  rw [split, Nat.mul_add_div (by omega), Nat.div_eq_of_lt k_lt, Nat.add_zero, Nat.mul_add_mod, Nat.mod_eq_of_lt j_lt]

omit j_lt in
theorem inner_digit : (i * (b * c) + (j * c + k)) % c = k := by
  have split : i * (b * c) + (j * c + k) = c * (b * i + j) + k := by ring
  rw [split, Nat.mul_add_mod, Nat.mod_eq_of_lt k_lt]

end Digits

theorem loops_eq_map (a b c : Nat) (f : Nat → Nat → Nat → α) :
    loops a b c f = (List.range (a * (b * c))).map fun n => f (n / (b * c)) (n / c % b) (n % c) := by
  rw [← loops_range, map_loops]
  refine loops_congr fun i _ j j_lt k k_lt => ?_
  rw [outer_digit j_lt k_lt, middle_digit j_lt k_lt, inner_digit k_lt]

theorem length_loops : (loops a b c f).length = a * (b * c) := by
  rw [loops_eq_map, List.length_map, List.length_range]

theorem loops_getD {i j k : Nat} (i_lt : i < a) (j_lt : j < b) (k_lt : k < c) (x : α) :
    (loops a b c f).getD (i * (b * c) + (j * c + k)) x = f i j k := by
  have inside : i * (b * c) + (j * c + k) < a * (b * c) := inner_lt i_lt (inner_lt j_lt k_lt)
  rw [loops_eq_map, List.getD_eq_getElem?_getD, List.getElem?_map, List.getElem?_range inside, Option.map_some,
    Option.getD_some, outer_digit j_lt k_lt, middle_digit j_lt k_lt, inner_digit k_lt]

/-- The outer loop in two. -/
theorem loops_split (a n b c : Nat) (f : Nat → Nat → Nat → α) :
    loops (a * n) b c f = (List.range a).flatMap fun m => loops n b c fun i => f (m * n + i) := by
  rw [loops, range_mul, List.flatMap_assoc]
  refine List.flatMap_congr fun m _ => ?_
  rw [List.flatMap_map]
  rfl

/-- Pieces of one size are what there is of them all, cut again. -/
theorem pieces_eq {size : Nat} {pieces : List (List α)} (sizes : ∀ p ∈ pieces, p.length = size) :
    pieces = (List.range pieces.length).map fun i => (pieces.flatten.drop (i * size)).take size := by
  induction pieces with
  | nil => rfl
  | cons p pieces ih =>
    obtain ⟨here, behind⟩ := List.forall_mem_cons.mp sizes
    rw [List.length_cons, List.range_succ_eq_map, List.map_cons, List.map_map, Nat.zero_mul, List.drop_zero,
      List.flatten_cons, List.take_left' here]
    refine congrArg (p :: ·) ((ih behind).trans (List.map_congr_left fun i _ => ?_))
    rw [Function.comp_apply, Nat.succ_mul, Nat.add_comm, ← List.drop_drop, List.drop_left' here]

end ImxTest.Lib.Loops
