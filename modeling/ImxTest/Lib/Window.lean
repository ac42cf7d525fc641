import Mathlib.Data.Nat.Count

/-! Counting along a sequence that repeats itself: every window of one period
holds the same number of hits, wherever it begins. -/
namespace ImxTest.Lib.Window

variable {p : Nat → Prop} [DecidablePred p] {d n : Nat}

theorem count_window (periodic : ∀ k, p (d + k) ↔ p k) (i : Nat) :
    Nat.count (fun k => p (i + k)) d = Nat.count p d := by
  have early := Nat.count_add p i d
  have late := Nat.count_add p d i
  simp only [periodic] at late
  rw [Nat.add_comm d i, early] at late
  exact Nat.add_left_cancel (late.trans (Nat.add_comm ..))

/-- The hits of a counter that turns at `d` and hits on its last `n` positions. -/
theorem count_last (le : n ≤ d) : Nat.count (fun k => d - n ≤ k % d) d = n := by
  have split := Nat.count_add (fun k => d - n ≤ k % d) (d - n) n
  rw [Nat.sub_add_cancel le] at split
  have before : Nat.count (fun k => d - n ≤ k % d) (d - n) = 0 := by
    apply Nat.count_iff_forall_not.mpr
    intro k less
    rw [Nat.mod_eq_of_lt (by omega)]
    omega
  have behind : Nat.count (fun k => d - n ≤ (d - n + k) % d) n = n := by
    apply Nat.count_iff_forall.mpr
    intro k less
    rw [Nat.mod_eq_of_lt (by omega)]
    omega
  rw [split, before, behind, Nat.zero_add]

/-- Every window of a turn holds `n` hits. -/
theorem count_turn (le : n ≤ d) (i : Nat) : Nat.count (fun k => d - n ≤ (i + k) % d) d = n := by
  have window := count_window (p := fun k => d - n ≤ k % d) (d := d)
    (fun k => by rw [Nat.add_mod_left]) i
  exact window.trans (count_last le)

/-- A window without its first position holds what the position leaves. -/
theorem count_rest (le : n ≤ d) (some_turn : 0 < d) (i : Nat) :
    Nat.count (fun k => d - n ≤ (i + 1 + k) % d) (d - 1) + (if d - n ≤ i % d then 1 else 0) = n := by
  have turn := count_turn le i
  obtain ⟨e, rfl⟩ : ∃ e, d = e + 1 := ⟨d - 1, by omega⟩
  rw [Nat.count_succ'] at turn
  simp only [Nat.add_zero] at turn
  simpa only [Nat.add_sub_cancel, Nat.add_assoc, Nat.add_comm 1] using turn

end ImxTest.Lib.Window
