import ImxTest.Lib.Wrap

/-! A queue in a ring of `N` places, one of which is always free, so that the two positions
are the same exactly when it is empty. -/
namespace ImxTest.Lib.SpareSlot
open Copy Wrap

variable {β : Type} {N head tail : Nat} {mem : Nat → β} {x : β}

def used (N head tail : Nat) : Nat := if head ≤ tail then tail - head else tail + N - head

/-- The values in the queue, oldest first. -/
def held (N : Nat) (mem : Nat → β) (head tail : Nat) : List β := load N mem head (used N head tail)

@[simp] theorem held_length : (held N mem head tail).length = used N head tail := load_length

/-- A position that is at most once around. -/
theorem mod_once {a : Nat} (once : a < 2 * N) : a % N = if a < N then a else a - N := by
  split
  case isTrue inside => exact Nat.mod_eq_of_lt inside
  case isFalse around =>
    rw [Nat.mod_eq_sub_mod (Nat.le_of_not_lt around)]
    exact Nat.mod_eq_of_lt (by omega)

@[simp] theorem used_self : used N head head = 0 := by simp only [used, Nat.le_refl, if_true, Nat.sub_self]

section Positions
variable (front : head < N) (back : tail < N)
include front back

theorem used_lt : used N head tail < N := by
  rw [used]
  split <;> omega

theorem head_add_used : (head + used N head tail) % N = tail := by
  have less := used_lt front back
  rw [mod_once (by omega), used]
  grind

/-- The ring is full when one place is left. -/
theorem full_iff : (tail + 1) % N = head ↔ used N head tail + 1 = N := by
  rw [mod_once (by omega), used]
  grind

theorem used_put (room : used N head tail + 1 < N) :
    used N head ((tail + 1) % N) = used N head tail + 1 := by
  rw [mod_once (by omega)]
  rw [used] at room
  grind [used]

theorem used_take (filled : tail ≠ head) : used N head tail = used N ((head + 1) % N) tail + 1 := by
  rw [mod_once (by omega)]
  grind [used]

theorem held_update : held N (Function.update mem tail x) head tail = held N mem head tail := by
  have less := used_lt front back
  have last := head_add_used front back
  apply span_eq_iff.mpr
  intro k inside
  apply Function.update_of_ne
  rw [mod_once (by omega)] at last ⊢
  grind

theorem held_put (room : used N head tail + 1 < N) :
    held N (Function.update mem tail x) head ((tail + 1) % N) = held N mem head tail ++ [x] := by
  rw [held, used_put front back room, load, span_append]
  congr 1
  · exact held_update front back
  · simp only [span, List.range'_one, List.map_singleton, head_add_used front back, Function.update_self]

theorem held_take (filled : tail ≠ head) :
    held N mem head tail = mem head :: held N mem ((head + 1) % N) tail := by
  rw [held, used_take front back filled, Nat.add_comm, load, span_append, span, List.range'_one,
    List.map_singleton, Nat.mod_eq_of_lt front, List.singleton_append]
  congr 1
  apply span_eq_iff.mpr
  intro k inside
  rw [Nat.mod_add_mod]

end Positions

end ImxTest.Lib.SpareSlot
