import Mathlib.Data.List.Basic
import Mathlib.Data.List.Flatten
import Mathlib.Tactic.Common
import Mathlib.Tactic.Ring

/-! Pictures that are written in strips of lines, and each strip in groups of columns. The last
group may reach beyond the end of a line, into the line behind it. -/
namespace ImxTest.Lib.Strips

/-- A sample by its strip, its group in the strip, its line in the strip and its column. -/
structure Spot where
  strip : Nat
  group : Nat
  line : Nat
  col : Nat
deriving DecidableEq, Repr

namespace Spot

/-- Written earlier. -/
def Before (s t : Spot) : Prop :=
  s.strip < t.strip ∨ s.strip = t.strip ∧ (s.group < t.group ∨ s.group = t.group ∧
    (s.line < t.line ∨ s.line = t.line ∧ s.col < t.col))

def row (lines : Nat) (s : Spot) : Nat := s.strip * lines + s.line

/-- The number of the sample when each line has so many. -/
def place (lines width : Nat) (s : Spot) : Nat := s.row lines * width + s.col

theorem Before.strict {s t : Spot} (first : s.Before t) : ¬ t.Before s := by
  unfold Before at *
  omega

end Spot

/-- The samples in the order in which they are written; group `h` begins with column `start h`. -/
def spots (lines : Nat) (start : Nat → Nat) (groups strips : Nat) : List Spot :=
  (List.range strips).flatMap fun v => (List.range groups).flatMap fun h => (List.range lines).flatMap fun i =>
    (List.range' (start h) (start (h + 1) - start h)).map fun x => ⟨v, h, i, x⟩

section Spots
variable {lines groups strips width : Nat} {start : Nat → Nat} {s t : Spot}

theorem mem_spots : s ∈ spots lines start groups strips ↔
    s.strip < strips ∧ s.group < groups ∧ s.line < lines ∧ start s.group ≤ s.col ∧ s.col < start (s.group + 1) := by
  obtain ⟨v, h, i, x⟩ := s
  simp only [spots, List.mem_flatMap, List.mem_map, List.mem_range, List.mem_range'_1, Spot.mk.injEq]
  constructor
  · rintro ⟨v', strip, h', group, i', line, x', col, rfl, rfl, rfl, rfl⟩
    omega
  · rintro ⟨strip, group, line, low, high⟩
    exact ⟨v, strip, h, group, i, line, x, by omega, rfl, rfl, rfl, rfl⟩

/-- Groups of equally many columns. -/
theorem map_spots {β : Type} (n : Nat) (f : Spot → β) : (spots lines (n * ·) groups strips).map f =
    (List.range strips).flatMap fun v => (List.range groups).flatMap fun h => (List.range lines).flatMap fun i =>
      (List.range n).map fun j => f ⟨v, h, i, n * h + j⟩ := by
  have count (h : Nat) : n * (h + 1) - n * h = n := by rw [Nat.mul_succ, Nat.add_sub_cancel_left]
  simp only [spots, count, List.map_flatMap, List.map_map, List.range'_eq_map_range]
  rfl

theorem spots_sorted : (spots lines start groups strips).Pairwise Spot.Before := by
  refine List.pairwise_flatMap.mpr ⟨fun v _ => ?_, List.pairwise_lt_range.imp ?_⟩
  · refine List.pairwise_flatMap.mpr ⟨fun h _ => ?_, List.pairwise_lt_range.imp ?_⟩
    · refine List.pairwise_flatMap.mpr ⟨fun i _ => ?_, List.pairwise_lt_range.imp ?_⟩
      · refine List.pairwise_map.mpr ((List.pairwise_lt_range' ..).imp ?_)
        intro x x' less
        exact .inr ⟨rfl, .inr ⟨rfl, .inr ⟨rfl, less⟩⟩⟩
      · intro i i' less s first t second
        obtain ⟨x, -, rfl⟩ := List.mem_map.mp first
        obtain ⟨x', -, rfl⟩ := List.mem_map.mp second
        exact .inr ⟨rfl, .inr ⟨rfl, .inl less⟩⟩
    · intro h h' less s first t second
      simp only [List.mem_flatMap, List.mem_map] at first second
      obtain ⟨i, -, x, -, rfl⟩ := first
      obtain ⟨i', -, x', -, rfl⟩ := second
      exact .inr ⟨rfl, .inl less⟩
  · intro v v' less s first t second
    simp only [List.mem_flatMap, List.mem_map] at first second
    obtain ⟨h, -, i, -, x, -, rfl⟩ := first
    obtain ⟨h', -, i', -, x', -, rfl⟩ := second
    exact .inl less

/-- The group of a column. -/
theorem exists_group {x : Nat} (first : start 0 = 0) (below : x < start groups) :
    ∃ h < groups, start h ≤ x ∧ x < start (h + 1) := by
  induction groups with
  | zero => omega
  | succ groups ih =>
    rcases Nat.lt_or_ge x (start groups) with low | high
    · obtain ⟨h, less, inside⟩ := ih low
      exact ⟨h, by omega, inside⟩
    · exact ⟨groups, Nat.lt_succ_self _, high, below⟩

theorem exists_spot {x y : Nat} (first : start 0 = 0) (col : x < start groups) (line : y < strips * lines) :
    ∃ s ∈ spots lines start groups strips, s.row lines = y ∧ s.col = x ∧ s.line = y % lines := by
  obtain ⟨h, group, inside⟩ := exists_group first col
  have positive : 0 < lines := Nat.pos_of_ne_zero fun zero => by simp [zero] at line
  refine ⟨⟨y / lines, h, y % lines, x⟩, mem_spots.mpr ⟨?_, group, Nat.mod_lt _ positive, inside⟩, ?_, rfl, rfl⟩
  · exact Nat.div_lt_of_lt_mul (by rwa [Nat.mul_comm])
  · exact Nat.div_add_mod' y lines

/-- Two groups that have a column in common are one. -/
theorem group_unique (mono : Monotone start) (mem : s ∈ spots lines start groups strips)
    (mem' : t ∈ spots lines start groups strips) (same : s.col = t.col) : s.group = t.group := by
  have first := (mem_spots.mp mem).2.2.2
  have second := (mem_spots.mp mem').2.2.2
  rcases Nat.lt_trichotomy s.group t.group with less | alike | more
  · have order := mono (show s.group + 1 ≤ t.group from less)
    omega
  · exact alike
  · have order := mono (show t.group + 1 ≤ s.group from more)
    omega

theorem col_lt (mono : Monotone start) (mem : s ∈ spots lines start groups strips) : s.col < start groups := by
  obtain ⟨-, group, -, -, high⟩ := mem_spots.mp mem
  exact Nat.lt_of_lt_of_le high (mono group)

/-- Lines are told apart by strips and lines in them. -/
theorem rows_lt {v v' i i' : Nat} (first : i < lines) (second : i' < lines) :
    v * lines + i < v' * lines + i' ↔ v < v' ∨ v = v' ∧ i < i' := by
  rcases Nat.lt_trichotomy v v' with less | rfl | more
  · have order := Nat.mul_le_mul_right lines (Nat.succ_le_of_lt less)
    rw [Nat.succ_mul] at order
    omega
  · omega
  · have order := Nat.mul_le_mul_right lines (Nat.succ_le_of_lt more)
    rw [Nat.succ_mul] at order
    omega

theorem row_lt_row (mem : s ∈ spots lines start groups strips) (mem' : t ∈ spots lines start groups strips) :
    s.row lines < t.row lines ↔ s.strip < t.strip ∨ s.strip = t.strip ∧ s.line < t.line :=
  rows_lt (mem_spots.mp mem).2.2.1 (mem_spots.mp mem').2.2.1

theorem spot_unique (mono : Monotone start) (mem : s ∈ spots lines start groups strips)
    (mem' : t ∈ spots lines start groups strips) (row : s.row lines = t.row lines) (col : s.col = t.col) : s = t := by
  have group := group_unique mono mem mem' col
  have left := (row_lt_row mem mem').not.mp (by omega)
  have right := (row_lt_row mem' mem).not.mp (by omega)
  obtain ⟨v, h, i, x⟩ := s
  obtain ⟨v', h', i', x'⟩ := t
  simp only [Spot.mk.injEq]
  dsimp only at *
  omega

/-- What else is written where a sample of a line is belongs to lines above. -/
theorem place_eq {x y : Nat} (visible : x < width)
    (same : s.place lines width = y * width + x) :
    s.row lines = y ∧ s.col = x ∨ s.row lines < y ∧ s.col = (y - s.row lines) * width + x := by
  unfold Spot.place at same
  rcases Nat.lt_trichotomy (s.row lines) y with less | alike | more
  · right
    obtain ⟨d, rfl⟩ := Nat.exists_eq_add_of_lt less
    refine ⟨less, ?_⟩
    rw [Nat.add_assoc, Nat.add_sub_cancel_left]
    rw [Nat.add_assoc, Nat.add_mul] at same
    omega
  · left
    rw [alike] at same
    exact ⟨alike, Nat.add_left_cancel same⟩
  · have order := Nat.mul_le_mul_right width (Nat.succ_le_of_lt more)
    rw [Nat.succ_mul] at order
    omega

/-- A sample that is written last where it is. -/
theorem before_of_kept (mono : Monotone start) (mem : s ∈ spots lines start groups strips)
    (mem' : t ∈ spots lines start groups strips) (visible : t.col < width)
    (same : s.place lines width = t.place lines width)
    (kept : start groups ≤ width ∨ groups ≤ 1 ∨ t.line = 0) : s = t ∨ s.Before t := by
  rcases place_eq visible same with ⟨row, col⟩ | ⟨above, col⟩
  · exact .inl (spot_unique mono mem mem' row col)
  · right
    have beyond : width ≤ s.col := by
      have once := Nat.mul_le_mul_right width (show 1 ≤ t.row lines - s.row lines by omega)
      omega
    have inside := col_lt mono mem
    have group := (mem_spots.mp mem).2.1
    have group' := (mem_spots.mp mem').2.1
    have order := (row_lt_row mem mem').mp above
    unfold Spot.Before
    omega

/-- The first sample of a line is written again by the sample behind the end of the line above,
where this one is in a later group. -/
theorem before_of_lost (mono : Monotone start) (mem : s ∈ spots lines start groups strips)
    (mem' : t ∈ spots lines start groups strips) (behind : t.col = width) (twice : start groups ≤ 2 * width)
    (narrow : 0 < start 1 ∧ start 1 ≤ width) (more : t.line + 1 < lines) (same : s.place lines width = t.place lines width) :
    s = t ∨ s.Before t := by
  have group : 1 ≤ t.group := by
    obtain ⟨-, -, -, -, high⟩ := mem_spots.mp mem'
    by_contra first
    have order := mono (show t.group + 1 ≤ 1 by omega)
    omega
  have positive : 0 < width := by
    have inside := col_lt mono mem'
    omega
  have next : s.place lines width = (t.row lines + 1) * width + 0 := by
    rw [same, Spot.place, behind]
    ring
  rcases place_eq positive next with ⟨row, col⟩ | ⟨above, col⟩
  · right
    have first : s.group = 0 := by
      obtain ⟨-, -, -, low, -⟩ := mem_spots.mp mem
      by_contra later
      have order := mono (show 1 ≤ s.group by omega)
      omega
    have line := (mem_spots.mp mem).2.2.1
    have next := @rows_lt lines s.strip t.strip s.line (t.line + 1) line more
    have next' := @rows_lt lines t.strip s.strip (t.line + 1) s.line more line
    unfold Spot.row at row
    unfold Spot.Before
    omega
  · left
    have inside := col_lt mono mem
    have alike : s.row lines = t.row lines := by
      by_contra further
      have two := Nat.mul_le_mul_right width (show 2 ≤ t.row lines + 1 - s.row lines by omega)
      omega
    refine spot_unique mono mem mem' alike ?_
    rw [col, alike, behind]
    simp

/-- How far the samples reach. -/
def extent (lines width : Nat) (start : Nat → Nat) (groups strips : Nat) : Nat :=
  if strips * lines = 0 then 0 else (strips * lines - 1) * width + start groups

theorem place_lt (mono : Monotone start) (mem : s ∈ spots lines start groups strips) :
    s.place lines width < extent lines width start groups strips := by
  obtain ⟨strip, -, line, -⟩ := mem_spots.mp mem
  have inside := col_lt mono mem
  have row : s.row lines < strips * lines := by
    have order := Nat.mul_le_mul_right lines (Nat.succ_le_of_lt strip)
    rw [Nat.succ_mul] at order
    unfold Spot.row
    omega
  have above := Nat.mul_le_mul_right width (show s.row lines ≤ strips * lines - 1 by omega)
  unfold extent Spot.place
  rw [if_neg (by omega)]
  omega

theorem extent_mono {strips' : Nat} (le : strips ≤ strips') :
    extent lines width start groups strips ≤ extent lines width start groups strips' := by
  have rows := Nat.mul_le_mul_right lines le
  unfold extent
  split
  · exact Nat.zero_le _
  · rw [if_neg (by omega)]
    exact Nat.add_le_add_right (Nat.mul_le_mul_right width (by omega)) _

/-- As far as so many whole lines. -/
theorem le_extent {n : Nat} (wide : width ≤ start groups) (some_line : 0 < strips * lines) (tall : n ≤ strips * lines) :
    n * width ≤ extent lines width start groups strips := by
  unfold extent
  rw [if_neg (by omega)]
  obtain ⟨m, count⟩ : ∃ m, strips * lines = m + 1 := ⟨strips * lines - 1, by omega⟩
  have order := Nat.mul_le_mul_right width (show n ≤ m + 1 by omega)
  rw [Nat.succ_mul] at order
  rw [count, Nat.add_sub_cancel]
  omega

/-- Where lines are filled up to their ends, there is no gap. -/
theorem exists_place (first : start 0 = 0) (wide : width ≤ start groups) (positive : 0 < width) {k : Nat}
    (below : k < extent lines width start groups strips) :
    ∃ s ∈ spots lines start groups strips, s.place lines width = k := by
  unfold extent at below
  split at below
  · omega
  · rename_i some_line
    -- the last line takes what is behind its end
    have row : min (k / width) (strips * lines - 1) < strips * lines := by omega
    have whole := Nat.div_add_mod' k width
    have rest := Nat.mod_lt k positive
    obtain ⟨col, cut⟩ : ∃ col, min (k / width) (strips * lines - 1) * width + col = k := by
      have low := Nat.mul_le_mul_right width (Nat.min_le_left (k / width) (strips * lines - 1))
      exact ⟨k - min (k / width) (strips * lines - 1) * width, by omega⟩
    have inside : col < start groups := by
      rcases Nat.le_total (k / width) (strips * lines - 1) with inner | last
      · rw [Nat.min_eq_left inner] at cut
        omega
      · rw [Nat.min_eq_right last] at cut
        omega
    obtain ⟨s, mem, line, here, -⟩ := exists_spot first inside row
    exact ⟨s, mem, by rw [Spot.place, line, here, cut]⟩

end Spots

end ImxTest.Lib.Strips
