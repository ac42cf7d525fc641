import Mathlib.Algebra.Group.Nat.Even
import Mathlib.Data.List.Nodup
import Mathlib.Tactic.Common
import Mathlib.Tactic.Ring

/-! Rectangles of cells, kept row after row, and how they look when they are turned. -/
namespace ImxTest.Lib.Grid

/-- A cell by its column and its row. -/
abbrev Cell := Nat × Nat

def Inside (w h : Nat) (p : Cell) : Prop := p.1 < w ∧ p.2 < h

/-- The number of a cell, when each row has so many. -/
def place (cols : Nat) (p : Cell) : Nat := p.2 * cols + p.1

section Place
variable {cols rows k : Nat} {p q : Cell}

theorem place_inj (left : p.1 < cols) (right : q.1 < cols) : place cols p = place cols q ↔ p = q := by
  refine ⟨fun same => ?_, congrArg _⟩
  have positive : 0 < cols := by omega
  have column (p : Cell) (inside : p.1 < cols) : place cols p % cols = p.1 := by
    rw [place, Nat.add_comm, Nat.add_mul_mod_self_right, Nat.mod_eq_of_lt inside]
  have row (p : Cell) (inside : p.1 < cols) : place cols p / cols = p.2 := by
    rw [place, Nat.add_comm, Nat.add_mul_div_right _ _ positive, Nat.div_eq_of_lt inside, Nat.zero_add]
  ext
  · rw [← column p left, ← column q right, same]
  · rw [← row p left, ← row q right, same]

theorem place_lt (inside : Inside cols rows p) : place cols p < rows * cols := by
  calc place cols p < p.2 * cols + cols := Nat.add_lt_add_left inside.1 _
    _ = (p.2 + 1) * cols := by ring
    _ ≤ rows * cols := Nat.mul_le_mul_right _ inside.2

theorem exists_place (low : k < rows * cols) : ∃ p, Inside cols rows p ∧ place cols p = k := by
  have positive : 0 < cols := Nat.pos_of_mul_pos_left (Nat.lt_of_le_of_lt (Nat.zero_le k) low)
  exact ⟨(k % cols, k / cols), ⟨Nat.mod_lt _ positive, Nat.div_lt_of_lt_mul (by rwa [Nat.mul_comm])⟩,
    Nat.div_add_mod' k cols⟩

end Place

/-- A turn clockwise. -/
inductive Turn where
  | none
  | quarter
  | half
  | threeQuarters
deriving DecidableEq, Repr

def Turn.degrees : Turn → Nat
  | .none => 0
  | .quarter => 90
  | .half => 180
  | .threeQuarters => 270

/-- Where a cell of a rectangle is when the rectangle is turned. -/
def Turn.cell (w h : Nat) (p : Cell) : Turn → Cell
  | .none => p
  | .quarter => (h - 1 - p.2, p.1)
  | .half => (w - 1 - p.1, h - 1 - p.2)
  | .threeQuarters => (p.2, w - 1 - p.1)

/-- The width of the turned rectangle. -/
def Turn.width (w h : Nat) : Turn → Nat
  | .none | .half => w
  | .quarter | .threeQuarters => h

def Turn.height (w h : Nat) (turn : Turn) : Nat := turn.width h w

section Turned
variable (turn : Turn) {w h : Nat} {p q : Cell}

theorem Turn.area : turn.height w h * turn.width w h = w * h := by
  cases turn
  case none | half => exact Nat.mul_comm _ _
  case quarter | threeQuarters => rfl

theorem Turn.inside (inside : Inside w h p) : Inside (turn.width w h) (turn.height w h) (turn.cell w h p) := by
  obtain ⟨left, low⟩ := inside
  cases turn <;> simp only [Turn.width, Turn.height, Turn.cell, Inside] <;> omega

theorem Turn.cell_inj (left : Inside w h p) (right : Inside w h q) :
    turn.cell w h p = turn.cell w h q ↔ p = q := by
  obtain ⟨px, py⟩ := left
  obtain ⟨qx, qy⟩ := right
  cases turn <;> simp only [Turn.cell, Prod.ext_iff] <;> omega

/-- The cell that a turn brings to a cell of the turned rectangle. -/
def Turn.source (w h : Nat) (q : Cell) : Turn → Cell
  | .none => q
  | .quarter => (q.2, h - 1 - q.1)
  | .half => (w - 1 - q.1, h - 1 - q.2)
  | .threeQuarters => (w - 1 - q.2, q.1)

theorem Turn.source_inside (inside : Inside (turn.width w h) (turn.height w h) q) : Inside w h (turn.source w h q) := by
  obtain ⟨left, low⟩ := inside
  cases turn <;> simp only [Turn.width, Turn.height, Turn.source, Inside] at * <;> omega

theorem Turn.cell_source (inside : Inside (turn.width w h) (turn.height w h) q) :
    turn.cell w h (turn.source w h q) = q := by
  obtain ⟨x, y⟩ := q
  obtain ⟨left, low⟩ := inside
  cases turn <;> simp only [Turn.width, Turn.height, Turn.source, Turn.cell, Prod.mk.injEq, true_and, and_true] at * <;> omega

/-- Every cell of the turned rectangle comes from one of the rectangle. -/
theorem Turn.exists_cell (inside : Inside (turn.width w h) (turn.height w h) q) :
    ∃ p, Inside w h p ∧ turn.cell w h p = q := ⟨_, turn.source_inside inside, turn.cell_source inside⟩

/-- A quarter and three more. -/
theorem quarter_back (inside : Inside w h p) :
    Turn.cell h w (Turn.cell w h p .quarter) .threeQuarters = p := by
  obtain ⟨x, y⟩ := p
  obtain ⟨left, low⟩ := inside
  simp only [Turn.cell, Prod.mk.injEq, true_and]
  omega

end Turned

/-- How a rectangle looks in a mirror: upside down, left to right, or both. -/
inductive Mirror where
  | none
  | vertical
  | horizontal
  | both
deriving DecidableEq, Repr

def Mirror.cell (w h : Nat) (p : Cell) : Mirror → Cell
  | .none => p
  | .vertical => (p.1, h - 1 - p.2)
  | .horizontal => (w - 1 - p.1, p.2)
  | .both => (w - 1 - p.1, h - 1 - p.2)

section Mirrored
variable (mirror : Mirror) {w h : Nat} {p : Cell}

theorem Mirror.inside (inside : Inside w h p) : Inside w h (mirror.cell w h p) := by
  obtain ⟨left, low⟩ := inside
  cases mirror <;> simp only [Mirror.cell, Inside] <;> omega

theorem Mirror.back (inside : Inside w h p) : mirror.cell w h (mirror.cell w h p) = p := by
  obtain ⟨x, y⟩ := p
  obtain ⟨left, low⟩ := inside
  dsimp only at left low
  cases mirror with
  | none => rfl
  | vertical => exact Prod.ext rfl (by dsimp only [Mirror.cell]; omega)
  | horizontal => exact Prod.ext (by dsimp only [Mirror.cell]; omega) rfl
  | both => exact Prod.ext (by dsimp only [Mirror.cell]; omega) (by dsimp only [Mirror.cell]; omega)

end Mirrored

/-- A rectangle turned first and then looked at in a mirror. -/
structure Motion where
  turn : Turn
  mirror : Mirror

def Motion.width (motion : Motion) (w h : Nat) : Nat := motion.turn.width w h

def Motion.height (motion : Motion) (w h : Nat) : Nat := motion.turn.height w h

def Motion.cell (motion : Motion) (w h : Nat) (p : Cell) : Cell :=
  motion.mirror.cell (motion.width w h) (motion.height w h) (motion.turn.cell w h p)

section Moved
variable (motion : Motion) {w h : Nat} {p q : Cell}

theorem Motion.area : motion.height w h * motion.width w h = w * h := motion.turn.area

theorem Motion.inside (inside : Inside w h p) :
    Inside (motion.width w h) (motion.height w h) (motion.cell w h p) :=
  motion.mirror.inside (motion.turn.inside inside)

theorem Motion.cell_inj (left : Inside w h p) (right : Inside w h q) :
    motion.cell w h p = motion.cell w h q ↔ p = q := by
  refine ⟨fun same => ?_, congrArg _⟩
  refine (motion.turn.cell_inj left right).mp ?_
  have seen := congrArg (motion.mirror.cell (motion.width w h) (motion.height w h)) same
  exact (motion.mirror.back (motion.turn.inside left)).symm.trans
    (seen.trans (motion.mirror.back (motion.turn.inside right)))

theorem Motion.exists_cell (inside : Inside (motion.width w h) (motion.height w h) q) :
    ∃ p, Inside w h p ∧ motion.cell w h p = q := by
  obtain ⟨p, within, same⟩ := motion.turn.exists_cell (motion.mirror.inside inside)
  exact ⟨p, within, by rw [Motion.cell, same]; exact motion.mirror.back inside⟩

end Moved

/-! ## Parts of a rectangle -/

structure Rect where
  left : Nat
  top : Nat
  right : Nat
  bottom : Nat
deriving DecidableEq, Repr

namespace Rect

def Has (r : Rect) (p : Cell) : Prop := (r.left ≤ p.1 ∧ p.1 < r.right) ∧ r.top ≤ p.2 ∧ p.2 < r.bottom

def Within (r : Rect) (w h : Nat) : Prop := (r.left ≤ r.right ∧ r.right ≤ w) ∧ r.top ≤ r.bottom ∧ r.bottom ≤ h

/-- The cells, row after row. -/
def cells (r : Rect) : List Cell :=
  (List.range' r.top (r.bottom - r.top)).flatMap fun y =>
    (List.range' r.left (r.right - r.left)).map fun x => (x, y)

variable {r : Rect} {w h : Nat} {p : Cell}

theorem mem_cells : p ∈ r.cells ↔ r.Has p := by
  obtain ⟨x, y⟩ := p
  simp only [cells, List.mem_flatMap, List.mem_map, List.mem_range'_1, Prod.mk.injEq, Has]
  constructor
  · rintro ⟨y', rows, x', columns, rfl, rfl⟩
    omega
  · rintro ⟨columns, rows⟩
    exact ⟨y, by omega, x, by omega, rfl, rfl⟩

theorem nodup_cells : r.cells.Nodup := by
  have columns : (List.range' r.left (r.right - r.left)).Nodup := List.nodup_range' ..
  have rows : (List.range' r.top (r.bottom - r.top)).Nodup := List.nodup_range' ..
  refine List.nodup_flatMap.mpr ⟨fun y _ => ?_, ?_⟩
  · exact columns.map fun _ _ same => congrArg Prod.fst same
  · refine rows.imp ?_
    intro y y' differ p first second
    obtain ⟨x, -, rfl⟩ := List.mem_map.mp first
    obtain ⟨x', -, same⟩ := List.mem_map.mp second
    exact differ (congrArg Prod.snd same).symm

theorem Has.inside (has : r.Has p) (within : r.Within w h) : Inside w h p :=
  ⟨Nat.lt_of_lt_of_le has.1.2 within.1.2, Nat.lt_of_lt_of_le has.2.2 within.2.2⟩

end Rect

def Turn.rect (w h : Nat) (r : Rect) : Turn → Rect
  | .none => r
  | .quarter => ⟨h - r.bottom, r.left, h - r.top, r.right⟩
  | .half => ⟨w - r.right, h - r.bottom, w - r.left, h - r.top⟩
  | .threeQuarters => ⟨r.top, w - r.right, r.bottom, w - r.left⟩

def Mirror.rect (w h : Nat) (r : Rect) : Mirror → Rect
  | .none => r
  | .vertical => ⟨r.left, h - r.bottom, r.right, h - r.top⟩
  | .horizontal => ⟨w - r.right, r.top, w - r.left, r.bottom⟩
  | .both => ⟨w - r.right, h - r.bottom, w - r.left, h - r.top⟩

def Motion.rect (motion : Motion) (w h : Nat) (r : Rect) : Rect :=
  motion.mirror.rect (motion.width w h) (motion.height w h) (motion.turn.rect w h r)

section Parts
variable {w h : Nat} {r : Rect} {p : Cell}

theorem Turn.rect_within (turn : Turn) (within : r.Within w h) :
    (turn.rect w h r).Within (turn.width w h) (turn.height w h) := by
  unfold Rect.Within at *
  cases turn <;> simp only [Turn.rect, Turn.width, Turn.height] <;> omega

theorem Mirror.rect_within (mirror : Mirror) (within : r.Within w h) : (mirror.rect w h r).Within w h := by
  unfold Rect.Within at *
  cases mirror <;> simp only [Mirror.rect] <;> omega

theorem Motion.rect_within (motion : Motion) (within : r.Within w h) :
    (motion.rect w h r).Within (motion.width w h) (motion.height w h) :=
  motion.mirror.rect_within (motion.turn.rect_within within)

theorem Turn.rect_has (turn : Turn) (within : r.Within w h) (inside : Inside w h p) :
    (turn.rect w h r).Has (turn.cell w h p) ↔ r.Has p := by
  unfold Rect.Within at within
  obtain ⟨left, low⟩ := inside
  cases turn <;> simp only [Turn.rect, Turn.cell, Rect.Has] <;> omega

theorem Mirror.rect_has (mirror : Mirror) (within : r.Within w h) (inside : Inside w h p) :
    (mirror.rect w h r).Has (mirror.cell w h p) ↔ r.Has p := by
  unfold Rect.Within at within
  obtain ⟨left, low⟩ := inside
  cases mirror <;> simp only [Mirror.rect, Mirror.cell, Rect.Has] <;> omega

theorem Motion.rect_has (motion : Motion) (within : r.Within w h) (inside : Inside w h p) :
    (motion.rect w h r).Has (motion.cell w h p) ↔ r.Has p :=
  (motion.mirror.rect_has (motion.turn.rect_within within) (motion.turn.inside inside)).trans
    (motion.turn.rect_has within inside)

/-- The cells of a part, in the order in which they lie when it is moved. -/
theorem Motion.exists_cells (motion : Motion) (within : r.Within w h) :
    ∃ cells : List Cell, cells.map (motion.cell w h) = (motion.rect w h r).cells ∧ cells.Perm r.cells := by
  have each (q : Cell) (mem : q ∈ (motion.rect w h r).cells) : ∃ p, Inside w h p ∧ motion.cell w h p = q :=
    motion.exists_cell ((Rect.mem_cells.mp mem).inside (motion.rect_within within))
  choose! back inside same using each
  refine ⟨(motion.rect w h r).cells.map back, ?_, ?_⟩
  · rw [List.map_map]
    exact (List.map_congr_left same).trans (List.map_id _)
  · refine (List.perm_ext_iff_of_nodup ?_ Rect.nodup_cells).mpr fun p => ?_
    · refine List.Nodup.map_on (fun q mem q' mem' alike => ?_) Rect.nodup_cells
      rw [← same q mem, ← same q' mem', alike]
    · rw [List.mem_map, Rect.mem_cells]
      constructor
      · rintro ⟨q, mem, rfl⟩
        rw [← motion.rect_has within (inside q mem), same q mem]
        exact Rect.mem_cells.mp mem
      · intro has
        have within' := has.inside within
        have mem := Rect.mem_cells.mpr ((motion.rect_has within within').mpr has)
        exact ⟨_, mem, (motion.cell_inj (inside _ mem) within').mp (same _ mem)⟩

end Parts

end ImxTest.Lib.Grid
