import Mathlib.Tactic.Common

/-! Cells copied from one place of a flat memory to another: ranges, and the rows
of a rectangle one after the other. -/
namespace ImxTest.Lib.Copy

variable {β : Type}

/-- `n` cells from `src` on are copied to `dst`. -/
def copy (mem : Nat → β) (dst src n : Nat) : Nat → β :=
  fun a => if dst ≤ a ∧ a < dst + n then mem (src + (a - dst)) else mem a

/-- The `n` cells from `a` on. -/
def span (mem : Nat → β) (a n : Nat) : List β := (List.range' a n).map mem

/-- `m` cells from `a` on and `n` cells from `b` on have none in common. -/
def Apart (a m b n : Nat) : Prop := m = 0 ∨ n = 0 ∨ a + m ≤ b ∨ b + n ≤ a

instance (a m b n : Nat) : Decidable (Apart a m b n) := by
  unfold Apart
  infer_instance

theorem Apart.symm {a m b n : Nat} (apart : Apart a m b n) : Apart b n a m := by
  unfold Apart at apart ⊢
  omega

/-- Parts of ranges that are apart. -/
theorem Apart.part {a m b n a' m' b' n' : Nat} (apart : Apart a m b n)
    (left : a ≤ a' ∧ a' + m' ≤ a + m) (right : b ≤ b' ∧ b' + n' ≤ b + n) : Apart a' m' b' n' := by
  unfold Apart at apart ⊢
  omega

section Span
variable {mem mem' : Nat → β} {a b m n : Nat}

@[simp] theorem span_zero : span mem a 0 = [] := rfl

@[simp] theorem span_length : (span mem a n).length = n := by
  rw [span, List.length_map, List.length_range']

theorem span_append : span mem a (m + n) = span mem a m ++ span mem (a + m) n := by
  rw [span, span, span, ← List.map_append, List.range'_append_1]

theorem span_getElem? {k : Nat} (inside : k < n) : (span mem a n)[k]? = some (mem (a + k)) := by
  rw [span, List.getElem?_map, List.getElem?_range' inside, Option.map_some, Nat.one_mul]

theorem span_eq_iff : span mem a n = span mem' b n ↔ ∀ k < n, mem (a + k) = mem' (b + k) := by
  constructor
  · intro same k inside
    have cell := congrArg (·[k]?) same
    simpa only [span_getElem? inside, Option.some.injEq] using cell
  · intro same
    apply List.ext_getElem?
    intro k
    rcases Nat.lt_or_ge k n with inside | outside
    · rw [span_getElem? inside, span_getElem? inside, same k inside]
    · rw [List.getElem?_eq_none (by rwa [span_length]), List.getElem?_eq_none (by rwa [span_length])]

/-- Rows that are the same one by one. -/
theorem span_rows {line rows : Nat}
    (same : ∀ j < rows, span mem (a + j * line) line = span mem' (b + j * line) line) :
    span mem a (rows * line) = span mem' b (rows * line) := by
  induction rows with
  | zero => rw [Nat.zero_mul, span_zero, span_zero]
  | succ rows ih =>
    rw [Nat.succ_mul, span_append, span_append, ih fun j below => same j (by omega),
      same rows (Nat.lt_succ_self rows)]

/-- Two ranges that hold the same whatever the memory holds begin at one cell. -/
theorem span_determined {x y : β} (differ : x ≠ y) (some_cell : 0 < n)
    (same : ∀ mem : Nat → β, span mem a n = span mem b n) : a = b := by
  have cells := span_eq_iff.mp (same fun c => if c = a then x else y) 0 some_cell
  simp only [Nat.add_zero, if_true] at cells
  by_contra other
  rw [if_neg (Ne.symm other)] at cells
  exact differ cells

end Span

/-! ## One range -/

section Range
variable {mem : Nat → β} {dst src n : Nat}

theorem copy_inside {k : Nat} (inside : k < n) : copy mem dst src n (dst + k) = mem (src + k) := by
  rw [copy, if_pos ⟨by omega, by omega⟩, Nat.add_sub_cancel_left]

theorem copy_outside {a : Nat} (out : a < dst ∨ dst + n ≤ a) : copy mem dst src n a = mem a := by
  rw [copy, if_neg (by omega)]

theorem span_copy : span (copy mem dst src n) dst n = span mem src n :=
  span_eq_iff.mpr fun _ inside => copy_inside inside

theorem span_copy_apart {a m : Nat} (apart : Apart a m dst n) :
    span (copy mem dst src n) a m = span mem a m := by
  apply span_eq_iff.mpr
  intro k inside
  apply copy_outside
  unfold Apart at apart
  omega

@[simp] theorem copy_nothing : copy mem dst src 0 = mem := by
  funext a
  exact copy_outside (by omega)

end Range

/-! ## Rows -/

/-- `rows` rows of `line` cells, the next one `dstLine` cells on. -/
def copyRows (mem : Nat → β) (dst src dstLine srcLine line : Nat) : (rows : Nat) → Nat → β
  | 0 => mem
  | rows + 1 =>
    copyRows (copy mem dst src line) (dst + dstLine) (src + srcLine) dstLine srcLine line rows

section Rows
variable {mem : Nat → β} {dst src dstLine srcLine line rows : Nat}

theorem copyRows_outside {a : Nat}
    (out : ∀ j < rows, a < dst + j * dstLine ∨ dst + j * dstLine + line ≤ a) :
    copyRows mem dst src dstLine srcLine line rows a = mem a := by
  induction rows generalizing mem dst src with
  | zero => rfl
  | succ rows ih =>
    rw [copyRows, ih, copy_outside]
    · simpa using out 0 (Nat.zero_lt_succ _)
    · intro j below
      have next := out (j + 1) (Nat.succ_lt_succ below)
      rw [Nat.succ_mul] at next
      omega

theorem span_copyRows_apart {a m : Nat}
    (apart : ∀ j < rows, Apart a m (dst + j * dstLine) line) :
    span (copyRows mem dst src dstLine srcLine line rows) a m = span mem a m := by
  apply span_eq_iff.mpr
  intro k inside
  apply copyRows_outside
  intro j below
  have row := apart j below
  unfold Apart at row
  omega

@[simp] theorem copyRows_nothing : copyRows mem dst src dstLine srcLine 0 rows = mem := by
  induction rows generalizing dst src with
  | zero => rfl
  | succ rows ih => rw [copyRows, copy_nothing, ih]

/-- Each row arrives, where no row is read from what the rows are written to. -/
theorem span_copyRows (narrow : line ≤ dstLine)
    (apart : ∀ i < rows, ∀ j < rows, Apart (src + i * srcLine) line (dst + j * dstLine) line)
    {j : Nat} (below : j < rows) :
    span (copyRows mem dst src dstLine srcLine line rows) (dst + j * dstLine) line =
      span mem (src + j * srcLine) line := by
  induction rows generalizing mem dst src j with
  | zero => omega
  | succ rows ih =>
    rw [copyRows]
    cases j with
    | zero =>
      rw [Nat.zero_mul, Nat.zero_mul, Nat.add_zero, Nat.add_zero, span_copyRows_apart, span_copy]
      intro j _
      unfold Apart
      omega
    | succ j =>
      have shifted := @ih (copy mem dst src line) (dst + dstLine) (src + srcLine) ?_ j (by omega)
      · have row : dst + (j + 1) * dstLine = dst + dstLine + j * dstLine := by rw [Nat.succ_mul]; omega
        have origin : src + (j + 1) * srcLine = src + srcLine + j * srcLine := by
          rw [Nat.succ_mul]; omega
        rw [row, shifted, origin, span_copy_apart]
        have first := apart (j + 1) below 0 (Nat.zero_lt_succ _)
        rwa [Nat.zero_mul, Nat.add_zero, origin] at first
      · intro i iBelow k kBelow
        have next := apart (i + 1) (by omega) (k + 1) (by omega)
        rw [Nat.succ_mul, Nat.succ_mul] at next
        unfold Apart at next ⊢
        omega

end Rows

/-! ## Copies one after the other -/

/-- `n` cells from `src` on are to be copied to `dst`. -/
structure Move where
  dst : Nat
  src : Nat
  n : Nat
deriving DecidableEq, Repr

def runMoves (mem : Nat → β) (moves : List Move) : Nat → β :=
  moves.foldl (fun mem move => copy mem move.dst move.src move.n) mem

/-- The move brings what is in cell `s` to cell `a`. -/
def Move.Brings (move : Move) (a s : Nat) : Prop := ∃ k < move.n, a = move.dst + k ∧ s = move.src + k

section Moves
variable {mem : Nat → β} {moves : List Move} {move : Move} {a s : Nat}

theorem Move.Brings.copied (brings : move.Brings a s) :
    copy mem move.dst move.src move.n a = mem s := by
  obtain ⟨k, inside, rfl, rfl⟩ := brings
  exact copy_inside inside

theorem Move.copy_free (free : ∀ s, ¬ move.Brings a s) :
    copy mem move.dst move.src move.n a = mem a := by
  apply copy_outside
  by_contra inside
  exact free (move.src + (a - move.dst)) ⟨a - move.dst, by omega, by omega, rfl⟩

theorem runMoves_free (free : ∀ move ∈ moves, ∀ s, ¬ move.Brings a s) : runMoves mem moves a = mem a := by
  induction moves generalizing mem with
  | nil => rfl
  | cons move rest ih =>
    have done := @ih (copy mem move.dst move.src move.n) fun m mem => free m (List.mem_cons_of_mem _ mem)
    exact done.trans (move.copy_free (free move List.mem_cons_self))

/-- A cell that some move brings gets what it brings, if no other move brings
anything else and the source stays as it is. -/
theorem runMoves_brings (brings : ∃ move ∈ moves, move.Brings a s)
    (one : ∀ move ∈ moves, ∀ s', move.Brings a s' → s' = s)
    (kept : ∀ move ∈ moves, ∀ s', ¬ move.Brings s s') : runMoves mem moves a = mem s := by
  induction moves generalizing mem with
  | nil =>
    obtain ⟨move, mem, -⟩ := brings
    cases mem
  | cons move rest ih =>
    have later (m : Move) (mem : m ∈ rest) : m ∈ move :: rest := List.mem_cons_of_mem _ mem
    have source := @Move.copy_free _ mem move s (kept move List.mem_cons_self)
    by_cases again : ∃ m ∈ rest, m.Brings a s
    · have done := @ih (copy mem move.dst move.src move.n) again (fun m mem => one m (later m mem))
        fun m mem => kept m (later m mem)
      exact done.trans source
    · obtain ⟨m, here, found⟩ := brings
      obtain rfl : m = move := (List.mem_cons.mp here).resolve_right fun mem => again ⟨m, mem, found⟩
      have rest_free : ∀ m ∈ rest, ∀ s', ¬ m.Brings a s' := by
        intro m' mem s' other
        obtain rfl := one m' (later m' mem) s' other
        exact again ⟨m', mem, other⟩
      exact (runMoves_free rest_free).trans found.copied

/-- The moves that copy `rows` rows. -/
def rowMoves (dst src dstLine srcLine line rows : Nat) : List Move :=
  (List.range rows).map fun j => ⟨dst + j * dstLine, src + j * srcLine, line⟩

theorem runMoves_append {first second : List Move} :
    runMoves mem (first ++ second) = runMoves (runMoves mem first) second :=
  List.foldl_append

theorem copyRows_moves {dst src dstLine srcLine line rows : Nat} :
    copyRows mem dst src dstLine srcLine line rows =
      runMoves mem (rowMoves dst src dstLine srcLine line rows) := by
  induction rows generalizing mem dst src with
  | zero => rfl
  | succ rows ih =>
    have rest : (List.range rows).map (fun j =>
          (⟨dst + dstLine + j * dstLine, src + srcLine + j * srcLine, line⟩ : Move)) =
        (List.range rows).map ((fun j => ⟨dst + j * dstLine, src + j * srcLine, line⟩) ∘ Nat.succ) := by
      apply List.map_congr_left
      intro j _
      simp only [Function.comp, Nat.succ_mul, Move.mk.injEq, and_true]
      omega
    rw [copyRows, ih, rowMoves, rowMoves, rest, List.range_succ_eq_map, List.map_cons, List.map_map,
      Nat.zero_mul, Nat.zero_mul]
    rfl

/-- Moves that bring each cell one thing at most, from cells that they leave alone. -/
theorem runMoves_spec {R : Nat → Nat → Prop} (brings : ∀ a s, (∃ move ∈ moves, move.Brings a s) ↔ R a s)
    (one : ∀ a s t, R a s → R a t → s = t) (kept : ∀ a s t, R a s → ¬ R s t) :
    (∀ a s, R a s → runMoves mem moves a = mem s) ∧
      ∀ a, (∀ s, ¬ R a s) → runMoves mem moves a = mem a := by
  have some_ {a s : Nat} {move : Move} (here : move ∈ moves) (found : move.Brings a s) : R a s :=
    (brings a s).mp ⟨move, here, found⟩
  constructor
  · intro a s found
    apply runMoves_brings ((brings a s).mpr found)
    · exact fun move here t other => one a t s (some_ here other) found
    · exact fun move here t other => kept a s t found (some_ here other)
  · intro a free
    exact runMoves_free fun move here s other => free s (some_ here other)

end Moves

end ImxTest.Lib.Copy
