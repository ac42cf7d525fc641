import Mathlib.Data.List.Infix
import Mathlib.Tactic.Common

/-! A marker of two cells in a stream that comes piece by piece. Between the pieces only one bit
has to be kept: whether the last cell may begin a marker. -/
namespace ImxTest.Lib.Marker

variable {α : Type} [DecidableEq α]

section Seek
variable (a b : α)

def Free (cells : List α) : Prop := ¬ [a, b] <:+: cells

instance (cells : List α) : Decidable (Free a b cells) := inferInstanceAs (Decidable (¬ _))

/-- The part of a stream from its first marker on. -/
def fromFirst : List α → List α
  | [] => []
  | x :: rest => if [a, b] <+: x :: rest then x :: rest else fromFirst rest

/-- How many cells lead up to the end of the first marker, when the cell before them began one
or not. -/
def seek : (armed : Bool) → List α → Option Nat
  | _, [] => none
  | armed, x :: rest => if armed && x = b then some 1 else (seek (x = a) rest).map (· + 1)

/-- Whether the last cell may begin a marker. -/
def armedBy : (armed : Bool) → List α → Bool
  | armed, [] => armed
  | _, x :: rest => armedBy (x = a) rest

/-- The cell that a marker may have begun with. -/
def begun (armed : Bool) : List α := if armed then [a] else []

end Seek

variable {a b : α} {armed : Bool} {p q cells : List α} {n : Nat}

theorem armedBy_append : armedBy a armed (p ++ q) = armedBy a (armedBy a armed p) q := by
  induction p generalizing armed with
  | nil => rfl
  | cons x p ih => exact ih

theorem seek_append : seek a b armed (p ++ q) =
    (seek a b armed p).or ((seek a b (armedBy a armed p) q).map (p.length + ·)) := by
  induction p generalizing armed with
  | nil => simp [seek, armedBy]
  | cons x p ih =>
    simp only [List.cons_append, seek, armedBy, ih, List.length_cons]
    split
    · rfl
    · cases seek a b (x = a) p with
      | some m => rfl
      | none =>
        simp only [Option.map_none, Option.none_or, Option.map_map]
        exact congrArg (Option.map · _) (funext fun m => Nat.add_right_comm ..)

theorem seek_none_iff : seek a b armed cells = none ↔ Free a b (begun a armed ++ cells) := by
  unfold Free
  induction cells generalizing armed with
  | nil => cases armed <;> simp [seek, begun, List.infix_cons_iff]
  | cons x rest ih =>
    have next : seek a b (x = a) rest = none ↔ ¬ [a, b] <:+: x :: rest := by
      rw [ih, not_iff_not]
      by_cases same : x = a
      · simp [begun, same]
      · simp [begun, same, List.infix_cons_iff, Ne.symm same]
    cases armed with
    | false => simp [seek, begun, next]
    | true =>
      simp only [seek, begun, Bool.true_and, decide_eq_true_eq, if_true, List.cons_append, List.nil_append]
      rw [List.infix_cons_iff]
      by_cases same : x = b
      · simp [same]
      · simp [same, next, Ne.symm same]

/-- A marker is found at the first cell that ends one. -/
theorem seek_some_iff : seek a b armed cells = some n ↔
    ∃ s, cells = s ++ b :: cells.drop n ∧ s.length + 1 = n ∧ armedBy a armed s = true ∧ seek a b armed s = none := by
  constructor
  · intro found
    induction cells generalizing armed n with
    | nil => simp [seek] at found
    | cons x rest ih =>
      rw [seek] at found
      split at found
      · rename_i here
        obtain ⟨rfl, rfl⟩ : armed = true ∧ x = b := by simpa using here
        obtain rfl := Option.some.inj found
        exact ⟨[], rfl, rfl, rfl, rfl⟩
      · rename_i later
        obtain ⟨m, below, rfl⟩ := Option.map_eq_some_iff.mp found
        obtain ⟨s, parts, length, ends, free⟩ := ih below
        refine ⟨x :: s, congrArg (x :: ·) parts, congrArg (· + 1) length, ends, ?_⟩
        rw [seek, if_neg later, free, Option.map_none]
  · rintro ⟨s, parts, length, ends, free⟩
    rw [parts, seek_append, free, Option.none_or, ends]
    simp [seek, length]

theorem begun_of_armedBy (ends : armedBy a armed p = true) : ∃ before, begun a armed ++ p = before ++ [a] := by
  induction p generalizing armed with
  | nil =>
    obtain rfl : armed = true := ends
    exact ⟨[], rfl⟩
  | cons x p ih =>
    obtain ⟨before, parts⟩ := ih ends
    by_cases same : x = a
    · refine ⟨begun a armed ++ before, ?_⟩
      rw [List.append_assoc, ← parts]
      simp [begun, same]
    · refine ⟨begun a armed ++ x :: before, ?_⟩
      have parts' : p = before ++ [a] := by simpa [begun, same] using parts
      simp [parts']

/-- What a marker that is found leaves before and behind it. -/
theorem seek_some (found : seek a b armed cells = some n) :
    ∃ before, begun a armed ++ cells = before ++ [a, b] ++ cells.drop n ∧ n ≤ cells.length ∧
      before.length + 2 = (begun a armed).length + n ∧ Free a b (before ++ [a]) := by
  obtain ⟨s, parts, length, ends, free⟩ := seek_some_iff.mp found
  obtain ⟨before, same⟩ := begun_of_armedBy ends
  have lengths := congrArg List.length parts
  have lengths' := congrArg List.length same
  simp only [List.length_append, List.length_cons, List.length_nil] at lengths lengths'
  refine ⟨before, ?_, by omega, by omega, same ▸ seek_none_iff.mp free⟩
  calc begun a armed ++ cells
      = begun a armed ++ s ++ b :: cells.drop n := by rw [List.append_assoc, ← parts]
    _ = before ++ [a, b] ++ cells.drop n := by rw [same]; simp

/-- The first marker behind cells that have none. -/
theorem fromFirst_eq {junk rest : List α} (free : Free a b (junk ++ [a])) (starts : rest = [] ∨ [a, b] <+: rest) :
    fromFirst a b (junk ++ rest) = rest := by
  induction junk with
  | nil =>
    rcases starts with rfl | starts
    · rfl
    · cases rest with
      | nil => rfl
      | cons x rest => exact if_pos starts
  | cons x junk ih =>
    have later : Free a b (junk ++ [a]) := fun found => free (List.infix_cons found)
    rw [List.cons_append, fromFirst, if_neg, ih later]
    intro here
    refine free (List.IsPrefix.isInfix ?_)
    obtain ⟨rfl, next⟩ := List.cons_prefix_cons.mp here
    refine List.cons_prefix_cons.mpr ⟨rfl, ?_⟩
    cases junk with
    | cons y junk => simpa using next
    | nil =>
      rcases starts with rfl | starts
      · simp at next
      · cases rest with
        | nil => simp at starts
        | cons y rest =>
          obtain ⟨rfl, -⟩ := List.cons_prefix_cons.mp starts
          simpa using next

end ImxTest.Lib.Marker
