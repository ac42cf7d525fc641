import Mathlib.Data.List.Infix
import Mathlib.Order.Bounds.Defs
import Mathlib.Tactic.Common

/-! Words whose beginnings come back at the end of others: the borders of a word, and how the longest
beginning of it at the end of a text is found again when the text grows by a letter. -/
namespace ImxTest.Lib.Borders

variable {α : Type} {p text : List α} {x : α} {j k : Nat}

/-- So many letters of `p` are the last ones of the text. -/
def Matches (p text : List α) (k : Nat) : Prop := k ≤ p.length ∧ p.take k <:+ text

def Longest (p text : List α) (j : Nat) : Prop := IsGreatest {k | Matches p text k} j

/-- The longest border of the first `j` letters that is not all of them; -1 stands for none. -/
def Failure (p : List α) (j : Nat) (f : Int) : Prop :=
  (j = 0 ∧ f = -1) ∨ ∃ k : Nat, 0 < j ∧ f = k ∧ Longest p (p.take j).tail k

/-- A number of letters that may be one more when the text grows by `x`, and no longer match will do. -/
structure Candidate (p text : List α) (x : α) (j : Int) : Prop where
  low : -1 ≤ j
  here : ∀ k : Nat, j = k → Matches p text k
  most : ∀ k, Matches p (text ++ [x]) k → (k : Int) ≤ j + 1

theorem matches_zero (p text : List α) : Matches p text 0 := ⟨Nat.zero_le _, List.nil_suffix⟩

theorem Matches.le_length (here : Matches p text k) : k ≤ text.length := by
  have short := here.2.length_le
  rw [List.length_take, Nat.min_eq_left here.1] at short
  exact short

theorem matches_snoc : Matches p (text ++ [x]) (k + 1) ↔ Matches p text k ∧ p[k]? = some x := by
  constructor
  · rintro ⟨inside, ends⟩
    have letter : p[k]? = some p[k] := List.getElem?_eq_getElem inside
    rw [List.take_add_one, letter, Option.toList_some] at ends
    obtain ⟨front, same⟩ := ends
    rw [← List.append_assoc] at same
    obtain ⟨front_same, last⟩ := List.append_inj' same rfl
    refine ⟨⟨Nat.le_of_succ_le inside, front, front_same⟩, ?_⟩
    rw [letter, (List.cons.inj last).1]
  · rintro ⟨⟨-, front, rfl⟩, letter⟩
    refine ⟨(List.getElem?_eq_some_iff.mp letter).1, front, ?_⟩
    rw [List.take_add_one, letter, Option.toList_some, List.append_assoc]

/-- Of two matches the shorter one is a match in the longer one. -/
theorem Matches.inner (long : Matches p text j) (short : Matches p text k) (less : k ≤ j) : Matches p (p.take j) k := by
  refine ⟨short.1, List.suffix_of_suffix_length_le short.2 long.2 ?_⟩
  rw [List.length_take, List.length_take, Nat.min_eq_left short.1, Nat.min_eq_left long.1]
  exact less

theorem Matches.tail (here : Matches p text k) (less : k < text.length) : Matches p text.tail k := by
  refine ⟨here.1, ?_⟩
  cases text with
  | nil => exact absurd less (Nat.not_lt_zero k)
  | cons first rest =>
    rcases List.suffix_cons_iff.mp here.2 with whole | ends
    · have lengths := congrArg List.length whole
      rw [List.length_take, Nat.min_eq_left here.1] at lengths
      omega
    · exact ends

theorem Matches.trans (long : Matches p text j) (border : Matches p (p.take j).tail k) : Matches p text k :=
  ⟨border.1, border.2.trans ((List.tail_suffix _).trans long.2)⟩

/-! ## One letter more -/

theorem Longest.candidate (longest : Longest p text j) (x : α) : Candidate p text x j := by
  refine ⟨by omega, fun k same => ?_, fun k here => ?_⟩
  · obtain rfl : j = k := by omega
    exact longest.1
  · cases k with
    | zero => omega
    | succ k =>
      have least : k ≤ j := longest.2 (matches_snoc.mp here).1
      omega

/-- The letter is the next one, or no letter has been read. -/
theorem Candidate.hit {j : Int} (candidate : Candidate p text x j) (next : ∀ k : Nat, j = k → p[k]? = some x) :
    Longest p (text ++ [x]) (j + 1).toNat := by
  have low := candidate.low
  refine ⟨?_, fun k here => ?_⟩
  · by_cases none_ : j = -1
    · rw [none_]
      exact matches_zero p _
    · obtain ⟨k, rfl⟩ : ∃ k : Nat, j = k := ⟨j.toNat, by omega⟩
      exact matches_snoc.mpr ⟨candidate.here k rfl, next k rfl⟩
  · have most := candidate.most k here
    omega

/-- Another letter: the longest border is tried next. -/
theorem Candidate.miss {f : Int} (candidate : Candidate p text x j) (other : p[j]? ≠ some x) (failure : Failure p j f) :
    Candidate p text x f := by
  have here := candidate.here j rfl
  have most (k : Nat) (next : Matches p (text ++ [x]) (k + 1)) : k < j := by
    have le := candidate.most (k + 1) next
    have ne : k ≠ j := fun same => other (same ▸ (matches_snoc.mp next).2)
    omega
  rcases failure with ⟨rfl, rfl⟩ | ⟨f, positive, rfl, longest⟩
  · refine ⟨by omega, fun k same => by omega, fun k next => ?_⟩
    cases k with
    | zero => omega
    | succ k => exact absurd (most k next) (Nat.not_lt_zero k)
  · refine ⟨by omega, fun k same => ?_, fun k next => ?_⟩
    · obtain rfl : f = k := by omega
      exact here.trans longest.1
    · cases k with
      | zero => omega
      | succ k =>
        have less := most k next
        have inner := here.inner (matches_snoc.mp next).1 less.le
        have border := longest.2 (inner.tail (by rw [List.length_take, Nat.min_eq_left here.1]; exact less))
        omega

theorem Failure.bounds {f : Int} (failure : Failure p j f) : -1 ≤ f ∧ f < j := by
  rcases failure with ⟨rfl, rfl⟩ | ⟨k, positive, rfl, longest⟩
  · omega
  · have short := longest.1.le_length
    rw [List.length_tail, List.length_take] at short
    omega

/-! ## Occurrences -/

/-- The word is in the text at this place. -/
def Occurs (p text : List α) (k : Nat) : Prop := p <+: text.drop k

theorem exists_occurs : (∃ k, Occurs p text k) ↔ p <:+: text := by
  constructor
  · rintro ⟨k, rest, same⟩
    exact ⟨text.take k, rest, by rw [List.append_assoc, same, List.take_append_drop]⟩
  · rintro ⟨front, rest, rfl⟩
    exact ⟨front.length, rest, by rw [List.append_assoc, List.drop_left]⟩

theorem Occurs.inside (occurs : Occurs p text k) (some_ : p ≠ []) : k + p.length ≤ text.length := by
  have short := occurs.length_le
  have positive := List.length_pos_iff.mpr some_
  rw [List.length_drop] at short
  omega

/-- A place of the word is where all its letters are the last ones so far. -/
theorem occurs_iff (inside : k + p.length ≤ text.length) :
    Occurs p text k ↔ Matches p (text.take (k + p.length)) p.length := by
  unfold Occurs Matches
  rw [List.take_length, List.take_add, List.prefix_iff_eq_take, and_iff_right (le_refl _)]
  constructor
  · intro same
    exact ⟨text.take k, by rw [← same]⟩
  · rintro ⟨front, same⟩
    refine (List.append_inj' same ?_).2
    rw [List.length_take, List.length_drop]
    omega

end ImxTest.Lib.Borders
