import ImxTest.Lib.While
import Mathlib.Order.Bounds.Defs
import Mathlib.Tactic.Positivity

/-! The ratio by which mxc_vpu_test/display.c scales a picture down. -/
namespace ImxTest.Vpu
open Lib.While

/-- `1 << i` where `int` has no such bit. -/
inductive RatioFault where
  | shift
deriving DecidableEq, Repr

structure RatioState where
  i : Nat := 1
  tmp : Int
  ratio : Int := 1

/-- A turn of the loop of `calculate_ratio`. -/
def ratioTurn (compare : Int) (s : RatioState) : Except RatioFault (Turn RatioState Int) :=
  if s.tmp > compare then
    if 31 ≤ s.i then .error .shift
    else
      let ratio : Int := 2 ^ s.i
      .ok (.again { i := s.i + 1, tmp := s.tmp.tdiv ratio, ratio })
  else .ok (.leave s.ratio)

/-- The loop makes so many turns at most; `none` when these are too few. -/
def calculateRatio (fuel : Nat) (width height maxwidth maxheight : Int) : Option (Except RatioFault Int) :=
  let tmp := if width ≥ height then width else height
  let compare := if width ≥ height then maxwidth else maxheight
  if width ≤ maxwidth ∧ height ≤ maxheight then some (.ok 1)
  else run (ratioTurn compare) fuel { tmp }

/-- The call ends with this ratio. -/
def RatioIs (width height maxwidth maxheight r : Int) : Prop :=
  ∃ fuel, calculateRatio fuel width height maxwidth maxheight = some (.ok r)

/-- The powers of two that bring the picture within its limits. -/
def fitting (width height maxwidth maxheight : Int) : Set Int :=
  {r | (∃ k : Nat, r = 2 ^ k) ∧ width / r ≤ maxwidth ∧ height / r ≤ maxheight}

/-! ## The loop -/

/-- What the size has been divided by after `k` turns, as a power of two. -/
def divided : (k : Nat) → Nat
  | 0 => 0
  | k + 1 => divided k + (k + 1)

theorem le_divided (k : Nat) : k ≤ divided k := by
  cases k with
  | zero => exact Nat.zero_le _
  | succ k => exact Nat.le_add_left _ _

theorem divided_few {k : Nat} (few : k ≤ 1) : divided k = k := by
  obtain rfl | rfl : k = 0 ∨ k = 1 := by omega
  · rfl
  · rfl

/-- From the second turn on more has been divided than the next ratio says. -/
theorem lt_divided {k : Nat} (more : 2 ≤ k) : k + 1 ≤ divided k := by
  cases k with
  | zero => cases more
  | succ k =>
    have before := le_divided k
    rw [divided]
    omega

/-- The loop after `k` turns. -/
def RatioState.after (size : Int) (k : Nat) : RatioState :=
  { i := k + 1, tmp := size / 2 ^ divided k, ratio := 2 ^ k }

section Loop
variable {size compare : Int} {k : Nat}

theorem ratioTurn_after (pos : 0 ≤ size) (larger : compare < size / 2 ^ divided k) (few : k < 30) :
    ratioTurn compare (.after size k) = .ok (.again (.after size (k + 1))) := by
  have quotient : (size / 2 ^ divided k).tdiv (2 ^ (k + 1)) = size / 2 ^ divided (k + 1) := by
    rw [Int.tdiv_eq_ediv_of_nonneg (Int.ediv_nonneg pos (by positivity)),
      Int.ediv_ediv_of_nonneg (by positivity), ← pow_add, divided]
  unfold ratioTurn RatioState.after
  dsimp only
  rw [if_pos larger, if_neg (by omega), quotient]

/-- The loop leaves with the power of the first turn that is enough. -/
theorem ratioTurn_ends (pos : 0 < size) (small : size < 2 ^ 31) (limit : 0 < compare) :
    ∃ k, Ends (ratioTurn compare) { tmp := size } (.ok (2 ^ k)) ∧ size / 2 ^ divided k ≤ compare ∧
      ∀ j < k, compare < size / 2 ^ divided j := by
  have eight : size / 2 ^ divided 8 ≤ compare := by
    rw [Int.ediv_eq_zero_of_lt (by omega) (small.trans (by decide))]
    omega
  have some : ∃ k, size / 2 ^ divided k ≤ compare := ⟨8, eight⟩
  have few := Nat.find_min' some eight
  have before : ∀ j < Nat.find some, compare < size / 2 ^ divided j :=
    fun j early => Int.lt_of_not_ge (Nat.find_min some early)
  have onward : ∀ k ≤ Nat.find some, Ends (ratioTurn compare) (.after size k) (.ok (2 ^ Nat.find some)) →
      Ends (ratioTurn compare) (.after size 0) (.ok (2 ^ Nat.find some)) := by
    intro k early ended
    induction k with
    | zero => exact ended
    | succ k ih =>
      exact ih (by omega) ((ends_again (ratioTurn_after (by omega) (before k early) (by omega))).mpr ended)
  refine ⟨Nat.find some, ?_, Nat.find_spec some, before⟩
  have start : RatioState.after size 0 = { tmp := size } := by simp [RatioState.after, divided]
  rw [← start]
  refine onward _ le_rfl (ends_leave ?_)
  unfold ratioTurn RatioState.after
  dsimp only
  rw [if_neg (not_lt.mpr (Nat.find_spec some))]

theorem shrinks {j : Nat} (pos : 0 ≤ size) (fewer : j ≤ k) : size / 2 ^ k ≤ size / 2 ^ j := by
  rw [← Nat.add_sub_cancel' fewer, pow_add, ← Int.ediv_ediv_of_nonneg (by positivity)]
  exact Int.ediv_le_self _ (Int.ediv_nonneg pos (by positivity))

end Loop

/-! ## The ratio -/

section Exact
variable {size limit other otherLimit : Int}

/-- The larger size needs two halvings at most, and the other one no more. -/
def FewHalvings (size limit other otherLimit : Int) : Prop :=
  ∃ k ≤ 2, size / 2 ^ k ≤ limit ∧ other / 2 ^ k ≤ otherLimit ∧ ∀ j < k, limit < size / 2 ^ j

/-- The condition on a picture: which of its sizes is the larger one decides which limit counts. -/
def HalvedOnceOrTwice (width height maxwidth maxheight : Int) : Prop :=
  if width ≥ height then FewHalvings width maxwidth height maxheight
  else FewHalvings height maxheight width maxwidth

theorem fitting_pow {k : Nat} : (2 : Int) ^ k ∈ fitting size other limit otherLimit ↔
    size / 2 ^ k ≤ limit ∧ other / 2 ^ k ≤ otherLimit :=
  and_iff_right ⟨k, rfl⟩

theorem fitting_swap : fitting size other limit otherLimit = fitting other size otherLimit limit :=
  Set.ext fun _ => and_congr_right fun _ => and_comm

/-- With a picture that fits there is nothing to divide by. -/
theorem one_least (fits : size ≤ limit ∧ other ≤ otherLimit) :
    IsLeast (fitting size other limit otherLimit) 1 ∧ FewHalvings size limit other otherLimit := by
  refine ⟨⟨(fitting_pow (k := 0)).mpr (by simpa using fits), ?_⟩, 0, Nat.zero_le _, by simpa using fits.1,
    by simpa using fits.2, fun j early => absurd early (Nat.not_lt_zero j)⟩
  rintro r ⟨⟨k, rfl⟩, -⟩
  exact one_le_pow₀ (by decide)

/-- The power the loop leaves with is the least one that fits when two turns are enough. -/
theorem least_iff (pos : 0 ≤ size) {k : Nat} (enough : size / 2 ^ divided k ≤ limit)
    (before : ∀ j < k, limit < size / 2 ^ divided j) :
    IsLeast (fitting size other limit otherLimit) (2 ^ k) ↔ FewHalvings size limit other otherLimit := by
  have needed (j : Nat) (early : j < k) : limit < size / 2 ^ j :=
    (before j early).trans_le (shrinks pos (le_divided j))
  constructor
  · rintro ⟨fits, -⟩
    obtain ⟨sized, otherSized⟩ := fitting_pow.mp fits
    refine ⟨k, ?_, sized, otherSized, needed⟩
    by_contra more
    -- the turn before the last one has already divided by the ratio or more
    have deeper : k ≤ divided (k - 1) := by
      have next := @lt_divided (k - 1) (by omega)
      omega
    exact absurd sized (not_le.mpr ((before (k - 1) (by omega)).trans_le (shrinks pos deeper)))
  · rintro ⟨m, few, sized, otherSized, least⟩
    obtain rfl : k = m := by
      refine Nat.le_antisymm (Nat.le_of_not_lt fun late => ?_) (Nat.le_of_not_lt fun early => ?_)
      · exact absurd sized (not_le.mpr (needed m late))
      · rw [divided_few (by omega)] at enough
        exact absurd enough (not_le.mpr (least k early))
    refine ⟨fitting_pow.mpr ⟨sized, otherSized⟩, ?_⟩
    rintro r ⟨⟨j, rfl⟩, fits, -⟩
    refine pow_le_pow_right₀ (by decide) (Nat.le_of_not_lt fun early => ?_)
    exact absurd fits (not_le.mpr (needed j early))

end Exact

variable {width height maxwidth maxheight : Int}

theorem ratioIs_iff {r : Int} : RatioIs width height maxwidth maxheight r ↔
    if width ≤ maxwidth ∧ height ≤ maxheight then r = 1
    else if width ≥ height then Ends (ratioTurn maxwidth) { tmp := width } (.ok r)
    else Ends (ratioTurn maxheight) { tmp := height } (.ok r) := by
  unfold RatioIs calculateRatio Ends
  dsimp only
  by_cases fits : width ≤ maxwidth ∧ height ≤ maxheight
  · simp only [if_pos fits, Option.some.injEq, Except.ok.injEq, exists_const, eq_comm]
  · rw [if_neg fits]
    simp only [if_neg fits]
    split <;> rfl

theorem RatioIs.unique {r r' : Int} (first : RatioIs width height maxwidth maxheight r)
    (second : RatioIs width height maxwidth maxheight r') : r = r' := by
  rw [ratioIs_iff] at first second
  by_cases fits : width ≤ maxwidth ∧ height ≤ maxheight
  · rw [if_pos fits] at first second
    exact first.trans second.symm
  · rw [if_neg fits] at first second
    split at first
    · rename_i wider
      rw [if_pos wider] at second
      exact Except.ok.inj (first.unique second)
    · rename_i higher
      rw [if_neg higher] at second
      exact Except.ok.inj (first.unique second)

/-- The call ends with a ratio, which is the least power of two that brings both sizes within
their limits exactly where the larger one is halved twice at most and the other no more often. -/
theorem ratioIs_least (wide : 0 < width ∧ width < 2 ^ 31) (high : 0 < height ∧ height < 2 ^ 31)
    (maxwide : 0 < maxwidth) (maxhigh : 0 < maxheight) :
    ∃ r, RatioIs width height maxwidth maxheight r ∧
      (IsLeast (fitting width height maxwidth maxheight) r ↔
        HalvedOnceOrTwice width height maxwidth maxheight) := by
  by_cases fits : width ≤ maxwidth ∧ height ≤ maxheight
  · refine ⟨1, ratioIs_iff.mpr (by rw [if_pos fits]), ?_⟩
    unfold HalvedOnceOrTwice
    split
    · exact iff_of_true (one_least fits).1 (one_least fits).2
    · exact iff_of_true (one_least fits).1 (one_least fits.symm).2
  · by_cases wider : width ≥ height
    · obtain ⟨k, ended, enough, before⟩ := ratioTurn_ends wide.1 wide.2 maxwide
      refine ⟨2 ^ k, ratioIs_iff.mpr (by rwa [if_neg fits, if_pos wider]), ?_⟩
      rw [HalvedOnceOrTwice, if_pos wider]
      exact least_iff wide.1.le enough before
    · obtain ⟨k, ended, enough, before⟩ := ratioTurn_ends high.1 high.2 maxhigh
      refine ⟨2 ^ k, ratioIs_iff.mpr (by rwa [if_neg fits, if_neg wider]), ?_⟩
      rw [HalvedOnceOrTwice, if_neg wider, fitting_swap]
      exact least_iff high.1.le enough before

/-- The call always ends; with the least power of two that brings both sizes within their limits
exactly where the larger one is halved twice at most and the other one no more often. -/
theorem calculateRatio_least_iff (wide : 0 < width ∧ width < 2 ^ 31) (high : 0 < height ∧ height < 2 ^ 31)
    (maxwide : 0 < maxwidth) (maxhigh : 0 < maxheight) :
    (∃ r, RatioIs width height maxwidth maxheight r) ∧
      ∀ r, RatioIs width height maxwidth maxheight r →
        (IsLeast (fitting width height maxwidth maxheight) r ↔
          HalvedOnceOrTwice width height maxwidth maxheight) := by
  obtain ⟨r, ratio, exactly⟩ := ratioIs_least wide high maxwide maxhigh
  refine ⟨⟨r, ratio⟩, fun r' ratio' => ?_⟩
  rwa [ratio'.unique ratio]

theorem calculateRatio_least_four : ∃ r, RatioIs 1920 1080 800 600 r ∧ IsLeast (fitting 1920 1080 800 600) r := by
  obtain ⟨⟨r, ratio⟩, exactly⟩ :=
    @calculateRatio_least_iff 1920 1080 800 600 (by decide) (by decide) (by decide) (by decide)
  have twice : HalvedOnceOrTwice 1920 1080 800 600 := ⟨2, by decide, by decide, by decide, by decide⟩
  exact ⟨r, ratio, (exactly r ratio).mpr twice⟩

/-- 1920 is divided by two and by four: by eight, and the ratio returned is four. -/
theorem calculateRatio_small_display :
    RatioIs 1920 1080 400 240 4 ∧ ¬IsLeast (fitting 1920 1080 400 240) 4 :=
  ⟨⟨3, rfl⟩, fun least => absurd least.1.2.1 (by decide)⟩

end ImxTest.Vpu
