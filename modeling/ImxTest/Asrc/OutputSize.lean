import ImxTest.Asrc.Wav
import ImxTest.Lib.Expansion
import ImxTest.Lib.Words
import Mathlib.Analysis.SpecialFunctions.Log.Base

/-! The size of the output for a size of the input, by the binary digits of the ratio of the rates. -/
namespace ImxTest.Asrc

open Lib While Words Expansion

/-! ## The function -/

/-- A turn of the loop that counts how often the input rate is in the output rate. -/
def wholeTurn (inputSampleRate : Int) (s : Int × Int) : Except Fault (Turn (Int × Int) (Int × Int)) :=
  let (i, outsample) := s
  if outsample ≥ inputSampleRate then .ok (.again (int (i + 1), int (outsample - inputSampleRate)))
  else .ok (.leave (i, outsample))

structure Halving where
  i : Nat
  outsample : Int
  outbufferSize : Int

/-- A turn of the loop over the halves of the input. -/
def halfTurn (inputBufferSize inputSampleRate : Int) (s : Halving) : Except Fault (Turn Halving Int) :=
  if inputBufferSize >>> s.i > 2 ∧ s.outsample ≠ 0 then
    if int (int (s.outsample * 2) - inputSampleRate) ≥ 0 then
      .ok (.again ⟨s.i + 1, int (int (s.outsample * 2) - inputSampleRate),
        int (s.outbufferSize + inputBufferSize >>> s.i)⟩)
    else .ok (.again ⟨s.i + 1, int (s.outsample * 2), s.outbufferSize⟩)
  else .ok (.leave s.outbufferSize)

/-- Behind the loops. -/
def inWords (outbufferSize inWordSize outWordSize : Int) : Except Fault Int :=
  let outbufferSize := int ((outbufferSize >>> (3 : Nat)) * 2 ^ 3)
  if inWordSize = 0 then .error .divisionByZero
  else .ok (int (Int.tdiv (int (outbufferSize * outWordSize)) inWordSize))

/-- `width` is the physical width of a format in bits. -/
def asrcGetOutputBufferSize {F : Type} (width : F → Int) (inputBufferSize inputSampleRate outputSampleRate : Int)
    (inputFormat outputFormat : F) (fuel : Nat) : ExceptT Fault Option Int := do
  let (i, outsample) ← loop (wholeTurn inputSampleRate) fuel (0, outputSampleRate)
  let outbufferSize ← loop (halfTurn inputBufferSize inputSampleRate) fuel
    ⟨1, outsample, int (i * inputBufferSize)⟩
  ExceptT.mk (some (inWords outbufferSize (Int.tdiv (width inputFormat) 8) (Int.tdiv (width outputFormat) 8)))

/-! ## The loops -/

section Loops
variable {rate size num : Nat}

theorem whole_ends (pos : 0 < rate) (i num : Nat) (small : i + num < 2 ^ 31) :
    Ends (wholeTurn rate) (i, num) (.ok ((i + num / rate : Nat), (num % rate : Nat))) := by
  induction num using Nat.strongRecOn generalizing i with
  | ind num ih =>
    by_cases le : rate ≤ num
    · have turn : wholeTurn rate (i, num) = .ok (.again ((i + 1 : Nat), (num - rate : Nat))) := by
        unfold wholeTurn
        have first : int ((i : Int) + 1) = (i + 1 : Nat) := int_natCast (n := i + 1) (by omega)
        have second : int ((num : Int) - rate) = (num - rate : Nat) := by
          rw [← Nat.cast_sub le]
          exact int_natCast (by omega)
        simp only [ge_iff_le, Nat.cast_le, le, if_true, first, second]
      have next := ih (num - rate) (by omega) (i + 1) (by omega)
      rw [ends_again turn, Nat.div_eq_sub_div pos le, Nat.mod_eq_sub_mod le, Nat.add_comm (_ / _), ← Nat.add_assoc]
      exact next
    · have turn : wholeTurn rate (i, num) = .ok (.leave (i, num)) := by
        unfold wholeTurn
        simp only [ge_iff_le, Nat.cast_le, le, if_false]
      rw [Nat.div_eq_of_lt (by omega), Nat.mod_eq_of_lt (by omega)]
      exact ends_leave turn

theorem shiftRight_natCast (n k : Nat) : (n : Int) >>> k = (n / 2 ^ k : Nat) := by
  rw [Int.shiftRight_eq_div_pow]
  norm_cast

variable (num) in
theorem half_ends (pos : 0 < rate) (rate_lt : rate < 2 ^ 30) {k : Nat} (le : k ≤ halves size) :
    Ends (halfTurn size rate) ⟨k + 1, rest num rate k, int (upTo num rate size k)⟩ (.ok (int (sum num rate size))) := by
  obtain ⟨d, last⟩ := Nat.exists_eq_add_of_le le
  induction d generalizing k with
  | zero =>
    have ended : ¬ 2 < size / 2 ^ (k + 1) := fun more => by
      have := (le_halves_iff (Nat.succ_pos k)).mpr more
      omega
    have turn : halfTurn size rate ⟨k + 1, rest num rate k, int (upTo num rate size k)⟩ =
        .ok (.leave (int (upTo num rate size k))) := by
      refine if_neg fun again => ended ?_
      have more := again.1
      rw [shiftRight_natCast] at more
      exact_mod_cast more
    have same : halves size = k := last
    rw [Expansion.sum, same]
    exact ends_leave turn
  | succ d ih =>
    have more : 2 < size / 2 ^ (k + 1) := (le_halves_iff (Nat.succ_pos k)).mp (by omega)
    by_cases nothing : rest num rate k = 0
    · have turn : halfTurn size rate ⟨k + 1, rest num rate k, int (upTo num rate size k)⟩ =
          .ok (.leave (int (upTo num rate size k))) := if_neg fun again => again.2 (by rw [nothing]; rfl)
      rw [Expansion.sum, (upTo_of_rest_zero pos nothing le).1]
      exact ends_leave turn
    · have again : (size : Int) >>> (k + 1) > 2 ∧ (rest num rate k : Int) ≠ 0 := by
        rw [shiftRight_natCast]
        exact ⟨by exact_mod_cast more, by exact_mod_cast nothing⟩
      have left := rest_lt num pos k
      have double := double_rest num pos k
      have twice : int ((rest num rate k : Int) * 2) = (2 * rest num rate k : Nat) := by
        rw [Nat.cast_mul, Int.mul_comm]
        exact int_natCast (n := 2 * rest num rate k) (by omega)
      have less : int ((2 * rest num rate k : Nat) - rate) = ((2 * rest num rate k : Nat) : Int) - rate :=
        int_eq (by omega) (by omega)
      have next := ih (k := k + 1) (by omega) (by omega)
      have turn : halfTurn size rate ⟨k + 1, rest num rate k, int (upTo num rate size k)⟩ =
          .ok (.again ⟨k + 1 + 1, rest num rate (k + 1), int (upTo num rate size (k + 1))⟩) := by
        unfold halfTurn
        simp only [twice, less]
        rw [if_pos again]
        by_cases large : rate ≤ 2 * rest num rate k
        · have one := digit_of_le pos large
          rw [one, Nat.one_mul] at double
          have difference : ((2 * rest num rate k : Nat) : Int) - rate = rest num rate (k + 1) := by omega
          rw [if_pos (by omega), difference, int_int_add, shiftRight_natCast, upTo_succ, one, Nat.one_mul]
          norm_cast
        · have zero := digit_of_lt pos (Nat.not_le.mp large)
          rw [zero, Nat.zero_mul, Nat.zero_add] at double
          have same : upTo num rate size (k + 1) = upTo num rate size k := by
            rw [upTo_succ, zero, Nat.zero_mul, Nat.add_zero]
          rw [if_neg (by omega), double, same]
      exact (ends_again turn).mpr next

end Loops

/-! ## The result -/

section Result
variable {F : Type} {width : F → Int} {inputFormat outputFormat : F} {size rate num : Nat}

/-- The size in words of the input, in whole blocks of 8. -/
def blocks (size rate num : Nat) : Nat := sum num rate size / 8 * 8

theorem int_blocks (n : Nat) : int ((int n >>> (3 : Nat)) * 2 ^ 3) = int (n / 8 * 8 : Nat) := by
  obtain ⟨k, same⟩ := exists_int n
  rw [Int.shiftRight_eq_div_pow, same]
  refine int_congr (k := k) ?_
  push_cast
  omega

/-- With what is behind the loops. -/
theorem settles_asrcGetOutputBufferSize (pos : 0 < rate) (rate_lt : rate < 2 ^ 30) (num_lt : num < 2 ^ 30)
    (words : Int.tdiv (width inputFormat) 8 ≠ 0) {v : Except Fault Int} :
    Settles (asrcGetOutputBufferSize width size rate num inputFormat outputFormat) v ↔
      v = .ok (int (Int.tdiv (int ((blocks size rate num : Nat) * Int.tdiv (width outputFormat) 8))
        (Int.tdiv (width inputFormat) 8))) := by
  have whole := whole_ends pos 0 num (by omega)
  have start : int (((0 + num / rate : Nat) : Int) * size) = int (upTo num rate size 0) := by
    rw [Nat.zero_add, upTo_zero, Nat.cast_mul]
  have half := half_ends num pos rate_lt (Nat.zero_le (halves size))
  rw [rest_zero] at half
  have inside (s : Int × Int) : Steady fun fuel =>
      loop (halfTurn size rate) fuel ⟨1, s.2, int (s.1 * size)⟩ >>= fun outbufferSize =>
        ExceptT.mk (some (inWords outbufferSize (Int.tdiv (width inputFormat) 8) (Int.tdiv (width outputFormat) 8))) :=
    steady_loop fun r => steady_const _
  refine (settles_ended inside whole).trans ?_
  simp only [start]
  refine (settles_ended (fun r => steady_const (ExceptT.mk (some (inWords r (Int.tdiv (width inputFormat) 8)
    (Int.tdiv (width outputFormat) 8))))) half).trans ?_
  have last : inWords (int (sum num rate size)) (Int.tdiv (width inputFormat) 8) (Int.tdiv (width outputFormat) 8) =
      .ok (int (Int.tdiv (int ((blocks size rate num : Nat) * Int.tdiv (width outputFormat) 8))
        (Int.tdiv (width inputFormat) 8))) := by
    unfold inWords
    simp only [int_blocks, if_neg words]
    rw [blocks, int_int_mul]
  rw [last]
  constructor
  · rintro ⟨fuel, same⟩
    exact (Option.some.inj same).symm
  · rintro rfl
    exact ⟨0, rfl⟩

end Result

/-! ## How close it comes -/

/-- A call with rates and word sizes as the test has them. -/
structure Conversion {F : Type} (width : F → Int) where
  inputFormat : F
  outputFormat : F
  inputSampleRate : Nat
  outputSampleRate : Nat
  inputBufferSize : Nat
  inWordSize : Nat
  outWordSize : Nat
  inputSampleRate_pos : 0 < inputSampleRate
  inputSampleRate_lt : inputSampleRate < 2 ^ 30
  outputSampleRate_pos : 0 < outputSampleRate
  outputSampleRate_lt : outputSampleRate < 2 ^ 30
  inputBufferSize_pos : 0 < inputBufferSize
  inputBufferSize_lt : inputBufferSize < 2 ^ 31
  inWordSize_eq : Int.tdiv (width inputFormat) 8 = inWordSize
  outWordSize_eq : Int.tdiv (width outputFormat) 8 = outWordSize
  inWordSize_range : 1 ≤ inWordSize ∧ inWordSize ≤ 4
  outWordSize_range : 1 ≤ outWordSize ∧ outWordSize ≤ 4

namespace Conversion
variable {F : Type} {width : F → Int} (c : Conversion width)

/-- The size without any rounding. -/
noncomputable def exact : ℝ :=
  c.inputBufferSize * (c.outputSampleRate / c.inputSampleRate) * (c.outWordSize / c.inWordSize)

/-- The function comes back, and where the exact size is an int its result is not above it and not
far below. -/
def Close : Prop := ∃ r : Int,
  Settles (asrcGetOutputBufferSize width c.inputBufferSize c.inputSampleRate c.outputSampleRate c.inputFormat
    c.outputFormat) (.ok r) ∧
  (c.exact < 2 ^ 31 → (r : ℝ) ≤ c.exact ∧
    c.exact - r < (Real.logb 2 c.inputBufferSize + 16) * (c.outWordSize / c.inWordSize) + 1)

/-- The digits of the ratio with the halves of the size, in whole blocks of 8, in bytes of the output. -/
def product : Nat := blocks c.inputBufferSize c.inputSampleRate c.outputSampleRate * c.outWordSize

theorem settles_iff {v : Except Fault Int} :
    Settles (asrcGetOutputBufferSize width c.inputBufferSize c.inputSampleRate c.outputSampleRate c.inputFormat
      c.outputFormat) v ↔ v = .ok (int (Int.tdiv (int c.product) c.inWordSize)) := by
  have words : Int.tdiv (width c.inputFormat) 8 ≠ 0 := by
    have range := c.inWordSize_range
    rw [c.inWordSize_eq]
    omega
  refine (settles_asrcGetOutputBufferSize c.inputSampleRate_pos c.inputSampleRate_lt c.outputSampleRate_lt words).trans ?_
  rw [c.inWordSize_eq, c.outWordSize_eq, ← Nat.cast_mul]
  rfl

/-- The size in words of the input without any rounding. -/
noncomputable def words : ℝ := c.inputBufferSize * (c.outputSampleRate / c.inputSampleRate)

theorem words_bounds : (blocks c.inputBufferSize c.inputSampleRate c.outputSampleRate : ℝ) ≤ c.words ∧
    c.words < blocks c.inputBufferSize c.inputSampleRate c.outputSampleRate + Real.logb 2 c.inputBufferSize + 13 := by
  have low := sum_le c.outputSampleRate c.inputBufferSize c.inputSampleRate_pos
  have high := lt_sum c.outputSampleRate c.inputSampleRate_pos c.inputBufferSize_pos
  have rate_pos : (0 : ℝ) < c.inputSampleRate := by exact_mod_cast c.inputSampleRate_pos
  have log_le := Real.natLog_le_logb c.inputBufferSize 2
  have words_eq : c.words = (c.inputBufferSize * c.outputSampleRate : Nat) / c.inputSampleRate := by
    unfold words
    push_cast
    ring
  generalize sum_eq : sum c.outputSampleRate c.inputSampleRate c.inputBufferSize = total at low high
  have rounded : blocks c.inputBufferSize c.inputSampleRate c.outputSampleRate = total / 8 * 8 := by
    rw [blocks, sum_eq]
  have below : total / 8 * 8 ≤ total := Nat.div_mul_le_self total 8
  have above : total ≤ total / 8 * 8 + 7 := by omega
  rw [rounded, words_eq]
  constructor
  · rw [le_div_iff₀ rate_pos]
    have le : total / 8 * 8 * c.inputSampleRate ≤ c.inputBufferSize * c.outputSampleRate :=
      (Nat.mul_le_mul_right _ below).trans (by rw [Nat.mul_comm]; exact low)
    exact_mod_cast le
  · rw [div_lt_iff₀ rate_pos]
    have lt : ((c.inputBufferSize * c.outputSampleRate : Nat) : ℝ) <
        (c.inputSampleRate * (total + Nat.log 2 c.inputBufferSize + 6) : Nat) := by exact_mod_cast high
    have above : (total : ℝ) ≤ (total / 8 * 8 : Nat) + 7 := by exact_mod_cast above
    push_cast at lt above log_le ⊢
    nlinarith

/-- A word divided by a size of one to four bytes. -/
theorem int_tdiv {w : Int} {n : Nat} (range : 1 ≤ n ∧ n ≤ 4) (low : -2 ^ 31 ≤ w) (high : w < 2 ^ 31) :
    int (Int.tdiv w n) = Int.tdiv w n ∧ Int.tdiv w n * n < w + n := by
  have above := Int.tdiv_mul_le w (b := n) (by omega)
  have below := Int.lt_tdiv_add_one_mul_self w (b := n) (by omega)
  have upper : Int.tdiv w n * n < w + n := by
    split_ifs at above <;> omega
  refine ⟨?_, upper⟩
  obtain ⟨one_le, le_four⟩ := range
  generalize Int.tdiv w n = quotient at below upper
  apply int_eq
  · interval_cases n <;> push_cast at below <;> omega
  · interval_cases n <;> push_cast at upper <;> omega

theorem exact_eq : c.exact = c.words * (c.outWordSize / c.inWordSize) := rfl

theorem wordSize_pos : (0 : ℝ) < c.inWordSize ∧ (0 : ℝ) < c.outWordSize := by
  have first := c.inWordSize_range
  have second := c.outWordSize_range
  constructor
  · exact_mod_cast (by omega : 0 < c.inWordSize)
  · exact_mod_cast (by omega : 0 < c.outWordSize)

theorem log_bounds : 0 ≤ Real.logb 2 c.inputBufferSize ∧ Real.logb 2 c.inputBufferSize ≤ 31 := by
  have one_le : (1 : ℝ) ≤ c.inputBufferSize := by exact_mod_cast c.inputBufferSize_pos
  have le : (c.inputBufferSize : ℝ) ≤ 2 ^ (31 : ℝ) := by
    have small : (c.inputBufferSize : ℝ) ≤ ((2 ^ 31 : Nat) : ℝ) := by exact_mod_cast c.inputBufferSize_lt.le
    refine small.trans_eq ?_
    norm_num
  exact ⟨Real.logb_nonneg (by norm_num) one_le, (Real.logb_le_iff_le_rpow (by norm_num) (by linarith)).mpr le⟩

/-- The product in input bytes, and the exact size. -/
theorem product_bounds : (c.product : ℝ) ≤ c.exact * c.inWordSize ∧
    c.exact * c.inWordSize < c.product + (Real.logb 2 c.inputBufferSize + 13) * c.outWordSize := by
  obtain ⟨in_pos, out_pos⟩ := c.wordSize_pos
  obtain ⟨low, high⟩ := c.words_bounds
  have exact_mul : c.exact * c.inWordSize = c.words * c.outWordSize := by
    rw [exact_eq]
    field_simp
  rw [exact_mul, product]
  push_cast
  constructor
  · exact mul_le_mul_of_nonneg_right low out_pos.le
  · nlinarith

/-- Without an overflow of the product. -/
theorem close_of_fits (fits : c.product < 2 ^ 31) : c.Close := by
  obtain ⟨in_pos, out_pos⟩ := c.wordSize_pos
  obtain ⟨low, high⟩ := c.product_bounds
  have log_nonneg := c.log_bounds.1
  have words := c.inWordSize_range
  have quotient_le := Nat.div_le_self c.product c.inWordSize
  have result : int (Int.tdiv (int c.product) c.inWordSize) = (c.product / c.inWordSize : Nat) := by
    rw [int_natCast fits, ← Int.ofNat_tdiv]
    exact int_natCast (by omega)
  refine ⟨_, c.settles_iff.mpr (congrArg Except.ok result.symm), fun _ => ?_⟩
  have parts : (c.inWordSize : ℝ) * (c.product / c.inWordSize : Nat) + (c.product % c.inWordSize : Nat) = c.product := by
    exact_mod_cast Nat.div_add_mod c.product c.inWordSize
  have cut : ((c.product % c.inWordSize : Nat) : ℝ) < c.inWordSize := by
    exact_mod_cast Nat.mod_lt c.product (by omega)
  have cut_nonneg : (0 : ℝ) ≤ (c.product % c.inWordSize : Nat) := Nat.cast_nonneg _
  rw [Int.cast_natCast]
  constructor
  · refine le_of_mul_le_mul_right ?_ in_pos
    linarith
  · refine lt_of_mul_lt_mul_right (a := (c.inWordSize : ℝ)) ?_ in_pos.le
    have bound : ((Real.logb 2 c.inputBufferSize + 16) * (c.outWordSize / c.inWordSize) + 1) * c.inWordSize =
        (Real.logb 2 c.inputBufferSize + 16) * c.outWordSize + c.inWordSize := by
      field_simp
    rw [bound]
    nlinarith

/-- Behind an overflow of the product the result is too small by far. -/
theorem fits_of_close (close : c.Close) (int_ : c.exact < 2 ^ 31) : c.product < 2 ^ 31 := by
  by_contra large
  obtain ⟨r, settles, near⟩ := close
  obtain rfl := Except.ok.inj (c.settles_iff.mp settles)
  obtain ⟨-, near⟩ := near int_
  obtain ⟨in_pos, out_pos⟩ := c.wordSize_pos
  obtain ⟨low, -⟩ := c.product_bounds
  obtain ⟨log_nonneg, log_le⟩ := c.log_bounds
  obtain ⟨in_le, out_le⟩ : c.inWordSize ≤ 4 ∧ c.outWordSize ≤ 4 := ⟨c.inWordSize_range.2, c.outWordSize_range.2⟩
  have words := c.inWordSize_range
  obtain ⟨turns, wrapped⟩ := exists_int c.product
  have inside := int_bounds c.product
  generalize int (c.product : Int) = w at *
  have wrapped_le : w + 2 ^ 32 ≤ c.product := by omega
  obtain ⟨kept, quotient_lt⟩ := int_tdiv words inside.1 inside.2
  rw [kept] at near
  generalize Int.tdiv w c.inWordSize = quotient at near quotient_lt
  have far : (quotient : ℝ) * c.inWordSize + 2 ^ 32 < c.exact * c.inWordSize + c.inWordSize := by
    have lt : (quotient : ℝ) * c.inWordSize < w + c.inWordSize := by exact_mod_cast quotient_lt
    have le : (w : ℝ) + 2 ^ 32 ≤ c.product := by exact_mod_cast wrapped_le
    linarith
  have near_mul : (c.exact - quotient) * c.inWordSize <
      (Real.logb 2 c.inputBufferSize + 16) * c.outWordSize + c.inWordSize := by
    refine (mul_lt_mul_of_pos_right near in_pos).trans_eq ?_
    field_simp
  have in_four : (c.inWordSize : ℝ) ≤ 4 := by exact_mod_cast in_le
  have out_four : (c.outWordSize : ℝ) ≤ 4 := by exact_mod_cast out_le
  have slack : (Real.logb 2 c.inputBufferSize + 16) * c.outWordSize ≤ 47 * 4 := by
    gcongr
    linarith
  linarith

end Conversion

/-- The result is close to the exact size unless that is an int and the product before the last
division is not. -/
theorem close_iff {F : Type} {width : F → Int} (c : Conversion width) :
    c.Close ↔ (c.exact < 2 ^ 31 → c.product < 2 ^ 31) := by
  constructor
  · exact c.fits_of_close
  · intro fits
    by_cases small : c.product < 2 ^ 31
    · exact c.close_of_fits small
    · exact ⟨_, c.settles_iff.mpr rfl, fun int_ => absurd (fits int_) small⟩

/-- Samples of 16 bits at one rate, 2 ^ 30 bytes of them. -/
def sameRate : Conversion (id : Int → Int) where
  inputFormat := 16
  outputFormat := 16
  inputSampleRate := 48000
  outputSampleRate := 48000
  inputBufferSize := 2 ^ 30
  inWordSize := 2
  outWordSize := 2
  inputSampleRate_pos := by decide
  inputSampleRate_lt := by decide
  outputSampleRate_pos := by decide
  outputSampleRate_lt := by decide
  inputBufferSize_pos := by decide
  inputBufferSize_lt := by decide
  inWordSize_eq := by decide
  outWordSize_eq := by decide
  inWordSize_range := by decide
  outWordSize_range := by decide

/-- There the product is 2 ^ 31. -/
theorem not_close_sameRate : ¬ sameRate.Close := by
  intro close
  have int_ : sameRate.exact < 2 ^ 31 := by
    simp only [Conversion.exact, sameRate]
    norm_num
  have whole : upTo 48000 48000 (2 ^ 30) (halves (2 ^ 30)) = 2 ^ 30 := by
    rw [(upTo_of_rest_zero (by decide) (n := 0) (by decide) (Nat.zero_le _)).1, upTo_zero]
    decide
  have product : sameRate.product = 2 ^ 31 := by
    change upTo 48000 48000 (2 ^ 30) (halves (2 ^ 30)) / 8 * 8 * 2 = 2 ^ 31
    rw [whole]
    decide
  have fits := sameRate.fits_of_close close int_
  omega

end ImxTest.Asrc
