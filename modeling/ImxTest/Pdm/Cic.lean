import ImxTest.Lib.Cascade
import Mathlib.Data.BitVec
import Mathlib.Tactic.FinCases

/-! The filter of mxc_pdm_test/mxc_pdm_cic.c, which makes a sample of each word of 64 bits. -/
namespace ImxTest.Pdm
open Lib.Cascade

/-- `cic_int` and `cic_comb`; sums and differences of `int32_t` are taken in 32 bits. -/
structure Cic where
  cicInt : Fin 4 → BitVec 32
  cicComb : Fin 4 → BitVec 32

/-- As `mxc_alsa_pdm_init` sets them. -/
def cicInit : Cic := { cicInt := fun _ => 0, cicComb := fun _ => 0 }

/-- A turn of the loop of `mxc_pdm_cic`. -/
def integrate (cicInt : Fin 4 → BitVec 32) (data : BitVec 64) : Fin 4 → BitVec 32 :=
  let cicInt := Function.update cicInt 0 (if data &&& 1 ≠ 0 then cicInt 0 + 1 else cicInt 0 - 1)
  let cicInt := Function.update cicInt 1 (cicInt 1 + cicInt 0)
  let cicInt := Function.update cicInt 2 (cicInt 2 + cicInt 1)
  Function.update cicInt 3 (cicInt 3 + cicInt 2)

/-- The loop, from turn `i` on. -/
def integrateBits : (turns : Nat) → (cicInt : Fin 4 → BitVec 32) → (data : BitVec 64) → Fin 4 → BitVec 32
  | 0, cicInt, _ => cicInt
  | turns + 1, cicInt, data => integrateBits turns (integrate cicInt data) (data >>> 1)

def comb (cicComb : Fin 4 → BitVec 32) (sample : BitVec 32) : BitVec 32 × (Fin 4 → BitVec 32) :=
  let tmp1 := cicComb 0
  let cicComb := Function.update cicComb 0 sample
  let tmp0 := sample - tmp1
  let tmp1 := cicComb 1
  let cicComb := Function.update cicComb 1 tmp0
  let tmp0 := tmp0 - tmp1
  let tmp1 := cicComb 2
  let cicComb := Function.update cicComb 2 tmp0
  let tmp0 := tmp0 - tmp1
  let tmp1 := cicComb 3
  let cicComb := Function.update cicComb 3 tmp0
  (tmp0 - tmp1, cicComb)

def mxcPdmCic (cic : Cic) (data : BitVec 64) : BitVec 32 × Cic :=
  let cicInt := integrateBits 64 cic.cicInt data
  let (result, cicComb) := comb cic.cicComb (cicInt 3)
  (result, { cicInt, cicComb })

/-- What the calls for the first `n` words leave behind. -/
def cicAfter (words : Nat → BitVec 64) : (n : Nat) → Cic
  | 0 => cicInit
  | n + 1 => (mxcPdmCic (cicAfter words n) (words n)).2

/-- The result of the call for word `n`. -/
def cicResult (words : Nat → BitVec 64) (n : Nat) : BitVec 32 := (mxcPdmCic (cicAfter words n) (words n)).1

/-- The bits of all words, the least significant one of each word first. -/
def pdmBits (words : Nat → BitVec 64) (t : Nat) : Int := if (words (t / 64)).getLsbD (t % 64) then 1 else -1

/-! ## The integrators -/

section Integrators
variable {x : Nat → BitVec 32} {cicInt : Fin 4 → BitVec 32} {data : BitVec 64} {t turns : Nat}

/-- Each integrator has the running sum of the one before it, over all bits so far. -/
def Integrated (x : Nat → BitVec 32) (t : Nat) (cicInt : Fin 4 → BitVec 32) : Prop :=
  ∀ k : Fin 4, cicInt k = delayed 1 (running^[k + 1] x) t

theorem integrate_first : integrate cicInt data 0 = cicInt 0 + if data &&& 1 ≠ 0 then 1 else -1 := by
  simp only [integrate, Function.update_apply, Fin.reduceEq, if_false, if_true]
  split
  · rfl
  · exact sub_eq_add_neg _ _

theorem integrate_next (k : Fin 3) : integrate cicInt data k.succ = cicInt k.succ + integrate cicInt data k.castSucc := by
  fin_cases k <;> simp [integrate]

theorem integrate_one (integrated : Integrated x t cicInt) (bit : x t = if data &&& 1 ≠ 0 then 1 else -1) :
    Integrated x (t + 1) (integrate cicInt data) := by
  have next (k : Fin 4) : integrate cicInt data k = running^[k + 1] x t := by
    induction k using Fin.induction with
    | zero =>
      have before : cicInt 0 = delayed 1 (running x) t := integrated 0
      rw [integrate_first, ← bit, before]
      exact running_eq.symm
    | succ k ih =>
      rw [integrate_next, ih, integrated, Fin.val_succ, Function.iterate_succ_apply' _ (k + 1)]
      exact running_eq.symm
  exact fun k => (next k).trans delayed_one_succ.symm

theorem integrateBits_all (integrated : Integrated x t cicInt)
    (bits : ∀ i < turns, x (t + i) = if data.getLsbD i then 1 else -1) :
    Integrated x (t + turns) (integrateBits turns cicInt data) := by
  induction turns generalizing t cicInt data with
  | zero => exact integrated
  | succ turns ih =>
    have first : x t = if data &&& 1 ≠ 0 then 1 else -1 := by
      have lowest : data &&& 1 ≠ 0 ↔ data.getLsbD 0 := by
        rw [show (1 : BitVec 64) = 1#64 from rfl, BitVec.and_one_eq_setWidth_ofBool_getLsbD]
        cases data.getLsbD 0 <;> decide
      rw [← Nat.add_zero t, bits 0 (Nat.succ_pos _)]
      exact if_congr lowest.symm rfl rfl
    rw [integrateBits, ← Nat.add_assoc, Nat.add_right_comm]
    refine ih (integrate_one integrated first) fun i early => ?_
    rw [BitVec.getLsbD_ushiftRight, Nat.add_assoc]
    exact bits (1 + i) (by omega)

end Integrators

/-! ## The combs -/

section Combs
variable {u : Nat → BitVec 32} {cicComb : Fin 4 → BitVec 32} {n : Nat}

/-- Each comb has the last difference of the one before it. -/
def Combed (u : Nat → BitVec 32) (n : Nat) (cicComb : Fin 4 → BitVec 32) : Prop :=
  ∀ k : Fin 4, cicComb k = delayed 1 ((difference 1)^[k] u) n

theorem comb_one (combed : Combed u n cicComb) : (comb cicComb (u n)).1 = (difference 1)^[4] u n ∧
    Combed u (n + 1) (comb cicComb (u n)).2 := by
  have next (k : Nat) : (difference 1)^[k] u n - delayed 1 ((difference 1)^[k] u) n = (difference 1)^[k + 1] u n := by
    rw [Function.iterate_succ_apply']
    rfl
  have first : u n - cicComb 0 = (difference 1)^[1] u n := combed 0 ▸ next 0
  have second : (difference 1)^[1] u n - cicComb 1 = (difference 1)^[2] u n := combed 1 ▸ next 1
  have third : (difference 1)^[2] u n - cicComb 2 = (difference 1)^[3] u n := combed 2 ▸ next 2
  have fourth : (difference 1)^[3] u n - cicComb 3 = (difference 1)^[4] u n := combed 3 ▸ next 3
  simp only [comb, Function.update_apply, Fin.reduceEq, if_false, first, second, third, fourth]
  refine ⟨trivial, fun k => ?_⟩
  rw [delayed_one_succ]
  fin_cases k <;> rfl

end Combs

/-! ## The filter -/

variable (words : Nat → BitVec 64) (n : Nat)

/-- The bits as the integrators add them. -/
def addedBits : Nat → BitVec 32 := fun t => (pdmBits words t : BitVec 32)

theorem integrateBits_word {cicInt : Fin 4 → BitVec 32} (integrated : Integrated (addedBits words) (64 * n) cicInt) :
    Integrated (addedBits words) (64 * (n + 1)) (integrateBits 64 cicInt (words n)) := by
  refine @integrateBits_all _ _ _ (64 * n) 64 integrated fun i inside => ?_
  have word : (64 * n + i) / 64 = n := by omega
  have bit : (64 * n + i) % 64 = i := by omega
  rw [addedBits, pdmBits, word, bit]
  split <;> rfl

theorem integrateBits_last {cicInt : Fin 4 → BitVec 32} (integrated : Integrated (addedBits words) (64 * n) cicInt) :
    integrateBits 64 cicInt (words n) 3 = sampled 64 (running^[4] (addedBits words)) n :=
  (integrateBits_word words n integrated 3).trans delayed_one_succ

theorem cicAfter_spec : Integrated (addedBits words) (64 * n) (cicAfter words n).cicInt ∧
    Combed (sampled 64 (running^[4] (addedBits words))) n (cicAfter words n).cicComb := by
  induction n with
  | zero => exact ⟨fun _ => rfl, fun _ => rfl⟩
  | succ n ih =>
    obtain ⟨integrated, combed⟩ := ih
    refine ⟨integrateBits_word words n integrated, ?_⟩
    rw [cicAfter, mxcPdmCic, integrateBits_last words n integrated]
    exact (comb_one combed).2

/-- What comes out of the last comb. -/
theorem cicResult_eq : cicResult words n = (moving 64)^[4] (addedBits words) (64 * n + 63) := by
  obtain ⟨integrated, combed⟩ := cicAfter_spec words n
  rw [cicResult, mxcPdmCic, integrateBits_last words n integrated]
  exact (comb_one combed).1.trans (congrFun (cascade_eq (by decide) 4) n)

/-- The result of each call is the fourth-order moving sum of the bits, as a number, at the last
bit of the word. -/
theorem mxcPdmCic_exact : (cicResult words n).toInt = (moving 64)^[4] (pdmBits words) (64 * n + 63) ∧
    |(cicResult words n).toInt| ≤ 2 ^ 24 := by
  have bound : |(moving 64)^[4] (pdmBits words) (64 * n + 63)| ≤ 2 ^ 24 := by
    have bits (t : Nat) : |pdmBits words t| ≤ 1 := by
      unfold pdmBits
      split <;> decide
    simpa using moving_iterate_bound (L := 64) bits 4 (64 * n + 63)
  have same : cicResult words n = BitVec.ofInt 32 ((moving 64)^[4] (pdmBits words) (64 * n + 63)) := by
    rw [cicResult_eq]
    exact congrFun (moving_iterate_map (Int.castAddHom (BitVec 32)) 4) (64 * n + 63)
  have exact_ : (cicResult words n).toInt = (moving 64)^[4] (pdmBits words) (64 * n + 63) := by
    obtain ⟨low, high⟩ := abs_le.mp bound
    rw [same, BitVec.toInt_ofInt_eq_self (by decide) (by omega) (by omega)]
  exact ⟨exact_, exact_ ▸ bound⟩

end ImxTest.Pdm
