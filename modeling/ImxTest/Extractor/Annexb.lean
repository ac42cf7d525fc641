import ImxTest.Lib.BitString
import ImxTest.Lib.Copy
import ImxTest.Lib.While
import Mathlib.Algebra.Order.Ring.Int

/-! The samples of an MP4 file that media_extractor.c turns into Annex B frames, in the
plane that they lie in: NAL units behind their lengths become NAL units behind start
codes. A place is a number of bytes from the start of the plane. -/
namespace ImxTest.Extractor
open Lib.BitString Lib.Copy Lib.While

abbrev Bytes := Nat → UInt8

/-- A value of `uint32_t`. -/
def u32 (n : Nat) : Nat := n % 2 ^ 32

/-- The loop goes through the bytes from the first one on. -/
def pitcherBytestreamGetBe (mem : Bytes) (bs : Nat) : (bytes : Nat) → Nat
  | 0 => 0
  | bytes + 1 => u32 (pitcherBytestreamGetBe mem bs bytes <<< 8) ||| (mem (bs + bytes)).toNat

/-- And this one from the last one back. -/
def pitcherBytestreamSetBe (bs : Nat) : (bytes val : Nat) → Bytes → Bytes
  | 0, _, mem => mem
  | bytes + 1, val, mem =>
    pitcherBytestreamSetBe bs bytes (val >>> 8) (Function.update mem (bs + bytes) (val &&& 0xff).toUInt8)

/-- A byte outside the data is read or written. -/
inductive Fault where
  | outside
deriving DecidableEq, Repr

/-- Where the loop of `mme_mp4_to_annexb_frame` is. -/
structure Walk where
  mem : Bytes
  pdata : Nat
  consumed : Nat

/-- A turn of it. -/
def annexbTurn (lengthSize bytesused : Nat) (s : Walk) : Except Fault (Turn Walk Bytes) :=
  if s.consumed < bytesused then
    if s.pdata + lengthSize ≤ bytesused then
      let length := pitcherBytestreamGetBe s.mem s.pdata lengthSize
      .ok (.again
        { mem := pitcherBytestreamSetBe s.pdata lengthSize 1 s.mem
          pdata := s.pdata + u32 (lengthSize + length)
          consumed := u32 (s.consumed + u32 (lengthSize + length)) })
    else .error .outside
  else .ok (.leave s.mem)

/-- How `mme_mp4_to_annexb_frame` ends. -/
def MmeMp4ToAnnexbFrame (lengthSize bytesused : Nat) (mem : Bytes) (outcome : Except Fault Bytes) : Prop :=
  Ends (annexbTurn lengthSize bytesused) { mem, pdata := 0, consumed := 0 } outcome

/-! ## Numbers in the data -/

section Numbers
variable {mem : Bytes} {bs bytes val a : Nat}

theorem u32_small {n : Nat} (small : n < 2 ^ 32) : u32 n = n := Nat.mod_eq_of_lt small

theorem getBe_word (fits : bytes ≤ 4) : pitcherBytestreamGetBe mem bs bytes = word (span mem bs bytes) := by
  induction bytes with
  | zero => rfl
  | succ bytes ih =>
    have small := word_lt (span mem bs bytes)
    have upTo : 2 ^ (8 * bytes) ≤ 2 ^ 24 := Nat.pow_le_pow_right (by decide) (by omega)
    have last : span mem bs (bytes + 1) = span mem bs bytes ++ [mem (bs + bytes)] := span_append
    rw [span_length] at small
    rw [pitcherBytestreamGetBe, ih (by omega), last, word_concat, Nat.shiftLeft_eq, u32_small (by omega),
      ← Nat.shiftLeft_eq]
    exact (Nat.shiftLeft_add_eq_or_of_lt (UInt8.toNat_lt _) _).symm

theorem setBe_outside (out : a < bs ∨ bs + bytes ≤ a) : pitcherBytestreamSetBe bs bytes val mem a = mem a := by
  induction bytes generalizing val mem with
  | zero => rfl
  | succ bytes ih =>
    rw [pitcherBytestreamSetBe, ih (by omega), Function.update_of_ne (by omega)]

theorem span_setBe : span (pitcherBytestreamSetBe bs bytes val mem) bs bytes = bytesOf bytes val := by
  induction bytes generalizing val mem with
  | zero => rfl
  | succ bytes ih =>
    have last : (val &&& 0xff).toUInt8 = val.toUInt8 := by
      apply UInt8.toNat_inj.mp
      show (val &&& (2 ^ 8 - 1)) % 2 ^ 8 = val % 2 ^ 8
      rw [Nat.and_two_pow_sub_one_eq_mod, Nat.mod_mod]
    rw [pitcherBytestreamSetBe, bytesOf, span_append, ih, Nat.shiftRight_eq_div_pow]
    congr 1
    show [pitcherBytestreamSetBe bs bytes (val / 2 ^ 8) _ (bs + bytes)] = [val.toUInt8]
    rw [setBe_outside (by omega), Function.update_self, last]

end Numbers

/-! ## NAL units -/

/-- Each unit behind its length. -/
def lengthPrefixed (lengthSize : Nat) (nals : List (List UInt8)) : List UInt8 :=
  nals.flatMap fun nal => bytesOf lengthSize nal.length ++ nal

/-- Each unit behind a start code. -/
def startCoded (lengthSize : Nat) (nals : List (List UInt8)) : List UInt8 :=
  nals.flatMap fun nal => bytesOf lengthSize 1 ++ nal

section Units
variable {lengthSize bytesused p : Nat} {nals : List (List UInt8)} {mem : Bytes}

theorem lengthPrefixed_cons {nal : List UInt8} :
    lengthPrefixed lengthSize (nal :: nals) = bytesOf lengthSize nal.length ++ (nal ++ lengthPrefixed lengthSize nals) := by
  rw [lengthPrefixed, List.flatMap_cons, List.append_assoc]
  rfl

theorem startCoded_cons {nal : List UInt8} :
    startCoded lengthSize (nal :: nals) = bytesOf lengthSize 1 ++ (nal ++ startCoded lengthSize nals) := by
  rw [startCoded, List.flatMap_cons, List.append_assoc]
  rfl

theorem lengthPrefixed_length :
    (lengthPrefixed lengthSize nals).length = lengthSize * nals.length + nals.flatten.length := by
  induction nals with
  | nil => rfl
  | cons nal nals ih =>
    rw [lengthPrefixed_cons, List.length_append, List.length_append, bytesOf_length, ih, List.length_cons,
      List.flatten_cons, List.length_append, Nat.mul_succ]
    omega

theorem startCoded_length : (startCoded lengthSize nals).length = (lengthPrefixed lengthSize nals).length := by
  simp only [startCoded, lengthPrefixed, List.length_flatMap, List.length_append, bytesOf_length]

/-- The units from `p` on become units behind start codes, and what is before stays. -/
theorem annexb_units (some_ : 0 < lengthSize) (fits : lengthSize ≤ 4) (small : bytesused < 2 ^ 32)
    (lengths : ∀ nal ∈ nals, nal.length < 2 ^ (8 * lengthSize))
    (here : span mem p (lengthPrefixed lengthSize nals).length = lengthPrefixed lengthSize nals)
    (all : p + (lengthPrefixed lengthSize nals).length = bytesused) :
    ∃ after, Ends (annexbTurn lengthSize bytesused) { mem, pdata := p, consumed := p } (.ok after) ∧
      span after p (lengthPrefixed lengthSize nals).length = startCoded lengthSize nals ∧
      ∀ a, a < p ∨ bytesused ≤ a → after a = mem a := by
  induction nals generalizing mem p with
  | nil =>
    have done : ¬ p < bytesused := by
      rw [lengthPrefixed, List.flatMap_nil, List.length_nil] at all
      omega
    exact ⟨mem, ends_leave (by rw [annexbTurn, if_neg done]), rfl, fun _ _ => rfl⟩
  | cons nal rest ih =>
    rw [lengthPrefixed_cons, List.length_append, List.length_append, bytesOf_length] at here all ⊢
    rw [span_append, span_append] at here
    obtain ⟨prefix_, here⟩ := List.append_inj here (by rw [span_length, bytesOf_length])
    obtain ⟨unit, behind⟩ := List.append_inj here span_length
    have length : pitcherBytestreamGetBe mem p lengthSize = nal.length := by
      rw [getBe_word fits, prefix_, word_bytesOf (lengths nal List.mem_cons_self)]
    have step : u32 (lengthSize + nal.length) = lengthSize + nal.length := u32_small (by omega)
    have untouched : span (pitcherBytestreamSetBe p lengthSize 1 mem) (p + lengthSize + nal.length)
        (lengthPrefixed lengthSize rest).length = lengthPrefixed lengthSize rest :=
      (span_eq_iff.mpr fun k _ => setBe_outside (by omega)).trans behind
    obtain ⟨after, ended, converted, kept⟩ := ih
      (fun nal mem => lengths nal (List.mem_cons_of_mem _ mem)) untouched (by omega)
    have turn : annexbTurn lengthSize bytesused { mem, pdata := p, consumed := p } =
        .ok (.again ⟨pitcherBytestreamSetBe p lengthSize 1 mem, p + lengthSize + nal.length,
          p + lengthSize + nal.length⟩) := by
      unfold annexbTurn
      dsimp only
      rw [if_pos (by omega), if_pos (by omega), length, step, u32_small (by omega), Nat.add_assoc]
    refine ⟨after, (ends_again turn).mpr ended, ?_, ?_⟩
    · rw [span_append, span_append, startCoded_cons, converted]
      have start : span after p lengthSize = bytesOf lengthSize 1 :=
        (span_eq_iff.mpr fun k _ => kept _ (by omega)).trans span_setBe
      have same : span after (p + lengthSize) nal.length = nal := by
        refine (span_eq_iff.mpr fun k _ => ?_).trans unit
        rw [kept _ (by omega), setBe_outside (by omega)]
      rw [start, same]
    · intro a out
      rw [kept a (by omega), setBe_outside (by omega)]

end Units

end ImxTest.Extractor
