import ImxTest.Extractor.Avcc
import ImxTest.Extractor.Hvcc

/-! Well-formed codec data, and when it becomes the byte stream of its parameter sets, each
behind a start code. -/
namespace ImxTest.Extractor
open Lib.BitString
open Pitcher (Ret)

/-! ## The records -/

/-- An `avcC` record. The header of a NAL unit is not 0 in a parameter set. -/
structure AvccRecord where
  head : List UInt8
  head_length : head.length = 4
  lengthByte : UInt8
  supported : Supported (lengthSizeOf lengthByte.toNat)
  numByte : UInt8
  sps : List (List UInt8)
  numByte_eq : numByte.toNat &&& 0x1f = sps.length
  pps : List (List UInt8)
  pps_few : pps.length < 2 ^ 8
  sizes : ∀ nal ∈ sps ++ pps, nal.length < 2 ^ 16
  headers : ∀ nal ∈ sps ++ pps, nal.headD 0 ≠ 0
  extension : List UInt8

def AvccRecord.bytes (record : AvccRecord) : List UInt8 :=
  record.head ++ record.lengthByte :: record.numByte :: (lengthPrefixed 2 record.sps ++
    record.pps.length.toUInt8 :: (lengthPrefixed 2 record.pps ++ record.extension))

def AvccRecord.stream (record : AvccRecord) : List UInt8 := startCoded 4 (record.sps ++ record.pps)

/-- NAL units of one kind. -/
structure HvccArray where
  kind : UInt8
  nals : List (List UInt8)
  few : nals.length < 2 ^ 16
  sizes : ∀ nal ∈ nals, nal.length < 2 ^ 16

def HvccArray.bytes (array : HvccArray) : List UInt8 :=
  array.kind :: (bytesOf 2 array.nals.length ++ lengthPrefixed 2 array.nals)

/-- An `hvcC` record. -/
structure HvccRecord where
  head : List UInt8
  head_length : head.length = 21
  lengthByte : UInt8
  supported : Supported (lengthSizeOf lengthByte.toNat)
  arrays : List HvccArray
  few : arrays.length < 2 ^ 8

def HvccRecord.bytes (record : HvccRecord) : List UInt8 :=
  record.head ++ record.lengthByte :: record.arrays.length.toUInt8 :: record.arrays.flatMap HvccArray.bytes

def HvccRecord.stream (record : HvccRecord) : List UInt8 := startCoded 4 (record.arrays.flatMap HvccArray.nals)

section Fields
variable {before rest : List UInt8} {b : UInt8} {place : Nat}

theorem field_behind (length : before.length = place) : field (before ++ b :: rest) place = b.toNat := by
  subst length
  rw [field, List.getD_append_right _ _ _ _ (Nat.le_refl _), Nat.sub_self]
  rfl

theorem count_byte {n : Nat} (few : n < 2 ^ 8) : n.toUInt8.toNat = n := Nat.mod_eq_of_lt few

theorem startCoded_append {first second : List (List UInt8)} :
    startCoded 4 (first ++ second) = startCoded 4 first ++ startCoded 4 second := List.flatMap_append

end Fields

/-! ## The lists of an `avcC` record -/

namespace AvccRecord
variable (record : AvccRecord)

theorem outcome : avccOutcome record.bytes = .ok (.OK,
    if record.sps = [] then startcode
    else startcode ++ record.sps.flatten ++ startcode ++ record.pps.flatten) := by
  have behind : record.bytes = (record.head ++ [record.lengthByte]) ++ record.numByte ::
      (lengthPrefixed 2 record.sps ++ record.pps.length.toUInt8 ::
        (lengthPrefixed 2 record.pps ++ record.extension)) := by
    rw [bytes, List.append_assoc]
    rfl
  have length : (record.head ++ [record.lengthByte]).length = 5 := by
    rw [List.length_append, record.head_length]
    rfl
  have size : field record.bytes 4 = record.lengthByte.toNat := field_behind record.head_length
  have count : numSps record.bytes = record.sps.length := by
    rw [numSps, behind, field_behind length, record.numByte_eq]
  have enough : ¬ record.bytes.length < 6 := by
    rw [behind, List.length_append, length, List.length_cons]
    omega
  have units : record.bytes.drop 6 = lengthPrefixed 2 record.sps ++ record.pps.length.toUInt8 ::
      (lengthPrefixed 2 record.pps ++ record.extension) := by
    rw [behind, show (6 : Nat) = 5 + 1 from rfl, ← List.drop_drop, List.drop_left' length]
    rfl
  rw [avccOutcome, if_neg enough, size, if_neg (not_not.mpr record.supported), count, units]
  by_cases none_ : record.sps = []
  · rw [if_pos (by rw [none_]; rfl), if_pos none_]
  · rw [if_neg (by rwa [List.length_eq_zero_iff]), if_neg none_,
      splitNals_prefixed fun nal mem => record.sizes nal (List.mem_append_left _ mem)]
    dsimp only
    rw [count_byte record.pps_few,
      splitNals_prefixed fun nal mem => record.sizes nal (List.mem_append_right _ mem)]

/-- The start code of one unit cannot stand behind it instead. -/
theorem startcode_behind {nal : List UInt8} (header : nal.headD 0 ≠ 0) : nal ++ startcode ≠ startcode ++ nal := by
  intro same
  cases nal with
  | nil => exact header rfl
  | cons b rest => exact header (List.cons.inj same).1

/-- There are as many start codes as lists, so that there has to be a unit in each. -/
theorem lists_iff : (if record.sps = [] then startcode
    else startcode ++ record.sps.flatten ++ startcode ++ record.pps.flatten) = record.stream ↔
      record.sps.length = 1 ∧ record.pps.length = 1 := by
  have headers := record.headers
  have four : startcode.length = 4 := rfl
  rw [stream]
  generalize record.sps = sps at headers
  generalize record.pps = pps at headers
  constructor
  · intro same
    have lengths := congrArg List.length same
    rw [startCoded_length, lengthPrefixed_length, List.length_append, List.flatten_append,
      List.length_append] at lengths
    by_cases none_ : sps = []
    · subst none_
      rw [if_pos rfl, four, List.length_nil, List.flatten_nil, List.length_nil] at lengths
      have some_ : pps ≠ [] := by
        rintro rfl
        cases lengths
      have one : pps.length = 1 := by
        have positive := List.length_pos_iff.mpr some_
        omega
      obtain ⟨nal, rfl⟩ := List.length_eq_one_iff.mp one
      have empty : nal = [] := by
        rw [List.length_singleton, List.flatten_singleton] at lengths
        exact List.length_eq_zero_iff.mp (by omega)
      exact absurd (congrArg (List.headD · 0) empty) (headers nal List.mem_cons_self)
    · have some_ := List.length_pos_iff.mpr none_
      rw [if_neg none_, List.length_append, List.length_append, List.length_append, four] at lengths
      by_cases each : pps.length = 1
      · exact ⟨by omega, each⟩
      · obtain rfl : pps = [] := List.length_eq_zero_iff.mp (by omega)
        obtain ⟨first, second, rfl⟩ : ∃ first second, sps = [first, second] := List.length_eq_two.mp (by omega)
        rw [if_neg none_, startCoded, List.append_nil] at same
        simp only [List.flatten_cons, List.flatten_nil, List.append_nil, List.flatMap_cons, List.flatMap_nil,
          List.append_assoc] at same
        have behind := List.append_cancel_left (List.append_cancel_left same)
        exact absurd behind (startcode_behind (headers second (by simp)))
  · rintro ⟨one, other⟩
    obtain ⟨first, rfl⟩ := List.length_eq_one_iff.mp one
    obtain ⟨second, rfl⟩ := List.length_eq_one_iff.mp other
    rw [if_neg (List.cons_ne_nil _ _), startCoded_append, startCoded_cons, startCoded_cons]
    simp only [List.flatten_cons, List.flatten_nil, List.append_nil, List.append_assoc, startCoded, List.flatMap_nil]
    rfl

end AvccRecord

/-! ## The arrays of an `hvcC` record -/

/-- The check of five bytes in front of each array asks for two bytes too many when the last
one is empty. Only from 2^32 - 2 bytes on it passes: the sum wraps around. -/
def LastNotEmpty (size : Nat) (arrays : List HvccArray) : Prop :=
  2 ^ 32 ≤ size + 2 ∨ ∀ last ∈ arrays.getLast?, last.nals ≠ []

instance (size : Nat) (arrays : List HvccArray) : Decidable (LastNotEmpty size arrays) := instDecidableOr

namespace HvccArray
variable {array : HvccArray} {arrays : List HvccArray} {rest out : List UInt8} {size plane : Nat}

theorem bytes_length : array.bytes.length = 3 + (lengthPrefixed 2 array.nals).length := by
  rw [bytes, List.length_cons, List.length_append, bytesOf_length]
  omega

/-- The check in front of an array: it fails for an empty one at the end. -/
theorem range_check (inside : ((array :: arrays).flatMap bytes).length ≤ size) (small : size < 2 ^ 32) :
    u32 (size - ((array :: arrays).flatMap bytes).length + 5) > size ↔
      size + 2 < 2 ^ 32 ∧ array.nals = [] ∧ arrays = [] := by
  rw [range_iff inside small]
  rw [List.flatMap_cons, List.length_append, bytes_length, lengthPrefixed_length] at inside ⊢
  cases arrays with
  | cons next arrays =>
    have more := @bytes_length next
    rw [List.flatMap_cons, List.length_append]
    exact ⟨fun few => by omega, fun rejected => absurd rejected.2.2 (List.cons_ne_nil _ _)⟩
  | nil =>
    cases known : array.nals with
    | cons nal nals =>
      rw [List.length_cons]
      exact ⟨fun few => by omega, fun rejected => absurd rejected.2.1 (List.cons_ne_nil _ _)⟩
    | nil =>
      refine Iff.trans ?_ (and_iff_left ⟨rfl, rfl⟩).symm
      rw [known] at inside
      simp only [List.flatMap_nil, List.length_nil, List.flatten_nil] at inside ⊢
      omega

theorem lastNotEmpty_cons : LastNotEmpty size (array :: arrays) ↔
    ¬ (size + 2 < 2 ^ 32 ∧ array.nals = [] ∧ arrays = []) ∧ LastNotEmpty size arrays := by
  unfold LastNotEmpty
  cases arrays with
  | nil =>
    rw [List.getLast?_singleton, List.getLast?_nil]
    constructor
    · intro fine
      refine ⟨?_, .inr nofun⟩
      rintro ⟨noWrap, empty, -⟩
      exact fine.elim (fun wraps => by omega) fun last => last array rfl empty
    · rintro ⟨fine, -⟩
      by_cases wraps : 2 ^ 32 ≤ size + 2
      · exact .inl wraps
      · refine .inr ?_
        rintro last ⟨⟩ empty
        exact fine ⟨by omega, empty, rfl⟩
  | cons next arrays =>
    rw [List.getLast?_cons_cons]
    exact ⟨fun fine => ⟨fun rejected => List.cons_ne_nil _ _ rejected.2.2, fine⟩, fun both => both.2⟩

theorem arrays_outcome (inside : (arrays.flatMap bytes).length ≤ size) (small : size < 2 ^ 32)
    (within : out.length ≤ plane) :
    arraysOutcome size plane arrays.length (arrays.flatMap bytes) out =
      if out.length + (startCoded 4 (arrays.flatMap nals)).length ≤ plane then
        .ok (if LastNotEmpty size arrays then .OK else .E_INVAL, out ++ startCoded 4 (arrays.flatMap nals))
      else .error .outside := by
  induction arrays generalizing out with
  | nil =>
    rw [if_pos (by exact within), if_pos (.inr nofun)]
    exact congrArg (fun out => Except.ok (Ret.OK, out)) (List.append_nil out).symm
  | cons array arrays ih =>
    have check := range_check inside small
    have behind : (array :: arrays).flatMap bytes = array.kind :: (array.nals.length / 2 ^ 8).toUInt8 ::
        array.nals.length.toUInt8 :: (lengthPrefixed 2 array.nals ++ arrays.flatMap bytes) := by
      rw [List.flatMap_cons, bytes, List.cons_append, List.append_assoc]
      rfl
    rw [arraysOutcome.eq_def]
    dsimp only [List.length_cons]
    by_cases rejected : size + 2 < 2 ^ 32 ∧ array.nals = [] ∧ arrays = []
    · obtain ⟨noWrap, empty, rfl⟩ := rejected
      have none_ : startCoded 4 ([array].flatMap nals) = [] := by
        rw [List.flatMap_singleton, empty]
        rfl
      have notRead : ¬ LastNotEmpty size [array] := fun fine => (lastNotEmpty_cons.mp fine).1 ⟨noWrap, empty, rfl⟩
      rw [if_pos (check.mpr ⟨noWrap, empty, rfl⟩), none_, if_neg notRead, List.append_nil]
      exact (if_pos within).symm
    · have same : LastNotEmpty size (array :: arrays) ↔ LastNotEmpty size arrays :=
        lastNotEmpty_cons.trans (and_iff_right rejected)
      have count : word [(array.nals.length / 2 ^ 8).toUInt8, array.nals.length.toUInt8] = array.nals.length :=
        @word_bytesOf 2 array.nals.length array.few
      rw [if_neg (mt check.mp rejected), behind]
      dsimp only
      rw [count, splitNals_prefixed array.sizes]
      dsimp only
      rw [List.flatMap_cons, startCoded_append, List.length_append, ← Nat.add_assoc, ← List.append_assoc]
      by_cases room : out.length + (startCoded 4 array.nals).length ≤ plane
      · have less : (arrays.flatMap bytes).length ≤ size := by
          rw [List.flatMap_cons, List.length_append] at inside
          omega
        rw [if_pos room, ih less (by rw [List.length_append]; exact room), List.length_append]
        simp only [same]
      · rw [if_neg room, if_neg (by omega)]

end HvccArray

theorem HvccRecord.outcome (record : HvccRecord) {plane : Nat} (small : record.bytes.length < 2 ^ 32) :
    hvccOutcome record.bytes plane =
      if record.stream.length ≤ plane then
        .ok (if LastNotEmpty record.bytes.length record.arrays then .OK else .E_INVAL, record.stream)
      else .error .outside := by
  have behind : record.bytes = (record.head ++ [record.lengthByte]) ++ record.arrays.length.toUInt8 ::
      record.arrays.flatMap HvccArray.bytes := by
    rw [bytes, List.append_assoc]
    rfl
  have length : (record.head ++ [record.lengthByte]).length = 22 := by
    rw [List.length_append, record.head_length]
    rfl
  have size : field record.bytes 21 = record.lengthByte.toNat := field_behind record.head_length
  have count : field record.bytes 22 = record.arrays.length := by
    rw [behind, field_behind length, count_byte record.few]
  have total : record.bytes.length = 23 + (record.arrays.flatMap HvccArray.bytes).length := by
    rw [behind, List.length_append, length, List.length_cons]
    omega
  have arrays : record.bytes.drop 23 = record.arrays.flatMap HvccArray.bytes := by
    rw [behind, show (23 : Nat) = 22 + 1 from rfl, ← List.drop_drop, List.drop_left' length]
    rfl
  rw [hvccOutcome, if_neg (by omega), size, if_neg (not_not.mpr record.supported), if_neg (by omega), count, arrays,
    HvccArray.arrays_outcome (by omega) small (Nat.zero_le _)]
  simp only [List.length_nil, Nat.zero_add, List.nil_append]
  rfl

/-! ## The conversions -/

theorem AvccRecord.converts_iff (record : AvccRecord) {plane : Nat} (accepted : record.bytes.length ≤ plane)
    (small : record.bytes.length < 2 ^ 32) :
    MmeAvcc2annexbCodecdata record.bytes plane (.ok (.OK, record.stream)) ↔
      record.sps.length = 1 ∧ record.pps.length = 1 := by
  rw [avcc_iff accepted small, record.outcome, ← record.lists_iff]
  constructor
  · intro same
    exact (congrArg Prod.snd (Except.ok.inj same)).symm
  · intro same
    rw [same]

theorem HvccRecord.converts_iff (record : HvccRecord) {plane : Nat} (small : record.bytes.length < 2 ^ 32) :
    mmeHvcc2annexbCodecdata record.bytes plane = .ok (.OK, record.stream) ↔
      record.stream.length ≤ plane ∧ LastNotEmpty record.bytes.length record.arrays := by
  rw [hvcc_eq small, record.outcome small]
  by_cases room : record.stream.length ≤ plane
  · rw [if_pos room, and_iff_right room]
    constructor
    · intro same
      by_contra empty
      rw [if_neg empty] at same
      cases same
    · intro full
      rw [if_pos full]
  · rw [if_neg room]
    exact ⟨nofun, fun both => absurd both.1 room⟩

inductive CodecRecord where
  | avcc (record : AvccRecord)
  | hvcc (record : HvccRecord)

def CodecRecord.bytes : CodecRecord → List UInt8
  | .avcc record => record.bytes
  | .hvcc record => record.bytes

/-- The record becomes the byte stream of its parameter sets, each behind a start code. -/
def CodecRecord.Converts (plane : Nat) : CodecRecord → Prop
  | .avcc record => MmeAvcc2annexbCodecdata record.bytes plane (.ok (.OK, record.stream))
  | .hvcc record => mmeHvcc2annexbCodecdata record.bytes plane = .ok (.OK, record.stream)

/-- One SPS and one PPS; or a last array that is not empty, and room in the plane for the
start codes. -/
def CodecRecord.Plain (plane : Nat) : CodecRecord → Prop
  | .avcc record => record.sps.length = 1 ∧ record.pps.length = 1
  | .hvcc record => record.stream.length ≤ plane ∧ LastNotEmpty record.bytes.length record.arrays

theorem codecdata_converts_iff (record : CodecRecord) {plane : Nat} (accepted : record.bytes.length ≤ plane)
    (small : record.bytes.length < 2 ^ 32) : record.Converts plane ↔ record.Plain plane := by
  cases record with
  | avcc record => exact record.converts_iff accepted small
  | hvcc record => exact record.converts_iff small

/-- An `avcC` record of such parameter sets. -/
def avccOf (numByte : UInt8) (sps pps : List (List UInt8)) (numByte_eq : numByte.toNat &&& 0x1f = sps.length)
    (pps_few : pps.length < 2 ^ 8) (sizes : ∀ nal ∈ sps ++ pps, nal.length < 2 ^ 16)
    (headers : ∀ nal ∈ sps ++ pps, nal.headD 0 ≠ 0) : AvccRecord :=
  { numByte, sps, numByte_eq, pps, pps_few, sizes, headers
    head := [0x01, 0x42, 0x00, 0x1e]
    head_length := rfl
    lengthByte := 0xff
    supported := .inr rfl
    extension := [] }

def hvccOf (arrays : List HvccArray) (few : arrays.length < 2 ^ 8) : HvccRecord :=
  { arrays, few
    head := 0x01 :: List.replicate 20 0
    head_length := rfl
    lengthByte := 0x0f
    supported := .inr rfl }

def avccOne : AvccRecord := avccOf 0xe1 [[0x67, 0x42]] [[0x68]] rfl (by decide) (by decide) (by decide)

def avccTwo : AvccRecord := avccOf 0xe2 [[0x67, 0x42], [0x67, 0x4d]] [[0x68]] rfl (by decide) (by decide) (by decide)

def hvccOne : HvccRecord := hvccOf [⟨0x20, [[0x40, 0x01]], by decide, by decide⟩] (by decide)

def hvccEmpty : HvccRecord :=
  hvccOf [⟨0x20, [[0x40, 0x01]], by decide, by decide⟩, ⟨0x27, [], by decide, by decide⟩] (by decide)

theorem codecdata_converts_one :
    MmeAvcc2annexbCodecdata avccOne.bytes 64
        (.ok (.OK, [0x00, 0x00, 0x00, 0x01, 0x67, 0x42, 0x00, 0x00, 0x00, 0x01, 0x68])) ∧
      mmeHvcc2annexbCodecdata hvccOne.bytes 64 = .ok (.OK, [0x00, 0x00, 0x00, 0x01, 0x40, 0x01]) :=
  ⟨(@codecdata_converts_iff (.avcc avccOne) 64 (by decide) (by decide)).mpr ⟨rfl, rfl⟩,
    (@codecdata_converts_iff (.hvcc hvccOne) 64 (by decide) (by decide)).mpr ⟨by decide, by decide⟩⟩

/-- Two SPS get one start code together, and an empty array at the end is an error. -/
theorem codecdata_converts_two :
    ¬ ((∀ (record : AvccRecord) (plane : Nat), record.bytes.length ≤ plane → record.bytes.length < 2 ^ 32 →
      MmeAvcc2annexbCodecdata record.bytes plane (.ok (.OK, record.stream))) ∨
    ∀ (record : HvccRecord) (plane : Nat), record.bytes.length ≤ plane → record.bytes.length < 2 ^ 32 →
      mmeHvcc2annexbCodecdata record.bytes plane = .ok (.OK, record.stream)) := by
  rintro (always | always)
  · have single := (avccTwo.converts_iff (by decide) (by decide)).mp (always avccTwo 64 (by decide) (by decide))
    exact absurd single (by decide)
  · have same := always hvccEmpty 64 (by decide) (by decide)
    have rejected : mmeHvcc2annexbCodecdata hvccEmpty.bytes 64 =
        .ok (.E_INVAL, [0x00, 0x00, 0x00, 0x01, 0x40, 0x01]) := rfl
    rw [rejected] at same
    cases same

end ImxTest.Extractor
