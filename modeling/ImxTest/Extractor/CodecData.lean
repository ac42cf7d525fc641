import ImxTest.Extractor.Annexb
import ImxTest.Pitcher.Def

/-! The parameter sets in the codec data of an MP4 file, an `avcC` or an `hvcC` record, that
media_extractor.c writes into a plane as a byte stream. The record has `codec_data_size`
bytes; reading behind them, or writing behind the plane, is a fault. -/
namespace ImxTest.Extractor
open Lib.BitString Lib.While
open Pitcher (Ret)

/-- `n` bytes of the record. -/
def load (data : List UInt8) (place n : Nat) : Except Fault (List UInt8) :=
  if n = 0 ∨ place + n ≤ data.length then .ok ((data.drop place).take n) else .error .outside

/-- The number that `n` bytes are, the first one most significant. -/
def number (data : List UInt8) (place n : Nat) : Except Fault Nat := (load data place n).map word

/-- Bytes behind those that are in the plane. -/
def put (plane : Nat) (out bytes : List UInt8) : Except Fault (List UInt8) :=
  if out.length + bytes.length ≤ plane then .ok (out ++ bytes) else .error .outside

def startcode : List UInt8 := [0, 0, 0, 1]

/-- Before `while (num_nal--)`. -/
structure Avcc where
  numNal : Nat
  spsDone : Bool
  offset : Nat
  out : List UInt8

/-- Behind the last SPS is the number of PPS. -/
def avccSwitch (data : List UInt8) (plane : Nat) (s : Avcc) : Except Fault Avcc :=
  if s.numNal = 0 ∧ s.spsDone = false then do
    let numNal ← number data s.offset 1
    let out ← put plane s.out startcode
    pure { numNal, spsDone := true, offset := u32 (s.offset + 1), out }
  else pure s

/-- A turn of the loop of `mme_avcc2annexb_codecdata`, with what it has written. -/
def avccTurn (data : List UInt8) (plane : Nat) (s : Avcc) :
    Except Fault (Turn Avcc (Ret × List UInt8)) :=
  if s.numNal = 0 then .ok (.leave (.OK, s.out))
  else do
    let nalSize ← number data s.offset 2
    if u32 (nalSize + 2 + s.offset) > data.length then pure (.leave (.E_INVAL, s.out))
    else
      let nal ← load data (s.offset + 2) nalSize
      let out ← put plane s.out nal
      let offset := u32 (s.offset + (2 + nalSize))
      let t ← avccSwitch data plane { numNal := s.numNal - 1, spsDone := s.spsDone, offset, out }
      pure (.again t)

/-- `mme->length_size` as a byte of the record has it. -/
def lengthSizeOf (byte : Nat) : Nat := (byte &&& 0x3) + 1

/-- Before the loop, or what is returned without it. -/
def avccStart (data : List UInt8) (plane : Nat) : Except Fault (Turn Avcc (Ret × List UInt8)) := do
  let lengthSize := lengthSizeOf (← number data 4 1)
  let numNal := (← number data 5 1) &&& 0x1f
  if lengthSize ≠ 3 ∧ lengthSize ≠ 4 then pure (.leave (.E_INVAL, []))
  else
    let out ← put plane [] startcode
    pure (.again { numNal, spsDone := false, offset := 6, out })

/-- How `mme_avcc2annexb_codecdata` ends. -/
def MmeAvcc2annexbCodecdata (data : List UInt8) (plane : Nat) (outcome : Except Fault (Ret × List UInt8)) : Prop :=
  match avccStart data plane with
  | .error fault => outcome = .error fault
  | .ok (.leave result) => outcome = .ok result
  | .ok (.again s) => Ends (avccTurn data plane) s outcome

/-- The inner loop of `mme_hvcc2annexb_codecdata`; there is no place behind a unit that is
out of range. -/
def hvccNals (data : List UInt8) (plane : Nat) : (left offset : Nat) → (out : List UInt8) →
    Except Fault (Option Nat × List UInt8)
  | 0, offset, out => pure (some offset, out)
  | left + 1, offset, out => do
    let nalSize ← number data offset 2
    if u32 (offset + 2 + nalSize) > data.length then pure (none, out)
    else
      let out ← put plane out startcode
      let nal ← load data (offset + 2) nalSize
      let out ← put plane out nal
      hvccNals data plane left (u32 (offset + (2 + nalSize))) out

def hvccArrays (data : List UInt8) (plane : Nat) : (numArray offset : Nat) → (out : List UInt8) →
    Except Fault (Ret × List UInt8)
  | 0, _, out => pure (.OK, out)
  | numArray + 1, offset, out =>
    if u32 (offset + 5) > data.length then pure (.E_INVAL, out)
    else do
      let cnt ← number data (offset + 1) 2
      let (next, out) ← hvccNals data plane cnt (u32 (offset + 3)) out
      match next with
      | none => pure (.E_INVAL, out)
      | some offset => hvccArrays data plane numArray offset out

def mmeHvcc2annexbCodecdata (data : List UInt8) (plane : Nat) : Except Fault (Ret × List UInt8) := do
  let lengthSize := lengthSizeOf (← number data 21 1)
  if lengthSize ≠ 3 ∧ lengthSize ≠ 4 then pure (.E_INVAL, [])
  else
    let numArray ← number data 22 1
    hvccArrays data plane numArray 23 []

/-! ## Lists of units -/

/-- What the bytes behind a number of units are: the units, and the bytes behind them; or
the record ends where the size of the next one should be; or in the next one, which should
have `size` bytes. -/
inductive Split where
  | whole (nals : List (List UInt8)) (rest : List UInt8)
  | short (nals : List (List UInt8))
  | cut (nals : List (List UInt8)) (size : Nat) (rest : List UInt8)

def Split.cons (nal : List UInt8) : Split → Split
  | .whole nals rest => .whole (nal :: nals) rest
  | .short nals => .short (nal :: nals)
  | .cut nals size rest => .cut (nal :: nals) size rest

def splitNals : (n : Nat) → List UInt8 → Split
  | 0, rest => .whole [] rest
  | n + 1, hi :: lo :: rest =>
    if word [hi, lo] ≤ rest.length then
      (splitNals n (rest.drop (word [hi, lo]))).cons (rest.take (word [hi, lo]))
    else .cut [] (word [hi, lo]) rest
  | _ + 1, _ => .short []

section Splits
variable {data rest bytes : List UInt8} {place n : Nat} {nals : List (List UInt8)}

/-- Units that are there are found. -/
theorem splitNals_prefixed (sizes : ∀ nal ∈ nals, nal.length < 2 ^ 16) :
    splitNals nals.length (lengthPrefixed 2 nals ++ rest) = .whole nals rest := by
  induction nals with
  | nil => rfl
  | cons nal nals ih =>
    have size : word (bytesOf 2 nal.length) = nal.length := word_bytesOf (sizes nal List.mem_cons_self)
    have two : bytesOf 2 nal.length = [(nal.length / 2 ^ 8).toUInt8, nal.length.toUInt8] := rfl
    have front : lengthPrefixed 2 (nal :: nals) ++ rest =
        (nal.length / 2 ^ 8).toUInt8 :: nal.length.toUInt8 :: (nal ++ (lengthPrefixed 2 nals ++ rest)) := by
      rw [lengthPrefixed_cons, two, List.append_assoc, List.append_assoc]
      rfl
    rw [two] at size
    rw [front, List.length_cons, splitNals, size, if_pos (by rw [List.length_append]; omega), List.drop_left,
      List.take_left, ih fun nal mem => sizes nal (List.mem_cons_of_mem _ mem), Split.cons]

theorem word_pair_lt (hi lo : UInt8) : word [hi, lo] < 2 ^ 16 := word_lt [hi, lo]

/-- The units and their sizes are as long as what they are split from. -/
theorem splitNals_length : ∀ {n : Nat} {rest : List UInt8}, match splitNals n rest with
    | .whole nals tail => nals.flatten.length + 2 * n + tail.length = rest.length ∧ nals.flatten.length ≤ n * 65535
    | .short _ => True
    | .cut nals size tail => nals.flatten.length + 2 + tail.length ≤ rest.length ∧ tail.length < size ∧ size < 2 ^ 16
  | 0, rest => by simp [splitNals]
  | n + 1, [] => trivial
  | n + 1, [_] => trivial
  | n + 1, hi :: lo :: rest => by
    rw [splitNals]
    by_cases fits : word [hi, lo] ≤ rest.length
    · have ih := @splitNals_length n (rest.drop (word [hi, lo]))
      rw [if_pos fits]
      cases split : splitNals n (rest.drop (word [hi, lo])) with
      | whole nals tail =>
        rw [split] at ih
        have small := word_pair_lt hi lo
        dsimp only [Split.cons] at ih ⊢
        rw [List.length_drop] at ih
        rw [List.flatten_cons, List.length_append, List.length_take_of_le fits, List.length_cons, List.length_cons]
        omega
      | short nals => trivial
      | cut nals size tail =>
        rw [split] at ih
        dsimp only [Split.cons] at ih ⊢
        rw [List.length_drop] at ih
        rw [List.flatten_cons, List.length_append, List.length_take_of_le fits, List.length_cons, List.length_cons]
        omega
    · have small := word_pair_lt hi lo
      rw [if_neg fits]
      dsimp only
      rw [List.flatten_nil, List.length_nil, List.length_cons, List.length_cons]
      omega

/-- The bytes behind the units are the last ones. -/
theorem splitNals_suffix {n : Nat} {tail : List UInt8} (split : splitNals n rest = .whole nals tail) : tail <:+ rest := by
  induction n generalizing rest nals with
  | zero =>
    cases split
    exact List.suffix_rfl
  | succ n ih =>
    rcases rest with _ | ⟨hi, _ | ⟨lo, rest⟩⟩
    · cases split
    · cases split
    rw [splitNals] at split
    split at split
    · cases next : splitNals n (rest.drop (word [hi, lo])) with
      | whole nals' tail' =>
        rw [next] at split
        cases split
        exact ((ih next).trans (List.drop_suffix _ _)).trans ⟨[hi, lo], rfl⟩
      | short nals' =>
        rw [next] at split
        cases split
      | cut nals' size tail' =>
        rw [next] at split
        cases split
    · cases split

theorem drop_suffix {tail : List UInt8} (suffix : tail <:+ data) : data.drop (data.length - tail.length) = tail :=
  (List.suffix_iff_eq_drop.mp suffix).symm

theorem load_front (suffix : data.drop place = bytes ++ rest) (inside : place ≤ data.length) :
    load data place bytes.length = .ok bytes := by
  have length := congrArg List.length suffix
  rw [List.length_drop, List.length_append] at length
  rw [load, if_pos (.inr (by omega)), suffix, List.take_left]

theorem load_short (some_ : n ≠ 0) (outside : data.length < place + n) : load data place n = .error .outside := by
  rw [load, if_neg (by omega)]

/-- The size of a unit, and the unit. -/
theorem load_unit {hi lo : UInt8} (suffix : data.drop place = hi :: lo :: rest) (inside : place ≤ data.length)
    (fits : n ≤ rest.length) :
    number data place 2 = .ok (word [hi, lo]) ∧ load data (place + 2) n = .ok (rest.take n) ∧
      data.drop (place + (2 + n)) = rest.drop n ∧ place + (2 + n) ≤ data.length := by
  have length := congrArg List.length suffix
  rw [List.length_drop, List.length_cons, List.length_cons] at length
  have behind : data.drop (place + 2) = rest := by
    rw [← List.drop_drop, suffix]
    rfl
  refine ⟨?_, ?_, ?_, by omega⟩
  · have front := load_front (show data.drop place = [hi, lo] ++ rest from suffix) inside
    exact congrArg (Except.map word) front
  · have front := load_front (show data.drop (place + 2) = rest.take n ++ rest.drop n by
      rw [behind, List.take_append_drop]) (by omega)
    rwa [List.length_take_of_le fits] at front
  · rw [← behind, List.drop_drop, Nat.add_assoc]

theorem number_short (some_ : n ≠ 0) (outside : data.length < place + n) : number data place n = .error .outside := by
  rw [number, load_short some_ outside]
  rfl

def Supported (lengthSize : Nat) : Prop := lengthSize = 3 ∨ lengthSize = 4

instance (lengthSize : Nat) : Decidable (Supported lengthSize) := instDecidableOr

theorem unsupported_iff {lengthSize : Nat} : lengthSize ≠ 3 ∧ lengthSize ≠ 4 ↔ ¬ Supported lengthSize := not_or.symm

/-- The byte of the record at a place that it has. -/
def field (data : List UInt8) (place : Nat) : Nat := (data.getD place 0).toNat

theorem number_byte {b : UInt8} (suffix : data.drop place = b :: rest) (inside : place ≤ data.length) :
    number data place 1 = .ok b.toNat := by
  have front := load_front (show data.drop place = [b] ++ rest from suffix) inside
  have byte : word [b] = b.toNat := Nat.zero_add _
  rw [← byte]
  exact congrArg (Except.map word) front

theorem number_field (inside : place < data.length) : number data place 1 = .ok (field data place) := by
  have suffix : data.drop place = data.getD place 0 :: data.drop (place + 1) := by
    rw [List.getD_eq_getElem _ _ inside]
    exact List.drop_eq_getElem_cons inside
  exact number_byte suffix (Nat.le_of_lt inside)

end Splits

end ImxTest.Extractor
