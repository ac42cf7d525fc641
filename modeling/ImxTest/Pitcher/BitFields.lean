import ImxTest.Pitcher.Packing
import ImxTest.Pitcher.Tiles
import ImxTest.Lib.BitString

/-! Samples of ten bits that are read from strings of bytes: least significant bit
first, through `pitcher_get_bits_val_le`, and most significant first, from tiles. -/
namespace ImxTest.Pitcher.Convert

open Lib.Writes
open Lib.BitString hiding word
open Pitcher.Word (word)

/-! ## Least significant first -/

/-- The loop of `pitcher_get_bits_val_le`, with the bytes from `offset` on. -/
def bitsValLoop : (rest : List UInt8) → (count shift val nb : Nat) → Nat
  | [], _, _, val, _ => val
  | byte :: rest, count, shift, val, nb =>
    if 0 < count then
      let bits := if count > 8 - shift then 8 - shift else count
      bitsValLoop rest (count - bits) 0 (val ||| word ((byte.toNat >>> shift &&& (1 <<< bits - 1)) <<< nb))
        (nb + bits)
    else val

/-- `data` has `size` bytes. -/
def pitcherGetBitsValLe (data : List UInt8) (nr count : Nat) : Nat :=
  bitsValLoop (data.drop (nr / 8)) count (nr % 8) 0 0

section Bits
variable {rest data : List UInt8} {byte : Nat} {bits count shift val nb nr k : Nat}

/-- What one turn adds. -/
theorem part_testBit (fits : nb + bits ≤ 32) :
    (word ((byte >>> shift &&& (1 <<< bits - 1)) <<< nb)).testBit k =
      (decide (nb ≤ k ∧ k < nb + bits) && byte.testBit (shift + (k - nb))) := by
  rw [word, Nat.testBit_mod_two_pow, Nat.testBit_shiftLeft, Nat.testBit_and, Nat.testBit_shiftRight,
    Nat.one_shiftLeft, Nat.testBit_two_pow_sub_one]
  by_cases low : nb ≤ k
  · by_cases high : k < nb + bits
    · simp only [low, high, show k < 32 by omega, show k - nb < bits by omega, and_self,
        decide_true, Bool.true_and, Bool.and_true]
    · simp only [high, show ¬ k - nb < bits by omega, and_false, decide_false, Bool.and_false, Bool.false_and]
  · simp only [low, false_and, decide_false, Bool.and_false, Bool.false_and]

/-- The bits up to `nb` are there, the others are those from `shift` on. -/
theorem bitsValLoop_testBit (fits : nb + count ≤ 32) (low : shift < 8) :
    (bitsValLoop rest count shift val nb).testBit k =
      (val.testBit k || (decide (nb ≤ k ∧ k < nb + count) && lowBit rest (shift + (k - nb)))) := by
  induction rest generalizing count shift val nb with
  | nil => simp only [bitsValLoop, lowBit_nil, Bool.and_false, Bool.or_false]
  | cons byte rest ih =>
    rw [bitsValLoop]
    by_cases more : 0 < count
    · rw [if_pos more]
      obtain ⟨bits, known, most⟩ : ∃ bits, (if count > 8 - shift then 8 - shift else count) = bits ∧
          bits ≤ count ∧ bits ≤ 8 - shift ∧ (bits < count → bits = 8 - shift) := by
        split
        · exact ⟨8 - shift, rfl, by omega⟩
        · exact ⟨count, rfl, by omega⟩
      dsimp only
      rw [known, ih (by omega) (by decide), Nat.testBit_or, part_testBit (by omega), Bool.or_assoc, Nat.zero_add]
      congr 1
      -- a bit is one of this byte, or one of the bytes behind it
      by_cases here : nb ≤ k ∧ k < nb + bits
      · rw [lowBit_head (by omega)]
        simp only [here, show ¬ nb + bits ≤ k by omega, show k < nb + count by omega, and_self, false_and,
          decide_true, decide_false, Bool.true_and, Bool.false_and, Bool.or_false]
      · by_cases later : nb + bits ≤ k ∧ k < nb + bits + (count - bits)
        · rw [show shift + (k - nb) = k - (nb + bits) + 8 by omega, lowBit_tail]
          rw [decide_eq_false here, decide_eq_true later, decide_eq_true (by omega), Bool.false_and,
            Bool.false_or, Bool.true_and]
        · simp only [here, later, show ¬ (nb ≤ k ∧ k < nb + count) by omega, decide_false, Bool.false_and,
            Bool.or_false]
    · rw [if_neg more]
      simp only [show ¬ (nb ≤ k ∧ k < nb + count) by omega, decide_false, Bool.false_and, Bool.or_false]

theorem pitcherGetBitsValLe_testBit (fits : count ≤ 32) :
    (pitcherGetBitsValLe data nr count).testBit k = (decide (k < count) && lowBit data (nr + k)) := by
  have place : 8 * (nr / 8) + (nr % 8 + k) = nr + k := by omega
  rw [pitcherGetBitsValLe, bitsValLoop_testBit (by omega) (Nat.mod_lt nr (by decide)), Nat.zero_testBit,
    Bool.false_or, Nat.zero_add, Nat.sub_zero, lowBit_drop, place]
  simp only [Nat.zero_le, true_and]

theorem pitcherGetBitsValLe_eq (fits : count ≤ 32) :
    pitcherGetBitsValLe data nr count = lowField data nr count := by
  apply Nat.eq_of_testBit_eq
  intro k
  rw [pitcherGetBitsValLe_testBit fits, lowField_testBit]

end Bits

/-! ## Lines of packed samples -/

/-- Planes of lines of bytes, and how many bytes a line has. -/
structure PackedLines where
  line : Nat → Nat
  bytes : Cell → UInt8

/-- The bytes of a row. -/
def PackedLines.row (lines : PackedLines) (plane y : Nat) : List UInt8 :=
  (List.range (lines.line plane)).map fun k => lines.bytes (plane, y, k)

/-- Sample `x` of a row, where `nr` is ten times as much. -/
def PackedLines.sample (lines : PackedLines) : Samples := fun (plane, y, x) =>
  .ofNat (pitcherGetBitsValLe (lines.row plane y) (word (10 * x)) 10 <<< 6)

def swcUnpackNvx2 (width height : Nat) (lines : PackedLines) : Writes :=
  each height fun y =>
    (each width fun x => [((0, y, x), lines.sample (0, y, x))]) ++
      if y < halfUp height then each width fun x => [((1, y, x), lines.sample (1, y, x))] else []

/-- The ten bits that stand for sample `x`. -/
def PackedLines.field (lines : PackedLines) : Cell → Nat := fun (plane, y, x) =>
  lowField (lines.row plane y) (10 * x) 10

section Lines
variable {lines : PackedLines} {w h y x : Nat} {old : Samples} {c : Cell}

theorem swcUnpackNvx2_store : store old (swcUnpackNvx2 w h lines) = gather (takesPlanes w h) lines.sample old :=
  store_gathers (copyPlanes_gathers : Gathers (copyPlanes id { width := w, height := h, samples := lines.sample })
    (takesPlanes w h) (id ∘ lines.sample))

theorem sample_toNat : (lines.sample c).toNat = lowField (lines.row c.1 c.2.1) (word (10 * c.2.2)) 10 <<< 6 := by
  obtain ⟨plane, y, x⟩ := c
  have small := @lowField_lt (lines.row plane y) (word (10 * x)) 10
  rw [PackedLines.sample, pitcherGetBitsValLe_eq (by decide), UInt16.toNat_ofNat', Nat.shiftLeft_eq]
  exact Nat.mod_eq_of_lt (by omega)

theorem sample_field (counted : 10 * c.2.2 < 2 ^ 32) : (lines.sample c).toNat = lines.field c <<< 6 := by
  rw [sample_toNat, Word.word_small counted]
  rfl

/-- All of the line's bits are ones. -/
def onesLines : PackedLines := { line := fun _ => 2 ^ 29, bytes := fun _ => 255 }

theorem onesLines_row {plane : Nat} : onesLines.row plane y = List.replicate (2 ^ 29) 255 := by
  rw [PackedLines.row]
  exact List.map_const'.trans (congrArg (List.replicate · 255) List.length_range)

/-- Where the number of a bit does not fit, bits from the front of the line are read. -/
theorem onesLines_sample (large : 2 ^ 32 ≤ 10 * c.2.2) :
    (onesLines.sample c).toNat ≠ onesLines.field c <<< 6 := by
  obtain ⟨plane, y, x⟩ := c
  have size : (List.replicate (2 ^ 29) (255 : UInt8)).length = 2 ^ 29 := List.length_replicate
  have inside : word (10 * x) < 2 ^ 32 := Nat.mod_lt _ (by decide)
  have first : lowBit (List.replicate (2 ^ 29) 255) (word (10 * x)) = true := by
    rw [lowBit, List.getD_eq_getElem?_getD, List.getElem?_replicate, if_pos (by omega), Option.getD_some]
    have bits : ∀ n < 8, (255 : UInt8).toNat.testBit n = true := by decide
    exact bits _ (Nat.mod_lt _ (by decide))
  have read := @lowField_testBit (List.replicate (2 ^ 29) 255) (word (10 * x)) 0 10
  rw [Nat.add_zero, first] at read
  have none_ : onesLines.field (plane, y, x) = 0 := by
    rw [PackedLines.field, onesLines_row]
    exact lowField_beyond (by rw [size]; exact large)
  rw [sample_toNat, none_, onesLines_row, Nat.shiftLeft_eq, Nat.zero_shiftLeft]
  intro nothing
  rw [(Nat.mul_eq_zero.mp nothing).resolve_right (by decide)] at read
  exact absurd read (by decide)

/-- Every sample of the chroma is the field of its number. -/
def ChromaRead (w h : Nat) : Prop :=
  ∀ (lines : PackedLines) (old : Samples), ∀ y < halfUp h, ∀ x < halfUp w * 2,
    (store old (swcUnpackNvx2 w h lines) (1, y, x)).toNat = lines.field (1, y, x) <<< 6

/-- The rows are whole, and their bits can be counted. -/
def RowsCounted (w h : Nat) : Prop := h = 0 ∨ w % 2 = 0 ∧ 10 * (w - 1) < 2 ^ 32

theorem ChromaRead.counted (read : ChromaRead w h) : RowsCounted w h := by
  rcases Nat.eq_zero_or_pos h with none_ | tall
  · exact .inl none_
  have first : 0 < halfUp h := by
    unfold halfUp
    omega
  have even : w % 2 = 0 := by
    by_contra odd
    have unread := read onesLines (fun _ => 1) 0 first w (by unfold halfUp; omega)
    have free : takesPlanes w h (1, 0, w) = none := if_neg fun inside => Nat.lt_irrefl w inside.2
    rw [swcUnpackNvx2_store, gather_none free, Nat.shiftLeft_eq] at unread
    have one : (1 : UInt16).toNat = 1 := rfl
    omega
  refine .inr ⟨even, ?_⟩
  by_contra large
  have some_ : 0 < w := by
    by_contra none_
    omega
  have last := read onesLines (fun _ => 0) 0 first (w - 1) (by unfold halfUp; omega)
  have taken : takesPlanes w h (1, 0, w - 1) = some (1, 0, w - 1) := if_pos ⟨first, by omega⟩
  rw [swcUnpackNvx2_store, gather_some taken] at last
  exact onesLines_sample (Nat.le_of_not_lt large) last

theorem RowsCounted.shown (counted : RowsCounted w h) (shown : Shown w h c) :
    (store old (swcUnpackNvx2 w h lines) c).toNat = lines.field c <<< 6 := by
  rcases c with ⟨_ | _ | p, y, x⟩
  · obtain ⟨low, inside⟩ : y < h ∧ x < w := shown
    obtain ⟨-, small⟩ := counted.resolve_left (Nat.ne_of_gt (Nat.zero_lt_of_lt low))
    have taken : takesPlanes w h (0, y, x) = some (0, y, x) := if_pos ⟨low, inside⟩
    rw [swcUnpackNvx2_store, gather_some taken, sample_field (show 10 * x < 2 ^ 32 by omega)]
  · obtain ⟨low, inside⟩ : y < halfUp h ∧ x < halfUp w * 2 := shown
    obtain ⟨even, small⟩ := counted.resolve_left fun none_ => by
      subst none_
      exact Nat.not_lt_zero y low
    have whole : x < w := by
      unfold halfUp at inside
      omega
    have taken : takesPlanes w h (1, y, x) = some (1, y, x) := if_pos ⟨low, whole⟩
    rw [swcUnpackNvx2_store, gather_some taken, sample_field (show 10 * x < 2 ^ 32 by omega)]
  · exact shown.elim

end Lines

end ImxTest.Pitcher.Convert

namespace ImxTest.Pitcher.Tiles

open Lib.BitString hiding word
open Word (word)

/-! ## Most significant first -/

/-- The two bytes that `get_10BE_pos` finds for a sample, and how many of its bits each has. -/
structure Pos where
  pos0 : Int
  pos1 : Int
  bits0 : Int
  bits1 : Int

/-- `bit_index` is an `int`, of a product of 32 bits. -/
def get10BEPos (x : Nat) : Pos :=
  let depth := 10
  let bitIndex := Int.bmod (depth * x) (2 ^ 32)
  { pos0 := bitIndex.tdiv 8, pos1 := bitIndex.tdiv 8 + 1
    bits0 := 8 - bitIndex.tmod 8, bits1 := depth - (8 - bitIndex.tmod 8) }

/-- A mask of eight bits; a shift by less than nothing has no value. -/
def mask10BE (bits : Int) : Option Nat := if 0 ≤ bits then some ((1 <<< bits.toNat - 1) % 2 ^ 8) else none

/-- The byte at a place in the row. -/
def byteAt (row : List UInt8) (pos : Int) : Option Nat :=
  if 0 ≤ pos then row[pos.toNat]?.map UInt8.toNat else none

/-- Sample `x` of a row. -/
def sample10BE (row : List UInt8) (x : Nat) : Option Nat := do
  let found := get10BEPos x
  let mask0 ← mask10BE found.bits0
  let mask1 ← mask10BE found.bits1
  let byte0 ← byteAt row found.pos0
  let byte1 ← byteAt row found.pos1
  some (getU8Bits byte0 mask0 0 <<< found.bits1.toNat ||| getU8Bits byte1 mask1 (8 - found.bits1.toNat))

/-- The ten bits of sample `x`, most significant first. -/
def field10BE (row : List UInt8) (x : Nat) : Nat := value (((ofBytes row).drop (10 * x)).take 10)

section Samples
variable {row : List UInt8} {x n v : Nat} {b0 b1 : UInt8}

theorem mask10BE_eq {bits : Nat} (byte : bits ≤ 8) : mask10BE bits = some (2 ^ bits - 1) := by
  have small : 2 ^ bits ≤ 2 ^ 8 := Nat.pow_le_pow_right (by decide) byte
  rw [mask10BE, if_pos (Int.natCast_nonneg bits), Int.toNat_natCast, Nat.one_shiftLeft, Nat.mod_eq_of_lt (by omega)]

theorem byteAt_eq : byteAt row n = row[n]?.map UInt8.toNat := by
  rw [byteAt, if_pos (Int.natCast_nonneg n), Int.toNat_natCast]

/-- The number of a bit is even where it is that of a first one. -/
theorem bitIndex_even (place : Int.bmod (10 * x) (2 ^ 32) = n) : n % 2 = 0 := by
  obtain ⟨-, -, k, turns⟩ := (Int.bmod_eq_iff (by decide)).mp place
  push_cast at turns
  omega

theorem get10BEPos_eq (place : Int.bmod (10 * x) (2 ^ 32) = n) :
    get10BEPos x = ⟨(n / 8 : Nat), (n / 8 + 1 : Nat), (8 - n % 8 : Nat), (2 + n % 8 : Nat)⟩ := by
  unfold get10BEPos
  dsimp only
  rw [place, Int.tdiv_eq_ediv_of_nonneg (Int.natCast_nonneg n), Int.tmod_eq_emod_of_nonneg (Int.natCast_nonneg n)]
  have pos0 : (n : Int) / 8 = (n / 8 : Nat) := by omega
  have pos1 : (n : Int) / 8 + 1 = (n / 8 + 1 : Nat) := by omega
  have bits0 : 8 - (n : Int) % 8 = (8 - n % 8 : Nat) := by omega
  have bits1 : 10 - (8 - (n : Int) % 8) = (2 + n % 8 : Nat) := by omega
  rw [pos1, pos0, bits1, bits0]

/-- The bits of a sample that is found at bit `n` of the row. -/
theorem sample10BE_at (place : Int.bmod (10 * x) (2 ^ 32) = n) (first : row[n / 8]? = some b0)
    (second : row[n / 8 + 1]? = some b1) :
    sample10BE row x =
      some ((b0.toNat % 2 ^ (8 - n % 8)) <<< (2 + n % 8) ||| b1.toNat / 2 ^ (6 - n % 8) % 2 ^ (2 + n % 8)) := by
  have even := bitIndex_even place
  have mask0 := mask10BE_eq (show 8 - n % 8 ≤ 8 by omega)
  have mask1 := mask10BE_eq (show 2 + n % 8 ≤ 8 by omega)
  have shift : 8 - (2 + n % 8) = 6 - n % 8 := by omega
  unfold sample10BE
  simp only [get10BEPos_eq place, mask0, mask1, byteAt_eq, first, second, Option.map_some, Option.bind_eq_bind,
    Option.bind_some, Int.toNat_natCast, getU8Bits, Nat.and_two_pow_sub_one_eq_mod,
    Nat.shiftRight_eq_div_pow, pow_zero, Nat.div_one, shift]

/-- The bits of a row from bit `n` on: those left of one byte, and those of the bytes behind it. -/
theorem drop_ofBytes {rest : List UInt8} (split : row = row.take (n / 8) ++ b0 :: rest) (inside : n / 8 < row.length) :
    (ofBytes row).drop n = bitsOf (8 - n % 8) b0.toNat ++ ofBytes rest := by
  have whole : bitsOf 8 b0.toNat = bitsOf (n % 8) (b0.toNat / 2 ^ (8 - n % 8)) ++ bitsOf (8 - n % 8) b0.toNat := by
    rw [← bitsOf_append, Nat.add_sub_cancel' (Nat.le_of_lt (Nat.mod_lt n (by decide)))]
  have before : (ofBytes (row.take (n / 8)) ++ bitsOf (n % 8) (b0.toNat / 2 ^ (8 - n % 8))).length = n := by
    rw [List.length_append, ofBytes_length, bitsOf_length, List.length_take_of_le (Nat.le_of_lt inside),
      Nat.div_add_mod]
  rw [split, ofBytes_append, ofBytes_cons, whole, List.append_assoc, ← List.append_assoc,
    List.drop_left' before]

/-- A field as its parts of two bytes. -/
theorem value_pair (even : n % 2 = 0) (first : row[n / 8]? = some b0) (second : row[n / 8 + 1]? = some b1) :
    value (((ofBytes row).drop n).take 10) =
      (b0.toNat % 2 ^ (8 - n % 8)) <<< (2 + n % 8) ||| b1.toNat / 2 ^ (6 - n % 8) % 2 ^ (2 + n % 8) := by
  obtain ⟨inside, rfl⟩ := List.getElem?_eq_some_iff.mp first
  obtain ⟨next, rfl⟩ := List.getElem?_eq_some_iff.mp second
  have split : row = row.take (n / 8) ++ row[n / 8] :: row[n / 8 + 1] :: row.drop (n / 8 + 2) := by
    rw [← List.drop_eq_getElem_cons next, ← List.drop_eq_getElem_cons inside, List.take_append_drop]
  have parts : bitsOf 8 row[n / 8 + 1].toNat =
      bitsOf (2 + n % 8) (row[n / 8 + 1].toNat / 2 ^ (6 - n % 8)) ++ bitsOf (6 - n % 8) row[n / 8 + 1].toNat := by
    rw [← bitsOf_append, show 2 + n % 8 + (6 - n % 8) = 8 by omega]
  have ten : (bitsOf (8 - n % 8) row[n / 8].toNat ++
      bitsOf (2 + n % 8) (row[n / 8 + 1].toNat / 2 ^ (6 - n % 8))).length = 10 := by
    rw [List.length_append, bitsOf_length, bitsOf_length]
    omega
  rw [drop_ofBytes split inside, ofBytes_cons, parts, List.append_assoc, ← List.append_assoc, List.take_left' ten,
    value_append, value_bitsOf, value_bitsOf, bitsOf_length, ← Nat.shiftLeft_eq]
  exact Nat.shiftLeft_add_eq_or_of_lt (Nat.mod_lt _ (Nat.two_pow_pos _)) _

theorem sample10BE_field (small : 10 * x < 2 ^ 31) (inside : 10 * x + 10 ≤ 8 * row.length) :
    sample10BE row x = some (field10BE row x) := by
  have place : Int.bmod (10 * x) (2 ^ 32) = (10 * x : Nat) := Int.bmod_eq_of_le (by omega) (by push_cast; omega)
  have first : row[10 * x / 8]? = some row[10 * x / 8] := List.getElem?_eq_getElem (by omega)
  have second : row[10 * x / 8 + 1]? = some row[10 * x / 8 + 1] := List.getElem?_eq_getElem (by omega)
  rw [sample10BE_at place first second, field10BE, value_pair (by omega) first second]

/-- Bytes of ones. -/
theorem field10BE_ones (first : row[10 * x / 8]? = some 255) (second : row[10 * x / 8 + 1]? = some 255) :
    field10BE row x = 1023 := by
  have even : 10 * x % 2 = 0 := by omega
  rw [field10BE, value_pair even first second]
  rcases (show 10 * x % 8 = 0 ∨ 10 * x % 8 = 2 ∨ 10 * x % 8 = 4 ∨ 10 * x % 8 = 6 by omega) with
    phase | phase | phase | phase
  · rw [phase]
    decide
  · rw [phase]
    decide
  · rw [phase]
    decide
  · rw [phase]
    decide

/-- In front of the row there are no bytes, and a first byte alone has only eight bits. -/
theorem sample10BE_negative {k : Nat} (place : Int.bmod (10 * x) (2 ^ 32) = -k) (behind : 0 < k)
    (read : sample10BE row x = some v) : v < 256 := by
  have even : k % 2 = 0 := by
    obtain ⟨-, -, j, turns⟩ := (Int.bmod_eq_iff (by decide)).mp place
    push_cast at turns
    omega
  have found : get10BEPos x = ⟨-(k / 8 : Nat), -(k / 8 : Nat) + 1, 8 - -(k % 8 : Nat), 10 - (8 - -(k % 8 : Nat))⟩ := by
    unfold get10BEPos
    dsimp only
    rw [place, Int.neg_tdiv, Int.neg_tmod]
    rfl
  unfold sample10BE at read
  rw [found] at read
  obtain ⟨mask0, masked0, read⟩ := Option.bind_eq_some_iff.mp read
  obtain ⟨mask1, masked1, read⟩ := Option.bind_eq_some_iff.mp read
  obtain ⟨byte0, read0, read⟩ := Option.bind_eq_some_iff.mp read
  obtain ⟨byte1, -, read⟩ := Option.bind_eq_some_iff.mp read
  have shifted : 0 ≤ 10 - (8 - -((k % 8 : Nat) : Int)) := by
    by_contra less
    rw [mask10BE, if_neg less] at masked1
    cases masked1
  have inside : 0 ≤ -((k / 8 : Nat) : Int) := by
    by_contra less
    rw [byteAt, if_neg less] at read0
    cases read0
  obtain rfl : k = 2 := by omega
  obtain rfl : 255 = mask0 := Option.some.inj masked0
  obtain rfl : 0 = mask1 := Option.some.inj masked1
  have sum : (byte0 >>> 0 &&& 255) <<< 0 ||| (byte1 >>> 8 &&& 0) = v := Option.some.inj read
  rw [Nat.and_zero, Nat.or_zero, Nat.shiftLeft_zero] at sum
  rw [← sum]
  exact Nat.lt_succ_of_le Nat.and_le_right

theorem sample10BE_small
    (all : ∀ row : List UInt8, 10 * x + 10 ≤ 8 * row.length → sample10BE row x = some (field10BE row x)) :
    10 * x < 2 ^ 31 := by
  by_contra large
  have ones {front : Nat} (before : front ≤ 10 * x / 8) :
      field10BE (List.replicate front 0 ++ List.replicate (2 * x + 2) 255) x = 1023 := by
    have later {n : Nat} (low : front ≤ n) (high : n < 2 * x + 2) :
        (List.replicate front (0 : UInt8) ++ List.replicate (2 * x + 2) 255)[n]? = some 255 := by
      rw [List.getElem?_append_right (by rwa [List.length_replicate]), List.length_replicate,
        List.getElem?_replicate, if_pos (by omega)]
    exact field10BE_ones (later before (by omega)) (later (by omega) (by omega))
  have length {front : Nat} :
      10 * x + 10 ≤ 8 * (List.replicate front (0 : UInt8) ++ List.replicate (2 * x + 2) 255).length := by
    rw [List.length_append, List.length_replicate, List.length_replicate]
    omega
  obtain ⟨b, place⟩ : ∃ b, Int.bmod (10 * x) (2 ^ 32) = b := ⟨_, rfl⟩
  rcases Int.lt_or_le b 0 with negative | found
  · obtain ⟨k, rfl⟩ := Int.exists_eq_neg_ofNat (Int.le_of_lt negative)
    have whole := all (List.replicate 0 0 ++ List.replicate (2 * x + 2) 255) length
    rw [ones (Nat.zero_le _)] at whole
    exact absurd (sample10BE_negative place (by omega) whole) (by decide)
  · -- the bits are read from the front of the row, where there are no ones
    obtain ⟨n, rfl⟩ := Int.eq_ofNat_of_zero_le found
    obtain ⟨-, below, k, turns⟩ := (Int.bmod_eq_iff (by decide)).mp place
    push_cast at below turns
    have back : k ≤ -1 := by omega
    have far : 2 ^ 32 ≤ 10 * x := by omega
    have zero {m : Nat} (low : m < 2 ^ 29) :
        (List.replicate (2 ^ 29) (0 : UInt8) ++ List.replicate (2 * x + 2) 255)[m]? = some 0 := by
      rw [List.getElem?_append_left (by rwa [List.length_replicate]), List.getElem?_replicate, if_pos low]
    have whole := all (List.replicate (2 ^ 29) 0 ++ List.replicate (2 * x + 2) 255) length
    rw [ones (by omega), sample10BE_at place (zero (by omega)) (zero (by omega))] at whole
    simp only [UInt8.toNat_zero, Nat.zero_mod, Nat.zero_shiftLeft, Nat.zero_div, Nat.or_zero, Option.some.injEq] at whole
    exact absurd whole (by decide)

/-- A row of tiles, as far as byte `n`. -/
def tileRow (mem : Nat → UInt8) (src : Buffer) (sfmt : PixFmtInfo) (i y n : Nat) : List UInt8 :=
  (List.range n).map fun p =>
    mem (tilePosToAddr ((pitcherGetFrameLineVaddr src sfmt i 0).getD 0)
      (word (y / sfmt.tileHs * word ((sfmt.planes i).line * sfmt.tileHs))) (sfmt.tileWs * sfmt.tileHs)
      sfmt.tileWs (y % sfmt.tileHs) p)

/-- The samples of `swc_unpack_nv12_10be_8l128` are those of the rows of its tiles. -/
theorem fetchAt_sample {mem : Nat → UInt8} {src dst : Buffer} {sfmt dfmt : PixFmtInfo} {i y : Nat}
    (small : 10 * x < 2 ^ 31) (inside : 10 * x / 8 + 1 < n) :
    sample10BE (tileRow mem src sfmt i y n) x = some ((fetchAt src dst sfmt dfmt i y x).sample mem) := by
  have place : Int.bmod (10 * x) (2 ^ 32) = (10 * x : Nat) := Int.bmod_eq_of_le (by omega) (by push_cast; omega)
  have first : (tileRow mem src sfmt i y n)[10 * x / 8]? = some (mem (fetchAt src dst sfmt dfmt i y x).first) := by
    rw [tileRow, List.getElem?_map, List.getElem?_range (by omega)]
    rfl
  have second : (tileRow mem src sfmt i y n)[10 * x / 8 + 1]? =
      some (mem (fetchAt src dst sfmt dfmt i y x).second) := by
    rw [tileRow, List.getElem?_map, List.getElem?_range inside]
    rfl
  have bits0 : (fetchAt src dst sfmt dfmt i y x).bits0 = 8 - 10 * x % 8 := rfl
  have bits1 : (fetchAt src dst sfmt dfmt i y x).bits1 = 2 + 10 * x % 8 := by
    rw [Fetch.bits1, bits0]
    omega
  rw [sample10BE_at place first second, Fetch.sample, bits0, bits1, getU8Bits, getU8Bits, Nat.shiftRight_zero,
    Nat.and_two_pow_sub_one_eq_mod, Nat.and_two_pow_sub_one_eq_mod, Nat.shiftRight_eq_div_pow,
    show 8 - (2 + 10 * x % 8) = 6 - 10 * x % 8 by omega]

end Samples

end ImxTest.Pitcher.Tiles

namespace ImxTest.Pitcher

open Pitcher.Convert Pitcher.Tiles
open Lib.BitString (lowBit)
open Lib.Writes (store)

/-- Ten bits are read from wherever they lie, as long as the numbers of the bits can be counted;
of lines of an odd number of samples the last one of the chroma is not read. -/
theorem packed_samples_iff (w h x : Nat) :
    (∀ (data : List UInt8) (nr count : Nat), count ≤ 32 → ∀ k,
      (pitcherGetBitsValLe data nr count).testBit k = (decide (k < count) && lowBit data (nr + k))) ∧
    ((∀ (lines : PackedLines) (old : Samples) (c : Cell), Shown w h c →
      (store old (swcUnpackNvx2 w h lines) c).toNat = lines.field c <<< 6) ↔ RowsCounted w h) ∧
    ((∀ row : List UInt8, 10 * x + 10 ≤ 8 * row.length → sample10BE row x = some (field10BE row x)) ↔
      10 * x < 2 ^ 31) := by
  refine ⟨fun data nr count fits k => pitcherGetBitsValLe_testBit fits, ⟨fun read => ?_, fun counted lines old c =>
    counted.shown⟩, sample10BE_small, fun small row inside => sample10BE_field small inside⟩
  exact ChromaRead.counted fun lines old y low z inside => read lines old (1, y, z) ⟨low, inside⟩

/-- A picture of one sample has a pair of chroma, of which one is not read. -/
theorem packed_samples_odd : ∃ (lines : PackedLines) (old : Samples) (c : Cell), Shown 1 1 c ∧
    (store old (swcUnpackNvx2 1 1 lines) c).toNat ≠ lines.field c <<< 6 :=
  ⟨{ line := fun _ => 4, bytes := fun _ => 0 }, fun _ => 1, (1, 0, 1), (by decide : 0 < halfUp 1 ∧ 1 < halfUp 1 * 2),
    by decide⟩

end ImxTest.Pitcher
