import ImxTest.Asrc.Chunks
import ImxTest.Asrc.Shift

/-! What the conversion of the input makes of the samples, and when it makes it right. -/
namespace ImxTest.Asrc

open Lib While Words BitString

/-! ## Samples -/

namespace PcmFormat

/-- The bytes of a sample in memory and in a file. -/
def bytes : PcmFormat → Nat
  | S8 | U8 => 1
  | S16_LE | U16_LE => 2
  | S20_3LE | U20_3LE | S24_3LE | U24_3LE => 3
  | S24_LE | U24_LE | S32_LE | U32_LE | FLOAT_LE => 4
  | other => 0

/-- The low bits of a sample that count. -/
def bits : PcmFormat → Nat
  | S8 | U8 => 8
  | S16_LE | U16_LE => 16
  | S20_3LE | U20_3LE => 20
  | S24_3LE | U24_3LE | S24_LE | U24_LE => 24
  | S32_LE | U32_LE | FLOAT_LE => 32
  | other => 0

/-- The value of a sample as a number with a sign, from its bytes as a number. A sample of a format
without a sign has its zero in the middle; for one in floating point it stands for its bits. -/
def number (f : PcmFormat) (n : Nat) : Int :=
  match f with
  | U8 | U16_LE | U20_3LE | U24_3LE | U24_LE | U32_LE => (n % 2 ^ f.bits : Nat) - 2 ^ (f.bits - 1)
  | FLOAT_LE | other => n
  | _ => Int.bmod n (2 ^ f.bits)

def value (f : PcmFormat) (sample : List UInt8) : Int := f.number (unsigned sample)

end PcmFormat

/-- A value at another width, rounded down where that is narrower. -/
def rescale (width width' : Nat) (v : Int) : Int :=
  if width ≤ width' then v * 2 ^ (width' - width) else v / 2 ^ (width - width')

/-! ## The branches -/

section Numbers

theorem unsigned_append (xs ys : List UInt8) : unsigned (xs ++ ys) = unsigned xs + 2 ^ (8 * xs.length) * unsigned ys := by
  rw [unsigned, List.reverse_append, word_append, List.length_reverse, unsigned, unsigned]
  ring

theorem unsigned_lt (xs : List UInt8) : unsigned xs < 2 ^ (8 * xs.length) := by
  have lt := word_lt xs.reverse
  rwa [List.length_reverse] at lt

theorem unsigned_littleEndian_int (n : Nat) (v : Int) : unsigned (littleEndian n v) = (v % 2 ^ (8 * n)).toNat :=
  word_littleEndian n v

end Numbers

/-- What a branch does with a sample of the format and with the length. -/
structure Branch.Sound (f : PcmFormat) (b : Branch) : Prop where
  count_eq : b.count = f.bytes
  count_range : 1 ≤ f.bytes ∧ f.bytes ≤ 4
  store_length : ∀ n, (b.store n).length = b.inputFormat.bytes
  store_range : 1 ≤ b.inputFormat.bytes ∧ b.inputFormat.bytes ≤ 4
  length_iff : ∀ len : Nat, len < 2 ^ 31 → (b.inputDataLen len = (len / f.bytes * b.inputFormat.bytes : Nat) ↔
    len % f.bytes = 0 ∧ (f.bytes < b.inputFormat.bytes → len * b.inputFormat.bytes < 2 ^ 31))
  value_iff : ∀ x junk, x < 2 ^ (8 * f.bytes) →
    (b.inputFormat.number (unsigned (b.store (x + 2 ^ (8 * f.bytes) * junk))) =
      rescale f.bits b.inputFormat.bits (f.number x) ↔
        (f = .S24_3LE → b.inputFormat = .S24_LE → x % 2 ^ 8 = 0))

section Branches
variable {f : PcmFormat} {b : Branch}

theorem rescale_self (width : Nat) (v : Int) : rescale width width v = v := by
  rw [rescale, if_pos (le_refl _), Nat.sub_self, pow_zero, Int.mul_one]

theorem same_sound (range : 1 ≤ f.bytes ∧ f.bytes ≤ 4) (dma : Option Nat) :
    Branch.Sound f (.same f f.bytes dma) where
  count_eq := rfl
  count_range := range
  store_length n := littleEndian_length ..
  store_range := range
  length_iff len _ := by
    have parts := Nat.div_add_mod' len f.bytes
    change (len : Int) = (len / f.bytes * f.bytes : Nat) ↔ len % f.bytes = 0 ∧ (f.bytes < f.bytes → _)
    constructor
    · intro same
      exact ⟨by omega, fun lt => absurd lt (Nat.lt_irrefl _)⟩
    · rintro ⟨whole, -⟩
      omega
  value_iff x junk small := by
    have kept : unsigned (littleEndian f.bytes ((x + 2 ^ (8 * f.bytes) * junk) % 2 ^ (8 * f.bytes) : Nat)) = x := by
      rw [unsigned_littleEndian (Nat.mod_lt _ (Nat.two_pow_pos _)), Nat.add_mul_mod_self_left, Nat.mod_eq_of_lt small]
    change f.number (unsigned (littleEndian f.bytes _)) = rescale f.bits f.bits (f.number x) ↔ (f = .S24_3LE → f = .S24_LE → _)
    rw [kept, rescale_self]
    refine iff_of_true rfl fun first second => ?_
    subst first
    cases second

/-- Three bytes become four: the length is taken four times and divided by three. -/
theorem length_third {len : Nat} (small : len < 2 ^ 31) : Int.tdiv (int ((len : Int) * 4)) 3 = (len / 3 * 4 : Nat) ↔
    len % 3 = 0 ∧ (3 < 4 → len * 4 < 2 ^ 31) := by
  by_cases fits : len * 4 < 2 ^ 31
  · have kept : int ((len : Int) * 4) = (len * 4 : Nat) := by
      rw [Nat.cast_mul]
      exact int_eq (by omega) (by push_cast; omega)
    have quotient : Int.tdiv ((len * 4 : Nat) : Int) 3 = (len * 4 / 3 : Nat) := (Int.ofNat_tdiv (len * 4) 3).symm
    rw [kept, quotient]
    omega
  · refine ⟨fun same => ?_, fun ⟨_, fits'⟩ => absurd (fits' (by decide)) fits⟩
    obtain ⟨k, wrapped⟩ := exists_int ((len : Int) * 4)
    have inside := int_bounds ((len : Int) * 4)
    have above := Int.tdiv_mul_le (int ((len : Int) * 4)) (b := 3) (by decide)
    have below := Int.lt_tdiv_add_one_mul_self (int ((len : Int) * 4)) (b := 3) (by decide)
    rw [same] at above below
    split_ifs at above <;> omega

theorem mask_low (n : Nat) : n &&& 0xFFFFFF = n % 2 ^ 24 := Nat.and_two_pow_sub_one_eq_mod n 24

theorem mask_middle (n : Nat) : n &&& 0xFFFF00 = n / 2 ^ 8 % 2 ^ 16 * 2 ^ 8 := by
  apply Nat.eq_of_testBit_eq
  intro i
  have mask : (0xFFFF00 : Nat) = (2 ^ 16 - 1) * 2 ^ 8 := by decide
  rw [mask, Nat.testBit_and, Nat.testBit_mul_two_pow, Nat.testBit_two_pow_sub_one, Nat.testBit_mul_two_pow,
    Nat.testBit_mod_two_pow, Nat.testBit_div_two_pow]
  by_cases low : 8 ≤ i
  · rw [Nat.sub_add_cancel low]
    simp only [low, decide_true, Bool.true_and, Bool.and_comm]
  · simp only [low, decide_false, Bool.false_and, Bool.and_false]

theorem u8ToS8_sound : Branch.Sound .U8 .u8ToS8 where
  count_eq := rfl
  count_range := by decide
  store_length n := littleEndian_length ..
  store_range := by decide
  length_iff len _ := by
    change (len : Int) = (len / 1 * 1 : Nat) ↔ len % 1 = 0 ∧ (1 < 1 → _)
    simp [Nat.mod_one]
  value_iff x junk small := by
    simp only [Branch.u8ToS8, PcmFormat.number, PcmFormat.bits, PcmFormat.bytes] at small ⊢
    refine iff_of_true ?_ fun first => by cases first
    rw [rescale_self, unsigned_littleEndian_int, Int.bmod_def]
    split_ifs <;> omega

theorem u8ToS16_sound : Branch.Sound .U8 .u8ToS16 where
  count_eq := rfl
  count_range := by decide
  store_length n := littleEndian_length ..
  store_range := by decide
  length_iff len small := by
    change int ((len : Int) * 2) = (len / 1 * 2 : Nat) ↔ len % 1 = 0 ∧ (1 < 2 → len * 2 < 2 ^ 31)
    obtain ⟨k, wrapped⟩ := exists_int ((len : Int) * 2)
    have inside := int_bounds ((len : Int) * 2)
    generalize int ((len : Int) * 2) = w at *
    omega
  value_iff x junk small := by
    simp only [Branch.u8ToS16, PcmFormat.number, PcmFormat.bits, PcmFormat.bytes] at small ⊢
    refine iff_of_true ?_ fun first => by cases first
    rw [rescale, if_pos (by decide), unsigned_littleEndian_int, Int.bmod_def]
    split_ifs <;> omega

theorem s20ToS24_sound : Branch.Sound .S20_3LE .s20ToS24 where
  count_eq := rfl
  count_range := by decide
  store_length n := littleEndian_length ..
  store_range := by decide
  length_iff len small := length_third small
  value_iff x junk small := by
    simp only [Branch.s20ToS24, PcmFormat.number, PcmFormat.bits, PcmFormat.bytes] at small ⊢
    refine iff_of_true ?_ fun first => by cases first
    rw [rescale, if_pos (by decide), mask_low, unsigned_littleEndian (by omega), Int.bmod_def, Int.bmod_def]
    split_ifs <;> omega

/-- The low byte of the samples is lost. -/
theorem s24ToS24_sound : Branch.Sound .S24_3LE .s24ToS24 where
  count_eq := rfl
  count_range := by decide
  store_length n := littleEndian_length ..
  store_range := by decide
  length_iff len small := length_third small
  value_iff x junk small := by
    simp only [Branch.s24ToS24, PcmFormat.number, PcmFormat.bits, PcmFormat.bytes] at small ⊢
    rw [rescale_self, mask_middle, unsigned_littleEndian (by omega), Int.bmod_def, Int.bmod_def]
    simp only [true_implies]
    split_ifs <;> omega

theorem s32ToS24_sound : Branch.Sound .S32_LE .s32ToS24 where
  count_eq := rfl
  count_range := by decide
  store_length n := littleEndian_length ..
  store_range := by decide
  length_iff len _ := by
    change (len : Int) = (len / 4 * 4 : Nat) ↔ len % 4 = 0 ∧ (4 < 4 → _)
    omega
  value_iff x junk small := by
    simp only [Branch.s32ToS24, PcmFormat.number, PcmFormat.bits, PcmFormat.bytes] at small ⊢
    refine iff_of_true ?_ fun first => by cases first
    rw [rescale, if_neg (by decide), mask_low, unsigned_littleEndian (by omega), Int.bmod_def, Int.bmod_def]
    split_ifs <;> omega

/-- A branch that only takes the format as it is. -/
theorem only_sound {taken : Bool} (range : 1 ≤ f.bytes ∧ f.bytes ≤ 4) {dma : Option Nat}
    (there : (if taken then some (Branch.same f f.bytes dma) else none) = some b) : b.Sound f := by
  split_ifs at there
  obtain rfl := Option.some.inj there
  exact same_sound range dma

/-- A branch that takes the format as it is or converts it. -/
theorem either_sound {taken : Bool} {converted : Branch} (range : 1 ≤ f.bytes ∧ f.bytes ≤ 4) {dma : Option Nat}
    (sound : converted.Sound f) (there : some (if taken then Branch.same f f.bytes dma else converted) = some b) :
    b.Sound f := by
  obtain rfl := Option.some.inj there
  split_ifs
  · exact same_sound range dma
  · exact sound

theorem branch_sound {supported : PcmFormat → Bool} (there : branch supported f = some b) : b.Sound f := by
  cases f with
  | U8 =>
    obtain rfl := Option.some.inj there
    split_ifs
    · exact u8ToS8_sound
    · exact u8ToS16_sound
  | S20_3LE => exact either_sound (by decide) s20ToS24_sound there
  | S24_3LE => exact either_sound (by decide) s24ToS24_sound there
  | S32_LE => exact either_sound (by decide) s32ToS24_sound there
  | S16_LE | U16_LE | U20_3LE | U24_3LE | S24_LE | U24_LE | U32_LE | FLOAT_LE => exact only_sound (by decide) there
  | S8 | other => cases there

end Branches

/-! ## The loops -/

section Loops
variable {file : List UInt8} {count unit : Nat} {store : Nat → List UInt8} {s t : Shifting}

/-- What a read of a sample makes of the variable. -/
def readInto (file : List UInt8) (pos count : Nat) (data : List UInt8) : List UInt8 :=
  bytesAt file pos count ++ data.drop count

/-- A turn that reads a sample and stores one, beside what is stored already. -/
structure Stores (file : List UInt8) (count unit : Nat) (store : Nat → List UInt8) (s next : Shifting) : Prop where
  pos : next.pos = s.pos + count
  i : next.i = s.i + unit
  nleft : next.nleft = int (s.nleft - 1)
  data : next.data.drop count = s.data.drop count
  data_length : next.data.length = s.data.length
  buffer_length : next.buffer.length = s.buffer.length
  here : bytesAt next.buffer s.i unit = store (unsigned (readInto file s.pos count s.data))
  before : ∀ p m, p + m ≤ s.i → bytesAt next.buffer p m = bytesAt s.buffer p m

variable (file) in
theorem shiftTurn_stores (narrow : count ≤ s.data.length) (inside : s.pos + count ≤ file.length)
    (length : ∀ n, (store n).length = unit) (room : s.i + unit ≤ s.buffer.length) :
    ∃ next, Stores file count unit store s next ∧ shiftTurn file count store s =
      if next.nleft = 0 then .ok (.leave next) else .ok (.again next) := by
  have taken : (s.data.take count).length = count := List.length_take_of_le narrow
  have read : fread file s.pos (s.data.take count) = (bytesAt file s.pos count, s.pos + count) := by
    rw [fread_whole (by rwa [taken]), taken]
  have got : (bytesAt file s.pos count).length = count := by
    rw [bytesAt_length]
    omega
  have bytes_length := length (unsigned (readInto file s.pos count s.data))
  generalize bytes_eq : store (unsigned (readInto file s.pos count s.data)) = bytes at bytes_length
  have fits : s.i + bytes.length ≤ s.buffer.length := by
    rw [bytes_length]
    exact room
  refine ⟨⟨s.pos + count, readInto file s.pos count s.data, s.i + bytes.length, int (s.nleft - 1),
    overlay s.buffer s.i bytes⟩, ⟨rfl, congrArg (s.i + ·) bytes_length, rfl, ?_, ?_, overlay_length fits, ?_, ?_⟩, ?_⟩
  · exact List.drop_left' got
  · rw [readInto, List.length_append, got, List.length_drop]
    omega
  · rw [bytes_eq]
    refine bytesAt_mid (s.buffer.take s.i) (s.buffer.drop (s.i + bytes.length)) ?_ ?_ bytes_length.symm
    · exact List.append_assoc ..
    · rw [List.length_take_of_le (by omega)]
  · exact fun p m le => bytesAt_apart fits (.inr le)
  · subst bytes_eq
    unfold shiftTurn
    rw [read]
    exact if_pos fits

variable (file count) in
/-- A turn is outside the buffer, or stores one sample and counts it. -/
theorem shiftTurn_cases (length : ∀ n, (store n).length = unit) (s : Shifting) :
    shiftTurn file count store s = .error .outside ∨ ∃ next, s.i + unit ≤ s.buffer.length ∧ next.i = s.i + unit ∧
      next.nleft = int (s.nleft - 1) ∧ next.buffer.length = s.buffer.length ∧
      shiftTurn file count store s = if next.nleft = 0 then .ok (.leave next) else .ok (.again next) := by
  generalize bytes_eq : store (unsigned ((fread file s.pos (s.data.take count)).1 ++ s.data.drop count)) = bytes
  have bytes_length : bytes.length = unit := bytes_eq ▸ length _
  have turn : shiftTurn file count store s = if s.i + bytes.length ≤ s.buffer.length then
      if int (s.nleft - 1) = 0 then .ok (.leave ⟨(fread file s.pos (s.data.take count)).2,
        (fread file s.pos (s.data.take count)).1 ++ s.data.drop count, s.i + bytes.length, int (s.nleft - 1),
        overlay s.buffer s.i bytes⟩)
      else .ok (.again ⟨(fread file s.pos (s.data.take count)).2,
        (fread file s.pos (s.data.take count)).1 ++ s.data.drop count, s.i + bytes.length, int (s.nleft - 1),
        overlay s.buffer s.i bytes⟩)
      else .error .outside := by
    rw [← bytes_eq]
    rfl
  by_cases fits : s.i + bytes.length ≤ s.buffer.length
  · have kept := overlay_length fits
    rw [if_pos fits] at turn
    rw [bytes_length] at fits turn
    exact .inr ⟨⟨_, _, s.i + unit, int (s.nleft - 1), _⟩, fits, rfl, rfl, kept, turn⟩
  · exact .inl (turn.trans (if_neg fits))

/-- Whatever a loop that comes back has read, it has stored one sample in each of its turns. -/
theorem ends_turns (length : ∀ n, (store n).length = unit) (ended : Ends (shiftTurn file count store) s (.ok t)) :
    ∃ turns : Nat, 0 < turns ∧ int (s.nleft - turns) = 0 ∧ t.i = s.i + turns * unit ∧ t.i ≤ s.buffer.length := by
  obtain ⟨fuel, ended⟩ := ended
  induction fuel generalizing s with
  | zero => cases ended
  | succ fuel ih =>
    rw [run] at ended
    rcases shiftTurn_cases file count length s with
      outside | ⟨next, fits, at_, nleft, same_length, turn⟩
    · rw [outside] at ended
      cases ended
    · rw [turn] at ended
      by_cases last : next.nleft = 0
      · rw [if_pos last] at ended
        obtain rfl : next = t := Except.ok.inj (Option.some.inj ended)
        exact ⟨1, by decide, by rw [Nat.cast_one, ← nleft, last], by omega, by omega⟩
      · rw [if_neg last] at ended
        obtain ⟨turns, positive, zero, at_', inside⟩ := ih ended
        refine ⟨turns + 1, by omega, ?_, ?_, by omega⟩
        · rw [nleft, sub_eq_add_neg (int _), int_int_add] at zero
          rw [← zero]
          congr 1
          push_cast
          ring
        · rw [at_', at_]
          ring

variable (file count) in
/-- A loop over samples that are there, with room for what it stores. -/
theorem turns_end (length : ∀ n, (store n).length = unit) (n : Nat) (small : n + 1 < 2 ^ 31) (s : Shifting)
    (left : s.nleft = (n + 1 : Nat)) (narrow : count ≤ s.data.length) (there : s.pos + (n + 1) * count ≤ file.length)
    (room : s.i + (n + 1) * unit ≤ s.buffer.length) :
    ∃ t, Ends (shiftTurn file count store) s (.ok t) ∧ t.pos = s.pos + (n + 1) * count ∧ t.i = s.i + (n + 1) * unit ∧
      (∀ k ≤ n, bytesAt t.buffer (s.i + k * unit) unit =
        store (unsigned (readInto file (s.pos + k * count) count s.data))) ∧
      (∀ p m, p + m ≤ s.i → bytesAt t.buffer p m = bytesAt s.buffer p m) := by
  induction n generalizing s with
  | zero =>
    obtain ⟨next, stores, turn⟩ := shiftTurn_stores file narrow (by omega) length (by omega)
    have last : next.nleft = 0 := by
      rw [stores.nleft, left]
      exact int_natCast (n := 0) (by decide)
    rw [if_pos last] at turn
    refine ⟨next, ends_leave turn, ?_, ?_, fun k le => ?_, stores.before⟩
    · rw [stores.pos, Nat.one_mul]
    · rw [stores.i, Nat.one_mul]
    · obtain rfl := Nat.le_zero.mp le
      rw [Nat.zero_mul, Nat.zero_mul]
      exact stores.here
  | succ n ih =>
    rw [Nat.succ_mul] at there room
    have whole : count ≤ (n + 1) * count := Nat.le_mul_of_pos_left count (Nat.succ_pos n)
    have whole' : unit ≤ (n + 1) * unit := Nat.le_mul_of_pos_left unit (Nat.succ_pos n)
    obtain ⟨next, stores, turn⟩ := shiftTurn_stores file narrow (by omega) length (by omega)
    have left' : next.nleft = (n + 1 : Nat) := by
      rw [stores.nleft, left]
      exact (congrArg int (by push_cast; ring)).trans (int_natCast (n := n + 1) (by omega))
    rw [if_neg (by omega)] at turn
    obtain ⟨t, ended, pos, i, samples, before⟩ := ih (by omega) next left' (by rw [stores.data_length]; exact narrow)
      (by rw [stores.pos]; omega) (by rw [stores.i, stores.buffer_length]; omega)
    refine ⟨t, (ends_again turn).mpr ended, ?_, ?_, fun k le => ?_, fun p m le => ?_⟩
    · rw [pos, stores.pos]
      ring
    · rw [i, stores.i]
      ring
    · cases k with
      | zero =>
        rw [Nat.zero_mul, Nat.zero_mul, Nat.add_zero, before s.i unit stores.i.ge]
        exact stores.here
      | succ k =>
        have sample := samples k (by omega)
        rw [stores.i, stores.pos, readInto, stores.data] at sample
        have at_ : s.i + (k + 1) * unit = s.i + unit + k * unit := by ring
        have from_ : s.pos + (k + 1) * count = s.pos + count + k * count := by ring
        rw [at_, from_]
        exact sample
    · rw [before p m (by rw [stores.i]; omega), stores.before p m le]

end Loops

/-! ## The conversion -/

section Conversion
variable {file : List UInt8} {heap : Heap} {supported : PcmFormat → Bool} {pos slot len dma : Nat} {data : List UInt8}
  {f : PcmFormat} {b : Branch}

variable (file heap supported pos data slot f len) in
/-- The whole samples of the data are read, each is stored at the width of the new format, and the
length is the number of bytes that are stored. -/
def Converts : Prop := ∃ s, Settles (shiftInput file heap supported pos data slot f len) (.ok (some s)) ∧
  s.pos = pos + len / f.bytes * f.bytes ∧ s.stored = len / f.bytes * s.inputFormat.bytes ∧
  s.inputDataLen = s.stored ∧ ∀ k < len / f.bytes,
    s.inputFormat.value (bytesAt s.buffer (k * s.inputFormat.bytes) s.inputFormat.bytes) =
      rescale f.bits s.inputFormat.bits (f.value (bytesAt file (pos + k * f.bytes) f.bytes))

variable (file supported pos slot f len) in
/-- There is a branch for the format, the slots hold as many samples as the format has in the data,
there is one and no part of one, the new length is an int on the way, and where samples of 24 bits in
three bytes are put in four their low bytes are zero. -/
def Convertible : Prop := ∃ b dma, branch supported f = some b ∧
  slotCount slot len = some (((len / f.bytes : Nat) : Int), dma) ∧ f.bytes ≤ len ∧ len % f.bytes = 0 ∧
  (f.bytes < b.inputFormat.bytes → len * b.inputFormat.bytes < 2 ^ 31) ∧
  (f = .S24_3LE → b.inputFormat = .S24_LE → ∀ k < len / f.bytes,
    unsigned (bytesAt file (pos + k * f.bytes) f.bytes) % 2 ^ 8 = 0)

theorem slotCount_bounds {nleft : Int} (slots : slotCount slot len = some (nleft, dma)) :
    0 ≤ nleft ∧ nleft ≤ len ∧ dma ≤ DMA_BUF_SIZE := by
  unfold slotCount at slots
  have third : Int.tdiv (len : Int) 3 = (len / 3 : Nat) := (Int.ofNat_tdiv len 3).symm
  split at slots <;> cases slots
  · exact ⟨by omega, le_refl _, by decide⟩
  · rw [shiftRight_natCast]
    exact ⟨by omega, by exact_mod_cast Nat.div_le_self len _, le_refl _⟩
  · rw [third]
    exact ⟨by omega, by exact_mod_cast Nat.div_le_self len _, le_refl _⟩
  · rw [shiftRight_natCast]
    exact ⟨by omega, by exact_mod_cast Nat.div_le_self len _, le_refl _⟩

/-- Where the loop starts. -/
def Shifting.start (heap : Heap) (pos : Nat) (data : List UInt8) (nleft : Int) (dma : Nat) : Shifting :=
  ⟨pos, data, 0, nleft, heap.malloc ((4 * nleft + dma) % 2 ^ 64).toNat⟩

/-- What the conversion is behind its loop. -/
def Shifting.shifted (b : Branch) (len dma : Nat) (t : Shifting) : Shifted :=
  ⟨t.pos, t.buffer, t.i, b.inputFormat, b.inputDataLen len, b.inputDmaBufSize.getD dma⟩

theorem settles_shiftInput {s : Shifted} : Settles (shiftInput file heap supported pos data slot f len) (.ok (some s)) ↔
    ∃ nleft dma b t, slotCount slot len = some (nleft, dma) ∧ branch supported f = some b ∧
      Ends (shiftTurn file b.count b.store) (.start heap pos data nleft dma) (.ok t) ∧ s = t.shifted b len dma := by
  unfold shiftInput
  cases slots : slotCount slot len with
  | none =>
    refine iff_of_false ?_ ?_
    · rintro ⟨fuel, same⟩
      cases same
    · rintro ⟨nleft, dma, b, t, there, -⟩
      cases there
  | some counted =>
    obtain ⟨nleft, dma⟩ := counted
    cases there : branch supported f with
    | none =>
      refine iff_of_false ?_ ?_
      · rintro ⟨fuel, same⟩
        cases same
      · rintro ⟨nleft, dma, b, t, -, there, -⟩
        cases there
    | some b =>
      refine (settles_loop fun t => steady_const (pure (some (Shifting.shifted b len dma t)))).trans ?_
      constructor
      · rintro (⟨t, ended, fuel, same⟩ | ⟨e, -, failed⟩)
        · obtain rfl : t.shifted b len dma = s := by simpa using same
          exact ⟨nleft, dma, b, t, rfl, rfl, ended, rfl⟩
        · cases failed
      · rintro ⟨nleft', dma', b', t, slots', there', ended, rfl⟩
        cases slots'
        cases there'
        exact .inl ⟨t, ended, 0, rfl⟩

/-- A loop that stores as many samples as there are is one that has counted them. -/
theorem count_of_stored {nleft : Int} {t : Shifting} (there : branch supported f = some b) (small : len < 2 ^ 31)
    (slots : slotCount slot len = some (nleft, dma))
    (ended : Ends (shiftTurn file b.count b.store) (.start heap pos data nleft dma) (.ok t))
    (all : t.i = len / f.bytes * b.inputFormat.bytes) : nleft = (len / f.bytes : Nat) ∧ f.bytes ≤ len := by
  have sound := branch_sound there
  obtain ⟨turns, positive, zero, i, -⟩ := ends_turns sound.store_length ended
  have stored_i : 0 + turns * b.inputFormat.bytes = t.i := i.symm
  have turns_eq : turns = len / f.bytes := by
    rw [Nat.zero_add, all] at stored_i
    exact Nat.eq_of_mul_eq_mul_right sound.store_range.1 stored_i
  obtain ⟨low, high, -⟩ := slotCount_bounds slots
  have le := Nat.div_le_self len f.bytes
  have difference : int (nleft - turns) = nleft - turns := int_eq (by omega) (by omega)
  change int (nleft - turns) = 0 at zero
  refine ⟨by omega, ?_⟩
  by_contra short
  rw [Nat.div_eq_of_lt (by omega)] at turns_eq
  omega

/-- The loop where it counts the samples of the format. -/
theorem whole_loop (heap : Heap) (there : branch supported f = some b) (small : len < 2 ^ 31) (some_ : f.bytes ≤ len)
    (holds : pos + len ≤ file.length) (data_length : data.length = 4) (dma_le : dma ≤ DMA_BUF_SIZE) :
    ∃ t, Ends (shiftTurn file b.count b.store) (.start heap pos data (len / f.bytes : Nat) dma) (.ok t) ∧
      t.pos = pos + len / f.bytes * f.bytes ∧ t.i = len / f.bytes * b.inputFormat.bytes ∧
      ∀ k < len / f.bytes, (b.inputFormat.value (bytesAt t.buffer (k * b.inputFormat.bytes) b.inputFormat.bytes) =
        rescale f.bits b.inputFormat.bits (f.value (bytesAt file (pos + k * f.bytes) f.bytes)) ↔
          (f = .S24_3LE → b.inputFormat = .S24_LE →
            unsigned (bytesAt file (pos + k * f.bytes) f.bytes) % 2 ^ 8 = 0)) := by
  have sound := branch_sound there
  have range := sound.count_range
  have positive : 0 < len / f.bytes := Nat.div_pos some_ range.1
  have le := Nat.div_le_self len f.bytes
  have inside := Nat.div_mul_le_self len f.bytes
  obtain ⟨n, samples⟩ := Nat.exists_eq_add_one.mpr positive
  have room : (n + 1) * b.inputFormat.bytes ≤ (n + 1) * 4 := Nat.mul_le_mul_left _ sound.store_range.2
  have buffer_length : (Shifting.start heap pos data (len / f.bytes : Nat) dma).buffer.length = 4 * (n + 1) + dma := by
    unfold DMA_BUF_SIZE at dma_le
    rw [samples]
    change (heap.malloc _).length = _
    rw [heap.length_eq]
    omega
  rw [samples] at inside
  obtain ⟨t, ended, at_, i, stored, -⟩ := turns_end file b.count sound.store_length n (by omega)
    (.start heap pos data (len / f.bytes : Nat) dma) (by rw [samples]; rfl) (by
      rw [sound.count_eq]
      change f.bytes ≤ data.length
      omega) (by
      rw [sound.count_eq]
      change pos + _ ≤ _
      omega) (by
      rw [buffer_length]
      change 0 + _ ≤ _
      omega)
  rw [samples]
  rw [samples] at ended
  refine ⟨t, ended, ?_, ?_, fun k lt => ?_⟩
  · rw [at_, sound.count_eq]
    rfl
  · rw [i]
    exact Nat.zero_add _
  · have before : k * f.bytes + f.bytes ≤ (n + 1) * f.bytes := by
      rw [← Nat.succ_mul]
      exact Nat.mul_le_mul_right _ lt
    have sample_length : (bytesAt file (pos + k * f.bytes) f.bytes).length = f.bytes := by
      rw [bytesAt_length]
      omega
    have sample_lt := unsigned_lt (bytesAt file (pos + k * f.bytes) f.bytes)
    have sample := stored k (by omega)
    have start_pos : (Shifting.start heap pos data (len / f.bytes : Nat) dma).pos = pos := rfl
    have start_i : (Shifting.start heap pos data (len / f.bytes : Nat) dma).i = 0 := rfl
    rw [sound.count_eq, readInto, unsigned_append, start_pos, start_i, Nat.zero_add, sample_length] at sample
    rw [sample_length] at sample_lt
    rw [PcmFormat.value, PcmFormat.value, sample]
    exact sound.value_iff _ _ sample_lt

end Conversion

/-- The conversion is right exactly where the data is whole samples, at least one, of a format that
it has a branch for, their number is that of the slots, the new length does not overflow, and no low
byte is lost. -/
theorem shiftInput_converts_iff (file : List UInt8) (heap : Heap) (supported : PcmFormat → Bool) (pos slot len : Nat)
    (data : List UInt8) (f : PcmFormat) (data_length : data.length = 4) (small : len < 2 ^ 31)
    (holds : pos + len ≤ file.length) :
    Converts file heap supported pos slot len data f ↔ Convertible file supported pos slot len f := by
  constructor
  · rintro ⟨s, settles, -, stored, length, samples⟩
    obtain ⟨nleft, dma, b, t, slots, there, ended, rfl⟩ := settles_shiftInput.mp settles
    obtain ⟨rfl, some_⟩ := count_of_stored there small slots ended stored
    have sound := branch_sound there
    obtain ⟨-, -, dma_le⟩ := slotCount_bounds slots
    obtain ⟨t', ended', -, -, values⟩ := whole_loop heap there small some_ holds data_length dma_le
    obtain rfl : t = t' := Except.ok.inj (ended.unique ended')
    have length : b.inputDataLen len = (t.i : Int) := length
    have stored : t.i = len / f.bytes * b.inputFormat.bytes := stored
    rw [stored] at length
    obtain ⟨whole, wide⟩ := (sound.length_iff len small).mp length
    exact ⟨b, dma, there, slots, some_, whole, wide, fun first second k lt =>
      (values k lt).mp (samples k lt) first second⟩
  · rintro ⟨b, dma, there, slots, some_, whole, wide, low⟩
    have sound := branch_sound there
    obtain ⟨-, -, dma_le⟩ := slotCount_bounds slots
    obtain ⟨t, ended, at_, i, values⟩ := whole_loop heap there small some_ holds data_length dma_le
    refine ⟨t.shifted b len dma, settles_shiftInput.mpr ⟨_, dma, b, t, slots, there, ended, rfl⟩, at_, i, ?_, ?_⟩
    · change b.inputDataLen len = (t.i : Int)
      rw [i]
      exact (sound.length_iff len small).mpr ⟨whole, wide⟩
    · exact fun k lt => (values k lt).mpr fun first second => low first second k lt

def zeros : Heap := ⟨fun n => List.replicate n 0, fun _ => List.length_replicate⟩

/-- A sample of 20 bits where the driver has 24. -/
theorem converts_twenty :
    Converts [0x12, 0x34, 0x05] zeros (fun f => f = .S24_LE) 0 24 3 [0, 0, 0, 0] .S20_3LE :=
  (shiftInput_converts_iff _ _ _ 0 24 3 _ .S20_3LE rfl (by decide) (by decide)).mpr
    ⟨.s20ToS24, DMA_BUF_SIZE, rfl, rfl, by decide, by decide, by decide, fun first => by cases first⟩

/-- One byte is no sample of 16 bits, and the loop has a first turn all the same. -/
theorem not_converts_short : ¬ Converts [7] zeros (fun _ => true) 0 16 1 [0, 0, 0, 0] .S16_LE := by
  rintro ⟨s, settles, -, stored, -⟩
  obtain ⟨nleft, dma, b, t, slots, there, ended, rfl⟩ := settles_shiftInput.mp settles
  have some_ := (count_of_stored there (by decide) slots ended stored).2
  exact absurd some_ (by decide)

/-- What is behind the conversion leaves the input as it is. -/
theorem bitshift_input {file : List UInt8} {heap : Heap} {supported : PcmFormat → Bool} {widths : Widths} {pos fuel : Nat}
    {data : List UInt8} {h h' : Header} {info info' : AudioInfo} {inputFormat outputFormat : PcmFormat} {r : Int}
    {s : Shifted} (ran : (bitshift file heap supported widths pos data h info inputFormat outputFormat fuel).run =
      some (.ok (r, h', info', some s))) :
    (shiftInput file heap supported pos data info.inSlotwidth inputFormat (signed info.inputDataLen) fuel).run =
      some (.ok (some s)) := by
  obtain ⟨shifted, first, ran⟩ := bind_ok ran
  cases shifted with
  | none => cases ran
  | some s' =>
    obtain ⟨outputDataLen, -, ran⟩ := bind_ok ran
    obtain ⟨h₁, -, ran⟩ := bind_ok ran
    obtain ⟨h₂, -, ran⟩ := bind_ok ran
    obtain ⟨h₃, -, ran⟩ := bind_ok ran
    obtain rfl : s' = s := by
      cases ran
      rfl
    exact first

end ImxTest.Asrc
