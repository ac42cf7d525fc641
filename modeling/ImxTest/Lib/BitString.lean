import Mathlib.Data.Nat.Bitwise
import Mathlib.Data.List.Induction
import Mathlib.Tactic.Ring
import Mathlib.Tactic.Common

/-! Strings of bits, most significant first: the bits of a number, the number of
some bits, and the bits of a string of bytes. -/
namespace ImxTest.Lib.BitString

/-- The `width` low bits of a number. -/
def bitsOf : (width value : Nat) → List Bool
  | 0, _ => []
  | n + 1, v => v.testBit n :: bitsOf n v

def value (bits : List Bool) : Nat := bits.foldl (fun acc b => 2 * acc + b.toNat) 0

def ofBytes (bytes : List UInt8) : List Bool := bytes.flatMap fun b => bitsOf 8 b.toNat

@[simp] theorem bitsOf_zero (v : Nat) : bitsOf 0 v = [] := rfl

@[simp] theorem bitsOf_length (n v : Nat) : (bitsOf n v).length = n := by
  induction n with
  | zero => rfl
  | succ n ih => simp only [bitsOf, List.length_cons, ih]

theorem bitsOf_append (m n v : Nat) : bitsOf (m + n) v = bitsOf m (v / 2 ^ n) ++ bitsOf n v := by
  induction m with
  | zero => simp
  | succ m ih =>
    rw [Nat.add_right_comm, bitsOf, ih, bitsOf, List.cons_append, Nat.testBit_div_two_pow]

theorem bitsOf_mod {n k : Nat} (le : n ≤ k) (v : Nat) : bitsOf n (v % 2 ^ k) = bitsOf n v := by
  induction n with
  | zero => rfl
  | succ n ih =>
    have small : n < k := le
    simp only [bitsOf, ih (by omega), Nat.testBit_mod_two_pow, small, decide_true, Bool.true_and]

private theorem foldl_value (bits : List Bool) (acc : Nat) :
    bits.foldl (fun acc b => 2 * acc + b.toNat) acc = acc * 2 ^ bits.length + value bits := by
  induction bits generalizing acc with
  | nil => simp [value]
  | cons b bits ih =>
    have front : value (b :: bits) = b.toNat * 2 ^ bits.length + value bits := by
      simpa [value] using ih b.toNat
    rw [List.foldl_cons, ih, front, List.length_cons, pow_succ]
    ring

theorem value_append (xs ys : List Bool) :
    value (xs ++ ys) = value xs * 2 ^ ys.length + value ys := by
  rw [value, List.foldl_append, foldl_value]
  rfl

theorem value_cons (b : Bool) (bits : List Bool) :
    value (b :: bits) = b.toNat * 2 ^ bits.length + value bits := by
  rw [← List.singleton_append, value_append]
  simp [value]

theorem value_bitsOf (n v : Nat) : value (bitsOf n v) = v % 2 ^ n := by
  induction n with
  | zero => simp [value, Nat.mod_one]
  | succ n ih =>
    rw [bitsOf, value_cons, bitsOf_length, ih, Nat.toNat_testBit, pow_succ, Nat.mod_mul]
    ring

theorem value_lt (bits : List Bool) : value bits < 2 ^ bits.length := by
  induction bits with
  | nil => simp [value]
  | cons b bits ih =>
    rw [value_cons, List.length_cons, pow_succ]
    cases b <;> simp <;> omega

@[simp] theorem ofBytes_nil : ofBytes [] = [] := rfl

@[simp] theorem ofBytes_cons (b : UInt8) (bytes : List UInt8) :
    ofBytes (b :: bytes) = bitsOf 8 b.toNat ++ ofBytes bytes := rfl

@[simp] theorem ofBytes_append (xs ys : List UInt8) : ofBytes (xs ++ ys) = ofBytes xs ++ ofBytes ys := by
  simp only [ofBytes, List.flatMap_append]

@[simp] theorem ofBytes_length (bytes : List UInt8) : (ofBytes bytes).length = 8 * bytes.length := by
  induction bytes with
  | nil => rfl
  | cons b bytes ih =>
    rw [ofBytes_cons, List.length_append, ih, bitsOf_length, List.length_cons]
    omega

/-- The big-endian number of some bytes. -/
def word (bytes : List UInt8) : Nat := bytes.foldl (fun acc b => acc * 2 ^ 8 + b.toNat) 0

theorem word_concat (bytes : List UInt8) (b : UInt8) :
    word (bytes ++ [b]) = word bytes * 2 ^ 8 + b.toNat := by
  simp only [word, List.foldl_append, List.foldl_cons, List.foldl_nil]

theorem word_append (xs ys : List UInt8) : word (xs ++ ys) = word xs * 2 ^ (8 * ys.length) + word ys := by
  induction ys using List.reverseRecOn with
  | nil => simp [word]
  | append_singleton ys b ih =>
    rw [← List.append_assoc, word_concat, ih, word_concat, List.length_append, List.length_singleton,
      Nat.mul_add, pow_add]
    ring

theorem word_lt (bytes : List UInt8) : word bytes < 2 ^ (8 * bytes.length) := by
  induction bytes using List.reverseRecOn with
  | nil => decide
  | append_singleton bytes b ih =>
    have small := b.toNat_lt
    rw [word_concat, List.length_append, List.length_singleton, Nat.mul_add, pow_add]
    omega

/-- A number as `n` bytes. -/
def bytesOf : (n v : Nat) → List UInt8
  | 0, _ => []
  | n + 1, v => bytesOf n (v / 2 ^ 8) ++ [v.toUInt8]

@[simp] theorem bytesOf_length (n v : Nat) : (bytesOf n v).length = n := by
  induction n generalizing v with
  | zero => rfl
  | succ n ih => simp only [bytesOf, List.length_append, ih, List.length_singleton]

theorem word_bytesOf {n v : Nat} (fits : v < 2 ^ (8 * n)) : word (bytesOf n v) = v := by
  induction n generalizing v with
  | zero =>
    rw [Nat.mul_zero, pow_zero] at fits
    rw [Nat.lt_one_iff.mp fits]
    rfl
  | succ n ih =>
    rw [Nat.mul_succ, pow_add] at fits
    rw [bytesOf, word_concat, ih (Nat.div_lt_of_lt_mul (by rwa [Nat.mul_comm])), Nat.toUInt8,
      UInt8.toNat_ofNat', Nat.mul_comm, Nat.div_add_mod]

theorem bytesOf_word (bytes : List UInt8) : bytesOf bytes.length (word bytes) = bytes := by
  induction bytes using List.reverseRecOn with
  | nil => rfl
  | append_singleton bytes b ih =>
    have small := b.toNat_lt
    have front : (word bytes * 2 ^ 8 + b.toNat) / 2 ^ 8 = word bytes := by omega
    rw [word_concat, List.length_append, List.length_singleton, bytesOf, front, ih]
    congr 2
    apply UInt8.toNat_inj.mp
    rw [Nat.toUInt8, UInt8.toNat_ofNat']
    omega

theorem ofBytes_word (bytes : List UInt8) : ofBytes bytes = bitsOf (8 * bytes.length) (word bytes) := by
  induction bytes using List.reverseRecOn with
  | nil => rfl
  | append_singleton bytes b ih =>
    have small := b.toNat_lt
    rw [ofBytes_append, ih, word_concat, List.length_append, List.length_singleton, Nat.mul_add,
      bitsOf_append]
    congr 1
    · rw [Nat.mul_comm (word bytes), Nat.mul_add_div (by decide), Nat.div_eq_of_lt small, Nat.add_zero]
    · rw [← bitsOf_mod (le_refl 8) (word bytes * 2 ^ 8 + b.toNat), Nat.mul_add_mod_self_right,
        Nat.mod_eq_of_lt small]
      simp

/-! ## Least significant first -/

/-- Bit `n` of a string of bytes, each of them least significant first; zero behind it. -/
def lowBit (bytes : List UInt8) (n : Nat) : Bool := (bytes.getD (n / 8) 0).toNat.testBit (n % 8)

/-- The number whose bits are the `count` bits from bit `n` on. -/
def lowField (bytes : List UInt8) (n : Nat) : (count : Nat) → Nat
  | 0 => 0
  | count + 1 => 2 * lowField bytes (n + 1) count + (lowBit bytes n).toNat

section Low
variable {bytes : List UInt8} {b : UInt8} {n k count : Nat}

@[simp] theorem lowBit_nil : lowBit [] n = false := by
  rw [lowBit, List.getD_nil]
  exact Nat.zero_testBit _

theorem lowBit_head (inside : n < 8) : lowBit (b :: bytes) n = b.toNat.testBit n := by
  rw [lowBit, Nat.div_eq_of_lt inside, Nat.mod_eq_of_lt inside]
  rfl

theorem lowBit_tail : lowBit (b :: bytes) (n + 8) = lowBit bytes n := by
  rw [lowBit, Nat.add_mod_right, Nat.add_div_right n (by decide)]
  rfl

theorem lowBit_drop : lowBit (bytes.drop k) n = lowBit bytes (8 * k + n) := by
  rw [lowBit, lowBit, List.getD_eq_getElem?_getD, List.getElem?_drop, ← List.getD_eq_getElem?_getD,
    Nat.mul_add_div (by decide), Nat.mul_add_mod]

theorem lowBit_beyond (behind : 8 * bytes.length ≤ n) : lowBit bytes n = false := by
  rw [lowBit, List.getD_eq_default _ _ (by omega)]
  exact Nat.zero_testBit _

theorem lowField_testBit : (lowField bytes n count).testBit k = (decide (k < count) && lowBit bytes (n + k)) := by
  induction count generalizing n k with
  | zero => simp [lowField]
  | succ count ih =>
    rw [lowField]
    cases k with
    | zero =>
      rw [Nat.testBit_zero, Nat.mul_add_mod, Nat.add_zero]
      cases lowBit bytes n <;> simp
    | succ k =>
      have half : (2 * lowField bytes (n + 1) count + (lowBit bytes n).toNat) / 2 = lowField bytes (n + 1) count := by
        have bit := (lowBit bytes n).toNat_le
        omega
      rw [Nat.testBit_succ, half, ih, Nat.add_right_comm, Nat.add_assoc]
      simp only [Nat.add_lt_add_iff_right]

theorem lowField_lt : lowField bytes n count < 2 ^ count := by
  induction count generalizing n with
  | zero => exact Nat.one_pos
  | succ count ih =>
    have bit := (lowBit bytes n).toNat_le
    have rest := @ih (n + 1)
    rw [lowField, pow_succ]
    omega

/-- Behind the string all bits are zero. -/
theorem lowField_beyond (behind : 8 * bytes.length ≤ n) : lowField bytes n count = 0 := by
  apply Nat.eq_of_testBit_eq
  intro k
  rw [lowField_testBit, lowBit_beyond (by omega), Bool.and_false, Nat.zero_testBit]

end Low

/-! ## Reading -/

/-- The number of the first `n` bits, and what follows them. -/
def take (n : Nat) (bits : List Bool) : Option (Nat × List Bool) :=
  if n ≤ bits.length then some (value (bits.take n), bits.drop n) else none

/-- The number of zeros in front of the first one, and what follows that one. -/
def leadingZeros : List Bool → Option (Nat × List Bool)
  | [] => none
  | true :: bits => some (0, bits)
  | false :: bits => (leadingZeros bits).map fun (zeros, rest) => (zeros + 1, rest)

/-- An Exp-Golomb code of at most `limit` zeros, as a number from one on. -/
def golomb (limit : Nat) (bits : List Bool) : Option (Nat × List Bool) := do
  let (zeros, bits) ← leadingZeros bits
  if limit < zeros then none
  else do
    let (tail, bits) ← take zeros bits
    some (2 ^ zeros + tail, bits)

theorem take_extend {n v : Nat} {bits rest : List Bool} (read : take n bits = some (v, rest))
    (more : List Bool) : take n (bits ++ more) = some (v, rest ++ more) := by
  unfold take at read ⊢
  split at read
  case isTrue fits =>
    obtain ⟨rfl, rfl⟩ : value (bits.take n) = v ∧ bits.drop n = rest := by simpa using read
    rw [if_pos (by rw [List.length_append]; omega), List.take_append_of_le_length fits,
      List.drop_append_of_le_length fits]
  case isFalse => contradiction

theorem leadingZeros_extend {bits rest : List Bool} {zeros : Nat}
    (read : leadingZeros bits = some (zeros, rest)) (more : List Bool) :
    leadingZeros (bits ++ more) = some (zeros, rest ++ more) := by
  induction bits generalizing zeros with
  | nil => contradiction
  | cons b bits ih =>
    cases b
    · simp only [leadingZeros, Option.map_eq_some_iff] at read
      obtain ⟨⟨n, rest'⟩, tail, eq⟩ := read
      obtain ⟨rfl, rfl⟩ : n + 1 = zeros ∧ rest' = rest := by simpa using eq
      simp only [List.cons_append, leadingZeros, ih tail, Option.map_some]
    · obtain ⟨rfl, rfl⟩ : 0 = zeros ∧ bits = rest := by simpa [leadingZeros] using read
      rfl

theorem golomb_extend {limit v : Nat} {bits rest : List Bool}
    (read : golomb limit bits = some (v, rest)) (more : List Bool) :
    golomb limit (bits ++ more) = some (v, rest ++ more) := by
  unfold golomb at read ⊢
  cases zeros : leadingZeros bits with
  | none => simp only [zeros, bind, Option.bind, reduceCtorEq] at read
  | some pair =>
    obtain ⟨n, tail⟩ := pair
    simp only [zeros, leadingZeros_extend zeros more, bind, Option.bind] at read ⊢
    by_cases large : limit < n
    · simp only [large, if_true, reduceCtorEq] at read
    · simp only [large, if_false] at read ⊢
      cases digits : take n tail with
      | none => simp only [digits, reduceCtorEq] at read
      | some pair =>
        simp only [digits, take_extend digits more, Option.some.injEq, Prod.mk.injEq] at read ⊢
        exact ⟨read.1, by rw [read.2]⟩

/-! ## Writing -/

/-- The Exp-Golomb code of a number from one on. -/
def golombWord (n : Nat) : List Bool := List.replicate n.log2 false ++ true :: bitsOf n.log2 n

theorem golombWord_length (n : Nat) : (golombWord n).length = 2 * n.log2 + 1 := by
  rw [golombWord, List.length_append, List.length_replicate, List.length_cons, bitsOf_length]
  omega

theorem golombWord_zeros (n : Nat) : ((golombWord n).takeWhile (!·)).length = n.log2 := by
  rw [golombWord, List.takeWhile_append_of_pos (by simp)]
  simp

theorem leadingZeros_replicate (k : Nat) (rest : List Bool) :
    leadingZeros (List.replicate k false ++ true :: rest) = some (k, rest) := by
  induction k with
  | zero => rfl
  | succ k ih => rw [List.replicate_succ, List.cons_append, leadingZeros, ih, Option.map_some]

theorem take_bitsOf (k n : Nat) (rest : List Bool) :
    take k (bitsOf k n ++ rest) = some (n % 2 ^ k, rest) := by
  have fits : k ≤ (bitsOf k n ++ rest).length := by
    rw [List.length_append, bitsOf_length]
    omega
  rw [take, if_pos fits, List.take_left' (bitsOf_length k n), List.drop_left' (bitsOf_length k n),
    value_bitsOf]

theorem golomb_word {limit n : Nat} (positive : n ≠ 0) (small : n.log2 ≤ limit) (rest : List Bool) :
    golomb limit (golombWord n ++ rest) = some (n, rest) := by
  have low := Nat.log2_self_le positive
  have high := @Nat.lt_log2_self n
  have value : 2 ^ n.log2 + n % 2 ^ n.log2 = n := by
    rw [pow_succ] at high
    rw [Nat.mod_eq_sub_mod low, Nat.mod_eq_of_lt (by omega)]
    omega
  rw [golomb, golombWord, List.append_assoc, List.cons_append, leadingZeros_replicate]
  simp only [bind, Option.bind, if_neg (Nat.not_lt.mpr small), take_bitsOf, value]

end ImxTest.Lib.BitString
