import ImxTest.Lib.BitString
import ImxTest.Lib.Reading
import Mathlib.Data.List.Basic

/-! The reads of the DSD player: numbers of two, four and eight bytes in either order, and
chunks that are read into an array on the stack to get over them. -/
namespace ImxTest.Dsd

open Lib Reading BitString

/-- What the player runs on. -/
structure System where
  /-- The room for arrays on the stack. -/
  stack : Nat
  /-- An int counts what they hold. -/
  stack_lt : stack < 2 ^ 31
  /-- The largest count that `read` takes. -/
  most : Nat
  /-- No less than POSIX promises. -/
  most_ge : 2 ^ 15 - 1 ≤ most

def ascii (s : String) : List UInt8 := s.toList.map fun c => c.toNat.toUInt8

def readU16 (be : Bool) : Reader Nat := do
  let buff ← readNew 2
  let byte i := (buff.getD i 0).toNat
  pure (if be then byte 0 <<< 8 ||| byte 1 else byte 1 <<< 8 ||| byte 0)

def readU32 (be : Bool) : Reader Nat := do
  let lval ← readU16 be
  let hval ← readU16 be
  pure (if be then lval <<< 16 ||| hval else hval <<< 16 ||| lval)

def readU64 (be : Bool) : Reader Nat := do
  let lval ← readU32 be
  let hval ← readU32 be
  pure (if be then lval <<< 32 ||| hval else hval <<< 32 ||| lval)

/-- Reads until there is nothing more to read or the file ends: what is in the buffer,
and what is left. -/
def readFull (toRead : Nat) (left : List UInt8) : List UInt8 × List UInt8 :=
  if 0 < toRead then
    let r := left.take toRead
    if r.length = 0 then ([], left)
    else
      let (buffer, left) := readFull (toRead - r.length) (left.drop toRead)
      (r ++ buffer, left)
  else ([], left)
termination_by toRead
decreasing_by
  rename_i some_read
  simp only [r, List.length_take] at some_read ⊢
  omega

/-- A variable-length array of `size` bytes, filled from the file. -/
def skip (sys : System) (size : Nat) : Reader Unit := fun t =>
  if sys.stack < size then .error .fault
  else .ok ((), { t with left := (readFull size t.left).2 })

/-! ## Numbers -/

/-- The number of some bytes, the most significant one first or last. -/
def number (be : Bool) (bytes : List UInt8) : Nat := if be then word bytes else word bytes.reverse

def readNumber (be : Bool) (n : Nat) : Reader Nat := readNew n >>= fun bytes => pure (number be bytes)

theorem number_append (be : Bool) (xs ys : List UInt8) : number be (xs ++ ys) =
    if be then number be xs * 2 ^ (8 * ys.length) + number be ys
    else number be ys * 2 ^ (8 * xs.length) + number be xs := by
  unfold number
  split_ifs
  · exact word_append xs ys
  · rw [List.reverse_append, word_append, List.length_reverse]

theorem number_lt (be : Bool) (bytes : List UInt8) : number be bytes < 2 ^ (8 * bytes.length) := by
  unfold number
  split_ifs
  · exact word_lt bytes
  · simpa only [List.length_reverse] using word_lt bytes.reverse

theorem readNumber_short {n : Nat} {left bytes : List UInt8} (be : Bool) (short : left.length ≤ n)
    (length : bytes.length = n) (junk : Stream' UInt8) : readNumber be n ⟨left, bytes ++ₛ junk⟩ =
      .ok (number be (left ++ bytes.drop left.length), ⟨[], junk⟩) :=
  bind_ok (readNew_short short length junk) _

/-- Two halves of a number read one after the other. -/
theorem readNumber_halves (be : Bool) (n : Nat) :
    (do
      let lval ← readNumber be n
      let hval ← readNumber be n
      pure (if be then lval <<< (8 * n) ||| hval else hval <<< (8 * n) ||| lval)) =
    readNumber be (n + n) := by
  funext ⟨left, junk⟩
  have first := readNew_run n left junk
  have second := readNew_run n (left.drop n) (junk.drop n)
  generalize xs_def : left.take n ++ (junk.take n).drop left.length = xs at first
  generalize ys_def : (left.drop n).take n ++ ((junk.drop n).take n).drop (left.drop n).length = ys at second
  have xs_length : xs.length = n := by
    rw [← xs_def, List.length_append, List.length_take, List.length_drop, Stream'.length_take]
    omega
  have ys_length : ys.length = n := by
    rw [← ys_def, List.length_append, List.length_take, List.length_drop, List.length_drop,
      Stream'.length_take]
    omega
  have xs_lt := number_lt be xs
  have ys_lt := number_lt be ys
  rw [xs_length] at xs_lt
  rw [ys_length] at ys_lt
  have both : number be (xs ++ ys) =
      if be then number be xs <<< (8 * n) ||| number be ys else number be ys <<< (8 * n) ||| number be xs := by
    rw [number_append, xs_length, ys_length, ← Nat.shiftLeft_add_eq_or_of_lt ys_lt,
      ← Nat.shiftLeft_add_eq_or_of_lt xs_lt, Nat.shiftLeft_eq, Nat.shiftLeft_eq]
  unfold readNumber
  rw [readNew_append]
  simp only [bind_assoc, pure_bind]
  rw [bind_ok first, bind_ok second, bind_ok first, bind_ok second, both]

theorem readU16_eq (be : Bool) : readU16 be = readNumber be 2 := by
  funext ⟨left, junk⟩
  have read := readNew_run 2 left junk
  generalize bytes_def : left.take 2 ++ (junk.take 2).drop left.length = bytes at read
  have length : bytes.length = 2 := by
    rw [← bytes_def, List.length_append, List.length_take, List.length_drop, Stream'.length_take]
    omega
  obtain ⟨a, b, rfl⟩ := List.length_eq_two.mp length
  have a_lt := a.toNat_lt
  have b_lt := b.toNat_lt
  unfold readU16 readNumber
  rw [bind_ok read, bind_ok read]
  have little := Nat.shiftLeft_add_eq_or_of_lt a_lt b.toNat
  have big := Nat.shiftLeft_add_eq_or_of_lt b_lt a.toNat
  rw [Nat.shiftLeft_eq] at little big
  cases be <;> simp [number, word, ← little, ← big, Nat.shiftLeft_eq]

theorem readU32_eq (be : Bool) : readU32 be = readNumber be 4 := by
  rw [← readNumber_halves be 2, readU32, readU16_eq]

theorem readU64_eq (be : Bool) : readU64 be = readNumber be 8 := by
  rw [← readNumber_halves be 4, readU64, readU32_eq]

theorem readFull_eq (toRead : Nat) (left : List UInt8) :
    readFull toRead left = (left.take toRead, left.drop toRead) := by
  induction toRead using Nat.strong_induction_on generalizing left with
  | _ toRead ih =>
    rw [readFull]
    rcases Nat.eq_zero_or_pos toRead with rfl | positive
    · rw [if_neg (Nat.lt_irrefl 0), List.take_zero, List.drop_zero]
    · rw [if_pos positive]
      by_cases none_read : (left.take toRead).length = 0
      · have none_left : left = [] := by simpa [Nat.pos_iff_ne_zero.mp positive] using none_read
        simp only [none_left, List.take_nil, List.drop_nil, List.length_nil, if_true]
      · have fewer : (left.take toRead).length ≤ toRead := List.length_take_le toRead left
        simp only [if_neg none_read, ih (toRead - (left.take toRead).length) (by omega)]
        rcases Nat.le_total toRead left.length with long | short
        · rw [List.length_take_of_le long, Nat.sub_self, List.take_zero, List.drop_zero, List.append_nil]
        · rw [List.drop_of_length_le short, List.take_nil, List.drop_nil, List.append_nil]

theorem skip_run (sys : System) (size : Nat) (left : List UInt8) (junk : Stream' UInt8) :
    skip sys size ⟨left, junk⟩ =
      if sys.stack < size then .error .fault else .ok ((), ⟨left.drop size, junk⟩) := by
  simp only [skip, readFull_eq]

/-! ## Strict readers -/

namespace Strict

def number (be : Bool) (n : Nat) : Strict Nat := Strict.take n >>= fun bytes => pure (Dsd.number be bytes)

theorem number_long {n : Nat} {left : List UInt8} (be : Bool) (long : n ≤ left.length) :
    number be n left = .ok (Dsd.number be (left.take n), left.drop n) :=
  Reading.Strict.bind_ok (Reading.Strict.take_long long) _

def skip (sys : System) (size : Nat) : Strict Unit := fun left =>
  if sys.stack < size then .error .large
  else if size ≤ left.length then .ok ((), left.drop size)
  else .error .ended

end Strict

theorem tracks_number (be : Bool) (n : Nat) : Tracks (Strict.number be n) (fun _ => readNumber be n) :=
  (tracks_readNew n).bind fun bytes => Tracks.pure (number be bytes)

theorem skip_short {sys : System} {size : Nat} {left : List UInt8} (short : left.length ≤ size)
    (junk : Stream' UInt8) : Goes (skip sys size ⟨left, junk⟩) ((), ⟨[], junk⟩) := by
  rw [skip_run]
  split_ifs with large
  · exact .inr ⟨.fault, nofun, rfl⟩
  · exact .inl (by rw [List.drop_of_length_le short])

theorem tracks_skip (sys : System) (size : Nat) :
    Tracks (Strict.skip sys size) (fun _ => skip sys size) where
  inside left := by
    unfold Strict.skip
    split_ifs with large long
    · exact .of_large fun _ junk => ⟨.fault, nofun, by rw [skip_run, if_pos large]⟩
    · refine .of_ok 0 (by rw [List.length_drop]; exact Nat.sub_le ..) fun _ junk => ?_
      rw [skip_run, if_neg large]
      rfl
    · exact .of_ended ⟨[], (), fun _ => skip_short (Nat.le_of_not_le long)⟩
  past := ⟨[], (), fun _ => skip_short (Nat.zero_le size)⟩

end ImxTest.Dsd
