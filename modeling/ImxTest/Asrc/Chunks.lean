import ImxTest.Asrc.Parse

/-! Well-formed WAV files and how the parser goes from chunk to chunk. A chunk of odd size has a byte
of padding behind it, which the searches do not know of, and they take a size for a signed number. -/
namespace ImxTest.Asrc

open Lib While BitString

/-! ## Numbers -/

theorem word_littleEndian (n : Nat) (v : Int) : word (littleEndian n v).reverse = (v % 2 ^ (8 * n)).toNat := by
  have positive : (0 : Int) < 2 ^ (8 * n) := Int.pow_pos (by decide)
  rw [littleEndian, List.reverse_reverse, word_bytesOf]
  have small := Int.emod_lt_of_pos v positive
  have low := Int.emod_nonneg v positive.ne'
  refine (Int.toNat_lt low).mpr ?_
  push_cast
  exact small

theorem signed_littleEndian (n : Nat) (v : Int) : signed (littleEndian n v) = Int.bmod v (2 ^ (8 * n)) := by
  have positive : (0 : Int) < 2 ^ (8 * n) := Int.pow_pos (by decide)
  unfold signed
  rw [word_littleEndian, littleEndian_length, Int.toNat_of_nonneg (Int.emod_nonneg v positive.ne')]
  have same := Int.emod_bmod v (2 ^ (8 * n))
  push_cast at same
  exact same

/-- A size of four bytes, as the int it is read into. -/
theorem signed_size (n : Nat) (fits : n < 2 ^ 32) : signed (littleEndian 4 n) = n ↔ n < 2 ^ 31 := by
  rw [signed_littleEndian, Int.bmod_def]
  split_ifs <;> omega

theorem unsigned_littleEndian {n v : Nat} (fits : v < 2 ^ (8 * n)) : unsigned (littleEndian n v) = v := by
  unfold unsigned
  rw [word_littleEndian]
  have small : (v : Int) < 2 ^ (8 * n) := by exact_mod_cast fits
  rw [Int.emod_eq_of_lt (by omega) small, Int.toNat_natCast]

/-! ## Bytes of a file -/

section Bytes
variable {file front rest bytes old : List UInt8} {pos n : Nat}

variable (front rest) in
theorem bytesAt_mid (at_ : file = front ++ (bytes ++ rest)) (start : pos = front.length) (length : n = bytes.length) :
    bytesAt file pos n = bytes := by
  subst at_ start length
  rw [bytesAt, List.drop_left, List.take_left]

theorem fread_whole (inside : pos + old.length ≤ file.length) :
    fread file pos old = (bytesAt file pos old.length, pos + old.length) := by
  have got := bytesAt_length file pos old.length
  unfold fread
  dsimp only
  rw [got, Nat.min_eq_left (by omega), List.drop_length, List.append_nil]

end Bytes

/-! ## Hops -/

section Hops
variable (file tag : List UInt8)

/-- Over a chunk by its size: where the next tag is looked for, and the variable of the size. -/
def hop (pos : Nat) (size : List UInt8) : Nat × List UInt8 :=
  let (size, next) := fread file (pos + 4) size
  (fseek next (signed size), size)

/-- The sizes lead from one place to a tag, and no place before it has the tag. -/
inductive Hops : Nat → List UInt8 → Nat → List UInt8 → Prop where
  | here {pos size} (found : bytesAt file pos 4 = tag) : Hops pos size pos size
  | on {pos size target last} (other : bytesAt file pos 4 ≠ tag)
      (inside : (hop file pos size).1 + 4 ≤ file.length)
      (rest : Hops (hop file pos size).1 (hop file pos size).2 target last) : Hops pos size target last

/-- The cursor when the tag at a place has been read. -/
def tagCursor (pos : Nat) (size : List UInt8) : Cursor := ⟨pos + 4, bytesAt file pos 4, size⟩

variable {file tag} {pos target : Nat} {size last : List UInt8} {found : Cursor}

variable (size) in
theorem tagCursor_id (inside : pos + 4 ≤ file.length) : (tagCursor file pos size).chunkId.length = 4 := by
  change (bytesAt file pos 4).length = 4
  rw [bytesAt_length]
  omega

variable (size) in
/-- A cursor after a read of a tag that is there. -/
theorem read_tag {old : List UInt8} (inside : pos + 4 ≤ file.length) (length : old.length = 4) :
    (⟨(fread file pos old).2, (fread file pos old).1, size⟩ : Cursor) = tagCursor file pos size := by
  rw [fread_whole (by rwa [length]), length]
  rfl

variable (tag size) in
theorem searchTurn_tag (inside : pos + 4 ≤ file.length) : searchTurn file tag (tagCursor file pos size) =
    if bytesAt file pos 4 = tag then .ok (.leave (some (tagCursor file pos size)))
    else if (hop file pos size).1 + 4 ≤ file.length then
      .ok (.again (tagCursor file (hop file pos size).1 (hop file pos size).2))
    else .ok (.leave none) := by
  have id_length := tagCursor_id size inside
  have turn : searchTurn file tag (tagCursor file pos size) = if bytesAt file pos 4 = tag then
      .ok (.leave (some (tagCursor file pos size)))
      else if (fread file (hop file pos size).1 (tagCursor file pos size).chunkId).2 < (hop file pos size).1 + 4 then
        .ok (.leave none)
      else .ok (.again ⟨(fread file (hop file pos size).1 (tagCursor file pos size).chunkId).2,
        (fread file (hop file pos size).1 (tagCursor file pos size).chunkId).1, (hop file pos size).2⟩) := rfl
  rw [turn]
  by_cases whole : (hop file pos size).1 + 4 ≤ file.length
  · rw [fread_whole (by rwa [id_length]), id_length, if_neg (Nat.lt_irrefl _), if_pos whole]
    rfl
  · have short : (fread file (hop file pos size).1 (tagCursor file pos size).chunkId).2 < (hop file pos size).1 + 4 := by
      simp only [fread, bytesAt_length, id_length]
      omega
    rw [if_pos short, if_neg whole]

theorem Hops.here_or_inside (hops : Hops file tag pos size target last) :
    bytesAt file pos 4 = tag ∨ (hop file pos size).1 + 4 ≤ file.length := by
  cases hops with
  | here found => exact .inl found
  | on other inside rest => exact .inr inside

theorem Hops.finds (hops : Hops file tag pos size target last) (inside : pos + 4 ≤ file.length) :
    Finds file tag (tagCursor file pos size) (tagCursor file target last) := by
  induction hops with
  | here found => exact ends_leave (by rw [searchTurn_tag _ _ inside, if_pos found])
  | @on pos size target last other inside' rest ih =>
    have turn := searchTurn_tag tag size inside
    rw [if_neg other, if_pos inside'] at turn
    exact (ends_again turn).mpr (ih inside')

/-- A search comes to where the sizes lead. -/
theorem finds_iff (inside : pos + 4 ≤ file.length) : Finds file tag (tagCursor file pos size) found ↔
    ∃ target last, Hops file tag pos size target last ∧ found = tagCursor file target last := by
  constructor
  · rintro ⟨fuel, ran⟩
    induction fuel generalizing pos size with
    | zero => cases ran
    | succ fuel ih =>
      rw [run, searchTurn_tag _ _ inside] at ran
      by_cases here : bytesAt file pos 4 = tag
      · rw [if_pos here] at ran
        obtain rfl : tagCursor file pos size = found := by simpa using ran
        exact ⟨pos, size, .here here, rfl⟩
      · rw [if_neg here] at ran
        by_cases inside' : (hop file pos size).1 + 4 ≤ file.length
        · rw [if_pos inside'] at ran
          obtain ⟨target, last, hops, same⟩ := ih inside' ran
          exact ⟨target, last, .on here inside' hops, same⟩
        · rw [if_neg inside'] at ran
          simp at ran
  · rintro ⟨target, last, hops, rfl⟩
    exact hops.finds inside

end Hops

end ImxTest.Asrc
