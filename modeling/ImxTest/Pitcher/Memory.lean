import ImxTest.Pitcher.Parse

/-! What the container parsers read of a file: bytes at a position that may lie
outside it, and numbers of several bytes in C's `int`. `char` is unsigned, as on
the Arm targets. -/
namespace ImxTest.Pitcher

/-- A load outside the file. -/
inductive Outside where
  | outside
deriving DecidableEq, Repr

/-- The parser of a file in memory; what is behind it reads as zero. -/
def mapped (file : List UInt8) (number : Nat) : PitcherParser :=
  { virt := fun i => file.getD i 0, size := file.length, number }

/-- The value of an `int` whose arithmetic wraps. -/
@[irreducible] def int32 (n : Int) : Int :=
  if n % 2 ^ 32 < 2 ^ 31 then n % 2 ^ 32 else n % 2 ^ 32 - 2 ^ 32

/-- `pos` is the distance of the pointer from `virt`. -/
def load (p : PitcherParser) (pos : Int) : Except Outside UInt8 :=
  if 0 ≤ pos ∧ pos < p.size then .ok (p.virt pos.toNat) else .error .outside

/-- Whether `strncmp` returns zero; `text` is ended by a NUL. -/
def strncmp (p : PitcherParser) : (text : List UInt8) → (pos : Int) → (n : Nat) → Except Outside Bool
  | _, _, 0 => .ok true
  | text, pos, n + 1 => do
    let c ← load p pos
    if c ≠ text.headD 0 then .ok false
    else if c = 0 then .ok true
    else strncmp p text.tail (pos + 1) n

/-- The number that `n` bytes from `pos` on hold, the lowest byte first. -/
def littleEndian (virt : Nat → UInt8) (pos : Nat) : (n : Nat) → Nat
  | 0 => 0
  | n + 1 => (virt pos).toNat + 2 ^ 8 * littleEndian virt (pos + 1) n

/-- Some bytes of the memory. -/
def bytesAt (virt : Nat → UInt8) (a n : Nat) : List UInt8 := (List.range' a n).map virt

@[simp] theorem bytesAt_zero (virt : Nat → UInt8) (a : Nat) : bytesAt virt a 0 = [] := rfl

theorem bytesAt_succ (virt : Nat → UInt8) (a n : Nat) :
    bytesAt virt a (n + 1) = virt a :: bytesAt virt (a + 1) n := by
  simp only [bytesAt, List.range'_succ, List.map_cons]

@[simp] theorem bytesAt_length (virt : Nat → UInt8) (a n : Nat) : (bytesAt virt a n).length = n := by
  simp only [bytesAt, List.length_map, List.length_range']

theorem bytesAt_append (virt : Nat → UInt8) (a m n : Nat) :
    bytesAt virt a (m + n) = bytesAt virt a m ++ bytesAt virt (a + m) n := by
  simp only [bytesAt, ← List.map_append, List.range'_append_1]

theorem littleEndian_lt (virt : Nat → UInt8) (pos n : Nat) : littleEndian virt pos n < 2 ^ (8 * n) := by
  induction n generalizing pos with
  | zero => simp [littleEndian]
  | succ n ih =>
    have byte := (virt pos).toNat_lt
    have rest := ih (pos + 1)
    rw [Nat.mul_succ, Nat.pow_add]
    simp only [littleEndian]
    omega

theorem load_inside {p : PitcherParser} {pos : Nat} (inside : pos < p.size) :
    load p pos = .ok (p.virt pos) := by
  have bounds : (0 : Int) ≤ pos ∧ (pos : Int) < p.size := by omega
  rw [load, if_pos bounds, Int.toNat_natCast]

theorem load_ok {p : PitcherParser} {pos : Int} {b : UInt8} (loaded : load p pos = .ok b) :
    0 ≤ pos ∧ pos < p.size ∧ b = p.virt pos.toNat := by
  unfold load at loaded
  split at loaded
  case isTrue inside => exact ⟨inside.1, inside.2, (Except.ok.inj loaded).symm⟩
  case isFalse => contradiction

theorem bytesAt_cons_inj {virt : Nat → UInt8} {a n : Nat} {c : UInt8} {text : List UInt8} :
    bytesAt virt a (n + 1) = c :: text ↔ virt a = c ∧ bytesAt virt (a + 1) n = text := by
  rw [bytesAt_succ, List.cons.injEq]

/-- A comparison of as many bytes as the text has. -/
theorem strncmp_text {p : PitcherParser} {text : List UInt8} {pos : Nat}
    (inside : pos + text.length ≤ p.size) (plain : ∀ c ∈ text, c ≠ 0) :
    strncmp p text pos text.length = .ok (decide (bytesAt p.virt pos text.length = text)) := by
  induction text generalizing pos with
  | nil => rfl
  | cons c text ih =>
    rw [List.length_cons] at inside
    have rest := @ih (pos + 1) (by omega) fun d mem => plain d (List.mem_cons_of_mem c mem)
    push_cast at rest
    simp only [strncmp, List.length_cons, load_inside (show pos < p.size by omega), List.headD_cons,
      List.tail_cons, bind, Except.bind, bytesAt_cons_inj]
    by_cases same : p.virt pos = c
    · obtain rfl := same
      have positive := plain _ List.mem_cons_self
      simp only [ne_eq, not_true_eq_false, if_false, positive, rest, true_and]
    · simp only [same, ne_eq, not_false_eq_true, if_true, false_and, decide_false]

/-- A comparison that takes in the NUL behind the text. -/
theorem strncmp_ended {p : PitcherParser} {text : List UInt8} {pos : Nat}
    (inside : pos + text.length < p.size) (plain : ∀ c ∈ text, c ≠ 0) :
    strncmp p text pos (text.length + 1) =
      .ok (decide (bytesAt p.virt pos (text.length + 1) = text ++ [0])) := by
  induction text generalizing pos with
  | nil =>
    simp only [strncmp, List.length_nil, load_inside (show pos < p.size from inside), List.headD_nil,
      bind, Except.bind, List.nil_append, bytesAt_cons_inj, bytesAt_zero, and_true]
    split_ifs <;> simp_all
  | cons c text ih =>
    rw [List.length_cons] at inside
    have rest := @ih (pos + 1) (by omega) fun d mem => plain d (List.mem_cons_of_mem c mem)
    push_cast at rest
    rw [List.length_cons, strncmp]
    simp only [load_inside (show pos < p.size by omega), List.headD_cons, List.cons_append,
      List.tail_cons, bind, Except.bind, bytesAt_cons_inj]
    by_cases same : p.virt pos = c
    · obtain rfl := same
      have positive := plain _ List.mem_cons_self
      simp only [ne_eq, not_true_eq_false, if_false, positive, rest, true_and]
    · simp only [same, ne_eq, not_false_eq_true, if_true, false_and, decide_false]

theorem int32_small {n : Nat} (small : n < 2 ^ 31) : int32 n = n := by
  unfold int32
  omega

theorem int32_negative {n : Nat} (large : 2 ^ 31 ≤ n) (word : n < 2 ^ 32) : int32 n < 0 := by
  unfold int32
  omega

/-! ## Ranges of a file -/

/-- Ranges `(offset, size)` inside a file, each before the next. -/
structure WithinFile (size : Nat) (ranges : List (Int × Int)) : Prop where
  inside : ∀ r ∈ ranges, 0 ≤ r.1 ∧ 0 ≤ r.2 ∧ r.1 + r.2 ≤ size
  ordered : ranges.Pairwise fun r s => r.1 < s.1 ∧ r.1 + r.2 ≤ s.1

theorem WithinFile.nil (size : Nat) : WithinFile size [] := ⟨by simp, .nil⟩

/-- One more range, behind all there are. -/
theorem WithinFile.push {size : Nat} {ranges : List (Int × Int)} (placed : WithinFile size ranges)
    {offset length : Int} (fits : 0 ≤ offset ∧ 0 ≤ length ∧ offset + length ≤ size)
    (behind : ∀ r ∈ ranges, r.1 < offset ∧ r.1 + r.2 ≤ offset) :
    WithinFile size (ranges ++ [(offset, length)]) where
  inside := by
    intro r mem
    rcases List.mem_append.mp mem with old | new
    · exact placed.inside r old
    · obtain rfl := List.mem_singleton.mp new
      exact fits
  ordered := by
    rw [List.pairwise_append]
    refine ⟨placed.ordered, List.pairwise_singleton .., ?_⟩
    intro r mem s new
    obtain rfl := List.mem_singleton.mp new
    exact behind r mem

end ImxTest.Pitcher
