import ImxTest.Lib.While
import ImxTest.Pitcher.Memory
import Mathlib.Tactic.Ring

/-! pitcher/vp6_parse.c. A file is read as records, a length of four bytes and as many
bytes behind it; the length is an `int`, and the bytes left are an `unsigned long`. -/
namespace ImxTest.Pitcher.Vp6

open Lib.While

/-- The local variables of the loop; `current` as its distance from `virt`. -/
structure Locals where
  current : Int := 0
  leftBytes : Nat
  frameIdx : Nat := 0
  offset : Int := 0
  parser : PitcherParser

/-- The `int` expression `current[0] | (current[1] << 8) | ...`. -/
def frameSize (p : PitcherParser) (current : Int) : Except Outside Int := do
  let c0 ← load p current
  let c1 ← load p (current + 1)
  let c2 ← load p (current + 2)
  let c3 ← load p (current + 3)
  .ok (int32 (c0.toNat ||| c1.toNat <<< 8 ||| c2.toNat <<< 16 ||| c3.toNat <<< 24 : Nat))

/-- What an `int64_t` becomes beside an `unsigned long`. -/
def asUnsigned (n : Int) : Nat := (n % 2 ^ 64).toNat

def turn (v : Locals) : Except Outside (Turn Locals PitcherParser) :=
  if 4 < v.leftBytes then do
    let size ← frameSize v.parser v.current
    let current := v.current + 4
    let leftBytes := v.leftBytes - 4
    let offset := v.offset + 4
    if leftBytes < asUnsigned size then .ok (.leave v.parser)
    else .ok (.again
      { current := current + size
        leftBytes := leftBytes - asUnsigned size
        frameIdx := v.frameIdx + 1
        offset := offset + size
        parser := pitcherParserPushNewFrame v.parser offset size v.frameIdx })
  else .ok (.leave v.parser)

/-- `none` stands for a loop still running after `fuel` turns. -/
def vp6Parse (fuel : Nat) (p : PitcherParser) : Option (Except Outside (Ret × PitcherParser)) :=
  (run turn fuel { leftBytes := p.size, parser := p }).map (Except.map (Prod.mk .OK))

/-! ## The records of a file -/

/-- The records from `pos` on, as far as there are more than four bytes and the length
found there is neither negative nor more than what is left. -/
def records (virt : Nat → UInt8) (size pos : Nat) : List (Int × Int) :=
  if pos + 4 < size then
    if 0 ≤ int32 (littleEndian virt pos 4) ∧ pos + 4 + int32 (littleEndian virt pos 4) ≤ size then
      ((pos + 4 : Nat), int32 (littleEndian virt pos 4)) ::
        records virt size (pos + 4 + (int32 (littleEndian virt pos 4)).toNat)
    else []
  else []
termination_by size - pos

section Records
variable {virt : Nat → UInt8} {size : Nat}

theorem records_behind (pos : Nat) : ∀ r ∈ records virt size pos, (pos : Int) < r.1 := by
  fun_induction records virt size pos with
  | case1 pos more fits ih =>
    intro r mem
    rcases List.mem_cons.mp mem with rfl | later
    · dsimp only
      omega
    · have behind := ih r later
      omega
  | case2 => simp
  | case3 => simp

theorem records_within (pos : Nat) : WithinFile size (records virt size pos) := by
  fun_induction records virt size pos with
  | case1 pos more fits ih =>
    refine ⟨?_, List.pairwise_cons.mpr ⟨?_, ih.ordered⟩⟩
    · intro r mem
      rcases List.mem_cons.mp mem with rfl | later
      · dsimp only
        omega
      · exact ih.inside r later
    · intro r later
      have behind := records_behind _ r later
      dsimp only
      omega
  | case2 => exact .nil size
  | case3 => exact .nil size

end Records

/-! ## The loop -/

theorem or_shiftLeft {low k : Nat} (small : low < 2 ^ k) (high : Nat) :
    low ||| high <<< k = low + high * 2 ^ k := by
  rw [Nat.or_comm, ← Nat.shiftLeft_add_eq_or_of_lt small, Nat.shiftLeft_eq, Nat.add_comm]

theorem or_bytes (virt : Nat → UInt8) (pos : Nat) :
    (virt pos).toNat ||| (virt (pos + 1)).toNat <<< 8 ||| (virt (pos + 2)).toNat <<< 16 |||
      (virt (pos + 3)).toNat <<< 24 = littleEndian virt pos 4 := by
  have h0 := (virt pos).toNat_lt
  have h1 := (virt (pos + 1)).toNat_lt
  have h2 := (virt (pos + 2)).toNat_lt
  rw [or_shiftLeft h0, or_shiftLeft (k := 16) (by omega), or_shiftLeft (by omega)]
  simp only [littleEndian, Nat.add_assoc, Nat.reduceAdd]
  omega

theorem frameSize_inside {p : PitcherParser} {pos : Nat} (inside : pos + 4 ≤ p.size) :
    frameSize p pos = .ok (int32 (littleEndian p.virt pos 4)) := by
  have l0 := load_inside (show pos < p.size by omega)
  have l1 := load_inside (show pos + 1 < p.size by omega)
  have l2 := load_inside (show pos + 2 < p.size by omega)
  have l3 := load_inside (show pos + 3 < p.size by omega)
  push_cast at l1 l2 l3
  simp only [frameSize, l0, l1, l2, l3, bind, Except.bind, or_bytes]

/-- The comparison of the bytes left with a length tells whether it is one that fits. -/
theorem lt_asUnsigned {left word : Nat} (small : left ≤ 2 ^ 63) :
    left < asUnsigned (int32 word) ↔ ¬ (0 ≤ int32 word ∧ int32 word ≤ left) := by
  unfold asUnsigned int32
  split
  · omega
  · omega

/-- The loop is about to read what lies `pos` bytes into the file. -/
structure At (virt : Nat → UInt8) (size pos : Nat) (v : Locals) : Prop where
  current : v.current = pos
  offset : v.offset = pos
  left : v.leftBytes = size - pos
  virt : v.parser.virt = virt
  size : v.parser.size = size

section Loop
variable {virt : Nat → UInt8} {size pos : Nat} {v : Locals}

/-- The loop hands over the records that are to come. -/
theorem ends_records (small : size ≤ 2 ^ 63) (here : At virt size pos v) :
    ∃ q, Ends turn v (.ok q) ∧ q.handed = v.parser.handed ++ records virt size pos := by
  fun_induction records virt size pos generalizing v with
  | case1 pos more fits ih =>
    have many : 4 < v.leftBytes := by rw [here.left]; omega
    have read : frameSize v.parser v.current = .ok (int32 (littleEndian virt pos 4)) := by
      rw [here.current, ← here.virt]
      exact frameSize_inside (by rw [here.size]; omega)
    have take : ¬ v.leftBytes - 4 < asUnsigned (int32 (littleEndian virt pos 4)) := by
      rw [lt_asUnsigned (by rw [here.left]; omega), here.left]
      omega
    have same : asUnsigned (int32 (littleEndian virt pos 4)) = (int32 (littleEndian virt pos 4)).toNat := by
      have top : int32 (littleEndian virt pos 4) < 2 ^ 64 := by omega
      rw [asUnsigned, Int.emod_eq_of_lt fits.1 top]
    let w : Locals :=
      { current := v.current + 4 + int32 (littleEndian virt pos 4)
        leftBytes := v.leftBytes - 4 - asUnsigned (int32 (littleEndian virt pos 4))
        frameIdx := v.frameIdx + 1
        offset := v.offset + 4 + int32 (littleEndian virt pos 4)
        parser := pitcherParserPushNewFrame v.parser (v.offset + 4) (int32 (littleEndian virt pos 4))
          v.frameIdx }
    have next : turn v = .ok (.again w) := by
      rw [turn, if_pos many]
      simp only [read, bind, Except.bind, if_neg take, w]
    have there : At virt size (pos + 4 + (int32 (littleEndian virt pos 4)).toNat) w := by
      constructor
      · have current := here.current
        simp only [w]
        omega
      · have offset := here.offset
        simp only [w]
        omega
      · simp only [w, same, here.left]
        omega
      · exact here.virt
      · exact here.size
    obtain ⟨q, ended, handed⟩ := ih there
    refine ⟨q, (ends_again next).mpr ended, ?_⟩
    rw [handed]
    simp only [w, pitcherParserPushNewFrame, pitcherParserPush, List.append_assoc, List.singleton_append,
      here.offset]
    push_cast
    rfl
  | case2 pos more stops =>
    have many : 4 < v.leftBytes := by rw [here.left]; omega
    have read : frameSize v.parser v.current = .ok (int32 (littleEndian virt pos 4)) := by
      rw [here.current, ← here.virt]
      exact frameSize_inside (by rw [here.size]; omega)
    have past : v.leftBytes - 4 < asUnsigned (int32 (littleEndian virt pos 4)) := by
      rw [lt_asUnsigned (by rw [here.left]; omega), here.left]
      omega
    refine ⟨v.parser, ends_leave ?_, (List.append_nil _).symm⟩
    rw [turn, if_pos many]
    simp only [read, bind, Except.bind, if_pos past]
  | case3 pos few =>
    refine ⟨v.parser, ends_leave ?_, (List.append_nil _).symm⟩
    rw [turn, if_neg (by rw [here.left]; omega)]

end Loop

/-- A parse ends without a load outside the file and hands over just its records; a
file is not larger than memory can be. -/
theorem vp6Parse_records (virt : Nat → UInt8) {size : Nat} (number : Nat) (small : size ≤ 2 ^ 63) :
    ∃ q, (∃ fuel, vp6Parse fuel { virt, size, number } = some (.ok (.OK, q))) ∧
      q.handed = records virt size 0 ∧ WithinFile size q.handed := by
  have start : At virt size 0 { leftBytes := size, parser := { virt, size, number } } :=
    ⟨rfl, rfl, rfl, rfl, rfl⟩
  obtain ⟨q, ⟨fuel, ended⟩, handed⟩ := ends_records small start
  have handed : q.handed = records virt size 0 := by simpa using handed
  exact ⟨q, ⟨fuel, by simp [vp6Parse, ended, Except.map]⟩, handed, handed ▸ records_within 0⟩

/-- Two records, and a length with nothing behind it. -/
def twoRecords : List UInt8 := [2, 0, 0, 0, 7, 8, 1, 0, 0, 0, 9, 5, 0, 0, 0]

theorem vp6Parse_two : ∃ q, (∃ fuel, vp6Parse fuel
    { virt := fun i => twoRecords.getD i 0, size := 15, number := 0 } = some (.ok (.OK, q))) ∧
      q.handed = [(4, 2), (10, 1)] := by
  have small : 15 ≤ 2 ^ 63 := by decide
  obtain ⟨q, ended, handed, -⟩ := vp6Parse_records (fun i => twoRecords.getD i 0) 0 small
  refine ⟨q, ended, handed.trans ?_⟩
  simp [records, littleEndian, int32, twoRecords]

end ImxTest.Pitcher.Vp6
