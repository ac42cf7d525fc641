import ImxTest.Lib.While
import ImxTest.Pitcher.Memory
import Mathlib.Data.Nat.Bitwise
import Mathlib.Tactic.Ring

/-! The RCV container of pitcher/vc1_parse.c. The header is read before anything
is compared with the size of the file, and the size of the metadata in it is
taken as it is. -/
namespace ImxTest.Pitcher.Rcv

open Lib.While

/-- `dst |= p[i] << i * 8` for `i` from `0` to `n - 1`, the 32 bits of `dst`. -/
def byteToIntLoop (p : PitcherParser) (pos : Int) : (n i dst : Nat) → Except Outside Nat
  | 0, _, dst => .ok dst
  | n + 1, i, dst => do
    let c ← load p (pos + i)
    byteToIntLoop p pos n (i + 1) (dst ||| c.toNat <<< (i * 8))

def byteToInt (p : PitcherParser) (pos : Int) (n : Nat) : Except Outside Int := do
  let dst ← byteToIntLoop p pos n 0 0
  .ok (int32 dst)

structure Header where
  size : Int
  rcvVersion : Int
  metaSize : Int
  parser : PitcherParser

/-- The fields are of type `uint32_t`. -/
def setResolution (p : PitcherParser) (width height : Int) : PitcherParser :=
  { p with height := (height % 2 ^ 32).toNat, width := (width % 2 ^ 32).toNat }

@[simp] theorem setResolution_virt (p : PitcherParser) (width height : Int) :
    (setResolution p width height).virt = p.virt := rfl

@[simp] theorem setResolution_size (p : PitcherParser) (width height : Int) :
    (setResolution p width height).size = p.size := rfl

@[simp] theorem setResolution_handed (p : PitcherParser) (width height : Int) :
    (setResolution p width height).handed = p.handed := rfl

def rcvParseHeader (p : PitcherParser) : Except Outside Header := do
  let _ ← byteToInt p 0 3
  let data ← byteToInt p 3 1
  let rcvVersion := if data.toNat &&& 0x40 ≠ 0 then 1 else 0
  let metaSize ← byteToInt p 4 4
  let src := 8 + metaSize
  let size := int32 ((4 + 4 * rcvVersion) * 4 + metaSize)
  let height ← byteToInt p src 4
  let width ← byteToInt p (src + 4) 4
  .ok { size, rcvVersion, metaSize, parser := setResolution p width height }

def rcvFrameSize (p : PitcherParser) (src : Int) : Except Outside Int := byteToInt p src 3

/-- The local variables of the loop; `current` as its distance from `virt`. -/
structure Locals where
  current : Int
  offset : Int
  index : Nat
  parser : PitcherParser

/-- A negative `offset` becomes a number above every file size when it is
compared with the unsigned `parser->size`. -/
def turn (rcvVersion : Int) (v : Locals) : Except Outside (Turn Locals PitcherParser) :=
  if 0 ≤ v.offset ∧ v.offset < v.parser.size then do
    let size ← rcvFrameSize v.parser v.current
    if v.parser.size < v.offset + size then .ok (.leave v.parser)
    else .ok (.again
      { current := v.current + (size + (4 + 4 * rcvVersion))
        offset := v.offset + (size + (4 + 4 * rcvVersion))
        index := v.index + 1
        parser := pitcherParserPushNewFrame v.parser v.offset size v.index })
  else .ok (.leave v.parser)

/-- The state of the loop when it starts: the metadata is handed over first. -/
def enter (h : Header) : Locals :=
  { current := h.size
    offset := h.size + (4 + 4 * h.rcvVersion)
    index := 1
    parser := pitcherParserPushNewFrame h.parser 8 h.metaSize 0 }

/-- `none` stands for a loop still running after `fuel` turns. -/
def vc1lParse (fuel : Nat) (p : PitcherParser) : Option (Except Outside (Ret × PitcherParser)) :=
  match rcvParseHeader p with
  | .error e => some (.error e)
  | .ok h => (run (turn h.rcvVersion) fuel (enter h)).map (Except.map (Prod.mk .OK))

/-- The outcome of a parse, after enough turns. -/
def Parses (p : PitcherParser) (outcome : Except Outside (Ret × PitcherParser)) : Prop :=
  ∃ fuel, vc1lParse fuel p = some outcome

/-! ## The header -/

theorem byteToIntLoop_inside {p : PitcherParser} {pos n i dst : Nat} (inside : pos + i + n ≤ p.size)
    (low : dst < 2 ^ (8 * i)) :
    byteToIntLoop p pos n i dst = .ok (dst + 2 ^ (8 * i) * littleEndian p.virt (pos + i) n) := by
  induction n generalizing i dst with
  | zero => simp [byteToIntLoop, littleEndian]
  | succ n ih =>
    have read := load_inside (show pos + i < p.size by omega)
    push_cast at read
    have byte := (p.virt (pos + i)).toNat_lt
    have width : 2 ^ (8 * (i + 1)) = 2 ^ (8 * i) * 2 ^ 8 := by rw [Nat.mul_succ, Nat.pow_add]
    have joined : dst ||| (p.virt (pos + i)).toNat <<< (i * 8) =
        dst + 2 ^ (8 * i) * (p.virt (pos + i)).toNat := by
      rw [Nat.mul_comm i 8, Nat.lor_comm, ← Nat.shiftLeft_add_eq_or_of_lt low, Nat.shiftLeft_eq]
      ring
    have next : dst + 2 ^ (8 * i) * (p.virt (pos + i)).toNat < 2 ^ (8 * (i + 1)) := by
      rw [width]
      calc dst + 2 ^ (8 * i) * (p.virt (pos + i)).toNat
          < 2 ^ (8 * i) + 2 ^ (8 * i) * (p.virt (pos + i)).toNat := by omega
        _ = 2 ^ (8 * i) * ((p.virt (pos + i)).toNat + 1) := by ring
        _ ≤ 2 ^ (8 * i) * 2 ^ 8 := Nat.mul_le_mul_left _ (by omega)
    simp only [byteToIntLoop, read, bind, Except.bind, joined]
    rw [ih (by omega) next, width, littleEndian, ← Nat.add_assoc]
    congr 1
    ring

theorem byteToInt_inside {p : PitcherParser} {src : Int} {pos n : Nat} (at_ : src = pos)
    (inside : pos + n ≤ p.size) : byteToInt p src n = .ok (int32 (littleEndian p.virt pos n)) := by
  subst at_
  have read := @byteToIntLoop_inside p pos n 0 0 inside (by simp)
  simp only [byteToInt, read, bind, Except.bind]
  simp

theorem byteToIntLoop_ok {p : PitcherParser} {pos : Int} {n i dst value : Nat}
    (read : byteToIntLoop p pos n i dst = .ok value) : n = 0 ∨ 0 ≤ pos + i ∧ pos + i + n ≤ p.size := by
  induction n generalizing i dst with
  | zero => exact .inl rfl
  | succ n ih =>
    right
    simp only [byteToIntLoop, bind, Except.bind] at read
    cases first : load p (pos + i) with
    | error e => simp [first] at read
    | ok c =>
      simp only [first] at read
      have here := load_ok first
      rcases ih read with rfl | later
      · constructor
        · exact here.1
        · omega
      · constructor
        · exact here.1
        · push_cast at later ⊢
          omega

/-- A number that was read lies in the file. -/
theorem byteToInt_ok {p : PitcherParser} {pos value : Int} {n : Nat} (some_ : 0 < n)
    (read : byteToInt p pos n = .ok value) : 0 ≤ pos ∧ pos + n ≤ p.size := by
  simp only [byteToInt, bind, Except.bind] at read
  cases loop : byteToIntLoop p pos n 0 0 with
  | error e => simp [loop] at read
  | ok dst =>
    rcases byteToIntLoop_ok loop with none_ | bounds
    · omega
    · simpa using bounds

/-- The size of the metadata, as the file states it. -/
def metaSize (virt : Nat → UInt8) : Nat := littleEndian virt 4 4

/-- A header was read only from a file that holds all of it. -/
theorem rcvParseHeader_ok {p : PitcherParser} {h : Header} (read : rcvParseHeader p = .ok h) :
    h.metaSize = int32 (metaSize p.virt) ∧ 16 + h.metaSize ≤ p.size ∧ h.parser.handed = p.handed := by
  simp only [rcvParseHeader, bind, Except.bind] at read
  split at read
  case h_1 => contradiction
  split at read
  case h_1 => contradiction
  split at read
  case h_1 => contradiction
  rename_i value sized
  split at read
  case h_1 => contradiction
  split at read
  case h_1 => contradiction
  rename_i last
  obtain rfl := Except.ok.inj read
  have inside := byteToInt_ok (by decide) sized
  have end_ := byteToInt_ok (by decide) last
  have stated : byteToInt p 4 4 = .ok (int32 (metaSize p.virt)) :=
    byteToInt_inside rfl (by omega)
  obtain rfl : value = int32 (metaSize p.virt) := Except.ok.inj (sized.symm.trans stated)
  refine ⟨rfl, ?_, setResolution_handed ..⟩
  push_cast at end_
  dsimp only
  omega

theorem rcvParseHeader_inside {p : PitcherParser} (small : metaSize p.virt < 2 ^ 31)
    (fits : 16 + metaSize p.virt ≤ p.size) :
    ∃ h, rcvParseHeader p = .ok h ∧ (h.rcvVersion = 0 ∨ h.rcvVersion = 1) ∧
      h.metaSize = metaSize p.virt ∧
      h.size = int32 ((4 + 4 * h.rcvVersion) * 4 + metaSize p.virt) ∧
      h.parser.virt = p.virt ∧ h.parser.size = p.size ∧ h.parser.handed = p.handed := by
  have frames : byteToInt p 0 3 = .ok (int32 (littleEndian p.virt 0 3)) :=
    byteToInt_inside rfl (by omega)
  have version : byteToInt p 3 1 = .ok (int32 (littleEndian p.virt 3 1)) :=
    byteToInt_inside rfl (by omega)
  have stated : byteToInt p 4 4 = .ok (metaSize p.virt) := by
    rw [← int32_small small]
    exact byteToInt_inside rfl (by omega)
  have height : byteToInt p (8 + metaSize p.virt) 4 =
      .ok (int32 (littleEndian p.virt (8 + metaSize p.virt) 4)) :=
    @byteToInt_inside p _ (8 + metaSize p.virt) 4 (by push_cast; rfl) (by omega)
  have width : byteToInt p (8 + metaSize p.virt + 4) 4 =
      .ok (int32 (littleEndian p.virt (8 + metaSize p.virt + 4) 4)) :=
    @byteToInt_inside p _ (8 + metaSize p.virt + 4) 4 (by push_cast; rfl) (by omega)
  simp only [rcvParseHeader, frames, version, stated, height, width, bind, Except.bind]
  refine ⟨_, rfl, ?_, rfl, rfl, setResolution_virt .., setResolution_size .., setResolution_handed ..⟩
  split
  · exact .inr rfl
  · exact .inl rfl

/-! ## The loop -/

section turns
variable {virt : Nat → UInt8} {size : Nat} {version : Int} {v w : Locals}

/-- What holds when the loop comes to a frame header, if it does. -/
structure Inside (virt : Nat → UInt8) (size : Nat) (version : Int) (v : Locals) : Prop where
  known : version = 0 ∨ version = 1
  memory : v.parser.virt = virt
  file : v.parser.size = size
  within : WithinFile size v.parser.handed
  leads : ∃ metaSize frames, v.parser.handed = (8, metaSize) :: frames
  here : v.offset < 0 ∨ 0 ≤ v.current ∧ v.offset = v.current + (4 + 4 * version) ∧
    ∀ r ∈ v.parser.handed, r.1 < v.offset ∧ r.1 + r.2 ≤ v.offset

theorem Inside.turn (inside : Inside virt size version v) :
    turn version v = .ok (.leave v.parser) ∨ ∃ w, turn version v = .ok (.again w) ∧
      Inside virt size version w ∧ (size - w.offset).toNat < (size - v.offset).toNat := by
  by_cases more : 0 ≤ v.offset ∧ v.offset < v.parser.size
  case neg => exact .inl (by rw [Rcv.turn, if_neg more])
  obtain ⟨low, follows, behind⟩ : 0 ≤ v.current ∧ v.offset = v.current + (4 + 4 * version) ∧
      ∀ r ∈ v.parser.handed, r.1 < v.offset ∧ r.1 + r.2 ≤ v.offset := by
    rcases inside.here with negative | here
    · omega
    · exact here
  obtain ⟨pos, at_⟩ := Int.eq_ofNat_of_zero_le low
  have version := inside.known
  have word := littleEndian_lt v.parser.virt pos 3
  have length : rcvFrameSize v.parser v.current = .ok (littleEndian v.parser.virt pos 3 : Nat) := by
    rw [rcvFrameSize, byteToInt_inside at_ (by omega), int32_small (by omega)]
  rw [Rcv.turn, if_pos more]
  simp only [length, bind, Except.bind]
  generalize littleEndian v.parser.virt pos 3 = n
  by_cases past : (v.parser.size : Int) < v.offset + n
  · exact .inl (by rw [if_pos past])
  · rw [if_neg past]
    have handed : (pitcherParserPushNewFrame v.parser v.offset n v.index).handed =
        v.parser.handed ++ [(v.offset, (n : Int))] := rfl
    refine .inr ⟨_, rfl, ⟨inside.known, inside.memory, inside.file, ?_, ?_, .inr ⟨?_, ?_, ?_⟩⟩, ?_⟩
    · rw [handed]
      apply inside.within.push _ behind
      have := inside.file
      omega
    · obtain ⟨metaSize, frames, first⟩ := inside.leads
      exact ⟨metaSize, frames ++ [(v.offset, (n : Int))], by rw [handed, first]; rfl⟩
    · dsimp only
      omega
    · dsimp only
      omega
    · intro r mem
      rw [handed] at mem
      rcases List.mem_append.mp mem with old | new
      · have := behind r old
        dsimp only
        omega
      · obtain rfl := List.mem_singleton.mp new
        dsimp only
        omega
    · have := inside.file
      dsimp only
      omega

theorem leaves_held {q : PitcherParser} (left : turn version v = .ok (.leave q)) : q = v.parser := by
  unfold turn at left
  split at left
  case isTrue =>
    cases read : rcvFrameSize v.parser v.current with
    | error e => simp [read, bind, Except.bind] at left
    | ok length =>
      simp only [read, bind, Except.bind] at left
      split at left
      · simpa using left.symm
      · simp at left
  case isFalse => simpa using left.symm

theorem handed_grows (next : turn version v = .ok (.again w)) : v.parser.handed ⊆ w.parser.handed := by
  unfold turn at next
  split at next
  case isTrue =>
    cases read : rcvFrameSize v.parser v.current with
    | error e => simp [read, bind, Except.bind] at next
    | ok length =>
      simp only [read, bind, Except.bind] at next
      split at next
      · simp at next
      · obtain rfl : _ = w := by simpa using next
        exact List.subset_append_left ..
  case isFalse => simp at next

end turns

theorem parses_iff {p q : PitcherParser} {ret : Ret} :
    Parses p (.ok (ret, q)) ↔ ret = .OK ∧ ∃ h, rcvParseHeader p = .ok h ∧
      Ends (turn h.rcvVersion) (enter h) (.ok q) := by
  unfold Parses vc1lParse
  cases header : rcvParseHeader p with
  | error e => simp
  | ok h =>
    constructor
    · rintro ⟨fuel, parsed⟩
      obtain ⟨outcome, ended, mapped⟩ := Option.map_eq_some_iff.mp parsed
      cases outcome with
      | error e => simp [Except.map] at mapped
      | ok q' =>
        obtain ⟨rfl, rfl⟩ : .OK = ret ∧ q' = q := by simpa [Except.map] using mapped
        exact ⟨rfl, h, rfl, fuel, ended⟩
    · rintro ⟨rfl, h', same, fuel, ended⟩
      obtain rfl := Except.ok.inj same
      exact ⟨fuel, by simp only [ended]; rfl⟩

/-- The parser ends, reads the file only, and hands over ranges of the file, the
metadata first. -/
def Sound (virt : Nat → UInt8) (size number : Nat) : Prop :=
  ∃ ret q, Parses { virt, size, number } (.ok (ret, q)) ∧ WithinFile size q.handed ∧
    ∃ metaSize frames, q.handed = (8, metaSize) :: frames

theorem sound_holds {virt : Nat → UInt8} {size number : Nat} (sound : Sound virt size number) :
    metaSize virt < 2 ^ 31 ∧ 16 + metaSize virt ≤ size := by
  obtain ⟨ret, q, parsed, within, -⟩ := sound
  obtain ⟨-, h, header, ended⟩ := parses_iff.mp parsed
  obtain ⟨stated, fits, -⟩ := rcvParseHeader_ok header
  dsimp only at stated fits
  obtain ⟨last, kept, left⟩ := ended.invariant (fun v => ((8 : Int), h.metaSize) ∈ v.parser.handed)
    (fun _ _ mem next => handed_grows next mem)
    (by simp [enter, pitcherParserPushNewFrame, pitcherParserPush])
  rw [leaves_held left] at within
  have positive := (within.inside _ kept).2.1
  have small : metaSize virt < 2 ^ 31 := by
    by_contra large
    have negative := int32_negative (Nat.le_of_not_lt large) (littleEndian_lt virt 4 4)
    rw [stated] at positive
    exact absurd negative (not_lt.mpr positive)
  rw [int32_small small] at stated
  exact ⟨small, by rw [stated] at fits; omega⟩

theorem holds_sound {virt : Nat → UInt8} {size number : Nat} (small : metaSize virt < 2 ^ 31)
    (fits : 16 + metaSize virt ≤ size) : Sound virt size number := by
  obtain ⟨h, header, version, stated, length, memory, file, handed⟩ :=
    @rcvParseHeader_inside { virt, size, number } small fits
  dsimp only at stated length memory file handed
  have first : Inside virt size h.rcvVersion (enter h) := by
    have parser : (enter h).parser.handed = [((8 : Int), (metaSize virt : Int))] := by
      simp [enter, pitcherParserPushNewFrame, pitcherParserPush, handed, stated]
    refine ⟨version, memory, file, ?_, ⟨metaSize virt, [], parser⟩, ?_⟩
    · rw [parser]
      apply (WithinFile.nil size).push
      · omega
      · simp
    · -- the sum of the header lengths may pass the largest `int`
      rw [parser]
      simp only [enter, List.mem_singleton, forall_eq, length, int32, true_and]
      split
      · omega
      · omega
  obtain ⟨last, q, inside, left, ended⟩ := exists_ends (Inside virt size h.rcvVersion)
    (fun v => (size - v.offset).toNat)
    (by
      intro v inside
      rcases inside.turn with left | ⟨w, again, -⟩
      · exact ⟨_, left⟩
      · exact ⟨_, again⟩)
    (by
      intro v w inside again
      rcases inside.turn with left | ⟨w', again', still, lower⟩
      · rw [left] at again
        simp at again
      · obtain rfl : w' = w := by simpa using again'.symm.trans again
        exact ⟨still, lower⟩)
    first
  refine ⟨.OK, q, parses_iff.mpr ⟨rfl, h, header, ended⟩, ?_⟩
  rw [leaves_held left]
  exact ⟨inside.within, inside.leads⟩

/-- Exactly the files that are shorter than their own header make the parser
read or hand over something outside the file. -/
theorem vc1lParse_sound_iff (virt : Nat → UInt8) (size number : Nat) :
    Sound virt size number ↔ littleEndian virt 4 4 < 2 ^ 31 ∧ 16 + littleEndian virt 4 4 ≤ size :=
  ⟨sound_holds, fun ⟨small, fits⟩ => holds_sound small fits⟩

/-- A file of four bytes: the size of the metadata is not in it. -/
theorem vc1lParse_short : ¬ Sound (fun i => [0x01, 0x00, 0x00, 0x85].getD i 0) 4 0 :=
  fun sound => absurd (sound_holds sound).2 (by decide)

end ImxTest.Pitcher.Rcv
