import ImxTest.Dsd.Dff
import Mathlib.Data.List.Flatten

/-! The DSF reader and the loop that plays what either reader has found. -/
namespace ImxTest.Dsd

open Lib Reading

def DSF_BLOCK_SIZE : Nat := 4096

def readDsfFile : Reader DsdParams := do
  let _dsdChunkHeader ← readNew 4
  let _dsdChunkSize ← readU64 false
  let _fileSize ← readU64 false
  let _metadataPtr ← readU64 false
  let _fmtChunkHeader ← readNew 4
  let _fmtChunkSize ← readU64 false
  let _formatVersion ← readU32 false
  let _formatId ← readU32 false
  let _channelType ← readU32 false
  let channelNum ← readU32 false
  let samplingFreq ← readU32 false
  let bitsPerSample ← readU32 false
  let _sampleCount ← readU64 false
  let blockSizePerCh ← readU32 false
  if blockSizePerCh ≠ DSF_BLOCK_SIZE then throw .failed
  let _reserved ← readU32 false
  let _dataChunkHeader ← readNew 4
  let chunkSize ← readU64 false
  pure { samplingFreq, bitsPerSample, channelNum, dsdChunkSize := chunkSize }

def bitReverseTable : List UInt8 :=
  let r2 (n : UInt8) := [n, n + 2 * 64, n + 1 * 64, n + 3 * 64]
  let r4 n := r2 n ++ r2 (n + 2 * 16) ++ r2 (n + 1 * 16) ++ r2 (n + 3 * 16)
  let r6 n := r4 n ++ r4 (n + 2 * 4) ++ r4 (n + 1 * 4) ++ r4 (n + 3 * 4)
  r6 0 ++ r6 2 ++ r6 1 ++ r6 3

def bitReverse (x : UInt8) : UInt8 := bitReverseTable.getD x.toNat 0

/-- A block on its way to the interleave function: the bytes of the file, and the zeros
behind them. -/
structure Block where
  read : List UInt8
  padding : Nat
deriving DecidableEq, Repr

/-- What the interleave function gets of a block. -/
def Block.buffer (bitsPerSample : Nat) (b : Block) : List UInt8 :=
  (b.read ++ List.replicate b.padding 0).map (if bitsPerSample = 8 then bitReverse else id)

/-- An int. -/
def blockSize (channelNum : Nat) : Int := Int.bmod (channelNum * DSF_BLOCK_SIZE) (2 ^ 32)

/-- `snd_pcm_format_width(SND_PCM_FORMAT_DSD_U32_LE)`. -/
def formatWidth : Nat := 32

def bytesPerFrame (channelNum : Nat) : Nat := channelNum * formatWidth % 2 ^ 32 / 8

/-- Two arrays of the size of a block are on the stack in each turn. -/
def playLoop (sys : System) (size : Int) (leftsize : Nat) (left : List UInt8) :
    Except Stop (List Block × List UInt8) :=
  if leftsize = 0 then .ok ([], left)
  else if size ≤ 0 ∨ sys.stack < 2 * size then .error .fault
  else
    let readsize := if size ≤ leftsize then size.toNat else leftsize
    let (buffer, left) := readFull readsize left
    if buffer.length = 0 then .ok ([], left)
    else do
      let (blocks, left) ← playLoop sys size (leftsize - buffer.length) left
      .ok (⟨buffer, size.toNat - buffer.length⟩ :: blocks, left)
termination_by leftsize

/-- The blocks for the interleave function, with the stream open. -/
def play (sys : System) (params : DsdParams) : Reader (List Block) := fun t =>
  if bytesPerFrame params.channelNum = 0 then .error .fault
  else do
    let (blocks, left) ← playLoop sys (blockSize params.channelNum) params.dsdChunkSize t.left
    .ok (blocks, { t with left })

def playDsf (sys : System) : Reader (List Block) := readDsfFile >>= play sys

def playDff (sys : System) (fuel : Nat) : Reader (List Block) := readDffFile sys fuel >>= play sys

/-! ## Blocks -/

/-- Data cut into blocks of one size, of which only the last is padded. -/
structure Cuts (size : Nat) (data : List UInt8) (blocks : List Block) : Prop where
  whole : ∀ b ∈ blocks, b.read.length + b.padding = size
  filled : ∀ b ∈ blocks, b.read ≠ []
  padded : ∀ b ∈ blocks.dropLast, b.padding = 0
  data : blocks.flatMap Block.read = data

theorem Cuts.nil (size : Nat) : Cuts size [] [] where
  whole := nofun
  filled := nofun
  padded := nofun
  data := rfl

theorem Cuts.single {size : Nat} {bytes : List UInt8} (some : bytes ≠ []) (fits : bytes.length ≤ size) :
    Cuts size bytes [⟨bytes, size - bytes.length⟩] where
  whole b mem := by
    obtain rfl := List.mem_singleton.mp mem
    exact Nat.add_sub_of_le fits
  filled b mem := by
    obtain rfl := List.mem_singleton.mp mem
    exact some
  padded := nofun
  data := List.append_nil bytes

theorem Cuts.cons {size : Nat} {bytes data : List UInt8} {blocks : List Block} (some : bytes ≠ [])
    (full : bytes.length = size) (cuts : Cuts size data blocks) :
    Cuts size (bytes ++ data) (⟨bytes, 0⟩ :: blocks) where
  whole b mem := by
    rcases List.mem_cons.mp mem with rfl | mem
    · exact full
    · exact cuts.whole b mem
  filled b mem := by
    rcases List.mem_cons.mp mem with rfl | mem
    · exact some
    · exact cuts.filled b mem
  padded b mem := by
    cases blocks with
    | nil => cases mem
    | cons c blocks =>
      rcases List.mem_cons.mp mem with rfl | mem
      · rfl
      · exact cuts.padded b mem
  data := congrArg (bytes ++ ·) cuts.data

/-- The interleave function gets the data and zeros behind it, in the order of bits of the
stream. -/
theorem Cuts.buffers {size : Nat} {data : List UInt8} {blocks : List Block} (cuts : Cuts size data blocks)
    (bitsPerSample : Nat) : ∃ zeros, blocks.flatMap (Block.buffer bitsPerSample) =
      (data ++ List.replicate zeros 0).map (if bitsPerSample = 8 then bitReverse else id) := by
  have buffer (b : Block) : b.buffer bitsPerSample = (b.read ++ List.replicate b.padding 0).map
      (if bitsPerSample = 8 then bitReverse else id) := rfl
  generalize (if bitsPerSample = 8 then bitReverse else id) = order at buffer ⊢
  induction blocks generalizing data with
  | nil =>
    obtain rfl := cuts.data
    exact ⟨0, rfl⟩
  | cons b blocks ih =>
    cases blocks with
    | nil =>
      refine ⟨b.padding, ?_⟩
      rw [List.flatMap_singleton, buffer, ← cuts.data, List.flatMap_singleton]
    | cons c blocks =>
      have rest : Cuts size ((c :: blocks).flatMap Block.read) (c :: blocks) :=
        ⟨fun d mem => cuts.whole d (List.mem_cons_of_mem b mem),
          fun d mem => cuts.filled d (List.mem_cons_of_mem b mem),
          fun d mem => cuts.padded d (List.mem_cons_of_mem b mem), rfl⟩
      have full : b.padding = 0 := cuts.padded b List.mem_cons_self
      obtain ⟨zeros, read⟩ := ih rest
      refine ⟨zeros, ?_⟩
      rw [List.flatMap_cons, read, buffer, full, ← cuts.data]
      simp only [List.flatMap_cons, List.replicate_zero, List.append_nil, List.map_append, List.append_assoc]

section Loop
variable {sys : System} {size leftsize : Nat} {left : List UInt8}

theorem playLoop_turn (runs : ¬ ((size : Int) ≤ 0 ∨ (sys.stack : Int) < 2 * size))
    (some_left : leftsize ≠ 0) : playLoop sys size leftsize left =
      if left.take (min size leftsize) = [] then .ok ([], left.drop (min size leftsize))
      else (playLoop sys size (leftsize - (left.take (min size leftsize)).length)
          (left.drop (min size leftsize))).map fun (blocks, left') =>
        (⟨left.take (min size leftsize), size - (left.take (min size leftsize)).length⟩ :: blocks, left') := by
  have readsize : (if (size : Int) ≤ leftsize then (size : Int).toNat else leftsize) = min size leftsize := by
    split_ifs with whole
    · exact (Nat.min_eq_left (Int.ofNat_le.mp whole)).symm
    · exact (Nat.min_eq_right (by omega)).symm
  rw [playLoop, if_neg some_left, if_neg runs]
  simp only [readsize]
  simp only [readFull_eq, List.length_eq_zero_iff, Int.toNat_natCast]
  split_ifs
  · rfl
  · cases playLoop sys size _ _ <;> rfl

theorem playLoop_end (runs : ¬ ((size : Int) ≤ 0 ∨ (sys.stack : Int) < 2 * size))
    (ended : leftsize = 0 ∨ left = []) : playLoop sys size leftsize left = .ok ([], left) := by
  by_cases none_left : leftsize = 0
  · rw [playLoop, if_pos none_left]
  · obtain rfl := ended.resolve_left none_left
    rw [playLoop_turn runs none_left, if_pos (by rw [List.take_nil]), List.drop_nil]

variable (sys size) in
theorem playLoop_cuts (positive : 0 < size) (fits : 2 * size ≤ sys.stack)
    (leftsize : Nat) (left : List UInt8) : ∃ blocks,
      playLoop sys size leftsize left = .ok (blocks, left.drop leftsize) ∧
        Cuts size (left.take leftsize) blocks := by
  have runs : ¬ ((size : Int) ≤ 0 ∨ (sys.stack : Int) < 2 * size) := by omega
  induction leftsize using Nat.strong_induction_on generalizing left with
  | _ leftsize ih =>
    by_cases ended : leftsize = 0 ∨ left = []
    · refine ⟨[], ?_, ?_⟩
      · rw [playLoop_end runs ended]
        rcases ended with rfl | rfl <;> simp
      · have none : left.take leftsize = [] := by rcases ended with rfl | rfl <;> simp
        rw [none]
        exact .nil size
    · obtain ⟨some_left, some⟩ := not_or.mp ended
      have some_bytes : 0 < left.length := List.length_pos_iff.mpr some
      have read : (left.take (min size leftsize)).length = min (min size leftsize) left.length :=
        List.length_take
      have some_read : left.take (min size leftsize) ≠ [] := by
        rw [← List.length_pos_iff]
        omega
      rw [playLoop_turn runs some_left, if_neg some_read]
      by_cases full : size ≤ leftsize ∧ size ≤ left.length
      · -- the block is full
        rw [Nat.min_eq_left full.1] at read some_read ⊢
        rw [Nat.min_eq_left full.2] at read
        obtain ⟨blocks, run, cuts⟩ := ih (leftsize - size) (by omega) (left.drop size)
        refine ⟨⟨left.take size, 0⟩ :: blocks, ?_, ?_⟩
        · rw [read, run, List.drop_drop, Nat.add_sub_of_le full.1, Nat.sub_self]
          rfl
        · have both := cuts.cons some_read read
          rwa [← List.take_add, Nat.add_sub_of_le full.1] at both
      · -- the last one: there is no more to play, or nothing more in the file
        have last : left.take (min size leftsize) = left.take leftsize := by
          rcases Nat.lt_or_ge leftsize size with short | long
          · rw [Nat.min_eq_right short.le]
          · rw [Nat.min_eq_left long, List.take_of_length_le (by omega), List.take_of_length_le (by omega)]
        have dropped : left.drop (min size leftsize) = left.drop leftsize := by
          rcases Nat.lt_or_ge leftsize size with short | long
          · rw [Nat.min_eq_right short.le]
          · rw [Nat.min_eq_left long, List.drop_of_length_le (by omega), List.drop_of_length_le (by omega)]
        have over_ : leftsize - (left.take (min size leftsize)).length = 0 ∨ left.drop leftsize = [] := by
          rw [List.drop_eq_nil_iff]
          omega
        rw [dropped, playLoop_end runs over_, last]
        rw [last] at some_read read
        exact ⟨_, rfl, .single some_read (by omega)⟩

end Loop

theorem blockSize_exact {channelNum : Nat} (positive : 0 < blockSize channelNum)
    (small : channelNum * DSF_BLOCK_SIZE < 2 ^ 32) : blockSize channelNum = channelNum * DSF_BLOCK_SIZE := by
  unfold blockSize at positive ⊢
  rw [Int.bmod_def] at positive ⊢
  split_ifs at positive ⊢ <;> omega

theorem bytesPerFrame_pos {channelNum : Nat} (positive : 0 < blockSize channelNum) :
    bytesPerFrame channelNum ≠ 0 := by
  unfold blockSize DSF_BLOCK_SIZE at positive
  unfold bytesPerFrame formatWidth
  rw [Int.bmod_def] at positive
  split_ifs at positive <;> omega

theorem Cuts.empty {size : Nat} {blocks : List Block} (cuts : Cuts size [] blocks) : blocks = [] := by
  cases blocks with
  | nil => rfl
  | cons b blocks =>
    have none := cuts.data
    rw [List.flatMap_cons] at none
    exact absurd (List.append_eq_nil_iff.mp none).1 (cuts.filled b List.mem_cons_self)

/-- When the data that is wanted is what is played, in blocks of all the channels. -/
theorem play_iff (sys : System) (params : DsdParams) (t : Tape) (data : List UInt8) :
    (∃ blocks u, play sys params t = .ok (blocks, u) ∧ Cuts (params.channelNum * DSF_BLOCK_SIZE) data blocks) ↔
      t.left.take params.dsdChunkSize = data ∧ bytesPerFrame params.channelNum ≠ 0 ∧
        (params.dsdChunkSize = 0 ∨
          0 < blockSize params.channelNum ∧ 2 * blockSize params.channelNum ≤ sys.stack) ∧
        (data = [] ∨ params.channelNum * DSF_BLOCK_SIZE < 2 ^ 32) := by
  constructor
  · rintro ⟨blocks, u, run, cuts⟩
    unfold play at run
    split_ifs at run with frames
    by_cases none : params.dsdChunkSize = 0
    · have loop : playLoop sys (blockSize params.channelNum) params.dsdChunkSize t.left = .ok ([], t.left) := by
        rw [playLoop, if_pos none]
      rw [loop] at run
      obtain ⟨rfl, -⟩ := Prod.mk.inj (Except.ok.inj run)
      obtain rfl := cuts.data
      exact ⟨by rw [none, List.take_zero]; rfl, frames, .inl none, .inl rfl⟩
    · have runs : ¬ (blockSize params.channelNum ≤ 0 ∨ sys.stack < 2 * blockSize params.channelNum) := by
        intro stops
        rw [playLoop, if_neg none, if_pos stops] at run
        cases run
      obtain ⟨size, size_eq⟩ : ∃ size : Nat, blockSize params.channelNum = size :=
        Int.eq_ofNat_of_zero_le (by omega)
      obtain ⟨blocks', loop, cuts'⟩ := playLoop_cuts sys size (by omega) (by omega) params.dsdChunkSize
        t.left
      rw [size_eq, loop] at run
      obtain ⟨rfl, -⟩ := Prod.mk.inj (Except.ok.inj run)
      have same : t.left.take params.dsdChunkSize = data := cuts'.data.symm.trans cuts.data
      refine ⟨same, frames, .inr (by omega), ?_⟩
      cases blocks' with
      | nil => exact .inl cuts.data.symm
      | cons b blocks' =>
        have stack_lt := sys.stack_lt
        have whole := cuts.whole b List.mem_cons_self
        have whole' := cuts'.whole b List.mem_cons_self
        exact .inr (by omega)
  · rintro ⟨rfl, frames, room, wide⟩
    unfold play
    rw [if_neg frames]
    by_cases none : params.dsdChunkSize = 0
    · rw [playLoop, if_pos none, none, List.take_zero]
      exact ⟨[], _, rfl, .nil _⟩
    · obtain ⟨positive, fits⟩ := room.resolve_left none
      obtain ⟨size, size_eq⟩ := Int.eq_ofNat_of_zero_le positive.le
      obtain ⟨blocks, loop, cuts⟩ := playLoop_cuts sys size (by omega) (by omega) params.dsdChunkSize
        t.left
      rw [size_eq, loop]
      refine ⟨blocks, _, rfl, ?_⟩
      rcases wide with empty | small
      · rw [empty] at cuts ⊢
        rw [cuts.empty]
        exact .nil _
      · have exact_size := blockSize_exact positive small
        obtain rfl : size = params.channelNum * DSF_BLOCK_SIZE := by omega
        exact cuts

end ImxTest.Dsd
