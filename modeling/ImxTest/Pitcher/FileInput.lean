import ImxTest.Lib.Feed
import ImxTest.Pitcher.Delivery
import ImxTest.Pitcher.PlaneLayout

/-! The input file node of mxc_v4l2_vpu_enc.c: it hands a file on in chunks of the
size of a picture. -/
namespace ImxTest.Pitcher.FileInput

open Delivery Lib.Feed

/-- What `struct test_file_t` holds of an input file. -/
structure TestFile where
  size : Nat
  offset : Nat := 0
  frameCount : Nat := 0
  frameNum : Nat
  ended : Bool := false
  loop : Int
  format : PixFmtInfo

/-- A buffer pushed to the sinks; its place is counted from the start of the file. -/
structure Chunk where
  plane : Plane
  last : Bool
deriving DecidableEq, Repr

/-- The size of the plane of each buffer. -/
def ifileAllocBuffer (file : TestFile) : BufRef := { size := file.format.size }

/-- The part of `ifile_run` that fills the buffer. -/
def fill (file : TestFile) (plane : Plane) : TestFile × Plane :=
  let size := (ifileAllocBuffer file).size
  if file.offset < file.size then
    let bytesused := if size + file.offset ≤ file.size then size else file.size - file.offset
    let place := file.offset
    let file := { file with offset := file.offset + bytesused }
    let file := if file.loop ≠ 0 ∧ file.size ≤ file.offset then
        { file with loop := if 0 < file.loop then file.loop - 1 else file.loop, offset := 0 }
      else file
    ({ file with frameCount := file.frameCount + 1 }, ⟨place, bytesused⟩)
  else ({ file with ended := true }, { plane with bytesused := 0 })

/-- The part behind it: the end of the file or of the frames asked for. -/
def push (file : TestFile) (plane : Plane) : TestFile × Option Chunk :=
  let ended := file.ended || decide (0 < file.frameNum ∧ file.frameNum ≤ file.frameCount)
  let ended := decide (file.size ≤ file.offset) || ended
  ({ file with ended }, some { plane, last := ended })

/-- `idle` is what the idle buffer that is taken still holds, if there is one. -/
def ifileRun (file : TestFile) (idle : Option Plane) : TestFile × Option Chunk :=
  match idle with
  | none => (file, none)
  | some plane => push (fill file plane).1 (fill file plane).2

/-- `ifile_checkready` while nobody terminates the test, then `ifile_run`. -/
def visit (file : TestFile) (idle : Option Plane) : TestFile × Option Chunk :=
  if file.ended then (file, none) else ifileRun file idle

/-- The format `init_ifile_node` gives the file; it does not look at what
`pitcher_get_pix_fmt_info` returns. -/
def ifileFormat (fileSize : Nat) (format : PixelFormat) (width height alignment : Nat) : PixFmtInfo :=
  let info : PixFmtInfo := { format, width, height }
  let info := (Word.pitcherGetPixFmtInfo info alignment).getD info
  if format = .jpeg then { info with size := fileSize, width := 0, height := 0 } else info

/-- The file can be opened and mapped, and the node is registered. -/
def initIfileNode (fileSize : Nat) (format : PixelFormat) (width height alignment frameNum : Nat)
    (loop : Int) : Option TestFile :=
  if fileSize = 0 then none
  else some { size := fileSize, frameNum, loop, format := ifileFormat fileSize format width height alignment }

/-! ## What a run is to hand on -/

/-- Chunks of a file, one behind the other. -/
def passOf (size chunk count : Nat) : List Plane :=
  (List.range count).map fun k => ⟨k * chunk, min chunk (size - k * chunk)⟩

def lastMarked (planes : List Plane) : List Chunk :=
  planes.mapIdx fun j plane => { plane, last := j + 1 = planes.length }

/-- `count` chunks of the size of a picture cover the file, and a run hands them on
`loop + 1` times, or for ever where `loop` is negative, but not more than
`frame_num` of them. -/
def Chunked (file : TestFile) : Prop :=
  ∃ count, 0 < count ∧ (count - 1) * file.format.size < file.size ∧ file.size ≤ count * file.format.size ∧
    (0 ≤ file.loop → Emits visit Option.isSome (fun file => file.ended = true) file
      (lastMarked (upTo file.frameNum
        (List.replicate (file.loop.toNat + 1) (passOf file.size file.format.size count)).flatten))) ∧
    (file.loop < 0 → 0 < file.frameNum → Emits visit Option.isSome (fun file => file.ended = true) file
      (lastMarked (upTo file.frameNum
        (List.replicate file.frameNum (passOf file.size file.format.size count)).flatten))) ∧
    (file.loop < 0 → file.frameNum = 0 → ∀ idles : List (Option Plane),
      (behind visit file idles).ended = false ∧
      outputs visit file idles =
        ((List.replicate (idles.countP Option.isSome) (passOf file.size file.format.size count)).flatten.take
          (idles.countP Option.isSome)).map fun plane => { plane, last := false })

/-! ## One call -/

section call
variable {start : TestFile} {count m : Nat} {file : TestFile}

/-- Chunk `k` of the file. -/
def chunkOf (start : TestFile) (k : Nat) : Plane :=
  ⟨k * start.format.size, min start.format.size (start.size - k * start.format.size)⟩

structure Covers (start : TestFile) (count : Nat) : Prop where
  positive : 0 < count
  before : (count - 1) * start.format.size < start.size
  whole : start.size ≤ count * start.format.size

theorem Covers.inside (covers : Covers start count) {k : Nat} (less : k < count) :
    k * start.format.size < start.size :=
  Nat.lt_of_le_of_lt (Nat.mul_le_mul_right _ (Nat.le_sub_one_of_lt less)) covers.before

/-- The node stands in front of chunk `k`. -/
structure Before (start : TestFile) (k : Nat) (file : TestFile) : Prop where
  size : file.size = start.size
  format : file.format = start.format
  offset : file.offset = k * start.format.size

variable {k : Nat} {plane : Plane}

theorem Before.used (before : Before start k file) :
    (if file.format.size + file.offset ≤ file.size then file.format.size else file.size - file.offset) =
      min start.format.size (start.size - k * start.format.size) := by
  rw [before.size, before.format, before.offset]
  split <;> omega

theorem fill_within (covers : Covers start count) (before : Before start k file) (less : k + 1 < count) :
    fill file plane =
      ({ file with offset := (k + 1) * start.format.size, frameCount := file.frameCount + 1 },
        chunkOf start k) := by
  have inside : file.offset < file.size := by
    rw [before.size, before.offset]
    exact covers.inside (by omega)
  have next := covers.inside less
  have ends : file.offset + min start.format.size (start.size - k * start.format.size) =
      (k + 1) * start.format.size := by
    rw [before.offset, Nat.succ_mul] at *
    omega
  have more : ¬ file.size ≤ (k + 1) * start.format.size := by rw [before.size]; omega
  unfold FileInput.fill ifileAllocBuffer
  dsimp only
  rw [if_pos inside, before.used, ends, if_neg (fun past => more past.2), chunkOf, before.offset]

theorem Before.ends (covers : Covers start count) (before : Before start k file) (full : k + 1 = count) :
    file.offset < file.size ∧
      file.offset + min start.format.size (start.size - k * start.format.size) = file.size := by
  have inside := covers.inside (show k < count by omega)
  have whole := covers.whole
  rw [← full, Nat.succ_mul] at whole
  rw [before.size, before.offset]
  omega

theorem fill_again (covers : Covers start count) (before : Before start k file) (full : k + 1 = count)
    (again : file.loop ≠ 0) :
    fill file plane =
      ({ file with
          offset := 0, frameCount := file.frameCount + 1
          loop := if 0 < file.loop then file.loop - 1 else file.loop },
        chunkOf start k) := by
  obtain ⟨inside, ends⟩ := before.ends covers full
  unfold FileInput.fill ifileAllocBuffer
  dsimp only
  rw [if_pos inside, before.used, ends, if_pos ⟨again, Nat.le_refl _⟩, chunkOf, before.offset]

theorem fill_once (covers : Covers start count) (before : Before start k file) (full : k + 1 = count)
    (once : file.loop = 0) :
    fill file plane =
      ({ file with offset := file.size, frameCount := file.frameCount + 1 }, chunkOf start k) := by
  obtain ⟨inside, ends⟩ := before.ends covers full
  unfold FileInput.fill ifileAllocBuffer
  dsimp only
  rw [if_pos inside, before.used, ends, if_neg (fun again => again.1 once), chunkOf, before.offset]

end call

/-! ## A run -/

section run
variable {start : TestFile} {count m : Nat} {file : TestFile}

/-- The calls of a run, if they have an end. -/
def calls (start : TestFile) (count : Nat) : Option Nat :=
  if start.loop < 0 then if start.frameNum = 0 then none else some start.frameNum
  else some (limited start.frameNum (count * (start.loop.toNat + 1)))

def handed (start : TestFile) (count m : Nat) : Option Chunk :=
  some { plane := chunkOf start (m % count), last := decide (some (m + 1) = calls start count) }

/-- The node behind `m` calls. -/
structure Runs (start : TestFile) (count m : Nat) (file : TestFile) : Prop where
  frameNum : file.frameNum = start.frameNum
  ended : file.ended = decide (calls start count = some m)
  onward : calls start count ≠ some m → file.frameCount = m ∧ Before start (m % count) file ∧
    file.loop = if start.loop < 0 then start.loop else start.loop - (m / count : Nat)

/-- The last call is the one that uses up the passes or the frames asked for. -/
theorem last_call (more : ∀ total ∈ calls start count, m < total) :
    calls start count = some (m + 1) ↔
      (0 ≤ start.loop ∧ m + 1 = count * (start.loop.toNat + 1)) ∨
        (0 < start.frameNum ∧ start.frameNum ≤ m + 1) := by
  unfold calls at more ⊢
  by_cases backward : start.loop < 0
  · rw [if_pos backward] at more ⊢
    by_cases unlimited : start.frameNum = 0
    · rw [if_pos unlimited]
      simp only [reduceCtorEq, false_iff]
      omega
    · rw [if_neg unlimited] at more ⊢
      have least := more _ rfl
      rw [Option.some.injEq]
      omega
  · rw [if_neg backward] at more ⊢
    have least := more _ rfl
    rw [Option.some.injEq]
    have reached := @limited_le start.frameNum (count * (start.loop.toNat + 1)) (m + 1)
    have early := @limited_le start.frameNum (count * (start.loop.toNat + 1)) m
    constructor
    · intro same
      have := reached.mp (Nat.le_of_eq same)
      omega
    · intro past
      have := reached.mpr (by omega)
      omega

/-- Within a pass, at the end of one, and at the end of the last one. -/
theorem Runs.fill (covers : Covers start count) (runs : Runs start count m file)
    (more : ∀ total ∈ calls start count, m < total) (plane : Plane) :
    ∃ next, fill file plane = (next, chunkOf start (m % count)) ∧ next.frameNum = start.frameNum ∧
      next.ended = false ∧ next.frameCount = m + 1 ∧
      (next.size ≤ next.offset ↔ 0 ≤ start.loop ∧ m + 1 = count * (start.loop.toNat + 1)) ∧
      (¬ next.size ≤ next.offset → Before start ((m + 1) % count) next ∧
        next.loop = if start.loop < 0 then start.loop else start.loop - ((m + 1) / count : Nat)) := by
  have going : calls start count ≠ some m := by
    intro same
    exact Nat.lt_irrefl m (more m same)
  obtain ⟨counted, before, loops⟩ := runs.onward going
  have active : file.ended = false := by rw [runs.ended, decide_eq_false going]
  have split := Nat.div_add_mod m count
  have positive := covers.positive
  have lap : 0 ≤ start.loop → m / count ≤ start.loop.toNat := by
    intro forward
    have least := more _ (if_neg (Int.not_lt.mpr forward))
    have bound : m < count * (start.loop.toNat + 1) :=
      Nat.lt_of_lt_of_le least (limited_le.mpr (.inl (Nat.le_refl _)))
    exact Nat.le_of_lt_succ (Nat.div_lt_of_lt_mul bound)
  rcases @next_place m count positive with ⟨less, place, round⟩ | ⟨full, place, round⟩
  · have inside := covers.inside less
    refine ⟨_, fill_within covers before less, runs.frameNum, active, congrArg (· + 1) counted, ?_, ?_⟩
    · dsimp only
      rw [before.size]
      constructor
      · intro past
        omega
      · rintro ⟨forward, same⟩
        have laps := Nat.mul_le_mul_left count (lap forward)
        rw [Nat.mul_succ] at same
        omega
    · intro _
      rw [place, round]
      exact ⟨⟨before.size, before.format, rfl⟩, loops⟩
  · by_cases again : file.loop = 0
    · have once : 0 ≤ start.loop ∧ m / count = start.loop.toNat := by
        rw [loops] at again
        split at again <;> omega
      refine ⟨_, fill_once covers before full again, runs.frameNum, active, congrArg (· + 1) counted, ?_, ?_⟩
      · dsimp only
        refine ⟨fun _ => ⟨once.1, ?_⟩, fun _ => Nat.le_refl _⟩
        rw [Nat.mul_succ, ← once.2]
        omega
      · intro less
        exact absurd (Nat.le_refl _) less
    · have lower : (if 0 < file.loop then file.loop - 1 else file.loop) =
          if start.loop < 0 then start.loop else start.loop - ((m + 1) / count : Nat) := by
        by_cases backward : start.loop < 0
        · rw [if_pos backward] at loops ⊢
          rw [loops, if_neg (by omega)]
        · rw [if_neg backward] at loops ⊢
          have := lap (by omega)
          rw [loops, round, if_pos (by omega)]
          omega
      have some_ : 0 < file.size := Nat.zero_lt_of_lt (before.ends covers full).1
      refine ⟨_, fill_again covers before full again, runs.frameNum, active, congrArg (· + 1) counted, ?_, ?_⟩
      · dsimp only
        constructor
        · intro past
          omega
        · rintro ⟨forward, same⟩
          have onward : m / count < start.loop.toNat := by
            have := lap forward
            rw [loops, if_neg (Int.not_lt.mpr forward)] at again
            omega
          have laps := Nat.mul_le_mul_left count (Nat.succ_le_of_lt onward)
          rw [Nat.mul_succ] at laps same
          omega
      · intro _
        rw [place]
        exact ⟨⟨before.size, before.format, (Nat.zero_mul _).symm⟩, lower⟩

theorem runs_feeds (covers : Covers start count) :
    Feeds visit Option.isSome (calls start count) (handed start count) (Runs start count) where
  wait := by
    intro m file idle runs without
    obtain rfl := Option.isSome_eq_false_iff.mp without |> Option.isNone_iff_eq_none.mp
    have same : visit file none = (file, none) := by
      unfold visit ifileRun
      split <;> rfl
    rw [same]
    exact ⟨rfl, runs⟩
  rest := by
    intro m file idle runs last
    have past : file.ended = true := runs.ended.trans (decide_eq_true last)
    rw [visit, if_pos past]
    exact ⟨rfl, runs⟩
  call := by
    intro m file idle runs found more
    obtain ⟨plane, rfl⟩ := Option.isSome_iff_exists.mp found
    have going : calls start count ≠ some m := by
      intro same
      exact Nat.lt_irrefl m (more m same)
    have active : file.ended = false := by rw [runs.ended, decide_eq_false going]
    obtain ⟨next, filled, frameNum, still, counted, past, onward⟩ := runs.fill covers more plane
    have last : (decide (next.size ≤ next.offset) ||
        (next.ended || decide (0 < next.frameNum ∧ next.frameNum ≤ next.frameCount))) =
        decide (calls start count = some (m + 1)) := by
      rw [still, Bool.false_or, ← Bool.decide_or, frameNum, counted]
      exact decide_eq_decide.mpr ((or_congr_left past).trans (last_call more).symm)
    rw [visit, active, if_neg Bool.false_ne_true, ifileRun, filled]
    dsimp only [push]
    rw [last]
    constructor
    · rw [handed]
      congr 2
      exact decide_eq_decide.mpr eq_comm
    · refine ⟨frameNum, rfl, ?_⟩
      intro more
      have open_ : ¬ next.size ≤ next.offset := fun full => more ((last_call ‹_›).mpr (.inl (past.mp full)))
      obtain ⟨before, loops⟩ := onward open_
      exact ⟨counted, ⟨before.size, before.format, before.offset⟩, loops⟩

theorem runs_start (covers : Covers start count) (fresh : start.offset = 0 ∧ start.frameCount = 0)
    (active : start.ended = false) : Runs start count 0 start where
  frameNum := rfl
  ended := by
    have more : calls start count ≠ some 0 := by
      unfold calls
      split
      · split <;> simp_all
      · have positive : 0 < count * (start.loop.toNat + 1) := Nat.mul_pos covers.positive (Nat.succ_pos _)
        have := @limited_le start.frameNum (count * (start.loop.toNat + 1)) 0
        rw [ne_eq, Option.some.injEq]
        omega
    rw [active, decide_eq_false more]
  onward := by
    intro _
    refine ⟨fresh.2, ⟨rfl, rfl, by rw [fresh.1, Nat.zero_mod, Nat.zero_mul]⟩, ?_⟩
    rw [Nat.zero_div]
    split <;> simp

/-- What a run of so many calls hands on. -/
theorem run_emits (covers : Covers start count) (fresh : start.offset = 0 ∧ start.frameCount = 0)
    (active : start.ended = false) {total : Nat} (ends : calls start count = some total) :
    Emits visit Option.isSome (fun file => file.ended = true) start
      ((List.range total).map fun j => { plane := chunkOf start (j % count), last := j + 1 = total }) := by
  have feeds := @runs_feeds start count covers
  rw [ends] at feeds
  rw [feeds.emits_iff (runs_start covers fresh active) ?past ⟨some ⟨0, 0⟩, rfl⟩]
  case past =>
    intro m file _ runs
    rw [runs.ended, decide_eq_true_iff, ends, Option.some.injEq, eq_comm]
  refine ⟨?_, fun _ => rfl⟩
  rw [← List.filterMap_eq_map]
  apply List.filterMap_congr
  intro j _
  rw [handed, ends]
  simp [eq_comm]

theorem replicate_pass (start : TestFile) (count r : Nat) :
    (List.replicate r (passOf start.size start.format.size count)).flatten =
      (List.range (count * r)).map fun j => chunkOf start (j % count) := by
  have same : passOf start.size start.format.size count = (List.range count).map (chunkOf start) := rfl
  rw [same, ← List.map_replicate, ← List.map_flatten, replicate_range, List.map_map]
  rfl

theorem lastMarked_pass (start : TestFile) (count r : Nat) :
    lastMarked (upTo start.frameNum
        (List.replicate r (passOf start.size start.format.size count)).flatten) =
      (List.range (limited start.frameNum (count * r))).map fun j =>
        { plane := chunkOf start (j % count), last := j + 1 = limited start.frameNum (count * r) } := by
  have cut : upTo start.frameNum (List.replicate r (passOf start.size start.format.size count)).flatten =
      (List.range (limited start.frameNum (count * r))).map fun j => chunkOf start (j % count) := by
    rw [replicate_pass, upTo, limited]
    split
    · rfl
    · rw [← List.map_take, List.take_range]
  rw [cut, lastMarked]
  apply List.ext_getElem?
  intro j
  rw [List.getElem?_mapIdx, List.getElem?_map, List.getElem?_map]
  rcases Nat.lt_or_ge j (limited start.frameNum (count * r)) with less | more
  · rw [List.getElem?_range less]
    simp
  · rw [List.getElem?_eq_none (by simpa using more)]
    rfl

theorem chunked_of_covers (covers : Covers start count) (fresh : start.offset = 0 ∧ start.frameCount = 0)
    (active : start.ended = false) : Chunked start := by
  refine ⟨count, covers.positive, covers.before, covers.whole, ?_, ?_, ?_⟩
  · intro forward
    rw [lastMarked_pass]
    exact run_emits covers fresh active (if_neg (Int.not_lt.mpr forward))
  · intro backward positive
    have total : limited start.frameNum (count * start.frameNum) = start.frameNum := by
      have := Nat.le_mul_of_pos_left start.frameNum covers.positive
      rw [limited, if_neg (Nat.ne_of_gt positive), Nat.min_eq_left this]
    rw [lastMarked_pass, total]
    apply run_emits covers fresh active
    rw [calls, if_pos backward, if_neg (Nat.ne_of_gt positive)]
  · intro backward unlimited idles
    have never : calls start count = none := by rw [calls, if_pos backward, if_pos unlimited]
    obtain ⟨out, behind_⟩ := (runs_feeds covers).from_start (runs_start covers fresh active) idles
    rw [never, made] at out behind_
    refine ⟨?_, ?_⟩
    · rw [behind_.ended, never]
      rfl
    · rw [out, replicate_pass, ← List.map_take, List.take_range, Nat.min_eq_left
        (Nat.le_mul_of_pos_left _ covers.positive), List.map_map, ← List.filterMap_eq_map]
      apply List.filterMap_congr
      intro j _
      rw [handed, never]
      simp

end run

theorem covers_of_pos {start : TestFile} (file : 0 < start.size) (chunk : 0 < start.format.size) :
    Covers start (divRoundUp start.size start.format.size) := by
  have split := Nat.div_add_mod (start.size + start.format.size - 1) start.format.size
  have below := Nat.mod_lt (start.size + start.format.size - 1) chunk
  have comm : start.format.size * divRoundUp start.size start.format.size =
      divRoundUp start.size start.format.size * start.format.size := Nat.mul_comm _ _
  unfold divRoundUp at *
  refine ⟨Nat.div_pos (by omega) chunk, ?_, by omega⟩
  rw [Nat.sub_mul]
  omega

/-- A file is handed on in chunks that cover it, exactly where the picture has a size. -/
theorem ifileRun_chunks_iff (fileSize : Nat) (format : PixelFormat) (width height alignment frameNum : Nat)
    (loop : Int) (file : TestFile)
    (accepted : initIfileNode fileSize format width height alignment frameNum loop = some file) :
    Chunked file ↔ format = .jpeg ∨
      ∃ fmt, Word.pitcherGetPixFmtInfo { format, width, height } alignment = some fmt ∧ fmt.size ≠ 0 := by
  unfold initIfileNode at accepted
  split at accepted
  case isTrue => cases accepted
  case isFalse some_ =>
    cases Option.some.inj accepted
    have size : (ifileFormat fileSize format width height alignment).size ≠ 0 ↔ format = .jpeg ∨
        ∃ fmt, Word.pitcherGetPixFmtInfo { format, width, height } alignment = some fmt ∧ fmt.size ≠ 0 := by
      unfold ifileFormat
      dsimp only
      by_cases jpeg : format = .jpeg
      · simp [jpeg, some_]
      · rw [if_neg jpeg]
        cases Word.pitcherGetPixFmtInfo { format, width, height } alignment <;> simp [jpeg]
    rw [← size]
    constructor
    · rintro ⟨count, -, -, whole, -⟩ blank
      dsimp only at whole
      rw [blank, Nat.mul_zero] at whole
      omega
    · intro chunk
      exact chunked_of_covers (covers_of_pos (Nat.pos_of_ne_zero some_) (Nat.pos_of_ne_zero chunk))
        ⟨rfl, rfl⟩ rfl

/-- Two pictures of 4x2 samples, and half of one. -/
theorem ifileRun_chunks_three :
    ∃ file, initIfileNode 30 .nv12 4 2 0 0 1 = some file ∧
      (Chunked file ↔ PixelFormat.nv12 = .jpeg ∨
        ∃ fmt, Word.pitcherGetPixFmtInfo { format := .nv12, width := 4, height := 2 } 0 = some fmt ∧
          fmt.size ≠ 0) :=
  ⟨_, rfl, ifileRun_chunks_iff 30 .nv12 4 2 0 0 1 _ rfl⟩

/-- Chunks without a size: no call gets on with the file. -/
theorem empty_chunks {file : TestFile} (blank : file.format.size = 0) (inside : file.offset < file.size)
    (unlimited : file.frameNum = 0) (active : file.ended = false) (idles : List (Option Plane)) :
    (behind visit file idles).ended = false ∧ ∀ chunk ∈ outputs visit file idles, chunk.plane.bytesused = 0 := by
  induction idles generalizing file with
  | nil => exact ⟨active, by simp [outputs]⟩
  | cons idle idles ih =>
    cases idle with
    | none =>
      have same : visit file none = (file, none) := by rw [visit, active]; rfl
      simp only [behind, outputs, same]
      exact ih blank inside unlimited active
    | some plane =>
      have step : visit file (some plane) = ({ file with frameCount := file.frameCount + 1 },
          some { plane := ⟨file.offset, 0⟩, last := false }) := by
        have open_ : ¬ file.size ≤ file.offset := Nat.not_le.mpr inside
        rw [visit, active]
        simp [ifileRun, fill, push, ifileAllocBuffer, blank, inside, Nat.le_of_lt inside, open_, unlimited,
          active]
      simp only [behind, outputs, step]
      obtain ⟨still, empty⟩ := @ih { file with frameCount := file.frameCount + 1 } blank inside unlimited active
      refine ⟨still, ?_⟩
      intro chunk mem
      rcases List.mem_append.mp mem with now | later
      · rw [Option.toList_some, List.mem_singleton] at now
        rw [now]
      · exact empty chunk later

/-- A picture without a width: the node hands on empty chunks and never ends. -/
theorem ifileRun_empty :
    ∃ file, initIfileNode 30 .nv12 0 2 0 0 0 = some file ∧ ¬ Chunked file ∧
      ∀ idles, (behind visit file idles).ended = false := by
  have blank : (ifileFormat 30 .nv12 0 2 0).size = 0 := by decide
  refine ⟨_, rfl, ?_, fun idles => (empty_chunks blank (by decide) rfl rfl idles).1⟩
  rintro ⟨count, -, -, whole, -⟩
  dsimp only at whole
  rw [blank, Nat.mul_zero] at whole
  omega

end ImxTest.Pitcher.FileInput
