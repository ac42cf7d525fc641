import ImxTest.Lib.While
import ImxTest.Pitcher.Memory

/-! The IVF container: the reader of pitcher/vpx_parse.c and the writers that
`ofile_insert_header` calls for VP8. The reader keeps the sum of four size bytes
in an `int`, so a size of 2^31 or more is negative, and nothing rejects it. -/
namespace ImxTest.Pitcher.Ivf

open Lib.While

def ivfHdrSize : Nat := 32
def frameHdrSize : Nat := 12

/-- "DKIF", "VP80" and "VP90". -/
def dkif : List UInt8 := [0x44, 0x4b, 0x49, 0x46]
def vp80 : List UInt8 := [0x56, 0x50, 0x38, 0x30]
def vp90 : List UInt8 := [0x56, 0x50, 0x39, 0x30]

/-- The local variables of the loop; `current` as its distance from `virt`. -/
structure Locals where
  current : Int
  leftBytes : Int
  frameIdx : Nat := 0
  parser : PitcherParser

/-- The `int` expression `current[0] + (current[1] << 8) + ...`. -/
def frameSize (p : PitcherParser) (current : Int) : Except Outside Int := do
  let c0 ← load p current
  let c1 ← load p (current + 1)
  let c2 ← load p (current + 2)
  let c3 ← load p (current + 3)
  .ok (int32 (c0.toNat + c1.toNat <<< 8 + c2.toNat <<< 16 + c3.toNat <<< 24 : Nat))

def turn (v : Locals) : Except Outside (Turn Locals PitcherParser) :=
  if frameHdrSize < v.leftBytes then do
    let size ← frameSize v.parser v.current
    let current := v.current + frameHdrSize
    let leftBytes := v.leftBytes - frameHdrSize
    if leftBytes < size then .ok (.leave v.parser)
    else .ok (.again
      { current := current + size
        leftBytes := leftBytes - size
        frameIdx := v.frameIdx + 1
        parser := pitcherParserPushNewFrame v.parser (v.parser.size - leftBytes) size v.frameIdx })
  else .ok (.leave v.parser)

/-- Whether the tests in front of the loop accept the file. -/
def accepts (p : PitcherParser) : Except Outside Bool :=
  if p.size < ivfHdrSize then .ok false
  else do
    let signature ← strncmp p dkif 0 5
    if ¬ signature then .ok false
    else do
      let first ← strncmp p vp80 8 4
      if first then .ok true else strncmp p vp90 8 4

/-- `parser->width` and `parser->height` are set from the header. -/
def resolution (p : PitcherParser) : Except Outside PitcherParser := do
  let c12 ← load p 12
  let c13 ← load p 13
  let c14 ← load p 14
  let c15 ← load p 15
  .ok { p with
    width := c12.toNat ||| c13.toNat <<< 8
    height := c14.toNat ||| c15.toNat <<< 8 }

/-- `none` stands for a loop still running after `fuel` turns. -/
def vpxParse (fuel : Nat) (p : PitcherParser) : Option (Except Outside (Ret × PitcherParser)) :=
  match accepts p with
  | .error e => some (.error e)
  | .ok false => some (.ok (.E_INVAL, p))
  | .ok true =>
    match resolution p with
    | .error e => some (.error e)
    | .ok q =>
      (run turn fuel
        { current := ivfHdrSize, leftBytes := q.size - ivfHdrSize, parser := q }).map
          (Except.map (Prod.mk .OK))

/-! ## The writers -/

/-- The low byte of a number shifted right, as an assignment to a `char` keeps it. -/
def byteAt (n shift : Nat) : UInt8 := UInt8.ofNat (n >>> shift)

def vp8InsertIvfSeqhdr (width height frameRate : Nat) : List UInt8 :=
  [0x44, 0x4b, 0x49, 0x46, 0x00, 0x00, 32, byteAt 32 8, 0x56, 0x50, 0x38, 0x30,
    byteAt width 0, byteAt width 8, byteAt height 0, byteAt height 8,
    byteAt frameRate 0, byteAt frameRate 8, byteAt frameRate 16, byteAt frameRate 24,
    0x01, 0x00, 0x00, 0x00, 0xff, 0xff, 0xff, 0xff, 0, 0, 0, 0]

def vp8InsertIvfPichdr (frameSize : Nat) : List UInt8 :=
  [byteAt frameSize 0, byteAt frameSize 8, byteAt frameSize 16, byteAt frameSize 24,
    0, 0, 0, 0, 0, 0, 0, 0]

/-- What a VP8 output node has written, and its `frame_count`. -/
structure Ofile where
  width : Nat
  height : Nat
  framerate : Nat
  frameCount : Nat := 0
  written : List UInt8 := []

/-- `planes` holds the used bytes of each plane of the buffer. -/
def ofileInsertHeader (file : Ofile) (planes : List (List UInt8)) : Ofile :=
  let dataLen := (planes.map List.length).sum
  let file :=
    if file.frameCount = 0 then
      { file with written := file.written ++ vp8InsertIvfSeqhdr file.width file.height file.framerate }
    else file
  { file with written := file.written ++ vp8InsertIvfPichdr dataLen }

/-- `ofile_run` for a buffer of a compressed format; a buffer whose first plane
is empty writes nothing. -/
def ofileRun (file : Ofile) (planes : List (List UInt8)) : Ofile :=
  if (planes.headD []).length = 0 then file
  else
    let file := ofileInsertHeader file planes
    { file with
      written := file.written ++ planes.flatten
      frameCount := file.frameCount + 1 }

/-- A frame header and the payload behind it. -/
def record (frame : List UInt8) : List UInt8 := vp8InsertIvfPichdr frame.length ++ frame

def ivfFile (width height frameRate : Nat) (frames : List (List UInt8)) : List UInt8 :=
  vp8InsertIvfSeqhdr width height frameRate ++ frames.flatMap record

theorem ofileRun_frame {file : Ofile} {frame : List UInt8} (nonempty : frame ≠ []) :
    ofileRun file [frame] =
      { file with
        frameCount := file.frameCount + 1
        written := file.written ++
          (if file.frameCount = 0 then
            vp8InsertIvfSeqhdr file.width file.height file.framerate else []) ++ record frame } := by
  have long : frame.length ≠ 0 := fun zero => nonempty (List.eq_nil_of_length_eq_zero zero)
  cases file with
  | mk width height framerate frameCount written =>
    by_cases first : frameCount = 0
    · simp [ofileRun, ofileInsertHeader, record, long, first]
    · simp [ofileRun, ofileInsertHeader, record, long, first]

/-- What an output node writes for a run of frames, from its start on. -/
theorem ofileRun_written (width height framerate : Nat) {frame : List UInt8} {frames : List (List UInt8)}
    (nonempty : ∀ f ∈ frame :: frames, f ≠ []) :
    (((frame :: frames).map ([·])).foldl ofileRun { width, height, framerate }).written =
      ivfFile width height framerate (frame :: frames) := by
  have later : ∀ (fs : List (List UInt8)) (file : Ofile), (∀ f ∈ fs, f ≠ []) → file.frameCount ≠ 0 →
      ((fs.map ([·])).foldl ofileRun file).written = file.written ++ fs.flatMap record := by
    intro fs
    induction fs with
    | nil => simp
    | cons f fs ih =>
      intro file nonempty started
      rw [List.map_cons, List.foldl_cons, ofileRun_frame (nonempty f List.mem_cons_self), ih]
      · simp [started]
      · exact fun g mem => nonempty g (List.mem_cons_of_mem f mem)
      · simp
  rw [List.map_cons, List.foldl_cons, ofileRun_frame (nonempty frame List.mem_cons_self), later]
  · simp [ivfFile]
  · exact fun g mem => nonempty g (List.mem_cons_of_mem frame mem)
  · simp

end ImxTest.Pitcher.Ivf
