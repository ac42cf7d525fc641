import ImxTest.Pitcher.Bitstream
import ImxTest.Pitcher.Parse

/-! pitcher/h264_parse.c. `h264_check_frame` keeps its counters in the private data
of a parse, and the place of a sequence parameter set not yet read in a static
variable that outlives it. -/
namespace ImxTest.Pitcher.H264

/-- `struct h264_parse_t`, all `uint32_t`. -/
structure H264ParseT where
  headerCnt : Nat := 0
  configFound : Nat := 0
  maxFrameNum : Nat := 0
  frameMbsOnlyFlag : Nat := 0
  tfFound : Nat := 0
  bfFound : Nat := 0
  preFrameNum : Nat := 0
  curFrameNum : Nat := 0
  frameCnt : Nat := 0
deriving DecidableEq, Repr

/-- The loop of `scaling_list` from index `i` on. -/
def scalingListFrom : (todo i lastScale nextScale : Nat) → Reads Unit
  | 0, _, _, _ => pure ()
  | todo + 1, i, lastScale, nextScale =>
    if nextScale ≠ 0 then do
      let delta ← readSvlc
      let nextScale := (((lastScale : Int) + delta + 256) % 2 ^ 32).toNat &&& 0xFF
      if i = 0 ∧ nextScale = 0 then pure ()
      else
        let scalingVal := if nextScale ≠ 0 then nextScale else lastScale
        scalingListFrom todo (i + 1) (scalingVal % 2 ^ 8) nextScale
    else scalingListFrom todo (i + 1) (lastScale % 2 ^ 8) nextScale

def scalingList (idx : Nat) : Reads Unit := scalingListFrom (if idx < 6 then 16 else 64) 0 8 8

/-- The loop over the scaling lists, from list `i` on. -/
def scalingLists : (todo i : Nat) → Reads Unit
  | 0, _ => pure ()
  | todo + 1, i => do
    let value ← readFlag
    .when (value ≠ 0) (scalingList i)
    scalingLists todo (i + 1)

/-- The part of `parse_sps_info` for the profiles from 100 on. -/
def parseChromaInfo : Reads Unit := do
  let chromaFormatIdc ← readUvlc
  .when (chromaFormatIdc = 3) (discard readFlag)
  discard readUvlc
  discard readUvlc
  discard readFlag
  let value ← readFlag
  .when (value ≠ 0) (if chromaFormatIdc = 3 then .fail .assertion else scalingLists 8 0)

/-- `offset_for_ref_frame`. -/
def parseOffsets : (todo : Nat) → Reads Unit
  | 0 => pure ()
  | todo + 1 => do
    discard readSvlc
    parseOffsets todo

def parsePicOrderCnt : Reads Unit := do
  let picOrderCntType ← readUvlc
  if picOrderCntType = 0 then discard readUvlc
  else .when (picOrderCntType = 1) do
    discard readFlag
    discard readSvlc
    discard readSvlc
    let value ← readUvlc
    parseOffsets value

/-- From `max_num_ref_frames` on; the value is `frame_mbs_only_flag`. -/
def parseFrameInfo : Reads Nat := do
  discard readUvlc
  discard readFlag
  discard readUvlc
  discard readUvlc
  let frameMbsOnlyFlag ← readFlag
  .when (frameMbsOnlyFlag = 0) (discard readFlag)
  discard readFlag
  let value ← readFlag
  .when (value ≠ 0) do
    discard readUvlc
    discard readUvlc
    discard readUvlc
    discard readUvlc
  discard readFlag
  pure frameMbsOnlyFlag

/-- `1 << n` for an `int` and a `uint32_t`. -/
def shiftOne (n : Nat) : Except Fault Nat := if 32 ≤ n then .error .shift else .ok (1 <<< n)

/-- Up to `seq_parameter_set_id`; the value is `profile_idc`. -/
def parseProfile : Reads Nat := do
  let profileIdc ← readCode 8
  discard readFlag
  discard readFlag
  discard readFlag
  discard readFlag
  discard readFlag
  discard readFlag
  discard (readCode 2)
  discard (readCode 8)
  discard readUvlc
  pure profileIdc

/-- The two values `parse_sps_info` stores. -/
def parseSps : Reads (Nat × Nat) := do
  let profileIdc ← parseProfile
  .when (100 ≤ profileIdc) parseChromaInfo
  let value ← readUvlc
  let maxFrameNum ← .check (shiftOne ((value + 4) % 2 ^ 32))
  parsePicOrderCnt
  let frameMbsOnlyFlag ← parseFrameInfo
  pure (maxFrameNum, frameMbsOnlyFlag)

def parseSpsInfo (info : H264ParseT) : Reads H264ParseT := do
  let (maxFrameNum, frameMbsOnlyFlag) ← parseSps
  pure { info with maxFrameNum, frameMbsOnlyFlag }

/-- `while (info->max_frame_num >> i) i++;` from `i` on, where `todo` more values of
`i` are below the width of the operand. -/
def frameNumWidthFrom (maxFrameNum : Nat) : (todo i : Nat) → Except Fault Nat
  | 0, _ => .error .shift
  | todo + 1, i => if maxFrameNum >>> i = 0 then .ok i else frameNumWidthFrom maxFrameNum todo (i + 1)

def frameNumWidth (maxFrameNum : Nat) : Except Fault Nat := frameNumWidthFrom maxFrameNum 32 0

/-- The decision on a field: `boundary_find`, and the fields found so far. -/
def findField (info : H264ParseT) (bottomFieldFlag : Nat) : Bool × H264ParseT :=
  let boundaryFind := info.bfFound == info.tfFound
  let info := if boundaryFind then { info with tfFound := 0, bfFound := 0 } else info
  let info :=
    if bottomFieldFlag ≠ 0 then { info with bfFound := 1 } else { info with tfFound := 1 }
  (boundaryFind || info.curFrameNum != info.preFrameNum, info)

/-- What follows the reads of `parse_slice_header_info` for the first slice of a
frame or field. -/
def findBoundary (info : H264ParseT) (frameNum fieldPicFlag bottomFieldFlag : Nat) : Bool × H264ParseT :=
  let info := { info with
    preFrameNum := if info.frameCnt = 0 then 2 ^ 32 - 1 else info.curFrameNum
    curFrameNum := frameNum
    frameCnt := (info.frameCnt + 1) % 2 ^ 32 }
  if info.frameMbsOnlyFlag ≠ 0 then (true, info)
  else if fieldPicFlag = 0 then (true, info)
  else findField info bottomFieldFlag

/-- `field_pic_flag` and `bottom_field_flag`, where they are read. -/
def parseFieldFlags (frameMbsOnlyFlag : Nat) : Reads (Nat × Nat) :=
  if frameMbsOnlyFlag = 0 then do
    let fieldPicFlag ← readFlag
    if fieldPicFlag ≠ 0 then do
      let bottomFieldFlag ← readFlag
      pure (fieldPicFlag, bottomFieldFlag)
    else pure (fieldPicFlag, 0)
  else pure (0, 0)

/-- `new_frame`, and the counters. -/
def parseSliceHeaderInfo (info : H264ParseT) (idrFlag : Bool) : Reads (Bool × H264ParseT) := do
  let firstMbInSlice ← readUvlc
  discard readUvlc
  discard readUvlc
  let i ← .check (frameNumWidth info.maxFrameNum)
  let frameNum ← readCode ((i + 2 ^ 32 - 1) % 2 ^ 32)
  let (fieldPicFlag, bottomFieldFlag) ← parseFieldFlags info.frameMbsOnlyFlag
  let (newFrame, info) := if firstMbInSlice = 0 then
      findBoundary info frameNum fieldPicFlag bottomFieldFlag else (false, info)
  .when idrFlag (discard readUvlc)
  pure (newFrame, info)

/-- What `h264_check_frame` works on: the private data of the parse, and the static
`psps` as a buffer and a place in it. -/
structure H264State where
  info : H264ParseT := {}
  psps : Option (Nat × Nat) := none
  /-- The first address past all those `nal_remove_emul_bytes` has read. -/
  reach : Nat := 0
deriving DecidableEq, Repr

/-- A `uint32_t` taken as an `int`. -/
def asInt (n : Nat) : Int := if n < 2 ^ 31 then n else n - 2 ^ 32

def MAX_SLICE_HDR_SZ : Nat := 32

/-- The bytes of a unit of `size` bytes without the header and the emulation
prevention bytes, read by `reads`, and the assertion behind it. -/
def parseNal {α : Type} (reads : Reads α) (virt : Nat → UInt8) (p size limit : Nat) :
    Except Fault (α × Nat) := do
  let nal := nalRemoveEmulBytes virt p (asInt size) 1 0x000003
  let (a, bs) ← reads.run (bsInit nal.rbsp)
  if limit < ((bs.numBitsRead + 7) % 2 ^ 32) >>> 3 then .error .assertion
  else .ok (a, nal.reach)

/-- `p - psps` as a `uint32_t`. -/
def spsSize (p psps : Nat) : Nat := (((p : Int) - psps) % 2 ^ 32).toNat

/-- The sequence parameter set the call before has found, up to `p`. -/
def checkPsps (buffer : Nat) (virt : Nat → UInt8) (p : Nat) (s : H264State) :
    Except Fault H264State :=
  match s.psps with
  | none => .ok s
  | some (owner, psps) =>
    if owner ≠ buffer then .error .stalePointer
    else do
      let size := spsSize p psps
      let (info, reach) ← parseNal (parseSpsInfo s.info) virt psps size size
      .ok { info, psps := none, reach := max s.reach reach }

/-- The callback of a parse of the buffer of this number. -/
def h264CheckFrame (buffer : Nat) : CheckFrame Fault H264State := fun virt p size s =>
  if size < 2 then .ok (.UNKNOWN, s)
  else do
    let type := (virt p).toNat &&& 0x1f
    let s ← checkPsps buffer virt p s
    if type = 1 ∨ type = 5 then
      if s.info.headerCnt = 0 then .ok (.UNKNOWN, s)
      else do
        let ((newFrame, info), reach) ← parseNal (parseSliceHeaderInfo s.info (type == 5)) virt p
          (min size MAX_SLICE_HDR_SZ) MAX_SLICE_HDR_SZ
        .ok (if newFrame then .FRAME else .UNKNOWN, { s with info, reach := max s.reach reach })
    else if type = 7 then
      .ok (.CONFIG, { s with
        info := { s.info with headerCnt := (s.info.headerCnt + 1) % 2 ^ 32, configFound := 1 }
        psps := some (buffer, p) })
    else if type = 8 ∨ type = 6 then .ok (.CONFIG, { s with info := { s.info with configFound := 1 } })
    else .ok (.UNKNOWN, s)

/-- A parse of the buffer of this number, where earlier ones have left `psps`. -/
def h264Parse (buffer : Nat) (parser : PitcherParser) (psps : Option (Nat × Nat)) :
    Except Fault (Ret × PitcherParser × H264State) :=
  pitcherParseStartcode parser h264Scode (some (h264CheckFrame buffer)) { psps }

end ImxTest.Pitcher.H264
