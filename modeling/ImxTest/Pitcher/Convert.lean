import ImxTest.Pitcher.Def
import ImxTest.Pitcher.PixFmt
import ImxTest.Lib.Writes

/-! The conversions of pitcher/convert.c. A plane is an array of lines of samples,
since a line is at least as long as a picture needs; a sample is a byte or, in the
formats with more than 8 bits, a 16-bit word. -/
namespace ImxTest.Pitcher.Convert
open Lib.Writes

/-- Plane, line and place in the line. -/
abbrev Cell := Nat × Nat × Nat

abbrev Samples := Cell → UInt16

/-- What a buffer shows, whatever its format. -/
structure Picture where
  width : Nat
  height : Nat
  interlaced : Bool := false
  samples : Samples

/-- A buffer. -/
structure Frame extends Picture where
  format : PixelFormat

def Picture.as (picture : Picture) (format : PixelFormat) : Frame := { picture with format }

abbrev Writes := List (Cell × UInt16)

/-- `DIV_ROUND_UP(n, 2)` -/
def halfUp (n : Nat) : Nat := (n + 1) / 2

/-- A loop over lines or samples. -/
def each (n : Nat) (body : Nat → Writes) : Writes := (List.range n).flatMap body

/-- The samples of a line that are copied, each through `f`. -/
def copyLine (f : UInt16 → UInt16) (src : Samples) (plane y n : Nat) : Writes :=
  each n fun x => [((plane, y, x), f (src (plane, y, x)))]

/-! ## Unpacking and packing -/

def unpackI420 (f : UInt16 → UInt16) (src : Picture) : Writes :=
  each src.height fun y => copyLine f src.samples 0 y src.width ++
    if y < halfUp src.height then
      each (halfUp src.width) fun x =>
        [((1, y, x * 2), f (src.samples (1, y, x))), ((1, y, x * 2 + 1), f (src.samples (2, y, x)))]
    else []

def swcUnpackI420 := unpackI420 id

def swcUnpackI420_10le := unpackI420 (· <<< 6)

def packI420 (f : UInt16 → UInt16) (src : Picture) : Writes :=
  each src.height fun y => copyLine f src.samples 0 y src.width ++
    if y < halfUp src.height then
      each (halfUp src.width) fun x =>
        [((1, y, x), f (src.samples (1, y, x * 2))), ((2, y, x), f (src.samples (1, y, x * 2 + 1)))]
    else []

def swcPackI420 := packI420 id

def swcPackI420_10le := packI420 (· >>> 6)

def swcUnpackNv21 (src : Picture) : Writes :=
  each src.height fun y => copyLine id src.samples 0 y src.width ++
    if y < halfUp src.height then
      each (halfUp src.width) fun x =>
        [((1, y, x * 2), src.samples (1, y, x * 2 + 1)), ((1, y, x * 2 + 1), src.samples (1, y, x * 2))]
    else []

def swcPackNv21 := swcUnpackNv21

/-- The chroma that a grey picture gets. -/
def unpackGray (chroma : UInt16) (src : Picture) : Writes :=
  each src.height fun y => copyLine id src.samples 0 y src.width ++
    if y < halfUp src.height then
      each (halfUp src.width) fun x => [((1, y, x * 2), chroma), ((1, y, x * 2 + 1), chroma)]
    else []

def swcUnpackGray := unpackGray 128

def swcUnpackY16 := unpackGray ((128 : UInt16) <<< 8)

def packGray (src : Picture) : Writes :=
  each src.height fun y => copyLine id src.samples 0 y src.width

def swcPackGray := packGray

def swcPackY16 := packGray

def unpackYuyv (src : Picture) : Writes :=
  each src.height fun y => each src.width fun x =>
    ((0, y, x), src.samples (0, y, x * 2)) ::
      if y % 2 = 0 then [((1, y / 2, x), src.samples (0, y, x * 2 + 1))] else []

def swcUnpackYuyv := unpackYuyv

def swcUnpackY212 := unpackYuyv

def packYuyv (src : Picture) : Writes :=
  each src.height fun y => each src.width fun x =>
    [((0, y, x * 2), src.samples (0, y, x)), ((0, y, x * 2 + 1), src.samples (1, y / 2, x))]

def swcPackYuyv := packYuyv

def swcPackY212 := packYuyv

def unpackYuv24 (src : Picture) : Writes :=
  each src.height fun y => each src.width fun x =>
    ((0, y, x), src.samples (0, y, x * 3)) ::
      if y % 2 = 0 ∧ x % 2 = 0 then
        [((1, y / 2, x), src.samples (0, y, x * 3 + 1)),
          ((1, y / 2, x + 1), src.samples (0, y, x * 3 + 2))]
      else []

def swcUnpackYuv24 := unpackYuv24

def swcUnpackYuv48_12 := unpackYuv24

def packYuv24 (src : Picture) : Writes :=
  each src.height fun y => each src.width fun x =>
    [((0, y, x * 3), src.samples (0, y, x)), ((0, y, x * 3 + 1), src.samples (1, y / 2, x / 2 * 2)),
      ((0, y, x * 3 + 2), src.samples (1, y / 2, x / 2 * 2 + 1))]

def swcPackYuv24 := packYuv24

def swcPackYuv48_12 := packYuv24

/-- Two planes, of each of which `width` samples of a line are taken. -/
def copyPlanes (f : UInt16 → UInt16) (src : Picture) : Writes :=
  each src.height fun y => copyLine f src.samples 0 y src.width ++
    if y < halfUp src.height then copyLine f src.samples 1 y src.width else []

def swcCopyNv12 := copyPlanes id

def swcCopyP0xx := copyPlanes id

def swcUnpackNv12_10le := copyPlanes (· <<< 6)

/-- The luma is written twice. -/
def swcPackNv12_10le (src : Picture) : Writes :=
  each src.height fun y => copyLine id src.samples 0 y src.width ++
    (copyLine (· >>> 6) src.samples 0 y src.width ++
      if y < halfUp src.height then copyLine (· >>> 6) src.samples 1 y src.width else [])

/-- All of both planes, each sample through `f`. -/
def cvrtDepth (f : UInt16 → UInt16) (src : Picture) : Writes :=
  each src.height fun y => copyLine f src.samples 0 y src.width ++
    if y < halfUp src.height then
      each (halfUp src.width) fun x =>
        [((1, y, x * 2), f (src.samples (1, y, x * 2))),
          ((1, y, x * 2 + 1), f (src.samples (1, y, x * 2 + 1)))]
    else []

def pitcherSwCvrt8To16 := cvrtDepth (· <<< 8)

def pitcherSwCvrt16To8 := cvrtDepth (· >>> 8)

/-! ## The dispatcher -/

/-- `desc->comp[0].depth`, which is 0 where not set. -/
def depth : PixelFormat → Nat
  | .i420 | .nv12 | .nv21 | .nv16 | .yuyv | .yuv24 | .nv12_8l128 | .dtrc | .rgb24 | .rgba | .bgr24
  | .bgr32 | .argb | .rgbx | .abgr | .gray => 8
  | .i420_10le | .nv12_10le | .nv12_10be_8l128 | .dtrc10 | .p010 | .nvx2 => 10
  | .p012 | .bgr48_12 | .abgr64_12 | .y012 | .y212 | .yuv48_12 => 12
  | .p016 | .y16 => 16
  | .rgb565 | .bgr565 => 6
  | .rgb555 => 5
  | _ => 0

/-- The unpackers of the formats whose lines are no lines of samples:
`swc_unpack_tiled_nv12`, `swc_unpack_nvx2` and `swc_unpack_nv12_10be_8l128`. -/
structure Unpackers where
  tiledNv12 : Frame → Writes
  nvx2 : Frame → Writes
  nv12_10be_8l128 : Frame → Writes

/-- Nothing stands for `-RET_E_NOT_SUPPORT`. -/
def pitcherSwUnpack (unpackers : Unpackers) (src : Frame) : Option Writes :=
  match src.format with
  | .nv12_8l128 => some (unpackers.tiledNv12 src)
  | .i420 => some (swcUnpackI420 src.toPicture)
  | .yuyv => some (swcUnpackYuyv src.toPicture)
  | .nv21 => some (swcUnpackNv21 src.toPicture)
  | .nv12 => some (swcCopyNv12 src.toPicture)
  | .gray => some (swcUnpackGray src.toPicture)
  | .yuv24 => some (swcUnpackYuv24 src.toPicture)
  | _ => none

def pitcherSwPack (src : Picture) (dst : PixelFormat) : Option Writes :=
  match dst with
  | .i420 => some (swcPackI420 src)
  | .yuyv => some (swcPackYuyv src)
  | .nv21 => some (swcPackNv21 src)
  | .nv12 => some (swcCopyNv12 src)
  | .gray => some (swcPackGray src)
  | .yuv24 => some (swcPackYuv24 src)
  | _ => none

def pitcherSwUnpack16 (unpackers : Unpackers) (src : Frame) : Option Writes :=
  match src.format with
  | .nv12_10le => some (swcUnpackNv12_10le src.toPicture)
  | .i420_10le => some (swcUnpackI420_10le src.toPicture)
  | .nvx2 => some (unpackers.nvx2 src)
  | .p010 | .p012 => some (swcCopyP0xx src.toPicture)
  | .nv12_10be_8l128 => some (unpackers.nv12_10be_8l128 src)
  | .y012 | .y16 => some (swcUnpackY16 src.toPicture)
  | .y212 => some (swcUnpackY212 src.toPicture)
  | .yuv48_12 => some (swcUnpackYuv48_12 src.toPicture)
  | _ => none

def pitcherSwPack16 (src : Picture) (dst : PixelFormat) : Option Writes :=
  match dst with
  | .nv12_10le => some (swcPackNv12_10le src)
  | .i420_10le => some (swcPackI420_10le src)
  | .p010 | .p012 => some (swcCopyP0xx src)
  | .y012 | .y16 => some (swcPackY16 src)
  | .y212 => some (swcPackY212 src)
  | .yuv48_12 => some (swcPackYuv48_12 src)
  | _ => none

/-- A buffer in between; one without samples has no planes and is not made. -/
structure MidBuffer extends Picture where
  sized : width ≠ 0 ∧ height ≠ 0

/-- `struct sw_cvrt_t`, and what memory there is for its two buffers. -/
structure SwCvrt where
  mid : Option MidBuffer := none
  mid16 : Option MidBuffer := none
  memory : Option Samples
  memory16 : Option Samples

def newMidBuffer (src : Frame) (memory : Option Samples) : Option MidBuffer :=
  if empty : src.width = 0 ∨ src.height = 0 then none
  else memory.map fun samples =>
    { width := src.width, height := src.height, samples, sized := not_or.mp empty }

/-- The buffer between `src` and the destination: the one there was, if it has the
size, or a new one. -/
def allocMidBuffer (src : Frame) (mid : Option MidBuffer) (memory : Option Samples) :
    Option MidBuffer :=
  match mid with
  | some old =>
    if old.width = src.width ∧ old.height = src.height ∧ old.interlaced = false then some old
    else newMidBuffer src memory
  | none => newMidBuffer src memory

def pitcherSwConvertCheckDepth (src dst : PixelFormat) : Bool :=
  decide (depth src = 8 ∧ depth dst = 8) || decide (8 < depth src ∧ 8 < depth dst)

def Picture.stored (picture : Picture) (writes : Writes) : Picture :=
  { picture with samples := store picture.samples writes }

def MidBuffer.stored (mid : MidBuffer) (writes : Writes) : MidBuffer :=
  { mid with samples := store mid.samples writes }

/-- What a writer gives, into `dst`. -/
def Frame.written (dst : Frame) (swc : SwCvrt) : Option Writes → Ret × SwCvrt × Frame
  | none => (.E_NOT_SUPPORT, swc, dst)
  | some writes => (.OK, swc, (dst.toPicture.stored writes).as dst.format)

/-- `pitcher_sw_unpack` or `pitcher_sw_unpack_16`, by the depth of `src`. -/
def unpack (unpackers : Unpackers) (src : Frame) : Option Writes :=
  if depth src.format = 8 then pitcherSwUnpack unpackers src else pitcherSwUnpack16 unpackers src

/-- From a destination of the depth of `src` there is no change of depth. -/
def convertSame (unpackers : Unpackers) (swc : SwCvrt) (src dst : Frame) : Ret × SwCvrt × Frame :=
  if depth dst.format = 8 then
    if dst.format = .nv12 then dst.written swc (unpack unpackers src)
    else
      match allocMidBuffer src swc.mid swc.memory with
      | none => (.E_NO_MEMORY, { swc with mid := none }, dst)
      | some mid =>
        match unpack unpackers src with
        | none => (.E_NOT_SUPPORT, { swc with mid := some mid }, dst)
        | some writes =>
          let mid := mid.stored writes
          dst.written { swc with mid := some mid } (pitcherSwPack mid.toPicture dst.format)
  else
    if dst.format = .p016 then dst.written swc (unpack unpackers src)
    else
      match allocMidBuffer src swc.mid16 swc.memory16 with
      | none => (.E_NO_MEMORY, { swc with mid16 := none }, dst)
      | some mid16 =>
        match unpack unpackers src with
        | none => (.E_NOT_SUPPORT, { swc with mid16 := some mid16 }, dst)
        | some writes =>
          let mid16 := mid16.stored writes
          dst.written { swc with mid16 := some mid16 } (pitcherSwPack16 mid16.toPicture dst.format)

/-- Through both buffers, from the one of the depth of `src` to the other one. Where
the depth of a format is neither, no change of depth follows its buffer. -/
def convertOther (unpackers : Unpackers) (swc : SwCvrt) (src dst : Frame) : Ret × SwCvrt × Frame :=
  match allocMidBuffer src swc.mid swc.memory with
  | none => (.E_NO_MEMORY, { swc with mid := none }, dst)
  | some mid =>
    match allocMidBuffer src swc.mid16 swc.memory16 with
    | none => (.E_NO_MEMORY, { swc with mid := some mid, mid16 := none }, dst)
    | some mid16 =>
      match unpack unpackers src with
      | none => (.E_NOT_SUPPORT, { swc with mid := some mid, mid16 := some mid16 }, dst)
      | some writes =>
        if depth src.format = 8 then
          let mid := mid.stored writes
          if pitcherSwConvertCheckDepth .nv12 dst.format then
            dst.written { swc with mid := some mid, mid16 := some mid16 }
              (pitcherSwPack mid.toPicture dst.format)
          else
            let mid16 := mid16.stored (pitcherSwCvrt8To16 mid.toPicture)
            dst.written { swc with mid := some mid, mid16 := some mid16 }
              (pitcherSwPack16 mid16.toPicture dst.format)
        else
          let mid16 := mid16.stored writes
          if pitcherSwConvertCheckDepth .p016 dst.format then
            dst.written { swc with mid := some mid, mid16 := some mid16 }
              (pitcherSwPack16 mid16.toPicture dst.format)
          else
            let mid := mid.stored (pitcherSwCvrt16To8 mid16.toPicture)
            dst.written { swc with mid := some mid, mid16 := some mid16 }
              (pitcherSwPack mid.toPicture dst.format)

/-- `pitcher_sw_convert_frame` with what it returns, the two buffers and the destination. -/
def pitcherSwConvertFrame (unpackers : Unpackers) (swc : SwCvrt) (src dst : Frame) :
    Ret × SwCvrt × Frame :=
  if src.width > dst.width ∨ src.height > dst.height then (.E_INVAL, swc, dst)
  else if dst.interlaced then (.E_NOT_SUPPORT, swc, dst)
  else if src.interlaced ∧ src.format ≠ .nv12_8l128 then (.E_NOT_SUPPORT, swc, dst)
  else if src.format = .nv12 ∧ !src.interlaced then
    dst.written swc (pitcherSwPack src.toPicture dst.format)
  else if src.format = .p016 ∧ !src.interlaced ∧ 8 < depth dst.format then
    dst.written swc (pitcherSwPack16 src.toPicture dst.format)
  else if pitcherSwConvertCheckDepth src.format dst.format then convertSame unpackers swc src dst
  else convertOther unpackers swc src dst

end ImxTest.Pitcher.Convert
