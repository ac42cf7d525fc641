import ImxTest.Pitcher.Def
import ImxTest.Lib.Copy

/-! The picture formats of pitcher/pixfmt.c, where their planes lie in a buffer,
and the copy of a picture from one buffer to another. Addresses are numbers. -/
namespace ImxTest.Pitcher
open Lib.Copy

/-- `none` stands for `PIX_FMT_NB` and all numbers behind it. -/
inductive PixelFormat where
  | i420 | nv12 | nv21 | nv16 | yuyv | yuv24 | i420_10le | nv12_10le | nv12_8l128 | nv12_10be_8l128
  | dtrc | dtrc10 | p010 | p012 | p016 | nvx2 | rfc | rfcx | rgb24 | rgb565 | bgr565 | rgb555 | rgba
  | bgr32 | argb | rgbx | bgr24 | abgr | bgr48_12 | abgr64_12 | gray | y012 | y16 | y212 | yuv48_12
  | h264 | h265 | vp8 | vp9 | vp6 | vc1l | vc1g | xvid | divx | mpeg4 | mpeg2 | h263 | avs | spk
  | rv30 | rv40 | jpeg | none
deriving DecidableEq, Repr

/-- `format >= PIX_FMT_COMPRESSED` -/
def PixelFormat.compressed : PixelFormat → Bool
  | .h264 | .h265 | .vp8 | .vp9 | .vp6 | .vc1l | .vc1g | .xvid | .divx | .mpeg4 | .mpeg2 | .h263
  | .avs | .spk | .rv30 | .rv40 | .jpeg | .none => true
  | _ => false

/-- `struct pixel_format_desc`; `bpp` has `comp[i].bpp`, which is 0 where not set. -/
structure PixelFormatDesc where
  numPlanes : Nat
  log2ChromaW : Nat := 0
  log2ChromaH : Nat := 0
  bpp : List Nat := []
  tileWs : Nat := 0
  tileHs : Nat := 0
deriving DecidableEq, Repr

/-- `pix_fmt_descriptors` -/
def pixFmtDescriptors : PixelFormat → PixelFormatDesc
  | .i420 => ⟨3, 1, 1, [8, 8, 8], 0, 0⟩
  | .nv12 | .nv21 => ⟨2, 1, 1, [8, 16], 0, 0⟩
  | .nv16 => ⟨2, 1, 0, [8, 16], 0, 0⟩
  | .i420_10le => ⟨3, 1, 1, [16, 16, 16], 0, 0⟩
  | .nv12_10le | .p010 | .p012 | .p016 => ⟨2, 1, 1, [16, 32], 0, 0⟩
  | .nv12_8l128 => ⟨2, 1, 1, [8, 16], 8, 128⟩
  | .nv12_10be_8l128 => ⟨2, 1, 1, [10, 20], 8, 128⟩
  | .dtrc => ⟨2, 1, 1, [8, 16], 4, 4⟩
  | .dtrc10 => ⟨2, 1, 1, [10, 20], 5, 4⟩
  | .nvx2 => ⟨2, 1, 1, [10, 20], 0, 0⟩
  | .gray => { numPlanes := 1, bpp := [8] }
  | .yuyv | .rgb565 | .bgr565 | .rgb555 | .y012 | .y16 => { numPlanes := 1, bpp := [16] }
  | .yuv24 | .rgb24 | .bgr24 => { numPlanes := 1, bpp := [24] }
  | .rgba | .bgr32 | .argb | .rgbx | .abgr | .y212 => { numPlanes := 1, bpp := [32] }
  | .bgr48_12 | .yuv48_12 => { numPlanes := 1, bpp := [48] }
  | .abgr64_12 => { numPlanes := 1, bpp := [64] }
  | .none => { numPlanes := 0 }
  | _ => { numPlanes := 1 }

structure PixPlaneInfo where
  line : Nat := 0
  size : Nat := 0
deriving DecidableEq, Repr

/-- `struct pix_fmt_info`; its `desc` is the entry of `format`. -/
structure PixFmtInfo where
  format : PixelFormat
  width : Nat
  height : Nat
  interlaced : Bool := false
  size : Nat := 0
  numPlanes : Nat := 0
  planes : Nat → PixPlaneInfo := fun _ => {}
  tileWs : Nat := 0
  tileHs : Nat := 0

def PixFmtInfo.desc (info : PixFmtInfo) : PixelFormatDesc := pixFmtDescriptors info.format

/-- `ALIGN` -/
def align (x a : Nat) : Nat := if x % a = 0 then x else x + a - x % a

def pitcherFillPlaneDesc (line h : Nat) : PixPlaneInfo := { line, size := line * h }

/-- A turn of the loop of `pitcher_get_pix_fmt_info`, for plane `i`. -/
def pixPlaneInfo (info : PixFmtInfo) (alignment i : Nat) : PixPlaneInfo :=
  let desc := info.desc
  let alW := max (2 ^ desc.log2ChromaW) desc.tileWs
  let alH := max (2 ^ desc.log2ChromaH) desc.tileHs * if info.interlaced then 2 else 1
  let bpp := desc.bpp.getD i 0
  let w := align info.width alW
  let w := if i = 0 then w else w / 2 ^ desc.log2ChromaW
  let h := align info.height alH
  let h := if i ≠ 0 ∧ desc.tileHs ≠ 0 then align info.height (alH * 2 ^ desc.log2ChromaH) else h
  let h := if i = 0 then h else h / 2 ^ desc.log2ChromaH
  let al := if i = 0 then alignment
    else (alignment * bpp / 2 ^ desc.log2ChromaW + desc.bpp.getD 0 0 - 1) / desc.bpp.getD 0 0
  let al := if al = 0 then 1 else al
  let line := if bpp ≠ 0 then align (w * bpp) 8 / 8 else w
  pitcherFillPlaneDesc (align line al) h

/-- `none` where it returns an error, and leaves `info` as it is. -/
def pitcherGetPixFmtInfo (info : PixFmtInfo) (alignment : Nat) : Option PixFmtInfo :=
  if info.format = .none ∨ info.width = 0 ∨ info.height = 0 then none
  else
    let alignment := if alignment = 0 then 1 else alignment
    let planes := fun i =>
      if i < info.desc.numPlanes then pixPlaneInfo info alignment i else info.planes i
    let size := ((List.range info.desc.numPlanes).map fun i => (planes i).size).sum
    some { info with
      planes, numPlanes := info.desc.numPlanes, tileWs := info.desc.tileWs
      tileHs := info.desc.tileHs, size := max info.size size }

/-! ## Buffers -/

/-- `struct pitcher_buf_ref` -/
structure BufRef where
  virt : Nat := 0
  size : Nat := 0
  phys : Nat := 0
  bytesused : Nat := 0
  offset : Nat := 0
  dmafd : Int := -1
deriving DecidableEq, Repr

structure Rect where
  left : Nat
  top : Nat
  width : Nat
  height : Nat
deriving DecidableEq, Repr

/-- `struct pitcher_buffer`; its `count` is the number of `planes`, and `priv`
the number of the buffer it holds on to. -/
structure Buffer where
  planes : List BufRef
  index : Nat := 0
  flags : UInt32 := 0
  priv : Option Nat := none
  format : Option PixFmtInfo := none
  crop : Option Rect := none

def Buffer.count (buf : Buffer) : Nat := buf.planes.length

/-- The step from plane `k` to the next one in the single plane of a buffer. -/
def nextPlane (fmt : PixFmtInfo) (plane : BufRef) (k : Nat) : BufRef :=
  let size := (fmt.planes k).size
  { plane with
    virt := plane.virt + size
    phys := if plane.phys ≠ 0 then plane.phys + size else 0
    bytesused := if plane.bytesused ≠ 0 then (plane.bytesused + 2 ^ 64 - size % 2 ^ 64) % 2 ^ 64 else 0
    offset := if 0 ≤ plane.dmafd then plane.offset + size else plane.offset }

/-- `none` where it returns an error, and leaves the plane it is given as it is. -/
def pitcherGetBufferPlane (buf : Buffer) (index : Nat) : Option BufRef :=
  match buf.format with
  | none => buf.planes[index]?
  | some fmt =>
    if fmt.numPlanes ≤ index ∨ (buf.count ≠ 1 ∧ buf.count ≠ fmt.numPlanes) then none
    else if buf.count = fmt.numPlanes then buf.planes[index]?
    else
      let plane := (List.range index).foldl (nextPlane fmt) (buf.planes.headD {})
      some { plane with
        bytesused := if index = 0 then (fmt.planes 0).size else plane.bytesused
        size := (fmt.planes index).size }

def pitcherGetBufferPlaneSize (buf : Buffer) (index : Nat) : Nat :=
  match pitcherGetBufferPlane buf index with
  | none => 0
  | some plane => plane.size

/-! ## The copy of a picture -/

/-- The width and height of the picture a buffer shows. -/
def Buffer.shown (buf : Buffer) (fmt : PixFmtInfo) : Nat × Nat :=
  match buf.crop with
  | some crop => if crop.width ≠ 0 ∧ crop.height ≠ 0 then (crop.width, crop.height) else (fmt.width, fmt.height)
  | none => (fmt.width, fmt.height)

/-- The bytes of a row of plane `i`, where the picture is `w` wide. -/
def PixelFormatDesc.lineOf (desc : PixelFormatDesc) (i w : Nat) : Nat :=
  let w := align w (2 ^ desc.log2ChromaW)
  let w := if i = 0 then w else w / 2 ^ desc.log2ChromaW
  align (w * desc.bpp.getD i 0) 8 / 8

/-- The rows of plane `i`, where the picture is `h` high. -/
def PixelFormatDesc.rowsOf (desc : PixelFormatDesc) (i h : Nat) : Nat :=
  let h := align h (2 ^ desc.log2ChromaH)
  if i = 0 then h else h / 2 ^ desc.log2ChromaH

/-- `bytes` are the bytes plane `i` has of a picture; behind the last plane they
are added to those of the last plane. -/
def countBytes (planes : List BufRef) (i bytes : Nat) : List BufRef :=
  if i < planes.length then planes.modify i fun p => { p with bytesused := bytes }
  else planes.modify (planes.length - 1) fun p => { p with bytesused := p.bytesused + bytes }

/-- The planes from `i` on. Where a buffer has no place for a plane, `splane` or
`dplane` is used as it was left by the plane before. -/
def copyPlanes (src dst : Buffer) (sfmt dfmt : PixFmtInfo) :
    (left i : Nat) → (splane dplane : BufRef) → (mem : Nat → UInt8) → (planes : List BufRef) →
      (Nat → UInt8) × List BufRef
  | 0, _, _, _, mem, planes => (mem, planes)
  | left + 1, i, splane, dplane, mem, planes =>
    let splane := (pitcherGetBufferPlane src i).getD splane
    let dplane := (pitcherGetBufferPlane dst i).getD dplane
    let w := min (src.shown sfmt).1 dfmt.width
    let h := min (src.shown sfmt).2 dfmt.height
    let rows := sfmt.desc.rowsOf i h
    let line := sfmt.desc.lineOf i w
    let mem := copyRows mem dplane.virt splane.virt (dfmt.planes i).line (sfmt.planes i).line line rows
    copyPlanes src dst sfmt dfmt left (i + 1) splane dplane mem
      (countBytes planes i (rows * (dfmt.planes i).line))

/-- `splane` and `dplane` are the two planes as they are before they are set. -/
def pitcherCopyBufferData (splane dplane : BufRef) (mem : Nat → UInt8) (src dst : Buffer) :
    Ret × (Nat → UInt8) × List BufRef :=
  match src.format, dst.format with
  | some sfmt, some dfmt =>
    if sfmt.format ≠ dfmt.format then (.E_INVAL, mem, dst.planes)
    else if sfmt.tileWs ≠ 0 ∨ sfmt.tileHs ≠ 0 then (.E_NOT_SUPPORT, mem, dst.planes)
    else if sfmt.format.compressed then
      let splane := (pitcherGetBufferPlane src 0).getD splane
      let dplane := (pitcherGetBufferPlane dst 0).getD dplane
      if dplane.size < splane.bytesused then (.E_INVAL, mem, dst.planes)
      else
        (.OK, copy mem dplane.virt splane.virt splane.bytesused,
          dst.planes.modify 0 fun p => { p with bytesused := splane.bytesused })
    else (.OK, copyPlanes src dst sfmt dfmt sfmt.numPlanes 0 splane dplane mem dst.planes)
  | _, _ => (.E_INVAL, mem, dst.planes)

end ImxTest.Pitcher
