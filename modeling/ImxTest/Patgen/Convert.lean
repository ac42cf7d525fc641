import ImxTest.Lib.BitString
import ImxTest.Lib.InPlace
import ImxTest.Patgen.Bitmap

/-! The file that patgen/bitmap.c makes of a bitmap: the conversion in its buffers, and what is
written of them. -/
namespace ImxTest.Patgen
open Lib.BitString Lib.InPlace Lib.Words

inductive Format where
  | bgra8888 | bgr565 | nv12 | yuv444p | yuv420 | yuv444 | yuva444 | yuyv422
deriving DecidableEq, Repr

/-- What `bitmap_t` has for the output. -/
structure Output where
  format : Format
  bpc : Nat
  zero : UInt32
  one : UInt32
  colorRangeFull : Bool
deriving DecidableEq, Repr

/-! ## Pixels -/

def bgraRed (pixel : UInt32) : Nat := (pixel >>> 16 &&& 0xff).toNat

def bgraGreen (pixel : UInt32) : Nat := (pixel >>> 8 &&& 0xff).toNat

def bgraBlue (pixel : UInt32) : Nat := (pixel >>> 0 &&& 0xff).toNat

def bgraAlpha (pixel : UInt32) : Nat := (pixel >>> 24 &&& 0xff).toNat

/-- `round` of the quotient by 255. With 31 and with 63 it is never in the middle. -/
def scaled (v most : Nat) : Nat := (2 * (v * most) + 255) / 510

def bitmapBgraToBgr565 (pixel : UInt32) : Nat :=
  let r := scaled (bgraRed pixel) 0x1f
  let g := scaled (bgraGreen pixel) 0x3f
  let b := scaled (bgraBlue pixel) 0x1f
  (r &&& 0x1f) <<< 11 ||| (g &&& 0x3f) <<< 5 ||| (b &&& 0x1f) <<< 0

def bitmapBgraToBpc (pixel : UInt32) (bpc : Nat) : UInt32 :=
  let mask := 0xffffffff <<< (8 - bpc)
  let r := bgraRed pixel &&& mask
  let g := bgraGreen pixel &&& mask
  let b := bgraBlue pixel &&& mask
  .ofNat ((bgraAlpha pixel &&& 0xff) <<< 24 ||| (r &&& 0xff) <<< 16 ||| (g &&& 0xff) <<< 8 ||| (b &&& 0xff))

structure Yuva where
  y : UInt8
  u : UInt8
  v : UInt8
  a : UInt8
deriving DecidableEq, Repr

def uint8 (v : Int) : UInt8 := .ofNat (v % 2 ^ 8).toNat

def clipUint8 (a : Int) : UInt8 := if 0xff < a then 0xff else if a < 0 then 0 else uint8 a

/-- No sum leaves the range of an `int`. -/
def bitmapBgraToYuva (colorRangeFull : Bool) (pixel : UInt32) : Yuva :=
  let r : Int := bgraRed pixel
  let g : Int := bgraGreen pixel
  let b : Int := bgraBlue pixel
  let yt := ((2153984 * r + 16519 * 256 * g + 821248 * b + 134283264) >>> (17 : Nat)) * 2
  let ut := ((-1245440 * r + -9528 * 256 * g + 3684352 * b + 1073807360) >>> (17 : Nat)) * 2
  let vt := ((3684352 * r + -12061 * 256 * g + -596992 * b + 1073807360) >>> (17 : Nat)) * 2
  if colorRangeFull then
    let yt := (min yt 30189 * 19077 - 39057361) >>> (14 : Nat)
    let ut := (min ut 30775 * 4663 - 9289992) >>> (12 : Nat)
    let vt := (min vt 30775 * 4663 - 9289992) >>> (12 : Nat)
    { y := clipUint8 ((yt + 64) >>> (7 : Nat)), u := clipUint8 ((ut + 64) >>> (7 : Nat)), v := clipUint8 ((vt + 64) >>> (7 : Nat)),
      a := uint8 (bgraAlpha pixel) }
  else
    { y := uint8 ((yt + 64) >>> (7 : Nat)), u := uint8 ((ut + 64) >>> (7 : Nat)), v := uint8 ((vt + 64) >>> (7 : Nat)),
      a := uint8 (bgraAlpha pixel) }

/-- Bits that are stuck. -/
def Output.stuck (o : Output) (pixel : UInt32) : UInt32 :=
  let pixel := if o.zero ≠ 0 then pixel &&& ~~~o.zero else pixel
  if o.one ≠ 0 then pixel ||| o.one else pixel

def Output.yuva (o : Output) (pixel : UInt32) : Yuva := bitmapBgraToYuva o.colorRangeFull pixel

/-! ## Buffers -/

inductive Plane where
  | rgb | luma | chroma | alpha
deriving DecidableEq, Repr

/-- The buffers of a bitmap, byte by byte. -/
structure Memory where
  size : Plane → Nat
  cells : Plane × Int → UInt8

def Memory.Holds (mem : Memory) (c : Plane × Int) : Prop := 0 ≤ c.2 ∧ c.2 < mem.size c.1

instance (mem : Memory) (c : Plane × Int) : Decidable (mem.Holds c) := inferInstanceAs (Decidable (_ ∧ _))

/-- The buffers for planes that `bitmap_create` asks for, with what they hold. -/
def createPlanes (h stride : Nat) (cells : Plane × Int → UInt8) : Memory where
  size
    | .rgb => bufferBytes h stride
    | .luma => (h * stride * 4 + 1024) % 2 ^ 32
    | .chroma => (h * stride * 2 + 1024) % 2 ^ 32
    | .alpha => (h * stride * 1 + 1024) % 2 ^ 32
  cells

def littleEndian (n v : Nat) : List UInt8 := (bytesOf n v).reverse

def pixelOf (bytes : List UInt8) : UInt32 := .ofNat (word bytes.reverse)

/-- The pixels of the bitmap as bytes, with the other planes. -/
def Memory.withPixels (mem : Memory) (pixels : Pixels) : Memory where
  size plane := if plane = .rgb then pixels.bytes else mem.size plane
  cells c := if c.1 = .rgb then (littleEndian 4 (pixels.cells (c.2 / 4)).toNat).getD (c.2 % 4).toNat 0 else mem.cells c

def bytesFrom (plane : Plane) (i : Int) (n : Nat) : List (Plane × Int) := (List.range n).map fun k : Nat => (plane, i + k)

def pixelAt (i : Int) : List (Plane × Int) := bytesFrom .rgb (4 * i) 4

/-- A loop, when all that it reads and writes is in the buffers. -/
def go {κ : Type} (pass : Pass (Plane × Int) κ UInt8) (turns : List κ) (mem : Memory) : Except Fault Memory :=
  if ∀ turn ∈ turns, ∀ c ∈ pass.reads turn ++ pass.writes turn, mem.Holds c then
    .ok { mem with cells := pass.run turns mem.cells }
  else .error .outside

/-! ## Conversion -/

def stuckPass (o : Output) : Pass (Plane × Int) Nat UInt8 where
  reads i := pixelAt i
  writes i := pixelAt i
  value _ bytes := littleEndian 4 (o.stuck (pixelOf bytes)).toNat

def bgr565Pass : Pass (Plane × Int) Nat UInt8 where
  reads i := pixelAt i
  writes i := bytesFrom .rgb (2 * i) 2
  value _ bytes := littleEndian 2 (bitmapBgraToBgr565 (pixelOf bytes))

/-- `i` is twice the number of the turn. -/
def yuyvPass (o : Output) : Pass (Plane × Int) Nat UInt8 where
  reads t := pixelAt (2 * t) ++ pixelAt (2 * t + 1)
  writes t := bytesFrom .rgb (4 * t) 4
  value _ bytes :=
    let first := o.yuva (pixelOf (bytes.take 4))
    let second := o.yuva (pixelOf (bytes.drop 4))
    [first.y, first.u, second.y, first.v]

/-- `j` is an `int` that grows by `unit`. -/
def yuvPass (o : Output) (unit : Nat) : Pass (Plane × Int) Nat UInt8 where
  reads i := pixelAt i
  writes i := (List.range unit).map fun k : Nat => (.rgb, int (int (unit * i) + k))
  value _ bytes :=
    let pixel := o.yuva (pixelOf bytes)
    [pixel.y, pixel.u, pixel.v, pixel.a].take unit

def planarPass (o : Output) (s : Int) : Pass (Plane × Int) Nat UInt8 where
  reads i := pixelAt i
  writes i := [(.luma, i), (.chroma, i), (.chroma, s + i), (.alpha, i)]
  value _ bytes :=
    let pixel := o.yuva (pixelOf bytes)
    [pixel.y, pixel.u, pixel.v, pixel.a]

/-- `uvbuf[k++]` from some place of the chroma. -/
def subsamplePass : Pass (Plane × Int) (Int × Nat) UInt8 where
  reads turn := [(.chroma, turn.1)]
  writes turn := [(.chroma, int turn.2)]
  value _ bytes := bytes

def bpcPass (o : Output) : Pass (Plane × Int) Nat UInt8 where
  reads i := pixelAt i
  writes i := pixelAt i
  value _ bytes := littleEndian 4 (bitmapBgraToBpc (pixelOf bytes) o.bpc).toNat

def getVerticalSub : Format → Nat
  | .yuv420 | .nv12 => 2
  | _ => 1

def getHorizontalSub : Format → Nat
  | .yuv420 | .nv12 | .yuyv422 => 2
  | _ => 1

/-- A counter from 0 that grows by `step` while it is below `n`. -/
def steps (n step : Nat) : List Nat := (List.range ((n + step - 1) / step)).map (· * step)

/-- `j` in the order of the two loops. -/
def kept (f : Format) (h stride : Nat) : List Int :=
  (steps h (getVerticalSub f)).flatMap fun l => (steps stride (getHorizontalSub f)).map fun i => int (stride * l + i : Nat)

/-- Stuck ones and zeros. -/
def forceStuck (o : Output) (h stride : Nat) (mem : Memory) : Except Fault Memory :=
  if o.zero ≠ 0 ∨ o.one ≠ 0 then go (stuckPass o) (List.range (int (h * stride : Nat)).toNat) mem else pure mem

/-- The branch of the format. -/
def convertFormat (o : Output) (h stride : Nat) (mem : Memory) : Except Fault Memory :=
  let s := int (h * stride : Nat)
  let turns := List.range s.toNat
  match o.format with
  | .bgr565 => go bgr565Pass turns mem
  | .yuyv422 => go (yuyvPass o) (List.range ((s.toNat + 1) / 2)) mem
  | .yuv444 => go (yuvPass o 3) turns mem
  | .yuva444 => go (yuvPass o 4) turns mem
  | .yuv444p => go (planarPass o s) turns mem
  | .yuv420 => do
    let mem ← go (planarPass o s) turns mem
    let j := kept o.format h stride
    go subsamplePass (j ++ j.map (s + ·)).zipIdx mem
  | .nv12 => do
    let mem ← go (planarPass o s) turns mem
    go subsamplePass ((kept o.format h stride).flatMap fun l => [l, s + l]).zipIdx mem
  | .bgra8888 => if o.bpc < 8 then go (bpcPass o) turns mem else pure mem

def bitmapConvertBuffer (o : Output) (h stride : Nat) (mem : Memory) : Except Fault Memory := do
  let mem ← forceStuck o h stride mem
  convertFormat o h stride mem

/-! ## The file -/

/-- A negative size is a `size_t` that no memory has. -/
def fwrite (mem : Memory) (plane : Plane) (size : Int) (count : Nat) : Except Fault (List UInt8) :=
  if 0 ≤ size ∧ size * count ≤ mem.size plane then
    .ok ((List.range (size * count).toNat).map fun k : Nat => mem.cells (plane, k))
  else .error .outside

def bytesPerPixel : Format → Nat
  | .bgr565 | .yuyv422 => 2
  | .yuv444 => 3
  | _ => 4

/-- What is written of the buffers. -/
def writeBuffers (o : Output) (h stride : Nat) (mem : Memory) : Except Fault (List UInt8) :=
  match o.format with
  | .yuv444p | .yuv420 | .nv12 => do
    let luma ← fwrite mem .luma (int (h * stride : Nat)) 1
    let chroma ← fwrite mem .chroma
      (int (uint (h * stride : Nat) / (getVerticalSub o.format * getHorizontalSub o.format) * 2 : Nat)) 1
    pure (luma ++ chroma)
  | _ => fwrite mem .rgb (uint (h * stride : Nat)) (bytesPerPixel o.format)

/-- What is in the file, if it can be opened. A rotation without memory is passed over. -/
def bitmapWriteFile (bm : Bitmap) (o : Output) (planes : Memory) (fresh : Int → UInt32) : Except Fault (List UInt8) := do
  let (_, bm) ← bitmapRotateBuffer bm fresh
  let mem ← bitmapConvertBuffer o bm.h bm.stride (planes.withPixels bm.buffer)
  writeBuffers o bm.h bm.stride mem

end ImxTest.Patgen
