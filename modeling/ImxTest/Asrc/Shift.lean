import ImxTest.Asrc.OutputSize

/-! The conversion of the input of the ASRC test to a format that the driver has. -/
namespace ImxTest.Asrc

open Lib While Words BitString

/-! ## Formats -/

inductive PcmFormat where
  | S8 | U8 | S16_LE | U16_LE | S20_3LE | U20_3LE | S24_3LE | U24_3LE | S24_LE | U24_LE | S32_LE | U32_LE | FLOAT_LE
  /-- One that the conversion does not know. -/
  | other
deriving DecidableEq, Repr

def DMA_BUF_SIZE : Nat := 4096

/-- Memory that has not been written, as much as is asked for. -/
structure Heap where
  malloc : Nat → List UInt8
  length_eq : ∀ n, (malloc n).length = n

/-! ## The loops -/

structure Shifting where
  pos : Nat
  /-- The variable that is read into. -/
  data : List UInt8
  /-- How many bytes are stored. -/
  i : Nat
  nleft : Int
  buffer : List UInt8

/-- A turn: `count` bytes are read into `data` and what is made of it is stored. -/
def shiftTurn (file : List UInt8) (count : Nat) (store : Nat → List UInt8) (s : Shifting) :
    Except Fault (Turn Shifting Shifting) :=
  let (got, pos) := fread file s.pos (s.data.take count)
  let data := got ++ s.data.drop count
  let stored := store (unsigned data)
  if s.i + stored.length ≤ s.buffer.length then
    let s := ⟨pos, data, s.i + stored.length, int (s.nleft - 1), overlay s.buffer s.i stored⟩
    if s.nleft = 0 then .ok (.leave s) else .ok (.again s)
  else .error .outside

/-- What differs between the loops: the bytes of a read, what is stored, the format and the length
behind the loop, and the size of the buffer for the driver where that is set. -/
structure Branch where
  count : Nat
  store : Nat → List UInt8
  inputFormat : PcmFormat
  inputDataLen : Int → Int
  inputDmaBufSize : Option Nat := none

/-- As it is, by a number of bytes. -/
def Branch.same (f : PcmFormat) (count : Nat) (inputDmaBufSize : Option Nat := none) : Branch :=
  ⟨count, fun data => littleEndian count (data % 2 ^ (8 * count) : Nat), f, id, inputDmaBufSize⟩

namespace Branch

/-- `c` is the low byte of what is read into. -/
def u8ToS8 : Branch := ⟨1, fun c => littleEndian 1 ((c % 2 ^ 8 : Nat) - 128), .S8, id, none⟩

def u8ToS16 : Branch :=
  ⟨1, fun c => littleEndian 2 (((c % 2 ^ 8 : Nat) - 128) * 2 ^ 8), .S16_LE, fun len => int (len * 2), none⟩

def s20ToS24 : Branch :=
  ⟨3, fun data => littleEndian 4 (data * 2 ^ 4 % 2 ^ 32 &&& 0xFFFFFF : Nat), .S24_LE,
    fun len => Int.tdiv (int (len * 4)) 3, none⟩

/-- The mask takes the low byte away. -/
def s24ToS24 : Branch :=
  ⟨3, fun data => littleEndian 4 (data &&& 0xFFFF00 : Nat), .S24_LE, fun len => Int.tdiv (int (len * 4)) 3, none⟩

def s32ToS24 : Branch :=
  ⟨4, fun data => littleEndian 4 (data / 2 ^ 8 &&& 0x00FFFFFF : Nat), .S24_LE, id, none⟩

end Branch

/-- The branch for a format, if there is one. -/
def branch (supported : PcmFormat → Bool) : PcmFormat → Option Branch
  | .U8 => some (if supported .S8 then .u8ToS8 else .u8ToS16)
  | .S16_LE => if supported .S16_LE then some (.same .S16_LE 2) else none
  | .U16_LE => if supported .U16_LE then some (.same .U16_LE 2) else none
  | .S20_3LE => some (if supported .S20_3LE then .same .S20_3LE 3 (some (DMA_BUF_SIZE / 3 * 3)) else .s20ToS24)
  | .U20_3LE => if supported .U20_3LE then some (.same .U20_3LE 3 (some (DMA_BUF_SIZE / 3 * 3))) else none
  | .S24_3LE => some (if supported .S24_3LE then .same .S24_3LE 3 (some (DMA_BUF_SIZE / 3 * 3)) else .s24ToS24)
  | .U24_3LE => if supported .U24_3LE then some (.same .U24_3LE 3 (some (DMA_BUF_SIZE / 3 * 3))) else none
  | .S24_LE => if supported .S24_LE then some (.same .S24_LE 4) else none
  | .U24_LE => if supported .U24_LE then some (.same .U24_LE 4) else none
  | .S32_LE => some (if supported .S32_LE then .same .S32_LE 4 else .s32ToS24)
  | .U32_LE => if supported .U32_LE then some (.same .U32_LE 4) else none
  | .FLOAT_LE => if supported .FLOAT_LE then some (.same .FLOAT_LE 4) else none
  | .S8 | .other => none

/-! ## The function -/

/-- How many samples there are by the width of a slot, and the size of the buffer for the driver. -/
def slotCount (inSlotwidth : Nat) (inputDataLen : Int) : Option (Int × Nat) :=
  match inSlotwidth with
  | 8 => some (inputDataLen, DMA_BUF_SIZE / 2)
  | 16 => some (inputDataLen >>> (1 : Nat), DMA_BUF_SIZE)
  | 24 => some (Int.tdiv inputDataLen 3, DMA_BUF_SIZE)
  | 32 => some (inputDataLen >>> (2 : Nat), DMA_BUF_SIZE)
  | _ => none

/-- The input when it has been converted. -/
structure Shifted where
  pos : Nat
  buffer : List UInt8
  /-- How many bytes are stored. -/
  stored : Nat
  inputFormat : PcmFormat
  inputDataLen : Int
  inputDmaBufSize : Nat

section Shift
variable (file : List UInt8) (heap : Heap) (supported : PcmFormat → Bool)

/-- Up to the length of the output; `none` where -1 is returned. -/
def shiftInput (pos : Nat) (data : List UInt8) (inSlotwidth : Nat) (inputFormat : PcmFormat) (inputDataLen : Int)
    (fuel : Nat) : ExceptT Fault Option (Option Shifted) :=
  match slotCount inSlotwidth inputDataLen with
  | none => pure none
  | some (nleft, inputDmaBufSize) =>
    match branch supported inputFormat with
    | none => pure none
    | some b => do
      let buffer := heap.malloc ((4 * nleft + inputDmaBufSize) % 2 ^ 64).toNat
      let s ← loop (shiftTurn file b.count b.store) fuel ⟨pos, data, 0, nleft, buffer⟩
      pure (some ⟨s.pos, s.buffer, s.i, b.inputFormat, b.inputDataLen inputDataLen,
        b.inputDmaBufSize.getD inputDmaBufSize⟩)

/-- What alsa-lib has of a format: its width and its physical width. -/
structure Widths where
  width : PcmFormat → Int
  physicalWidth : PcmFormat → Int

/-- The whole function: its result, the header and the numbers in `info`, and the input. -/
def bitshift (widths : Widths) (pos : Nat) (data : List UInt8) (h : Header) (info : AudioInfo)
    (inputFormat outputFormat : PcmFormat) (fuel : Nat) :
    ExceptT Fault Option (Int × Header × AudioInfo × Option Shifted) := do
  let formatSize := intAt h.bytes 16
  match ← shiftInput file heap supported pos data info.inSlotwidth inputFormat (signed info.inputDataLen) fuel with
  | none => pure (-1, h, info, none)
  | some s =>
    let outputDataLen ← asrcGetOutputBufferSize widths.physicalWidth s.inputDataLen info.sampleRate
      info.outputSampleRate s.inputFormat outputFormat fuel
    let info := { info with outputDataLen }
    let h ← ExceptT.mk (some (updateDatachunkLength h info formatSize))
    let info := { info with
      outFrameBits := (widths.width outputFormat % 2 ^ 16).toNat
      outBlockalign := (Int.tdiv (int (info.channel * widths.physicalWidth outputFormat)) 8 % 2 ^ 16).toNat
      outAudioformat := if outputFormat = .FLOAT_LE then 3 else 1 }
    let h ← ExceptT.mk (some (updateBlockalign h info))
    let h ← ExceptT.mk (some (updateSampleBitdepth h info))
    pure (0, h, info, some s)

end Shift

end ImxTest.Asrc
