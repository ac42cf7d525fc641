import ImxTest.Lib.BitString
import ImxTest.Lib.While

/-! The WAV header of the ASRC test: the parser, which seeks from chunk to chunk by signed
sizes of the file, the array it puts the header in, and what is patched there later. -/
namespace ImxTest.Asrc

open Lib While BitString

inductive Fault where
  /-- An index outside the array. -/
  | outside
  | divisionByZero
deriving DecidableEq, Repr

/-! ## Numbers -/

/-- The signed number of some little-endian bytes. -/
def signed (bytes : List UInt8) : Int := Int.bmod (word bytes.reverse) (2 ^ (8 * bytes.length))

def unsigned (bytes : List UInt8) : Nat := word bytes.reverse

/-- A number as `n` little-endian bytes. -/
def littleEndian (n : Nat) (v : Int) : List UInt8 := (bytesOf n (v % 2 ^ (8 * n)).toNat).reverse

/-- An int as a `size_t`. -/
def sizeT (v : Int) : Nat := (Int.bmod v (2 ^ 32) % 2 ^ 64).toNat

/-! ## Files -/

variable (file : List UInt8)

def bytesAt (pos n : Nat) : List UInt8 := (file.drop pos).take n

/-- What is in the variable then, and the position; `fread` returns 0 unless all bytes are there. -/
def fread (pos : Nat) (old : List UInt8) : List UInt8 × Nat :=
  let got := bytesAt file pos old.length
  (got ++ old.drop got.length, pos + got.length)

/-- A seek to before the beginning fails. -/
def fseek (pos : Nat) (offset : Int) : Nat := if 0 ≤ pos + offset then (pos + offset).toNat else pos

/-! ## The array -/

def WAVE_HEAD_SIZE : Nat := 44 + 14 + 16

structure Header where
  bytes : List UInt8
  length_eq : bytes.length = WAVE_HEAD_SIZE

def Header.empty : Header := ⟨List.replicate WAVE_HEAD_SIZE 0, List.length_replicate⟩

def overlay (bytes : List UInt8) (start : Nat) (data : List UInt8) : List UInt8 :=
  bytes.take start ++ data ++ bytes.drop (start + data.length)

theorem overlay_length {bytes data : List UInt8} {start : Nat} (fits : start + data.length ≤ bytes.length) :
    (overlay bytes start data).length = bytes.length := by
  simp only [overlay, List.length_append, List.length_take, List.length_drop]
  omega

namespace Header

/-- Where the bytes go, all of the array's. -/
def Fits (start : Int) (n : Nat) : Prop := 0 ≤ start ∧ start + n ≤ WAVE_HEAD_SIZE

instance (start : Int) (n : Nat) : Decidable (Fits start n) := inferInstanceAs (Decidable (_ ∧ _))

def put (h : Header) (start : Int) (data : List UInt8) : Except Fault Header :=
  if fits : Fits start data.length then
    .ok ⟨overlay h.bytes start.toNat data, by
      obtain ⟨positive, inside⟩ := fits
      rw [overlay_length (by rw [h.length_eq]; omega), h.length_eq]⟩
  else .error .outside

end Header

def shortAt (bytes : List UInt8) (start : Nat) : Int := signed (bytesAt bytes start 2)

def intAt (bytes : List UInt8) (start : Nat) : Int := signed (bytesAt bytes start 4)

/-! ## The parser -/

inductive Format where
  | S8 | U8 | S16_LE | S24_LE | S32_LE | FLOAT_LE | S24_3LE | S20_3LE
deriving DecidableEq, Repr

structure AudioInfo where
  sampleRate : Int := 0
  channel : Int := 0
  inputDataLen : List UInt8 := [0, 0, 0, 0]
  outputDataLen : Int := 0
  outputUsed : Int := 0
  outputSampleRate : Int := 0
  inFrameBits : Nat := 0
  inBlockalign : Nat := 0
  outFrameBits : Nat := 0
  outBlockalign : Nat := 0
  inSlotwidth : Nat := 0
  inputFormat : Format := .S8
  inAudioformat : Int := 0
  outAudioformat : Int := 0

/-- What the variables of the parser hold before anything is read. -/
structure Locals where
  chunkId : List UInt8
  chunkSize : List UInt8
  formatSize : List UInt8
  chunkId_length : chunkId.length = 4
  chunkSize_length : chunkSize.length = 4
  formatSize_length : formatSize.length = 4

/-- The position in the file and the two variables of the searches. -/
structure Cursor where
  pos : Nat
  chunkId : List UInt8
  chunkSize : List UInt8

/-- A turn of a loop that looks for a chunk. -/
def searchTurn (tag : List UInt8) (c : Cursor) : Except Fault (Turn Cursor (Option Cursor)) :=
  if c.chunkId = tag then .ok (.leave (some c))
  else
    let (chunkSize, pos) := fread file c.pos c.chunkSize
    let pos := fseek pos (signed chunkSize)
    let (chunkId, next) := fread file pos c.chunkId
    if next < pos + 4 then .ok (.leave none)
    else .ok (.again ⟨next, chunkId, chunkSize⟩)

def RIFF : List UInt8 := [0x52, 0x49, 0x46, 0x46]

def fmt : List UInt8 := [0x66, 0x6d, 0x74, 0x20]

def data : List UInt8 := [0x64, 0x61, 0x74, 0x61]

/-- From the first read to the search for "RIFF". -/
def startRiff (l : Locals) : Cursor :=
  let (chunkId, pos) := fread file 0 l.chunkId
  ⟨pos, chunkId, l.chunkSize⟩

/-- The first twelve bytes of the header, and the cursor for the search for "fmt ". -/
def readRiff (c : Cursor) : List UInt8 × Cursor :=
  let pos := fseek c.pos (-4)
  let got := bytesAt file pos 12
  let (chunkId, next) := fread file (pos + got.length) c.chunkId
  (got, ⟨next, chunkId, c.chunkSize⟩)

/-- The size of the format chunk and the chunk as far as there is a file, and the cursor for
the search for "data". -/
def readFmt (formatSize : List UInt8) (c : Cursor) : Int × List UInt8 × Cursor :=
  let (formatSize, pos) := fread file c.pos formatSize
  let pos := fseek pos (-8)
  let got := bytesAt file pos (sizeT (signed formatSize + 8))
  let (chunkId, next) := fread file (pos + got.length) c.chunkId
  (signed formatSize, got, ⟨next, chunkId, c.chunkSize⟩)

/-- The length of the data, and the header of the data chunk. -/
def readData (inputDataLen : List UInt8) (c : Cursor) : List UInt8 × List UInt8 :=
  let (inputDataLen, pos) := fread file c.pos inputDataLen
  (inputDataLen, bytesAt file (fseek pos (-8)) 8)

def AudioInfo.readFormat (info : AudioInfo) (header : List UInt8) : AudioInfo :=
  { info with
    inAudioformat := shortAt header (12 + 8)
    channel := shortAt header (12 + 8 + 2)
    sampleRate := intAt header (12 + 8 + 2 + 2)
    inBlockalign := unsigned (bytesAt header (12 + 8 + 2 + 2 + 4 + 4) 2)
    inFrameBits := unsigned (bytesAt header (12 + 8 + 2 + 2 + 4 + 4 + 2) 2) }

def AudioInfo.format? (info : AudioInfo) : Option Format :=
  match info.inFrameBits with
  | 8 => some .U8
  | 16 => some .S16_LE
  | 20 => if info.inSlotwidth = 24 then some .S20_3LE else none
  | 24 =>
    if info.inSlotwidth = 24 then some .S24_3LE
    else if info.inSlotwidth = 32 then some .S24_LE
    else none
  | 32 =>
    if info.inAudioformat = 3 then some .FLOAT_LE
    else if info.inAudioformat = 1 then some .S32_LE
    else none
  | _ => none

/-- An unsigned short. -/
def AudioInfo.slotwidth (info : AudioInfo) : Nat :=
  (Int.tdiv (8 * info.inBlockalign : Nat) info.channel % 2 ^ 16).toNat

/-- Everything behind the search for "data". -/
def finish (formatSize : Int) (h : Header) (info : AudioInfo) (c : Cursor) :
    Except Fault (Int × Header × AudioInfo) := do
  let (inputDataLen, dataHeader) := readData file info.inputDataLen c
  let info := { info with inputDataLen }
  let h ← h.put (formatSize + 20) dataHeader
  let h ← h.put 24 (littleEndian 4 info.outputSampleRate)
  if info.channel = (0 : Int) then .error .divisionByZero
  else
    let info := { info with inSlotwidth := info.slotwidth }
    match info.format? with
    | some inputFormat => .ok (1, h, { info with inputFormat })
    | none => .ok (-1, h, info)

/-- From the search for "data" on. The result is `none` where the fuel is not enough. -/
def parseData (formatSize : Int) (h : Header) (info : AudioInfo) (c : Cursor) (fuel : Nat) :
    ExceptT Fault Option (Int × Header × AudioInfo) := do
  match ← loop (searchTurn file data) fuel c with
  | none => pure (-1, h, info)
  | some c => ExceptT.mk (some (finish file formatSize h info c))

/-- From the search for "fmt " on. -/
def parseFmt (formatSize : List UInt8) (h : Header) (info : AudioInfo) (c : Cursor) (fuel : Nat) :
    ExceptT Fault Option (Int × Header × AudioInfo) := do
  match ← loop (searchTurn file fmt) fuel c with
  | none => pure (-1, h, info)
  | some c =>
    let (formatSize, format, c) := readFmt file formatSize c
    let h ← ExceptT.mk (some (h.put 12 format))
    parseData file formatSize h (info.readFormat h.bytes) c fuel

def headerParser (l : Locals) (info : AudioInfo) (fuel : Nat) :
    ExceptT Fault Option (Int × Header × AudioInfo) := do
  match ← loop (searchTurn file RIFF) fuel (startRiff file l) with
  | none => pure (-1, .empty, info)
  | some c =>
    let (riff, c) := readRiff file c
    let h ← ExceptT.mk (some (Header.empty.put 0 riff))
    parseFmt file l.formatSize h info c fuel

/-! ## Patches -/

def updateDatachunkLength (h : Header) (info : AudioInfo) (formatSize : Int) : Except Fault Header := do
  let h ← h.put (24 + formatSize) (littleEndian 4 info.outputDataLen)
  h.put 4 (littleEndian 4 (info.outputDataLen + 20 + formatSize))

def updateBlockalign (h : Header) (info : AudioInfo) : Except Fault Header := do
  let h ← h.put 32 (littleEndian 2 info.outBlockalign)
  h.put 20 (littleEndian 2 info.outAudioformat)

def updateSampleBitdepth (h : Header) (info : AudioInfo) : Except Fault Header := do
  let h ← h.put 34 (littleEndian 2 info.outFrameBits)
  h.put 28 (littleEndian 4 (info.outputSampleRate * (info.outFrameBits / 8 : Nat) * info.channel))

def headerUpdate (h : Header) (info : AudioInfo) : Except Fault Header := do
  let formatSize := intAt h.bytes 16
  let h ← h.put (24 + formatSize) (littleEndian 4 info.outputUsed)
  h.put 4 (littleEndian 4 (info.outputUsed + 20 + formatSize))

/-- What is done to the header after the parser has returned 1, with the lengths of the
conversion. -/
def patches (h : Header) (info : AudioInfo) : Except Fault Header := do
  let formatSize := intAt h.bytes 16
  let h ← updateDatachunkLength h info formatSize
  let h ← updateBlockalign h info
  let h ← updateSampleBitdepth h info
  headerUpdate h info

end ImxTest.Asrc
