import ImxTest.Asrc.Accept
import ImxTest.Asrc.Shift

/-! The rest of the ASRC test: the loop that hands the input to the driver block by block and writes
what comes back, and the program around it. -/
namespace ImxTest.Asrc

open Lib While Words

/-! ## The driver and alsa-lib -/

structure Config where
  channelNum : Int
  dmaBufferSize : Nat
  inputSampleRate : Int
  outputSampleRate : Int
  inputFormat : PcmFormat
  outputFormat : PcmFormat

/-- The requests of the driver; `none` where one fails. -/
structure Driver (δ : Type) where
  /-- What it supports of input and output. -/
  reqPair : (chnNum : Int) → Option ((PcmFormat → Bool) × (PcmFormat → Bool) × δ)
  configPair : Config → δ → Option δ
  startConv : δ → Option δ
  /-- What it makes of a block, no more than there is room for. -/
  convert : (block : List UInt8) → (room : Nat) → δ → Option ({ out : List UInt8 // out.length ≤ room } × δ)
  stopConv : δ → Option δ

structure Alsa extends Widths where
  linear : PcmFormat → Bool
  signed : PcmFormat → Int

/-! ## The loop -/

structure Playing (δ : Type) where
  device : δ
  /-- How far `input_p` is in the buffer. -/
  inputP : Nat
  inputDataLen : Int
  outputDataLen : Int
  outputUsed : Int
  dst : List UInt8

section Play
variable {δ : Type} (driver : Driver δ) (buffer : List UInt8) (dma room : Nat)

/-- A block is as long as the driver's buffer also where less of the input is left; behind the
input it is zeros. -/
def nextBlock (p : Playing δ) : Except Fault (List UInt8) :=
  if 0 < p.inputDataLen then
    if p.inputP + dma ≤ buffer.length then .ok (bytesAt buffer p.inputP dma) else .error .outside
  else .ok (List.replicate dma 0)

def takeBlock (p : Playing δ) : Playing δ :=
  if 0 < p.inputDataLen then
    let length := if dma < p.inputDataLen then dma else p.inputDataLen.toNat
    { p with inputP := p.inputP + length, inputDataLen := p.inputDataLen - length }
  else p

/-- A turn, which leaves the loop with an error of the driver or with 0. -/
def playTurn (p : Playing δ) : Except Fault (Turn (Playing δ) (Int × Playing δ)) := do
  let block ← nextBlock buffer dma p
  let p := takeBlock dma p
  match driver.convert block room p.device with
  | none => pure (.leave (-1, p))
  | some (out, device) =>
    -- the lengths are compared without a sign, so a negative one is large
    if out.val.length < uint p.outputDataLen then
      pure (.again { p with
        device
        outputDataLen := int (p.outputDataLen - out.val.length)
        outputUsed := int (p.outputUsed + out.val.length)
        dst := p.dst ++ out.val })
    else if 0 ≤ p.outputDataLen then
      pure (.leave (0, { p with
        device
        outputDataLen := 0
        outputUsed := int (p.outputUsed + p.outputDataLen)
        dst := p.dst ++ out.val.take p.outputDataLen.toNat }))
    else .error .outside

end Play

section Program
variable {δ : Type} (driver : Driver δ) (alsa : Alsa)

/-- What the buffer of the output holds. -/
def outputRoom (outputDmaSize channel : Int) : Nat := uint (outputDmaSize + channel * 4 * 64)

/-- The error, and `info` and the output file as far as they are written. -/
def playFile (s : Shifted) (info : AudioInfo) (outputFormat : PcmFormat) (dst : List UInt8) (device : δ)
    (fuel : Nat) : ExceptT Fault Option (Int × AudioInfo × List UInt8) := do
  let outputDmaSize ← asrcGetOutputBufferSize alsa.physicalWidth s.inputDmaBufSize info.sampleRate
    info.outputSampleRate s.inputFormat outputFormat fuel
  match driver.startConv device with
  | none => pure (-1, info, dst)
  | some device =>
    let (err, p) ← loop (playTurn driver s.buffer s.inputDmaBufSize (outputRoom outputDmaSize info.channel)) fuel
      ⟨device, 0, s.inputDataLen, info.outputDataLen, 0, dst⟩
    let info := { info with outputDataLen := p.outputDataLen, outputUsed := p.outputUsed }
    if err < 0 then pure (err, info, p.dst)
    else
      match driver.stopConv p.device with
      | none => pure (-1, info, p.dst)
      | some _ => pure (0, info, p.dst)

/-! ## Headers -/

def headerDefault (info : AudioInfo) : Except Fault Header := do
  let h ← Header.empty.put 0 RIFF
  let h ← h.put 4 (littleEndian 4 0)
  let h ← h.put 8 WavParts.WAVE
  let h ← h.put 12 fmt
  let h ← h.put 16 (littleEndian 4 16)
  let h ← h.put 22 (littleEndian 2 info.channel)
  let h ← h.put 24 (littleEndian 4 info.outputSampleRate)
  h.put 36 data

/-- Byte by byte, while the index is below a signed number. -/
def headerWrite (h : Header) : Except Fault (List UInt8) :=
  let length := int (intAt h.bytes 16 + 28)
  if length ≤ WAVE_HEAD_SIZE then .ok (h.bytes.take length.toNat) else .error .outside

/-- A write at a place of a file. -/
def fwriteAt (dst : List UInt8) (pos : Nat) (bytes : List UInt8) : List UInt8 :=
  overlay (dst ++ List.replicate (pos - dst.length) 0) pos bytes

/-- The whole of `header_update`: the lengths in the header and in the file. -/
def updateFile (h : Header) (info : AudioInfo) (dst : List UInt8) : Except Fault (List UInt8) := do
  let formatSize := intAt h.bytes 16
  let h ← headerUpdate h info
  let dst := fwriteAt dst 4 (bytesAt h.bytes 4 4)
  pure (fwriteAt dst (24 + formatSize).toNat (bytesAt h.bytes (24 + formatSize).toNat 4))

/-! ## The program -/

structure Args where
  pcm : Bool
  inputFormat : PcmFormat
  outputFormat : PcmFormat
  sampleRate : Int
  channel : Int
  outputSampleRate : Int

def Format.pcmFormat : Format → PcmFormat
  | .S8 => .S8
  | .U8 => .U8
  | .S16_LE => .S16_LE
  | .S24_LE => .S24_LE
  | .S32_LE => .S32_LE
  | .FLOAT_LE => .FLOAT_LE
  | .S24_3LE => .S24_3LE
  | .S20_3LE => .S20_3LE

section Input
variable (file : List UInt8) (l : Locals)

/-- Where the stream is behind the parser, by its searches. -/
def streamBehind (inputDataLen : List UInt8) (fuel : Nat) : ExceptT Fault Option Nat := do
  match ← loop (searchTurn file RIFF) fuel (startRiff file l) with
  | none => pure 0
  | some c =>
    match ← loop (searchTurn file fmt) fuel (readRiff file c).2 with
    | none => pure 0
    | some c =>
      match ← loop (searchTurn file data) fuel (readFmt file l.formatSize c).2.2 with
      | none => pure 0
      | some c => pure (streamEnd file inputDataLen c)

/-- The numbers of a file without a header. -/
def rawInfo (args : Args) : AudioInfo where
  sampleRate := args.sampleRate
  channel := args.channel
  outputSampleRate := args.outputSampleRate
  inputDataLen := littleEndian 4 file.length
  inFrameBits := (alsa.width args.inputFormat % 2 ^ 16).toNat
  inBlockalign := (Int.tdiv (int (args.channel * alsa.physicalWidth args.inputFormat)) 8 % 2 ^ 16).toNat
  inSlotwidth := (alsa.physicalWidth args.inputFormat % 2 ^ 16).toNat
  inAudioformat := if args.inputFormat = .FLOAT_LE then 3 else 1

/-- What is there before anything is asked of the driver. -/
structure Input where
  header : Header
  info : AudioInfo
  inputFormat : PcmFormat
  pos : Nat

/-- The parser's error is `none`. -/
def readInput (args : Args) (fuel : Nat) : ExceptT Fault Option (Option Input) := do
  if args.pcm then
    let h ← ExceptT.mk (some (headerDefault (rawInfo alsa file args)))
    pure (some ⟨h, rawInfo alsa file args, args.inputFormat, 0⟩)
  else
    let (r, h, info) ← headerParser file l
      { sampleRate := args.sampleRate, channel := args.channel, outputSampleRate := args.outputSampleRate } fuel
    if r ≤ 0 then pure none
    else
      let pos ← streamBehind file l info.inputDataLen fuel
      pure (some ⟨h, info, info.inputFormat.pcmFormat, pos⟩)

/-- What a run of the program comes to. -/
structure Outcome where
  err : Int
  /-- Whether the end of the program is reached that says so. -/
  passed : Bool
  dst : List UInt8

/-- S8 is the number 0, which stands for no choice. -/
def Args.output (args : Args) : PcmFormat := if args.outputFormat = .S8 then .S16_LE else args.outputFormat

def writesHeader (outputFormat : PcmFormat) : Bool := alsa.linear outputFormat && decide (0 < alsa.signed outputFormat)

/-- From the configuration of the pair on. -/
def convertInput (args : Args) (h : Header) (info : AudioInfo) (s : Shifted) (device : δ) (fuel : Nat) :
    ExceptT Fault Option Outcome := do
  match driver.configPair ⟨info.channel, s.inputDmaBufSize, info.sampleRate, info.outputSampleRate, s.inputFormat,
      args.output⟩ device with
  | none => pure ⟨-1, false, []⟩
  | some device =>
    let dst ← ExceptT.mk (some (if writesHeader alsa args.output then headerWrite h else .ok []))
    let (err, info, dst) ← playFile driver alsa s info args.output dst device fuel
    if err < 0 then pure ⟨err, false, dst⟩
    else
      let dst ← ExceptT.mk (some (if writesHeader alsa args.output then updateFile h info dst else .ok dst))
      pure ⟨0, true, dst⟩

/-- `main`, from the open files on. -/
def main (heap : Heap) (word : List UInt8) (args : Args) (fuel : Nat) : ExceptT Fault Option Outcome := do
  match ← readInput alsa file l args fuel with
  | none => pure ⟨0, false, []⟩
  | some input =>
    match driver.reqPair input.info.channel with
    | none => pure ⟨-1, false, []⟩
    | some (supportedIn, supportedOut, device) =>
      if supportedOut args.output then
        let (r, h, info, shifted) ← bitshift file heap supportedIn alsa.toWidths input.pos word input.header input.info
          input.inputFormat args.output fuel
        match shifted with
        | none => pure ⟨r, false, []⟩
        | some s => convertInput driver alsa args h info s device fuel
      else pure ⟨0, false, []⟩

end Input

end Program

end ImxTest.Asrc
