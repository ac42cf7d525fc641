import ImxTest.Dsd.Interleave

/-! The end of the player that faces the sound device: frames are written until the device has
taken them all, over partial writes, waits, underruns and suspends. -/
namespace ImxTest.Dsd

open Lib Reading

/-- What `snd_pcm_writei` returns. -/
inductive Written where
  | frames (n : Nat)
  | EAGAIN
  | EPIPE
  | ESTRPIPE
  | error
deriving DecidableEq, Repr

inductive Resumed where
  | ok | EAGAIN | error
deriving DecidableEq, Repr

/-- The calls of alsa-lib on an open stream. -/
structure Pcm (δ : Type) where
  writei : δ → (data : List UInt8) → (count : Nat) → δ × Written
  wait : δ → δ
  /-- Whether the state is XRUN, if there is a status. -/
  status : δ → δ × Option Bool
  prepare : δ → δ × Bool
  resume : δ → δ × Resumed
  /-- No more is taken than there is. -/
  most : ∀ {d data count n}, (writei d data count).2 = .frames n → n ≤ count

/-- A stream, and the bytes it has taken so far. -/
structure Stream (δ : Type) where
  dev : δ
  played : List UInt8 := []

variable {δ : Type} (pcm : Pcm δ)

/-- Anything but an underrun that can be recovered from ends the program. -/
def xrun (d : δ) : Except Stop δ :=
  match pcm.status d with
  | (_, none) => .error .failed
  | (d, some xrun) =>
    if xrun then
      let (d, prepared) := pcm.prepare d
      if prepared then .ok d else .error .failed
    else .error .failed

def suspend : (fuel : Nat) → δ → ExceptT Stop Option δ
  | 0, _ => none
  | fuel + 1, d =>
    match pcm.resume d with
    | (d, .EAGAIN) => suspend fuel d
    | (d, .ok) => pure d
    | (d, .error) =>
      let (d, prepared) := pcm.prepare d
      if prepared then pure d else throw .failed

def pcmWrite (bytesPerFrame : Nat) : (fuel : Nat) → Stream δ → (data : List UInt8) → (count : Nat) →
    ExceptT Stop Option (Stream δ)
  | 0, _, _, _ => none
  | fuel + 1, s, data, count =>
    if count = 0 then pure s
    else
      match pcm.writei s.dev data count with
      | (d, .frames n) =>
        let d := if n < count then pcm.wait d else d
        pcmWrite bytesPerFrame fuel ⟨d, s.played ++ data.take (n * bytesPerFrame)⟩
          (data.drop (n * bytesPerFrame)) (count - n)
      | (d, .EAGAIN) => pcmWrite bytesPerFrame fuel { s with dev := pcm.wait d } data count
      | (d, .EPIPE) => do
        let d ← ExceptT.mk (some (xrun pcm d))
        pcmWrite bytesPerFrame fuel { s with dev := d } data count
      | (d, .ESTRPIPE) => do
        let d ← suspend pcm fuel d
        pcmWrite bytesPerFrame fuel { s with dev := d } data count
      | (_, .error) => throw .failed

/-! ## The player -/

/-- A function that interleaves a block, with what its destination holds before. -/
abbrev Interleave := (dest src : List UInt8) → (channels : UInt32) → Except Stop (List UInt8)

/-- What there is of the kinds of files. -/
structure FileParser where
  readFile : (fuel : Nat) → Reader DsdParams
  interleave : Interleave

def dsfParser : FileParser where
  readFile _ := readDsfFile
  interleave dest src channels := interleaveDsfBlock (fun _ : Unit => formatWidth) dest src channels ()

def dffParser (sys : System) : FileParser where
  readFile := readDffFile sys
  interleave dest src channels := interleaveDffBlock (fun _ : Unit => formatWidth) dest src channels ()

section Player
variable (interleave : Interleave) (params : DsdParams)

def frameCount : Nat := (blockSize params.channelNum).toNat / bytesPerFrame params.channelNum

/-- The turns of the loop behind the reads. What is read does not depend on the stream. -/
def writeBlocks (dest : List UInt8) (fuel : Nat) : List Block → Stream δ → ExceptT Stop Option (Stream δ)
  | [], s => pure s
  | b :: blocks, s => do
    let interleaved ← ExceptT.mk (some
      (interleave dest (b.buffer params.bitsPerSample) (UInt32.ofNat params.channelNum)))
    let s ← pcmWrite pcm (bytesPerFrame params.channelNum) fuel s interleaved (frameCount params)
    writeBlocks dest fuel blocks s

/-- Zeros up to a whole period. -/
def writeRest (writesize chunkSize fuel : Nat) (s : Stream δ) : ExceptT Stop Option (Stream δ) :=
  if chunkSize = 0 then throw .fault
  else if writesize % chunkSize ≠ 0 then
    let rest := chunkSize - writesize % chunkSize
    pcmWrite pcm (bytesPerFrame params.channelNum) fuel s
      (List.replicate (rest * bytesPerFrame params.channelNum) 0) rest
  else pure s

end Player

/-- From the file to the stream. `openStream` gives the stream for a rate and a number of channels, and
the size of a period; `dest` is what the array for the interleaved bytes holds before. -/
def player (sys : System) (parser : FileParser) (openStream : (rate channels : Nat) → Except Stop (δ × Nat))
    (dest : List UInt8) (fuel : Nat) (t : Tape) : ExceptT Stop Option (Stream δ) := do
  let (params, t) ← ExceptT.mk (some (parser.readFile fuel t))
  let (d, chunkSize) ← ExceptT.mk (some (openStream (params.samplingFreq / formatWidth) params.channelNum))
  let (d, prepared) := pcm.prepare d
  if !prepared then throw .failed
  let (blocks, _) ← ExceptT.mk (some (play sys params t))
  let s ← writeBlocks pcm parser.interleave params dest fuel blocks ⟨d, []⟩
  writeRest pcm params (blocks.length * frameCount params) chunkSize fuel s

end ImxTest.Dsd
