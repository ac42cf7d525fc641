import Mathlib.Data.Nat.ModEq
import Mathlib.Data.List.Range
import Mathlib.Tactic.Common
import Mathlib.Tactic.Ring

/-! The capture ring of the PDM test. Bytes are told apart by their numbers in the captured
stream; each address has the number of the byte it was last given. -/
namespace ImxTest.Pdm

/-- What ALSA answers during the set-up. -/
structure Device where
  channels : Nat
  bufferSizeMax : Nat
  periodSizeMax : Nat
  bufferSize : Nat

structure Params where
  bitsPerFrame : Nat
  /-- In frames, as it comes from `snd_pcm_hw_params_get_period_size_max`. -/
  periodBytes : Nat
  periodFrames : Nat
  bufferFrames : Nat
deriving DecidableEq, Repr

inductive SetupError where
  | divisionByZero
  | EINVAL
deriving DecidableEq, Repr

/-- `SND_PCM_FORMAT_DSD_U32_LE`. -/
def physicalWidth : Nat := 32

def MXC_DRV_NUM_PERIODS : Nat := 4

/-- With channels as `mxc_alsa_pdm_init` leaves them. -/
def setParams (dev : Device) : Except SetupError Params :=
  let channels := if dev.channels = 0 then 1 else dev.channels
  let bitsPerFrame := physicalWidth * channels
  let periodFrames := dev.periodSizeMax / (bitsPerFrame >>> 3)
  if periodFrames = 0 then .error .divisionByZero
  else if dev.bufferSizeMax / periodFrames < MXC_DRV_NUM_PERIODS then .error .EINVAL
  else .ok { bitsPerFrame, periodBytes := dev.periodSizeMax, periodFrames, bufferFrames := dev.bufferSize }

/-- The size of the ring in bytes. -/
def Params.bufferSize (p : Params) : Nat := p.bufferFrames

structure Priv where
  readPos : Nat := 0
  writePos : Nat := 0
  rperiods : Nat := 0
  wperiods : Nat := 0
  sem : Nat := 0
  buffer : Nat → Option Nat := fun _ => none
  /-- The bytes captured so far. -/
  captured : Nat := 0
  /-- The bytes that have been combined into samples, each with its address. -/
  consumed : List (Nat × Option Nat) := []

/-! ## The reader -/

/-- The next `n` bytes of the stream go to `addr`. -/
def Priv.capture (s : Priv) (addr n : Nat) : Priv :=
  { s with
    buffer := fun a => if addr ≤ a ∧ a < addr + n then some (s.captured + (a - addr)) else s.buffer a
    captured := s.captured + n }

/-- One `snd_pcm_readi` after the other, until no frames are left; `none` where there are too
few of them. -/
def readLoop (p : Params) : (frames addr result : Nat) → (sizes : List Nat) → Priv → Option (Nat × Priv)
  | 0, _, result, [], s => some (result, s)
  | 0, _, _, _ :: _, _ => none
  | _ + 1, _, _, [], _ => none
  | frames + 1, addr, result, size :: sizes, s =>
    if size ≤ frames + 1 then
      readLoop p (frames + 1 - size) (addr + size * p.bitsPerFrame / 8) (result + size) sizes
        (s.capture addr (size * p.bitsPerFrame / 8))
    else none

def mxcAlsaPdmRead (p : Params) (sizes : List Nat) (s : Priv) : Option Priv :=
  (readLoop p p.periodFrames s.readPos 0 sizes s).map fun (result, s) =>
    let readPos := s.readPos + result * p.bitsPerFrame / 8
    { s with
      rperiods := s.rperiods + 1
      readPos := if p.bufferSize ≤ readPos then 0 else readPos
      sem := s.sem + 1 }

/-! ## The converter -/

/-- The inner loop: bytes of a sample. -/
def combineBytes (base : Nat) : (n : Nat) → Priv → Priv
  | 0, s => s
  | n + 1, s => combineBytes base n
    { s with
      consumed := s.consumed ++ [(base + s.writePos, s.buffer (base + s.writePos))]
      writePos := s.writePos + 1 }

/-- The outer loop: samples of eight bytes. -/
def combineSamples (p : Params) (base k : Nat) (s : Priv) : Priv :=
  if k < p.periodBytes then combineSamples p base (k + 8) (combineBytes base 8 s) else s
termination_by p.periodBytes - k

/-- From one wait for the semaphore to the next. -/
def mxcAlsaPdmConvert (p : Params) (s : Priv) : Option Priv :=
  if s.sem = 0 then none
  else
    let s := { s with sem := s.sem - 1 }
    if 4 < s.rperiods then
      let s := combineSamples p s.writePos 0 s
      some { s with
        wperiods := s.wperiods + 1
        writePos := if p.bufferSize ≤ s.writePos then 0 else s.writePos }
    else some s

/-! ## Runs -/

inductive Event where
  | read (sizes : List Nat)
  | convert

/-- The bytes of a period. -/
def Params.periodSize (p : Params) : Nat := p.periodFrames * p.bitsPerFrame / 8

/-- The bytes of a period as they are made into samples. -/
def Params.sampleBytes (p : Params) : Nat := 8 * ((p.periodBytes + 7) / 8)

/-- The bytes that the reader is about to overwrite are of periods whose posts the converter
has taken. -/
def NotOvertaking (p : Params) (s : Priv) : Prop :=
  ∀ a i, s.readPos ≤ a → a < s.readPos + p.periodSize → s.buffer a = some i →
    i < p.periodSize * (s.rperiods - s.sem)

/-- A step of either thread that goes through; the reader does not overtake the converter. -/
inductive Step (p : Params) : Priv → Event → Priv → Prop where
  | read {s s' sizes} (clear : NotOvertaking p s) (done : mxcAlsaPdmRead p sizes s = some s') :
      Step p s (.read sizes) s'
  | convert {s s'} (done : mxcAlsaPdmConvert p s = some s') : Step p s .convert s'

/-- The bytes in the samples come from inside the ring, and they are the captured ones in
order, each once, from the first one that is used. -/
structure InStep (p : Params) (s : Priv) : Prop where
  inside : ∀ x ∈ s.consumed, x.1 < p.bufferSize
  inOrder : ∃ start, s.consumed.map Prod.snd = (List.range' start s.consumed.length).map some

end ImxTest.Pdm
