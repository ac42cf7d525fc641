import ImxTest.Dsd.Read

/-! The DSDIFF reader, as the source has it. Flags that something has been found are options. -/
namespace ImxTest.Dsd

open Lib Reading

structure DsdParams where
  samplingFreq : Nat
  bitsPerSample : Nat
  channelNum : Nat
  dsdChunkSize : Nat
deriving DecidableEq, Repr

/-- What has been found of the property chunk. -/
structure DffProp where
  fs : Option Nat := none
  chnl : Option Nat := none
  compr : Bool := false
deriving DecidableEq, Repr

/-- What has been found of the form chunk. -/
structure DffForm where
  version : Option Nat := none
  prop : Option DffProp := none
  dsdData : Option Nat := none
deriving DecidableEq, Repr

def DffProp.done (prop : DffProp) : Bool := prop.fs.isSome && prop.chnl.isSome && prop.compr

def DffForm.done (form : DffForm) : Bool :=
  form.version.isSome && form.prop.isSome && form.dsdData.isSome

def DffForm.params (form : DffForm) : DsdParams where
  samplingFreq := (form.prop.bind (·.fs)).getD 0
  bitsPerSample := 8
  channelNum := (form.prop.bind (·.chnl)).getD 0
  dsdChunkSize := form.dsdData.getD 0

section Reader
variable (sys : System)

def skipChunk : Reader Unit := do
  let nextChunkSize ← readU64 true
  skip sys nextChunkSize

def readFs : Reader Nat := do
  let _ ← readU64 true
  readU32 true

def readChnl : Reader Nat := do
  let _ ← readU64 true
  let numChannels ← readU16 true
  skip sys (4 * numChannels)
  pure numChannels

/-- What the size of the chunk leaves for the name, as an unsigned long. -/
def nameSize (chunkSize : Nat) : Nat := (chunkSize + 2 ^ 64 - 5) % 2 ^ 64

/-- There are 256 bytes for the name. -/
def readName (size : Nat) : Reader Unit := fun t =>
  if sys.most < size then .error .failed
  else if 256 < min size t.left.length then .error .fault
  else .ok ((), { t with left := t.left.drop size })

def readCompr : Reader Unit := do
  let chunkSize ← readU64 true
  expect (ascii "DSD ")
  let _ ← readNew 1
  readName sys (nameSize chunkSize)

def handleProp (_ : Nat) (nextChunk : List UInt8) (prop : DffProp) : Reader DffProp :=
  if prop.fs.isNone && nextChunk == ascii "FS  " then
    readFs >>= fun sampleRate => pure { prop with fs := some sampleRate }
  else if prop.chnl.isNone && nextChunk == ascii "CHNL" then
    readChnl sys >>= fun numChannels => pure { prop with chnl := some numChannels }
  else if !prop.compr && nextChunk == ascii "CMPR" then
    readCompr sys >>= fun _ => pure { prop with compr := true }
  else skipChunk sys >>= fun _ => pure prop

def readDffProp (fuel : Nat) : Reader DffProp := do
  let _ ← readU64 true
  expect (ascii "SND ")
  let nextChunk ← fresh 4
  chunks DffProp.done (handleProp sys) fuel nextChunk {}

def readDffFver : Reader Nat := do
  let _ ← readU64 true
  readU32 true

def readDffDsdData : Reader Nat := readU64 true

def handleForm (fuel : Nat) (nextChunk : List UInt8) (form : DffForm) : Reader DffForm :=
  if form.version.isNone && form.prop.isNone && form.dsdData.isNone && nextChunk == ascii "FVER" then
    readDffFver >>= fun version => pure { form with version := some version }
  else if form.version.isSome && form.prop.isNone && form.dsdData.isNone && nextChunk == ascii "PROP" then
    readDffProp sys fuel >>= fun prop => pure { form with prop := some prop }
  else if form.version.isSome && form.prop.isSome && form.dsdData.isNone && nextChunk == ascii "DSD " then
    readDffDsdData >>= fun chunkSize => pure { form with dsdData := some chunkSize }
  else skipChunk sys >>= fun _ => pure form

def readDffForm (fuel : Nat) : Reader DffForm := do
  expect (ascii "FRM8")
  let _ ← readU64 true
  expect (ascii "DSD ")
  let nextChunk ← fresh 4
  chunks DffForm.done (handleForm sys) fuel nextChunk {}

def readDffFile (fuel : Nat) : Reader DsdParams := do
  let form ← readDffForm sys fuel
  pure form.params

end Reader

end ImxTest.Dsd
