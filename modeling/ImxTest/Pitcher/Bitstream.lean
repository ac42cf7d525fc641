import ImxTest.Lib.BitString

/-! pitcher/bitstream.c. What its assertions refuse, and a shift by the width of
the operand or more, end a computation with a fault. -/
namespace ImxTest.Pitcher

inductive Fault where
  | assertion
  | shift
  /-- A pointer into a buffer that is not the one at hand. -/
  | stalePointer
  /-- A loop without end. -/
  | unending
deriving DecidableEq, Repr

/-- `next_24_bits`. -/
def next24Bits (virt : Nat → UInt8) (p : Nat) : Nat :=
  (virt p).toNat <<< 16 ||| (virt (p + 1)).toNat <<< 8 ||| (virt (p + 2)).toNat

/-- The bytes `nal_remove_emul_bytes` has written, and the first address past all
those it has read. -/
structure Unescaped where
  rbsp : List UInt8 := []
  reach : Nat := 0
deriving DecidableEq, Repr

def Unescaped.push (bytes : List UInt8) (reach : Nat) (rest : Unescaped) : Unescaped :=
  ⟨bytes ++ rest.rbsp, max reach rest.reach⟩

/-- The loop of `nal_remove_emul_bytes` from index `i` and address `ps` on. -/
def nalRemoveEmulBytesLoop (virt : Nat → UInt8) (nalSize nalHeaderSz emulByte : Nat) :
    (fuel i ps : Nat) → Unescaped
  | 0, _, _ => {}
  | fuel + 1, i, ps =>
    if i < nalSize then
      if i + nalHeaderSz < nalSize then
        if next24Bits virt ps = emulByte then
          .push [virt ps, virt (ps + 1)] (ps + 3)
            (nalRemoveEmulBytesLoop virt nalSize nalHeaderSz emulByte fuel (i + 3) (ps + 3))
        else .push [virt ps] (ps + 3)
          (nalRemoveEmulBytesLoop virt nalSize nalHeaderSz emulByte fuel (i + 1) (ps + 1))
      else .push [virt ps] (ps + 1)
        (nalRemoveEmulBytesLoop virt nalSize nalHeaderSz emulByte fuel (i + 1) (ps + 1))
    else {}

/-- `nalSize` is an `int`. Each round advances the index, so `nalSize` of them do. -/
def nalRemoveEmulBytes (virt : Nat → UInt8) (psrc : Nat) (nalSize : Int)
    (nalHeaderSz emulByte : Nat) : Unescaped :=
  nalRemoveEmulBytesLoop virt nalSize.toNat nalHeaderSz emulByte nalSize.toNat nalHeaderSz
    (psrc + nalHeaderSz)

/-- `byte_alloc` is the length of `buf`. -/
structure BitstreamBuf where
  buf : List UInt8
  bufRdptr : Nat := 0
  numHeldBits : Nat := 0
  heldBits : Nat := 0
  numBitsRead : Nat := 0
deriving DecidableEq, Repr

def bsInit (buf : List UInt8) : BitstreamBuf := { buf }

/-- `value & ~(0xff << num)`. -/
def clearByte (value num : Nat) : Nat := value &&& (0xffffffff ^^^ 0xff <<< num)

/-- The switch that loads one to four bytes. -/
def loadAligned (buf : List UInt8) (rdptr numBytesToLoad : Nat) : Nat :=
  let byte (k : Nat) : Nat := (buf.getD (rdptr + k) 0).toNat
  match numBytesToLoad with
  | 0 => byte 0
  | 1 => byte 0 <<< 8 ||| byte 1
  | 2 => byte 0 <<< 16 ||| byte 1 <<< 8 ||| byte 2
  | _ => byte 0 <<< 24 ||| byte 1 <<< 16 ||| byte 2 <<< 8 ||| byte 3

def bsRead (bs : BitstreamBuf) (numOfBits : Nat) : Except Fault (Nat × BitstreamBuf) :=
  if 32 < numOfBits then .error .assertion
  else
    let bs := { bs with numBitsRead := (bs.numBitsRead + numOfBits) % 2 ^ 32 }
    if numOfBits ≤ bs.numHeldBits then
      .ok (clearByte (bs.heldBits >>> (bs.numHeldBits - numOfBits)) numOfBits,
        { bs with numHeldBits := bs.numHeldBits - numOfBits })
    else
      let num := numOfBits - bs.numHeldBits
      -- `retval <<= num_of_bits` comes before the second assertion
      if 32 ≤ num then .error .shift
      else if bs.buf.length ≤ bs.bufRdptr + (num - 1) >>> 3 then .error .assertion
      else
        let alignedWord := loadAligned bs.buf bs.bufRdptr ((num - 1) >>> 3)
        let nextNumHeldBits := (32 - num) % 8
        .ok (clearByte bs.heldBits bs.numHeldBits <<< num % 2 ^ 32 ||| alignedWord >>> nextNumHeldBits,
          { bs with
            bufRdptr := bs.bufRdptr + (num - 1) >>> 3 + 1
            numHeldBits := nextNumHeldBits
            heldBits := alignedWord % 2 ^ 8 })

def bsReadCode (bs : BitstreamBuf) (length : Nat) : Except Fault (Nat × BitstreamBuf) :=
  if length = 0 then .error .assertion else bsRead bs length

def bsReadFlag (bs : BitstreamBuf) : Except Fault (Nat × BitstreamBuf) := bsRead bs 1

/-- `while (!(code & 1))`: the number of rounds. -/
def bsReadZeros : (fuel : Nat) → BitstreamBuf → Except Fault (Nat × BitstreamBuf)
  | 0, _ => .error .unending
  | fuel + 1, bs => do
    let (code, bs) ← bsRead bs 1
    if code &&& 1 = 0 then do
      let (length, bs) ← bsReadZeros fuel bs
      .ok (length + 1, bs)
    else .ok (1, bs)

/-- Every round reads a bit, so there are no more than the buffer has. -/
def BitstreamBuf.rounds (bs : BitstreamBuf) : Nat := 8 * bs.buf.length + 8

def bsReadUvlc (bs : BitstreamBuf) : Except Fault (Nat × BitstreamBuf) := do
  let (code, bs) ← bsRead bs 1
  if code = 0 then do
    let (length, bs) ← bsReadZeros bs.rounds bs
    let (val, bs) ← bsRead bs length
    if 32 ≤ length then .error .shift
    else .ok ((val + (1 <<< length - 1)) % 2 ^ 32, bs)
  else .ok (0, bs)

def bsReadSvlc (bs : BitstreamBuf) : Except Fault (Int × BitstreamBuf) := do
  let (bits, bs) ← bsRead bs 1
  if bits = 0 then do
    let (length, bs) ← bsReadZeros bs.rounds bs
    let (bits, bs) ← bsRead bs length
    if 32 ≤ length then .error .shift
    else
      let bits := (bits + 1 <<< length) % 2 ^ 32
      .ok (if bits &&& 1 = 1 then -(bits >>> 1 : Nat) else (bits >>> 1 : Nat), bs)
  else .ok (0, bs)

/-- A parsing function as the reads it makes, each with what is done with the value. -/
inductive Reads (α : Type) where
  | ret (a : α)
  | fail (fault : Fault)
  | code (length : Nat) (next : Nat → Reads α)
  | flag (next : Nat → Reads α)
  | uvlc (next : Nat → Reads α)
  | svlc (next : Int → Reads α)

namespace Reads
variable {α β : Type}

def bind : Reads α → (α → Reads β) → Reads β
  | ret a, f => f a
  | fail fault, _ => fail fault
  | code length next, f => code length fun v => (next v).bind f
  | flag next, f => flag fun v => (next v).bind f
  | uvlc next, f => uvlc fun v => (next v).bind f
  | svlc next, f => svlc fun v => (next v).bind f

instance : Monad Reads where
  pure := ret
  bind := bind

def check (computed : Except Fault α) : Reads α :=
  match computed with
  | .ok a => ret a
  | .error fault => fail fault

/-- An `if` without an `else`. -/
def when (c : Prop) [Decidable c] (reads : Reads Unit) : Reads Unit := if c then reads else pure ()

/-- The reads on the current bit stream. -/
def run : Reads α → BitstreamBuf → Except Fault (α × BitstreamBuf)
  | ret a, bs => .ok (a, bs)
  | fail fault, _ => .error fault
  | code length next, bs => do
    let (v, bs) ← bsReadCode bs length
    (next v).run bs
  | flag next, bs => do
    let (v, bs) ← bsReadFlag bs
    (next v).run bs
  | uvlc next, bs => do
    let (v, bs) ← bsReadUvlc bs
    (next v).run bs
  | svlc next, bs => do
    let (v, bs) ← bsReadSvlc bs
    (next v).run bs

end Reads

def readCode (length : Nat) : Reads Nat := .code length .ret

def readFlag : Reads Nat := .flag .ret

def readUvlc : Reads Nat := .uvlc .ret

def readSvlc : Reads Int := .svlc .ret

end ImxTest.Pitcher
