import ImxTest.Etm.Formatter
import ImxTest.Lib.Overlay
import ImxTest.Lib.Prog
import ImxTest.Lib.While

/-! The packets of etm.c, those of ETM v3 and those of the program flow trace. -/
namespace ImxTest.Etm
open Lib Overlay While

/-- The instruction set, by what an address is shifted. -/
inductive Mode where
  | jazelle | thumb | arm
deriving DecidableEq, Repr

def Mode.shift : Mode → Nat
  | .jazelle => 0
  | .thumb => 1
  | .arm => 2

abbrev Word := BitVec 32

/-- What is printed; the lines that are told of begin with whether the decoder is in sync. -/
inductive Line where
  | longWait
  | longWaitCount
  /-- `branches` is there in a program flow trace, `valid` when not all of the address is known. -/
  | instruction (synced execute : Bool) (pc : Word) (branches : Option Nat) (valid : Option Word) (waited : Option Nat)
  | branch (synced : Bool) (addr : Word) (exception : Option Word) (valid : Option Word) (mode : Mode)
  | timestamp (synced : Bool) (value difference : BitVec 64) (r : Bool)
  | cycleCount (synced : Bool) (count : Word)
  | isync (synced : Bool) (context : Word) (ib : Byte) (addr : Word)
  | contextId (synced : Bool) (context : Word)
  | vmid (synced : Bool) (vmid : Byte)
  | data (synced : Bool) (data addr : Option Word)
  | waypoint (synced : Bool) (addr : Word) (ib : Option Byte) (valid : Option Word) (mode : Mode)
  | trigger (synced : Bool)
  | exceptionReturn (synced : Bool)
  | unknownHeader
  | notHandled (ch : Byte) (name : String)
  /-- At the end of the trace. -/
  | waited (count : Nat)
deriving DecidableEq, Repr

structure State where
  source : Source
  data : Byte := 0
  iaddr : Word := 0
  iaddrValid : Word := 0
  timestamp : BitVec 64 := 0
  waitCount : Nat := 0
  pc : Word := 0
  branchCount : Nat := 0
  mode : Mode := .jazelle
  sync : Int := 0
  /-- `daddr` of `ndata` -/
  daddr : Word := 0
  out : List Line := []
deriving DecidableEq, Repr

abbrev Decode := Prog State

section Decode
variable (cfg : Config)

/-- `exit` at the end of the trace. -/
def getByte : Decode Byte := fun s =>
  match getchar cfg s.source with
  | (none, source) =>
    (none, { s with source, out := if s.waitCount ≠ 0 then s.out ++ [.waited s.waitCount] else s.out })
  | (some ch, source) =>
    let sync := if ch = 0 ∧ s.sync ≤ 0 then if s.sync = -4 then 1 else s.sync - 1 else s.sync
    (some ch, { s with source, data := ch, sync })

/-- `in_sync_char` -/
def State.synced (s : State) : Bool := 0 < s.sync

def emit (line : State → Line) : Decode Unit := Prog.modify fun s => { s with out := s.out ++ [line s] }

def State.valid (s : State) : Option Word := if s.iaddrValid ≠ 0xFFFFFFFF then some s.iaddrValid else none

def nextPc : Decode Word := do
  let s ← Prog.get
  Prog.modify fun s =>
    if cfg.programFlowOnly then { s with branchCount := s.branchCount + 1 } else { s with pc := s.pc + 1 <<< s.mode.shift }
  pure s.pc

def printInstruction (execute : Bool) : Decode Unit := do
  let waited := (← Prog.get).waitCount
  let pc ← nextPc cfg
  Prog.modify fun s => { s with waitCount := 0 }
  if cfg.longWait.toNat < waited then emit fun _ => .longWait
  emit fun s => .instruction s.synced execute pc (if cfg.programFlowOnly then some s.branchCount else none) s.valid
    (if waited ≠ 0 then some waited else none)

/-- So many times. -/
def times : Nat → Decode Unit → Decode Unit
  | 0, _ => pure ()
  | n + 1, m => do m; times n m

/-- The loop of `get_branch_addr`. -/
def addressBytes : (left count : Nat) → (addr valid : Word) → Decode (Nat × Word × Word)
  | 0, count, addr, valid => pure (count, addr, valid)
  | left + 1, count, addr, valid => do
    if (← Prog.get).data &&& 0x80 ≠ 0 then
      let data ← getByte cfg
      let mask : Word := if cfg.altBranch ∧ data &&& 0x80 = 0 then 0x3F else 0x7F
      addressBytes left (count + 1) (put mask (7 * count - 1) (data.setWidth 32) addr)
        (valid ^^^ mask <<< (7 * count - 1))
    else pure (count, addr, valid)

/-- The mode that the fifth byte of an address has. -/
def modeOf (data : Byte) : Mode := if data &&& 0xB0 = 0 then .arm else if data &&& 0xA0 = 0 then .thumb else .jazelle

/-- The end of `get_branch_addr`. -/
def setAddr (count : Nat) (data : Byte) (addr valid : Word) : Decode Unit := do
  if count = 5 then Prog.modify fun s => { s with mode := modeOf data }
  Prog.modify fun s =>
    let addr := addr <<< s.mode.shift
    let valid := valid <<< (s.mode.shift ||| ((1 <<< s.mode.shift) - 1))
    let iaddrValid := if s.iaddrValid < valid then valid else s.iaddrValid
    { s with iaddrValid, iaddr := addr, pc := addr, branchCount := 0 }

def getBranchAddr : Decode Bool := do
  let s ← Prog.get
  let addr := put 0x3F 0 ((s.data >>> 1).setWidth 32) (s.iaddr >>> s.mode.shift)
  let (count, addr, valid) ← addressBytes cfg 4 1 addr 0x3F
  let data := (← Prog.get).data
  let ret : Bool := (count = 5 ∨ cfg.altBranch ∧ 1 < count) ∧ data &&& 0x40 ≠ 0
  -- a branch stands for the instruction that is taken
  if !ret && cfg.programFlowOnly then printInstruction cfg true
  setAddr count data addr valid
  pure ret

def branch : Decode Unit := do
  let ret ← getBranchAddr cfg
  let exception ← if ret then do
      let first ← getByte cfg
      if first &&& 0x80 ≠ 0 then
        let second ← getByte cfg
        pure (some (first ||| second))
      else pure (some first)
    else pure none
  emit fun s => .branch s.synced s.iaddr (exception.map (·.setWidth 32)) s.valid s.mode

/-- Bytes of seven bits, up to one without the top bit; the mask of the last one may be another. -/
def septets {w : Nat} (mask : Nat → BitVec w) : (left : Nat) → (shift : Nat) → BitVec w → Decode (BitVec w)
  | 0, _, value => pure value
  | left + 1, shift, value => do
    let data ← getByte cfg
    let value := put (mask left) shift (data.setWidth w) value
    if data &&& 0x80 = 0 then pure value else septets mask left (shift + 7) value

def timestamp : Decode Unit := do
  let s ← Prog.get
  let r : Bool := s.data &&& 4 ≠ 0
  let value ← septets cfg (fun left => if left = 0 then 0xFF else 0x7F) 9 0 s.timestamp
  emit fun t => .timestamp t.synced value (value - s.timestamp) r
  Prog.modify fun s => { s with timestamp := value }

def longCount (count : Word) : Decode Unit := do
  if cfg.longWait < count then emit fun _ => .longWaitCount
  emit fun s => .cycleCount s.synced count

def ccount : Decode Unit := do
  let count ← septets cfg (fun _ => (0x7F : Word)) 5 0 0
  longCount cfg count

/-- So many bytes, the lowest first. -/
def word : (left : Nat) → (shift : Nat) → Word → Decode Word
  | 0, _, value => pure value
  | left + 1, shift, value => do
    let data ← getByte cfg
    word left (shift + 8) (value ||| data.setWidth 32 <<< shift)

def getContextid : Decode Word := word cfg cfg.contextidBytes 0 0

def getAddr : Decode Word := word cfg 4 0 0

def updateAddr (ib : Byte) (addr : Word) : Decode Unit := do
  let (mode, addr) : Mode × Word :=
    if ib &&& 0x10 ≠ 0 then (.jazelle, addr)
    else if addr &&& 1 ≠ 0 then (.thumb, addr &&& ~~~1)
    else (.arm, addr)
  Prog.modify fun s => { s with mode, iaddr := addr, iaddrValid := 0xFFFFFFFF, pc := addr, branchCount := 0 }

def isync : Decode Unit := do
  let context ← getContextid cfg
  let ib ← getByte cfg
  let addr ← getAddr cfg
  updateAddr ib addr
  emit fun s => .isync s.synced context ib s.iaddr

def isynccc : Decode Unit := do
  ccount cfg
  isync cfg

def contextid : Decode Unit := do
  let context ← getContextid cfg
  emit fun s => .contextId s.synced context

def vmid : Decode Unit := do
  let vmid ← getByte cfg
  emit fun s => .vmid s.synced vmid

def ndata : Decode Unit := do
  let h := (← Prog.get).data
  let size := ((h >>> 2) &&& 3).toNat
  let addressed : Bool := h &&& 0x20 ≠ 0
  if addressed then
    let daddr ← septets cfg (fun _ => (0x7F : Word)) 5 0 (← Prog.get).daddr
    Prog.modify fun s => { s with daddr }
  let data ← word cfg size 0 0
  emit fun s => .data s.synced (if size ≠ 0 then some data else none) (if addressed then some s.daddr else none)

def unknownHeader : Decode Unit := do
  Prog.modify fun s => { s with sync := 0 }
  emit fun _ => .unknownHeader

def wait (n : Nat) : Decode Unit := Prog.modify fun s => { s with waitCount := s.waitCount + n }

def pheaderCycleAccurate : Decode Unit := do
  let data := (← Prog.get).data
  if data = 0x80 then wait 1
  else if data &&& 0xA3 = 0x80 then
    times ((data >>> 2) &&& 7).toNat do
      wait 1
      printInstruction cfg true
    times ((data >>> 6) &&& 1).toNat do
      wait 1
      printInstruction cfg false
  else if data &&& 0xF3 = 0x82 then
    wait 1
    printInstruction cfg (data &&& 8 = 0)
    printInstruction cfg (data &&& 4 = 0)
  else if data &&& 0xA3 = 0xA0 then
    wait (((data >>> 2) &&& 7).toNat + 1)
    times ((data >>> 6) &&& 1).toNat (printInstruction cfg true)
  else if data &&& 0xFB = 0x92 then printInstruction cfg (data &&& 4 = 0)
  else unknownHeader

def pheaderNonCycleAccurate : Decode Unit := do
  let data := (← Prog.get).data
  if data &&& 0x83 = 0x80 then
    times ((data >>> 2) &&& 0xF).toNat (printInstruction cfg true)
    if data &&& 0x40 ≠ 0 then printInstruction cfg false
  else if data &&& 0xF3 = 0x82 then
    printInstruction cfg (data &&& 8 = 0)
    printInstruction cfg (data &&& 4 = 0)
  else unknownHeader

def pheader : Decode Unit := if cfg.cycleAccurate then pheaderCycleAccurate cfg else pheaderNonCycleAccurate cfg

def cycleCountPft : Decode Unit := do
  let h := (← Prog.get).data
  let count : Word := ((h >>> 2) &&& 0xF).setWidth 32
  let count ← if h &&& 0x40 ≠ 0 then septets cfg (fun _ => (0x7F : Word)) 4 4 count else pure count
  longCount cfg count

def isyncPft : Decode Unit := do
  let addr ← getAddr cfg
  let ib ← getByte cfg
  updateAddr ib addr
  if cfg.cycleAccurate ∧ ib &&& 0x60 ≠ 0 then
    let _ ← getByte cfg
    cycleCountPft cfg
  let context ← getContextid cfg
  emit fun s => .isync s.synced context ib s.iaddr

def waypoint : Decode Unit := do
  let _ ← getByte cfg
  let ret ← getBranchAddr cfg
  let ib ← if ret then do
      let ib ← getByte cfg
      pure (some ib)
    else pure none
  emit fun s => .waypoint s.synced s.iaddr ib s.valid s.mode

/-- What goes with a packet of a cycle accurate trace. -/
def thenCycles : Decode Unit := do
  if cfg.cycleAccurate then
    let _ ← getByte cfg
    cycleCountPft cfg

def branchPft : Decode Unit := do
  branch cfg
  thenCycles cfg

def timestampPft : Decode Unit := do
  timestamp cfg
  thenCycles cfg

def atomCycleAccurate : Decode Unit := do
  let h := (← Prog.get).data
  cycleCountPft cfg
  printInstruction cfg (h &&& 2 = 0)

/-- The loop that looks for the first bit; `i` and `d` are what it leaves. -/
def firstBit : (i : Nat) → (d : Byte) → Nat × Byte
  | 0, d => (0, d)
  | i + 1, d => if d &&& 0x80 ≠ 0 then (i + 1, d) else firstBit i (d <<< 1)

def atoms : (i : Nat) → (d : Byte) → Decode Unit
  | 0, _ => pure ()
  | i + 1, d => do
    printInstruction cfg ((d <<< 1) &&& 0x80 = 0)
    atoms i (d <<< 1)

def atomNonCycleAccurate : Decode Unit := do
  let (i, d) := firstBit 5 ((← Prog.get).data <<< 1)
  atoms cfg i d

def atom : Decode Unit := if cfg.cycleAccurate then atomCycleAccurate cfg else atomNonCycleAccurate cfg

def trigger : Decode Unit := emit fun s => .trigger s.synced

def exceptRet : Decode Unit := emit fun s => .exceptionReturn s.synced

end Decode

/-! ## The tables -/

structure PacketType where
  matchMask : Byte
  matchVal : Byte
  nonzeroMask : Byte
  decode : Option (Config → Decode Unit)
  name : String

def PacketType.Matches (type : PacketType) (ch : Byte) : Prop :=
  ch &&& type.matchMask = type.matchVal ∧ (type.nonzeroMask = 0 ∨ type.nonzeroMask &&& ch ≠ 0)

instance (type : PacketType) (ch : Byte) : Decidable (type.Matches ch) := inferInstanceAs (Decidable (_ ∧ _))

/-- `async` and `ignore` do nothing. -/
def ignore (_ : Config) : Decode Unit := pure ()

def packetTypesEtm33 : List PacketType := [
  ⟨0x01, 0x01, 0x00, some branch, "Branch address"⟩,
  ⟨0xFF, 0x00, 0x00, some ignore, "A-sync"⟩,
  ⟨0xFF, 0x04, 0x00, some ccount, "Cycle count"⟩,
  ⟨0xFF, 0x08, 0x00, some isync, "I-sync"⟩,
  ⟨0xFF, 0x0C, 0x00, none, "Trigger"⟩,
  ⟨0x93, 0x00, 0x60, none, "Out-of-order data"⟩,
  ⟨0xFF, 0x50, 0x00, none, "Store failed"⟩,
  ⟨0xFF, 0x70, 0x00, some isynccc, "I-sync with cycle count"⟩,
  ⟨0xD3, 0x50, 0x0C, none, "Out-of-order placeholder"⟩,
  ⟨0xD3, 0x12, 0x00, none, "Reserved"⟩,
  ⟨0xF3, 0x10, 0x00, none, "Reserved"⟩,
  ⟨0xFB, 0x30, 0x00, none, "Reserved"⟩,
  ⟨0xFF, 0x3C, 0x00, some vmid, "VMID"⟩,
  ⟨0xFF, 0x38, 0x00, none, "Reserved"⟩,
  ⟨0xD3, 0x02, 0x00, some ndata, "Normal data"⟩,
  ⟨0xF3, 0x52, 0x00, none, "Reserved"⟩,
  ⟨0xFB, 0x42, 0x00, some timestamp, "Timestamp"⟩,
  ⟨0xFB, 0x4A, 0x00, none, "Reserved"⟩,
  ⟨0xFF, 0x62, 0x00, none, "Data suppressed"⟩,
  ⟨0xFF, 0x66, 0x00, some ignore, "Ignore"⟩,
  ⟨0xEF, 0x6A, 0x00, none, "Value not traced"⟩,
  ⟨0xFF, 0x6E, 0x00, some contextid, "Context ID"⟩,
  ⟨0xFF, 0x76, 0x00, none, "Exception exit"⟩,
  ⟨0xFF, 0x7E, 0x00, none, "Exception entry"⟩,
  ⟨0xFF, 0x72, 0x00, none, "Reserved"⟩,
  ⟨0x81, 0x80, 0x00, some pheader, "P-header"⟩]

def packetTypesPft : List PacketType := [
  ⟨0xFF, 0x00, 0x00, some ignore, "A-sync"⟩,
  ⟨0xFF, 0x08, 0x00, some isyncPft, "I-sync"⟩,
  ⟨0x81, 0x80, 0x00, some atom, "Atom"⟩,
  ⟨0x01, 0x01, 0x00, some branchPft, "Branch address"⟩,
  ⟨0xFF, 0x72, 0x00, some waypoint, "Waypoint update"⟩,
  ⟨0xFF, 0x0C, 0x00, some fun _ => trigger, "Trigger"⟩,
  ⟨0xFF, 0x6E, 0x00, some contextid, "Context ID"⟩,
  ⟨0xFF, 0x3C, 0x00, some vmid, "VMID"⟩,
  ⟨0xFB, 0x42, 0x00, some timestampPft, "Timestamp"⟩,
  ⟨0xFF, 0x76, 0x00, some fun _ => exceptRet, "Exception return"⟩,
  ⟨0xFF, 0x66, 0x00, some ignore, "Ignore"⟩,
  ⟨0xFF, 0x04, 0x00, none, "Reserved"⟩,
  ⟨0x93, 0x00, 0x60, none, "Reserved"⟩,
  ⟨0xFF, 0x50, 0x00, none, "Reserved"⟩,
  ⟨0xFF, 0x70, 0x00, none, "Reserved"⟩,
  ⟨0xD3, 0x50, 0x0C, none, "Reserved"⟩,
  ⟨0xD3, 0x12, 0x00, none, "Reserved"⟩,
  ⟨0xF3, 0x10, 0x00, none, "Reserved"⟩,
  ⟨0xFB, 0x30, 0x00, none, "Reserved"⟩,
  ⟨0xFF, 0x38, 0x00, none, "Reserved"⟩,
  ⟨0xD3, 0x02, 0x00, none, "Reserved"⟩,
  ⟨0xF3, 0x52, 0x00, none, "Reserved"⟩,
  ⟨0xFB, 0x4A, 0x00, none, "Reserved"⟩,
  ⟨0xFF, 0x62, 0x00, none, "Reserved"⟩,
  ⟨0xEF, 0x6A, 0x00, none, "Reserved"⟩,
  ⟨0xFF, 0x7E, 0x00, none, "Reserved"⟩]

/-- The last entry of both tables, which every byte matches. -/
def unknown : PacketType := ⟨0x00, 0x00, 0x00, none, "Unknown"⟩

def lookup (types : List PacketType) (ch : Byte) : PacketType :=
  (types.find? fun type => type.Matches ch).getD unknown

/-- The check that `main` makes of a table finds nothing: every byte is in one entry. -/
theorem tables_cover (ch : Byte) : (packetTypesEtm33.countP fun type => type.Matches ch) = 1 ∧
    (packetTypesPft.countP fun type => type.Matches ch) = 1 := by
  revert ch
  decide +kernel

/-- One packet. -/
def decodePacket (cfg : Config) (types : List PacketType) : Decode Unit := do
  let ch ← getByte cfg
  let type := lookup types ch
  match type.decode with
  | some decode => decode cfg
  | none =>
    Prog.modify fun s => { s with sync := 0 }
    emit fun _ => .notHandled ch type.name

/-- The loop of `main`, which goes on until the program exits. -/
def turn (cfg : Config) (types : List PacketType) (s : State) : Except State (Turn State Empty) :=
  match decodePacket cfg types s with
  | (some (), t) => .ok (.again t)
  | (none, t) => .error t

/-- All of a trace is read, and then this has been printed. -/
def Prints (cfg : Config) (types : List PacketType) (s : State) (lines : List Line) : Prop :=
  ∃ final, Ends (turn cfg types) s (.error final) ∧ final.out = lines

end ImxTest.Etm
