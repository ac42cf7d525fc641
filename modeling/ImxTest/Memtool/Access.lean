import ImxTest.Lib.BitString

/-! The accesses of memtool to registers: a page of the memory device is mapped and kept until
another one is wanted. -/
namespace ImxTest.Memtool
open Lib BitString

/-- An int or an unsigned int. -/
abbrev Word := BitVec 32

def MAP_SIZE : Word := 0x1000

/-- A page of the device and where it is to be seen. -/
structure Mapping where
  vaddr : Nat
  /-- The offset in the device, an `off_t`. -/
  page : Int
deriving DecidableEq, Repr

/-- What memtool runs on: `open` and `mmap` succeed. -/
structure System where
  fd : Nat
  fd_ne : fd ≠ 0
  /-- Where a page is put when these are mapped. -/
  place : List Mapping → Int → Nat
  place_ne : ∀ maps page, place maps page ≠ 0

structure Machine where
  fmem : Nat
  mapVaddr : Nat
  mapPaddr : Word
  /-- The pages that are mapped. -/
  maps : List Mapping
  /-- What the device holds. -/
  mem : Int → UInt8

inductive Stop where
  /-- `die` -/
  | died
  /-- An access to what is not mapped. -/
  | fault
deriving DecidableEq, Repr

/-- The variables as the program starts. -/
def Machine.start (mem : Int → UInt8) : Machine := { fmem := 0, mapVaddr := 0, mapPaddr := 0, maps := [], mem }

def openMemFile (sys : System) (m : Machine) : Except Stop Machine :=
  let m := if m.fmem = 0 then { m with fmem := sys.fd } else m
  if m.fmem = 0 then .error .died else .ok m

def pageOf (address : Word) : Word := address &&& ~~~(MAP_SIZE - 1)

def offsetOf (address : Word) : Word := address &&& (MAP_SIZE - 1)

def munmap (maps : List Mapping) (vaddr : Nat) : List Mapping := maps.filter fun map => map.vaddr ≠ vaddr

def mapAddress (sys : System) (address : Word) (m : Machine) : Machine :=
  if pageOf address = m.mapPaddr then m
  else
    let maps := if m.mapVaddr ≠ 0 then munmap m.maps m.mapVaddr else m.maps
    let vaddr := sys.place maps (pageOf address).toInt
    { m with maps := ⟨vaddr, (pageOf address).toInt⟩ :: maps, mapVaddr := vaddr, mapPaddr := pageOf address }

/-- `addr32` -/
def Machine.pointer (m : Machine) (address : Word) : Nat := m.mapVaddr + (offsetOf address).toNat

/-- The mapping has these bytes. -/
def Mapping.Has (map : Mapping) (vaddr n : Nat) : Prop :=
  map.vaddr ≤ vaddr ∧ vaddr + n ≤ map.vaddr + MAP_SIZE.toNat

instance (map : Mapping) (vaddr n : Nat) : Decidable (map.Has vaddr n) := inferInstanceAs (Decidable (_ ∧ _))

/-- Where in the device an access goes. -/
def Machine.physical (m : Machine) (vaddr n : Nat) : Option Int :=
  (m.maps.find? fun map => map.Has vaddr n).map fun map => map.page + (vaddr - map.vaddr : Int)

/-- The number of some bytes, the first one the lowest. -/
def load (mem : Int → UInt8) (a : Int) (n : Nat) : Word :=
  BitVec.ofNat 32 (word ((List.range n).reverse.map fun k : Nat => mem (a + k)))

def store (mem : Int → UInt8) (a : Int) (n : Nat) (value : Word) : Int → UInt8 := fun c =>
  if a ≤ c ∧ c < a + n then (value >>> (8 * (c - a).toNat)).toNat.toUInt8 else mem c

/-- The widths that the functions know. -/
def Known (width : Nat) : Prop := width = 1 ∨ width = 2 ∨ width = 4

instance (width : Nat) : Decidable (Known width) := inferInstanceAs (Decidable (_ ∨ _))

/-- The pointer of both functions, when the page is mapped. -/
def access (sys : System) (address : Word) (width : Nat) (m : Machine) : Except Stop (Int × Machine) := do
  let m ← openMemFile sys m
  let m := mapAddress sys address m
  if Known width then
    match m.physical (m.pointer address) width with
    | none => .error .fault
    | some a => .ok (a, m)
  else .error .died

def readm (sys : System) (address : Word) (width : Nat) (m : Machine) : Except Stop (Word × Machine) := do
  let (a, m) ← access sys address width m
  .ok (load m.mem a width, m)

def writem (sys : System) (address : Word) (width : Nat) (value : Word) (m : Machine) : Except Stop Machine := do
  let (a, m) ← access sys address width m
  .ok { m with mem := store m.mem a width value }

def getValue (value : Word) (lsb msb : Nat) : Word :=
  value.sshiftRight lsb &&& (0xFFFFFFFF#32 >>> (31 - (msb - lsb)))

/-- `mask` -/
def fieldMask (lsb msb : Nat) : Word := (0xFFFFFFFF#32 >>> lsb <<< lsb) <<< (31 - msb) >>> (31 - msb)

def writeRegMask (sys : System) (addr : Word) (width : Nat) (value : Word) (lsb msb : Nat) (m : Machine) :
    Except Stop Machine := do
  let (org, m) ← readm sys addr width m
  let mask := fieldMask lsb msb
  let org := org &&& ~~~mask
  let value := value <<< lsb
  let org := org ||| value &&& mask
  writem sys addr width org m

def writeReg (sys : System) (addr : Word) (width : Nat) (value : Word) (m : Machine) : Except Stop Machine :=
  writem sys addr width value m

end ImxTest.Memtool
