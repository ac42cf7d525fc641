import ImxTest.Memtool.Access
import Mathlib.Tactic.IntervalCases

/-! The page that memtool keeps mapped. The number of the page that is mapped is also what tells
that there is none, so that page 0 is taken for mapped at the start. -/
namespace ImxTest.Memtool
open Lib

/-! ## Pages -/

section Address
variable {address : Word} {width : Nat}

theorem offsetOf_toNat (address : Word) : (offsetOf address).toNat = address.toNat % 0x1000 := by
  unfold offsetOf MAP_SIZE
  rw [BitVec.toNat_and]
  exact Nat.and_two_pow_sub_one_eq_mod address.toNat 12

theorem pageOf_add_offsetOf (address : Word) : pageOf address + offsetOf address = address := by
  have apart : pageOf address &&& offsetOf address = 0#32 := by
    unfold pageOf offsetOf
    apply BitVec.eq_of_getLsbD_eq
    intro k inside
    rw [BitVec.getLsbD_and, BitVec.getLsbD_and, BitVec.getLsbD_and, BitVec.getLsbD_not]
    cases (MAP_SIZE - 1).getLsbD k <;> simp
  rw [BitVec.add_eq_or_of_and_eq_zero _ _ apart]
  unfold pageOf offsetOf
  apply BitVec.eq_of_getLsbD_eq
  intro k inside
  rw [BitVec.getLsbD_or, BitVec.getLsbD_and, BitVec.getLsbD_and, BitVec.getLsbD_not]
  cases (MAP_SIZE - 1).getLsbD k <;> simp [inside]

theorem pageOf_toNat (address : Word) : (pageOf address).toNat = address.toNat / 0x1000 * 0x1000 := by
  have parts := congrArg BitVec.toNat (pageOf_add_offsetOf address)
  have page := (pageOf address).isLt
  have whole := address.isLt
  rw [BitVec.toNat_add, offsetOf_toNat] at parts
  omega

/-- The offset counts from the page on, for the device too. -/
theorem pageOf_toInt (address : Word) : (pageOf address).toInt + (offsetOf address).toNat = address.toInt := by
  have page := pageOf_toNat address
  have offset := offsetOf_toNat address
  rw [BitVec.toInt_eq_toNat_cond, BitVec.toInt_eq_toNat_cond]
  split_ifs <;> omega

/-- An aligned access stays in its page. -/
theorem offsetOf_room (known : Known width) (aligned : width ∣ address.toNat) :
    (offsetOf address).toNat + width ≤ MAP_SIZE.toNat := by
  rw [offsetOf_toNat, show MAP_SIZE.toNat = 0x1000 by decide]
  obtain ⟨k, whole⟩ := aligned
  rcases known with rfl | rfl | rfl <;> omega

end Address

/-! ## What is mapped -/

namespace Machine

/-- As at the start. -/
structure Unmapped (m : Machine) : Prop where
  maps : m.maps = []
  vaddr : m.mapVaddr = 0
  paddr : m.mapPaddr = 0

/-- One page is mapped, and the variables say which. -/
structure Mapped (m : Machine) : Prop where
  maps : m.maps = [⟨m.mapVaddr, m.mapPaddr.toInt⟩]
  vaddr : m.mapVaddr ≠ 0

def Sound (m : Machine) : Prop := m.Unmapped ∨ m.Mapped

/-- With the device open. -/
def opened (sys : System) (m : Machine) : Machine := if m.fmem = 0 then { m with fmem := sys.fd } else m

end Machine

variable {sys : System} {m : Machine} {address : Word} {width : Nat}

theorem start_unmapped (mem : Int → UInt8) : (Machine.start mem).Unmapped := ⟨rfl, rfl, rfl⟩

theorem openMemFile_eq : openMemFile sys m = .ok (m.opened sys) := by
  unfold openMemFile Machine.opened
  split_ifs with closed
  · exact if_neg sys.fd_ne
  · exact if_neg closed

@[simp] theorem opened_maps : (m.opened sys).maps = m.maps := by
  unfold Machine.opened
  split_ifs <;> rfl

@[simp] theorem opened_mapVaddr : (m.opened sys).mapVaddr = m.mapVaddr := by
  unfold Machine.opened
  split_ifs <;> rfl

@[simp] theorem opened_mapPaddr : (m.opened sys).mapPaddr = m.mapPaddr := by
  unfold Machine.opened
  split_ifs <;> rfl

@[simp] theorem opened_mem : (m.opened sys).mem = m.mem := by
  unfold Machine.opened
  split_ifs <;> rfl

theorem Machine.Unmapped.opened (unmapped : m.Unmapped) : (m.opened sys).Unmapped :=
  ⟨opened_maps.trans unmapped.maps, opened_mapVaddr.trans unmapped.vaddr, opened_mapPaddr.trans unmapped.paddr⟩

theorem Machine.Mapped.opened (mapped : m.Mapped) : (m.opened sys).Mapped := by
  constructor
  · rw [opened_maps, opened_mapVaddr, opened_mapPaddr]
    exact mapped.maps
  · rw [opened_mapVaddr]
    exact mapped.vaddr

theorem Machine.Sound.opened (sound : m.Sound) : (m.opened sys).Sound :=
  sound.imp Machine.Unmapped.opened Machine.Mapped.opened

theorem opened_fmem : (m.opened sys).fmem ≠ 0 := by
  unfold Machine.opened
  split_ifs with closed
  · exact sys.fd_ne
  · exact closed

theorem mapAddress_fmem : (mapAddress sys address m).fmem = m.fmem := by
  unfold mapAddress
  split_ifs <;> rfl

theorem mapAddress_mapPaddr : (mapAddress sys address m).mapPaddr = pageOf address := by
  by_cases here : pageOf address = m.mapPaddr
  · rw [mapAddress, if_pos here, here]
  · rw [mapAddress, if_neg here]

theorem mapAddress_mem : (mapAddress sys address m).mem = m.mem := by
  unfold mapAddress
  split_ifs <;> rfl

/-- Page 0 is wanted where none is mapped: nothing is done. -/
theorem mapAddress_first (unmapped : m.Unmapped) (first : pageOf address = 0) :
    mapAddress sys address m = m := if_pos (first.trans unmapped.paddr.symm)

theorem mapAddress_mapped (sound : m.Sound) (away : m.Unmapped → pageOf address ≠ 0) :
    (mapAddress sys address m).Mapped := by
  by_cases here : pageOf address = m.mapPaddr
  · rw [mapAddress, if_pos here]
    rcases sound with unmapped | mapped
    · exact absurd (here.trans unmapped.paddr) (away unmapped)
    · exact mapped
  · rw [mapAddress, if_neg here]
    have none_left : (if m.mapVaddr ≠ 0 then munmap m.maps m.mapVaddr else m.maps) = [] := by
      rcases sound with unmapped | mapped
      · rw [if_neg (not_not.mpr unmapped.vaddr), unmapped.maps]
      · rw [if_pos mapped.vaddr, mapped.maps]
        simp [munmap]
    refine ⟨?_, sys.place_ne _ _⟩
    dsimp only
    rw [none_left]

/-- The access of a pointer into the page that is mapped. -/
theorem physical_mapped (mapped : m.Mapped) (page : m.mapPaddr = pageOf address) (known : Known width)
    (aligned : width ∣ address.toNat) : m.physical (m.pointer address) width = some address.toInt := by
  have room := offsetOf_room known aligned
  have whole := pageOf_toInt address
  have inside : Mapping.Has ⟨m.mapVaddr, m.mapPaddr.toInt⟩ (m.pointer address) width := by
    unfold Mapping.Has Machine.pointer
    dsimp only
    omega
  unfold Machine.physical
  rw [mapped.maps, List.find?_cons_of_pos (by simpa using inside), Option.map_some, page]
  unfold Machine.pointer
  congr 1
  push_cast
  omega

theorem physical_unmapped (unmapped : m.Unmapped) (vaddr : Nat) : m.physical vaddr width = none := by
  unfold Machine.physical
  rw [unmapped.maps]
  rfl

/-! ## Accesses -/

theorem access_run : access sys address width m =
    if Known width then
      match (mapAddress sys address (m.opened sys)).physical
        ((mapAddress sys address (m.opened sys)).pointer address) width with
      | none => .error .fault
      | some a => .ok (a, mapAddress sys address (m.opened sys))
    else .error .died := by
  unfold access
  rw [openMemFile_eq]
  rfl

variable (sys) in
theorem access_known (sound : m.Sound) (away : m.Unmapped → pageOf address ≠ 0) (known : Known width)
    (aligned : width ∣ address.toNat) :
    access sys address width m = .ok (address.toInt, mapAddress sys address (m.opened sys)) := by
  have still : (m.opened sys).Unmapped → pageOf address ≠ 0 := fun unmapped =>
    away ⟨opened_maps.symm.trans unmapped.maps, opened_mapVaddr.symm.trans unmapped.vaddr,
      opened_mapPaddr.symm.trans unmapped.paddr⟩
  have mapped := @mapAddress_mapped sys _ _ sound.opened still
  rw [access_run, if_pos known, physical_mapped mapped mapAddress_mapPaddr known aligned]

theorem access_first (unmapped : m.Unmapped) (first : pageOf address = 0) (known : Known width) :
    access sys address width m = .error .fault := by
  rw [access_run, if_pos known, mapAddress_first unmapped.opened first, physical_unmapped unmapped.opened]

theorem access_unknown (unknown : ¬Known width) : access sys address width m = .error .died := by
  rw [access_run, if_neg unknown]

/-! ## Sequences of calls -/

/-- A call of `readm`, or of `writem` with a value. -/
structure Call where
  address : Word
  width : Nat
  value : Option Word

def Call.run (sys : System) (c : Call) (m : Machine) : Except Stop Machine :=
  match c.value with
  | none => (readm sys c.address c.width m).map Prod.snd
  | some value => writem sys c.address c.width value m

def Call.Aligned (c : Call) : Prop := c.width ∣ c.address.toNat

/-- The pointer leads through a page that is mapped and has the address, to the address. -/
def Through (m : Machine) (c : Call) : Prop :=
  ∃ map ∈ m.maps, map.Has (m.pointer c.address) c.width ∧
    (map.page ≤ c.address.toInt ∧ c.address.toInt + c.width ≤ map.page + MAP_SIZE.toNat) ∧
    map.page + (m.pointer c.address - map.vaddr : Int) = c.address.toInt

/-- No more than one page is mapped, and `g_map_paddr` is its number. -/
structure OnePage (m : Machine) : Prop where
  one : m.maps.length ≤ 1
  named : ∀ map ∈ m.maps, map.page = m.mapPaddr.toInt

/-- So it is at every moment of the calls, as long as memtool has not ended with a message. -/
def Keeps (sys : System) (m : Machine) : List Call → Prop
  | [] => OnePage m
  | c :: calls => OnePage m ∧
    match c.run sys m with
    | .ok m' => Through m' c ∧ Keeps sys m' calls
    | .error .died => True
    | .error .fault => False

/-- The first access is not to page 0. -/
def FirstAway (calls : List Call) : Prop :=
  ∀ c, calls.head? = some c → Known c.width → pageOf c.address ≠ 0

section Calls
variable {c : Call} {calls : List Call}

theorem run_error {e : Stop} (failed : access sys c.address c.width m = .error e) :
    c.run sys m = .error e := by
  unfold Call.run readm writem
  cases c.value <;> rw [failed] <;> rfl

theorem Machine.Mapped.onePage (mapped : m.Mapped) : OnePage m := by
  constructor
  · rw [mapped.maps]
    exact le_rfl
  · intro map mem
    rw [mapped.maps, List.mem_singleton] at mem
    rw [mem]

theorem Machine.Unmapped.onePage (unmapped : m.Unmapped) : OnePage m := by
  constructor
  · rw [unmapped.maps]
    exact Nat.zero_le _
  · intro map mem
    rw [unmapped.maps] at mem
    cases mem

theorem Machine.Mapped.through (mapped : m.Mapped) (page : m.mapPaddr = pageOf c.address)
    (known : Known c.width) (aligned : c.Aligned) : Through m c := by
  have room := offsetOf_room known aligned
  have whole := pageOf_toInt c.address
  refine ⟨⟨m.mapVaddr, m.mapPaddr.toInt⟩, by rw [mapped.maps]; exact List.mem_singleton_self _, ?_⟩
  rw [page]
  unfold Mapping.Has Machine.pointer
  dsimp only
  omega

variable (sys) in
/-- A call that finds its page, or maps it. -/
theorem run_known (sound : m.Sound) (away : m.Unmapped → pageOf c.address ≠ 0) (known : Known c.width)
    (aligned : c.Aligned) : ∃ m', c.run sys m = .ok m' ∧ m'.Mapped ∧ Through m' c := by
  have pointer := access_known sys sound away known aligned
  have still : (m.opened sys).Unmapped → pageOf c.address ≠ 0 := fun unmapped =>
    away ⟨opened_maps.symm.trans unmapped.maps, opened_mapVaddr.symm.trans unmapped.vaddr,
      opened_mapPaddr.symm.trans unmapped.paddr⟩
  have mapped := @mapAddress_mapped sys _ _ sound.opened still
  cases value : c.value with
  | none =>
    refine ⟨_, ?_, mapped, mapped.through mapAddress_mapPaddr known aligned⟩
    unfold Call.run readm
    rw [value, pointer]
    rfl
  | some v =>
    let mapped_ := mapAddress sys c.address (m.opened sys)
    refine ⟨{ mapped_ with mem := store mapped_.mem c.address.toInt c.width v }, ?_, ⟨mapped.maps, mapped.vaddr⟩,
      mapped.through mapAddress_mapPaddr known aligned⟩
    unfold Call.run writem
    rw [value]
    dsimp only
    rw [pointer]
    rfl

theorem Machine.Mapped.keeps (mapped : m.Mapped) (aligned : ∀ c ∈ calls, c.Aligned) : Keeps sys m calls := by
  induction calls generalizing m with
  | nil => exact mapped.onePage
  | cons c calls ih =>
    refine ⟨mapped.onePage, ?_⟩
    by_cases known : Known c.width
    · have away : m.Unmapped → pageOf c.address ≠ 0 := fun unmapped => absurd unmapped.vaddr mapped.vaddr
      obtain ⟨m', ran, still, through⟩ := run_known sys (.inr mapped) away known
        (aligned c List.mem_cons_self)
      rw [ran]
      exact ⟨through, ih still fun c mem => aligned c (List.mem_cons_of_mem _ mem)⟩
    · rw [run_error (access_unknown known)]
      trivial

/-- Each access goes through its page, the only one that is mapped, exactly when the first one is
not to page 0, which is taken for mapped. -/
theorem keeps_iff (sys : System) (mem : Int → UInt8) (calls : List Call) (aligned : ∀ c ∈ calls, c.Aligned) :
    Keeps sys (.start mem) calls ↔ FirstAway calls := by
  have start := start_unmapped mem
  cases calls with
  | nil => exact iff_of_true start.onePage nofun
  | cons c calls =>
    have first : FirstAway (c :: calls) ↔ (Known c.width → pageOf c.address ≠ 0) := by simp [FirstAway]
    rw [first, Keeps, and_iff_right start.onePage]
    by_cases known : Known c.width
    · rw [imp_iff_right known]
      by_cases zero : pageOf c.address = 0
      · rw [run_error (access_first start zero known)]
        exact iff_of_false id (not_not.mpr zero)
      · obtain ⟨m', ran, mapped, through⟩ := run_known sys (.inl start) (fun _ => zero) known
          (aligned c List.mem_cons_self)
        rw [ran]
        have later : Keeps sys m' calls := mapped.keeps fun c mem => aligned c (List.mem_cons_of_mem _ mem)
        exact iff_of_true ⟨through, later⟩ zero
    · rw [run_error (access_unknown known)]
      exact iff_of_true trivial fun known' => absurd known' known

/-- The program as it runs, with pages put from 0x7000 on. -/
def plain : System := ⟨3, by decide, fun maps _ => 0x7000 + 0x1000 * maps.length, by simp⟩

/-- A register of a page, one of another page, and then page 0. -/
theorem keeps_pages : Keeps plain (.start fun _ => 0)
    [⟨0x020c8000, 4, none⟩, ⟨0x021d8004, 4, some 1⟩, ⟨0x00000010, 4, none⟩] :=
  (keeps_iff plain _ _ (by unfold Call.Aligned; decide)).mpr (by simp [FirstAway, Known, pageOf, MAP_SIZE])

/-- The first access is to page 0. -/
theorem not_keeps_first : ¬Keeps plain (.start fun _ => 0) [⟨0x00000010, 4, none⟩] := by
  rw [keeps_iff plain _ _ (by unfold Call.Aligned; decide)]
  simp [FirstAway, Known, pageOf, MAP_SIZE]

end Calls

end ImxTest.Memtool
