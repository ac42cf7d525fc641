import ImxTest.Lib.Masks
import ImxTest.Lib.Words
import ImxTest.Memtool.Cmdline

/-! What memtool maps for an address and a count, and the accesses in it. -/
namespace ImxTest.Memtool
open Lib.Masks Lib.Words

/-- `getpagesize()` -/
def Platform.page (platform : Platform) : Nat := 2 ^ platform.pageBits

/-- What `main` maps of the device, when `mmap` succeeds. -/
structure Window where
  /-- `g_paddr` -/
  paddr : Nat
  /-- `aligned_paddr` -/
  start : Nat
  /-- `aligned_size` -/
  size : Nat
deriving DecidableEq, Repr

def window (platform : Platform) (c : Command) : Window :=
  let paddr := down platform.longBits c.paddr c.size
  let start := down platform.longBits paddr platform.page
  let size := (paddr - start + c.count * c.size % 2 ^ 32) % 2 ^ platform.longBits % 2 ^ 32
  { paddr, start, size := up 32 size platform.page }

namespace Window

/-- The bytes from the address on are among those that are mapped. -/
def Covers (w : Window) (n : Nat) : Prop := w.start ≤ w.paddr ∧ w.paddr + n ≤ w.start + w.size

instance (w : Window) (n : Nat) : Decidable (w.Covers n) := inferInstanceAs (Decidable (_ ∧ _))

/-- Where `mem` is from the beginning of the mapping. -/
def mem (w : Window) : Int := w.paddr - w.start

/-- Where in the device an access goes. -/
def physical (w : Window) (offset : Int) (n : Nat) : Except Stop Int :=
  if 0 ≤ offset ∧ offset + n ≤ w.size then .ok (w.start + offset) else .error .fault

end Window

/-- What is printed. -/
def readMem (w : Window) (count size : Nat) (device : Int → UInt8) : Except Stop (List Word) :=
  if Known size then
    (List.range count).mapM fun i : Nat => do
      let a ← w.physical (w.mem + int i * size) size
      pure (load device a size)
  else .ok []

def writeMem (w : Window) (value : Word) (size : Nat) (device : Int → UInt8) : Except Stop (Int → UInt8) :=
  if Known size then do
    let a ← w.physical w.mem size
    pure (store device a size value)
  else .ok device

inductive Done where
  | usage
  /-- `parse_module` is called. -/
  | names (c : Command)
  | wrote (device : Int → UInt8)
  | showed (values : List Word)

/-- The accesses of `main` to what it maps. -/
def accessMem (platform : Platform) (c : Command) (device : Int → UInt8) : Except Stop Done :=
  let w := window platform c
  if c.isWrite then do
    let device ← writeMem w c.value c.size device
    pure (.wrote device)
  else do
    let values ← readMem w c.count c.size device
    pure (.showed values)

def main (platform : Platform) (argv : List Arg) (device : Int → UInt8) : Except Stop Done := do
  let (result, c) ← parseCmdline platform argv
  if result ≠ 0 then pure .usage
  else if c.isReg ∨ c.comp then pure (.names c)
  else accessMem platform c device

/-- The function looks at the strings of `argv` only, what it accepts is inside what is mapped, and
every access is, whatever the device holds. -/
structure Safe (platform : Platform) (argv : List Arg) : Prop where
  looks : ∃ answer, parseCmdline platform argv = .ok answer
  covers : ∀ c, parseCmdline platform argv = .ok (0, c) → c.isReg = false → c.comp = false →
    (window platform c).Covers (c.count * c.size)
  stays : ∀ device, ∃ done, main platform argv device = .ok done

/-- From the beginning of the page on the bytes, and a page more, are numbered by a word, and the
accesses by an int. -/
def Fits (platform : Platform) (size paddr count : Nat) : Prop :=
  (paddr - paddr % size) % platform.page + count * size + platform.page ≤ 2 ^ 32 ∧ count ≤ 2 ^ 31

instance (platform : Platform) (size paddr count : Nat) : Decidable (Fits platform size paddr count) :=
  inferInstanceAs (Decidable (_ ∧ _))

section Mapped
variable {platform : Platform} {c : Command}

theorem Known.two_pow {size : Nat} (known : Known size) : ∃ k ≤ 2, size = 2 ^ k := by
  obtain rfl | rfl | rfl := known
  · exact ⟨0, by decide, rfl⟩
  · exact ⟨1, by decide, rfl⟩
  · exact ⟨2, by decide, rfl⟩

theorem Platform.page_le (platform : Platform) : 0 < platform.page ∧ platform.page ≤ 2 ^ 30 :=
  ⟨Nat.two_pow_pos _, Nat.pow_le_pow_right (by decide) platform.pageBits_le⟩

/-- What `main` computes, in whole numbers. -/
theorem window_eq (known : Known c.size) (small : c.paddr < 2 ^ platform.longBits) :
    let paddr := c.paddr - c.paddr % c.size
    window platform c =
      ⟨paddr, paddr - paddr % platform.page, up 32 (paddr % platform.page + c.count * c.size) platform.page⟩ := by
  intro paddr
  obtain ⟨k, low, width⟩ := known.two_pow
  have long := platform.longBits_ge
  have aligned : down platform.longBits c.paddr c.size = paddr := by
    rw [width, down_eq (by omega) small, ← width]
  have below : paddr < 2 ^ platform.longBits := (Nat.sub_le _ _).trans_lt small
  have started : down platform.longBits paddr platform.page = paddr - paddr % platform.page :=
    down_eq (platform.pageBits_le.trans (by omega)) below
  have offset : paddr - (paddr - paddr % platform.page) = paddr % platform.page :=
    Nat.sub_sub_self (Nat.mod_le _ _)
  simp only [window, aligned, started, offset]
  congr 1
  rw [Nat.mod_mod_of_dvd _ (Nat.pow_dvd_pow 2 long), Nat.add_mod_mod, up_mod 32 _ platform.page_le.1]

theorem window_covers (known : Known c.size) (small : c.paddr < 2 ^ platform.longBits) :
    (window platform c).Covers (c.count * c.size) ↔
      (c.paddr - c.paddr % c.size) % platform.page + c.count * c.size + platform.page ≤ 2 ^ 32 := by
  have paging : platform.pageBits ≤ 32 := platform.pageBits_le.trans (by decide)
  rw [window_eq known small, Platform.page, ← le_up_iff paging, Window.Covers]
  generalize c.paddr - c.paddr % c.size = paddr
  have rest := Nat.mod_le paddr (2 ^ platform.pageBits)
  dsimp only
  omega

theorem window_mem (known : Known c.size) (small : c.paddr < 2 ^ platform.longBits) :
    (window platform c).mem < platform.page := by
  rw [window_eq known small, Window.mem]
  generalize c.paddr - c.paddr % c.size = paddr
  have rest := Nat.mod_le paddr platform.page
  have within := Nat.mod_lt paddr platform.page_le.1
  dsimp only
  omega

end Mapped

section Accesses
variable {w : Window} {count size : Nat} {device : Int → UInt8}

theorem Window.physical_ok {offset : Int} {n : Nat} :
    (∃ a, w.physical offset n = .ok a) ↔ 0 ≤ offset ∧ offset + n ≤ w.size := by
  unfold Window.physical
  split <;> simp [*]

theorem mapM_ok {ε α β : Type} {f : α → Except ε β} {xs : List α} :
    (∃ ys, xs.mapM f = .ok ys) ↔ ∀ x ∈ xs, ∃ y, f x = .ok y := by
  induction xs with
  | nil => simp [pure, Except.pure]
  | cons x xs ih =>
      rw [List.mapM_cons, List.forall_mem_cons, ← ih]
      cases first : f x with
      | error stop => simp [bind, Except.bind]
      | ok y => cases rest : xs.mapM f <;> simp [bind, Except.bind, pure, Except.pure]

theorem readMem_ok (known : Known size) : (∃ values, readMem w count size device = .ok values) ↔
    ∀ i < count, 0 ≤ w.mem + int i * size ∧ w.mem + int i * size + size ≤ w.size := by
  rw [readMem, if_pos known, mapM_ok]
  refine forall_congr' fun i => ?_
  rw [List.mem_range, ← Window.physical_ok]
  refine imp_congr_right fun _ => ?_
  cases w.physical (w.mem + int i * size) size <;> simp [bind, Except.bind, pure, Except.pure]

/-- What is covered is read just where an int counts the accesses. -/
theorem readMem_covered (known : Known size) (covered : w.Covers (count * size)) (near : w.mem < 2 ^ 30) :
    (∃ values, readMem w count size device = .ok values) ↔ count ≤ 2 ^ 31 := by
  have positive : 1 ≤ size := by
    obtain rfl | rfl | rfl := known <;> decide
  rw [readMem_ok known]
  constructor
  · intro inside
    by_contra more
    -- the int behind the last positive one
    have turned : int ((2 ^ 31 : Nat) : Int) = -2 ^ 31 := by decide +kernel
    have low := (inside (2 ^ 31) (by omega)).1
    rw [turned] at low
    have wide : (2 ^ 31 : Int) * 1 ≤ 2 ^ 31 * size := Int.mul_le_mul_of_nonneg_left (by omega) (by decide)
    rw [Int.neg_mul] at low
    omega
  · intro counted i before
    rw [int_natCast (by omega)]
    have more : (i + 1) * size ≤ count * size := Nat.mul_le_mul_right _ before
    rw [Nat.succ_mul] at more
    obtain ⟨low, high⟩ := covered
    have front : 0 ≤ i * size := Nat.zero_le _
    rw [Window.mem]
    push_cast at *
    omega

theorem writeMem_covered {value : Word} (covered : w.Covers size) :
    ∃ written, writeMem w value size device = .ok written := by
  rw [writeMem]
  split
  · have inside : 0 ≤ w.mem ∧ w.mem + size ≤ w.size := by
      obtain ⟨low, high⟩ := covered
      rw [Window.mem]
      omega
    obtain ⟨a, there⟩ := Window.physical_ok.mpr inside
    exact ⟨_, by rw [there]; rfl⟩
  · exact ⟨device, rfl⟩

end Accesses

section Program
variable {platform : Platform} {argv : List Arg} {c : Command} {line : Line}

/-- One access is always inside. -/
theorem fits_single {paddr : Nat} {size : Nat} (known : Known size) : Fits platform size paddr 1 := by
  have small : size ≤ 4 := by
    obtain rfl | rfl | rfl := known <;> decide
  have page := platform.page_le
  have within := Nat.mod_lt (paddr - paddr % size) page.1
  unfold Fits
  omega

theorem accessMem_reads (known : Known c.size) (small : c.paddr < 2 ^ platform.longBits) (free : c.isWrite = false) :
    ((window platform c).Covers (c.count * c.size) ∧ ∀ device, ∃ done, accessMem platform c device = .ok done) ↔
      Fits platform c.size c.paddr c.count := by
  rw [Fits, ← window_covers known small]
  refine and_congr_right fun covered => ?_
  have near : (window platform c).mem < 2 ^ 30 := by
    have page := platform.page_le.2
    have within : (window platform c).mem < platform.page := window_mem known small
    omega
  have showed (device : Int → UInt8) : (∃ done, accessMem platform c device = .ok done) ↔ c.count ≤ 2 ^ 31 := by
    rw [← readMem_covered known covered near, accessMem, free, if_neg (by decide)]
    cases readMem (window platform c) c.count c.size device <;> simp [bind, Except.bind, pure, Except.pure]
  simp only [showed, forall_const]

theorem accessMem_writes (covered : (window platform c).Covers c.size) (writes : c.isWrite = true)
    (device : Int → UInt8) : ∃ done, accessMem platform c device = .ok done := by
  obtain ⟨written, same⟩ : ∃ written, writeMem (window platform c) c.value c.size device = .ok written :=
    writeMem_covered covered
  exact ⟨.wrote written, by simp [accessMem, writes, same, bind, Except.bind, pure, Except.pure]⟩

theorem main_mapped (accepted : parseCmdline platform argv = .ok (0, c)) (unnamed : c.isReg = false)
    (free : c.comp = false) (device : Int → UInt8) : main platform argv device = accessMem platform c device := by
  simp [main, accepted, bind, Except.bind, unnamed, free]

/-- Where what is read fits, all that `main` maps memory for is inside. -/
theorem accessMem_fits (fits : ∀ line : Line, argv = line.argv → line.Proper platform →
      Fits platform line.size (line.paddr platform) (line.count platform))
    (accepted : parseCmdline platform argv = .ok (0, c)) (unnamed : c.isReg = false) (free : c.comp = false) :
    (window platform c).Covers (c.count * c.size) ∧ ∀ device, ∃ done, accessMem platform c device = .ok done := by
  obtain ⟨writes, single, known, small⟩ | ⟨line, same, proper, rfl⟩ := exists_line accepted free unnamed
  · have covered := (window_covers known small).mpr (single ▸ (fits_single known).1)
    refine ⟨covered, ?_⟩
    rw [single, Nat.one_mul] at covered
    exact accessMem_writes covered writes
  · exact (accessMem_reads proper.known (platform.strtoul_lt _) rfl).mpr (fits line same proper)

/-- The command line is safe just when it is no lone width and, where memory is to be read, what is
read fits. -/
theorem memtool_safe_iff : Safe platform argv ↔ ¬LoneFlag argv ∧
    ∀ line : Line, argv = line.argv → line.Proper platform →
      Fits platform line.size (line.paddr platform) (line.count platform) := by
  constructor
  · intro safe
    refine ⟨parseCmdline_looks.mp safe.looks, ?_⟩
    rintro line rfl proper
    have accepted := Line.parse proper
    refine (accessMem_reads (c := line.command platform) proper.known (platform.strtoul_lt _) rfl).mp ⟨?_, ?_⟩
    · exact safe.covers _ accepted rfl rfl
    · intro device
      rw [← main_mapped accepted rfl rfl]
      exact safe.stays device
  · rintro ⟨paired, fits⟩
    obtain ⟨⟨result, c⟩, answered⟩ := parseCmdline_looks.mpr paired
    refine ⟨⟨_, answered⟩, ?_, fun device => ?_⟩
    · intro c accepted unnamed free
      exact (accessMem_fits fits accepted unnamed free).1
    by_cases accepted : result = 0
    · subst accepted
      by_cases named : c.isReg ∨ c.comp
      · exact ⟨.names c, by simp [main, answered, bind, Except.bind, named, pure, Except.pure]⟩
      · rw [not_or, Bool.not_eq_true, Bool.not_eq_true] at named
        rw [main_mapped answered named.1 named.2]
        exact (accessMem_fits fits answered named.1 named.2).2 device
    · exact ⟨.usage, by simp [main, answered, bind, Except.bind, accepted, pure, Except.pure]⟩

/-- A lone width is looked behind, and a count whose bytes a word does not number maps nothing. -/
theorem memtool_not_safe :
    let platform : Platform := ⟨64, by decide, 12, by decide⟩
    ¬Safe platform ["memtool".toList, "-8".toList] ∧
    ¬Safe platform ["memtool".toList, "10000000".toList, "40000000".toList] := by
  intro platform
  constructor
  · intro safe
    obtain ⟨answer, looked⟩ := safe.looks
    have fault : parseCmdline platform ["memtool".toList, "-8".toList] = .error .fault := by decide +kernel
    rw [fault] at looked
    cases looked
  · intro safe
    have accepted : parseCmdline platform ["memtool".toList, "10000000".toList, "40000000".toList] =
        .ok (0, { paddr := 0x10000000, count := 0x40000000 }) := by decide +kernel
    have covered := safe.covers _ accepted rfl rfl
    have outside : ¬(window platform { paddr := 0x10000000, count := 0x40000000 }).Covers (0x40000000 * 4) := by
      decide +kernel
    exact outside covered

end Program

end ImxTest.Memtool
