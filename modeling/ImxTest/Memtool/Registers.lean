import ImxTest.Lib.Fields
import ImxTest.Memtool.Pages

/-! Fields of a register, written one after the other by memtool. -/
namespace ImxTest.Memtool
open Lib BitString Fields

/-! ## Words in memory -/

section Memory
variable {mem : Int → UInt8} {a : Int} {n k : Nat} {value : Word}

theorem word_testBit (byte : Nat → UInt8) (n k : Nat) :
    (word ((List.range n).reverse.map byte)).testBit k =
      (decide (k < 8 * n) && (byte (k / 8)).toNat.testBit (k % 8)) := by
  induction n with
  | zero => simp [word]
  | succ n ih =>
    have length : ((List.range n).reverse.map byte).length = n := by simp
    have low := word_lt ((List.range n).reverse.map byte)
    rw [length] at low
    have split := word_append [byte n] ((List.range n).reverse.map byte)
    rw [length, List.singleton_append, show word [byte n] = (byte n).toNat by simp [word], Nat.mul_comm] at split
    rw [List.range_succ, List.reverse_append, List.reverse_singleton, List.singleton_append, List.map_cons, split,
      Nat.testBit_two_pow_mul_add _ low, ih]
    split_ifs with below
    · rw [decide_eq_true below, decide_eq_true (by omega)]
    · have bits := (byte n).toNat_lt
      by_cases here : k < 8 * (n + 1)
      · rw [decide_eq_true here, Bool.true_and, show k / 8 = n by omega, show k - 8 * n = k % 8 by omega]
      · rw [decide_eq_false here, Bool.false_and]
        refine Nat.testBit_eq_false_of_lt (bits.trans_le ?_)
        exact Nat.pow_le_pow_right (by decide) (by omega)

theorem toUInt8_testBit (v i : Nat) : v.toUInt8.toNat.testBit i = (decide (i < 8) && v.testBit i) := by
  rw [Nat.toUInt8_eq, UInt8.toNat_ofNat', Nat.testBit_mod_two_pow]

theorem load_getLsbD (small : 8 * n ≤ 32) : (load mem a n).getLsbD k =
    (decide (k < 8 * n) && (mem (a + (k / 8 : Nat))).toNat.testBit (k % 8)) := by
  unfold load
  rw [BitVec.getLsbD_ofNat, word_testBit]
  by_cases inside : k < 8 * n
  · rw [decide_eq_true (show k < 32 by omega), Bool.true_and]
  · rw [decide_eq_false inside, Bool.false_and, Bool.and_false]

theorem store_inside {j : Nat} (inside : j < n) :
    store mem a n value (a + j) = (value >>> (8 * j)).toNat.toUInt8 := by
  unfold store
  rw [if_pos (by omega), show (a + (j : Int) - a).toNat = j by omega]

theorem store_outside {c : Int} (out : ¬(a ≤ c ∧ c < a + n)) : store mem a n value c = mem c := if_neg out

/-- What is loaded again is what has been stored, as far as it had room. -/
theorem load_store_getLsbD (small : 8 * n ≤ 32) : (load (store mem a n value) a n).getLsbD k =
    (decide (k < 8 * n) && value.getLsbD k) := by
  rw [load_getLsbD small]
  by_cases inside : k < 8 * n
  · rw [store_inside (by omega), toUInt8_testBit, decide_eq_true (Nat.mod_lt k (by decide : 0 < 8)), Bool.true_and,
      BitVec.toNat_ushiftRight, Nat.testBit_shiftRight, Nat.div_add_mod, BitVec.testBit_toNat]
  · rw [decide_eq_false inside, Bool.false_and, Bool.false_and]

/-- A second store to the same place leaves nothing of the first. -/
theorem store_store {first second : Word} {mem' : Int → UInt8}
    (outside : ∀ c, ¬(a ≤ c ∧ c < a + n) → mem c = mem' c)
    (same : ∀ k < 8 * n, first.getLsbD k = second.getLsbD k) :
    store mem a n first = store mem' a n second := by
  funext c
  by_cases inside : a ≤ c ∧ c < a + n
  · obtain ⟨j, rfl⟩ : ∃ j : Nat, c = a + j := ⟨(c - a).toNat, by omega⟩
    have room : j < n := by omega
    rw [store_inside room, store_inside room]
    apply UInt8.toNat_inj.mp
    apply Nat.eq_of_testBit_eq
    intro i
    rw [toUInt8_testBit, toUInt8_testBit, BitVec.toNat_ushiftRight, BitVec.toNat_ushiftRight,
      Nat.testBit_shiftRight, Nat.testBit_shiftRight, BitVec.testBit_toNat, BitVec.testBit_toNat]
    by_cases bit : i < 8
    · rw [same _ (by omega)]
    · rw [decide_eq_false bit, Bool.false_and, Bool.false_and]
  · rw [store_outside inside, store_outside inside, outside c inside]

end Memory

/-! ## Masks -/

section Mask
variable {lsb msb k : Nat} {value old : Word}

theorem ones_getLsbD (k : Nat) : (0xFFFFFFFF#32).getLsbD k = decide (k < 32) := by
  rw [show 0xFFFFFFFF#32 = BitVec.allOnes 32 by decide, BitVec.getLsbD_allOnes]

theorem fieldMask_getLsbD (small : msb < 32) :
    (fieldMask lsb msb).getLsbD k = decide (lsb ≤ k ∧ k ≤ msb) := by
  unfold fieldMask
  rw [BitVec.getLsbD_ushiftRight, BitVec.getLsbD_shiftLeft, BitVec.getLsbD_shiftLeft,
    BitVec.getLsbD_ushiftRight, ones_getLsbD, show 31 - msb + k - (31 - msb) = k by omega]
  grind

theorem getValue_getLsbD (ordered : lsb ≤ msb) (small : msb < 32) :
    (getValue value lsb msb).getLsbD k = (decide (k ≤ msb - lsb) && value.getLsbD (lsb + k)) := by
  unfold getValue
  rw [BitVec.getLsbD_and, BitVec.getLsbD_sshiftRight, BitVec.getLsbD_ushiftRight, ones_getLsbD]
  by_cases inside : k ≤ msb - lsb
  · rw [decide_eq_true inside, decide_eq_true (show 31 - (msb - lsb) + k < 32 by omega),
      decide_eq_false (show ¬32 ≤ k by omega), if_pos (show lsb + k < 32 by omega)]
    simp
  · rw [decide_eq_false inside, decide_eq_false (show ¬31 - (msb - lsb) + k < 32 by omega), Bool.and_false,
      Bool.false_and]

/-- What is written back to the register. -/
def masked (old value : Word) (lsb msb : Nat) : Word :=
  old &&& ~~~fieldMask lsb msb ||| value <<< lsb &&& fieldMask lsb msb

theorem masked_getLsbD {f : Field} (small : f.last < 32) (inside : k < 32) :
    (masked old value f.first f.last).getLsbD k = put f value.getLsbD old.getLsbD k := by
  unfold masked
  rw [BitVec.getLsbD_or, BitVec.getLsbD_and, BitVec.getLsbD_and, BitVec.getLsbD_not, BitVec.getLsbD_shiftLeft,
    fieldMask_getLsbD small, decide_eq_true inside]
  by_cases has : f.Has k
  · rw [put_inside has, decide_eq_true (show f.first ≤ k ∧ k ≤ f.last from has),
      decide_eq_false (show ¬k < f.first from Nat.not_lt.mpr has.1)]
    simp
  · rw [put_outside has, decide_eq_false (show ¬(f.first ≤ k ∧ k ≤ f.last) from has)]
    simp

end Mask

/-! ## Writes -/

section Register
variable {sys : System} {m m₀ : Machine} {addr : Word} {width : Nat} {a : Int} {mem : Int → UInt8}

/-- The page of an access stays mapped, whatever is written. -/
theorem access_again (done : access sys addr width m = .ok (a, m₀)) (mem : Int → UInt8) :
    access sys addr width { m₀ with mem } = .ok (a, { m₀ with mem }) := by
  rw [access_run] at done
  split_ifs at done with known
  split at done
  · cases done
  · rename_i a' found
    obtain ⟨rfl, rfl⟩ := Prod.mk.inj (Except.ok.inj done)
    have page := @mapAddress_mapPaddr sys (m.opened sys) addr
    have fmem : (mapAddress sys addr (m.opened sys)).fmem ≠ 0 := by
      rw [mapAddress_fmem]
      exact opened_fmem
    generalize mapAddress sys addr (m.opened sys) = mapped at found page fmem
    have opened : ({ mapped with mem } : Machine).opened sys = { mapped with mem } := if_neg fmem
    have still : mapAddress sys addr { mapped with mem } = { mapped with mem } := if_pos page.symm
    have same : ({ mapped with mem } : Machine).physical (({ mapped with mem } : Machine).pointer addr) width = some a' :=
      found
    rw [access_run, if_pos known, opened, still, same]

theorem access_width (done : access sys addr width m = .ok (a, m₀)) : Known width := by
  by_contra unknown
  rw [access_unknown unknown] at done
  cases done

/-- Whatever is mapped for an access, the memory is as it was. -/
theorem access_mem (done : access sys addr width m = .ok (a, m₀)) : m₀.mem = m.mem := by
  rw [access_run] at done
  split_ifs at done
  split at done
  · cases done
  · obtain ⟨-, rfl⟩ := Prod.mk.inj (Except.ok.inj done)
    rw [mapAddress_mem, opened_mem]

theorem readm_ok (done : access sys addr width m = .ok (a, m₀)) :
    readm sys addr width m = .ok (load m₀.mem a width, m₀) := by
  unfold readm
  rw [done]
  rfl

theorem readm_inv {org : Word} (read : readm sys addr width m = .ok (org, m₀)) :
    ∃ a, access sys addr width m = .ok (a, m₀) ∧ org = load m₀.mem a width := by
  unfold readm at read
  cases done : access sys addr width m with
  | error e =>
    rw [done] at read
    cases read
  | ok x =>
    obtain ⟨a, m'⟩ := x
    rw [done] at read
    obtain ⟨rfl, rfl⟩ := Prod.mk.inj (Except.ok.inj read)
    exact ⟨a, rfl, rfl⟩

theorem writeRegMask_ok (done : access sys addr width m = .ok (a, m₀)) (value : Word) (f : Field) :
    writeRegMask sys addr width value f.first f.last m =
      .ok { m₀ with mem := store m₀.mem a width (masked (load m₀.mem a width) value f.first f.last) } := by
  unfold writeRegMask writem
  rw [readm_ok done]
  have again := access_again done m₀.mem
  change (access sys addr width m₀ >>= _) = _
  rw [again]
  rfl

/-- Calls of `write_reg_mask`, one after the other. -/
def writeRegMasks (sys : System) (addr : Word) (width : Nat) (writes : List (Field × Word)) (m : Machine) :
    Except Stop Machine :=
  writes.foldlM (fun m write => writeRegMask sys addr width write.2 write.1.first write.1.last m) m

/-- The writes as they change the bits. -/
def bitWrites (writes : List (Field × Word)) : List (Write Bool) :=
  writes.map fun write => (write.1, write.2.getLsbD)

theorem width_small (known : Known width) : 8 * width ≤ 32 := by
  rcases known with rfl | rfl | rfl <;> decide

variable (a mem) in
/-- The register after a write has the field and else the bits from before. -/
theorem masked_bits {f : Field} (known : Known width) (inside : f.last < 8 * width) (value : Word) :
    ∀ k < 8 * width, (load (store mem a width (masked (load mem a width) value f.first f.last)) a width).getLsbD k =
      put f value.getLsbD (load mem a width).getLsbD k := by
  intro k low
  have small := width_small known
  rw [load_store_getLsbD small, decide_eq_true low, Bool.true_and, masked_getLsbD (by omega) (by omega)]

theorem puts_congr {α : Type} {n : Nat} {cells other : Nat → α} (writes : List (Write α))
    (same : ∀ k < n, cells k = other k) : ∀ k < n, puts cells writes k = puts other writes k := by
  induction writes generalizing cells other with
  | nil => exact same
  | cons write writes ih =>
    refine ih fun k low => ?_
    change put write.1 write.2 cells k = put write.1 write.2 other k
    unfold put
    split_ifs
    · rfl
    · exact same k low

/-- A run of calls changes the bits as the fields say, and nothing beside the register. -/
theorem writeRegMasks_run (known : Known width) {writes : List (Field × Word)}
    (inside : ∀ write ∈ writes, write.1.last < 8 * width) (mem : Int → UInt8)
    (done : ∀ mem, access sys addr width { m₀ with mem } = .ok (a, { m₀ with mem })) :
    ∃ mem', writeRegMasks sys addr width writes { m₀ with mem } = .ok { m₀ with mem := mem' } ∧
      ∀ k < 8 * width, (load mem' a width).getLsbD k = puts (load mem a width).getLsbD (bitWrites writes) k := by
  induction writes generalizing mem with
  | nil => exact ⟨mem, rfl, fun k _ => rfl⟩
  | cons write writes ih =>
    have first := writeRegMask_ok (done mem) write.2 write.1
    have bits := masked_bits a mem known (inside write List.mem_cons_self) write.2
    obtain ⟨mem', run, final⟩ := ih (fun later mem => inside later (List.mem_cons_of_mem _ mem))
      (store mem a width (masked (load mem a width) write.2 write.1.first write.1.last))
    refine ⟨mem', ?_, fun k low => ?_⟩
    · unfold writeRegMasks at run ⊢
      rw [List.foldlM_cons, first]
      exact run
    · rw [final k low, puts_congr _ bits k low]
      rfl

/-- The first call maps the page. -/
theorem writeRegMasks_mapped (done : access sys addr width m = .ok (a, m₀)) (write : Field × Word)
    (writes : List (Field × Word)) : writeRegMasks sys addr width (write :: writes) m =
      writeRegMasks sys addr width (write :: writes) m₀ := by
  have again := access_again done m₀.mem
  unfold writeRegMasks
  rw [List.foldlM_cons, List.foldlM_cons, writeRegMask_ok done, writeRegMask_ok again]

/-- What `get_value` reads is the field. -/
theorem getValue_field {f : Field} {final value : Word} (small : f.last < 32)
    (bits : ∀ k, f.Has k → final.getLsbD k = value.getLsbD (k - f.first)) :
    (getValue final f.first f.last).toNat = value.toNat % 2 ^ (f.last - f.first + 1) := by
  have ordered := f.ordered
  apply Nat.eq_of_testBit_eq
  intro k
  rw [Nat.testBit_mod_two_pow, BitVec.testBit_toNat, BitVec.testBit_toNat, getValue_getLsbD ordered small]
  by_cases inside : k ≤ f.last - f.first
  · rw [decide_eq_true inside, decide_eq_true (show k < f.last - f.first + 1 by omega),
      bits (f.first + k) ⟨by omega, by omega⟩, show f.first + k - f.first = k by omega]
  · rw [decide_eq_false inside, decide_eq_false (show ¬k < f.last - f.first + 1 by omega)]
    rfl

/-- Two fields that have no bit in common can be written in either order. -/
theorem writeRegMasks_comm (done : access sys addr width m = .ok (a, m₀)) {f g : Field} (apart : f.Apart g)
    (f_inside : f.last < 8 * width) (g_inside : g.last < 8 * width) (v u : Word) :
    writeRegMasks sys addr width [(f, v), (g, u)] m = writeRegMasks sys addr width [(g, u), (f, v)] m := by
  have known := access_width done
  have small := width_small known
  have two (f g : Field) (v u : Word) : writeRegMasks sys addr width [(f, v), (g, u)] m = .ok { m₀ with
      mem := store (store m₀.mem a width (masked (load m₀.mem a width) v f.first f.last)) a width
        (masked (load (store m₀.mem a width (masked (load m₀.mem a width) v f.first f.last)) a width) u
          g.first g.last) } := by
    unfold writeRegMasks
    rw [List.foldlM_cons, writeRegMask_ok done]
    have second := writeRegMask_ok
      (access_again done (store m₀.mem a width (masked (load m₀.mem a width) v f.first f.last))) u g
    change (writeRegMask sys addr width u g.first g.last _ >>= fun m => .ok m) = _
    rw [second]
    rfl
  rw [two, two]
  congr 2
  refine store_store (fun c out => ?_) fun k low => ?_
  · rw [store_outside out, store_outside out]
  · rw [masked_getLsbD (by omega) (by omega), masked_getLsbD (by omega) (by omega)]
    have first := puts_congr [(g, u.getLsbD)] (masked_bits a m₀.mem known f_inside v) k low
    have second := puts_congr [(f, v.getLsbD)] (masked_bits a m₀.mem known g_inside u) k low
    exact first.trans ((congrFun (put_comm apart) k).trans second.symm)

/-- After calls of `write_reg_mask` on a register that can be read, a field has the last value
written to it, unless a field with a bit of it has been written behind that; the other bits are as
they were; and fields without a common bit can be written in either order. -/
theorem writeRegMasks_fields (sys : System) (addr : Word) (width : Nat) (m m₀ : Machine) (org : Word)
    (read : readm sys addr width m = .ok (org, m₀)) (writes : List (Field × Word))
    (inside : ∀ write ∈ writes, write.1.last < 8 * width) :
    (∃ m' m'' final, writeRegMasks sys addr width writes m = .ok m' ∧
      readm sys addr width m' = .ok (final, m'') ∧
      (∀ before f value after, writes = before ++ (f, value) :: after → (∀ later ∈ after, f.Apart later.1) →
        (getValue final f.first f.last).toNat = value.toNat % 2 ^ (f.last - f.first + 1)) ∧
      ∀ k < 8 * width, (∀ write ∈ writes, ¬write.1.Has k) → final.getLsbD k = org.getLsbD k) ∧
    ∀ f ∈ writes, ∀ g ∈ writes, f.1.Apart g.1 →
      writeRegMasks sys addr width [f, g] m = writeRegMasks sys addr width [g, f] m := by
  obtain ⟨a, done, rfl⟩ := readm_inv read
  have known := access_width done
  have small := width_small known
  constructor
  · obtain ⟨mem', run, bits⟩ := writeRegMasks_run known inside m₀.mem (access_again done)
    have facts : (∀ before f value after, writes = before ++ (f, value) :: after →
        (∀ later ∈ after, f.Apart later.1) → (getValue (load mem' a width) f.first f.last).toNat =
          value.toNat % 2 ^ (f.last - f.first + 1)) ∧
        ∀ k < 8 * width, (∀ write ∈ writes, ¬write.1.Has k) →
          (load mem' a width).getLsbD k = (load m₀.mem a width).getLsbD k := by
      constructor
      · rintro before f value after rfl apart
        have room : f.last < 8 * width := inside (f, value) (by simp)
        refine getValue_field (by omega) fun k has => ?_
        have low : k < 8 * width := has.2.trans_lt room
        rw [bits k low, bitWrites, List.map_append, List.map_cons]
        refine puts_last (fun later mem => ?_) has
        obtain ⟨write, write_mem, rfl⟩ := List.mem_map.mp mem
        exact apart write write_mem
      · intro k low free
        rw [bits k low]
        refine puts_free fun write mem => ?_
        obtain ⟨write, write_mem, rfl⟩ := List.mem_map.mp mem
        exact free write write_mem
    cases writes with
    | nil =>
      obtain rfl : m₀.mem = mem' := congrArg Machine.mem (Except.ok.inj run)
      exact ⟨m, _, _, rfl, read, facts⟩
    | cons write writes =>
      exact ⟨{ m₀ with mem := mem' }, { m₀ with mem := mem' }, load mem' a width,
        (writeRegMasks_mapped done write writes).trans run, readm_ok (access_again done mem'), facts⟩
  · rintro ⟨f, v⟩ f_mem ⟨g, u⟩ g_mem apart
    exact writeRegMasks_comm done apart (inside _ f_mem) (inside _ g_mem) v u

/-- Two fields of a register of 8 bits, the first one written again with more bits than it has. -/
theorem writeRegMasks_two : ∃ m' m'' final,
    writeRegMasks plain 0x020c8000 1 [(⟨4, 7, by decide⟩, 5), (⟨0, 3, by decide⟩, 3), (⟨4, 7, by decide⟩, 0x1b)]
        (.start fun _ => 0) = .ok m' ∧
      readm plain 0x020c8000 1 m' = .ok (final, m'') ∧ (getValue final 4 7).toNat = 0xb := by
  obtain ⟨⟨m', m'', final, run, read, fields, -⟩, -⟩ := writeRegMasks_fields plain 0x020c8000 1 (.start fun _ => 0)
    _ _ (readm_ok (access_known _ (.inl (start_unmapped _)) (fun _ => by decide) (.inl rfl) (one_dvd _)))
    [(⟨4, 7, by decide⟩, 5), (⟨0, 3, by decide⟩, 3), (⟨4, 7, by decide⟩, 0x1b)] (by decide)
  have last := fields [_, _] ⟨4, 7, by decide⟩ 0x1b [] rfl nofun
  exact ⟨m', m'', final, run, read, last.trans (by decide)⟩

end Register

end ImxTest.Memtool
