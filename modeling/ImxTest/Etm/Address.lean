import ImxTest.Etm.Reads

/-! The addresses of branches, of which only so much is sent as has changed. -/
namespace ImxTest.Etm
open Lib Overlay

/-- Where a branch goes, and how that is written. -/
structure Address where
  mode : Mode
  addr : Word
  /-- The bytes behind the first one; the fifth has the mode. -/
  size : Nat
  exception : Bool
deriving DecidableEq, Repr

namespace Address

/-- It counts instructions. -/
def number (x : Address) : Word := x.addr >>> x.mode.shift

def first (x : Address) : Byte := (BitVec.ofBool (x.size ≠ 0) ++ x.number.extractLsb' 0 6) ++ 1#1

def fifth (x : Address) : Byte :=
  match x.mode with
  | .jazelle => (0#1 ++ BitVec.ofBool x.exception ++ 1#1) ++ x.number.extractLsb' 27 5
  | .thumb => (0#1 ++ BitVec.ofBool x.exception ++ 1#2) ++ x.number.extractLsb' 27 4
  | .arm => (0#1 ++ BitVec.ofBool x.exception ++ 1#3) ++ x.number.extractLsb' 27 3

/-- The last byte, if it is not the first one. -/
def last (alt : Bool) (x : Address) : Byte :=
  if x.size = 4 then x.fifth
  else if alt then (0#1 ++ BitVec.ofBool x.exception) ++ x.number.extractLsb' (7 * x.size - 1) 6
  else piece false x.number (7 * x.size - 1)

/-- What is behind the first byte. -/
def rest (alt : Bool) (x : Address) : List Byte :=
  if x.size = 0 then [] else heads x.number (x.size - 1) 6 ++ [x.last alt]

/-- The bits that are sent. -/
def covered (alt : Bool) (x : Address) : Nat :=
  if x.size = 0 then 6 else if alt then 7 * x.size + 5 else 7 * x.size + 6

/-- What is not sent is as it was. An exception has its bit in the fifth byte, and with alternative branch
encoding in any other but the first. -/
structure Fits (alt : Bool) (mode : Mode) (addr : Word) (x : Address) : Prop where
  few : x.size < 5
  aligned : x.number <<< x.mode.shift = x.addr
  same : x.size ≠ 4 → x.mode = mode ∧ Alike (x.covered alt) x.number (addr >>> mode.shift)
  told : x.exception = true → x.size = 4 ∨ alt = true ∧ x.size ≠ 0

instance (alt : Bool) (mode : Mode) (addr : Word) (x : Address) : Decidable (x.Fits alt mode addr) :=
  decidable_of_iff (x.size < 5 ∧ x.number <<< x.mode.shift = x.addr ∧
    (x.size ≠ 4 → x.mode = mode ∧ Alike (x.covered alt) x.number (addr >>> mode.shift)) ∧
    (x.exception = true → x.size = 4 ∨ alt = true ∧ x.size ≠ 0))
    ⟨fun ⟨one, two, three, four⟩ => ⟨one, two, three, four⟩, fun fits => ⟨fits.few, fits.aligned, fits.same, fits.told⟩⟩

variable {x : Address} {cfg : Config} {alt : Bool} {mode : Mode} {old addr : Word} {st : State} {count left k : Nat}
  {valid : Word} {b : Byte}

/-- The bits of the first byte. -/
theorem head_bit (more : Bool) (v : BitVec 6) (i : Nat) (inside : i < 6) :
    (((BitVec.ofBool more ++ v) ++ 1#1 : Byte) >>> 1).getLsbD i = v.getLsbD i := by
  revert more v i
  decide

theorem first_low : put 0x3F 0 ((x.first >>> 1).setWidth 32) old = mix 6 x.number old := by
  apply BitVec.eq_of_getLsbD_eq
  intro i inside
  change (mix 6 _ old).getLsbD i = _
  rw [getLsbD_mix inside, getLsbD_mix inside]
  by_cases low : i < 6
  · rw [if_pos low, if_pos low, BitVec.getLsbD_setWidth, first, head_bit _ _ i low, BitVec.getLsbD_extractLsb']
    simp [low, inside]
  · rw [if_neg low, if_neg low]

theorem first_top : x.first &&& 0x80 ≠ 0 ↔ x.size ≠ 0 := by
  unfold first
  generalize x.number.extractLsb' 0 6 = v
  by_cases more : x.size ≠ 0
  · simp only [more, ne_eq, not_false_eq_true, decide_true, iff_true]
    revert v
    decide
  · simp only [more, decide_false, iff_false]
    revert v
    decide

theorem first_odd : x.first &&& 1 = 1 := by
  unfold first
  generalize x.number.extractLsb' 0 6 = v
  generalize decide (x.size ≠ 0) = more
  revert v more
  decide

theorem fifth_bits (exception : Bool) :
    (∀ (v : BitVec 5), ∀ i < 5, ((0#1 ++ BitVec.ofBool exception ++ 1#1) ++ v : Byte).getLsbD i = v.getLsbD i) ∧
    (∀ (v : BitVec 4), ∀ i < 4, ((0#1 ++ BitVec.ofBool exception ++ 1#2) ++ v : Byte).getLsbD i = v.getLsbD i) ∧
    ∀ (v : BitVec 3), ∀ i < 3, ((0#1 ++ BitVec.ofBool exception ++ 1#3) ++ v : Byte).getLsbD i = v.getLsbD i := by
  cases exception <;> decide

theorem fifth_bit {i : Nat} (inside : i < 5 - x.mode.shift) : x.fifth.getLsbD i = x.number.getLsbD (27 + i) := by
  obtain ⟨five, four, three⟩ := fifth_bits x.exception
  unfold fifth
  cases same : x.mode with
  | jazelle =>
      rw [same] at inside
      rw [five _ i inside, BitVec.getLsbD_extractLsb', decide_eq_true (by exact inside), Bool.true_and]
  | thumb =>
      rw [same] at inside
      rw [four _ i inside, BitVec.getLsbD_extractLsb', decide_eq_true (by exact inside), Bool.true_and]
  | arm =>
      rw [same] at inside
      rw [three _ i inside, BitVec.getLsbD_extractLsb', decide_eq_true (by exact inside), Bool.true_and]

/-- The fifth byte has the mode and whether there is an exception. -/
theorem fifth_flags : x.fifth &&& 0x80 = 0 ∧ modeOf x.fifth = x.mode ∧ (x.fifth &&& 0x40 ≠ 0 ↔ x.exception = true) := by
  unfold fifth
  cases x.mode with
  | jazelle =>
      dsimp only
      generalize x.number.extractLsb' 27 5 = v
      generalize x.exception = e
      revert v e
      decide
  | thumb =>
      dsimp only
      generalize x.number.extractLsb' 27 4 = v
      generalize x.exception = e
      revert v e
      decide
  | arm =>
      dsimp only
      generalize x.number.extractLsb' 27 3 = v
      generalize x.exception = e
      revert v e
      decide

/-- The mode bits of the fifth byte are lost when the address is shifted. -/
theorem fifth_put (alt : Bool) : put (if alt then 0x3F else 0x7F) 27 (x.fifth.setWidth 32) (mix 27 x.number old) <<<
    x.mode.shift = x.number <<< x.mode.shift := by
  apply BitVec.eq_of_getLsbD_eq
  intro i inside
  rw [BitVec.getLsbD_shiftLeft, BitVec.getLsbD_shiftLeft]
  by_cases low : i < x.mode.shift
  · simp [low]
  · congr 1
    have within : i - x.mode.shift < 32 := by omega
    rw [getLsbD_put within, getLsbD_mix within]
    by_cases high : 27 ≤ i - x.mode.shift
    · have few : i - x.mode.shift - 27 < 5 - x.mode.shift := by omega
      have set : (if alt then (0x3F : Word) else 0x7F).getLsbD (i - x.mode.shift - 27) = true := by
        have masks : ∀ j < 5, (0x3F : Word).getLsbD j = true ∧ (0x7F : Word).getLsbD j = true := by decide
        cases alt
        · exact (masks _ (by omega)).2
        · exact (masks _ (by omega)).1
      rw [if_pos ⟨high, set⟩, BitVec.getLsbD_setWidth, fifth_bit few, Nat.add_sub_cancel' high]
      simp [show i - x.mode.shift - 27 < 32 by omega]
    · rw [if_neg (fun both => high both.1), if_pos (by omega)]

/-- The last byte of a shorter address with alternative branch encoding. -/
theorem alt_flags (exception : Bool) (v : BitVec 6) : ((0#1 ++ BitVec.ofBool exception) ++ v : Byte) &&& 0x80 = 0 ∧
    (((0#1 ++ BitVec.ofBool exception) ++ v : Byte) &&& 0x40 ≠ 0 ↔ exception = true) ∧
    ∀ i < 6, ((0#1 ++ BitVec.ofBool exception) ++ v : Byte).getLsbD i = v.getLsbD i := by
  revert v exception
  decide

theorem last_top : x.last alt &&& 0x80 = 0 := by
  unfold last
  split_ifs
  · exact fifth_flags.1
  · exact (alt_flags _ _).1
  · exact piece_top.mpr rfl

/-! ## The loop over the bytes -/

/-- The mask of a byte. -/
def mask (cfg : Config) (b : Byte) : Word := if cfg.altBranch = true ∧ b &&& 0x80 = 0 then 0x3F else 0x7F

theorem addressBytes_last (synced : 0 < st.sync) (more : st.data &&& 0x80 ≠ 0) (end_ : b &&& 0x80 = 0) :
    Reads cfg [b] (addressBytes cfg (left + 1) count old valid)
      (count + 1, put (mask cfg b) (7 * count - 1) (b.setWidth 32) old, valid ^^^ mask cfg b <<< (7 * count - 1)) st
      { st with data := b } := by
  refine Reads.get fun source => ?_
  rw [if_pos (by exact more)]
  refine Reads.last (.getByte synced) ?_
  cases left with
  | zero => exact .pure
  | succ left =>
      refine Reads.get fun source => ?_
      rw [if_neg (by simpa [State.from] using end_)]
      exact .pure

variable (cfg) in
theorem addressBytes_heads (a old valid : Word) (k left count : Nat) (end_ : b &&& 0x80 = 0) (some_ : 0 < count) :
    ∃ v, ∀ st : State, 0 < st.sync → st.data &&& 0x80 ≠ 0 → Reads cfg (heads a k (7 * count - 1) ++ [b])
      (addressBytes cfg (left + 1 + k) count (mix (7 * count - 1) a old) valid)
      (count + k + 1, put (mask cfg b) (7 * (count + k) - 1) (b.setWidth 32) (mix (7 * (count + k) - 1) a old), v) st
      { st with data := b } := by
  induction k generalizing count valid with
  | zero => exact ⟨_, fun st synced more => addressBytes_last synced more end_⟩
  | succ k ih =>
      have open_ : piece true a (7 * count - 1) &&& 0x80 ≠ 0 := by
        rw [Ne, piece_top]
        decide
      have next : 7 * count - 1 + 7 = 7 * (count + 1) - 1 := by omega
      obtain ⟨v, reads⟩ := ih (valid ^^^ 0x7F <<< (7 * count - 1)) (count + 1) (Nat.succ_pos count)
      refine ⟨v, fun st synced more => ?_⟩
      change Reads cfg ([piece true a (7 * count - 1)] ++ (heads a k (7 * count - 1 + 7) ++ [b])) _ _ _ _
      refine Reads.get fun source => ?_
      rw [if_pos (by exact more)]
      refine Reads.bind (.getByte synced) ?_
      simp only [open_, and_false, if_false]
      have put_ : put (seven 32) (7 * count - 1) ((piece true a (7 * count - 1)).setWidth 32) (mix (7 * count - 1) a old) =
          mix (7 * count - 1 + 7) a old := put_piece
      rw [show (0x7F : Word) = seven 32 from rfl, put_, next]
      rw [Nat.add_right_comm count 1 k, Nat.add_assoc count k 1] at reads
      exact reads { st with data := piece true a (7 * count - 1) } synced open_

/-- What the last byte leaves of the address. -/
theorem last_put (sent : x.size ≠ 0) (fits : x.Fits cfg.altBranch mode addr) :
    put (mask cfg (x.last cfg.altBranch)) (7 * x.size - 1) ((x.last cfg.altBranch).setWidth 32)
      (mix (7 * x.size - 1) x.number (addr >>> mode.shift)) <<< x.mode.shift = x.addr := by
  rw [← fits.aligned]
  by_cases five : x.size = 4
  · have fifth : x.last cfg.altBranch = x.fifth := by rw [last, if_pos five]
    have masked : mask cfg x.fifth = if cfg.altBranch then 0x3F else 0x7F := by
      simp only [mask, fifth_flags.1, and_true]
    rw [fifth, masked, five]
    exact fifth_put _
  · congr 1
    have alike := (fits.same five).2
    rw [covered, if_neg sent] at alike
    have positive : 0 < x.size := Nat.pos_of_ne_zero sent
    cases alt : cfg.altBranch with
    | true =>
        obtain ⟨top, -, bits⟩ := alt_flags x.exception (x.number.extractLsb' (7 * x.size - 1) 6)
        rw [alt, if_pos rfl, show 7 * x.size + 5 = 7 * x.size - 1 + 6 by omega] at alike
        have same : x.last true = (0#1 ++ BitVec.ofBool x.exception) ++ x.number.extractLsb' (7 * x.size - 1) 6 := by
          rw [last, if_neg five, if_pos rfl]
        rw [same, mask, if_pos ⟨alt, top⟩, put_mix (m := 6), mix_eq alike]
        · intro i inside from_
          rw [show (0x3F : Word) = .ofNat 32 (2 ^ 6 - 1) from rfl, getLsbD_ones]
          exact decide_eq_decide.mpr (by omega)
        · intro i inside from_ within
          rw [BitVec.getLsbD_setWidth, bits _ (by omega), BitVec.getLsbD_extractLsb', Nat.add_sub_cancel' from_]
          simp [show i - (7 * x.size - 1) < 32 by omega, show i - (7 * x.size - 1) < 6 by omega]
    | false =>
        rw [alt, if_neg (by decide), show 7 * x.size + 6 = 7 * x.size - 1 + 7 by omega] at alike
        have same : x.last false = piece false x.number (7 * x.size - 1) := by
          rw [last, if_neg five, if_neg (by decide)]
        have plain : mask cfg (piece false x.number (7 * x.size - 1)) = seven 32 := by
          rw [mask, if_neg (by simp [alt])]
          rfl
        rw [same, plain, put_piece, mix_eq alike]

/-- The last byte of all. -/
def final (alt : Bool) (x : Address) : Byte := if x.size = 0 then x.first else x.last alt

/-- The loop reads the address. -/
theorem addressBytes_rest (fits : x.Fits cfg.altBranch mode addr) (valid : Word) :
    ∃ a v : Word, a <<< x.mode.shift = x.addr ∧ ∀ st : State, 0 < st.sync → st.data = x.first →
      Reads cfg (x.rest cfg.altBranch) (addressBytes cfg 4 1 (mix 6 x.number (addr >>> mode.shift)) valid)
        (x.size + 1, a, v) st { st with data := x.final cfg.altBranch } := by
  unfold rest final
  by_cases none_ : x.size = 0
  · have other : x.size ≠ 4 := by
      rw [none_]
      decide
    have alike := (fits.same other).2
    rw [covered, if_pos none_] at alike
    refine ⟨mix 6 x.number (addr >>> mode.shift), valid, ?_, fun st synced data => ?_⟩
    · rw [mix_eq alike, fits.aligned]
    · have closed : x.first &&& 0x80 = 0 := not_ne_iff.mp fun top => first_top.mp top none_
      rw [if_pos none_, if_pos none_, none_, ← data]
      refine Reads.get fun source => ?_
      rw [if_neg (not_ne_iff.mpr (by rw [← data] at closed; exact closed))]
      exact .pure
  · have positive : 0 < x.size := Nat.pos_of_ne_zero none_
    have bound := fits.few
    have top : x.last cfg.altBranch &&& 0x80 = 0 := last_top
    obtain ⟨v, reads⟩ := addressBytes_heads cfg x.number (addr >>> mode.shift) valid (x.size - 1) (4 - x.size) 1 top (by decide)
    rw [show 4 - x.size + 1 + (x.size - 1) = 4 by omega, show 1 + (x.size - 1) = x.size by omega] at reads
    rw [if_neg none_, if_neg none_]
    exact ⟨_, v, last_put none_ fits, fun st synced data => reads st synced (by rw [data]; exact first_top.mpr none_)⟩

/-- What the decoder takes for an exception. -/
theorem final_exception (told : x.exception = true → x.size = 4 ∨ alt = true ∧ x.size ≠ 0) :
    ((x.size + 1 = 5 ∨ alt = true ∧ 1 < x.size + 1) ∧ x.final alt &&& 0x40 ≠ 0) ↔ x.exception = true := by
  by_cases told_ : x.size = 4 ∨ alt = true ∧ x.size ≠ 0
  · have some_ : x.size ≠ 0 := by
      obtain five | ⟨-, some_⟩ := told_
      · rw [five]
        decide
      · exact some_
    have positive : 0 < x.size := Nat.pos_of_ne_zero some_
    rw [final, if_neg some_, last]
    by_cases five : x.size = 4
    · rw [if_pos five, fifth_flags.2.2, five]
      simp
    · obtain ⟨alt_, -⟩ := told_.resolve_left five
      rw [if_neg five, if_pos alt_, (alt_flags _ _).2.1]
      exact and_iff_right (.inr ⟨alt_, by omega⟩)
  · refine iff_of_false (fun both => told_ ?_) fun exception => told_ (told exception)
    obtain ⟨five | ⟨alt_, more⟩, -⟩ := both
    · exact .inl (Nat.succ.inj five)
    · exact .inr ⟨alt_, fun zero => by simp [zero] at more⟩

theorem final_mode (five : x.size = 4) : modeOf (x.final alt) = x.mode := by
  rw [final, if_neg (by rw [five]; decide), last, if_pos five]
  exact fifth_flags.2.1

end Address

end ImxTest.Etm
