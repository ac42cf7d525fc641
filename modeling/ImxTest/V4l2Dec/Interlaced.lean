import ImxTest.V4l2Dec.Agreement
import Mathlib.Tactic.Ring

/-! Interlaced pictures of mxc_v4l2_vpu_test/mxc_vpu_dec.c. `nBaseAddr` has the addresses of both
fields; those of the bottom field, at 2 and 3, are not read. -/
namespace ImxTest.V4l2Dec

/-- `ReadYUVFrame_FSL_10b` with ALGORITHM_10BIT as it is defined, 1; `rowBuf` is what `malloc` gives
to a call, by its place in the output. -/
def readYuvFrameFsl10b (rowBuf : Nat → Memory) (cap nPicWidth nPicHeight stride bitCnt : Nat) :
    (nBaseAddr : Nat → Memory) → (pDstBuffer : Memory) → (bInterlaced : Bool) → Option Memory :=
  readYuvFrameFsl (fun lines src dst => tiles10 .one (rowBuf dst) cap nPicWidth stride bitCnt lines src dst)
    cap (bitCnt / 8) nPicWidth nPicHeight

/-- What an output of eight bits shows of tiles of bytes. -/
def shown8 (stride : Nat) (src : Memory) (x y : Nat) : Nat := (src (tileOffset stride x y)).toNat

/-- Both fields have the lines they need, the tiles end with the lines, and the numbers hold. -/
structure FieldsFit8 (cap width height stride : Nat) : Prop where
  even : 4 ∣ height
  shape : width % 8 = 0 ∨ width < 8
  numbers : reach8 width (height / 2) ≤ 2 ^ 31
  luma : width * (height / 2) + reach8 width (height / 2) ≤ cap
  chroma : width * height + width * (height / 4) + reach8 width (height / 4) ≤ cap
  source : stride * 128 * ((height / 2 - 1) / 128) < 2 ^ 32

structure FieldsFit10 (cap width height stride bitCnt : Nat) : Prop where
  even : 4 ∣ height
  rows : Rows10 width stride bitCnt
  numbers : Algorithm10bit.one.reach width (height / 2) ≤ 2 ^ 31
  luma : (width * (height / 2) + Algorithm10bit.one.reach width (height / 2)) * (bitCnt / 8) ≤ cap
  chroma : (width * height + width * (height / 4) + Algorithm10bit.one.reach width (height / 4)) * (bitCnt / 8) ≤ cap
  source : Source10 width (height / 2) stride bitCnt

section Fields
variable {cap width height half stride bitCnt : Nat} {nBaseAddr : Nat → Memory} {dst : Memory} {rowBuf : Nat → Memory}

theorem three_fields (even : 2 ∣ half) (n : Nat) : n * (3 * half) = n * (2 * half) + n * (half / 2) + n * (half / 2) := by
  obtain ⟨quarter, rfl⟩ := even
  rw [Nat.mul_div_cancel_left quarter (by decide)]
  ring

/-- The top field comes out twice. -/
theorem twice8 (fits : FieldsFit8 cap width (2 * half) stride) (some_col : 0 < width) (some_line : 0 < half)
    (small : cap < 2 ^ 32) : ∃ out, readYuvFrameFsl8b cap width (2 * half) stride nBaseAddr dst true = some out ∧
      Shows out 0 1 width (2 * half) (weave (shown8 stride (nBaseAddr 0)) (shown8 stride (nBaseAddr 0))) ∧
      Shows out (width * (2 * half) * 1) 1 width half (weave (shown8 stride (nBaseAddr 1)) (shown8 stride (nBaseAddr 1))) := by
  obtain ⟨even, shape, numbers, luma, chroma, source⟩ := fits
  have even : 2 ∣ half := by omega
  rw [show 2 * half / 2 = half by omega] at numbers luma source
  rw [show 2 * half / 4 = half / 2 by omega] at chroma
  have narrow := @le_reach8 width half 128 some_line (by omega)
  have area := @le_reach8 width half half some_line (by omega)
  have lines := Nat.le_mul_of_pos_right half some_col
  have last := @le_reach8 width (half / 2) (half / 2) (by omega) (by omega)
  have parts := three_fields even width
  have field (base : Nat) (src : Memory) (lines : Nat) (le : lines ≤ half) (room : base + reach8 width lines ≤ cap) :
      Reads (tiles8 cap width stride) src base (reach8 width lines * 1) 1 width lines (shown8 stride src) :=
    have reach := @reach8_mono width lines half le
    tiles8_reads (by omega) (by omega) (shape.imp_right .inl) ⟨by omega, by omega⟩
      (Nat.lt_of_le_of_lt (Nat.mul_le_mul_left _ (by omega)) source)
  rw [Nat.mul_comm (half / 2)] at last
  rw [Nat.mul_right_comm]
  refine exists_interlaced even some_line Nat.one_pos small ?_ (field _ _ half (Nat.le_refl _) ?_)
    (field _ _ half (Nat.le_refl _) ?_) (field _ _ (half / 2) (Nat.div_le_self ..) ?_)
    (field _ _ (half / 2) (Nat.div_le_self ..) ?_)
  · rw [Nat.mul_one]
    omega
  · omega
  · rw [Nat.mul_one]
    exact luma
  · rw [Nat.mul_one]
    omega
  · rw [Nat.mul_one]
    exact chroma

theorem twice10 (fits : FieldsFit10 cap width (2 * half) stride bitCnt) (some_col : 0 < width) (some_line : 0 < half)
    (small : cap < 2 ^ 32) (some_byte : 0 < bitCnt / 8) :
    ∃ out, readYuvFrameFsl10b rowBuf cap width (2 * half) stride bitCnt nBaseAddr dst true = some out ∧
      Shows out 0 (bitCnt / 8) width (2 * half)
        (weave (shown10 bitCnt (nBaseAddr 0) stride) (shown10 bitCnt (nBaseAddr 0) stride)) ∧
      Shows out (width * (2 * half) * (bitCnt / 8)) (bitCnt / 8) width half
        (weave (shown10 bitCnt (nBaseAddr 1) stride) (shown10 bitCnt (nBaseAddr 1) stride)) := by
  obtain ⟨even, rows, numbers, luma, chroma, source⟩ := fits
  have even : 2 ∣ half := by omega
  rw [show 2 * half / 2 = half by omega] at numbers luma source
  rw [show 2 * half / 4 = half / 2 by omega] at chroma
  have narrow := @le_reach10 .one width half 128 some_line (by omega)
  have area := @le_reach10 .one width half half some_line (by omega)
  have lines := Nat.le_mul_of_pos_right half some_col
  have last := Nat.mul_le_mul_right (bitCnt / 8) (@le_reach10 .one width (half / 2) (half / 2) (by omega) (by omega))
  have parts := three_fields even (width * (bitCnt / 8))
  have bytes (n : Nat) : width * n * (bitCnt / 8) = width * (bitCnt / 8) * n := Nat.mul_right_comm ..
  have third (lines : Nat) := reach10_le .three width lines
  have field (base : Nat) (src : Memory) (lines : Nat) (le : lines ≤ half)
      (room : base + Algorithm10bit.one.reach width lines * (bitCnt / 8) ≤ cap) :
      Reads (fun lines src dst => tiles10 .one (rowBuf dst) cap width stride bitCnt lines src dst) src base
        (Algorithm10bit.one.reach width lines * (bitCnt / 8)) (bitCnt / 8) width lines (shown10 bitCnt src stride) :=
    have reach : Algorithm10bit.one.reach width lines ≤ Algorithm10bit.one.reach width half := reach10_mono le
    tiles10_reads (by omega) (by omega) (by have numbers := third lines; omega) (.inr (.inl (Nat.le_refl 1)))
      ⟨Nat.le_trans reach numbers, room⟩ (fun _ => rows) fun x col y line => source x col y (by omega)
  rw [Nat.mul_comm (half / 2), bytes] at last
  rw [Nat.add_mul, bytes] at luma
  rw [Nat.add_mul, Nat.add_mul, bytes, bytes] at chroma
  rw [bytes]
  refine exists_interlaced even some_line some_byte small ?_ (field _ _ half (Nat.le_refl _) ?_)
    (field _ _ half (Nat.le_refl _) luma) (field _ _ (half / 2) (Nat.div_le_self ..) ?_)
    (field _ _ (half / 2) (Nat.div_le_self ..) chroma)
  all_goals omega

theorem unread8 {lines : Nat} (empty : width = 0 ∨ lines = 0) (src : Memory) (dst : Nat) (mem : Memory) :
    tiles8 cap width stride lines src dst mem = some mem := by
  refine tiles8_none ?_
  rcases empty with rfl | rfl
  · exact .inl (by unfold Lib.Words.uint; decide)
  · exact .inr (by unfold Lib.Words.uint; decide)

theorem unread10 {lines : Nat} (empty : width = 0 ∨ lines = 0) (src : Memory) (dst : Nat) (mem : Memory) :
    tiles10 .one (rowBuf dst) cap width stride bitCnt lines src dst mem = some mem := by
  refine tiles10_none (empty.imp_right ?_)
  rintro rfl
  unfold Lib.Words.uint
  decide

theorem sameFields_of_empty {sample : Memory → Nat → Nat → Nat} (empty : width = 0 ∨ height = 0) :
    SameFields width height sample nBaseAddr := fun x col =>
  ⟨fun y line => by omega, fun y line => by omega⟩

/-- Where the fields fit, a picture of bytes is right as far as the fields are the same. -/
theorem interlaced8_iff (fits : FieldsFit8 cap width height stride) (small : cap < 2 ^ 32) :
    Interlaced (readYuvFrameFsl8b cap width height stride) 1 width height (shown8 stride) nBaseAddr dst ↔
      SameFields width height (shown8 stride) nBaseAddr := by
  by_cases empty : width = 0 ∨ height = 0
  · exact iff_of_true (interlaced_empty empty fun lines => unread8) (sameFields_of_empty empty)
  · obtain ⟨half, rfl⟩ : 2 ∣ height := dvd_trans (by decide) fits.even
    have even := fits.even
    exact interlaced_iff_same (by omega) (fun src x y => UInt8.toNat_lt _) (twice8 fits (by omega) (by omega) small)

theorem interlaced10_iff (fits : FieldsFit10 cap width height stride bitCnt) (small : cap < 2 ^ 32)
    (depth : bitCnt = 8 ∨ bitCnt = 16) : Interlaced (readYuvFrameFsl10b rowBuf cap width height stride bitCnt) (bitCnt / 8)
        width height (fun src => shown10 bitCnt src stride) nBaseAddr dst ↔
      SameFields width height (fun src => shown10 bitCnt src stride) nBaseAddr := by
  by_cases empty : width = 0 ∨ height = 0
  · exact iff_of_true (interlaced_empty empty fun lines => unread10) (sameFields_of_empty empty)
  · obtain ⟨half, rfl⟩ : 2 ∣ height := dvd_trans (by decide) fits.even
    have even := fits.even
    refine interlaced_iff_same (by omega) (fun src x y => ?_) (twice10 fits (by omega) (by omega) small (by omega))
    rw [shown10_eq]
    exact sample10_lt depth

/-- The bottom field is not read: no size of a picture is right for all fields, and of fields that
fit those are shown right that are the same. -/
theorem interlaced_iff (small : cap < 2 ^ 32) (depth : bitCnt = 8 ∨ bitCnt = 16) (rowBuf : Nat → Memory) :
    ((∀ nBaseAddr dst, Interlaced (readYuvFrameFsl8b cap width height stride) 1 width height (shown8 stride) nBaseAddr dst) ↔
      width = 0 ∨ height = 0) ∧
    (FieldsFit8 cap width height stride → ∀ nBaseAddr dst,
      Interlaced (readYuvFrameFsl8b cap width height stride) 1 width height (shown8 stride) nBaseAddr dst ↔
        SameFields width height (shown8 stride) nBaseAddr) ∧
    ((∀ nBaseAddr dst, Interlaced (readYuvFrameFsl10b rowBuf cap width height stride bitCnt) (bitCnt / 8) width height
      (fun src => shown10 bitCnt src stride) nBaseAddr dst) ↔ width = 0 ∨ height = 0) ∧
    (FieldsFit10 cap width height stride bitCnt → ∀ nBaseAddr dst,
      Interlaced (readYuvFrameFsl10b rowBuf cap width height stride bitCnt) (bitCnt / 8) width height
          (fun src => shown10 bitCnt src stride) nBaseAddr dst ↔
        SameFields width height (fun src => shown10 bitCnt src stride) nBaseAddr) := by
  refine ⟨?_, fun fits nBaseAddr dst => interlaced8_iff fits small, ?_,
    fun fits nBaseAddr dst => interlaced10_iff fits small depth⟩
  · have differ : UInt8.ofNat (shown8 stride (fun _ => 1) 0 0) ≠ .ofNat (shown8 stride (fun _ => 0) 0 0) :=
      show UInt8.ofNat (1 : UInt8).toNat ≠ .ofNat (0 : UInt8).toNat by decide
    exact interlaced_sizes Nat.one_pos (fun lines => unread8) differ
  · refine interlaced_sizes (a := fun _ => 255) (b := fun _ => 0) (by omega) (fun lines => unread10) ?_
    rw [shown10_eq, shown10_eq]
    rcases depth with rfl | rfl
    · show UInt8.ofNat (sample10 8 (10 * 0 % 8 : Nat) 255 255) ≠ .ofNat (sample10 8 (10 * 0 % 8 : Nat) 0 0)
      decide
    · show UInt8.ofNat (sample10 16 (10 * 0 % 8 : Nat) 255 255) ≠ .ofNat (sample10 16 (10 * 0 % 8 : Nat) 0 0)
      decide

end Fields

/-- Tiles of bytes and of ten bits, of fields that are the same. -/
theorem interlaced_same_tiles :
    (¬ ∀ nBaseAddr dst, Interlaced (readYuvFrameFsl8b 16384 32 4 40) 1 32 4 (shown8 40) nBaseAddr dst) ∧
    Interlaced (readYuvFrameFsl8b 16384 32 4 40) 1 32 4 (shown8 40) (fun _ _ => 7) (fun _ => 0) ∧
    (¬ ∀ nBaseAddr dst, Interlaced (readYuvFrameFsl10b (fun _ _ => 0) 16384 32 4 40 16) 2 32 4
      (fun src => shown10 16 src 40) nBaseAddr dst) ∧
    Interlaced (readYuvFrameFsl10b (fun _ _ => 0) 16384 32 4 40 16) 2 32 4 (fun src => shown10 16 src 40)
      (fun _ _ => 7) fun _ => 0 := by
  have fits : FieldsFit8 16384 32 4 40 := ⟨by decide, by decide, by decide, by decide, by decide, by decide⟩
  have fits10 : FieldsFit10 16384 32 4 40 16 := ⟨by decide, ⟨by decide, by decide⟩, by decide, by decide, by decide,
    fun x col y line => by
      unfold tileOffset lastByte
      rw [if_neg (by decide)]
      omega⟩
  obtain ⟨sizes, fields, sizes10, fields10⟩ := @interlaced_iff 16384 32 4 40 16 (by decide) (.inr rfl) fun _ _ => 0
  refine ⟨sizes.not.mpr (by decide), (fields fits _ _).mpr ?_, sizes10.not.mpr (by decide), (fields10 fits10 _ _).mpr ?_⟩
  · exact fun x _ => ⟨fun y _ => rfl, fun y _ => rfl⟩
  · exact fun x _ => ⟨fun y _ => rfl, fun y _ => rfl⟩

/-- Four lines of one tile, of which only the bottom field has a byte. -/
theorem interlaced_four : ¬ Interlaced (readYuvFrameFsl8b 4096 8 4 8) 1 8 4 (shown8 8)
    (fun k _ => if k = 2 then 1 else 0) fun _ => 0 := by
  have fits : FieldsFit8 4096 8 4 8 := ⟨by decide, by decide, by decide, by decide, by decide, by decide⟩
  rw [interlaced8_iff fits (by decide)]
  intro same
  exact absurd ((same 0 (by decide)).1 0 (by decide)) (by decide)

end ImxTest.V4l2Dec
