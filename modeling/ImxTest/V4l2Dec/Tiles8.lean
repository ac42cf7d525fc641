import ImxTest.V4l2Dec.Frame

/-! `ReadYUVFrame_FSL_8b` of mxc_v4l2_vpu_test/mxc_vpu_dec.c: a raster of tiles, each of 8 bytes by
128 lines, is written as lines. The tiles at the right end reach into the lines behind. -/
namespace ImxTest.V4l2Dec
open Lib.Strips Lib.Words

/-- Where byte `c` of line `y` is in the tiles. -/
def tileOffset (stride c y : Nat) : Nat := y / 128 * (stride * 128) + c / 8 * 1024 + y % 128 * 8 + c % 8

/-- What `__ReadYUVFrame_FSL_8b` writes, in its order. -/
def fslSamples8b (srcAddr : Memory) (width stride hCnt vCnt : Nat) : List (Int × Nat) :=
  (List.range vCnt).flatMap fun vNum =>
    let vBaseOffset := uint (stride * 128 * vNum : Nat)
    (List.range hCnt).flatMap fun hNum =>
      let curAddr := int (hNum * (8 * 128) : Nat) + vBaseOffset
      (List.range 128).flatMap fun i =>
        let lineBase := int ((i + 128 * vNum) * width : Nat)
        (List.range 8).map fun j => (int (lineBase + (8 * hNum + j : Nat)), (srcAddr (curAddr + (8 * i + j : Nat))).toNat)

/-- A call of `__ReadYUVFrame_FSL_8b` for so many lines. -/
def tiles8 (cap width stride lines : Nat) (src : Memory) (dst : Nat) (mem : Memory) : Option Memory :=
  let hCnt := uint (width + 7) / 8
  let vCnt := uint (lines + 127) / 128
  fill cap mem dst 1 (fslSamples8b src width stride hCnt vCnt)

def readYuvFrameFsl8b (cap nPicWidth nPicHeight stride : Nat) : (nBaseAddr : Nat → Memory) → (pDstBuffer : Memory) →
    (bInterlaced : Bool) → Option Memory :=
  readYuvFrameFsl (tiles8 cap nPicWidth stride) cap 1 nPicWidth nPicHeight

/-- Every visible byte is the one of the tiles. -/
def Progressive8 (cap width height stride : Nat) : Prop :=
  ∀ nBaseAddr dst, ∃ out, readYuvFrameFsl8b cap width height stride nBaseAddr dst false = some out ∧
    (∀ x < width, ∀ y < height, out (y * width + x : Nat) = nBaseAddr 0 (tileOffset stride x y)) ∧
    ∀ x < width, ∀ y < height / 2, out (width * height + y * width + x : Nat) = nBaseAddr 1 (tileOffset stride x y)

/-- How many bytes whole tiles take. -/
def reach8 (width lines : Nat) : Nat := extent 128 width (8 * ·) ((width + 7) / 8) ((lines + 127) / 128)

/-- What is asked of a picture: that tiles end with its lines, and numbers and sizes that hold. -/
structure Fits8 (cap width height stride : Nat) : Prop where
  shape : width % 8 = 0 ∨ width < 8 ∨ height ≤ 1
  numbers : reach8 width height ≤ 2 ^ 31
  luma : reach8 width height ≤ cap
  chroma : width * height + reach8 width (height / 2) ≤ cap
  source : stride * 128 * ((height - 1) / 128) < 2 ^ 32

/-- Where a sample is read from. -/
def fslAddr8b (stride : Nat) (s : Spot) : Int :=
  int (s.group * (8 * 128) : Nat) + uint (stride * 128 * s.strip : Nat) + (8 * s.line + (s.col - 8 * s.group) : Nat)

theorem columns_mono : Monotone (8 * · : Nat → Nat) := fun _ _ le => Nat.mul_le_mul_left 8 le

section Samples
variable {src : Memory} {width stride hCnt vCnt lines : Nat}

theorem fslSamples8b_eq : fslSamples8b src width stride hCnt vCnt =
    stripSamples (fun n => int n) 128 width (8 * ·) hCnt vCnt fun s => (src (fslAddr8b stride s)).toNat := by
  unfold fslSamples8b stripSamples
  rw [map_spots]
  refine congrArg (List.flatMap · _) (funext fun v => congrArg (List.flatMap · _) (funext fun h =>
    congrArg (List.flatMap · _) (funext fun i => List.map_congr_left fun j _ => Prod.ext ?_ ?_)))
  · dsimp only [Spot.place, Spot.row]
    rw [int_int_add]
    exact congrArg int (by push_cast; ring)
  · dsimp only [fslAddr8b]
    rw [Nat.add_sub_cancel_left]

theorem fslSamples8b_nil (none : hCnt = 0 ∨ vCnt = 0) : fslSamples8b src width stride hCnt vCnt = [] := by
  rcases none with rfl | rfl <;> simp [fslSamples8b]

/-- The address of a sample, where the numbers hold. -/
theorem fslAddr8b_eq {s : Spot} (mem : s ∈ spots 128 (8 * ·) hCnt vCnt) (narrow : 128 * s.col < 2 ^ 31)
    (source : stride * 128 * s.strip < 2 ^ 32) : fslAddr8b stride s = tileOffset stride s.col (s.row 128) := by
  obtain ⟨-, -, line, low, high⟩ := mem_spots.mp mem
  have group : s.col / 8 = s.group := by omega
  have strip : s.row 128 / 128 = s.strip := by unfold Spot.row; omega
  have inner : s.row 128 % 128 = s.line := by unfold Spot.row; omega
  unfold fslAddr8b tileOffset
  rw [int_natCast (by omega), uint_natCast source, group, strip, inner, Nat.mul_comm (stride * 128)]
  omega

end Samples

section Reach
variable {width lines lines' n : Nat}

theorem le_reach8 (some_line : 0 < lines) (tall : n ≤ (lines + 127) / 128 * 128) : n * width ≤ reach8 width lines :=
  le_extent (show width ≤ 8 * ((width + 7) / 8) by omega) (by omega) tall

theorem reach8_mono (le : lines ≤ lines') : reach8 width lines ≤ reach8 width lines' :=
  extent_mono (by omega)

end Reach

section Frame
variable {cap width height stride base : Nat} {src mem : Memory}

theorem tiles8_eq (wide : width + 7 < 2 ^ 32) {lines dst : Nat} (tall : lines + 127 < 2 ^ 32) :
    tiles8 cap width stride lines src dst mem = fill cap mem dst 1 (stripSamples (fun n => int n) 128 width (8 * ·)
      ((width + 7) / 8) ((lines + 127) / 128) fun s => (src (fslAddr8b stride s)).toNat) := by
  have columns : uint ((width : Int) + 7) = width + 7 := uint_natCast_add wide
  have strips : uint ((lines : Int) + 127) = lines + 127 := uint_natCast_add tall
  simp only [tiles8, columns, strips, fslSamples8b_eq]

/-- A call where its lines keep their samples. -/
theorem tiles8_reads {lines : Nat} (wide : width + 7 < 2 ^ 32) (tall : lines + 127 < 2 ^ 32)
    (shape : width % 8 = 0 ∨ width < 8 ∨ lines ≤ 1) (room : RoomFor cap base 1 (2 ^ 31) (reach8 width lines))
    (source : stride * 128 * ((lines - 1) / 128) < 2 ^ 32) :
    Reads (tiles8 cap width stride) src base (reach8 width lines * 1) 1 width lines
      fun x y => (src (tileOffset stride x y)).toNat := by
  intro mem
  rw [tiles8_eq wide tall]
  refine exists_lays int_indexes columns_mono rfl (by omega) (by omega) room (by omega) ?_
  intro s mem_s visible line
  have narrow := @le_reach8 width lines 128 (by omega) (by omega)
  have numbers := room.numbers
  have strip : s.strip ≤ (lines - 1) / 128 := by
    unfold Spot.row at line
    omega
  rw [fslAddr8b_eq mem_s (by omega) (Nat.lt_of_le_of_lt (Nat.mul_le_mul_left _ strip) source)]

theorem progressive8_of_fits (wide : width + 7 < 2 ^ 32) (tall : height + 127 < 2 ^ 32)
    (fits : Fits8 cap width height stride) (small : cap < 2 ^ 32) : Progressive8 cap width height stride := by
  intro nBaseAddr dst
  have half := @reach8_mono width (height / 2) height (Nat.div_le_self ..)
  have area : width * height * 1 ≤ cap := by
    have chroma := fits.chroma
    omega
  have reads := @tiles8_reads cap width stride 0 (nBaseAddr 0) height wide tall fits.shape
    ⟨fits.numbers, by have luma := fits.luma; omega⟩ fits.source
  have reads' := @tiles8_reads cap width stride (width * height * 1) (nBaseAddr 1) (height / 2) wide (by omega)
    (by have shape := fits.shape; omega) ⟨Nat.le_trans half fits.numbers, by have chroma := fits.chroma; omega⟩
    (Nat.lt_of_le_of_lt (Nat.mul_le_mul_left _ (by omega)) fits.source)
  obtain ⟨out, run, luma, chroma⟩ := @exists_progressive _ cap _ _ _ _ _ _ dst _ _ Nat.one_pos
    (Nat.lt_of_le_of_lt area small) reads reads'
  refine ⟨out, run, ?_, ?_⟩
  · simpa only [Nat.zero_add] using shows_bytes.mp luma
  · simpa only [Nat.mul_one] using shows_bytes.mp chroma

/-- Where a count of tiles is taken to be zero, nothing is read. -/
theorem tiles8_none {lines dst : Nat} (none : uint ((width : Int) + 7) / 8 = 0 ∨ uint ((lines : Int) + 127) / 128 = 0) :
    tiles8 cap width stride lines src dst mem = some mem := by
  simp only [tiles8, fslSamples8b_nil none, fill, write, Lib.Writes.store, List.flatMap_nil, List.not_mem_nil,
    false_implies, implies_true, if_true, List.foldl_nil]

theorem counts_of_progressive (wide : width < 2 ^ 32) (tall : height < 2 ^ 32) (some_col : 0 < width)
    (some_line : 0 < height) (right : Progressive8 cap width height stride) :
    width + 7 < 2 ^ 32 ∧ height + 127 < 2 ^ 32 := by
  by_contra beyond
  have none : uint ((width : Int) + 7) / 8 = 0 ∨ uint ((height : Int) + 127) / 128 = 0 := by
    have columns := uint_mod (width + 7)
    have strips := uint_mod (height + 127)
    push_cast at columns strips
    omega
  obtain ⟨out, run, luma, -⟩ := right (fun _ _ => 0) fun _ => 0
  obtain ⟨out', run', luma', -⟩ := right (fun k _ => if k = 0 then 1 else 0) fun _ => 0
  obtain ⟨mem, read, rest⟩ := progressive_eq_some_iff.mp run
  obtain ⟨mem', read', rest'⟩ := progressive_eq_some_iff.mp run'
  cases (tiles8_none none).symm.trans read
  cases (tiles8_none none).symm.trans read'
  cases rest.symm.trans rest'
  have first := luma 0 some_col 0 some_line
  rw [luma' 0 some_col 0 some_line] at first
  exact absurd first (by decide)

/-- What the first call leaves, and that it has room. -/
theorem luma_of_progressive (wide : width + 7 < 2 ^ 32) (tall : height + 127 < 2 ^ 32) (some_col : 0 < width)
    (some_line : 0 < height) (small : cap < 2 ^ 32) (right : Progressive8 cap width height stride) (src : Memory) :
    reach8 width height ≤ 2 ^ 31 ∧ reach8 width height ≤ cap ∧ width * height + reach8 width (height / 2) ≤ cap ∧
      ∃ mem, tiles8 cap width stride height src 0 (fun _ => 0) = some mem ∧
        ∀ x < width, ∀ y < height, mem (y * width + x : Nat) = src (tileOffset stride x y) := by
  obtain ⟨out, run, luma, -⟩ := right (fun k => if k = 0 then src else fun _ => 0) fun _ => 0
  obtain ⟨mem, read, rest⟩ := progressive_eq_some_iff.mp run
  rw [if_pos rfl] at luma
  rw [if_pos rfl] at read
  have filled := read
  rw [tiles8_eq wide tall] at filled
  have covered : width ≤ 8 * ((width + 7) / 8) := by omega
  have numbers : reach8 width height ≤ 2 ^ 31 :=
    numbers_of_fill int_indexes small rfl covered some_col Nat.one_pos filled
  have bytes := bytes_of_fill int_indexes numbers rfl covered some_col Nat.one_pos (by omega) filled
  have room : reach8 width height ≤ cap := by
    unfold reach8
    omega
  have area : height * width ≤ reach8 width height := le_reach8 some_line (by omega)
  have place : uint (uint ((width : Int) * height) * (1 : Nat)) = width * height := by
    rw [Nat.mul_comm] at area
    rw [← Nat.cast_mul width, uint_natCast (by omega), Nat.cast_one, Int.mul_one, uint_natCast (by omega)]
  rw [place, tiles8_eq wide (by omega)] at rest
  have half : reach8 width (height / 2) ≤ 2 ^ 31 := Nat.le_trans (reach8_mono (Nat.div_le_self ..)) numbers
  refine ⟨numbers, room, ?_, mem, read, fun x col y line => ?_⟩
  · rcases Nat.eq_zero_or_pos (height / 2) with none | some_chroma
    · have empty : reach8 width (height / 2) = 0 := by simp [reach8, none, extent]
      rw [empty, Nat.mul_comm]
      omega
    · have bytes' := bytes_of_fill int_indexes half rfl covered some_col Nat.one_pos (by omega) rest
      unfold reach8
      omega
  · rw [← luma x col y line]
    have inside := @byte_lt 1 height width x y 0 col line Nat.one_pos
    exact (fill_outside int_indexes columns_mono half rest (.inl (by omega))).symm

/-- The byte behind the end of the first line comes after the first one of the second line. -/
theorem tiles8_behind (wide : width + 7 < 2 ^ 32) (tall : height + 127 < 2 ^ 32) (some_line : 0 < height)
    (shape : width % 8 ≠ 0 ∧ 8 < width) (numbers : reach8 width height ≤ 2 ^ 31)
    {mem' : Memory} (read : tiles8 cap width stride height src 0 mem = some mem') :
    mem' width = src (tileOffset stride width 0) := by
  have narrow := @le_reach8 width height 128 some_line (by omega)
  rw [tiles8_eq wide tall] at read
  have inside : (⟨0, width / 8, 0, width⟩ : Spot) ∈ spots 128 (8 * ·) ((width + 7) / 8) ((height + 127) / 128) :=
    mem_spots.mpr ⟨show 0 < (height + 127) / 128 by omega, show width / 8 < (width + 7) / 8 by omega, show 0 < 128 by decide,
      show 8 * (width / 8) ≤ width by omega, show width < 8 * (width / 8 + 1) by omega⟩
  have last := fill_last int_indexes columns_mono numbers read inside (fun s mem_s same =>
    before_of_lost columns_mono mem_s inside rfl (show 8 * ((width + 7) / 8) ≤ 2 * width by omega)
      (show 0 < 8 * 1 ∧ 8 * 1 ≤ width by omega) (show 0 + 1 < 128 by decide) same) Nat.one_pos
  rw [fslAddr8b_eq inside (show 128 * width < 2 ^ 31 by omega) (Nat.two_pow_pos 32)] at last
  simpa only [Spot.place, Spot.row, Nat.zero_mul, Nat.zero_add, Nat.mul_one, Nat.add_zero, pow_zero, Nat.div_one,
    UInt8.ofNat_toNat] using last

/-- The first sample of a strip is read from where the word of its offset says. -/
theorem tiles8_strip (wide : width + 7 < 2 ^ 32) (tall : height + 127 < 2 ^ 32) (some_col : 0 < width)
    (numbers : reach8 width height ≤ 2 ^ 31) {mem' : Memory} {v : Nat} (strip : v < (height + 127) / 128)
    (read : tiles8 cap width stride height src 0 mem = some mem') :
    mem' (v * 128 * width : Nat) = src (uint (stride * 128 * v : Nat)) := by
  rw [tiles8_eq wide tall] at read
  have inside : (⟨v, 0, 0, 0⟩ : Spot) ∈ spots 128 (8 * ·) ((width + 7) / 8) ((height + 127) / 128) :=
    mem_spots.mpr ⟨strip, show 0 < (width + 7) / 8 by omega, show 0 < 128 by decide, Nat.le_refl _, show 0 < 8 * 1 by decide⟩
  have last := fill_last int_indexes columns_mono numbers read inside (fun s mem_s same =>
    before_of_kept columns_mono mem_s inside some_col same (.inr (.inr rfl))) Nat.one_pos
  have addr : fslAddr8b stride ⟨v, 0, 0, 0⟩ = uint (stride * 128 * v : Nat) := by
    unfold fslAddr8b
    dsimp only
    rw [Nat.zero_mul, int_natCast (by decide)]
    omega
  rw [addr] at last
  simpa only [Spot.place, Spot.row, Nat.zero_add, Nat.mul_one, Nat.add_zero, pow_zero, Nat.div_one,
    UInt8.ofNat_toNat] using last

theorem fits_of_progressive (wide : width + 7 < 2 ^ 32) (tall : height + 127 < 2 ^ 32) (some_col : 0 < width)
    (some_line : 0 < height) (small : cap < 2 ^ 32) (right : Progressive8 cap width height stride) :
    Fits8 cap width height stride := by
  have each := luma_of_progressive wide tall some_col some_line small right
  obtain ⟨numbers, room, chroma, -⟩ := each fun _ => 0
  refine ⟨?_, numbers, room, chroma, ?_⟩
  · by_contra bad
    obtain ⟨-, -, -, mem, read, luma⟩ := each fun c => if c = tileOffset stride 0 1 then 1 else 0
    have second := luma 0 some_col 1 (by omega)
    have apart : (tileOffset stride width 0 : Int) ≠ tileOffset stride 0 1 := by
      unfold tileOffset
      omega
    rw [Nat.one_mul, Nat.add_zero, tiles8_behind wide tall some_line (by omega) numbers read, if_neg apart,
      if_pos rfl] at second
    exact absurd second (by decide)
  · by_contra bad
    obtain ⟨-, -, -, mem, read, luma⟩ := each fun c => if c = tileOffset stride 0 ((height - 1) / 128 * 128) then 1 else 0
    have first := luma 0 some_col ((height - 1) / 128 * 128) (by omega)
    have offset : tileOffset stride 0 ((height - 1) / 128 * 128) = stride * 128 * ((height - 1) / 128) := by
      unfold tileOffset
      rw [Nat.mul_div_cancel _ (by decide), Nat.mul_mod_left, Nat.mul_comm]
      omega
    have turned := uint_lt (stride * 128 * ((height - 1) / 128) : Nat)
    rw [Nat.add_zero, tiles8_strip wide tall some_col numbers (by omega) read, offset, if_neg (by omega), if_pos rfl]
      at first
    exact absurd first (by decide)

/-- A picture of samples is right exactly where the tiles end with its lines, or do not come to the
second line, and the numbers hold. -/
theorem progressive8_iff (wide : width < 2 ^ 32) (tall : height < 2 ^ 32) (small : cap < 2 ^ 32) :
    Progressive8 cap width height stride ↔ width = 0 ∨ height = 0 ∨ Fits8 cap width height stride := by
  constructor
  · intro right
    by_cases empty : width = 0 ∨ height = 0
    · exact empty.imp_right .inl
    · obtain ⟨wide', tall'⟩ := counts_of_progressive wide tall (by omega) (by omega) right
      exact .inr (.inr (fits_of_progressive wide' tall' (by omega) (by omega) small right))
  · intro fits
    by_cases empty : width = 0 ∨ height = 0
    · intro nBaseAddr dst
      have none (lines : Nat) (same : lines = height ∨ lines = height / 2) :
          uint ((width : Int) + 7) / 8 = 0 ∨ uint ((lines : Int) + 127) / 128 = 0 := by
        rcases empty with rfl | rfl
        · exact .inl (by unfold uint; decide)
        · have zero : lines = 0 := by omega
          subst zero
          exact .inr (by unfold uint; decide)
      refine ⟨dst, progressive_eq_some_iff.mpr ⟨dst, tiles8_none (none _ (.inl rfl)), tiles8_none (none _ (.inr rfl))⟩, ?_⟩
      rcases empty with rfl | rfl
      · exact ⟨fun x col => absurd col (Nat.not_lt_zero x), fun x col => absurd col (Nat.not_lt_zero x)⟩
      · exact ⟨fun x _ y line => absurd line (Nat.not_lt_zero y), fun x _ y line => absurd line (Nat.not_lt_zero y)⟩
    · have fits : Fits8 cap width height stride := by tauto
      have narrow := @le_reach8 width height 128 (by omega) (by omega)
      have area := @le_reach8 width height height (by omega) (by omega)
      have lines := Nat.le_mul_of_pos_right height (show 0 < width by omega)
      have numbers := fits.numbers
      exact progressive8_of_fits (by omega) (by omega) fits small

theorem progressive8_one_tile : Progressive8 2048 8 128 8 :=
  (progressive8_iff (by decide) (by decide) (by decide)).mpr
    (.inr (.inr ⟨by decide, by decide, by decide, by decide, by decide⟩))

/-- The second tile of the first line takes the first byte of the second line. -/
theorem not_progressive8_nine : ¬ Progressive8 4096 9 2 16 := fun right =>
  absurd (fits_of_progressive (by decide) (by decide) (by decide) (by decide) (by decide) right).shape (by decide)

end Frame

end ImxTest.V4l2Dec
