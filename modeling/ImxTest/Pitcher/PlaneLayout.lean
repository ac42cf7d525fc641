import ImxTest.Pitcher.PictureCopy

/-! The layout of a picture as `pitcher_get_pix_fmt_info` computes it, in 32-bit
numbers, and the layout in whole numbers that it stands for. -/
namespace ImxTest.Pitcher

/-! ## The numbers of a plane -/

/-- `al_w` and `al_h` of `pitcher_get_pix_fmt_info`. -/
def PixFmtInfo.alW (info : PixFmtInfo) : Nat := max (2 ^ info.desc.log2ChromaW) info.desc.tileWs

def PixFmtInfo.alH (info : PixFmtInfo) : Nat :=
  max (2 ^ info.desc.log2ChromaH) info.desc.tileHs * if info.interlaced then 2 else 1

def PixFmtInfo.bppOf (info : PixFmtInfo) (i : Nat) : Nat := info.desc.bpp.getD i 0

def PixFmtInfo.widthOf (info : PixFmtInfo) (i : Nat) : Nat :=
  if i = 0 then align info.width info.alW else align info.width info.alW / 2 ^ info.desc.log2ChromaW

def PixFmtInfo.heightOf (info : PixFmtInfo) (i : Nat) : Nat :=
  let h := if i ≠ 0 ∧ info.desc.tileHs ≠ 0 then align info.height (info.alH * 2 ^ info.desc.log2ChromaH)
    else align info.height info.alH
  if i = 0 then h else h / 2 ^ info.desc.log2ChromaH

def PixFmtInfo.bytesOf (info : PixFmtInfo) (i : Nat) : Nat :=
  if info.bppOf i ≠ 0 then align (info.widthOf i * info.bppOf i) 8 / 8 else info.widthOf i

/-- What a line of plane `i` is a multiple of. -/
def PixFmtInfo.lineAlign (info : PixFmtInfo) (alignment i : Nat) : Nat :=
  let al := if i = 0 then alignment
    else (alignment * info.bppOf i / 2 ^ info.desc.log2ChromaW + info.bppOf 0 - 1) / info.bppOf 0
  if al = 0 then 1 else al

/-! ## In 32 bits -/

namespace Word

def word (n : Nat) : Nat := n % 2 ^ 32

/-- `ALIGN` of two `uint32_t` -/
def align (x a : Nat) : Nat := if x % a = 0 then x else word (x + a - x % a)

/-- A turn of the loop, for plane `i`. -/
def pixPlaneInfo (info : PixFmtInfo) (alignment i : Nat) : PixPlaneInfo :=
  let bpp := info.bppOf i
  let w := align info.width info.alW
  let w := if i = 0 then w else w / 2 ^ info.desc.log2ChromaW
  let h := align info.height info.alH
  let h := if i ≠ 0 ∧ info.desc.tileHs ≠ 0 then
    align info.height (info.alH * 2 ^ info.desc.log2ChromaH) else h
  let h := if i = 0 then h else h / 2 ^ info.desc.log2ChromaH
  let al := if i = 0 then alignment
    else word (word (alignment * bpp) / 2 ^ info.desc.log2ChromaW + info.bppOf 0 - 1) / info.bppOf 0
  let al := if al = 0 then 1 else al
  let line := if bpp ≠ 0 then align (word (w * bpp)) 8 / 8 else w
  let line := align line al
  { line, size := word (line * h) }

/-- The widths, heights and the alignment are `uint32_t`, and so is the sum of
the sizes; `info->size` is a `size_t`. -/
def pitcherGetPixFmtInfo (info : PixFmtInfo) (alignment : Nat) : Option PixFmtInfo :=
  if info.format = .none ∨ info.width = 0 ∨ info.height = 0 then none
  else
    let alignment := if alignment = 0 then 1 else alignment
    let planes := fun i =>
      if i < info.desc.numPlanes then pixPlaneInfo info alignment i else info.planes i
    let size := word ((List.range info.desc.numPlanes).map fun i => (planes i).size).sum
    some { info with
      planes, numPlanes := info.desc.numPlanes, tileWs := info.desc.tileWs
      tileHs := info.desc.tileHs, size := max info.size size }

end Word

/-- No product of the computation is too large for 32 bits. -/
structure NoWrap (info : PixFmtInfo) (alignment : Nat) : Prop where
  bits : ∀ i < info.desc.numPlanes, info.widthOf i * info.bppOf i < 2 ^ 32
  scaled : ∀ i < info.desc.numPlanes, i ≠ 0 → alignment * info.bppOf i < 2 ^ 32
  sizes : ∀ i < info.desc.numPlanes, (pixPlaneInfo info alignment i).size < 2 ^ 32

/-! ## What the descriptors have in common -/

theorem desc_planes {format : PixelFormat} {i : Nat} (below : i < (pixFmtDescriptors format).numPlanes)
    (later : i ≠ 0) :
    (pixFmtDescriptors format).log2ChromaW = 1 ∧ 8 ≤ (pixFmtDescriptors format).bpp.getD 0 0 ∧
      (pixFmtDescriptors format).bpp.getD 0 0 ≤ 16 ∧
      8 ≤ (pixFmtDescriptors format).bpp.getD i 0 := by
  cases format
  all_goals
    simp only [pixFmtDescriptors] at below ⊢
    rcases i with _ | _ | _ | i
    all_goals first | omega | decide

theorem desc_heights (format : PixelFormat) :
    2 ^ (pixFmtDescriptors format).log2ChromaH ∣
        max (2 ^ (pixFmtDescriptors format).log2ChromaH) (pixFmtDescriptors format).tileHs ∧
      (pixFmtDescriptors format).log2ChromaH ≤ 1 := by
  cases format <;> decide

/-- Bits of a line come in whole bytes, or in steps of 20 or 50. -/
theorem desc_bits (format : PixelFormat) (i : Nat) :
    8 ∣ (pixFmtDescriptors format).bpp.getD i 0 ∨ 20 ∣ (pixFmtDescriptors format).bpp.getD i 0 ∨
      (pixFmtDescriptors format).bpp.getD i 0 = 10 ∧ i = 0 ∧
        (2 ∣ max (2 ^ (pixFmtDescriptors format).log2ChromaW) (pixFmtDescriptors format).tileWs ∨
          5 ∣ max (2 ^ (pixFmtDescriptors format).log2ChromaW) (pixFmtDescriptors format).tileWs) := by
  cases format
  all_goals
    simp only [pixFmtDescriptors]
    rcases i with _ | _ | _ | i
    all_goals first | decide | simp

theorem desc_tiled {format : PixelFormat} {i : Nat} (below : i < (pixFmtDescriptors format).numPlanes)
    (later : i ≠ 0) (tiled : (pixFmtDescriptors format).tileHs ≠ 0) :
    16 ≤ (pixFmtDescriptors format).bpp.getD i 0 := by
  cases format
  all_goals
    simp only [pixFmtDescriptors] at below tiled ⊢
    rcases i with _ | _ | _ | i
    all_goals first | omega | decide

theorem desc_linear {format : PixelFormat} (raw : format.compressed = false) (plain : format ≠ .rfc)
    (plainX : format ≠ .rfcx) {i : Nat} (below : i < (pixFmtDescriptors format).numPlanes) :
    8 ≤ (pixFmtDescriptors format).bpp.getD i 0 := by
  cases format
  all_goals
    simp only [pixFmtDescriptors] at below ⊢
    rcases i with _ | _ | _ | i
    all_goals first
      | decide
      | omega
      | exact absurd rfl plain
      | exact absurd rfl plainX
      | exact absurd raw (by decide)

/-! ## The numbers are positive -/

section positive
variable {info : PixFmtInfo} {alignment i : Nat}

theorem align_pos {x a : Nat} (pos : 0 < a) (some_ : 0 < x) : 0 < align x a :=
  Nat.lt_of_lt_of_le some_ (le_align x pos)

theorem le_align_of_pos {x a : Nat} (pos : 0 < a) (some_ : 0 < x) : a ≤ align x a :=
  Nat.le_of_dvd (align_pos pos some_) (align_dvd x pos)

theorem alW_pos (info : PixFmtInfo) : 0 < info.alW :=
  Nat.lt_of_lt_of_le (Nat.two_pow_pos _) (Nat.le_max_left _ _)

theorem alH_pos (info : PixFmtInfo) : 0 < info.alH := by
  have pos : 0 < max (2 ^ info.desc.log2ChromaH) info.desc.tileHs :=
    Nat.lt_of_lt_of_le (Nat.two_pow_pos _) (Nat.le_max_left _ _)
  unfold PixFmtInfo.alH
  split <;> omega

theorem alH_dvd (info : PixFmtInfo) : 2 ^ info.desc.log2ChromaH ∣ info.alH :=
  Nat.dvd_trans (desc_heights info.format).1 (Nat.dvd_mul_right _ _)

theorem lineAlign_pos (info : PixFmtInfo) (alignment i : Nat) : 0 < info.lineAlign alignment i := by
  rw [Nat.pos_iff_ne_zero]
  exact ite_one_ne_zero _

theorem widthOf_pos (wide : 0 < info.width) (below : i < info.desc.numPlanes) : 0 < info.widthOf i := by
  unfold PixFmtInfo.widthOf
  split
  · exact align_pos (alW_pos info) wide
  case isFalse later =>
    have half : info.desc.log2ChromaW = 1 := (desc_planes below later).1
    have two : 2 ^ info.desc.log2ChromaW ≤ info.alW := Nat.le_max_left _ _
    exact Nat.div_pos (Nat.le_trans two (le_align_of_pos (alW_pos info) wide)) (Nat.two_pow_pos _)

theorem bytesOf_pos (wide : 0 < info.width) (below : i < info.desc.numPlanes) : 0 < info.bytesOf i := by
  have width := widthOf_pos wide below
  unfold PixFmtInfo.bytesOf
  split
  case isTrue bits =>
    have some_ : 0 < info.widthOf i * info.bppOf i := Nat.mul_pos width (Nat.pos_of_ne_zero bits)
    exact Nat.div_pos (le_align_of_pos (by decide) some_) (by decide)
  case isFalse => exact width

theorem heightOf_pos (tall : 0 < info.height) (i : Nat) : 0 < info.heightOf i := by
  have pos := alH_pos info
  have least := Nat.le_of_dvd pos (alH_dvd info)
  unfold PixFmtInfo.heightOf
  dsimp only
  split
  · split
    · exact align_pos (Nat.mul_pos pos (Nat.two_pow_pos _)) tall
    · exact align_pos pos tall
  · apply Nat.div_pos ?_ (Nat.two_pow_pos _)
    split
    · have scaled := Nat.le_mul_of_pos_right info.alH (Nat.two_pow_pos info.desc.log2ChromaH)
      exact Nat.le_trans least (Nat.le_trans scaled
        (le_align_of_pos (Nat.mul_pos pos (Nat.two_pow_pos _)) tall))
    · exact Nat.le_trans least (le_align_of_pos pos tall)

theorem pixPlaneInfo_line (info : PixFmtInfo) (alignment i : Nat) :
    (pixPlaneInfo info alignment i).line = align (info.bytesOf i) (info.lineAlign alignment i) := rfl

theorem pixPlaneInfo_size (info : PixFmtInfo) (alignment i : Nat) :
    (pixPlaneInfo info alignment i).size = (pixPlaneInfo info alignment i).line * info.heightOf i := rfl

theorem bytesOf_le_line (info : PixFmtInfo) (alignment i : Nat) :
    info.bytesOf i ≤ (pixPlaneInfo info alignment i).line :=
  le_align _ (lineAlign_pos info alignment i)

end positive

/-! ## Where no product wraps, the layout is the one in whole numbers -/

section noWrap
variable {info : PixFmtInfo} {alignment i : Nat}

theorem Word.word_small {n : Nat} (small : n < 2 ^ 32) : word n = n := Nat.mod_eq_of_lt small

theorem Word.align_small {x a : Nat} (small : Pitcher.align x a < 2 ^ 32) : align x a = Pitcher.align x a := by
  unfold Pitcher.align at small
  unfold Word.align Pitcher.align
  split
  · rfl
  · rw [if_neg (by assumption)] at small
    exact word_small small

theorem NoWrap.line_small (noWrap : NoWrap info alignment) (tall : 0 < info.height)
    (below : i < info.desc.numPlanes) : (pixPlaneInfo info alignment i).line < 2 ^ 32 := by
  have size := noWrap.sizes i below
  rw [pixPlaneInfo_size] at size
  exact Nat.lt_of_le_of_lt (Nat.le_mul_of_pos_right _ (heightOf_pos tall i)) size

theorem NoWrap.height_small (noWrap : NoWrap info alignment) (wide : 0 < info.width)
    (below : i < info.desc.numPlanes) : info.heightOf i < 2 ^ 32 := by
  have size := noWrap.sizes i below
  rw [pixPlaneInfo_size] at size
  have line := Nat.lt_of_lt_of_le (bytesOf_pos wide below) (bytesOf_le_line info alignment i)
  exact Nat.lt_of_le_of_lt (Nat.le_mul_of_pos_left _ line) size

theorem widthOf_le_bytes (info : PixFmtInfo) (blank : info.bppOf i = 0) : info.widthOf i = info.bytesOf i := by
  rw [PixFmtInfo.bytesOf, if_neg (not_not.mpr blank)]

theorem NoWrap.width_small (noWrap : NoWrap info alignment) (tall : 0 < info.height)
    (some_ : 0 < info.desc.numPlanes) : align info.width info.alW < 2 ^ 32 := by
  have width : info.widthOf 0 = align info.width info.alW := if_pos rfl
  rcases Nat.eq_zero_or_pos (info.bppOf 0) with blank | bits
  · have line := noWrap.line_small tall some_
    have bytes := bytesOf_le_line info alignment 0
    rw [← widthOf_le_bytes info blank, width] at bytes
    omega
  · have product := noWrap.bits 0 some_
    rw [width] at product
    exact Nat.lt_of_le_of_lt (Nat.le_mul_of_pos_right _ bits) product

theorem NoWrap.bits_small (noWrap : NoWrap info alignment) (below : i < info.desc.numPlanes) :
    align (info.widthOf i * info.bppOf i) 8 < 2 ^ 32 := by
  have product := noWrap.bits i below
  have steps : 8 ∣ info.widthOf i * info.bppOf i ∨ 20 ∣ info.widthOf i * info.bppOf i ∨
      50 ∣ info.widthOf i * info.bppOf i := by
    rcases desc_bits info.format i with eight | twenty | ⟨ten, rfl, two | five⟩
    · exact .inl (Nat.dvd_mul_left_of_dvd eight _)
    · exact .inr (.inl (Nat.dvd_mul_left_of_dvd twenty _))
    · have even : 2 ∣ info.widthOf 0 := Nat.dvd_trans two (align_dvd _ (alW_pos info))
      rw [PixFmtInfo.bppOf, PixFmtInfo.desc, ten]
      exact .inr (.inl (Nat.mul_dvd_mul even (Nat.dvd_refl 10)))
    · have fifth : 5 ∣ info.widthOf 0 := Nat.dvd_trans five (align_dvd _ (alW_pos info))
      rw [PixFmtInfo.bppOf, PixFmtInfo.desc, ten]
      exact .inr (.inr (Nat.mul_dvd_mul fifth (Nat.dvd_refl 10)))
  unfold align
  split
  · exact product
  · omega

theorem NoWrap.height_word (noWrap : NoWrap info alignment) (wide : 0 < info.width)
    (some_ : 0 < info.desc.numPlanes) : align info.height info.alH < 2 ^ 32 :=
  noWrap.height_small (i := 0) wide some_

/-- The chroma lines of tiles are at least two bytes. -/
theorem NoWrap.tall_small (noWrap : NoWrap info alignment) (wide : 0 < info.width)
    (below : i < info.desc.numPlanes) (later : i ≠ 0) (tiled : info.desc.tileHs ≠ 0) :
    align info.height (info.alH * 2 ^ info.desc.log2ChromaH) < 2 ^ 32 := by
  have scale : 2 ^ info.desc.log2ChromaH ≤ 2 := Nat.pow_le_pow_right (by decide) (desc_heights info.format).2
  have bits : 16 ≤ info.bppOf i := desc_tiled below later tiled
  have width := widthOf_pos wide below
  have line : 2 ≤ (pixPlaneInfo info alignment i).line := by
    apply Nat.le_trans ?_ (bytesOf_le_line info alignment i)
    have product : 16 ≤ info.widthOf i * info.bppOf i :=
      Nat.le_trans bits (Nat.le_mul_of_pos_left _ width)
    have whole := le_align (info.widthOf i * info.bppOf i) (show 0 < 8 by decide)
    rw [PixFmtInfo.bytesOf, if_pos (by omega)]
    omega
  have rows : align info.height (info.alH * 2 ^ info.desc.log2ChromaH) =
      2 ^ info.desc.log2ChromaH * info.heightOf i := by
    rw [PixFmtInfo.heightOf, if_neg later, if_pos ⟨later, tiled⟩, Nat.mul_div_cancel']
    apply Nat.dvd_trans (Nat.dvd_mul_left _ _)
    exact align_dvd _ (Nat.mul_pos (alH_pos info) (Nat.two_pow_pos _))
  rw [rows]
  have size := noWrap.sizes i below
  rw [pixPlaneInfo_size] at size
  exact Nat.lt_of_le_of_lt (Nat.mul_le_mul_right _ (Nat.le_trans scale line)) size

/-- The scaled alignment of a chroma plane. -/
theorem NoWrap.scaled_small (noWrap : NoWrap info alignment) (below : i < info.desc.numPlanes)
    (later : i ≠ 0) :
    Word.word (Word.word (alignment * info.bppOf i) / 2 ^ info.desc.log2ChromaW + info.bppOf 0 - 1) =
      alignment * info.bppOf i / 2 ^ info.desc.log2ChromaW + info.bppOf 0 - 1 := by
  obtain ⟨half, least, most, -⟩ := desc_planes below later
  have product := noWrap.scaled i below later
  have bits : info.bppOf 0 ≤ 16 := most
  have wide : info.desc.log2ChromaW = 1 := half
  rw [Word.word_small product, wide, Word.word_small (by omega)]

theorem word_plane (noWrap : NoWrap info alignment) (wide : 0 < info.width) (tall : 0 < info.height)
    (below : i < info.desc.numPlanes) :
    Word.pixPlaneInfo info alignment i = pixPlaneInfo info alignment i := by
  have some_ : 0 < info.desc.numPlanes := Nat.lt_of_le_of_lt (Nat.zero_le i) below
  have line := noWrap.line_small tall below
  have size := noWrap.sizes i below
  rw [pixPlaneInfo_line] at line
  rw [pixPlaneInfo_size, pixPlaneInfo_line] at size
  have width := Word.align_small (noWrap.width_small tall some_)
  have height := Word.align_small (noWrap.height_word wide some_)
  have product := noWrap.bits i below
  have bits := Word.align_small (noWrap.bits_small below)
  have lines := Word.align_small line
  -- each number of the computation is small
  have columns : (if i = 0 then Word.align info.width info.alW
      else Word.align info.width info.alW / 2 ^ info.desc.log2ChromaW) = info.widthOf i := by
    rw [width]
    rfl
  have rows : (if i = 0 then
        if i ≠ 0 ∧ info.desc.tileHs ≠ 0 then
          Word.align info.height (info.alH * 2 ^ info.desc.log2ChromaH)
        else Word.align info.height info.alH
      else
        (if i ≠ 0 ∧ info.desc.tileHs ≠ 0 then
          Word.align info.height (info.alH * 2 ^ info.desc.log2ChromaH)
        else Word.align info.height info.alH) / 2 ^ info.desc.log2ChromaH) = info.heightOf i := by
    unfold PixFmtInfo.heightOf
    dsimp only
    by_cases tiles : i ≠ 0 ∧ info.desc.tileHs ≠ 0
    · rw [if_pos tiles, if_pos tiles, Word.align_small (noWrap.tall_small wide below tiles.1 tiles.2)]
    · rw [if_neg tiles, if_neg tiles, height]
  have aligned : (let al := if i = 0 then alignment
        else Word.word (Word.word (alignment * info.bppOf i) / 2 ^ info.desc.log2ChromaW +
          info.bppOf 0 - 1) / info.bppOf 0
      if al = 0 then 1 else al) = info.lineAlign alignment i := by
    unfold PixFmtInfo.lineAlign
    by_cases first : i = 0
    · rw [if_pos first, if_pos first]
    · rw [if_neg first, if_neg first, noWrap.scaled_small below first]
  have bytes : (if info.bppOf i ≠ 0 then
        Word.align (Word.word (info.widthOf i * info.bppOf i)) 8 / 8 else info.widthOf i) =
      info.bytesOf i := by
    rw [Word.word_small product, bits]
    rfl
  unfold Word.pixPlaneInfo
  dsimp only at aligned ⊢
  rw [columns, rows, aligned, bytes, lines, Word.word_small size]
  rfl

/-- The layout of a picture with no such product, and with a sum of the sizes that fits. -/
theorem word_layout (noWrap : NoWrap info (if alignment = 0 then 1 else alignment))
    (sum : ((List.range info.desc.numPlanes).map fun i =>
      (pixPlaneInfo info (if alignment = 0 then 1 else alignment) i).size).sum < 2 ^ 32) :
    Word.pitcherGetPixFmtInfo info alignment = pitcherGetPixFmtInfo info alignment := by
  unfold Word.pitcherGetPixFmtInfo pitcherGetPixFmtInfo
  split
  · rfl
  case isFalse good =>
    have wide : 0 < info.width := by omega
    have tall : 0 < info.height := by omega
    have planes : (fun i => if i < info.desc.numPlanes then
          Word.pixPlaneInfo info (if alignment = 0 then 1 else alignment) i else info.planes i) =
        fun i => if i < info.desc.numPlanes then
          pixPlaneInfo info (if alignment = 0 then 1 else alignment) i else info.planes i := by
      funext i
      split
      · exact word_plane noWrap wide tall (by assumption)
      · rfl
    have sizes (f : Nat → PixPlaneInfo) : ((List.range info.desc.numPlanes).map fun i =>
          (if i < info.desc.numPlanes then f i else info.planes i).size) =
        (List.range info.desc.numPlanes).map fun i => (f i).size := by
      apply List.map_congr_left
      intro i mem
      rw [if_pos (List.mem_range.mp mem)]
    have same : ((List.range info.desc.numPlanes).map fun i =>
          (Word.pixPlaneInfo info (if alignment = 0 then 1 else alignment) i).size) =
        (List.range info.desc.numPlanes).map fun i =>
          (pixPlaneInfo info (if alignment = 0 then 1 else alignment) i).size := by
      apply List.map_congr_left
      intro i mem
      rw [word_plane noWrap wide tall (List.mem_range.mp mem)]
    simp only [planes, sizes, same, Word.word_small sum]

end noWrap

/-! ## The layout of a format without tiles -/

/-- `DIV_ROUND_UP` -/
def divRoundUp (n d : Nat) : Nat := (n + d - 1) / d

theorem divRoundUp_le {n m d : Nat} (pos : 0 < d) (bound : n ≤ m) (multiple : d ∣ m) :
    divRoundUp n d ≤ m / d := by
  obtain ⟨q, rfl⟩ := multiple
  rw [divRoundUp, Nat.mul_div_cancel_left q pos]
  apply Nat.le_of_lt_succ
  apply Nat.div_lt_of_lt_mul
  rw [Nat.mul_succ]
  omega

/-- The columns and rows of samples that plane `i` has for a picture. -/
def PixFmtInfo.columns (info : PixFmtInfo) (i : Nat) : Nat :=
  divRoundUp info.width (if i = 0 then 1 else 2 ^ info.desc.log2ChromaW)

def PixFmtInfo.rows (info : PixFmtInfo) (i : Nat) : Nat :=
  divRoundUp info.height (if i = 0 then 1 else 2 ^ info.desc.log2ChromaH)

/-- The planes have room for a picture, in lines of the alignment. -/
structure RoomFor (info : PixFmtInfo) (alignment : Nat) (fmt : PixFmtInfo) : Prop where
  aligned : (if alignment = 0 then 1 else alignment) ∣ (fmt.planes 0).line
  wide : ∀ i < fmt.numPlanes, info.columns i * info.bppOf i ≤ (fmt.planes i).line * 8
  tall : ∀ i < fmt.numPlanes, info.rows i ≤ (fmt.planes i).size / (fmt.planes i).line
  fields : info.interlaced → ∀ i < fmt.numPlanes,
    2 * (if i = 0 then 2 ^ info.desc.log2ChromaH else 1) ∣ (fmt.planes i).size / (fmt.planes i).line
  whole : ((List.range fmt.numPlanes).map fun i => (fmt.planes i).size).sum < 2 ^ 32 →
    ((List.range fmt.numPlanes).map fun i => (fmt.planes i).size).sum ≤ fmt.size

/-- The chroma lines of a 4:2:0 format are as long as its luma lines, for their samples. -/
def ChromaKept (info fmt : PixFmtInfo) : Prop :=
  info.desc.log2ChromaW = 1 → info.desc.log2ChromaH = 1 →
    ∀ i < fmt.numPlanes, i ≠ 0 →
      (fmt.planes 0).line * info.bppOf i ≤ (fmt.planes i).line * info.bppOf 0 * 2 ^ info.desc.log2ChromaW

theorem desc_untiled {format : PixelFormat} (flat : (pixFmtDescriptors format).tileHs = 0) :
    (pixFmtDescriptors format).tileWs = 0 := by
  cases format
  all_goals first | rfl | (simp [pixFmtDescriptors] at flat)

theorem desc_chroma {format : PixelFormat} {i : Nat} (below : i < (pixFmtDescriptors format).numPlanes)
    (later : i ≠ 0) (plain : (pixFmtDescriptors format).tileHs = 0) :
    (pixFmtDescriptors format).numPlanes = 2 ∧
        (pixFmtDescriptors format).bpp.getD i 0 = 2 * (pixFmtDescriptors format).bpp.getD 0 0 ∨
      (pixFmtDescriptors format).numPlanes = 3 ∧
        (pixFmtDescriptors format).bpp.getD i 0 = (pixFmtDescriptors format).bpp.getD 0 0 ∧
        8 ∣ (pixFmtDescriptors format).bpp.getD 0 0 := by
  cases format
  all_goals
    simp only [pixFmtDescriptors] at below plain ⊢
    rcases i with _ | _ | _ | i
    all_goals first | omega | decide

section untiled
variable {info : PixFmtInfo} {alignment i : Nat}

theorem columns_bytes (plain : info.desc.tileHs = 0) :
    info.columns i * info.bppOf i ≤ info.bytesOf i * 8 := by
  rcases Nat.eq_zero_or_pos (info.bppOf i) with blank | bits
  · rw [blank, Nat.mul_zero]
    exact Nat.zero_le _
  have columns : info.columns i ≤ info.widthOf i := by
    unfold PixFmtInfo.columns PixFmtInfo.widthOf
    have wide := le_align info.width (alW_pos info)
    split
    · rw [divRoundUp, Nat.div_one]
      exact wide
    · apply divRoundUp_le (Nat.two_pow_pos _) wide
      have same : info.alW = 2 ^ info.desc.log2ChromaW := by
        rw [PixFmtInfo.alW, PixFmtInfo.desc, desc_untiled plain, Nat.max_eq_left (Nat.zero_le _)]
      rw [← same]
      exact align_dvd _ (alW_pos info)
  have bytes := le_align (info.widthOf i * info.bppOf i) (show 0 < 8 by decide)
  have whole := Nat.div_mul_cancel (align_dvd (info.widthOf i * info.bppOf i) (show 0 < 8 by decide))
  rw [PixFmtInfo.bytesOf, if_pos (Nat.ne_of_gt bits), whole]
  exact Nat.le_trans (Nat.mul_le_mul_right _ columns) bytes

theorem heightOf_untiled (plain : info.desc.tileHs = 0) :
    info.heightOf i = align info.height info.alH / if i = 0 then 1 else 2 ^ info.desc.log2ChromaH := by
  have flat : ¬(i ≠ 0 ∧ info.desc.tileHs ≠ 0) := fun tiles => tiles.2 plain
  unfold PixFmtInfo.heightOf
  dsimp only
  rw [if_neg flat]
  by_cases first : i = 0
  · rw [if_pos first, if_pos first, Nat.div_one]
  · rw [if_neg first, if_neg first]

theorem alH_untiled (plain : info.desc.tileHs = 0) :
    info.alH = 2 ^ info.desc.log2ChromaH * if info.interlaced then 2 else 1 := by
  rw [PixFmtInfo.alH, plain, Nat.max_eq_left (Nat.zero_le _)]

theorem rows_le (plain : info.desc.tileHs = 0) : info.rows i ≤ info.heightOf i := by
  rw [heightOf_untiled plain]
  unfold PixFmtInfo.rows
  apply divRoundUp_le
  · split
    · exact Nat.one_pos
    · exact Nat.two_pow_pos _
  · exact le_align _ (alH_pos info)
  · split
    · exact Nat.one_dvd _
    · exact Nat.dvd_trans (alH_dvd info) (align_dvd _ (alH_pos info))

theorem fields_even (plain : info.desc.tileHs = 0) (fields : info.interlaced = true) :
    2 * (if i = 0 then 2 ^ info.desc.log2ChromaH else 1) ∣ info.heightOf i := by
  obtain ⟨q, rows⟩ := align_dvd info.height (alH_pos info)
  rw [heightOf_untiled plain, rows, alH_untiled plain, if_pos fields]
  split
  · rw [Nat.div_one, Nat.mul_comm 2]
    exact Nat.dvd_mul_right _ _
  · rw [Nat.mul_assoc, Nat.mul_div_cancel_left _ (Nat.two_pow_pos _), Nat.mul_one]
    exact Nat.dvd_mul_right _ _

theorem size_div_line (wide : 0 < info.width) (below : i < info.desc.numPlanes) :
    (pixPlaneInfo info alignment i).size / (pixPlaneInfo info alignment i).line = info.heightOf i := by
  rw [pixPlaneInfo_size]
  apply Nat.mul_div_cancel_left
  exact Nat.lt_of_lt_of_le (bytesOf_pos wide below) (bytesOf_le_line info alignment i)

theorem align_double (x a : Nat) : align (2 * x) (2 * a) = 2 * align x a := by
  unfold align
  rw [Nat.mul_mod_mul_left]
  split
  · rw [if_pos (by omega)]
  · rw [if_neg (by omega), Nat.mul_sub, Nat.mul_add]

theorem align_one (x : Nat) : align x 1 = x := if_pos (Nat.mod_one x)

/-- The lines of interleaved chroma are those of the luma. -/
theorem interleaved_line (below : i < info.desc.numPlanes) (later : i ≠ 0) (plain : info.desc.tileHs = 0)
    (bits : info.bppOf i = 2 * info.bppOf 0) :
    (pixPlaneInfo info alignment i).line = (pixPlaneInfo info alignment 0).line := by
  obtain ⟨half, least, -, -⟩ := desc_planes below later
  have wide : info.desc.log2ChromaW = 1 := half
  have positive : 0 < info.bppOf 0 := Nat.lt_of_lt_of_le (by decide) least
  have even : 2 ∣ align info.width info.alW := by
    have columns : info.alW = 2 := by
      rw [PixFmtInfo.alW, wide, PixFmtInfo.desc, desc_untiled plain]
      rfl
    rw [columns]
    exact align_dvd _ (by decide)
  have bytes : info.bytesOf i = info.bytesOf 0 := by
    have product : info.widthOf i * info.bppOf i = info.widthOf 0 * info.bppOf 0 := by
      unfold PixFmtInfo.widthOf
      rw [if_neg later, if_pos rfl, wide, Nat.pow_one, bits, ← Nat.mul_assoc, Nat.div_mul_cancel even]
    rw [PixFmtInfo.bytesOf, PixFmtInfo.bytesOf, product, if_pos (by omega), if_pos (by omega)]
  have aligned : info.lineAlign alignment i = info.lineAlign alignment 0 := by
    have scaled : (alignment * info.bppOf i / 2 ^ info.desc.log2ChromaW + info.bppOf 0 - 1) / info.bppOf 0 =
        alignment := by
      rw [wide, Nat.pow_one, bits, Nat.mul_left_comm, Nat.mul_div_cancel_left _ (by decide),
        Nat.add_sub_assoc positive, Nat.mul_comm, Nat.mul_add_div positive, Nat.div_eq_of_lt (by omega)]
      rfl
    rw [PixFmtInfo.lineAlign, PixFmtInfo.lineAlign, if_neg later, if_pos rfl, scaled]
  rw [pixPlaneInfo_line, pixPlaneInfo_line, bytes, aligned]

/-- The rows of separate chroma planes are half as long as those of the luma. -/
theorem separate_bytes (below : i < info.desc.numPlanes) (later : i ≠ 0) (plain : info.desc.tileHs = 0)
    (bits : info.bppOf i = info.bppOf 0) (bytes : 8 ∣ info.bppOf 0) :
    info.bytesOf 0 = 2 * info.bytesOf i := by
  obtain ⟨half, least, -, -⟩ := desc_planes below later
  have wide : info.desc.log2ChromaW = 1 := half
  have positive : 0 < info.bppOf 0 := Nat.lt_of_lt_of_le (by decide) least
  obtain ⟨b, eight⟩ := bytes
  obtain ⟨x, columns⟩ : 2 ∣ align info.width info.alW := by
    have columns : info.alW = 2 := by
      rw [PixFmtInfo.alW, wide, PixFmtInfo.desc, desc_untiled plain]
      rfl
    rw [columns]
    exact align_dvd _ (by decide)
  have whole (n : Nat) : align (n * (8 * b)) 8 / 8 = n * b := by
    rw [align, if_pos (by rw [Nat.mul_left_comm]; exact Nat.mul_mod_right ..), Nat.mul_left_comm,
      Nat.mul_div_cancel_left _ (by decide)]
  have first : info.bytesOf 0 = 2 * (x * b) := by
    rw [PixFmtInfo.bytesOf, if_pos (by omega), eight, whole, PixFmtInfo.widthOf, if_pos rfl, columns,
      Nat.mul_assoc]
  have second : info.bytesOf i = x * b := by
    rw [PixFmtInfo.bytesOf, if_pos (by omega), bits, eight, whole, PixFmtInfo.widthOf, if_neg later, columns,
      wide, Nat.pow_one, Nat.mul_div_cancel_left _ (by decide)]
  rw [first, second]

/-- Half of the alignment, rounded up. -/
theorem half_alignment {bits : Nat} (several : 2 ≤ bits) (a : Nat) :
    (a * bits / 2 + bits - 1) / bits = (a + 1) / 2 := by
  have positive : 0 < bits := by omega
  rcases Nat.even_or_odd' a with ⟨c, rfl | rfl⟩
  · rw [Nat.mul_assoc, Nat.mul_div_cancel_left _ (by decide), Nat.add_sub_assoc positive, Nat.mul_comm c,
      Nat.mul_add_div positive, Nat.div_eq_of_lt (by omega)]
    omega
  · rw [Nat.succ_mul, Nat.mul_assoc, Nat.mul_add_div (by decide), Nat.add_assoc, Nat.add_sub_assoc (by omega),
      Nat.mul_comm c, Nat.mul_add_div positive, show bits / 2 + bits - 1 = bits * 1 + (bits / 2 - 1) by omega,
      Nat.mul_add_div positive, Nat.div_eq_of_lt (by omega)]
    omega

/-- The lines of separate chroma planes are half those of the luma, for an even alignment or none. -/
theorem separate_line (below : i < info.desc.numPlanes) (later : i ≠ 0) (plain : info.desc.tileHs = 0)
    (bits : info.bppOf i = info.bppOf 0) (bytes : 8 ∣ info.bppOf 0)
    (even : alignment = 1 ∨ (2 ∣ alignment ∧ alignment ≠ 0)) :
    (pixPlaneInfo info alignment 0).line = 2 * (pixPlaneInfo info alignment i).line := by
  obtain ⟨half, least, -, -⟩ := desc_planes below later
  have wide : info.desc.log2ChromaW = 1 := half
  have several : 2 ≤ info.bppOf 0 := Nat.le_trans (by decide) least
  have scaled : (alignment * info.bppOf i / 2 ^ info.desc.log2ChromaW + info.bppOf 0 - 1) / info.bppOf 0 =
      (alignment + 1) / 2 := by
    rw [wide, bits]
    exact half_alignment several alignment
  rw [pixPlaneInfo_line, pixPlaneInfo_line, separate_bytes below later plain bits bytes,
    PixFmtInfo.lineAlign, PixFmtInfo.lineAlign, if_pos rfl, if_neg later, scaled]
  rcases even with rfl | ⟨⟨a, rfl⟩, some_⟩
  · rw [if_neg Nat.one_ne_zero, align_one]
    exact congrArg (2 * ·) (align_one _).symm
  · rw [show (2 * a + 1) / 2 = a by omega, if_neg some_, if_neg (by omega), align_double]

theorem align_lt (x : Nat) {a : Nat} (pos : 0 < a) : align x a < x + a := by
  have rest := Nat.mod_lt x pos
  unfold align
  split <;> omega

/-- They are never longer. -/
theorem separate_line_le (wide : 0 < info.width) (below : i < info.desc.numPlanes) (later : i ≠ 0)
    (plain : info.desc.tileHs = 0) (bits : info.bppOf i = info.bppOf 0) (bytes : 8 ∣ info.bppOf 0) :
    (pixPlaneInfo info alignment i).line ≤ (pixPlaneInfo info alignment 0).line := by
  obtain ⟨half, least, -, -⟩ := desc_planes below later
  have across : info.desc.log2ChromaW = 1 := half
  have several : 2 ≤ info.bppOf 0 := Nat.le_trans (by decide) least
  have double := separate_bytes below later plain bits bytes
  have aligned : info.lineAlign alignment i ≤ (info.lineAlign alignment 0 + 1) / 2 := by
    rw [PixFmtInfo.lineAlign, PixFmtInfo.lineAlign, if_neg later, if_pos rfl, bits, across, Nat.pow_one,
      half_alignment several]
    split <;> split <;> omega
  have short := align_lt (info.bytesOf i) (lineAlign_pos info alignment i)
  have bytes := bytesOf_le_line info alignment 0
  have step := le_align_of_pos (lineAlign_pos info alignment 0) (bytesOf_pos wide (by omega : 0 < info.desc.numPlanes))
  rw [pixPlaneInfo_line] at bytes
  rw [pixPlaneInfo_line, pixPlaneInfo_line]
  omega

end untiled

/-- What the computation in 32 bits makes of a format without tiles. -/
theorem word_planes {info fmt : PixFmtInfo} {alignment : Nat}
    (noWrap : NoWrap info (if alignment = 0 then 1 else alignment))
    (made : Word.pitcherGetPixFmtInfo info alignment = some fmt) :
    0 < info.width ∧ 0 < info.height ∧ fmt.numPlanes = info.desc.numPlanes ∧
      (∀ i < fmt.numPlanes,
        fmt.planes i = pixPlaneInfo info (if alignment = 0 then 1 else alignment) i) ∧
      Word.word ((List.range fmt.numPlanes).map fun i => (fmt.planes i).size).sum ≤ fmt.size := by
  unfold Word.pitcherGetPixFmtInfo at made
  split at made
  · cases made
  case isFalse good =>
    have wide : 0 < info.width := by omega
    have tall : 0 < info.height := by omega
    cases Option.some.inj made
    refine ⟨wide, tall, rfl, ?_, Nat.le_max_right _ _⟩
    intro i below
    dsimp only at below ⊢
    rw [if_pos below, word_plane noWrap wide tall below]

/-- Every format without tiles gets lines and rows for the picture, of the alignment,
and chroma lines that match the luma, if chroma is interleaved or the alignment even. -/
theorem pitcherGetPixFmtInfo_linear (info : PixFmtInfo) (alignment : Nat)
    (uncompressed : info.format.compressed = false)
    (plain : info.desc.tileWs = 0 ∧ info.desc.tileHs = 0)
    (noWrap : NoWrap info (if alignment = 0 then 1 else alignment)) (fmt : PixFmtInfo)
    (made : Word.pitcherGetPixFmtInfo info alignment = some fmt) :
    RoomFor info alignment fmt ∧
      (info.desc.numPlanes = 2 ∨ alignment ≤ 1 ∨ 2 ∣ alignment → ChromaKept info fmt) := by
  obtain ⟨wide, tall, count, planes, sum⟩ := word_planes noWrap made
  have some_ : 0 < info.desc.numPlanes := by
    rcases Nat.eq_zero_or_pos info.desc.numPlanes with none_ | more
    · unfold PixFmtInfo.desc at none_
      revert uncompressed none_
      cases info.format <;> simp [PixelFormat.compressed, pixFmtDescriptors]
    · exact more
  refine ⟨⟨?_, ?_, ?_, ?_, ?_⟩, ?_⟩
  case refine_1 =>
    rw [planes 0 (by omega), pixPlaneInfo_line, PixFmtInfo.lineAlign, if_pos rfl, if_neg (ite_one_ne_zero _)]
    exact align_dvd _ (Nat.pos_of_ne_zero (ite_one_ne_zero _))
  case refine_2 =>
    intro i below
    rw [planes i below]
    exact Nat.le_trans (columns_bytes plain.2)
      (Nat.mul_le_mul_right 8 (bytesOf_le_line info _ i))
  case refine_3 =>
    intro i below
    rw [planes i below, size_div_line wide (by omega)]
    exact rows_le plain.2
  case refine_4 =>
    intro fields i below
    rw [planes i below, size_div_line wide (by omega)]
    exact fields_even plain.2 fields
  case refine_5 =>
    intro small
    rwa [Word.word_small small] at sum
  case refine_6 =>
    intro fits columns lines i below later
    rw [planes i below, planes 0 (by omega), columns]
    rcases desc_chroma (by omega : i < info.desc.numPlanes) later plain.2 with ⟨-, bits⟩ | ⟨three, bits, bytes⟩
    · have bits : info.bppOf i = 2 * info.bppOf 0 := bits
      apply Nat.le_of_eq
      rw [interleaved_line (by omega) later plain.2 bits, bits, Nat.mul_assoc, Nat.mul_comm (info.bppOf 0),
        Nat.pow_one]
    · have bits : info.bppOf i = info.bppOf 0 := bits
      have three : info.desc.numPlanes = 3 := three
      have even : (if alignment = 0 then 1 else alignment) = 1 ∨
          (2 ∣ (if alignment = 0 then 1 else alignment) ∧ (if alignment = 0 then 1 else alignment) ≠ 0) := by
        split <;> omega
      apply Nat.le_of_eq
      rw [separate_line (by omega) later plain.2 bits bytes even, bits, Nat.mul_assoc, Nat.mul_comm 2,
        Nat.mul_assoc, Nat.mul_assoc, Nat.pow_one]

/-- A picture of 6x2 samples in I420, in lines of multiples of 4 bytes. -/
theorem pitcherGetPixFmtInfo_linear_i420 :
    ∃ fmt, Word.pitcherGetPixFmtInfo { format := .i420, width := 6, height := 2 } 4 = some fmt ∧
      RoomFor { format := .i420, width := 6, height := 2 } 4 fmt ∧
      (3 = 2 ∨ 4 ≤ 1 ∨ 2 ∣ 4 → ChromaKept { format := .i420, width := 6, height := 2 } fmt) :=
  ⟨_, rfl, pitcherGetPixFmtInfo_linear { format := .i420, width := 6, height := 2 } 4 rfl ⟨rfl, rfl⟩
    ⟨by decide, by decide, by decide⟩ _ rfl⟩

/-- In lines of multiples of 3 bytes the chroma of I420 gets too little; and the sum
of the sizes wraps where each of them fits. -/
theorem pitcherGetPixFmtInfo_odd :
    (∃ fmt, Word.pitcherGetPixFmtInfo { format := .i420, width := 4, height := 4 } 3 = some fmt ∧
      NoWrap { format := .i420, width := 4, height := 4 } 3 ∧ 3 ∣ (fmt.planes 0).line ∧
      ¬ ChromaKept { format := .i420, width := 4, height := 4 } fmt) ∧
    ∃ fmt, Word.pitcherGetPixFmtInfo { format := .nv12, width := 65536, height := 65534 } 1 = some fmt ∧
      NoWrap { format := .nv12, width := 65536, height := 65534 } 1 ∧
      fmt.size < ((List.range fmt.numPlanes).map fun i => (fmt.planes i).size).sum := by
  refine ⟨⟨_, rfl, ⟨by decide, by decide, by decide⟩, by decide, ?_⟩,
    ⟨_, rfl, ⟨by decide, by decide, by decide⟩, by decide⟩⟩
  intro kept
  exact absurd (kept rfl rfl 1 (by decide) (by decide)) (by decide)

end ImxTest.Pitcher
