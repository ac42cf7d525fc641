import ImxTest.Pitcher.Tiles
import ImxTest.Pitcher.PlaneViews

/-! Whether the tiles that the conversions read lie in the planes that the layout
gives a picture of that format. -/
namespace ImxTest.Pitcher.Tiles

open Lib.Copy
open Word (word)

/-! ## The layout of tiles -/

/-- The formats of tiles of eight bytes and 128 rows. -/
def Tiled (info : PixFmtInfo) : Prop := info.format = .nv12_8l128 ∨ info.format = .nv12_10be_8l128

/-- A format with planes as `pitcher_get_pix_fmt_info` computes them from `info`. -/
structure Laid (info fmt : PixFmtInfo) (alignment : Nat) : Prop where
  format : fmt.format = info.format
  width : fmt.width = info.width
  height : fmt.height = info.height
  interlaced : fmt.interlaced = info.interlaced
  numPlanes : fmt.numPlanes = 2
  tileWs : fmt.tileWs = 8
  tileHs : fmt.tileHs = 128
  planes : ∀ i < 2, fmt.planes i = pixPlaneInfo info alignment i
  small : ∀ i < 2, (fmt.planes i).size < 2 ^ 32
  wide : 0 < info.width
  tall : 0 < info.height

section Layout
variable {info fmt : PixFmtInfo} {alignment i : Nat}

theorem Tiled.desc (tiled : Tiled info) :
    info.desc.numPlanes = 2 ∧ info.desc.tileWs = 8 ∧ info.desc.tileHs = 128 ∧ info.desc.log2ChromaW = 1 ∧
      info.desc.log2ChromaH = 1 ∧ info.bppOf 1 = 2 * info.bppOf 0 ∧
      (info.bppOf 0 = 8 ∨ info.bppOf 0 = 10) := by
  unfold PixFmtInfo.bppOf PixFmtInfo.desc
  rcases tiled with eight | ten
  · rw [eight]
    decide
  · rw [ten]
    decide

theorem Tiled.laid (tiled : Tiled info) (noWrap : NoWrap info (if alignment = 0 then 1 else alignment))
    (made : Word.pitcherGetPixFmtInfo info alignment = some fmt) :
    Laid info fmt (if alignment = 0 then 1 else alignment) := by
  obtain ⟨two, columns, rows, -⟩ := tiled.desc
  obtain ⟨wide, tall, count, planes, -⟩ := word_planes noWrap made
  have sizes : ∀ i < 2, fmt.planes i = pixPlaneInfo info (if alignment = 0 then 1 else alignment) i :=
    fun i below => planes i (by omega)
  unfold Word.pitcherGetPixFmtInfo at made
  split at made
  · cases made
  case isFalse =>
    cases Option.some.inj made
    refine ⟨rfl, rfl, rfl, rfl, two, columns, rows, sizes, ?_, wide, tall⟩
    intro i below
    rw [sizes i below]
    exact noWrap.sizes i (by omega)

/-- A line has whole columns of tiles, of eight samples each, for the picture. -/
theorem Tiled.bytesOf (tiled : Tiled info) (below : i < 2) :
    ∃ k, info.width ≤ 8 * k ∧ info.bytesOf i = info.bppOf 0 * k := by
  obtain ⟨-, columns, -, half, -, chroma, depth⟩ := tiled.desc
  have eight : info.alW = 8 := by
    rw [PixFmtInfo.alW, columns, half]
    rfl
  obtain ⟨k, whole⟩ := align_dvd info.width (show 0 < 8 by decide)
  refine ⟨k, whole ▸ le_align info.width (by decide), ?_⟩
  have product : info.widthOf i * info.bppOf i = 8 * (info.bppOf 0 * k) := by
    unfold PixFmtInfo.widthOf
    rw [eight, whole, half]
    split
    case isTrue first =>
      rw [first, Nat.mul_assoc, Nat.mul_comm k]
    case isFalse later =>
      obtain rfl : i = 1 := by omega
      rw [chroma, Nat.pow_one, show 8 * k = 2 * (4 * k) by omega, Nat.mul_div_cancel_left _ (by decide),
        Nat.mul_left_comm, ← Nat.mul_assoc, ← Nat.mul_assoc, Nat.mul_assoc, Nat.mul_comm k]
  have some_ : info.bppOf i ≠ 0 := by
    rcases (show i = 0 ∨ i = 1 by omega) with rfl | rfl <;> omega
  rw [PixFmtInfo.bytesOf, if_pos some_, product, align, if_pos (Nat.mul_mod_right 8 _),
    Nat.mul_div_cancel_left _ (by decide)]

/-- The rows of a field, or of a frame, in plane `i`. -/
def fieldRows (info : PixFmtInfo) (i : Nat) : Nat :=
  let h := if info.interlaced then info.height / 2 else info.height
  if i = 0 then h else divRoundUp h 2

/-- Each field has whole rows of tiles. -/
theorem Tiled.heightOf (tiled : Tiled info) (tall : 0 < info.height) (below : i < 2) :
    (if i = 0 then info.height else divRoundUp info.height 2) ≤ info.heightOf i ∧
      ∃ q, info.heightOf i = (if info.interlaced then 2 else 1) * (128 * q) ∧
        fieldRows info i ≤ 128 * q ∧ 0 < q := by
  obtain ⟨-, -, rows, -, half, -, -⟩ := tiled.desc
  have positive := heightOf_pos tall i
  obtain ⟨fields, unit⟩ : ∃ fields, fields = if info.interlaced then 2 else 1 := ⟨_, rfl⟩
  have high : 0 < 128 * fields := by
    rw [unit]
    split <;> decide
  have lines : info.alH = 128 * fields := by
    rw [PixFmtInfo.alH, rows, half, unit]
    rfl
  have whole : ∃ q, info.heightOf i = 128 * fields * q ∧
      (if i = 0 then info.height else divRoundUp info.height 2) ≤ 128 * fields * q := by
    unfold PixFmtInfo.heightOf divRoundUp
    rw [lines, half, rows]
    rcases (show i = 0 ∨ i = 1 by omega) with rfl | rfl
    · obtain ⟨q, multiple⟩ := align_dvd info.height high
      have bound := le_align info.height high
      refine ⟨q, by simpa using multiple, ?_⟩
      rw [if_pos rfl]
      omega
    · obtain ⟨q, multiple⟩ := align_dvd info.height (show 0 < 128 * fields * 2 by omega)
      have bound := le_align info.height (show 0 < 128 * fields * 2 by omega)
      have double : align info.height (128 * fields * 2) = 2 * (128 * fields * q) := by
        rw [multiple, Nat.mul_comm _ 2, Nat.mul_assoc]
      refine ⟨q, ?_, ?_⟩
      · simp only [ne_eq, Nat.one_ne_zero, not_false_eq_true, true_and, if_false, if_true, Nat.pow_one,
          Nat.reduceEqDiff, double]
        exact Nat.mul_div_cancel_left _ (by decide)
      · rw [if_neg (by decide)]
        omega
  obtain ⟨q, height, bound⟩ := whole
  have some_ : 0 < q := by
    rw [height] at positive
    exact Nat.pos_of_mul_pos_left positive
  refine ⟨height ▸ bound, q, by rw [height, ← unit, Nat.mul_comm 128, Nat.mul_assoc], ?_, some_⟩
  unfold fieldRows divRoundUp at *
  dsimp only
  by_cases interlaced : info.interlaced
  · obtain rfl : fields = 2 := by rw [unit, if_pos interlaced]
    rw [if_pos interlaced]
    rcases (show i = 0 ∨ i = 1 by omega) with rfl | rfl
    · rw [if_pos rfl] at bound ⊢
      omega
    · rw [if_neg (by decide)] at bound ⊢
      omega
  · obtain rfl : fields = 1 := by rw [unit, if_neg interlaced]
    rwa [if_neg interlaced]

end Layout

/-! ## What is read -/

/-- The planes of the buffer have the sizes that the format says. -/
structure Exact (buf : Buffer) (fmt : PixFmtInfo) : Prop where
  known : buf.format = some fmt
  fits : buf.Fits fmt
  sizes : ∀ i < fmt.numPlanes, (buf.view i).size = (fmt.planes i).size

section Eight
variable {info fmt dfmt : PixFmtInfo} {alignment i : Nat} {src : Buffer} {dplane : BufRef} {move : Move}

/-- All tiles of a plane lie in it, and those of a field in its half. -/
theorem reads_unpackPlane (eight : info.format = .nv12_8l128) (laid : Laid info fmt alignment)
    (exact_ : Exact src fmt) (below : i < 2)
    (found : move ∈ unpackPlane (src.view i) dplane fmt dfmt i) : Inside (src.view i) move.src move.n := by
  have tiled : Tiled info := .inl eight
  obtain ⟨-, q, height, room, -⟩ := tiled.heightOf laid.tall below
  obtain ⟨k, wide, bytes⟩ := tiled.bytesOf below
  have depth : info.bppOf 0 = 8 := by
    rw [PixFmtInfo.bppOf, PixFmtInfo.desc, eight]
    rfl
  have line := bytesOf_le_line info alignment i
  have plane := laid.planes i below
  have size := exact_.sizes i (by rw [laid.numPlanes]; exact below)
  rw [plane, pixPlaneInfo_size, height] at size
  rw [bytes, depth, ← plane] at line
  rw [← plane] at size
  have columns : fmt.width ≤ (fmt.planes i).line / 8 * 8 := by
    rw [laid.width]
    omega
  have rows (h : Nat) (upTo : h ≤ 128 * q) (base : Nat) (m : Move) {dst stride offset : Nat}
      (found : m ∈ swcUnpackTile2Nv12 base 8 128 fmt.width h ((fmt.planes i).line / 8) (divRoundUp h 128)
        dst stride offset) : base ≤ m.src ∧ m.src + m.n ≤ base + (fmt.planes i).line * (128 * q) := by
    obtain ⟨least, most⟩ := reads_swcUnpackTile (by decide) columns found
    have tall := divRoundUp_le (show 0 < 128 by decide) upTo (Nat.dvd_mul_right 128 q)
    rw [Nat.mul_div_cancel_left _ (by decide)] at tall
    have across : (fmt.planes i).line / 8 * (8 * 128) ≤ (fmt.planes i).line * 128 := by omega
    have area := Nat.mul_le_mul tall across
    rw [Nat.mul_comm q, Nat.mul_assoc] at area
    exact ⟨least, Nat.le_trans most (Nat.add_le_add_left area base)⟩
  unfold unpackPlane at found
  unfold fieldRows at room
  rw [laid.interlaced, laid.height] at found
  unfold Inside
  by_cases fields : info.interlaced
  · rw [if_pos fields] at found size room
    unfold unpackFields at found
    rw [laid.tileWs, laid.tileHs] at found
    have half : (src.view i).size / 2 = (fmt.planes i).line * (128 * q) := by
      rw [size, Nat.mul_left_comm, Nat.mul_div_cancel_left _ (by decide)]
    rcases List.mem_append.mp found with top | bottom
    · have inside := rows _ room _ move top
      omega
    · have inside := rows _ room _ move bottom
      omega
  · rw [if_neg fields] at found size room
    unfold unpackFrame at found
    rw [laid.tileWs, laid.tileHs] at found
    have inside := rows _ room _ move found
    rw [Nat.one_mul] at size
    omega

end Eight

/-- The last sample that is read of a row of plane `i`, and the last row. -/
def lastColumn (fmt : PixFmtInfo) (i : Nat) : Nat :=
  if i = 0 then fmt.width - 1 else 2 * ((fmt.width - 1) / 2) + 1

def lastLine (fmt : PixFmtInfo) (i : Nat) : Nat := if i = 0 then fmt.height - 1 else (fmt.height - 1) / 2

/-- The byte that the last sample ends in has a place in the plane. -/
def LastInside (fmt : PixFmtInfo) (i : Nat) : Prop :=
  tileByte ((fmt.planes i).line * 128) 8 128 (10 * lastColumn fmt i / 8 + 1) (lastLine fmt i) <
    (fmt.planes i).size

instance (fmt : PixFmtInfo) (i : Nat) : Decidable (LastInside fmt i) := by
  unfold LastInside
  infer_instance

section Ten
variable {info fmt dfmt : PixFmtInfo} {alignment i : Nat} {src dst : Buffer} {fetch : Fetch}

theorem mem_fetches (wide : 0 < fmt.width) (tall : 0 < fmt.height) :
    fetch ∈ fetches src dst fmt dfmt ↔
      ∃ i < 2, ∃ y ≤ lastLine fmt i, ∃ x ≤ lastColumn fmt i, fetch = fetchAt src dst fmt dfmt i y x := by
  unfold fetches lastLine lastColumn
  simp only [List.mem_flatMap, List.mem_range, List.mem_cons]
  constructor
  · rintro ⟨y, row, x, column, rfl | chroma⟩
    · exact ⟨0, by decide, y, by rw [if_pos rfl]; omega, x, by rw [if_pos rfl]; omega, rfl⟩
    · split at chroma
      case isTrue even =>
        simp only [List.mem_cons, List.not_mem_nil, or_false] at chroma
        rcases chroma with rfl | rfl
        · exact ⟨1, by decide, y / 2, by rw [if_neg (by decide)]; omega, x,
            by rw [if_neg (by decide)]; omega, rfl⟩
        · exact ⟨1, by decide, y / 2, by rw [if_neg (by decide)]; omega, x + 1,
            by rw [if_neg (by decide)]; omega, rfl⟩
      case isFalse => cases chroma
  · rintro ⟨i, below, y, row, x, column, rfl⟩
    rcases (show i = 0 ∨ i = 1 by omega) with rfl | rfl
    · rw [if_pos rfl] at row column
      exact ⟨y, by omega, x, by omega, .inl rfl⟩
    · rw [if_neg (by decide)] at row column
      refine ⟨2 * y, by omega, 2 * (x / 2), by omega, .inr ?_⟩
      rw [if_pos (by omega), Nat.mul_div_cancel_left _ (by decide)]
      rcases (show x = 2 * (x / 2) ∨ x = 2 * (x / 2) + 1 by omega) with even | odd
      · rw [← even]
        exact List.mem_cons_self
      · rw [← odd]
        exact List.mem_cons_of_mem _ List.mem_cons_self

theorem tileByte_mono {line x x' y y' : Nat} (long : 8 ≤ line) (columns : x ≤ x') (rows : y ≤ y') :
    tileByte (line * 128) 8 128 x y ≤ tileByte (line * 128) 8 128 x' y' := by
  unfold tileByte
  rcases Nat.eq_or_lt_of_le (Nat.div_le_div_right (c := 128) rows) with same | less
  · rw [same]
    omega
  · have next := Nat.mul_le_mul_right (line * 128) (Nat.succ_le_of_lt less)
    rw [Nat.succ_mul] at next
    omega

variable (ten : info.format = .nv12_10be_8l128) (laid : Laid info fmt alignment) (below : i < 2)
include ten laid below

/-- What is read of a plane has lines and rows of it. -/
theorem lines_ten : 10 * lastColumn fmt i / 8 + 1 < (fmt.planes i).line ∧ 10 ≤ (fmt.planes i).line ∧
    ∃ rows, (fmt.planes i).size = (fmt.planes i).line * rows ∧ 128 ≤ rows ∧ lastLine fmt i < rows := by
  have tiled : Tiled info := .inr ten
  obtain ⟨room, q, height, -, some_⟩ := tiled.heightOf laid.tall below
  obtain ⟨k, wide, bytes⟩ := tiled.bytesOf below
  have depth : info.bppOf 0 = 10 := by
    rw [PixFmtInfo.bppOf, PixFmtInfo.desc, ten]
    rfl
  have line := bytesOf_le_line info alignment i
  have positive := laid.wide
  have tall := laid.tall
  rw [bytes, depth, ← laid.planes i below] at line
  unfold lastColumn lastLine
  rw [laid.width, laid.height]
  refine ⟨?_, by omega, info.heightOf i, ?_, ?_, ?_⟩
  · split <;> omega
  · rw [laid.planes i below, pixPlaneInfo_size]
  · rw [height]
    split <;> omega
  · unfold divRoundUp at room
    split at room <;> split <;> omega

theorem fetchAt_eq (exact_ : Exact src fmt) {x y : Nat} (column : x ≤ lastColumn fmt i)
    (row : y ≤ lastLine fmt i) :
    let fetch := fetchAt src dst fmt dfmt i y x
    fetch.plane = i ∧
      fetch.first = (src.view i).virt + tileByte ((fmt.planes i).line * 128) 8 128 (10 * x / 8) y ∧
      fetch.second = (src.view i).virt + tileByte ((fmt.planes i).line * 128) 8 128 (10 * x / 8 + 1) y := by
  obtain ⟨long, -, rows, size, several, inside⟩ := lines_ten ten laid below
  have small := laid.small i below
  rw [size] at small
  have lines := Nat.lt_of_le_of_lt (Nat.mul_le_mul_left (fmt.planes i).line several) small
  have offset : word (y / 128 * word ((fmt.planes i).line * 128)) = y / 128 * ((fmt.planes i).line * 128) := by
    have upTo := Nat.mul_le_mul_left (fmt.planes i).line (show 128 * (y / 128) ≤ rows by omega)
    have product : y / 128 * ((fmt.planes i).line * 128) = (fmt.planes i).line * (128 * (y / 128)) := by
      rw [Nat.mul_comm, Nat.mul_assoc]
    rw [Word.word_small lines, product, Word.word_small (by omega)]
  have place (p : Nat) (before : p < (fmt.planes i).line) :
      word (8 * 128 * (p / 8) + 8 * (y % 128) + p % 8) = 8 * 128 * (p / 8) + 8 * (y % 128) + p % 8 :=
    Word.word_small (by omega)
  have base : (pitcherGetFrameLineVaddr src fmt i 0).getD 0 = (src.view i).virt := by
    rw [pitcherGetFrameLineVaddr, exact_.fits.view exact_.known (by rw [laid.numPlanes]; exact below)]
    simp [word]
  unfold fetchAt tilePosToAddr tileByte
  dsimp only
  rw [laid.tileWs, laid.tileHs, base, offset, place _ (by omega), place _ (by omega)]
  exact ⟨rfl, by omega, by omega⟩

end Ten

/-- Every byte that is read for a sample lies in the plane of the sample. -/
def ReadsInside (splane dplane : BufRef) (src dst : Buffer) (fmt dfmt : PixFmtInfo) : Prop :=
  if fmt.format = .nv12_8l128 then
    ∃ luma chroma, swcUnpackTiledNv12 splane dplane src dst fmt dfmt =
        unpackPlane (src.view 0) luma fmt dfmt 0 ++ unpackPlane (src.view 1) chroma fmt dfmt 1 ∧
      (∀ move ∈ unpackPlane (src.view 0) luma fmt dfmt 0, Inside (src.view 0) move.src move.n) ∧
      ∀ move ∈ unpackPlane (src.view 1) chroma fmt dfmt 1, Inside (src.view 1) move.src move.n
  else
    ∀ fetch ∈ fetches src dst fmt dfmt,
      Inside (src.view fetch.plane) fetch.first 1 ∧ Inside (src.view fetch.plane) fetch.second 1

section Reads
variable {info fmt dfmt : PixFmtInfo} {alignment : Nat} {splane dplane : BufRef} {src dst : Buffer}

theorem reads_eight (eight : info.format = .nv12_8l128) (laid : Laid info fmt alignment)
    (exact_ : Exact src fmt) : ReadsInside splane dplane src dst fmt dfmt := by
  have shown (i : Nat) (below : i < 2) : pitcherGetBufferPlane src i = some (src.view i) :=
    exact_.fits.view exact_.known (by rw [laid.numPlanes]; exact below)
  rw [ReadsInside, if_pos (laid.format.trans eight)]
  refine ⟨(pitcherGetBufferPlane dst 0).getD dplane,
    (pitcherGetBufferPlane dst 1).getD ((pitcherGetBufferPlane dst 0).getD dplane), ?_, ?_, ?_⟩
  · rw [swcUnpackTiledNv12, shown 0 (by decide), shown 1 (by decide)]
    rfl
  · exact fun move found => reads_unpackPlane eight laid exact_ (by decide) found
  · exact fun move found => reads_unpackPlane eight laid exact_ (by decide) found

/-- No byte has a place behind the one that the last sample ends in. -/
theorem reads_ten (ten : info.format = .nv12_10be_8l128) (laid : Laid info fmt alignment)
    (exact_ : Exact src fmt) :
    ReadsInside splane dplane src dst fmt dfmt ↔ ∀ i < 2, LastInside fmt i := by
  have wide : 0 < fmt.width := laid.width ▸ laid.wide
  have tall : 0 < fmt.height := laid.height ▸ laid.tall
  have sizes (i : Nat) (below : i < 2) : (src.view i).size = (fmt.planes i).size :=
    exact_.sizes i (by rw [laid.numPlanes]; exact below)
  rw [ReadsInside, if_neg (by rw [laid.format, ten]; decide)]
  constructor
  · intro inside i below
    obtain ⟨plane, -, second⟩ := @fetchAt_eq info fmt dfmt alignment i src dst ten laid below exact_ _ _
      (Nat.le_refl _) (Nat.le_refl _)
    have found := (inside _ ((mem_fetches wide tall).mpr
      ⟨i, below, _, Nat.le_refl _, _, Nat.le_refl _, rfl⟩)).2
    rw [plane, second, Inside, sizes i below] at found
    unfold LastInside
    omega
  · intro last fetch found
    obtain ⟨i, below, y, row, x, column, rfl⟩ := (mem_fetches wide tall).mp found
    obtain ⟨plane, first, second⟩ := @fetchAt_eq info fmt dfmt alignment i src dst ten laid below exact_
      _ _ column row
    obtain ⟨-, long, -⟩ := lines_ten ten laid below
    have line : 8 ≤ (fmt.planes i).line := by omega
    have room := last i below
    have ends := tileByte_mono line (show 10 * x / 8 + 1 ≤ 10 * lastColumn fmt i / 8 + 1 by omega) row
    have starts := tileByte_mono line (show 10 * x / 8 ≤ 10 * x / 8 + 1 by omega) (Nat.le_refl y)
    unfold LastInside at room
    rw [plane, first, second]
    unfold Inside
    rw [sizes i below]
    omega

end Reads

/-- Eight bits are read from the planes of the layout in any case; ten bits where the
last byte of each plane has a place in it. -/
theorem readsInside_iff (info : PixFmtInfo) (alignment : Nat)
    (tiled : info.format = .nv12_8l128 ∨ info.format = .nv12_10be_8l128)
    (noWrap : NoWrap info (if alignment = 0 then 1 else alignment)) (fmt : PixFmtInfo)
    (made : Word.pitcherGetPixFmtInfo info alignment = some fmt) (src : Buffer) (exact_ : Exact src fmt)
    (dst : Buffer) (dfmt : PixFmtInfo) (splane dplane : BufRef) :
    ReadsInside splane dplane src dst fmt dfmt ↔
      (info.format = .nv12_10be_8l128 → ∀ i < 2, LastInside fmt i) := by
  have laid := Tiled.laid tiled noWrap made
  rcases tiled with eight | ten
  · refine iff_of_true (reads_eight eight laid exact_) fun ten => ?_
    rw [eight] at ten
    cases ten
  · rw [reads_ten ten laid exact_]
    exact ⟨fun last _ => last, fun last => last ten⟩

/-- Sixteen samples of ten bits are 20 bytes, which is not a multiple of the eight that a
tile is wide; lines of 24 bytes are. -/
theorem readsInside_sixteen :
    ∃ fmt, Word.pitcherGetPixFmtInfo { format := .nv12_10be_8l128, width := 16, height := 128 } 8 = some fmt ∧
      ReadsInside {} {} (memoryOf 4096 fmt) (memoryOf 65536 fmt) fmt fmt := by
  refine ⟨_, rfl, (readsInside_iff { format := .nv12_10be_8l128, width := 16, height := 128 } 8 (.inr rfl)
    ⟨by decide, by decide, by decide⟩ _ rfl (memoryOf 4096 _) ⟨rfl, ⟨by decide, .inl rfl⟩, ?_⟩ _ _ _ _).mpr ?_⟩
  · decide
  · decide

/-- Eight samples have ten bytes, two of them in a second column of tiles that the plane
of 1280 bytes has no room for. -/
theorem readsInside_eight_columns :
    ∃ fmt, Word.pitcherGetPixFmtInfo { format := .nv12_10be_8l128, width := 8, height := 128 } 1 = some fmt ∧
      Exact (memoryOf 4096 fmt) fmt ∧ (fmt.planes 0).size = 1280 ∧
      (fetchAt (memoryOf 4096 fmt) (memoryOf 65536 fmt) fmt fmt 0 127 7).second = 4096 + 2041 ∧
      ¬ ReadsInside {} {} (memoryOf 4096 fmt) (memoryOf 65536 fmt) fmt fmt := by
  refine ⟨_, rfl, ⟨rfl, ⟨by decide, .inl rfl⟩, by decide⟩, by decide, by decide, ?_⟩
  intro inside
  rw [ReadsInside, if_neg (by decide)] at inside
  have found := inside _ ((mem_fetches (by decide) (by decide)).mpr
    ⟨0, by decide, 127, by decide, 7, by decide, rfl⟩)
  exact absurd found.2.2 (by decide)

end ImxTest.Pitcher.Tiles
