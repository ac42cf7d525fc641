import ImxTest.Pitcher.TileReads

/-! What the conversion of tiles leaves in the picture it writes: the frame, line by
line, or the lines of two fields in turns. -/
namespace ImxTest.Pitcher.Tiles

open Lib.Copy
open Word (word)

/-! ## A picture of tiles, and the one it is written to -/

/-- A picture of eight bits, in planes whose tiles hold `lines i` lines in `share i` bytes. -/
structure Source (src : Buffer) (sfmt : PixFmtInfo) (lines share : Nat → Nat) : Prop where
  known : src.format = some sfmt
  fits : src.Fits sfmt
  numPlanes : sfmt.numPlanes = 2
  tileWs : sfmt.tileWs = 8
  tileHs : sfmt.tileHs = 128
  wide : ∀ i < 2, sfmt.width ≤ (sfmt.planes i).line / 8 * 8
  room : ∀ i < 2, (sfmt.planes i).line * (128 * divRoundUp (lines i) 128) ≤ share i
  small : ∀ i < 2, share i < 2 ^ 32

/-- A picture that has `lines i` lines in plane `i`, for at least `width` bytes each. -/
structure Target (dst : Buffer) (dfmt : PixFmtInfo) (width : Nat) (lines : Nat → Nat) : Prop where
  known : dst.format = some dfmt
  fits : dst.Fits dfmt
  planes : 2 ≤ dfmt.numPlanes
  wide : ∀ i < 2, width ≤ (dfmt.planes i).line
  room : ∀ i < 2, lines i * (dfmt.planes i).line ≤ (dst.view i).size
  small : ∀ i < 2, lines i * (dfmt.planes i).line < 2 ^ 32

/-- The planes that are written lie apart, from each other and from those that are read. -/
structure Separate (src dst : Buffer) : Prop where
  own : Apart (dst.view 0).virt (dst.view 0).size (dst.view 1).virt (dst.view 1).size
  others : ∀ i < 2, ∀ k < 2,
    Apart (src.view i).virt (src.view i).size (dst.view k).virt (dst.view k).size

/-- The byte of plane `i`, or of one of its fields from `start` on, for column `x` of line `y`. -/
def tileAt (src : Buffer) (sfmt : PixFmtInfo) (i start x y : Nat) : Nat :=
  (src.view i).virt + start + tileByte ((sfmt.planes i).line / 8 * (8 * 128)) 8 128 x y

def lineAt (dst : Buffer) (dfmt : PixFmtInfo) (i x y : Nat) : Nat :=
  (dst.view i).virt + y * (dfmt.planes i).line + x

section Places
variable {src dst : Buffer} {sfmt dfmt : PixFmtInfo} {lines share : Nat → Nat} {width i k x y : Nat}

theorem Source.view (source : Source src sfmt lines share) (below : i < 2) :
    pitcherGetBufferPlane src i = some (src.view i) :=
  source.fits.view source.known (by rw [source.numPlanes]; exact below)

theorem Target.view (target : Target dst dfmt width lines) (below : i < 2) :
    pitcherGetBufferPlane dst i = some (dst.view i) :=
  target.fits.view target.known (Nat.lt_of_lt_of_le below target.planes)

theorem swcUnpackTiledNv12_eq (source : Source src sfmt lines share) {lines' : Nat → Nat}
    (target : Target dst dfmt width lines') (splane dplane : BufRef) :
    swcUnpackTiledNv12 splane dplane src dst sfmt dfmt =
      unpackPlane (src.view 0) (dst.view 0) sfmt dfmt 0 ++ unpackPlane (src.view 1) (dst.view 1) sfmt dfmt 1 := by
  rw [swcUnpackTiledNv12, source.view (by decide), source.view (by decide), target.view (by decide),
    target.view (by decide)]
  rfl

theorem tileByte_lt {ntx q : Nat} (column : x < ntx * 8) (line : y < 128 * q) :
    tileByte (ntx * (8 * 128)) 8 128 x y < ntx * (8 * 128) * q := by
  have down := Nat.mul_le_mul_right (ntx * (8 * 128)) (show y / 128 + 1 ≤ q by omega)
  rw [Nat.succ_mul, Nat.mul_comm q] at down
  unfold tileByte
  omega

/-- The columns of the tiles lie in the share of the plane. -/
theorem Source.tileAt_inside (source : Source src sfmt lines share) (below : i < 2) (start : Nat)
    (column : x < (sfmt.planes i).line / 8 * 8) (line : y < lines i) :
    (src.view i).virt + start ≤ tileAt src sfmt i start x y ∧
      tileAt src sfmt i start x y < (src.view i).virt + start + share i := by
  have upTo : y < 128 * divRoundUp (lines i) 128 := by
    unfold divRoundUp
    omega
  have inside := tileByte_lt column upTo
  have across : (sfmt.planes i).line / 8 * (8 * 128) ≤ (sfmt.planes i).line * 128 := by omega
  have area := Nat.mul_le_mul_right (divRoundUp (lines i) 128) across
  rw [Nat.mul_assoc _ 128] at area
  have room := source.room i below
  unfold tileAt
  omega

/-- What is read lies in its share of the plane. -/
theorem Source.tileAt_lt (source : Source src sfmt lines share) (below : i < 2) (start : Nat)
    (column : x < sfmt.width) (line : y < lines i) :
    (src.view i).virt + start ≤ tileAt src sfmt i start x y ∧
      tileAt src sfmt i start x y < (src.view i).virt + start + share i :=
  source.tileAt_inside below start (Nat.lt_of_lt_of_le column (source.wide i below)) line

theorem Target.lineAt_lt (target : Target dst dfmt width lines) (below : i < 2) (column : x < width)
    (line : y < lines i) : (dst.view i).virt ≤ lineAt dst dfmt i x y ∧
      lineAt dst dfmt i x y < (dst.view i).virt + (dst.view i).size := by
  have wide := target.wide i below
  have room := target.room i below
  have upTo := Nat.mul_le_mul_right (dfmt.planes i).line (Nat.succ_le_of_lt line)
  rw [Nat.succ_mul] at upTo
  unfold lineAt
  omega

theorem lines_unique {line x' y' : Nat} (column : x < line) (column' : x' < line)
    (same : y * line + x = y' * line + x') : y = y' ∧ x = x' := by
  have rows := congrArg (· / line) same
  have columns := congrArg (· % line) same
  simp only [Nat.mul_comm _ line, Nat.mul_add_div (Nat.zero_lt_of_lt column), Nat.mul_add_mod,
    Nat.div_eq_of_lt column, Nat.div_eq_of_lt column', Nat.mod_eq_of_lt column, Nat.mod_eq_of_lt column',
    Nat.add_zero] at rows columns
  exact ⟨rows, columns⟩

/-- Two bytes that are written differ in plane, line or column. -/
theorem Target.lineAt_unique (target : Target dst dfmt width lines) (apart : Separate src dst) {x' y' : Nat}
    (iBelow : i < 2) (kBelow : k < 2) (column : x < width) (column' : x' < width) (line : y < lines i)
    (line' : y' < lines k) (same : lineAt dst dfmt i x y = lineAt dst dfmt k x' y') :
    i = k ∧ y = y' ∧ x = x' := by
  have first := target.lineAt_lt iBelow column line
  have second := target.lineAt_lt kBelow column' line'
  have own := apart.own
  obtain rfl : i = k := by
    unfold Apart at own
    rcases (show i = 0 ∨ i = 1 by omega) with rfl | rfl <;>
      rcases (show k = 0 ∨ k = 1 by omega) with rfl | rfl <;> first | rfl | omega
  have wide := target.wide i iBelow
  unfold lineAt at same
  have sum : y * (dfmt.planes i).line + x = y' * (dfmt.planes i).line + x' := by omega
  exact ⟨rfl, lines_unique (by omega) (by omega) sum⟩

end Places

/-! ## The layout of the source -/

/-- The lines of plane `i`. -/
def frameLines (sfmt : PixFmtInfo) (i : Nat) : Nat :=
  if i = 0 then sfmt.height else divRoundUp sfmt.height 2

/-- The lines that field `f` has in plane `i`; the top field is the first one. -/
def fieldLines (sfmt : PixFmtInfo) (f i : Nat) : Nat :=
  let h := (sfmt.height + 1 - f) / 2
  if i = 0 then h else divRoundUp h 2

section Laid
variable {info fmt : PixFmtInfo} {alignment : Nat} {src : Buffer}
  (eight : info.format = .nv12_8l128) (laid : Laid info fmt alignment) (exact_ : Exact src fmt)
include eight laid exact_

/-- A plane of the layout has a share for each field that holds its lines. -/
theorem Laid.source {lines share : Nat → Nat} (fields : Nat)
    (planes : ∀ i < 2, ∀ q, info.heightOf i = fields * (128 * q) → lines i ≤ 128 * q ∧
      (fmt.planes i).line * (128 * q) ≤ share i ∧ share i ≤ (fmt.planes i).size)
    (whole : ∀ i < 2, ∃ q, info.heightOf i = fields * (128 * q)) : Source src fmt lines share := by
  have depth : info.bppOf 0 = 8 := by
    rw [PixFmtInfo.bppOf, PixFmtInfo.desc, eight]
    rfl
  refine ⟨exact_.known, exact_.fits, laid.numPlanes, laid.tileWs, laid.tileHs, ?_, ?_, ?_⟩
  · intro i below
    obtain ⟨k, wide, bytes⟩ := Tiled.bytesOf (.inl eight) below
    have line := bytesOf_le_line info alignment i
    rw [bytes, depth, ← laid.planes i below] at line
    rw [laid.width]
    omega
  · intro i below
    obtain ⟨q, height⟩ := whole i below
    obtain ⟨upTo, room, -⟩ := planes i below q height
    have tiles := divRoundUp_le (show 0 < 128 by decide) upTo (Nat.dvd_mul_right 128 q)
    rw [Nat.mul_div_cancel_left _ (by decide)] at tiles
    exact Nat.le_trans (Nat.mul_le_mul_left _ (Nat.mul_le_mul_left 128 tiles)) room
  · intro i below
    obtain ⟨q, height⟩ := whole i below
    exact Nat.lt_of_le_of_lt (planes i below q height).2.2 (laid.small i below)

theorem Laid.frames (progressive : fmt.interlaced = false) :
    Source src fmt (frameLines fmt) fun i => (fmt.planes i).size := by
  rw [laid.interlaced] at progressive
  apply laid.source eight exact_ 1
  · intro i below q height
    have room := (Tiled.heightOf (.inl eight) laid.tall below).1
    unfold frameLines
    rw [laid.height, laid.planes i below, pixPlaneInfo_size, height, Nat.one_mul]
    rw [height, Nat.one_mul] at room
    exact ⟨room, Nat.le_refl _, Nat.le_refl _⟩
  · intro i below
    obtain ⟨-, q, height, -⟩ := Tiled.heightOf (.inl eight) laid.tall below
    rw [progressive] at height
    exact ⟨q, height⟩

theorem Laid.fields (interlaced : fmt.interlaced = true) :
    Source src fmt (fieldLines fmt 0) fun i => (src.view i).size / 2 := by
  rw [laid.interlaced] at interlaced
  apply laid.source eight exact_ 2
  · intro i below q height
    have room := (Tiled.heightOf (.inl eight) laid.tall below).1
    have half : (src.view i).size / 2 = (fmt.planes i).line * (128 * q) := by
      rw [exact_.sizes i (by rw [laid.numPlanes]; exact below), laid.planes i below, pixPlaneInfo_size, height,
        Nat.mul_left_comm, Nat.mul_div_cancel_left _ (by decide)]
    refine ⟨?_, Nat.le_of_eq half.symm, ?_⟩
    · unfold fieldLines
      unfold divRoundUp at *
      dsimp only
      rw [laid.height]
      split at room <;> split <;> omega
    · rw [exact_.sizes i (by rw [laid.numPlanes]; exact below)]
      exact Nat.div_le_self _ _
  · intro i below
    obtain ⟨-, q, height, -⟩ := Tiled.heightOf (.inl eight) laid.tall below
    rw [interlaced] at height
    exact ⟨q, height⟩

end Laid

/-! ## What is brought where -/

/-- The bytes of `lines i` lines of each plane come from `source`. -/
def Lines (dst : Buffer) (dfmt : PixFmtInfo) (width : Nat) (lines : Nat → Nat)
    (source : (i y x : Nat) → Nat) (a s : Nat) : Prop :=
  ∃ i < 2, ∃ y < lines i, ∃ x < width, a = lineAt dst dfmt i x y ∧ s = source i y x

section Brought
variable {src dst : Buffer} {sfmt dfmt : PixFmtInfo} {lines share : Nat → Nat} {width i h : Nat}

/-- Lines that are written from planes that lie apart get what was in those. -/
theorem runMoves_lines (target : Target dst dfmt width lines) (apart : Separate src dst)
    {source : (i y x : Nat) → Nat}
    (reads : ∀ i < 2, ∀ y < lines i, ∀ x < width,
      (src.view i).virt ≤ source i y x ∧ source i y x < (src.view i).virt + (src.view i).size)
    {moves : List Move}
    (brings : ∀ a s, (∃ move ∈ moves, move.Brings a s) ↔ Lines dst dfmt width lines source a s)
    (mem : Nat → UInt8) {i y x : Nat} (below : i < 2) (line : y < lines i) (column : x < width) :
    runMoves mem moves (lineAt dst dfmt i x y) = mem (source i y x) := by
  apply (runMoves_spec brings ?_ ?_).1 _ _ ⟨i, below, y, line, x, column, rfl, rfl⟩
  · rintro a s t ⟨i, iBelow, y, line, x, column, rfl, rfl⟩ ⟨k, kBelow, y', line', x', column', same, rfl⟩
    obtain ⟨rfl, rfl, rfl⟩ := target.lineAt_unique apart iBelow kBelow column column' line line' same
    rfl
  · rintro a s t ⟨i, iBelow, y, line, x, column, -, rfl⟩ ⟨k, kBelow, y', line', x', column', same, -⟩
    have read := reads i iBelow y line x column
    have written := target.lineAt_lt kBelow column' line'
    have others := apart.others i iBelow k kBelow
    unfold Apart at others
    omega

/-- The lines of one picture of tiles. -/
theorem brings_tiles (source : Source src sfmt lines share) (below : i < 2) (start : Nat) {dst stride offset : Nat}
    (upTo : h ≤ lines i) (strides : 128 < h → stride * 128 < 2 ^ 32)
    (shift : offset ≤ sfmt.width) {a s : Nat} :
    (∃ move ∈ swcUnpackTile2Nv12 ((src.view i).virt + start) sfmt.tileWs sfmt.tileHs sfmt.width h
        ((sfmt.planes i).line / sfmt.tileWs) (divRoundUp h sfmt.tileHs) dst stride offset, move.Brings a s) ↔
      ∃ y < h, ∃ x < sfmt.width, a = dst + y * stride + offset + x ∧ s = tileAt src sfmt i start x y := by
  have wide := source.wide i below
  have room := source.room i below
  have share := source.small i below
  rcases Nat.eq_zero_or_pos h with rfl | some_
  · have none_ : divRoundUp 0 sfmt.tileHs = 0 := by
      rw [source.tileHs]
      rfl
    simp [none_, swcUnpackTile2Nv12, tileRows]
  have line : (sfmt.planes i).line * 128 < 2 ^ 32 := by
    have tiles : 0 < divRoundUp (lines i) 128 := by
      unfold divRoundUp
      omega
    have least := Nat.mul_le_mul_left (sfmt.planes i).line (show 128 ≤ 128 * divRoundUp (lines i) 128 by omega)
    omega
  rw [source.tileWs, source.tileHs]
  apply brings_swcUnpackTile (by decide) (by decide)
  refine ⟨?_, by omega, ?_⟩
  · intro c column
    omega
  · intro tall
    exact ⟨by omega, strides tall⟩

end Brought

/-- What is brought by the moves of both planes. -/
theorem brings_planes {dst : Buffer} {dfmt : PixFmtInfo} {width : Nat} {lines : Nat → Nat}
    {source : (i y x : Nat) → Nat} {moves : Nat → List Move}
    (brings : ∀ i < 2, ∀ a s, (∃ move ∈ moves i, move.Brings a s) ↔
      ∃ y < lines i, ∃ x < width, a = lineAt dst dfmt i x y ∧ s = source i y x) (a s : Nat) :
    (∃ move ∈ moves 0 ++ moves 1, move.Brings a s) ↔ Lines dst dfmt width lines source a s := by
  constructor
  · rintro ⟨move, found, brought⟩
    rcases List.mem_append.mp found with luma | chroma
    · exact ⟨0, by decide, (brings 0 (by decide) a s).mp ⟨move, luma, brought⟩⟩
    · exact ⟨1, by decide, (brings 1 (by decide) a s).mp ⟨move, chroma, brought⟩⟩
  · rintro ⟨i, below, found⟩
    obtain ⟨move, here, brought⟩ := (brings i below a s).mpr found
    rcases (show i = 0 ∨ i = 1 by omega) with rfl | rfl
    · exact ⟨move, List.mem_append_left _ here, brought⟩
    · exact ⟨move, List.mem_append_right _ here, brought⟩

/-! ## Frames -/

/-- The bytes of a frame come from its tiles. -/
theorem brings_frame {src dst : Buffer} {sfmt dfmt : PixFmtInfo} {share : Nat → Nat}
    (progressive : sfmt.interlaced = false) (source : Source src sfmt (frameLines sfmt) share)
    (target : Target dst dfmt sfmt.width (frameLines sfmt)) (splane dplane : BufRef) (a s : Nat) :
    (∃ move ∈ swcUnpackTiledNv12 splane dplane src dst sfmt dfmt, move.Brings a s) ↔
      Lines dst dfmt sfmt.width (frameLines sfmt) (fun i y x => tileAt src sfmt i 0 x y) a s := by
  have brings : ∀ i < 2, ∀ a s,
      (∃ move ∈ unpackPlane (src.view i) (dst.view i) sfmt dfmt i, move.Brings a s) ↔
        ∃ y < frameLines sfmt i, ∃ x < sfmt.width,
          a = lineAt dst dfmt i x y ∧ s = tileAt src sfmt i 0 x y := by
    intro i below a s
    have small := target.small i below
    unfold unpackPlane
    rw [if_neg (by rw [progressive]; decide)]
    apply brings_tiles source below 0 (Nat.le_refl _) ?_ (Nat.zero_le _)
    intro tall
    have most := Nat.mul_le_mul_right (dfmt.planes i).line (Nat.le_of_lt tall)
    rw [Nat.mul_comm 128] at most
    exact Nat.lt_of_le_of_lt most small
  rw [swcUnpackTiledNv12_eq source target splane dplane]
  exact brings_planes brings a s

/-- Every visible byte is brought from its place in the tiles, and nothing else is written. -/
theorem swcUnpackTiledNv12_frame (src dst : Buffer) (sfmt dfmt : PixFmtInfo)
    (progressive : sfmt.interlaced = false)
    (source : Source src sfmt (frameLines sfmt) fun i => (sfmt.planes i).size)
    (sizes : ∀ i < 2, (sfmt.planes i).size ≤ (src.view i).size)
    (whole : ∀ i < 2, 8 ∣ (sfmt.planes i).line)
    (target : Target dst dfmt sfmt.width (frameLines sfmt)) (apart : Separate src dst)
    (splane dplane : BufRef) :
    (∀ mem i, i < 2 → ∀ y < frameLines sfmt i, ∀ x < sfmt.width,
      runMoves mem (swcUnpackTiledNv12 splane dplane src dst sfmt dfmt)
          ((dst.view i).virt + y * (dfmt.planes i).line + x) =
        (mem ((src.view i).virt + (y / 128 * ((sfmt.planes i).line * 128) + 8 * 128 * (x / 8) +
          8 * (y % 128) + x % 8)) : UInt8)) ∧
      ∀ move ∈ swcUnpackTiledNv12 splane dplane src dst sfmt dfmt, ∀ a s, move.Brings a s →
        ∃ i < 2, ∃ y < frameLines sfmt i, ∃ x < sfmt.width,
          a = (dst.view i).virt + y * (dfmt.planes i).line + x := by
  have all := brings_frame progressive source target splane dplane
  constructor
  · intro mem i below y line x column
    have arrives := runMoves_lines target apart ?_ all mem below line column
    · have tiles : (sfmt.planes i).line / 8 * (8 * 128) = (sfmt.planes i).line * 128 := by
        rw [← Nat.mul_assoc, Nat.div_mul_cancel (whole i below)]
      rwa [lineAt, tileAt, tileByte, tiles] at arrives
    · intro i below y line x column
      have inside := source.tileAt_lt below 0 column line
      have size := sizes i below
      omega
  · intro move found a s brought
    obtain ⟨i, below, y, line, x, column, place, -⟩ := (all a s).mp ⟨move, found, brought⟩
    exact ⟨i, below, y, line, x, column, place⟩

/-- A picture of 12x3 samples, the last one of which lies in the second column of tiles. -/
theorem swcUnpackTiledNv12_frame_small :
    ∃ sfmt dfmt, Word.pitcherGetPixFmtInfo { format := .nv12_8l128, width := 12, height := 3 } 8 = some sfmt ∧
      Word.pitcherGetPixFmtInfo { format := .nv12, width := 12, height := 3 } 8 = some dfmt ∧
      ∀ mem : Nat → UInt8,
        runMoves mem (swcUnpackTiledNv12 {} {} (memoryOf 4096 sfmt) (memoryOf 65536 dfmt) sfmt dfmt)
          (65536 + 2 * 16 + 11) = mem (4096 + (1024 + 8 * 2 + 3)) := by
  refine ⟨_, _, rfl, rfl, fun mem => (swcUnpackTiledNv12_frame (memoryOf 4096 _) (memoryOf 65536 _) _ _ rfl
    ⟨rfl, ⟨by decide, .inl rfl⟩, rfl, rfl, rfl, by decide, by decide, by decide⟩ (by decide) (by decide)
    ⟨rfl, ⟨by decide, .inl rfl⟩, by decide, by decide, by decide, by decide⟩ ⟨by decide, by decide⟩ {} {}).1
    mem 0 (by decide) 2 (by decide) 11 (by decide)⟩

/-! ## Fields -/

/-- Line `k` of field `f` is line `2 * k + f` of the frame, and all that is written is
in such lines of the plane. -/
structure Interleaved (splane dplane : BufRef) (src dst : Buffer) (sfmt dfmt : PixFmtInfo) : Prop where
  values : ∀ (mem : Nat → UInt8) i, i < 2 → ∀ f < 2, ∀ k < fieldLines sfmt f i, ∀ x < sfmt.width,
    runMoves mem (swcUnpackTiledNv12 splane dplane src dst sfmt dfmt) (lineAt dst dfmt i x (2 * k + f)) =
      mem (tileAt src sfmt i (f * ((src.view i).size / 2)) x k)
  written : ∀ i < 2, ∀ move ∈ unpackPlane (src.view i) (dst.view i) sfmt dfmt i, ∀ a s, move.Brings a s →
    a < (dst.view i).virt + (dst.view i).size ∧
      ∃ f < 2, ∃ k < fieldLines sfmt f i, ∃ x < sfmt.width, a = lineAt dst dfmt i x (2 * k + f)

theorem fieldLines_pos {sfmt : PixFmtInfo} (tall : 0 < sfmt.height) (even : 2 ∣ sfmt.height) (i : Nat) :
    0 < fieldLines sfmt 1 i := by
  unfold fieldLines divRoundUp
  dsimp only
  split <;> omega

section Fields
variable {src dst : Buffer} {sfmt dfmt : PixFmtInfo} {splane dplane : BufRef}
  (interlaced : sfmt.interlaced = true)
  (source : Source src sfmt (fieldLines sfmt 0) fun i => (src.view i).size / 2)
  (target : Target dst dfmt sfmt.width (frameLines sfmt))
include interlaced source target

/-- The second field is written a picture's width behind the first one, not a line. -/
theorem brings_fields {i a s : Nat} (below : i < 2) :
    (∃ move ∈ unpackPlane (src.view i) (dst.view i) sfmt dfmt i, move.Brings a s) ↔
      ∃ f < 2, ∃ k < fieldLines sfmt 1 i, ∃ x < sfmt.width,
        a = (dst.view i).virt + 2 * k * (dfmt.planes i).line + f * sfmt.width + x ∧
          s = tileAt src sfmt i (f * ((src.view i).size / 2)) x k := by
  have small := target.small i below
  have several {n : Nat} (more : n < fieldLines sfmt 1 i) : 2 * n ≤ frameLines sfmt i := by
    unfold fieldLines at more
    unfold frameLines
    unfold divRoundUp at *
    dsimp only at more
    split at more <;> split <;> omega
  have upTo : fieldLines sfmt 1 i ≤ fieldLines sfmt 0 i := by
    unfold fieldLines divRoundUp
    dsimp only
    split <;> omega
  have rows : (if i = 0 then sfmt.height / 2 else divRoundUp (sfmt.height / 2) 2) = fieldLines sfmt 1 i := rfl
  have strides : 128 < fieldLines sfmt 1 i → word ((dfmt.planes i).line * 2) * 128 < 2 ^ 32 := by
    intro tall
    have most := Nat.mul_le_mul_right (dfmt.planes i).line (several tall)
    have least : word ((dfmt.planes i).line * 2) ≤ (dfmt.planes i).line * 2 := Nat.mod_le _ _
    omega
  have stride {k : Nat} (line : k < fieldLines sfmt 1 i) :
      k * word ((dfmt.planes i).line * 2) = 2 * k * (dfmt.planes i).line := by
    rcases Nat.eq_zero_or_pos k with rfl | later
    · rw [Nat.zero_mul, Nat.mul_zero, Nat.zero_mul]
    · have most := Nat.mul_le_mul_right (dfmt.planes i).line (several line)
      have least := Nat.mul_le_mul_right (dfmt.planes i).line (show 2 ≤ 2 * k by omega)
      rw [Word.word_small (by omega), Nat.mul_comm _ 2, ← Nat.mul_assoc, Nat.mul_comm k]
  have field (start offset : Nat) (shift : offset ≤ sfmt.width) :
      (∃ move ∈ swcUnpackTile2Nv12 ((src.view i).virt + start) sfmt.tileWs sfmt.tileHs sfmt.width
          (fieldLines sfmt 1 i) ((sfmt.planes i).line / sfmt.tileWs)
          (divRoundUp (fieldLines sfmt 1 i) sfmt.tileHs) (dst.view i).virt
          (word ((dfmt.planes i).line * 2)) offset, move.Brings a s) ↔
        ∃ k < fieldLines sfmt 1 i, ∃ x < sfmt.width,
          a = (dst.view i).virt + 2 * k * (dfmt.planes i).line + offset + x ∧
            s = tileAt src sfmt i start x k := by
    rw [brings_tiles source below start upTo strides shift]
    refine exists_congr fun k => and_congr_right fun line => ?_
    rw [stride line]
  have top := field 0 0 (Nat.zero_le _)
  have bottom := field ((src.view i).size / 2) sfmt.width (Nat.le_refl _)
  unfold unpackPlane
  rw [if_pos interlaced]
  dsimp only
  rw [rows]
  unfold unpackFields
  constructor
  · rintro ⟨move, found, brought⟩
    rcases List.mem_append.mp found with first | second
    · obtain ⟨k, line, x, column, place, byte⟩ := top.mp ⟨move, first, brought⟩
      exact ⟨0, by decide, k, line, x, column, by rw [place, Nat.zero_mul], by rw [byte, Nat.zero_mul]⟩
    · obtain ⟨k, line, x, column, place, byte⟩ := bottom.mp ⟨move, second, brought⟩
      exact ⟨1, by decide, k, line, x, column, by rw [place, Nat.one_mul], by rw [byte, Nat.one_mul]⟩
  · rintro ⟨f, two, k, line, x, column, place, byte⟩
    rcases (show f = 0 ∨ f = 1 by omega) with rfl | rfl
    · rw [Nat.zero_mul] at place byte
      obtain ⟨move, here, brought⟩ := top.mpr ⟨k, line, x, column, place, byte⟩
      exact ⟨move, List.mem_append_left _ here, brought⟩
    · rw [Nat.one_mul] at place byte
      obtain ⟨move, here, brought⟩ := bottom.mpr ⟨k, line, x, column, place, byte⟩
      exact ⟨move, List.mem_append_right _ here, brought⟩

variable (apart : Separate src dst) (wide : 0 < sfmt.width) (tall : 0 < sfmt.height)
include apart wide tall

/-- The last line of the top field is missing in a frame with an odd number of lines. -/
theorem Interleaved.even (met : Interleaved splane dplane src dst sfmt dfmt) : 2 ∣ sfmt.height := by
  by_contra odd
  have last : sfmt.height / 2 < fieldLines sfmt 0 0 := by
    unfold fieldLines
    rw [if_pos rfl]
    omega
  have line : 2 * (sfmt.height / 2) < frameLines sfmt 0 := by
    unfold frameLines
    rw [if_pos rfl]
    omega
  have inside := target.lineAt_lt (show 0 < 2 by decide) wide line
  have read := source.tileAt_lt (show 0 < 2 by decide) (0 * ((src.view 0).size / 2)) wide last
  have others := apart.others 0 (by decide) 0 (by decide)
  have own := apart.own
  have value := fun mem => met.values mem 0 (by decide) 0 (by decide) _ last 0 wide
  simp only [Nat.add_zero] at value
  generalize at_ : lineAt dst dfmt 0 0 (2 * (sfmt.height / 2)) = a at *
  generalize tileAt src sfmt 0 (0 * ((src.view 0).size / 2)) 0 (sfmt.height / 2) = t at *
  have free (move : Move) (found : move ∈ swcUnpackTiledNv12 splane dplane src dst sfmt dfmt) (s : Nat) :
      ¬ move.Brings a s := by
    intro brought
    rw [swcUnpackTiledNv12_eq source target] at found
    rcases List.mem_append.mp found with luma | chroma
    · obtain ⟨f, two, k, less, x, column, place, -⟩ :=
        (brings_fields interlaced source target (by decide)).mp ⟨move, luma, brought⟩
      have narrow := target.wide 0 (by decide)
      have upTo := Nat.mul_le_mul_right (dfmt.planes 0).line (show 2 * k + 2 ≤ 2 * (sfmt.height / 2) from by
        unfold fieldLines at less
        rw [if_pos rfl] at less
        omega)
      rw [Nat.add_mul] at upTo
      have second : f * sfmt.width ≤ 1 * sfmt.width := Nat.mul_le_mul_right _ (by omega)
      unfold lineAt at at_
      omega
    · obtain ⟨upTo, f, two, k, less, x, column, place⟩ := met.written 1 (by decide) move chroma a s brought
      unfold lineAt at place
      unfold Apart at own
      omega
  have other : t ≠ a := by
    unfold Apart at others
    omega
  have kept := value fun c => if c = a then 1 else 0
  rw [runMoves_free free, if_pos rfl, if_neg other] at kept
  exact absurd kept (by decide)

omit apart in
/-- The second field is written between the lines of a frame that has longer ones. -/
theorem Interleaved.narrow (met : Interleaved splane dplane src dst sfmt dfmt) (even : 2 ∣ sfmt.height)
    {i : Nat} (below : i < 2) : (dfmt.planes i).line = sfmt.width := by
  have some_ := fieldLines_pos tall even i
  obtain ⟨move, found, brought⟩ := (brings_fields interlaced source target below).mpr
    ⟨1, by decide, 0, some_, 0, wide, rfl, rfl⟩
  obtain ⟨-, f, two, k, -, x, column, place⟩ := met.written i below move found _ _ brought
  have long := target.wide i below
  unfold lineAt at place
  rcases Nat.eq_zero_or_pos (2 * k + f) with first | later
  · rw [first] at place
    omega
  · have least := Nat.mul_le_mul_right (dfmt.planes i).line later
    omega

omit apart in
/-- The last line that the second field has of the chroma has a place. -/
theorem Interleaved.chroma (met : Interleaved splane dplane src dst sfmt dfmt) (even : 2 ∣ sfmt.height) :
    2 * divRoundUp (sfmt.height / 2) 2 * sfmt.width ≤ (dst.view 1).size := by
  have some_ := fieldLines_pos tall even 1
  have narrow := met.narrow interlaced source target wide tall even (show 1 < 2 by decide)
  have lines : fieldLines sfmt 1 1 = divRoundUp (sfmt.height / 2) 2 := rfl
  rw [lines] at some_
  obtain ⟨move, found, brought⟩ := (brings_fields interlaced source target (show 1 < 2 by decide)).mpr
    ⟨1, by decide, divRoundUp (sfmt.height / 2) 2 - 1, by omega, sfmt.width - 1, by omega, rfl, rfl⟩
  have upTo := (met.written 1 (by decide) move found _ _ brought).1
  have last : 2 * divRoundUp (sfmt.height / 2) 2 * sfmt.width =
      2 * (divRoundUp (sfmt.height / 2) 2 - 1) * sfmt.width + 2 * sfmt.width := by
    rw [← Nat.add_mul]
    congr 1
    omega
  rw [narrow] at upTo
  omega

omit wide in
/-- Fields fill the lines of a frame as long as a line of the picture. -/
theorem interleaved_of (even : 2 ∣ sfmt.height) (narrow : ∀ i < 2, (dfmt.planes i).line = sfmt.width)
    (chroma : 2 * divRoundUp (sfmt.height / 2) 2 * sfmt.width ≤ (dst.view 1).size) :
    Interleaved splane dplane src dst sfmt dfmt := by
  have fields (f i : Nat) (two : f < 2) : fieldLines sfmt f i = fieldLines sfmt 1 i := by
    unfold fieldLines
    rw [show (sfmt.height + 1 - f) / 2 = (sfmt.height + 1 - 1) / 2 by omega]
  have luma : 2 * fieldLines sfmt 1 0 = frameLines sfmt 0 := Nat.mul_div_cancel' even
  have below : 2 * fieldLines sfmt 1 1 ≤ frameLines sfmt 0 := by
    unfold fieldLines frameLines divRoundUp
    rw [if_neg (by decide), if_pos rfl]
    omega
  -- the fields fill the lines of a frame that has as many of them
  have double : Target dst dfmt sfmt.width fun i => 2 * fieldLines sfmt 1 i := by
    refine ⟨target.known, target.fits, target.planes, target.wide, ?_, ?_⟩
    · intro i two
      rcases (show i = 0 ∨ i = 1 by omega) with rfl | rfl
      · rw [luma]
        exact target.room 0 two
      · rw [narrow 1 two]
        exact chroma
    · intro i two
      have small := target.small 0 (by decide)
      rw [narrow 0 (by decide)] at small
      rw [narrow i two]
      rcases (show i = 0 ∨ i = 1 by omega) with rfl | rfl
      · rw [luma]
        exact small
      · exact Nat.lt_of_le_of_lt (Nat.mul_le_mul_right _ below) small
  have place (i f k x : Nat) (two : i < 2) :
      (dst.view i).virt + 2 * k * (dfmt.planes i).line + f * sfmt.width + x =
        lineAt dst dfmt i x (2 * k + f) := by
    rw [lineAt, Nat.add_mul, narrow i two]
    omega
  have brings : ∀ i < 2, ∀ a s,
      (∃ move ∈ unpackPlane (src.view i) (dst.view i) sfmt dfmt i, move.Brings a s) ↔
        ∃ y < 2 * fieldLines sfmt 1 i, ∃ x < sfmt.width, a = lineAt dst dfmt i x y ∧
          s = tileAt src sfmt i (y % 2 * ((src.view i).size / 2)) x (y / 2) := by
    intro i two a s
    rw [brings_fields interlaced source target two]
    constructor
    · rintro ⟨f, first, k, line, x, column, rfl, rfl⟩
      refine ⟨2 * k + f, by omega, x, column, place i f k x two, ?_⟩
      rw [show (2 * k + f) % 2 = f by omega, show (2 * k + f) / 2 = k by omega]
    · rintro ⟨y, line, x, column, rfl, rfl⟩
      refine ⟨y % 2, by omega, y / 2, by omega, x, column, ?_, rfl⟩
      rw [place i _ _ x two, Nat.div_add_mod]
  have all := brings_planes brings
  rw [← swcUnpackTiledNv12_eq source target splane dplane] at all
  constructor
  · intro mem i two f first k line x column
    rw [fields f i first] at line
    have arrives := runMoves_lines double apart ?_ all mem two (show 2 * k + f < _ by omega) column
    · rwa [show (2 * k + f) % 2 = f by omega, show (2 * k + f) / 2 = k by omega] at arrives
    · intro i two y line x column
      have upTo : y / 2 < fieldLines sfmt 0 i := by
        rw [fields 0 i (by decide)]
        omega
      have inside := source.tileAt_lt two (y % 2 * ((src.view i).size / 2)) column upTo
      have half : y % 2 * ((src.view i).size / 2) ≤ 1 * ((src.view i).size / 2) :=
        Nat.mul_le_mul_right _ (by omega)
      omega
  · intro i two move found a s brought
    obtain ⟨f, first, k, line, x, column, rfl, -⟩ :=
      (brings_fields interlaced source target two).mp ⟨move, found, brought⟩
    rw [place i f k x two]
    refine ⟨(double.lineAt_lt two column (by omega)).2, f, first, k, ?_, x, column, rfl⟩
    rwa [fields f i first]

end Fields

/-- The fields of a picture are written in turns exactly if each of them has half its
lines, the lines of the frame are no longer than the picture is wide, and the chroma of
both fields has room in it. -/
theorem swcUnpackTiledNv12_fields_iff (src dst : Buffer) (sfmt dfmt : PixFmtInfo)
    (interlaced : sfmt.interlaced = true)
    (source : Source src sfmt (fieldLines sfmt 0) fun i => (src.view i).size / 2)
    (target : Target dst dfmt sfmt.width (frameLines sfmt)) (apart : Separate src dst)
    (wide : 0 < sfmt.width) (tall : 0 < sfmt.height) (splane dplane : BufRef) :
    Interleaved splane dplane src dst sfmt dfmt ↔
      2 ∣ sfmt.height ∧ (∀ i < 2, (dfmt.planes i).line = sfmt.width) ∧
        2 * divRoundUp (sfmt.height / 2) 2 * sfmt.width ≤ (dst.view 1).size := by
  constructor
  · intro met
    have even := met.even interlaced source target apart wide tall
    exact ⟨even, fun i below => met.narrow interlaced source target wide tall even below,
      met.chroma interlaced source target wide tall even⟩
  · rintro ⟨even, narrow, chroma⟩
    exact interleaved_of interlaced source target apart tall even narrow chroma

/-- A picture of 12x4 samples in lines of 12 bytes. -/
theorem swcUnpackTiledNv12_fields_narrow :
    ∃ sfmt dfmt, Word.pitcherGetPixFmtInfo
        { format := .nv12_8l128, width := 12, height := 4, interlaced := true } 8 = some sfmt ∧
      Word.pitcherGetPixFmtInfo { format := .nv12, width := 12, height := 4 } 4 = some dfmt ∧
      Interleaved {} {} (memoryOf 4096 sfmt) (memoryOf 65536 dfmt) sfmt dfmt := by
  refine ⟨_, _, rfl, rfl, (swcUnpackTiledNv12_fields_iff (memoryOf 4096 _) (memoryOf 65536 _) _ _ rfl
    ⟨rfl, ⟨by decide, .inl rfl⟩, rfl, rfl, rfl, by decide, by decide, by decide⟩
    ⟨rfl, ⟨by decide, .inl rfl⟩, by decide, by decide, by decide, by decide⟩ ⟨by decide, by decide⟩
    (by decide) (by decide) {} {}).mpr ⟨by decide, by decide, by decide⟩⟩

/-- In lines of 16 bytes the bottom field begins in the padding of the first line. -/
theorem swcUnpackTiledNv12_fields_wide :
    ∃ sfmt dfmt, Word.pitcherGetPixFmtInfo
        { format := .nv12_8l128, width := 12, height := 4, interlaced := true } 8 = some sfmt ∧
      Word.pitcherGetPixFmtInfo { format := .nv12, width := 12, height := 4 } 8 = some dfmt ∧
      (dfmt.planes 0).line = 16 ∧
      (Source (memoryOf 4096 sfmt) sfmt (fieldLines sfmt 0) fun i => ((memoryOf 4096 sfmt).view i).size / 2) ∧
      Target (memoryOf 65536 dfmt) dfmt sfmt.width (frameLines sfmt) ∧
      Separate (memoryOf 4096 sfmt) (memoryOf 65536 dfmt) ∧
      ¬ Interleaved {} {} (memoryOf 4096 sfmt) (memoryOf 65536 dfmt) sfmt dfmt := by
  refine ⟨_, _, rfl, rfl, rfl,
    ⟨rfl, ⟨by decide, .inl rfl⟩, rfl, rfl, rfl, by decide, by decide, by decide⟩,
    ⟨rfl, ⟨by decide, .inl rfl⟩, by decide, by decide, by decide, by decide⟩, ⟨by decide, by decide⟩, ?_⟩
  intro met
  have line := met.narrow rfl
    ⟨rfl, ⟨by decide, .inl rfl⟩, rfl, rfl, rfl, by decide, by decide, by decide⟩
    ⟨rfl, ⟨by decide, .inl rfl⟩, by decide, by decide, by decide, by decide⟩
    (by decide) (by decide) (by decide) (show 0 < 2 by decide)
  exact absurd line (by decide)

end ImxTest.Pitcher.Tiles
