import ImxTest.Pitcher.PlaneLayout

/-! The conversions of pitcher/convert.c that read tiles: what they read, and where
they write it. Products and sums of `uint32_t` are taken in 32 bits; pointers are
numbers. -/
namespace ImxTest.Pitcher.Tiles

open Lib.Copy
open Word (word)

/-! ## Eight bits -/

def unpackTile2Nv12 (tw x stride offset : Nat) : (y : Nat) → (src dst : Nat) → List Move
  | 0, _, _ => []
  | y + 1, src, dst =>
    ⟨dst + offset, src, x⟩ :: unpackTile2Nv12 tw x stride offset y (src + tw) (dst + stride)

/-- The inner loop of `swc_unpack_tile_2_nv12`, from column `i` on. Each turn takes a
byte at least, so `w` turns are enough. -/
def tileColumns (tw ts w lenY stride offset src dst : Nat) : (turns : Nat) → (x i : Nat) → List Move
  | 0, _, _ => []
  | turns + 1, x, i =>
    if x < w then
      let lenX := min tw (w - x)
      unpackTile2Nv12 tw lenX stride (word (offset + word (tw * i))) lenY (src + word (ts * i)) dst ++
        tileColumns tw ts w lenY stride offset src dst turns (x + lenX) (i + 1)
    else []

/-- Its outer loop, from row `j` on. -/
def tileRows (tw th w h ntx stride offset : Nat) : (left : Nat) → (j src dst : Nat) → List Move
  | 0, _, _, _ => []
  | left + 1, j, src, dst =>
    tileColumns tw (tw * th) w (min th (h - th * j)) stride offset src dst w 0 0 ++
      tileRows tw th w h ntx stride offset left (j + 1) (src + word (ntx * (tw * th)))
        (dst + word (stride * th))

def swcUnpackTile2Nv12 (src tw th w h ntx nty dst stride offset : Nat) : List Move :=
  tileRows tw th w h ntx stride offset nty 0 src dst

/-- Plane `i` of a frame, `h` rows of it. -/
def unpackFrame (splane dplane : BufRef) (sfmt dfmt : PixFmtInfo) (i h : Nat) : List Move :=
  swcUnpackTile2Nv12 splane.virt sfmt.tileWs sfmt.tileHs sfmt.width h
    ((sfmt.planes i).line / sfmt.tileWs) (divRoundUp h sfmt.tileHs) dplane.virt (dfmt.planes i).line 0

/-- Plane `i` of two fields, `h` rows of each: they lie in the two halves of the source. -/
def unpackFields (splane dplane : BufRef) (sfmt dfmt : PixFmtInfo) (i h : Nat) : List Move :=
  swcUnpackTile2Nv12 splane.virt sfmt.tileWs sfmt.tileHs sfmt.width h
      ((sfmt.planes i).line / sfmt.tileWs) (divRoundUp h sfmt.tileHs) dplane.virt
      (word ((dfmt.planes i).line * 2)) 0 ++
    swcUnpackTile2Nv12 (splane.virt + splane.size / 2) sfmt.tileWs sfmt.tileHs sfmt.width h
      ((sfmt.planes i).line / sfmt.tileWs) (divRoundUp h sfmt.tileHs) dplane.virt
      (word ((dfmt.planes i).line * 2)) sfmt.width

/-- What `swc_unpack_tiled_nv12` copies of plane `i`. -/
def unpackPlane (splane dplane : BufRef) (sfmt dfmt : PixFmtInfo) (i : Nat) : List Move :=
  if sfmt.interlaced then
    let h := sfmt.height / 2
    unpackFields splane dplane sfmt dfmt i (if i = 0 then h else divRoundUp h 2)
  else unpackFrame splane dplane sfmt dfmt i (if i = 0 then sfmt.height else divRoundUp sfmt.height 2)

/-- `splane` and `dplane` are the two planes as they are before they are set. -/
def swcUnpackTiledNv12 (splane dplane : BufRef) (src dst : Buffer) (sfmt dfmt : PixFmtInfo) : List Move :=
  let splane := (pitcherGetBufferPlane src 0).getD splane
  let dplane := (pitcherGetBufferPlane dst 0).getD dplane
  unpackPlane splane dplane sfmt dfmt 0 ++
    let splane := (pitcherGetBufferPlane src 1).getD splane
    let dplane := (pitcherGetBufferPlane dst 1).getD dplane
    unpackPlane splane dplane sfmt dfmt 1

/-! ## Ten bits -/

/-- A sample that is put together from two bytes, the upper `bits0` of its bits from the
first one, and the word that it is written to. -/
structure Fetch where
  plane : Nat
  first : Nat
  second : Nat
  bits0 : Nat
  target : Nat

def Fetch.bits1 (fetch : Fetch) : Nat := 10 - fetch.bits0

/-- `GET_U8_BITS` -/
def getU8Bits (byte mask shift : Nat) : Nat := byte >>> shift &&& mask

def Fetch.sample (mem : Nat → UInt8) (fetch : Fetch) : Nat :=
  getU8Bits (mem fetch.first).toNat (2 ^ fetch.bits0 - 1) 0 <<< fetch.bits1 |||
    getU8Bits (mem fetch.second).toNat (2 ^ fetch.bits1 - 1) (8 - fetch.bits1)

/-- `TILE_POS_TO_ADDR` -/
def tilePosToAddr (base offset ts tw y x : Nat) : Nat := base + offset + word (ts * (x / tw) + tw * y + x % tw)

/-- `pitcher_get_frame_line_vaddr`; `none` stands for NULL. -/
def pitcherGetFrameLineVaddr (buf : Buffer) (fmt : PixFmtInfo) (i y : Nat) : Option Nat :=
  (pitcherGetBufferPlane buf i).map fun plane => plane.virt + word (y * (fmt.planes i).line)

/-- Sample `x` of row `y` of plane `i`: where `get_10BE_pos` finds its bits. `bit_index` is
an `int`; a row has far fewer bits than that can hold. -/
def fetchAt (src dst : Buffer) (sfmt dfmt : PixFmtInfo) (i y x : Nat) : Fetch :=
  let tw := sfmt.tileWs
  let th := sfmt.tileHs
  let base := (pitcherGetFrameLineVaddr src sfmt i 0).getD 0
  let offset := word (y / th * word ((sfmt.planes i).line * th))
  let bitIndex := 10 * x
  let pos := bitIndex / 8
  { plane := i
    first := tilePosToAddr base offset (tw * th) tw (y % th) pos
    second := tilePosToAddr base offset (tw * th) tw (y % th) (pos + 1)
    bits0 := 8 - bitIndex % 8
    target := (pitcherGetFrameLineVaddr dst dfmt i y).getD 0 + 2 * x }

/-- The samples in the order in which they are read. -/
def fetches (src dst : Buffer) (sfmt dfmt : PixFmtInfo) : List Fetch :=
  (List.range sfmt.height).flatMap fun y =>
    (List.range sfmt.width).flatMap fun x =>
      fetchAt src dst sfmt dfmt 0 y x ::
        if y % 2 = 0 ∧ x % 2 = 0 then
          [fetchAt src dst sfmt dfmt 1 (y / 2) x, fetchAt src dst sfmt dfmt 1 (y / 2) (x + 1)]
        else []

/-- The words written, with their values. -/
def swcUnpackNv12_10be_8l128 (mem : Nat → UInt8) (src dst : Buffer) (sfmt dfmt : PixFmtInfo) :
    List (Nat × Nat) :=
  (fetches src dst sfmt dfmt).map fun fetch => (fetch.target, fetch.sample mem <<< 6)

/-! ## What the loops come to -/

section loops
variable {tw th ts w h lenY ntx nty stride offset src dst : Nat} {move : Move}

theorem mem_unpackTile {x y : Nat} : move ∈ unpackTile2Nv12 tw x stride offset y src dst ↔
    ∃ r < y, move = ⟨dst + r * stride + offset, src + r * tw, x⟩ := by
  induction y generalizing src dst with
  | zero => simp [unpackTile2Nv12]
  | succ y ih =>
    rw [unpackTile2Nv12, List.mem_cons, ih]
    constructor
    · rintro (rfl | ⟨r, below, rfl⟩)
      · exact ⟨0, Nat.zero_lt_succ y, by rw [Nat.zero_mul, Nat.zero_mul]; rfl⟩
      · refine ⟨r + 1, Nat.succ_lt_succ below, ?_⟩
        rw [Nat.succ_mul, Nat.succ_mul]
        congr 1 <;> omega
    · rintro ⟨r, below, rfl⟩
      cases r with
      | zero => exact .inl (by rw [Nat.zero_mul, Nat.zero_mul]; rfl)
      | succ r =>
        refine .inr ⟨r, Nat.lt_of_succ_lt_succ below, ?_⟩
        rw [Nat.succ_mul, Nat.succ_mul]
        congr 1 <;> omega

/-- The columns begin at the multiples of the tile width. -/
theorem mem_tileColumns (positive : 0 < tw) {turns x i : Nat} (enough : w ≤ x + turns)
    (place : x = tw * i ∨ w ≤ x ∧ w ≤ tw * i) :
    move ∈ tileColumns tw ts w lenY stride offset src dst turns x i ↔
      ∃ c, i ≤ c ∧ tw * c < w ∧
        move ∈ unpackTile2Nv12 tw (min tw (w - tw * c)) stride (word (offset + word (tw * c))) lenY
          (src + word (ts * c)) dst := by
  have past {i c : Nat} (behind : w ≤ tw * i) (later : i ≤ c) : ¬ tw * c < w := by
    have := Nat.mul_le_mul_left tw later
    omega
  induction turns generalizing x i with
  | zero =>
    have behind : w ≤ tw * i := by omega
    simp only [tileColumns, List.not_mem_nil, false_iff, not_exists, not_and]
    exact fun c later inside => absurd inside (past behind later)
  | succ turns ih =>
    rw [tileColumns]
    by_cases inside : x < w
    · obtain rfl : x = tw * i := by omega
      have next : tw * i + min tw (w - tw * i) = tw * (i + 1) ∨
          w ≤ tw * i + min tw (w - tw * i) ∧ w ≤ tw * (i + 1) := by
        rw [Nat.mul_succ]
        omega
      have left : w ≤ tw * i + min tw (w - tw * i) + turns := by omega
      have rest := ih left next
      rw [if_pos inside, List.mem_append]
      constructor
      · rintro (now | behind)
        · exact ⟨i, Nat.le_refl i, inside, now⟩
        · obtain ⟨c, later, more, found⟩ := rest.mp behind
          exact ⟨c, Nat.le_of_succ_le later, more, found⟩
      · rintro ⟨c, later, more, found⟩
        rcases Nat.eq_or_lt_of_le later with rfl | after
        · exact .inl found
        · exact .inr (rest.mpr ⟨c, after, more, found⟩)
    · have behind : w ≤ tw * i := by omega
      rw [if_neg inside]
      simp only [List.not_mem_nil, false_iff, not_exists, not_and]
      exact fun c later inside => absurd inside (past behind later)

theorem mem_tileRows {left j : Nat} : move ∈ tileRows tw th w h ntx stride offset left j src dst ↔
    ∃ k < left, move ∈ tileColumns tw (tw * th) w (min th (h - th * (j + k))) stride offset
      (src + k * word (ntx * (tw * th))) (dst + k * word (stride * th)) w 0 0 := by
  induction left generalizing j src dst with
  | zero => simp [tileRows]
  | succ left ih =>
    rw [tileRows, List.mem_append, ih]
    constructor
    · rintro (now | ⟨k, below, found⟩)
      · exact ⟨0, Nat.zero_lt_succ _, by simpa using now⟩
      · refine ⟨k + 1, Nat.succ_lt_succ below, ?_⟩
        rwa [Nat.add_right_comm, Nat.add_assoc src, Nat.add_comm (word _), ← Nat.succ_mul, Nat.add_assoc dst,
          Nat.add_comm (word _), ← Nat.succ_mul] at found
    · rintro ⟨k, below, found⟩
      cases k with
      | zero => exact .inl (by simpa using found)
      | succ k =>
        refine .inr ⟨k, Nat.lt_of_succ_lt_succ below, ?_⟩
        rwa [Nat.add_right_comm, Nat.add_assoc src, Nat.add_comm (word _), ← Nat.succ_mul, Nat.add_assoc dst,
          Nat.add_comm (word _), ← Nat.succ_mul]

/-- The moves of a picture: row `r` of the part of a tile in tile row `k` and tile column `c`. -/
theorem mem_swcUnpackTile (positive : 0 < tw) :
    move ∈ swcUnpackTile2Nv12 src tw th w h ntx nty dst stride offset ↔
      ∃ k < nty, ∃ c, tw * c < w ∧ ∃ r < min th (h - th * k),
        move = ⟨dst + k * word (stride * th) + r * stride + word (offset + word (tw * c)),
          src + k * word (ntx * (tw * th)) + word (tw * th * c) + r * tw, min tw (w - tw * c)⟩ := by
  rw [swcUnpackTile2Nv12, mem_tileRows]
  refine exists_congr fun k => and_congr_right fun _ => ?_
  rw [mem_tileColumns positive (by omega) (.inl (Nat.mul_zero _).symm)]
  refine exists_congr fun c => ?_
  rw [Nat.zero_add, mem_unpackTile, and_iff_right (Nat.zero_le c)]

/-- The byte of a tiled plane that stands for column `x` of row `y`; `row` is the size
of a row of tiles. -/
def tileByte (row tw th x y : Nat) : Nat :=
  y / th * row + tw * th * (x / tw) + tw * (y % th) + x % tw

/-- No product that is used is too large for 32 bits. -/
structure Small (tw th w h ntx stride offset : Nat) : Prop where
  column : ∀ c, tw * c < w → tw * th * c < 2 ^ 32
  shift : offset + w ≤ 2 ^ 32
  rows : th < h → ntx * (tw * th) < 2 ^ 32 ∧ stride * th < 2 ^ 32

theorem Small.words (small : Small tw th w h ntx stride offset) {k c : Nat} (row : th * k < h)
    (column : tw * c < w) :
    k * word (stride * th) = th * k * stride ∧ k * word (ntx * (tw * th)) = k * (ntx * (tw * th)) ∧
      word (offset + word (tw * c)) = offset + tw * c ∧ word (tw * th * c) = tw * th * c := by
  have shift := small.shift
  have least : tw * c < 2 ^ 32 := by omega
  refine ⟨?_, ?_, ?_, Word.word_small (small.column c column)⟩
  · rcases Nat.eq_zero_or_pos k with rfl | later
    · simp
    · have more : th < h := Nat.lt_of_le_of_lt (Nat.le_mul_of_pos_right th later) row
      rw [Word.word_small (small.rows more).2, Nat.mul_comm stride, ← Nat.mul_assoc, Nat.mul_comm k]
  · rcases Nat.eq_zero_or_pos k with rfl | later
    · simp
    · have more : th < h := Nat.lt_of_le_of_lt (Nat.le_mul_of_pos_right th later) row
      rw [Word.word_small (small.rows more).1]
  · rw [Word.word_small least, Word.word_small (by omega)]

/-- Every byte of a picture is brought from the tile it lies in, and nothing else is. -/
theorem brings_swcUnpackTile (wide : 0 < tw) (tall : 0 < th) (small : Small tw th w h ntx stride offset)
    {a s : Nat} :
    (∃ move ∈ swcUnpackTile2Nv12 src tw th w h ntx (divRoundUp h th) dst stride offset, move.Brings a s) ↔
      ∃ y < h, ∃ x < w, a = dst + y * stride + offset + x ∧
        s = src + tileByte (ntx * (tw * th)) tw th x y := by
  constructor
  · rintro ⟨move, found, t, inside, rfl, rfl⟩
    obtain ⟨k, -, c, column, r, row, rfl⟩ := (mem_swcUnpackTile wide).mp found
    dsimp only at inside ⊢
    obtain ⟨down, across, right, tile⟩ := small.words (by omega : th * k < h) column
    have lineOf : (th * k + r) / th = k ∧ (th * k + r) % th = r := by
      rw [Nat.mul_add_div tall, Nat.mul_add_mod, Nat.div_eq_of_lt (by omega), Nat.mod_eq_of_lt (by omega)]
      exact ⟨rfl, rfl⟩
    have columnOf : (tw * c + t) / tw = c ∧ (tw * c + t) % tw = t := by
      rw [Nat.mul_add_div wide, Nat.mul_add_mod, Nat.div_eq_of_lt (by omega), Nat.mod_eq_of_lt (by omega)]
      exact ⟨rfl, rfl⟩
    refine ⟨th * k + r, by omega, tw * c + t, by omega, ?_, ?_⟩
    · rw [down, right, Nat.add_mul]
      omega
    · rw [across, tile, tileByte, lineOf.1, lineOf.2, columnOf.1, columnOf.2, Nat.mul_comm r]
      omega
  · rintro ⟨y, row, x, column, rfl, rfl⟩
    have lines := Nat.div_add_mod y th
    have columns := Nat.div_add_mod x tw
    have below := Nat.mod_lt y tall
    have left := Nat.mod_lt x wide
    obtain ⟨down, across, right, tile⟩ :=
      small.words (by omega : th * (y / th) < h) (by omega : tw * (x / tw) < w)
    have inside : y / th < divRoundUp h th := by
      rw [divRoundUp, Nat.lt_div_iff_mul_lt tall, Nat.mul_comm]
      omega
    refine ⟨_, (mem_swcUnpackTile wide).mpr
      ⟨y / th, inside, x / tw, by omega, y % th, by omega, rfl⟩, x % tw, ?_, ?_, ?_⟩
    · dsimp only
      omega
    · dsimp only
      have whole : y * stride = th * (y / th) * stride + y % th * stride := by rw [← Nat.add_mul, lines]
      rw [down, right, whole]
      omega
    · dsimp only
      rw [across, tile, tileByte, Nat.mul_comm (y % th)]
      omega

/-- All of it is read inside its rows of tiles. -/
theorem reads_swcUnpackTile (wide : 0 < tw) (lines : w ≤ ntx * tw)
    (found : move ∈ swcUnpackTile2Nv12 src tw th w h ntx nty dst stride offset) :
    src ≤ move.src ∧ move.src + move.n ≤ src + nty * (ntx * (tw * th)) := by
  obtain ⟨k, below, c, column, r, row, rfl⟩ := (mem_swcUnpackTile wide).mp found
  have down : k * word (ntx * (tw * th)) ≤ k * (ntx * (tw * th)) :=
    Nat.mul_le_mul_left k (Nat.mod_le _ _)
  have across : word (tw * th * c) ≤ tw * th * c := Nat.mod_le _ _
  have tile : tw * th * c + tw * th ≤ ntx * (tw * th) := by
    have inside : c < ntx := Nat.lt_of_mul_lt_mul_left (a := tw) (by rw [Nat.mul_comm tw ntx]; omega)
    have := Nat.mul_le_mul_right (tw * th) (Nat.succ_le_of_lt inside)
    rwa [Nat.succ_mul, Nat.mul_comm c] at this
  have part : r * tw + tw ≤ tw * th := by
    have := Nat.mul_le_mul_left tw (show r + 1 ≤ th by omega)
    rwa [Nat.mul_succ, Nat.mul_comm tw r] at this
  have all := Nat.mul_le_mul_right (ntx * (tw * th)) (Nat.succ_le_of_lt below)
  rw [Nat.succ_mul] at all
  dsimp only
  omega

end loops

end ImxTest.Pitcher.Tiles
