import ImxTest.V4l2Dec.Tiles10

/-! When the three algorithms of `__ReadYUVFrame_FSL_10b` show the same picture, the one that is in
the tiles. -/
namespace ImxTest.V4l2Dec
open Lib.Strips Lib.Words Lib.Writes

/-- The column that a group of an algorithm begins with. -/
def Algorithm10bit.start : Algorithm10bit → (width h : Nat) → Nat
  | .one, width => (width * ·)
  | .two, _ => (8 * ·)
  | .three, _ => firstField

def Algorithm10bit.groups : Algorithm10bit → (width : Nat) → Nat
  | .one, _ => 1
  | .two, width => (width + 7) / 8
  | .three, width => (width * 10 / 8 + 7) / 8

def Algorithm10bit.index : Algorithm10bit → Nat → Int
  | .three => fun n => uint n
  | .one | .two => fun n => int n

def Algorithm10bit.limit : Algorithm10bit → Nat
  | .three => 2 ^ 32
  | .one | .two => 2 ^ 31

def Algorithm10bit.value (algorithm : Algorithm10bit) (rowBuf src : Memory) (stride hCnt bitCnt : Nat) : Spot → Nat :=
  match algorithm with
  | .one => value10b1 rowBuf src stride hCnt bitCnt
  | .two => value10b2 src stride bitCnt
  | .three => value10b3 src stride bitCnt

/-- How many samples are written, those behind the lines included. -/
def Algorithm10bit.reach (algorithm : Algorithm10bit) (width lines : Nat) : Nat :=
  extent 128 width (algorithm.start width) (algorithm.groups width) ((lines + 127) / 128)

/-- Every visible field is shown. -/
def Fields10 (algorithm : Algorithm10bit) (cap width lines stride bitCnt : Nat) : Prop :=
  ∀ rowBuf src mem, ∃ out, tiles10 algorithm rowBuf cap width stride bitCnt lines src 0 mem = some out ∧
    Shows out 0 (bitCnt / 8) width lines (shown10 bitCnt src stride)

/-- The rows that algorithm 1 reads into hold the tiles, and the tiles it loads hold the fields. -/
structure Rows10 (width stride bitCnt : Nat) : Prop where
  rows : 127 * stride + 8 * ((width * 10 / 8 + 7) / 8) ≤ 128 * stride % 2 ^ 32
  loaded : lastByte bitCnt (width - 1) < 8 * ((width * 10 / 8 + 7) / 8)

/-- The positions of the bytes that are shown, as numbers of an int. -/
def Source10 (width lines stride bitCnt : Nat) : Prop :=
  ∀ x < width, ∀ y < lines, tileOffset stride (lastByte bitCnt x) y < 2 ^ 31

/-- What is asked of a picture. -/
structure Fits10 (cap width lines stride bitCnt : Nat) : Prop where
  shape : width % 32 = 0 ∨ width ≤ 6 ∨ lines ≤ 1
  rows : Rows10 width stride bitCnt
  numbers : Algorithm10bit.two.reach width lines ≤ 2 ^ 31
  room : ∀ algorithm : Algorithm10bit, algorithm.reach width lines * (bitCnt / 8) ≤ cap
  source : Source10 width lines stride bitCnt

section Start
variable {algorithm : Algorithm10bit} {width lines : Nat}

theorem start_mono : Monotone (algorithm.start width) :=
  match algorithm with
  | .one => fun _ _ le => Nat.mul_le_mul_left width le
  | .two => columns_mono
  | .three => firstField_mono

theorem start_zero : algorithm.start width 0 = 0 :=
  match algorithm with
  | .one | .two | .three => rfl

theorem start_wide : width ≤ algorithm.start width (algorithm.groups width) := by
  cases algorithm with
  | one => exact Nat.le_of_eq (Nat.mul_one width).symm
  | two =>
    show width ≤ 8 * ((width + 7) / 8)
    omega
  | three =>
    show width ≤ (64 * ((width * 10 / 8 + 7) / 8) + 9) / 10
    omega

theorem le_reach10 {n : Nat} (some_line : 0 < lines) (tall : n ≤ (lines + 127) / 128 * 128) :
    n * width ≤ algorithm.reach width lines :=
  le_extent start_wide (by omega) tall

theorem reach10_mono {lines' : Nat} (le : lines ≤ lines') : algorithm.reach width lines ≤ algorithm.reach width lines' :=
  extent_mono (by omega)

/-- The algorithms differ in what is behind the last line only. -/
theorem reach10_le (algorithm : Algorithm10bit) (width lines : Nat) :
    algorithm.reach width lines ≤ Algorithm10bit.one.reach width lines + 7 := by
  have columns : algorithm.start width (algorithm.groups width) ≤ width * 1 + 7 := by
    cases algorithm with
    | one => exact Nat.le_add_right _ _
    | two =>
      show 8 * ((width + 7) / 8) ≤ width * 1 + 7
      omega
    | three =>
      show (64 * ((width * 10 / 8 + 7) / 8) + 9) / 10 ≤ width * 1 + 7
      omega
  have single : Algorithm10bit.one.start width (Algorithm10bit.one.groups width) = width * 1 := rfl
  unfold Algorithm10bit.reach extent
  rw [single]
  split <;> omega

theorem reach10_one_le (algorithm : Algorithm10bit) (width lines : Nat) :
    Algorithm10bit.one.reach width lines ≤ algorithm.reach width lines := by
  have columns := @start_wide algorithm width
  have single : Algorithm10bit.one.start width (Algorithm10bit.one.groups width) = width := Nat.mul_one width
  unfold Algorithm10bit.reach extent
  rw [single]
  split <;> omega

end Start

section Calls
variable {algorithm : Algorithm10bit} {cap width lines stride bitCnt base hCnt : Nat} {rowBuf src mem out : Memory} {s : Spot}

theorem indexes10 : Indexes algorithm.index algorithm.limit :=
  match algorithm with
  | .one | .two => int_indexes
  | .three => uint_indexes

/-- Nothing is read. -/
theorem tiles10_none (none : width = 0 ∨ uint ((lines : Int) + 127) / 128 = 0) :
    tiles10 algorithm rowBuf cap width stride bitCnt lines src base mem = some mem := by
  have unwritten {samples : List (Int × Nat)} (empty : samples = []) : fill cap mem base (bitCnt / 8) samples = some mem := by
    rw [empty]
    simp [fill, write, store]
  have no_tile : uint (((0 : Nat) : Int) + 7) / 8 = 0 ∧ (uint (((0 : Nat) : Int) * 10) / 8 + 7) / 8 = 0 := by
    unfold uint
    decide
  unfold tiles10
  dsimp only
  cases algorithm with
  | one =>
    refine readFsl10b1_eq_some_iff.mpr ⟨fun v strip => rowLoads_inside.mpr (.inl ?_), unwritten ?_⟩
    · rcases none with rfl | none
      · exact no_tile.2
      · omega
    · rcases none with rfl | none
      · simp [stripSamples, spots]
      · rw [none]
        rfl
  | two =>
    refine unwritten ?_
    rcases none with rfl | none
    · simp only [fslSamples10b2, no_tile.1, List.range_zero, List.flatMap_nil, List.flatMap_eq_nil_iff, implies_true]
    · rw [none]
      rfl
  | three =>
    refine unwritten ?_
    rcases none with rfl | none
    · simp only [fslSamples10b3, no_tile.2, List.range_zero, List.flatMap_nil, List.flatMap_eq_nil_iff, implies_true]
    · rw [none]
      rfl

/-- Every algorithm is a pass over the strips. -/
theorem tiles10_eq_some_iff (narrow : 128 * width ≤ 2 ^ 32) (tall : lines ≤ 2 ^ 31)
    (numbers : Algorithm10bit.three.reach width lines ≤ 2 ^ 32) :
    tiles10 algorithm rowBuf cap width stride bitCnt lines src base mem = some out ↔
      (algorithm = .one → ∀ v < (lines + 127) / 128, ∀ byte ∈ rowLoads src stride ((width * 10 / 8 + 7) / 8) v,
        0 ≤ byte.1 ∧ byte.1 < uint (128 * stride)) ∧
      fill cap mem base (bitCnt / 8) (stripSamples algorithm.index 128 width (algorithm.start width) (algorithm.groups width)
        ((lines + 127) / 128) (algorithm.value rowBuf src stride ((width * 10 / 8 + 7) / 8) bitCnt)) = some out := by
  have bits : uint ((width : Int) * 10) = width * 10 := uint_natCast (n := width * 10) (by omega)
  have columns : uint ((width : Int) + 7) = width + 7 := uint_natCast_add (show width + 7 < 2 ^ 32 by omega)
  have strips : uint ((lines : Int) + 127) = lines + 127 := uint_natCast_add (show lines + 127 < 2 ^ 32 by omega)
  unfold tiles10
  simp only [bits, strips]
  cases algorithm with
  | one => exact readFsl10b1_eq_some_iff.trans (and_congr_left' ⟨fun inside _ => inside, fun inside => inside rfl⟩)
  | two => simp only [readFsl10b, fslSamples10b2_eq, columns, reduceCtorEq, false_imp_iff, true_and]; rfl
  | three =>
    have samples := @fslSamples10b3_eq src width stride bitCnt ((width * 10 / 8 + 7) / 8) ((lines + 127) / 128)
      (by omega) (by omega) numbers
    simp only [readFsl10b, samples, reduceCtorEq, false_imp_iff, true_and]
    rfl

/-- A sample that is not beyond the end of its line. -/
theorem value10_shown (mem_s : s ∈ spots 128 (algorithm.start width) (algorithm.groups width) ((lines + 127) / 128))
    (visible : s.col < width) (row : s.row 128 < lines) (narrow : 128 * width ≤ 2 ^ 32) (tall : lines ≤ 2 ^ 31)
    (rows : algorithm = .one → 8 * ((width * 10 / 8 + 7) / 8) ≤ stride ∧ Rows10 width stride bitCnt)
    (source : Source10 width lines stride bitCnt) :
    algorithm.value rowBuf src stride ((width * 10 / 8 + 7) / 8) bitCnt s = shown10 bitCnt src stride s.col (s.row 128) := by
  have cases := @lastByte_cases bitCnt s.col
  have last := source s.col visible (s.row 128) row
  have first := Nat.lt_of_le_of_lt (@tileOffset_mono stride _ _ (s.row 128)
    (show 10 * s.col / 8 ≤ lastByte bitCnt s.col by omega)) last
  cases algorithm with
  | one =>
    obtain ⟨apart, fits⟩ := rows rfl
    have loaded := fits.loaded
    have order : lastByte bitCnt s.col ≤ lastByte bitCnt (width - 1) := by
      unfold lastByte
      split <;> omega
    exact value10b1_shown apart (mem_spots.mp mem_s).2.2.1 (by omega) (by omega) last
  | two =>
    show value10b2 src stride bitCnt s = _
    rw [value10b2_eq (by omega) (by omega), int_natCast first]
    refine sample10_shown rfl fun taken => ?_
    have next : lastByte bitCnt s.col = 10 * s.col / 8 + 1 := by omega
    rw [next] at last
    rw [int_natCast last]
  | three =>
    show value10b3 src stride bitCnt s = _
    rw [value10b3_eq mem_s (by omega)]
    exact sample10_shown rfl fun _ => rfl

/-- A call that shows what is visible. -/
theorem tiles10_reads (narrow : 128 * width ≤ 2 ^ 32) (tall : lines ≤ 2 ^ 31)
    (numbers : Algorithm10bit.three.reach width lines ≤ 2 ^ 32)
    (kept : algorithm.start width (algorithm.groups width) ≤ width ∨ algorithm.groups width ≤ 1 ∨ lines ≤ 1)
    (room : RoomFor cap base (bitCnt / 8) algorithm.limit (algorithm.reach width lines))
    (rows : algorithm = .one → Rows10 width stride bitCnt) (source : Source10 width lines stride bitCnt) :
    Reads (tiles10 algorithm rowBuf cap width stride bitCnt) src base (algorithm.reach width lines * (bitCnt / 8))
      (bitCnt / 8) width lines (shown10 bitCnt src stride) := by
  intro mem
  have apart (one : algorithm = .one) : 8 * ((width * 10 / 8 + 7) / 8) ≤ stride := by
    have inside := (rows one).rows
    omega
  obtain ⟨mem', filled, lays⟩ := @exists_lays cap base (bitCnt / 8) 128 width (algorithm.groups width)
    ((lines + 127) / 128) algorithm.limit (algorithm.start width) algorithm.index
    (algorithm.value rowBuf src stride ((width * 10 / 8 + 7) / 8) bitCnt) mem lines (shown10 bitCnt src stride) indexes10
    start_mono start_zero start_wide (by omega) room kept fun s mem_s visible row =>
      value10_shown mem_s visible row narrow tall (fun one => ⟨apart one, rows one⟩) source
  refine ⟨mem', (tiles10_eq_some_iff narrow tall numbers).mpr ⟨fun one v _ => rowLoads_inside.mpr (.inr ?_), filled⟩, lays⟩
  have inside := (rows one).rows
  have bytes := uint_mod (128 * stride)
  push_cast at bytes
  omega

theorem fields10_of_fits (some_col : 0 < width) (some_line : 0 < lines) (fits : Fits10 cap width lines stride bitCnt) :
    Fields10 algorithm cap width lines stride bitCnt := by
  intro rowBuf src mem
  have numbers := fits.numbers
  have narrow := @le_reach10 .two width lines 128 some_line (by omega)
  have area := @le_reach10 .two width lines lines some_line (by omega)
  have tall := Nat.le_mul_of_pos_right lines some_col
  have least := reach10_one_le .two width lines
  have most (algorithm : Algorithm10bit) := reach10_le algorithm width lines
  have third := most .three
  have limit : algorithm.reach width lines ≤ algorithm.limit := by
    cases algorithm with
    | one => exact Nat.le_trans least numbers
    | two => exact numbers
    | three => exact Nat.le_trans third (show _ ≤ 2 ^ 32 by omega)
  have kept : algorithm.start width (algorithm.groups width) ≤ width ∨ algorithm.groups width ≤ 1 ∨ lines ≤ 1 := by
    have shape := fits.shape
    cases algorithm with
    | one => exact .inr (.inl (Nat.le_refl 1))
    | two =>
      show 8 * ((width + 7) / 8) ≤ width ∨ (width + 7) / 8 ≤ 1 ∨ lines ≤ 1
      omega
    | three =>
      show (64 * ((width * 10 / 8 + 7) / 8) + 9) / 10 ≤ width ∨ (width * 10 / 8 + 7) / 8 ≤ 1 ∨ lines ≤ 1
      omega
  have room : RoomFor cap 0 (bitCnt / 8) algorithm.limit (algorithm.reach width lines) :=
    ⟨limit, by rw [Nat.zero_add]; exact fits.room algorithm⟩
  obtain ⟨out, read, lays⟩ := @tiles10_reads algorithm cap width lines stride bitCnt 0 rowBuf src (by omega) (by omega)
    (by omega) kept room (fun _ => fits.rows) fits.source mem
  exact ⟨out, read, lays.shows⟩

end Calls

/-- What a picture that the algorithms show leaves of its passes. -/
structure Passes10 (cap width lines stride bitCnt : Nat) : Prop where
  narrow : 128 * width ≤ 2 ^ 31
  tall : lines ≤ 2 ^ 31
  numbers : ∀ algorithm : Algorithm10bit, algorithm.reach width lines ≤ algorithm.limit
  room : ∀ algorithm : Algorithm10bit, algorithm.reach width lines * (bitCnt / 8) ≤ cap
  rows : 127 * stride + 8 * ((width * 10 / 8 + 7) / 8) ≤ 128 * stride % 2 ^ 32
  shows : ∀ (algorithm : Algorithm10bit) rowBuf src, ∃ out, fill cap (fun _ => 0) 0 (bitCnt / 8)
    (stripSamples algorithm.index 128 width (algorithm.start width) (algorithm.groups width) ((lines + 127) / 128)
      (algorithm.value rowBuf src stride ((width * 10 / 8 + 7) / 8) bitCnt)) = some out ∧
    Shows out 0 (bitCnt / 8) width lines (shown10 bitCnt src stride)

section Exact
variable {cap width lines stride bitCnt : Nat}

theorem strips_of_fields10 (tall : lines < 2 ^ 32) (some_col : 0 < width) (some_line : 0 < lines)
    (some_byte : 0 < bitCnt / 8) (right : Fields10 .one cap width lines stride bitCnt) : lines + 127 < 2 ^ 32 := by
  by_contra beyond
  have none : uint ((lines : Int) + 127) / 128 = 0 := by
    have strips := uint_mod (lines + 127)
    push_cast at strips
    omega
  obtain ⟨out, read, shows⟩ := right (fun _ => 0) (fun _ => 0) fun _ => 0
  obtain ⟨out', read', shows'⟩ := right (fun _ => 0) (fun _ => 0) fun _ => 1
  cases (tiles10_none (.inr none)).symm.trans read
  cases (tiles10_none (.inr none)).symm.trans read'
  have first := shows 0 some_col 0 some_line 0 some_byte
  rw [← shows' 0 some_col 0 some_line 0 some_byte] at first
  exact absurd first (show (0 : UInt8) ≠ 1 by decide)

theorem passes_of_fields10 (tall : lines < 2 ^ 32) (some_col : 0 < width) (some_line : 0 < lines) (small : cap < 2 ^ 32)
    (some_byte : 0 < bitCnt / 8) (right : ∀ algorithm, Fields10 algorithm cap width lines stride bitCnt) :
    Passes10 cap width lines stride bitCnt := by
  have tall := strips_of_fields10 tall some_col some_line some_byte (right .one)
  have least : Algorithm10bit.one.reach width lines ≤ 2 ^ 31 := by
    obtain ⟨out, read, -⟩ := right .one (fun _ => 0) (fun _ => 0) fun _ => 0
    have strips : uint ((lines : Int) + 127) = lines + 127 := uint_natCast_add tall
    have filled := (readFsl10b1_eq_some_iff.mp read).2
    rw [strips] at filled
    exact numbers_of_fill int_indexes small rfl (Nat.le_of_eq (Nat.mul_one width).symm) some_col some_byte filled
  have narrow := @le_reach10 .one width lines 128 some_line (by omega)
  have area := @le_reach10 .one width lines lines some_line (by omega)
  have order := Nat.le_mul_of_pos_right lines some_col
  have third := reach10_le .three width lines
  have passes (algorithm : Algorithm10bit) (rowBuf src mem : Memory) : ∃ out, _ ∧ _ :=
    (right algorithm rowBuf src mem).imp fun out both =>
      ⟨(tiles10_eq_some_iff (by omega) (by omega) (by omega)).mp both.1, both.2⟩
  have numbers (algorithm : Algorithm10bit) : algorithm.reach width lines ≤ algorithm.limit := by
    obtain ⟨out, ⟨-, filled⟩, -⟩ := passes algorithm (fun _ => 0) (fun _ => 0) fun _ => 0
    exact numbers_of_fill indexes10 small start_zero start_wide some_col some_byte filled
  refine ⟨by omega, by omega, numbers, fun algorithm => ?_, ?_, fun algorithm rowBuf src => ?_⟩
  · obtain ⟨out, ⟨-, filled⟩, -⟩ := passes algorithm (fun _ => 0) (fun _ => 0) fun _ => 0
    have bytes := bytes_of_fill indexes10 (numbers algorithm) start_zero start_wide some_col some_byte (by omega) filled
    rwa [Nat.zero_add] at bytes
  · obtain ⟨out, ⟨inside, -⟩, -⟩ := passes .one (fun _ => 0) (fun _ => 0) fun _ => 0
    have room := rowLoads_inside.mp (inside rfl 0 (by omega))
    have bytes := uint_mod (128 * stride)
    push_cast at bytes
    omega
  · obtain ⟨out, ⟨-, filled⟩, shows⟩ := passes algorithm rowBuf src fun _ => 0
    exact ⟨out, filled, shows⟩

section Values
variable {algorithm : Algorithm10bit} {rowBuf src : Memory} {hCnt x y : Nat} {s : Spot}

/-- Whatever is read, a sample is of ten bits or eight. -/
theorem value10_lt (depth : bitCnt = 8 ∨ bitCnt = 16) (col : 10 * s.col < 2 ^ 31) (row : s.row 128 < 2 ^ 31) :
    algorithm.value rowBuf src stride hCnt bitCnt s < 256 ^ (bitCnt / 8) := by
  cases algorithm with
  | one =>
    have bit : ((10 * s.col : Nat) : Int).tmod 8 = (10 * s.col % 8 : Nat) := rfl
    show value10b1 rowBuf src stride hCnt bitCnt s < _
    dsimp only [value10b1]
    rw [int_natCast col, bit]
    exact sample10_lt depth
  | two =>
    show value10b2 src stride bitCnt s < _
    rw [value10b2_eq col row]
    exact sample10_lt depth
  | three => exact sample10_lt depth

theorem shown10_eq : shown10 bitCnt src stride x y = sample10 bitCnt (10 * x % 8 : Nat)
    (src (tileOffset stride (10 * x / 8) y)) (src (tileOffset stride (10 * x / 8 + 1) y)) :=
  (sample10_shown rfl fun _ => rfl).symm

/-- A sample that is written last where it is shows what is asked of that place. -/
theorem Passes10.value_eq (passes : Passes10 cap width lines stride bitCnt) (depth : bitCnt = 8 ∨ bitCnt = 16)
    (mem_s : s ∈ spots 128 (algorithm.start width) (algorithm.groups width) ((lines + 127) / 128))
    (last : ∀ t ∈ spots 128 (algorithm.start width) (algorithm.groups width) ((lines + 127) / 128),
      t.place 128 width = s.place 128 width → t = s ∨ t.Before s)
    (col : x < width) (line : y < lines) (here : s.place 128 width = y * width + x) (inside : s.col ≤ width)
    (above : s.row 128 ≤ y) : algorithm.value rowBuf src stride ((width * 10 / 8 + 7) / 8) bitCnt s =
      shown10 bitCnt src stride x y := by
  obtain ⟨out, filled, shows⟩ := passes.shows algorithm rowBuf src
  have narrow := passes.narrow
  have tall := passes.tall
  refine fill_value indexes10 start_mono (passes.numbers algorithm) filled mem_s last shows col line here
    (value10_lt depth (by omega) (by omega)) ?_
  rw [shown10_eq]
  exact sample10_lt depth

/-- The first byte of the second line is read there only. -/
theorem first_line_apart {c : Nat} (later : 8 ≤ c) :
    (tileOffset stride c 0 : Int) ≠ (8 : Nat) ∧ int (tileOffset stride c 0) ≠ (8 : Nat) := by
  have offset : tileOffset stride c 0 = 1024 * (c / 8) + c % 8 := by
    unfold tileOffset
    omega
  obtain ⟨k, word⟩ := exists_int (tileOffset stride c 0)
  rw [word, offset]
  clear word offset
  push_cast
  constructor <;> omega

theorem value10_apart (mem_s : s ∈ spots 128 (algorithm.start width) (algorithm.groups width) ((lines + 127) / 128))
    (more : 1 < algorithm.groups width) (first : s.row 128 = 0) (later : 8 ≤ 10 * s.col / 8) (small : 160 * s.col < 2 ^ 32) :
    algorithm.value rowBuf (fun c => if c = (8 : Nat) then 255 else 0) stride hCnt bitCnt s = 0 := by
  have here := @first_line_apart stride (10 * s.col / 8) later
  have next := @first_line_apart stride (10 * s.col / 8 + 1) (by omega)
  cases algorithm with
  | one => exact absurd more (Nat.lt_irrefl 1)
  | two =>
    have read := @value10b2_eq (fun c => if c = (8 : Nat) then 255 else 0) stride bitCnt s (by omega) (by omega)
    rw [first, if_neg here.2, if_neg next.2] at read
    exact read.trans sample10_zero
  | three =>
    have source : tileOffset stride (10 * s.col / 8) (s.row 128) < 2 ^ 32 := by
      rw [first]
      unfold tileOffset
      omega
    have read := @value10b3_eq (fun c => if c = (8 : Nat) then 255 else 0) stride bitCnt _ _ s mem_s source
    rw [first, if_neg here.1, if_neg next.1] at read
    exact read.trans sample10_zero

/-- The field behind the end of the first line does not come after the first one of the second line. -/
theorem Passes10.shape (passes : Passes10 cap width lines stride bitCnt) (depth : bitCnt = 8 ∨ bitCnt = 16)
    (some_col : 0 < width) (algorithm : Algorithm10bit) :
    algorithm.start width (algorithm.groups width) ≤ width ∨ algorithm.groups width ≤ 1 ∨ lines ≤ 1 := by
  by_contra bad
  obtain ⟨beyond, more_groups, more_lines⟩ : width < algorithm.start width (algorithm.groups width) ∧
    1 < algorithm.groups width ∧ 1 < lines := by omega
  have narrow := passes.narrow
  have sizes : (0 < algorithm.start width 1 ∧ algorithm.start width 1 ≤ width) ∧
      algorithm.start width (algorithm.groups width) ≤ 2 * width ∧ 8 ≤ width := by
    cases algorithm with
    | one => exact absurd more_groups (Nat.lt_irrefl 1)
    | two =>
      have more : 1 < (width + 7) / 8 := more_groups
      show (0 < 8 * 1 ∧ 8 * 1 ≤ width) ∧ 8 * ((width + 7) / 8) ≤ 2 * width ∧ 8 ≤ width
      omega
    | three =>
      have more : 1 < (width * 10 / 8 + 7) / 8 := more_groups
      show (0 < (64 * 1 + 9) / 10 ∧ (64 * 1 + 9) / 10 ≤ width) ∧
        (64 * ((width * 10 / 8 + 7) / 8) + 9) / 10 ≤ 2 * width ∧ 8 ≤ width
      omega
  obtain ⟨g, group, inside⟩ := exists_group start_zero beyond
  have behind : (⟨0, g, 0, width⟩ : Spot) ∈
      spots 128 (algorithm.start width) (algorithm.groups width) ((lines + 127) / 128) :=
    mem_spots.mpr ⟨show 0 < (lines + 127) / 128 by omega, group, show 0 < 128 by decide, inside⟩
  have place : (⟨0, g, 0, width⟩ : Spot).place 128 width = 1 * width + 0 := by simp [Spot.place, Spot.row]
  have row : (⟨0, g, 0, width⟩ : Spot).row 128 = 0 := rfl
  have same := @Passes10.value_eq _ _ _ _ _ algorithm (fun _ => 0) (fun c => if c = (8 : Nat) then 255 else 0) 0 1 _ passes
    depth behind (fun t mem_t same => before_of_lost start_mono mem_t behind rfl sizes.2.1 sizes.1
      (show 0 + 1 < 128 by decide) same) some_col more_lines place (Nat.le_refl width) (by omega)
  have wide : 8 ≤ 10 * width / 8 := by omega
  rw [value10_apart behind more_groups row wide (show 160 * width < 2 ^ 32 by omega)] at same
  have first : tileOffset stride 0 1 = 8 ∧ tileOffset stride 1 1 = 9 := by
    unfold tileOffset
    omega
  rw [shown10_eq, Nat.mul_zero, Nat.zero_div, Nat.zero_add, first.1, first.2, if_pos rfl, if_neg (by decide)] at same
  exact @sample10_first bitCnt 0 same.symm

/-- The bytes of the last field are loaded, or else memory is shown that nothing was written to. -/
theorem Passes10.loaded (passes : Passes10 cap width lines stride bitCnt) (depth : bitCnt = 8 ∨ bitCnt = 16)
    (some_col : 0 < width) (some_line : 0 < lines) (packed : (10 * width + 7) / 8 ≤ stride) :
    lastByte bitCnt (width - 1) < 8 * ((width * 10 / 8 + 7) / 8) := by
  by_contra missing
  have cases := @lastByte_cases bitCnt (width - 1)
  have narrow := passes.narrow
  have inside : (⟨0, 0, 0, width - 1⟩ : Spot) ∈ spots 128 (width * ·) 1 ((lines + 127) / 128) :=
    mem_spots.mpr ⟨show 0 < (lines + 127) / 128 by omega, Nat.one_pos, show 0 < 128 by decide,
      show width * 0 ≤ width - 1 by omega, show width - 1 < width * 1 by omega⟩
  have place : (⟨0, 0, 0, width - 1⟩ : Spot).place 128 width = 0 * width + (width - 1) := by simp [Spot.place, Spot.row]
  have shown (rowBuf : Memory) := @Passes10.value_eq _ _ _ _ _ .one rowBuf (fun _ => 0) (width - 1) 0 _ passes depth inside
    (fun t mem_t same => before_of_kept (@start_mono .one width) mem_t inside (show width - 1 < width by omega) same
      (.inr (.inl (Nat.le_refl 1)))) (by omega) some_line place (show width - 1 ≤ width by omega) (Nat.le_refl 0)
  generalize tiles : (width * 10 / 8 + 7) / 8 = hCnt at shown missing
  have read (rowBuf : Memory) := @value10b1_unloaded rowBuf (fun _ => 0) stride hCnt bitCnt (width - 1) (by omega) (by omega)
    (by omega)
  have same := ((read fun _ => 255).symm.trans ((shown fun _ => 255).trans (shown fun _ => 0).symm)).trans (read fun _ => 0)
  exact sample10_second (by omega) same

/-- The positions are numbers of an int, or else algorithm 2 reads elsewhere. -/
theorem Passes10.source (passes : Passes10 cap width lines stride bitCnt) (depth : bitCnt = 8 ∨ bitCnt = 16)
    (some_col : 0 < width) : Source10 width lines stride bitCnt := by
  intro x col y line
  by_contra far
  have narrow := passes.narrow
  have tall := passes.tall
  have cases := @lastByte_cases bitCnt x
  obtain ⟨s, mem_s, rfl, rfl, inner⟩ := @exists_spot 128 (Algorithm10bit.two.groups width) ((lines + 127) / 128)
    (Algorithm10bit.two.start width) x y start_zero (Nat.lt_of_lt_of_le col start_wide) (by omega)
  have kept := (passes.shape depth some_col .two).imp_right fun rest => rest.imp_right fun single =>
    show s.line = 0 by omega
  have same := @Passes10.value_eq _ _ _ _ _ .two (fun _ => 0)
    (fun c => if c = (tileOffset stride (lastByte bitCnt s.col) (s.row 128) : Nat) then 255 else 0)
    s.col (s.row 128) s passes depth mem_s (fun t mem_t same => before_of_kept start_mono mem_t mem_s col same kept) col line
    rfl (Nat.le_of_lt col) (Nat.le_refl _)
  have elsewhere (v : Int) : int v ≠ (tileOffset stride (lastByte bitCnt s.col) (s.row 128) : Nat) := by
    have high := (int_bounds v).2
    omega
  have zero : value10b2 (fun c => if c = (tileOffset stride (lastByte bitCnt s.col) (s.row 128) : Nat) then 255 else 0)
      stride bitCnt s = 0 := by
    rw [value10b2_eq (by omega) (by omega), if_neg (elsewhere _), if_neg (elsewhere _)]
    exact sample10_zero
  have apart := @tileOffset_next stride (10 * s.col / 8) (s.row 128)
  have more : tileOffset stride (10 * s.col / 8) (s.row 128) < tileOffset stride (10 * s.col / 8 + 1) (s.row 128) := by
    split at apart <;> omega
  have shown := shown10_eq.symm.trans (same.symm.trans zero)
  rcases cases with first | second
  · rw [first, if_pos rfl, if_neg (by omega)] at shown
    exact sample10_first shown
  · rw [second, if_neg (by omega), if_pos rfl] at shown
    exact sample10_second (by omega) (shown.trans sample10_zero.symm)

end Values

/-- Tiles of fields end with a line of whole tiles only after 32 of them. -/
theorem tiles_end (columns : width % 8 = 0) (third : (64 * ((width * 10 / 8 + 7) / 8) + 9) / 10 ≤ width) :
    width % 32 = 0 := by
  obtain ⟨k, rfl⟩ := Nat.dvd_of_mod_eq_zero columns
  have bytes : 8 * k * 10 / 8 = 10 * k := by omega
  rw [bytes] at third
  have tiles : 8 * ((10 * k + 7) / 8) ≤ 10 * k := by omega
  omega

/-- The three algorithms show the fields, and so the same picture, exactly where whole tiles end with
the lines or do not come to the second line, the tiles that are loaded hold the fields, and the
numbers hold. -/
theorem fields10_iff (tall : lines < 2 ^ 32) (small : cap < 2 ^ 32) (depth : bitCnt = 8 ∨ bitCnt = 16)
    (packed : (10 * width + 7) / 8 ≤ stride) : (∀ algorithm, Fields10 algorithm cap width lines stride bitCnt) ↔
      width = 0 ∨ lines = 0 ∨ Fits10 cap width lines stride bitCnt := by
  have some_byte : 0 < bitCnt / 8 := by omega
  constructor
  · intro right
    by_cases empty : width = 0 ∨ lines = 0
    · exact empty.imp_right .inl
    · have passes := passes_of_fields10 tall (by omega) (by omega) small some_byte right
      have loaded := passes.loaded depth (by omega) (by omega) packed
      refine .inr (.inr ⟨?_, ⟨passes.rows, loaded⟩, passes.numbers .two, passes.room, passes.source depth (by omega)⟩)
      have second : 8 * ((width + 7) / 8) ≤ width ∨ (width + 7) / 8 ≤ 1 ∨ lines ≤ 1 := passes.shape depth (by omega) .two
      have third : (64 * ((width * 10 / 8 + 7) / 8) + 9) / 10 ≤ width ∨ (width * 10 / 8 + 7) / 8 ≤ 1 ∨ lines ≤ 1 :=
        passes.shape depth (by omega) .three
      by_contra bad
      -- for a width of 7 the second byte of the last field is not loaded
      have seven : width ≠ 7 := by
        rintro rfl
        unfold lastByte at loaded
        split at loaded <;> omega
      have columns : width % 8 = 0 := by omega
      exact bad (.inl (tiles_end columns (by omega)))
  · intro fits algorithm
    by_cases empty : width = 0 ∨ lines = 0
    · intro rowBuf src mem
      have none : width = 0 ∨ uint ((lines : Int) + 127) / 128 = 0 := by
        refine empty.imp_right fun zero => ?_
        rw [zero]
        unfold uint
        decide
      refine ⟨mem, tiles10_none none, fun x col y line => ?_⟩
      omega
    · exact fields10_of_fits (by omega) (by omega) (by tauto)

theorem fields10_tiles : Fields10 .one 8192 32 100 40 16 ∧ Fields10 .two 8192 32 100 40 16 ∧
    Fields10 .three 8192 32 100 40 16 := by
  have fits : Fits10 8192 32 100 40 16 :=
    { shape := .inl rfl
      rows := ⟨by decide, by decide⟩
      numbers := by decide
      room := fun algorithm => by cases algorithm <;> decide
      source := fun x col y line => by
        unfold tileOffset lastByte
        rw [if_neg (by decide)]
        omega }
  have all := (fields10_iff (by decide) (by decide) (.inr rfl) (by decide)).mpr (.inr (.inr fits))
  exact ⟨all .one, all .two, all .three⟩

/-- The thirteen fields that two tiles of a line of nine hold go into the line behind. -/
theorem not_fields10_nine : ¬ ∀ algorithm, Fields10 algorithm 8192 9 2 16 8 := fun right =>
  absurd ((passes_of_fields10 (by decide) (by decide) (by decide) (by decide) (by decide) right).shape (.inl rfl)
    (by decide) .three) (by decide)

end Exact

end ImxTest.V4l2Dec
