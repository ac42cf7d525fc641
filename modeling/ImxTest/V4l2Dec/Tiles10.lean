import ImxTest.V4l2Dec.Fields10

/-! What the three algorithms of `__ReadYUVFrame_FSL_10b` show: the fields of the lines, as far as
the bytes behind the last field of a line do not come into the next line. -/
namespace ImxTest.V4l2Dec
open Lib.Strips Lib.Words Lib.Writes

section Offsets
variable {stride c c' y bitCnt x : Nat}

theorem tileOffset_next : tileOffset stride (c + 1) y = tileOffset stride c y + if c % 8 ≠ 7 then 1 else 8 * 127 + 1 := by
  unfold tileOffset
  split <;> omega

theorem tileOffset_mono (le : c ≤ c') : tileOffset stride c y ≤ tileOffset stride c' y := by
  unfold tileOffset
  omega

theorem lastByte_cases : lastByte bitCnt x = 10 * x / 8 ∨ lastByte bitCnt x = 10 * x / 8 + 1 := by
  unfold lastByte
  split <;> omega

/-- A position of the source, as numbers that are not negative. -/
theorem int_ten (small : 10 * x < 2 ^ 31) : int (int x * 10) = (10 * x : Nat) := by
  rw [int_natCast (by omega), Int.mul_comm]
  exact int_natCast (n := 10 * x) small

end Offsets

/-! ## Algorithm 1 -/

/-- `row_buf` behind so many strips. -/
def rowsBehind (srcAddr : Memory) (stride hCnt : Nat) (rowBuf : Memory) : Nat → Memory
  | 0 => rowBuf
  | v + 1 => store (rowsBehind srcAddr stride hCnt rowBuf v) (rowLoads srcAddr stride hCnt v)

/-- What is written at a place. -/
def value10b1 (rowBuf srcAddr : Memory) (stride hCnt bitCnt : Nat) (s : Spot) : Nat :=
  let bitPos := int (10 * s.col : Nat)
  let byteLoc := (s.line * stride : Nat) + bitPos.tdiv 8
  let rows := rowsBehind srcAddr stride hCnt rowBuf (s.strip + 1)
  sample10 bitCnt (bitPos.tmod 8) (rows byteLoc) (rows (byteLoc + 1))

section First
variable {cap : Nat} {rowBuf src mem out : Memory} {width stride hCnt vCnt bitCnt dst v : Nat} {s : Spot}

theorem rowSamples_eq {start : Nat → Memory} {n : Nat} :
    ((List.range n).flatMap fun v => rowSamples (start v) width stride bitCnt v) =
      stripSamples (fun n => int n) 128 width (width * ·) 1 n fun s =>
        let bitPos := int (10 * s.col : Nat)
        let byteLoc := (s.line * stride : Nat) + bitPos.tdiv 8
        sample10 bitCnt (bitPos.tmod 8) (start s.strip byteLoc) (start s.strip (byteLoc + 1)) := by
  unfold stripSamples
  rw [map_spots]
  refine congrArg (List.flatMap · _) (funext fun v => ?_)
  rw [List.range_one, List.flatMap_singleton, rowSamples]
  refine congrArg (List.flatMap · _) (funext fun i => List.map_congr_left fun j _ => ?_)
  rw [Nat.mul_zero, Nat.zero_add]
  refine Prod.ext ?_ rfl
  dsimp only [Spot.place, Spot.row]
  rw [int_int_add]
  exact congrArg int (by push_cast; ring)

/-- The strips are read one after the other. -/
theorem readStrip_foldlM {n : Nat} {bufs : Memory × Memory} :
    (List.range n).foldlM (readStrip cap src width stride hCnt bitCnt dst) (rowBuf, mem) = some bufs ↔
      (∀ v < n, ∀ byte ∈ rowLoads src stride hCnt v, 0 ≤ byte.1 ∧ byte.1 < uint (128 * stride)) ∧
        rowsBehind src stride hCnt rowBuf n = bufs.1 ∧
        fill cap mem dst (bitCnt / 8) ((List.range n).flatMap fun v =>
          rowSamples (rowsBehind src stride hCnt rowBuf (v + 1)) width stride bitCnt v) = some bufs.2 := by
  induction n generalizing bufs with
  | zero => simp [rowsBehind, fill, write, store, Prod.ext_iff]
  | succ n ih =>
    obtain ⟨rows, mem'⟩ := bufs
    simp only [List.range_succ, List.foldlM_append, List.foldlM_cons, List.foldlM_nil, Option.bind_eq_bind,
      Option.bind_eq_some_iff, ih, readStrip, write_eq_some_iff, List.flatMap_append, fill_append, List.flatMap_cons,
      List.flatMap_nil, List.append_nil, Nat.forall_lt_succ_right]
    constructor
    · rintro ⟨⟨rows', between⟩, ⟨inside, rfl, filled⟩, ⟨_, _⟩, ⟨_, ⟨load, rfl⟩, _, filled', same⟩, done⟩
      cases same
      cases done
      exact ⟨⟨inside, load⟩, rfl, between, filled, filled'⟩
    · rintro ⟨⟨inside, load⟩, rfl, between, filled, filled'⟩
      exact ⟨(_, between), ⟨inside, rfl, filled⟩, _, ⟨_, ⟨load, rfl⟩, _, filled', rfl⟩, rfl⟩

theorem readFsl10b1_eq_some_iff : readFsl10b1 cap rowBuf src width stride hCnt vCnt bitCnt dst mem = some out ↔
    (∀ v < vCnt, ∀ byte ∈ rowLoads src stride hCnt v, 0 ≤ byte.1 ∧ byte.1 < uint (128 * stride)) ∧
      fill cap mem dst (bitCnt / 8) (stripSamples (fun n => int n) 128 width (width * ·) 1 vCnt
        (value10b1 rowBuf src stride hCnt bitCnt)) = some out := by
  have values := @rowSamples_eq width stride bitCnt (fun v => rowsBehind src stride hCnt rowBuf (v + 1)) vCnt
  unfold readFsl10b1
  simp only [Option.map_eq_some_iff, readStrip_foldlM, values]
  constructor
  · rintro ⟨⟨rows, out⟩, ⟨inside, -, filled⟩, rfl⟩
    exact ⟨inside, filled⟩
  · rintro ⟨inside, filled⟩
    exact ⟨(_, out), ⟨inside, rfl, filled⟩, rfl⟩

theorem mem_rowLoads {c : Int} {b : UInt8} : (c, b) ∈ rowLoads src stride hCnt v ↔ ∃ i < 128, ∃ k < 8 * hCnt,
    c = (i * stride + k : Nat) ∧
      b = src (int (k / 8 * (8 * 128) : Nat) + uint (stride * 128 * v : Nat) + (8 * i + k % 8 : Nat)) := by
  simp only [rowLoads, List.mem_flatMap, List.mem_map, List.mem_range, Prod.mk.injEq]
  constructor
  · rintro ⟨h, group, i, line, j, col, rfl, rfl⟩
    refine ⟨i, line, 8 * h + j, by omega, rfl, ?_⟩
    rw [Nat.mul_add_div (by decide), Nat.mul_add_mod, Nat.div_eq_of_lt col, Nat.mod_eq_of_lt col, Nat.add_zero]
  · rintro ⟨i, line, k, col, rfl, rfl⟩
    exact ⟨k / 8, by omega, i, line, k % 8, Nat.mod_lt _ (by decide), by rw [Nat.div_add_mod], rfl⟩

/-- Whole tiles go to the rows. -/
theorem rowLoads_inside : (∀ byte ∈ rowLoads src stride hCnt v, 0 ≤ byte.1 ∧ byte.1 < uint (128 * stride)) ↔
    hCnt = 0 ∨ 127 * stride + 8 * hCnt ≤ uint (128 * stride) := by
  constructor
  · intro inside
    rcases Nat.eq_zero_or_pos hCnt with none | some_tile
    · exact .inl none
    · have last := inside _ (mem_rowLoads.mpr ⟨127, by decide, 8 * hCnt - 1, by omega, rfl, rfl⟩)
      dsimp only at last
      omega
  · rintro room ⟨c, b⟩ written
    obtain ⟨i, line, k, col, rfl, -⟩ := mem_rowLoads.mp written
    have order := Nat.mul_le_mul_right stride (show i ≤ 127 by omega)
    dsimp only
    omega

/-- The rows hold the lines of the tiles. -/
theorem rowsBehind_loaded (apart : 8 * hCnt ≤ stride) {i c y : Nat} (line : i < 128) (col : c < 8 * hCnt)
    (row : y = v * 128 + i) (source : tileOffset stride c y < 2 ^ 31) :
    rowsBehind src stride hCnt rowBuf (v + 1) (i * stride + c : Nat) = src (tileOffset stride c y) := by
  have strip : y / 128 = v := by omega
  have inner : y % 128 = i := by omega
  have offset : tileOffset stride c y = c / 8 * (8 * 128) + stride * 128 * v + (8 * i + c % 8) := by
    unfold tileOffset
    rw [strip, inner, Nat.mul_comm v]
    omega
  rw [offset] at source ⊢
  have both_small : c / 8 * (8 * 128) + stride * 128 * v < 2 ^ 31 := Nat.lt_of_le_of_lt (Nat.le_add_right ..) source
  have tile_small : c / 8 * (8 * 128) < 2 ^ 31 := Nat.lt_of_le_of_lt (Nat.le_add_right ..) both_small
  have strip_small : stride * 128 * v < 2 ^ 32 :=
    Nat.lt_trans (Nat.lt_of_le_of_lt (Nat.le_add_left ..) both_small) (by decide)
  have addr : int (c / 8 * (8 * 128) : Nat) + uint (stride * 128 * v : Nat) + (8 * i + c % 8 : Nat) =
      (c / 8 * (8 * 128) + stride * 128 * v + (8 * i + c % 8) : Nat) := by
    rw [int_natCast tile_small, uint_natCast strip_small]
    push_cast
    ring
  refine store_all (mem_rowLoads.mpr ⟨i, line, c, col, rfl, by rw [addr]⟩) fun w written => ?_
  obtain ⟨i', -, c', col', same, rfl⟩ := mem_rowLoads.mp written
  have places : i * stride + c = i' * stride + c' := Int.ofNat.inj same
  have inside : c < stride := Nat.lt_of_lt_of_le col apart
  have inside' : c' < stride := Nat.lt_of_lt_of_le col' apart
  have rows : i = i' := by
    have quotient := congrArg (· / stride) places
    simpa [Nat.mul_comm _ stride, Nat.mul_add_div (Nat.zero_lt_of_lt inside), Nat.div_eq_of_lt inside,
      Nat.div_eq_of_lt inside'] using quotient
  subst rows
  rw [← Nat.add_left_cancel places, addr]

theorem value10b1_shown (apart : 8 * hCnt ≤ stride) (line : s.line < 128) (col : 10 * s.col < 2 ^ 31)
    (loaded : lastByte bitCnt s.col < 8 * hCnt) (source : tileOffset stride (lastByte bitCnt s.col) (s.row 128) < 2 ^ 31) :
    value10b1 rowBuf src stride hCnt bitCnt s = shown10 bitCnt src stride s.col (s.row 128) := by
  have cases := @lastByte_cases bitCnt s.col
  have byte : ((10 * s.col : Nat) : Int).tdiv 8 = (10 * s.col / 8 : Nat) := rfl
  have bit : ((10 * s.col : Nat) : Int).tmod 8 = (10 * s.col % 8 : Nat) := rfl
  dsimp only [value10b1]
  rw [int_natCast col, byte, bit]
  refine sample10_shown ?_ fun taken => ?_
  · exact rowsBehind_loaded apart line (by omega) rfl (Nat.lt_of_le_of_lt (tileOffset_mono (by omega)) source)
  · have next : lastByte bitCnt s.col = 10 * s.col / 8 + 1 := by omega
    rw [next] at loaded source
    exact rowsBehind_loaded apart line loaded rfl source

/-- Behind the tiles that are loaded, a row is as it was. -/
theorem value10b1_unloaded {x : Nat} (col : 10 * x < 2 ^ 31) (next : 10 * x / 8 + 1 = 8 * hCnt) (wide : 8 * hCnt < stride) :
    value10b1 rowBuf src stride hCnt bitCnt ⟨0, 0, 0, x⟩ = sample10 bitCnt (10 * x % 8 : Nat)
      (store (fun _ => 0) (rowLoads src stride hCnt 0) (10 * x / 8 : Nat)) (rowBuf (8 * hCnt : Nat)) := by
  have byte : ((10 * x : Nat) : Int).tdiv 8 = (10 * x / 8 : Nat) := rfl
  have bit : ((10 * x : Nat) : Int).tmod 8 = (10 * x % 8 : Nat) := rfl
  have here : ((0 * stride : Nat) : Int) + (10 * x / 8 : Nat) = (10 * x / 8 : Nat) := by omega
  have behind : ((10 * x / 8 : Nat) : Int) + 1 = (8 * hCnt : Nat) := by omega
  dsimp only [value10b1, rowsBehind]
  rw [int_natCast col, byte, bit, here, behind]
  refine congrArg₂ _ (store_congr (.inr ⟨_, mem_rowLoads.mpr ⟨0, by decide, 10 * x / 8, by omega, ?_, rfl⟩⟩)) ?_
  · rw [Nat.zero_mul, Nat.zero_add]
  · refine store_free fun v written => ?_
    obtain ⟨i, -, k, col, same, -⟩ := mem_rowLoads.mp written
    rcases Nat.eq_zero_or_pos i with rfl | later
    · omega
    · have order := Nat.le_mul_of_pos_left stride later
      omega

end First

/-! ## Algorithm 2 -/

/-- What is written at a place. -/
def value10b2 (srcAddr : Memory) (stride bitCnt : Nat) (s : Spot) : Nat :=
  let dx := int s.col
  let dy := int (s.strip * 128 + s.line : Nat)
  let sx := (int (dx * 10)).tdiv 8
  let jInSrc := sx.tmod 8
  let firstBytePos := int (dy.tdiv 128 * (stride * 128 : Nat) + sx.tdiv 8 * (8 * 128) + dy.tmod 128 * 8 + jInSrc)
  let secondBytePos := if jInSrc ≠ 7 then int (firstBytePos + 1) else int (firstBytePos + (8 * 127 + 1))
  sample10 bitCnt ((int (dx * 10)).tmod 8) (srcAddr firstBytePos) (srcAddr secondBytePos)

section Second
variable {src : Memory} {width stride bitCnt vCnt : Nat} {s : Spot}

theorem fslSamples10b2_eq : fslSamples10b2 src width stride vCnt bitCnt =
    stripSamples (fun n => int n) 128 width (8 * ·) (uint (width + 7) / 8) vCnt (value10b2 src stride bitCnt) := by
  unfold fslSamples10b2 stripSamples
  rw [map_spots]
  refine congrArg (List.flatMap · _) (funext fun v => congrArg (List.flatMap · _) (funext fun h =>
    congrArg (List.flatMap · _) (funext fun i => List.map_congr_left fun j _ => Prod.ext ?_ rfl)))
  dsimp only [Spot.place, Spot.row]
  obtain ⟨k, col⟩ := exists_int (8 * h + j : Nat)
  obtain ⟨k', row⟩ := exists_int (v * 128 + i : Nat)
  exact int_congr (k := k' * width + k) (by rw [col, row]; push_cast; ring)

/-- The positions of the bytes, before they are taken as words. -/
theorem value10b2_eq (col : 10 * s.col < 2 ^ 31) (row : s.row 128 < 2 ^ 31) :
    value10b2 src stride bitCnt s = sample10 bitCnt (10 * s.col % 8 : Nat)
      (src (int (tileOffset stride (10 * s.col / 8) (s.row 128))))
      (src (int (tileOffset stride (10 * s.col / 8 + 1) (s.row 128)))) := by
  have byte (n : Nat) : (n : Int).tdiv 8 = (n / 8 : Nat) := rfl
  have bit (n : Nat) : (n : Int).tmod 8 = (n % 8 : Nat) := rfl
  have strip (n : Nat) : (n : Int).tdiv 128 = (n / 128 : Nat) := rfl
  have line (n : Nat) : (n : Int).tmod 128 = (n % 128 : Nat) := rfl
  have first : ((s.row 128 / 128 : Nat) : Int) * (stride * 128 : Nat) + (10 * s.col / 8 / 8 : Nat) * (8 * 128) +
      (s.row 128 % 128 : Nat) * 8 + (10 * s.col / 8 % 8 : Nat) = tileOffset stride (10 * s.col / 8) (s.row 128) := by
    unfold tileOffset
    push_cast
    ring
  dsimp only [value10b2]
  rw [show s.strip * 128 + s.line = s.row 128 from rfl, int_ten col, int_natCast row]
  simp only [byte, bit, strip, line, first, int_int_add, tileOffset_next]
  congr 2
  by_cases inner : 10 * s.col / 8 % 8 = 7
  · rw [if_neg (by omega), if_neg (by omega)]
    rfl
  · rw [if_pos (by omega), if_pos inner]
    rfl

end Second

/-! ## Algorithm 3 -/

/-- The first field that begins in a tile. -/
def firstField (h : Nat) : Nat := (64 * h + 9) / 10

theorem firstField_mono : Monotone firstField := fun _ _ le => by
  unfold firstField
  omega

/-- What is written at a place. -/
def value10b3 (srcAddr : Memory) (stride bitCnt : Nat) (s : Spot) : Nat :=
  let psrc := uint (s.strip * 128 * stride + s.group * (8 * 128) + s.line * 8 : Nat)
  let j := 10 * s.col / 8 - 8 * s.group
  sample10 bitCnt (10 * s.col % 8 : Nat) (srcAddr (psrc + j)) (srcAddr (psrc + if j ≠ 7 then ((j : Int) + 1) else 8 * 128))

section Third
variable {src : Memory} {width stride bitCnt hCnt vCnt h x : Nat} {pdst : Int} {s : Spot} {psrc : Int → UInt8}

/-- The inner loop takes one field after the other, as long as they begin in the tile. -/
theorem tileSamples_eq (low : 8 * h ≤ 10 * x / 8) (small : 64 * (h + 1) + 20 < 2 ^ 31) :
    tileSamples psrc bitCnt (10 * x / 8 - 8 * h) (10 * x : Nat) pdst =
      (List.range' x (firstField (h + 1) - x)).map fun x' =>
        (pdst + (x' - x : Nat), sample10 bitCnt (10 * x' % 8 : Nat) (psrc (10 * x' / 8 - 8 * h : Nat))
          (psrc (if 10 * x' / 8 - 8 * h ≠ 7 then ((10 * x' / 8 - 8 * h : Nat) : Int) + 1 else 8 * 128))) := by
  generalize count : firstField (h + 1) - x = n
  unfold firstField at count
  induction n generalizing x pdst with
  | zero =>
    rw [tileSamples, if_neg (by omega)]
    rfl
  | succ n ih =>
    have bit : ((10 * x : Nat) : Int).tmod 8 = (10 * x % 8 : Nat) := rfl
    have next : (if ((10 * x : Nat) : Int).tmod 8 = 6 then 10 * x / 8 - 8 * h + 2 else 10 * x / 8 - 8 * h + 1) =
        10 * (x + 1) / 8 - 8 * h := by
      rw [bit]
      split <;> omega
    have ten : int (((10 * x : Nat) : Int) + 10) = (10 * (x + 1) : Nat) := by
      rw [← int_natCast (n := 10 * (x + 1)) (by omega)]
      exact congrArg int (by push_cast; ring)
    rw [tileSamples, if_pos (by omega)]
    dsimp only
    rw [next, ten, ih (by omega) (by omega), List.range'_succ, List.map_cons, bit]
    refine congrArg₂ List.cons (Prod.ext (by simp) ?_) (List.map_congr_left fun x' inside => Prod.ext ?_ rfl)
    · dsimp only
      split <;> rfl
    · have later := (List.mem_range'_1.mp inside).1
      dsimp only
      omega

/-- The numbers of the destination hold. -/
theorem fslSamples10b3_eq (strips : vCnt * 128 ≤ 2 ^ 31) (groups : 64 * hCnt + 20 < 2 ^ 31)
    (numbers : extent 128 width firstField hCnt vCnt ≤ 2 ^ 32) : fslSamples10b3 src width stride hCnt vCnt bitCnt =
      stripSamples (fun n => uint n) 128 width firstField hCnt vCnt (value10b3 src stride bitCnt) := by
  unfold fslSamples10b3 stripSamples spots
  simp only [List.map_flatMap, List.map_map]
  refine List.flatMap_congr fun v strip => List.flatMap_congr fun h group => ?_
  rw [List.mem_range] at strip group
  have dx : (int (int (h * 8 : Nat) * 8 + 9)).tdiv 10 = (firstField h : Nat) := by
    have word : int (int (h * 8 : Nat) * 8 + 9) = (64 * h + 9 : Nat) := by
      rw [int_natCast (by omega), ← int_natCast (n := 64 * h + 9) (by omega)]
      exact congrArg int (by push_cast; ring)
    rw [word]
    rfl
  have first : (if (int (int (h * 8 : Nat) * 8)).tmod 10 = 2 then 1 else 0) = 10 * firstField h / 8 - 8 * h := by
    have word : int (int (h * 8 : Nat) * 8) = (64 * h : Nat) := by
      rw [int_natCast (by omega), ← int_natCast (n := 64 * h) (by omega)]
      exact congrArg int (by push_cast; ring)
    have rest : ((64 * h : Nat) : Int).tmod 10 = (64 * h % 10 : Nat) := rfl
    rw [word, rest]
    unfold firstField
    have five : h % 5 = 0 ∨ h % 5 = 1 ∨ h % 5 = 2 ∨ h % 5 = 3 ∨ h % 5 = 4 := by omega
    clear numbers
    rcases five with m | m | m | m | m <;> split <;> omega
  have bits : int (10 * (firstField h : Nat)) = (10 * firstField h : Nat) := by
    have low : 10 * firstField h ≤ 64 * h + 9 := by unfold firstField; omega
    exact int_natCast (n := 10 * firstField h) (by omega)
  refine List.flatMap_congr fun i line => ?_
  rw [List.mem_range] at line
  rw [dx, first, bits, int_natCast (show v * 128 < 2 ^ 31 by omega),
    tileSamples_eq (by unfold firstField; omega) (by omega)]
  refine List.map_congr_left fun x inside => ?_
  have columns := List.mem_range'_1.mp inside
  have here : (⟨v, h, i, x⟩ : Spot) ∈ spots 128 firstField hCnt vCnt :=
    mem_spots.mpr ⟨strip, group, line, columns.1, show x < firstField (h + 1) by omega⟩
  have place := Nat.lt_of_lt_of_le (@place_lt _ _ _ width _ _ firstField_mono here) numbers
  have below : (v * 128 + i) * width + firstField h ≤ (⟨v, h, i, x⟩ : Spot).place 128 width :=
    Nat.add_le_add_left columns.1 _
  have dst : uint ((v * 128 : Nat) * (width : Int) + i * width + (firstField h : Nat)) =
      (v * 128 + i) * width + firstField h := by
    rw [← uint_natCast (Nat.lt_of_le_of_lt below place)]
    exact congrArg uint (by push_cast; ring)
  have src' : uint ((v * 128 : Nat) * (stride : Int) + h * (8 * 128) + i * 8) =
      uint (v * 128 * stride + h * (8 * 128) + i * 8 : Nat) := congrArg uint (by push_cast; ring)
  dsimp only [Function.comp_apply, value10b3]
  rw [dst, src', uint_natCast place]
  refine Prod.ext ?_ rfl
  have apart : x = firstField h + (x - firstField h) := by omega
  dsimp only [Spot.place, Spot.row]
  omega

/-- Where the bytes are, while the positions hold. -/
theorem value10b3_eq (mem : s ∈ spots 128 firstField hCnt vCnt)
    (source : tileOffset stride (10 * s.col / 8) (s.row 128) < 2 ^ 32) :
    value10b3 src stride bitCnt s = sample10 bitCnt (10 * s.col % 8 : Nat)
      (src (tileOffset stride (10 * s.col / 8) (s.row 128))) (src (tileOffset stride (10 * s.col / 8 + 1) (s.row 128))) := by
  obtain ⟨-, -, line, low, high⟩ := mem_spots.mp mem
  unfold firstField at low high
  have tile : 10 * s.col / 8 / 8 = s.group := by omega
  have strip : s.row 128 / 128 = s.strip := by unfold Spot.row; omega
  have inner : s.row 128 % 128 = s.line := by unfold Spot.row; omega
  have offset : tileOffset stride (10 * s.col / 8) (s.row 128) =
      s.strip * 128 * stride + s.group * (8 * 128) + s.line * 8 + (10 * s.col / 8 - 8 * s.group) := by
    unfold tileOffset
    rw [tile, strip, inner, Nat.mul_assoc s.strip, Nat.mul_comm 128 stride]
    omega
  dsimp only [value10b3]
  rw [tileOffset_next, offset, uint_natCast (by omega)]
  by_cases last : 10 * s.col / 8 - 8 * s.group = 7
  · rw [if_neg (by omega), if_neg (by omega)]
    congr 2
    push_cast
    omega
  · rw [if_pos (by omega), if_pos (by omega)]
    congr 2

end Third

end ImxTest.V4l2Dec
