import ImxTest.Patgen.Passes

/-! What the file of a bitmap has to be, and when it is that. -/
namespace ImxTest.Patgen
open Lib.Grid Lib.InPlace Lib.Loops Lib.Words

/-! ## Pictures -/

/-- The cells of a picture, line after line. -/
def cells (cols rows : Nat) : List Cell := (List.range rows).flatMap fun y => (List.range cols).map fun x => (x, y)

/-- Those in even lines and columns. -/
def evenCells (cols rows : Nat) : List Cell := (cells cols rows).filter fun p => p.1 % 2 = 0 ∧ p.2 % 2 = 0

/-- A line with the luma of every pixel, and the chroma of each second one. -/
def Output.packed (o : Output) : List UInt32 → List UInt8
  | first :: second :: pixels =>
    [(o.yuva first).y, (o.yuva first).u, (o.yuva second).y, (o.yuva first).v] ++ o.packed pixels
  | [pixel] => [(o.yuva pixel).y, (o.yuva pixel).u, (o.yuva pixel).v]
  | [] => []

/-- The picture in the format of the output. -/
def content (o : Output) (cols rows : Nat) (pixel : Cell → UInt32) : List UInt8 :=
  let all := (cells cols rows).map pixel
  let even := (evenCells cols rows).map pixel
  match o.format with
  | .bgra8888 => all.flatMap fun p => littleEndian 4 (if o.bpc < 8 then bitmapBgraToBpc p o.bpc else p).toNat
  | .bgr565 => all.flatMap fun p => littleEndian 2 (bitmapBgraToBgr565 p)
  | .yuv444 => all.flatMap fun p => [(o.yuva p).y, (o.yuva p).u, (o.yuva p).v]
  | .yuva444 => all.flatMap fun p => [(o.yuva p).y, (o.yuva p).u, (o.yuva p).v, (o.yuva p).a]
  | .yuyv422 => (List.range rows).flatMap fun y => o.packed ((List.range cols).map fun x => pixel (x, y))
  | .yuv444p => all.map (fun p => (o.yuva p).y) ++ all.map (fun p => (o.yuva p).u) ++ all.map fun p => (o.yuva p).v
  | .yuv420 => all.map (fun p => (o.yuva p).y) ++ even.map (fun p => (o.yuva p).u) ++ even.map fun p => (o.yuva p).v
  | .nv12 => all.map (fun p => (o.yuva p).y) ++ even.flatMap fun p => [(o.yuva p).u, (o.yuva p).v]

section Cells
variable {cols rows : Nat} {p : Cell}

theorem mem_cells : p ∈ cells cols rows ↔ Inside cols rows p := by
  obtain ⟨x, y⟩ := p
  simp only [cells, List.mem_flatMap, List.mem_map, List.mem_range, Prod.mk.injEq, Inside]
  constructor
  · rintro ⟨y', low, x', left, rfl, rfl⟩
    exact ⟨left, low⟩
  · rintro ⟨left, low⟩
    exact ⟨y, low, x, left, rfl, rfl⟩

theorem mem_evenCells : p ∈ evenCells cols rows ↔ Inside cols rows p ∧ p.1 % 2 = 0 ∧ p.2 % 2 = 0 := by
  simp only [evenCells, List.mem_filter, mem_cells, decide_eq_true_eq]

/-- The cells are numbered in their order. -/
theorem map_place (cols rows : Nat) : (cells cols rows).map (place cols) = List.range (rows * cols) := by
  rw [range_mul, cells, List.map_flatMap]
  refine List.flatMap_congr fun y _ => ?_
  rw [List.map_map]
  rfl

theorem map_cells {α : Type} (f : Nat → α) :
    (cells cols rows).map (fun p => f (place cols p)) = (List.range (rows * cols)).map f := by
  rw [← map_place, List.map_map]
  rfl

theorem steps_two (n : Nat) : steps n 2 = (List.range n).filter fun x => x % 2 = 0 := by
  unfold steps
  induction n with
  | zero => rfl
  | succ n ih =>
    rw [List.range_succ, List.filter_append, ← ih]
    rcases Nat.mod_two_eq_zero_or_one n with even | odd
    · rw [show (n + 1 + 2 - 1) / 2 = (n + 2 - 1) / 2 + 1 by omega, List.range_succ, List.map_append]
      simp [even]
      omega
    · rw [show (n + 1 + 2 - 1) / 2 = (n + 2 - 1) / 2 by omega]
      simp [odd]

/-- The loops over the rows and columns that are kept. -/
theorem evenCells_steps (cols rows : Nat) :
    evenCells cols rows = (steps rows 2).flatMap fun y => (steps cols 2).map fun x => (x, y) := by
  rw [evenCells, cells, List.filter_flatMap, steps_two, steps_two]
  induction List.range rows with
  | nil => rfl
  | cons y ys ih =>
    rw [List.flatMap_cons, ih, List.filter_cons, List.filter_map]
    by_cases even : y % 2 = 0
    · rw [if_pos (by simpa using even), List.flatMap_cons]
      simp [Function.comp_def, even]
    · rw [if_neg (by simpa using even)]
      simp [Function.comp_def, even]

theorem evenCells_length (cols rows : Nat) : (evenCells cols rows).length = (rows + 1) / 2 * ((cols + 1) / 2) := by
  rw [evenCells_steps, List.length_flatMap]
  simp [steps, Function.comp_def]

/-- Where their samples are in a plane. -/
def keptPlaces (cols rows : Nat) : List Int := ((evenCells cols rows).map (place cols)).map Nat.cast

theorem keptPlaces_length (cols rows : Nat) : (keptPlaces cols rows).length = (evenCells cols rows).length := by
  rw [keptPlaces, List.length_map, List.length_map]

theorem keptPlaces_lt {j : Int} (inside : j ∈ keptPlaces cols rows) : j < (rows * cols : Nat) := by
  simp only [keptPlaces, List.mem_map] at inside
  obtain ⟨_, ⟨p, kept, rfl⟩, rfl⟩ := inside
  exact_mod_cast place_lt (mem_evenCells.mp kept).1

/-- The loops of the subsampling take these cells. -/
theorem kept_eq {f : Format} (vertical : getVerticalSub f = 2) (horizontal : getHorizontalSub f = 2)
    (small : rows * cols < 2 ^ 31) : kept f rows cols = keptPlaces cols rows := by
  have plain : kept f rows cols = (evenCells cols rows).map fun p => int (place cols p) := by
    rw [kept, vertical, horizontal, evenCells_steps, List.map_flatMap]
    refine List.flatMap_congr fun l _ => ?_
    rw [List.map_map]
    refine List.map_congr_left fun i _ => ?_
    rw [Function.comp_apply, place, Nat.mul_comm]
  rw [plain, keptPlaces, List.map_map]
  refine List.map_congr_left fun p inside => ?_
  exact int_natCast ((place_lt (mem_evenCells.mp inside).1).trans small)

/-- Between two of them there is another cell. -/
theorem evenCells_spread (even : cols % 2 = 0) (rows : Nat) :
    (evenCells cols rows).Pairwise fun p q => place cols p + 2 ≤ place cols q := by
  have ordered : (cells cols rows).Pairwise fun p q => place cols p < place cols q := by
    apply List.pairwise_map.mp
    rw [map_place]
    exact List.pairwise_lt_range
  have place_even {p : Cell} (inside : p ∈ evenCells cols rows) : place cols p % 2 = 0 := by
    have column := (mem_evenCells.mp inside).2.1
    rw [place, Nat.add_mod, Nat.mul_mod, even, Nat.mul_zero, Nat.zero_mod, Nat.zero_add, Nat.mod_mod, column]
  refine (ordered.sublist List.filter_sublist).imp_of_mem fun {p q} inside inside' before => ?_
  have first := place_even inside
  have second := place_even inside'
  omega

/-- So that twice as many samples have room below each. -/
theorem two_mul_le {places : List Nat} (spread : places.Pairwise fun a b => a + 2 ≤ b) {k : Nat} (inside : k < places.length) :
    2 * k ≤ places[k] := by
  induction k with
  | zero => exact Nat.zero_le _
  | succ k ih =>
    have below := ih (Nat.lt_of_succ_lt inside)
    have step := List.pairwise_iff_getElem.mp spread k (k + 1) (Nat.lt_of_succ_lt inside) inside (Nat.lt_succ_self k)
    omega

end Cells

/-! ## Places of the chroma -/

section Places
variable {places : List Nat} {n k : Nat}

/-- The one plane behind the other. -/
theorem planar_down (spread : places.Pairwise fun a b => a + 2 ≤ b) (few : 2 * places.length ≤ n) :
    ∀ turn ∈ (places.map (Nat.cast : Nat → Int) ++ (places.map (Nat.cast : Nat → Int)).map ((n : Int) + ·)).zipIdx,
      (turn.2 : Int) ≤ turn.1 := by
  rintro ⟨j, k⟩ inside
  rw [List.zipIdx_append, List.mem_append] at inside
  rcases inside with first | second
  · obtain ⟨low, same⟩ := List.mem_zipIdx' first
    rw [List.length_map] at low
    have below := two_mul_le spread low
    rw [List.getElem_map] at same
    dsimp only
    omega
  · obtain ⟨from_, low, same⟩ := List.mem_zipIdx second
    simp only [List.length_map, Nat.zero_add, List.getElem_map] at from_ low same
    have below := two_mul_le spread (k := k - places.length) (by omega)
    dsimp only
    omega

/-- The two planes in turns. -/
theorem pairs_down (positive : 0 < n) (below : ∀ m (inside : m < places.length), k + 2 * m ≤ places[m]) :
    ∀ turn ∈ ((places.map (Nat.cast : Nat → Int)).flatMap fun l => [l, (n : Int) + l]).zipIdx k,
      (turn.2 : Int) ≤ turn.1 := by
  induction places generalizing k with
  | nil => nofun
  | cons place places ih =>
    have first : k ≤ place := below 0 (Nat.succ_pos _)
    have later : ∀ m (inside : m < places.length), k + 1 + 1 + 2 * m ≤ places[m] := by
      intro m inside
      have next := below (m + 1) (Nat.succ_lt_succ inside)
      rw [List.getElem_cons_succ] at next
      omega
    intro turn inside
    simp only [List.map_cons, List.flatMap_cons, List.cons_append, List.nil_append, List.zipIdx_cons, List.mem_cons] at inside
    rcases inside with rfl | rfl | inside
    · dsimp only
      omega
    · dsimp only
      omega
    · exact ih later turn inside

variable {cols rows : Nat}

/-- The halves of the sizes and the places of the chroma. -/
theorem halves_places (halves : rows * cols = 0 ∨ rows % 2 = 0 ∧ cols % 2 = 0) :
    ((evenCells cols rows).map (place cols)).Pairwise (fun a b => a + 2 ≤ b) ∧
      4 * (evenCells cols rows).length = rows * cols := by
  rw [evenCells_length]
  rcases halves with none | ⟨rows_even, cols_even⟩
  · have no_cells : (rows + 1) / 2 * ((cols + 1) / 2) = 0 := by
      rcases Nat.mul_eq_zero.mp none with rfl | rfl
      · rw [show (0 + 1) / 2 = 0 from rfl, Nat.zero_mul]
      · rw [show (0 + 1) / 2 = 0 from rfl, Nat.mul_zero]
    have empty : evenCells cols rows = [] := List.eq_nil_of_length_eq_zero (by rw [evenCells_length, no_cells])
    rw [empty, none, no_cells]
    exact ⟨.nil, rfl⟩
  · refine ⟨List.pairwise_map.mpr (evenCells_spread cols_even rows), ?_⟩
    obtain ⟨r, rfl⟩ : ∃ r, rows = 2 * r := ⟨rows / 2, by omega⟩
    obtain ⟨c, rfl⟩ : ∃ c, cols = 2 * c := ⟨cols / 2, by omega⟩
    rw [show (2 * r + 1) / 2 = r by omega, show (2 * c + 1) / 2 = c by omega]
    ring

/-- Samples of two planes of `n` that can be moved to the front, and are as many as are written. -/
structure Moves (places : List Int) (n : Nat) : Prop where
  count : n / (2 * 2) * 2 = places.length
  room : ∀ j ∈ places, j < 2 * n
  down : ∀ turn ∈ places.zipIdx, (turn.2 : Int) ≤ turn.1

theorem planar_moves (halves : rows * cols = 0 ∨ rows % 2 = 0 ∧ cols % 2 = 0) :
    Moves (keptPlaces cols rows ++ (keptPlaces cols rows).map (((rows * cols : Nat) : Int) + ·)) (rows * cols) := by
  obtain ⟨spread, count⟩ := halves_places halves
  refine ⟨?_, fun j inside => ?_, planar_down spread (by rw [List.length_map]; omega)⟩
  · rw [List.length_append, List.length_map, keptPlaces_length]
    omega
  · rcases List.mem_append.mp inside with first | second
    · have low := keptPlaces_lt first
      omega
    · obtain ⟨l, mem_l, rfl⟩ := List.mem_map.mp second
      have low := keptPlaces_lt mem_l
      omega

theorem pairs_moves (halves : rows * cols = 0 ∨ rows % 2 = 0 ∧ cols % 2 = 0) :
    Moves ((keptPlaces cols rows).flatMap fun l => [l, ((rows * cols : Nat) : Int) + l]) (rows * cols) := by
  obtain ⟨spread, count⟩ := halves_places halves
  refine ⟨?_, fun j inside => ?_, fun turn inside => ?_⟩
  · have length : ((keptPlaces cols rows).flatMap fun l => [l, ((rows * cols : Nat) : Int) + l]).length =
        (evenCells cols rows).length * 2 := by
      rw [List.length_flatMap, ← keptPlaces_length]
      simp [Function.const_def]
    rw [length]
    omega
  · obtain ⟨l, mem_l, here⟩ := List.mem_flatMap.mp inside
    have low := keptPlaces_lt mem_l
    simp only [List.mem_cons, List.not_mem_nil, or_false] at here
    omega
  · rcases Nat.eq_zero_or_pos (rows * cols) with none | positive
    · have empty : evenCells cols rows = [] := List.eq_nil_of_length_eq_zero (by omega)
      rw [keptPlaces, empty] at inside
      cases inside
    · exact pairs_down positive (fun m low => by simpa using two_mul_le spread low) turn inside

end Places

/-! ## From the buffers to the file -/

/-- The buffers have room for so many pixels. -/
structure Roomy (mem : Memory) (n : Nat) : Prop where
  rgb : 4 * n ≤ mem.size .rgb
  luma : n ≤ mem.size .luma
  chroma : 2 * n ≤ mem.size .chroma
  alpha : n ≤ mem.size .alpha
  small : n < 2 ^ 30

/-- The counter of the bytes stays an `int`. -/
def Counted (o : Output) (n : Nat) : Prop :=
  (o.format = .yuv444 → 3 * n ≤ 2 ^ 31) ∧ (o.format = .yuva444 → 4 * n ≤ 2 ^ 31)

instance (o : Output) (n : Nat) : Decidable (Counted o n) := inferInstanceAs (Decidable (_ ∧ _))

/-- Sizes that can be halved where the chroma is. -/
def Halves (o : Output) (cols rows : Nat) : Prop :=
  (o.format = .yuv420 ∨ o.format = .nv12 → rows * cols = 0 ∨ rows % 2 = 0 ∧ cols % 2 = 0) ∧
    (o.format = .yuyv422 → rows * cols = 0 ∨ cols % 2 = 0)

instance (o : Output) (cols rows : Nat) : Decidable (Halves o cols rows) := inferInstanceAs (Decidable (_ ∧ _))

section Write
variable {o : Output} {rows cols n unit : Nat} {mem mem' : Memory} {pixel : Nat → UInt32} {f : UInt32 → List UInt8}

theorem forceStuck_shows (o : Output) (small : rows * cols < 2 ^ 31) (room : 4 * (rows * cols) ≤ mem.size .rgb)
    (shows : Shows mem (rows * cols) pixel) : ∃ mem', forceStuck o rows cols mem = .ok mem' ∧ mem'.size = mem.size ∧
      Shows mem' (rows * cols) fun i => o.stuck (pixel i) := by
  unfold forceStuck
  rw [int_natCast small, Int.toNat_natCast]
  split_ifs with stuck
  · rw [stuckPass_linear]
    obtain ⟨mem', ok, size, written⟩ := go_linear (le_refl 4) (fun p => littleEndian_length 4 (o.stuck p).toNat) room shows
    refine ⟨mem', ok, size, fun i low => ?_⟩
    have bytes := written i low
    push_cast at bytes
    rw [pixelAt, bytes, pixelOf_littleEndian]
  · refine ⟨mem, rfl, rfl, fun i low => ?_⟩
    obtain ⟨zero, one⟩ := not_or.mp stuck
    simp only [shows i low, Output.stuck, if_neg zero, if_neg one]

theorem fwrite_room {plane : Plane} (room : n * unit ≤ mem.size plane) :
    fwrite mem plane n unit = .ok ((List.range (n * unit)).map fun k : Nat => mem.cells (plane, k)) := by
  unfold fwrite
  rw [if_pos ⟨Int.natCast_nonneg n, by exact_mod_cast room⟩]
  congr 3

/-- A pixel after the other. -/
theorem write_linear (small : rows * cols < 2 ^ 30) (narrow : unit ≤ 4) (room : 4 * (rows * cols) ≤ mem.size .rgb)
    (written : ∀ i < rows * cols, (bytesFrom .rgb (unit * i : Nat) unit).map mem.cells = f (pixel i)) :
    fwrite mem .rgb (uint (rows * cols : Nat)) unit =
      .ok (((cells cols rows).map fun p => pixel (place cols p)).flatMap f) := by
  have inside : rows * cols * unit ≤ mem.size .rgb := by
    calc rows * cols * unit ≤ rows * cols * 4 := Nat.mul_le_mul_left _ narrow
      _ ≤ mem.size .rgb := by omega
  rw [uint_natCast (by omega), fwrite_room inside, linear_bytes written, map_cells, List.flatMap_map]

theorem fwrite_int {plane : Plane} (small : n < 2 ^ 31) (room : n ≤ mem.size plane) :
    fwrite mem plane (int n) 1 = .ok ((List.range n).map fun k : Nat => mem.cells (plane, k)) := by
  rw [int_natCast small, fwrite_room (by rwa [Nat.mul_one]), Nat.mul_one]

/-- Conversion and file for a format with its pixels one behind the other. -/
theorem linear_written (small : rows * cols < 2 ^ 30) (narrow : unit ≤ 4) (lengths : ∀ p, (f p).length = unit)
    (room : 4 * (rows * cols) ≤ mem.size .rgb) (shows : Shows mem (rows * cols) pixel) :
    (go (linearPass unit f) (List.range (rows * cols)) mem >>= fun mem => fwrite mem .rgb (uint (rows * cols : Nat)) unit) =
      .ok (((cells cols rows).map fun p => pixel (place cols p)).flatMap f) := by
  obtain ⟨mem', ok, size, written⟩ := go_linear narrow lengths room shows
  rw [ok]
  exact write_linear small narrow (by rw [size]; exact room) written

theorem ok_bind {α β : Type} (a : α) (f : α → Except Fault β) : (.ok a >>= f) = f a := rfl

/-- The bytes of the pixels themselves. -/
theorem shows_bytes (shows : Shows mem n pixel) (i : Nat) (low : i < n) :
    (bytesFrom .rgb (4 * i : Nat) 4).map mem.cells = littleEndian 4 (pixel i).toNat := by
  have length : ((pixelAt i).map mem.cells).length = 4 := by rw [List.length_map, pixelAt, bytesFrom_length]
  rw [← shows i low, littleEndian_pixelOf length, pixelAt]
  push_cast
  rfl

theorem luma_written (room : n ≤ mem.size .luma) {y : Nat → UInt8} (luma : ∀ i < n, mem.cells (.luma, i) = y i) :
    fwrite mem .luma n 1 = .ok ((List.range n).map y) := by
  rw [fwrite_room (by rwa [Nat.mul_one]), Nat.mul_one]
  congr 1
  exact List.map_congr_left fun i inside => luma i (List.mem_range.mp inside)

theorem kept_map {y : Nat → UInt8} {at_ : Int → UInt8} (known : ∀ i < rows * cols, at_ i = y i) :
    (keptPlaces cols rows).map at_ = (evenCells cols rows).map fun p => y (place cols p) := by
  rw [keptPlaces, List.map_map, List.map_map]
  exact List.map_congr_left fun p inside => known _ (place_lt (mem_evenCells.mp inside).1)

theorem packed_pairs (o : Output) (c : Nat) (pixel : Nat → UInt32) : o.packed ((List.range (2 * c)).map pixel) =
    (List.range c).flatMap fun t => [(o.yuva (pixel (2 * t))).y, (o.yuva (pixel (2 * t))).u,
      (o.yuva (pixel (2 * t + 1))).y, (o.yuva (pixel (2 * t))).v] := by
  induction c generalizing pixel with
  | zero => rfl
  | succ c ih =>
    have pairs : (List.range (2 * (c + 1))).map pixel =
        pixel 0 :: pixel 1 :: (List.range (2 * c)).map fun i => pixel (i + 2) := by
      rw [Nat.mul_succ, List.range_succ_eq_map, List.range_succ_eq_map]
      simp [Function.comp_def]
    rw [pairs, Output.packed, ih, List.range_succ_eq_map, List.flatMap_cons, List.flatMap_map]
    rfl

theorem yuyv_written (small : rows * cols < 2 ^ 30) (halves : rows * cols = 0 ∨ cols % 2 = 0)
    (room : 4 * (rows * cols) ≤ mem.size .rgb) (shows : Shows mem (rows * cols) pixel) :
    (go (yuyvPass o) (List.range ((rows * cols + 1) / 2)) mem >>= fun mem => fwrite mem .rgb (uint (rows * cols : Nat)) 2) =
      .ok ((List.range rows).flatMap fun y => o.packed ((List.range cols).map fun x => pixel (place cols (x, y)))) := by
  obtain ⟨c, rfl⟩ | rfl : (∃ c, cols = 2 * c) ∨ rows = 0 := by
    rcases halves with none | even
    · rcases Nat.mul_eq_zero.mp none with none | rfl
      · exact .inr none
      · exact .inl ⟨0, rfl⟩
    · exact .inl ⟨cols / 2, by omega⟩
  · have pairs : rows * (2 * c) = 2 * (rows * c) := by ring
    have turns : (rows * (2 * c) + 1) / 2 = rows * c := by omega
    rw [pairs] at shows
    obtain ⟨mem', ok, size, written⟩ := go_yuyv (by omega) shows
    have bytes : rows * (2 * c) * 2 = rows * c * 4 := by ring
    rw [turns, ok, ok_bind, uint_natCast (by omega), fwrite_room (by rw [size]; omega), bytes,
      linear_bytes written, range_mul, List.flatMap_assoc]
    congr 1
    refine List.flatMap_congr fun y _ => ?_
    have line := packed_pairs o c fun x => pixel (place (2 * c) (x, y))
    rw [line, List.flatMap_map]
    refine List.flatMap_congr fun t _ => ?_
    have first : place (2 * c) (2 * t, y) = 2 * (y * c + t) := by
      unfold place
      ring
    have second : place (2 * c) (2 * t + 1, y) = 2 * (y * c + t) + 1 := by
      unfold place
      ring
    rw [first, second]
  · obtain ⟨mem', ok, size, -⟩ := @go_yuyv 0 o mem pixel (Nat.zero_le _) (by rwa [Nat.zero_mul] at shows)
    rw [Nat.zero_mul, ok, ok_bind, uint_natCast (by decide), fwrite_room (by omega)]
    rfl

/-- The planes of a format without subsampling. -/
theorem planar_written (roomy : Roomy mem n) (shows : Shows mem n pixel) :
    (go (planarPass o n) (List.range n) mem >>= fun mem => do
      let luma ← fwrite mem .luma n 1
      let chroma ← fwrite mem .chroma (int (uint n / (1 * 1) * 2 : Nat)) 1
      pure (luma ++ chroma)) = .ok ((List.range n).map (fun i => (o.yuva (pixel i)).y) ++
        (List.range n).map (fun i => (o.yuva (pixel i)).u) ++ (List.range n).map fun i => (o.yuva (pixel i)).v) := by
  have small := roomy.small
  obtain ⟨mem', ok, size, planes⟩ := go_planar roomy.rgb roomy.luma roomy.chroma roomy.alpha shows
  have luma := luma_written (by rw [size]; exact roomy.luma) fun i low => (planes i low).1
  have chroma : fwrite mem' .chroma (int (uint n / (1 * 1) * 2 : Nat)) 1 =
      .ok ((List.range n).map (fun i => (o.yuva (pixel i)).u) ++ (List.range n).map fun i => (o.yuva (pixel i)).v) := by
    rw [uint_natCast (by omega), show n / (1 * 1) * 2 = n + n by omega,
      fwrite_int (by omega) (by rw [size]; have room := roomy.chroma; omega), List.range_add, List.map_append, List.map_map]
    congr 2
    · exact List.map_congr_left fun i inside => (planes i (List.mem_range.mp inside)).2.1
    · refine List.map_congr_left fun i inside => ?_
      rw [Function.comp_apply, Nat.cast_add]
      exact (planes i (List.mem_range.mp inside)).2.2
  rw [ok, ok_bind, luma, ok_bind, chroma, ok_bind, List.append_assoc]
  rfl

/-- The planes of a format whose chroma is moved down from some places. -/
theorem subsampled_written {places : List Int} (roomy : Roomy mem n) (shows : Shows mem n pixel)
    (moves : Moves places n) :
    ∃ at_ : Int → UInt8, (∀ i < n, at_ i = (o.yuva (pixel i)).u) ∧ (∀ i < n, at_ (n + i) = (o.yuva (pixel i)).v) ∧
      (go (planarPass o n) (List.range n) mem >>= fun mem => go subsamplePass places.zipIdx mem >>= fun mem => do
        let luma ← fwrite mem .luma n 1
        let chroma ← fwrite mem .chroma (int (uint n / (2 * 2) * 2 : Nat)) 1
        pure (luma ++ chroma)) = .ok ((List.range n).map (fun i => (o.yuva (pixel i)).y) ++ places.map at_) := by
  have small := roomy.small
  have chroma_room := roomy.chroma
  obtain ⟨mem', ok, size, planes⟩ := go_planar roomy.rgb roomy.luma roomy.chroma roomy.alpha shows
  have inside : ∀ j ∈ places, j < mem'.size .chroma := by
    intro j mem_j
    have low := moves.room j mem_j
    rw [size]
    omega
  have count := moves.count
  obtain ⟨mem'', ok', size', luma_same, moved⟩ := go_subsample (by omega) inside moves.down
  have luma := luma_written (by rw [size', size]; exact roomy.luma) fun i low =>
    (luma_same i).trans (planes i low).1
  have chroma : fwrite mem'' .chroma (int (uint n / (2 * 2) * 2 : Nat)) 1 =
      .ok (places.map fun j => mem'.cells (.chroma, j)) := by
    rw [uint_natCast (by omega), count, fwrite_int (by omega) (by rw [size', size]; omega), moved]
  refine ⟨fun j => mem'.cells (.chroma, j), fun i low => (planes i low).2.1, fun i low => (planes i low).2.2, ?_⟩
  rw [ok, ok_bind, ok', ok_bind, luma, ok_bind, chroma, ok_bind]
  rfl

theorem format_written (roomy : Roomy mem (rows * cols)) (counted : Counted o (rows * cols)) (halves : Halves o cols rows)
    (shows : Shows mem (rows * cols) pixel) : (convertFormat o rows cols mem >>= writeBuffers o rows cols) =
      .ok (content o cols rows fun p => pixel (place cols p)) := by
  have small := roomy.small
  have whole : int (rows * cols : Nat) = (rows * cols : Nat) := int_natCast (by omega)
  unfold convertFormat writeBuffers content
  cases format : o.format with
  | bgr565 =>
    simp only [whole, Int.toNat_natCast]
    rw [bgr565Pass_linear]
    exact linear_written small (by decide) (fun p => littleEndian_length 2 (bitmapBgraToBgr565 p)) roomy.rgb shows
  | yuv444 =>
    simp only [whole, Int.toNat_natCast]
    rw [yuvPass_linear (counted.1 format)]
    exact linear_written small (by decide) (fun p => rfl) roomy.rgb shows
  | yuva444 =>
    simp only [whole, Int.toNat_natCast]
    rw [yuvPass_linear (counted.2 format)]
    exact linear_written small (by decide) (fun p => rfl) roomy.rgb shows
  | bgra8888 =>
    simp only [whole, Int.toNat_natCast]
    by_cases narrow : o.bpc < 8
    · simp only [if_pos narrow]
      rw [bpcPass_linear]
      exact linear_written small (by decide) (fun p => littleEndian_length 4 (bitmapBgraToBpc p o.bpc).toNat) roomy.rgb shows
    · simp only [if_neg narrow]
      exact write_linear small (by decide) roomy.rgb (shows_bytes shows)
  | yuyv422 =>
    simp only [whole, Int.toNat_natCast]
    exact yuyv_written small (halves.2 format) roomy.rgb shows
  | yuv444p =>
    simp only [whole, Int.toNat_natCast, List.map_map, Function.comp_def, map_cells fun i => (o.yuva (pixel i)).y,
      map_cells fun i => (o.yuva (pixel i)).u, map_cells fun i => (o.yuva (pixel i)).v]
    exact planar_written roomy shows
  | yuv420 =>
    have places : kept .yuv420 rows cols = keptPlaces cols rows := kept_eq rfl rfl (by omega)
    obtain ⟨at_, u, v, written⟩ := subsampled_written (o := o) roomy shows (planar_moves (halves.1 (.inl format)))
    have v' : ∀ i < rows * cols, (at_ ∘ (((rows * cols : Nat) : Int) + ·)) i = (o.yuva (pixel i)).v := v
    simp only [whole, Int.toNat_natCast, List.map_map, bind_assoc, places]
    refine written.trans ?_
    rw [List.map_append, List.map_map, kept_map u, kept_map v', List.append_assoc]
    exact congrArg (fun luma => Except.ok (luma ++ _)) (map_cells _).symm
  | nv12 =>
    have places : kept .nv12 rows cols = keptPlaces cols rows := kept_eq rfl rfl (by omega)
    obtain ⟨at_, u, v, written⟩ := subsampled_written (o := o) roomy shows (pairs_moves (halves.1 (.inr format)))
    simp only [whole, Int.toNat_natCast, List.map_map, bind_assoc, places]
    refine written.trans ?_
    have pairs : ((keptPlaces cols rows).flatMap fun l => [l, ((rows * cols : Nat) : Int) + l]).map at_ =
        (evenCells cols rows).flatMap fun p => [(o.yuva (pixel (place cols p))).u, (o.yuva (pixel (place cols p))).v] := by
      rw [keptPlaces, List.map_map, List.flatMap_map, List.map_flatMap]
      refine List.flatMap_congr fun p inside => ?_
      have low := place_lt (mem_evenCells.mp inside).1
      exact congrArg₂ (fun first second => [first, second]) (u _ low) (v _ low)
    rw [pairs, List.flatMap_map]
    exact congrArg (fun luma => Except.ok (luma ++ _)) (map_cells _).symm

end Write

end ImxTest.Patgen
