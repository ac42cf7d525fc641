import ImxTest.Patgen.Content

/-! When the file of a bitmap is what it has to be. -/
namespace ImxTest.Patgen
open Lib.Grid Lib.InPlace Lib.Loops Lib.Words

/-! ## How long the file is -/

/-- The bytes of a picture. -/
def contentBytes (f : Format) (cols rows : Nat) : Nat :=
  match f with
  | .yuyv422 => rows * (2 * cols + cols % 2)
  | .yuv444p => rows * cols + rows * cols * 2
  | .yuv420 | .nv12 => rows * cols + (rows + 1) / 2 * ((cols + 1) / 2) * 2
  | _ => rows * cols * bytesPerPixel f

/-- The bytes that are written for so many pixels. -/
def writtenBytes (f : Format) (n : Nat) : Nat :=
  match f with
  | .yuv444p | .yuv420 | .nv12 => n + n / (getVerticalSub f * getHorizontalSub f) * 2
  | _ => n * bytesPerPixel f

section Length
variable {o : Output} {rows cols n : Nat} {mem mem' : Memory} {out : List UInt8} {pixel : Cell → UInt32}

theorem cells_length (cols rows : Nat) : (cells cols rows).length = rows * cols := by
  rw [← List.length_map (place cols), map_place, List.length_range]

theorem packed_length (o : Output) : ∀ pixels, (o.packed pixels).length = 2 * pixels.length + pixels.length % 2
  | [] => rfl
  | [_] => rfl
  | first :: second :: pixels => by
    have rest := packed_length o pixels
    simp only [Output.packed, List.length_append, List.length_cons, List.length_nil, rest]
    omega

theorem flatMap_length {α : Type} {f : α → List UInt8} {k : Nat} (lengths : ∀ a, (f a).length = k) (as : List α) :
    (as.flatMap f).length = as.length * k := by
  induction as with
  | nil => exact (Nat.zero_mul k).symm
  | cons a as ih => rw [List.flatMap_cons, List.length_append, lengths, ih, List.length_cons, Nat.succ_mul, Nat.add_comm]

theorem content_length (o : Output) (cols rows : Nat) (pixel : Cell → UInt32) :
    (content o cols rows pixel).length = contentBytes o.format cols rows := by
  unfold content contentBytes
  cases o.format with
  | bgra8888 => exact (flatMap_length (fun _ => littleEndian_length 4 _) _).trans (by rw [List.length_map, cells_length]; rfl)
  | bgr565 => exact (flatMap_length (fun _ => littleEndian_length 2 _) _).trans (by rw [List.length_map, cells_length]; rfl)
  | yuv444 => exact (flatMap_length (k := 3) (fun _ => rfl) _).trans (by rw [List.length_map, cells_length]; rfl)
  | yuva444 => exact (flatMap_length (k := 4) (fun _ => rfl) _).trans (by rw [List.length_map, cells_length]; rfl)
  | yuyv422 =>
    refine (flatMap_length (k := 2 * cols + cols % 2) (fun _ => ?_) _).trans (by rw [List.length_range])
    rw [packed_length, List.length_map, List.length_range]
  | yuv444p =>
    simp only [List.length_append, List.length_map, cells_length]
    omega
  | yuv420 =>
    simp only [List.length_append, List.length_map, cells_length, evenCells_length]
    omega
  | nv12 =>
    have pairs := flatMap_length (f := fun p => [(o.yuva p).u, (o.yuva p).v]) (k := 2) (fun _ => rfl)
      ((evenCells cols rows).map pixel)
    simp only [List.length_append, List.length_map, cells_length, pairs, evenCells_length]

theorem area_le_contentBytes (f : Format) (cols rows : Nat) : rows * cols ≤ contentBytes f cols rows := by
  cases f <;> simp only [contentBytes, bytesPerPixel]
  case yuyv422 => exact Nat.mul_le_mul_left _ (by omega)
  all_goals omega

/-- A quarter of the pixels, and those in even lines and columns. -/
theorem quarter_iff (rows cols : Nat) : rows * cols / (2 * 2) = (rows + 1) / 2 * ((cols + 1) / 2) ↔
    rows * cols = 0 ∨ rows % 2 = 0 ∧ cols % 2 = 0 := by
  constructor
  · intro same
    obtain ⟨r, a, rfl, a_lt⟩ : ∃ r a, rows = 2 * r + a ∧ a < 2 := ⟨rows / 2, rows % 2, by omega, by omega⟩
    obtain ⟨c, b, rfl, b_lt⟩ : ∃ c b, cols = 2 * c + b ∧ b < 2 := ⟨cols / 2, cols % 2, by omega, by omega⟩
    rw [show (2 * r + a + 1) / 2 = r + a by omega, show (2 * c + b + 1) / 2 = c + b by omega] at same
    have most : 4 * ((r + a) * (c + b)) ≤ (2 * r + a) * (2 * c + b) := by omega
    have parts : 4 * ((r + a) * (c + b)) = (2 * r + a) * (2 * c + b) + (2 * (r * b) + 2 * (a * c) + 3 * (a * b)) := by ring
    have first : r * b = 0 := by omega
    have second : a * c = 0 := by omega
    have third : a * b = 0 := by omega
    rcases Nat.mul_eq_zero.mp third with rfl | rfl
    · rcases Nat.mul_eq_zero.mp first with rfl | rfl
      · exact .inl (by omega)
      · exact .inr (by omega)
    · rcases Nat.mul_eq_zero.mp second with rfl | rfl
      · exact .inr (by omega)
      · exact .inl (by omega)
  · intro halves
    rw [← evenCells_length, ← (halves_places halves).2]
    omega

/-- Only the pixels of the picture count. -/
theorem content_congr {pixel' : Cell → UInt32} (same : ∀ p, Inside cols rows p → pixel p = pixel' p) :
    content o cols rows pixel = content o cols rows pixel' := by
  have all : (cells cols rows).map pixel = (cells cols rows).map pixel' :=
    List.map_congr_left fun p inside => same p (mem_cells.mp inside)
  have even : (evenCells cols rows).map pixel = (evenCells cols rows).map pixel' :=
    List.map_congr_left fun p inside => same p (mem_evenCells.mp inside).1
  have lines : ((List.range rows).flatMap fun y => o.packed ((List.range cols).map fun x => pixel (x, y))) =
      (List.range rows).flatMap fun y => o.packed ((List.range cols).map fun x => pixel' (x, y)) := by
    refine List.flatMap_congr fun y low => ?_
    rw [List.map_congr_left fun x left => same (x, y) ⟨List.mem_range.mp left, List.mem_range.mp low⟩]
  unfold content
  rw [all, even, lines]

/-- As many bytes are written as the picture has where its sizes can be halved. -/
theorem bytes_iff (o : Output) (cols rows : Nat) :
    writtenBytes o.format (rows * cols) = contentBytes o.format cols rows ↔ Halves o cols rows := by
  unfold Halves
  cases o.format with
  | yuv420 | nv12 =>
    have quarter := quarter_iff rows cols
    simp only [writtenBytes, contentBytes, getVerticalSub, getHorizontalSub, reduceCtorEq, or_false, false_or, forall_const,
      false_imp_iff, and_true]
    rw [← quarter]
    omega
  | yuyv422 =>
    have odd : rows * (2 * cols + cols % 2) = rows * cols * 2 + rows * (cols % 2) := by ring
    simp only [writtenBytes, contentBytes, bytesPerPixel, reduceCtorEq, or_false, false_imp_iff, true_and, forall_const, odd]
    rw [Nat.left_eq_add, Nat.mul_eq_zero, Nat.mul_eq_zero, or_assoc]
    omega
  | yuv444p =>
    have whole : rows * cols / (1 * 1) = rows * cols := Nat.div_one _
    exact iff_of_true (by simp only [writtenBytes, contentBytes, getVerticalSub, getHorizontalSub, whole]) ⟨nofun, nofun⟩
  | bgra8888 | bgr565 | yuv444 | yuva444 => exact iff_of_true rfl ⟨nofun, nofun⟩

theorem of_bind_ok {α β : Type} {x : Except Fault α} {f : α → Except Fault β} {b : β} (ok : (x >>= f) = .ok b) :
    ∃ a, x = .ok a ∧ f a = .ok b := by
  cases x with
  | error fault => cases ok
  | ok a => exact ⟨a, rfl, ok⟩

theorem fwrite_ok {plane : Plane} {size : Int} {count : Nat} (ok : fwrite mem plane size count = .ok out) :
    0 ≤ size ∧ size * count ≤ mem.size plane ∧ (out.length : Int) = size * count := by
  unfold fwrite at ok
  split_ifs at ok with room
  obtain rfl := Except.ok.inj ok
  refine ⟨room.1, room.2, ?_⟩
  rw [List.length_map, List.length_range]
  exact Int.toNat_of_nonneg (Int.mul_nonneg room.1 (Int.natCast_nonneg count))

/-- A word that is not negative as an `int`. -/
theorem int_nonneg (small : n < 2 ^ 32) (positive : 0 ≤ int n) : n < 2 ^ 31 := by
  by_contra large
  rw [int_congr (w := (n : Int) - 2 ^ 32) (k := 1) (by ring), int_eq (by omega) (by omega)] at positive
  omega

/-- Both parts of a file in planes are counted by an `int`. -/
theorem planes_ok {sub : Nat} (ok : (do
      let luma ← fwrite mem .luma (int n) 1
      let chroma ← fwrite mem .chroma (int (uint n / sub * 2 : Nat)) 1
      pure (luma ++ chroma)) = .ok out) :
    out.length < 2 ^ 32 ∧ (n < 2 ^ 32 → n < 2 ^ 31 ∧ out.length = n + n / sub * 2) := by
  obtain ⟨luma, first, ok⟩ := of_bind_ok ok
  obtain ⟨chroma, second, ok⟩ := of_bind_ok ok
  obtain rfl := Except.ok.inj ok
  obtain ⟨positive, -, luma_length⟩ := fwrite_ok first
  obtain ⟨positive', -, chroma_length⟩ := fwrite_ok second
  have luma_bounds := int_bounds n
  have chroma_bounds := int_bounds (uint n / sub * 2 : Nat)
  rw [List.length_append]
  refine ⟨by omega, fun small => ?_⟩
  rw [uint_natCast small] at chroma_length positive'
  have luma_small := int_nonneg small positive
  have part : n / sub ≤ n := Nat.div_le_self n sub
  have chroma_small := int_nonneg (by omega) positive'
  rw [int_natCast luma_small] at luma_length
  rw [int_natCast chroma_small] at chroma_length
  exact ⟨luma_small, by omega⟩

/-- The pixels of a file in one piece, of two bytes at least. -/
theorem line_ok {unit : Nat} (wide : 2 ≤ unit) (sizes : ∀ plane, mem.size plane < 2 ^ 32)
    (ok : fwrite mem .rgb (uint n) unit = .ok out) :
    out.length < 2 ^ 32 ∧ (n < 2 ^ 32 → n < 2 ^ 31 ∧ out.length = n * unit) := by
  obtain ⟨-, room, length⟩ := fwrite_ok ok
  have rgb := sizes .rgb
  have length' : out.length = uint n * unit := by exact_mod_cast length
  refine ⟨by omega, fun small => ?_⟩
  rw [uint_natCast small] at length'
  have twice : n * 2 ≤ n * unit := Nat.mul_le_mul_left _ wide
  exact ⟨by omega, length'⟩

theorem writeBuffers_ok (sizes : ∀ plane, mem.size plane < 2 ^ 32) (ok : writeBuffers o rows cols mem = .ok out) :
    out.length < 2 ^ 32 ∧
      (rows * cols < 2 ^ 32 → rows * cols < 2 ^ 31 ∧ out.length = writtenBytes o.format (rows * cols)) := by
  unfold writeBuffers at ok
  cases format : o.format <;> simp only [format] at ok
  case yuv444p | yuv420 | nv12 => exact planes_ok ok
  case bgra8888 | bgr565 | yuv444 | yuva444 | yuyv422 => exact line_ok (by decide) sizes ok

end Length

/-! ## What the loops need -/

section Needs
variable {κ : Type} {o : Output} {rows cols n : Nat} {mem mem' : Memory} {pass : Pass (Plane × Int) κ UInt8} {turns : List κ}

theorem forceStuck_size (ok : forceStuck o rows cols mem = .ok mem') : mem'.size = mem.size := by
  unfold forceStuck at ok
  split_ifs at ok
  · exact (go_ok ok).2
  · rw [Except.ok.inj ok]

theorem convertFormat_size (ok : convertFormat o rows cols mem = .ok mem') : mem'.size = mem.size := by
  unfold convertFormat at ok
  cases format : o.format <;> simp only [format] at ok
  case bgr565 | yuyv422 | yuv444 | yuva444 | yuv444p => exact (go_ok ok).2
  case yuv420 | nv12 =>
    obtain ⟨_, first, second⟩ := of_bind_ok ok
    exact (go_ok second).2.trans (go_ok first).2
  case bgra8888 =>
    split_ifs at ok
    · exact (go_ok ok).2
    · rw [Except.ok.inj ok]

/-- A pixel that is read is in the buffer. -/
theorem go_pixel {t : κ} {i : Nat} (inside : t ∈ turns) (reads : pixelAt i ⊆ pass.reads t)
    (ok : go pass turns mem = .ok mem') : 4 * (i + 1) ≤ mem.size .rgb := by
  have last : ((.rgb, 4 * (i : Int) + 3) : Plane × Int) ∈ pixelAt i :=
    mem_bytesFrom.mpr ⟨rfl, by dsimp only; omega, by dsimp only; omega⟩
  have held := ((go_ok ok).1 t inside _ (List.mem_append_left _ (reads last))).2
  dsimp only at held
  omega

theorem go_pixels {pass : Pass (Plane × Int) Nat UInt8} (reads : ∀ i, pass.reads i = pixelAt i)
    (ok : go pass (List.range n) mem = .ok mem') : 4 * n ≤ mem.size .rgb := by
  cases n with
  | zero => exact Nat.zero_le _
  | succ n => exact go_pixel (List.mem_range.mpr (Nat.lt_succ_self n)) (by rw [reads n]; exact List.Subset.refl _) ok

theorem go_pairs (ok : go (yuyvPass o) (List.range ((n + 1) / 2)) mem = .ok mem') : 4 * n ≤ mem.size .rgb := by
  rcases Nat.eq_zero_or_pos n with rfl | positive
  · exact Nat.zero_le _
  · have second : pixelAt ((2 * ((n - 1) / 2) + 1 : Nat) : Int) ⊆ (yuyvPass o).reads ((n - 1) / 2) := by
      change _ ⊆ pixelAt _ ++ pixelAt _
      push_cast
      exact List.subset_append_right _ _
    have room := go_pixel (List.mem_range.mpr (by omega)) second ok
    omega

/-- The counter of the bytes, at the end of the range of an `int`. -/
theorem go_counted {unit i k : Nat} (places : k < unit) (wraps : unit * i + k = 2 ^ 31)
    (ok : go (yuvPass o unit) (List.range n) mem = .ok mem') : n ≤ i := by
  by_contra more
  have sum : (unit : Int) * i + k = -2 ^ 31 + 1 * 2 ^ 32 := by
    have whole : ((unit * i + k : Nat) : Int) = (2 ^ 31 : Nat) := congrArg _ wraps
    push_cast at whole
    omega
  have negative : int (int ((unit : Int) * i) + k) = -2 ^ 31 := by
    rw [int_int_add, int_congr sum, int_eq (by omega) (by omega)]
  have written : ((.rgb, int (int ((unit : Int) * i) + k)) : Plane × Int) ∈ (yuvPass o unit).writes i :=
    List.mem_map.mpr ⟨k, List.mem_range.mpr places, rfl⟩
  have held := ((go_ok ok).1 i (List.mem_range.mpr (not_le.mp more)) _ (List.mem_append_right _ written)).1
  rw [negative] at held
  omega

theorem convertFormat_needs (small : rows * cols < 2 ^ 31) (ok : convertFormat o rows cols mem = .ok mem') :
    (o.format = .bgra8888 ∨ 4 * (rows * cols) ≤ mem.size .rgb) ∧ Counted o (rows * cols) := by
  have whole : (int (rows * cols : Nat)).toNat = rows * cols := by rw [int_natCast small, Int.toNat_natCast]
  unfold convertFormat at ok
  unfold Counted
  cases format : o.format <;> simp only [format, whole] at ok
  case bgra8888 => exact ⟨.inl rfl, nofun, nofun⟩
  case bgr565 => exact ⟨.inr (go_pixels (fun _ => rfl) ok), nofun, nofun⟩
  case yuyv422 => exact ⟨.inr (go_pairs ok), nofun, nofun⟩
  case yuv444 =>
    have counted := go_counted (i := 715827882) (k := 2) (by decide) (by decide) ok
    exact ⟨.inr (go_pixels (fun _ => rfl) ok), fun _ => by omega, nofun⟩
  case yuva444 =>
    have counted := go_counted (i := 2 ^ 29) (k := 0) (by decide) (by decide) ok
    exact ⟨.inr (go_pixels (fun _ => rfl) ok), nofun, fun _ => by omega⟩
  case yuv444p => exact ⟨.inr (go_pixels (fun _ => rfl) ok), nofun, nofun⟩
  case yuv420 | nv12 =>
    obtain ⟨_, first, -⟩ := of_bind_ok ok
    exact ⟨.inr (go_pixels (fun _ => rfl) first), nofun, nofun⟩

end Needs

/-! ## The file -/

/-- Buffers whose sizes are words; where the pixels have room in theirs, the planes have in the others. -/
structure Planned (mem : Memory) (n : Nat) : Prop where
  sizes : ∀ plane, mem.size plane < 2 ^ 32
  others : 4 * n ≤ mem.size .rgb → n ≤ mem.size .luma ∧ 2 * n ≤ mem.size .chroma ∧ n ≤ mem.size .alpha

section File
variable {o : Output} {rows cols : Nat} {mem : Memory} {out : List UInt8} {pixel : Nat → UInt32}

theorem converted_needs (planned : Planned mem (rows * cols)) (length : rows * cols ≤ out.length)
    (ok : (bitmapConvertBuffer o rows cols mem >>= writeBuffers o rows cols) = .ok out) :
    4 * (rows * cols) ≤ mem.size .rgb ∧ Counted o (rows * cols) ∧ out.length = writtenBytes o.format (rows * cols) := by
  obtain ⟨mem'', converted, written⟩ := of_bind_ok ok
  obtain ⟨mem', stuck, formatted⟩ := of_bind_ok converted
  have size := forceStuck_size stuck
  have size' := convertFormat_size formatted
  obtain ⟨short, bytes⟩ := writeBuffers_ok (by rw [size', size]; exact planned.sizes) written
  obtain ⟨small, bytes⟩ := bytes (by omega)
  obtain ⟨reads, counted⟩ := convertFormat_needs small formatted
  refine ⟨?_, counted, bytes⟩
  rcases reads with plain | room
  · unfold writeBuffers at written
    simp only [plain, uint_natCast (show rows * cols < 2 ^ 32 by omega)] at written
    have room := (fwrite_ok written).2.1
    rw [size', size] at room
    simp only [bytesPerPixel] at room
    omega
  · rwa [size] at room

/-- The file is that of the stuck pixels when these are in the buffer, their bytes can be counted, and the
sizes can be halved where the chroma is. -/
theorem converted_iff (planned : Planned mem (rows * cols)) (shows : Shows mem (rows * cols) pixel) :
    (bitmapConvertBuffer o rows cols mem >>= writeBuffers o rows cols) =
        .ok (content o cols rows fun p => o.stuck (pixel (place cols p))) ↔
      4 * (rows * cols) ≤ mem.size .rgb ∧ Counted o (rows * cols) ∧ Halves o cols rows := by
  constructor
  · intro ok
    have length := content_length o cols rows fun p => o.stuck (pixel (place cols p))
    obtain ⟨room, counted, bytes⟩ := converted_needs planned (by rw [length]; exact area_le_contentBytes ..) ok
    exact ⟨room, counted, (bytes_iff o cols rows).mp (bytes.symm.trans length)⟩
  · rintro ⟨room, counted, halves⟩
    have rgb := planned.sizes .rgb
    obtain ⟨luma, chroma, alpha⟩ := planned.others room
    obtain ⟨mem', stuck, size, shows'⟩ := forceStuck_shows o (by omega) room shows
    unfold bitmapConvertBuffer
    rw [stuck, ok_bind]
    exact format_written ⟨size ▸ room, size ▸ luma, size ▸ chroma, size ▸ alpha, by omega⟩ counted halves shows'

end File

/-! ## Bitmaps -/

theorem write_rotated {bm bm' : Bitmap} {o : Output} {planes : Memory} {fresh : Int → UInt32} {ret : Nat}
    (rotated : bitmapRotateBuffer bm fresh = .ok (ret, bm')) : bitmapWriteFile bm o planes fresh =
      (bitmapConvertBuffer o bm'.h bm'.stride (planes.withPixels bm'.buffer) >>= writeBuffers o bm'.h bm'.stride) := by
  unfold bitmapWriteFile
  rw [rotated]
  rfl

/-- A bitmap that is created and filled, for some output. -/
structure Picture where
  w : Nat
  h : Nat
  stride : Nat
  rotation : Nat
  wide : w < 2 ^ 31
  high : h < 2 ^ 31
  long : stride < 2 ^ 31
  angle : rotation < 2 ^ 16
  pixels : Int → UInt32
  /-- What the other buffers hold by chance. -/
  planes : Plane × Int → UInt8
  output : Output

namespace Picture
variable (pic : Picture)

def bitmap : Bitmap := bitmapCreate pic.w pic.h pic.stride pic.rotation pic.pixels

def memory : Memory := createPlanes pic.h pic.bitmap.stride pic.planes

/-- Whether a rotation is asked for, with memory for it. -/
def Turned : Prop := pic.rotation ≠ 0 ∧ 0 ≤ rotateBytes pic.bitmap.stride pic.h

instance : Decidable pic.Turned := inferInstanceAs (Decidable (_ ∧ _))

def turn : Turn := if pic.Turned then turnOf pic.rotation else .none

def cols : Nat := pic.turn.width pic.bitmap.stride pic.h

def rows : Nat := pic.turn.height pic.w pic.h

/-- The pixels that were there at first, each in the place of its turn. -/
def file : List UInt8 :=
  content pic.output pic.cols pic.rows fun p =>
    pic.output.stuck (pic.bitmap.pixel (pic.turn.source pic.bitmap.stride pic.h p))

def Written (fresh : Int → UInt32) : Prop := bitmapWriteFile pic.bitmap pic.output pic.memory fresh = .ok pic.file

/-- The memory that is asked for has room for the lines. -/
def Fits : Prop :=
  (pic.Turned → Allocates pic.h pic.bitmap.stride) ∧
    (¬pic.Turned → RGB_BUFFER_BYTES * (pic.h * pic.bitmap.stride) + 1024 < 2 ^ 32)

instance : Decidable pic.Fits := inferInstanceAs (Decidable (_ ∧ _))

variable {pic} {fresh : Int → UInt32}

theorem sound : pic.bitmap.Sound := bitmapCreate_sound pic.wide pic.long pic.high

/-- A size that was cut to a word is too small. -/
theorem word_room (n : Nat) : 4 * n ≤ (n * 4 + 1024) % 2 ^ 32 ↔ 4 * n + 1024 < 2 ^ 32 := by omega

theorem rotate_plain (plain : ¬pic.Turned) : ∃ ret, bitmapRotateBuffer pic.bitmap fresh = .ok (ret, pic.bitmap) := by
  by_cases still : pic.rotation = 0
  · refine ⟨0, ?_⟩
    unfold bitmapRotateBuffer rotateSized
    exact if_pos still
  · exact ⟨1, rotate_failed sound still (not_le.mp fun memory => plain ⟨still, memory⟩)⟩

theorem planned_plain : Planned (pic.memory.withPixels pic.bitmap.buffer) (pic.h * pic.bitmap.stride) := by
  constructor
  · intro plane
    cases plane <;> exact Nat.mod_lt _ (by decide)
  · intro room
    have fits := (word_room _).mp room
    change _ ≤ (_ * 4 + 1024) % 2 ^ 32 ∧ _ ≤ (_ * 2 + 1024) % 2 ^ 32 ∧ _ ≤ (_ * 1 + 1024) % 2 ^ 32
    omega

/-- Not turned, the pixels are converted where they are. -/
theorem written_plain_iff (plain : ¬pic.Turned) : pic.Written fresh ↔
    pic.Fits ∧ Counted pic.output (pic.rows * pic.cols) ∧ Halves pic.output pic.cols pic.rows := by
  have still : pic.turn = .none := if_neg plain
  have fits : pic.Fits ↔ 4 * (pic.h * pic.bitmap.stride) ≤ (pic.memory.withPixels pic.bitmap.buffer).size .rgb := by
    unfold Fits
    rw [imp_iff_right plain, and_iff_right fun turned => absurd turned plain]
    exact (word_room _).symm
  obtain ⟨ret, rotated⟩ := @rotate_plain pic fresh plain
  have converted := converted_iff (o := pic.output) planned_plain
    (withPixels_shows pic.memory pic.bitmap.buffer (pic.h * pic.bitmap.stride))
  unfold Written file rows cols
  rw [write_rotated rotated, still, fits]
  exact converted

theorem rows_le (pic : Picture) : pic.rows ≤ pic.turn.height pic.bitmap.stride pic.h := by
  have narrow := pic.sound.narrow
  unfold rows
  cases pic.turn with
  | none | half => exact le_refl _
  | quarter | threeQuarters => exact narrow

theorem area_le (pic : Picture) : pic.rows * pic.cols ≤ pic.h * pic.bitmap.stride := by
  calc pic.rows * pic.cols ≤ pic.turn.height pic.bitmap.stride pic.h * pic.cols := Nat.mul_le_mul_right _ pic.rows_le
    _ = pic.bitmap.stride * pic.h := pic.turn.area
    _ = pic.h * pic.bitmap.stride := Nat.mul_comm ..

theorem planned_turned (fits : Allocates pic.h pic.bitmap.stride) :
    Planned (pic.memory.withPixels (pic.bitmap.rotated pic.turn fresh).buffer) (pic.rows * pic.cols) := by
  have small := fits.small
  have area := pic.area_le
  unfold RGB_BUFFER_BYTES at small
  constructor
  · intro plane
    cases plane with
    | rgb =>
      have bound := @rotateBytes_lt pic.bitmap.stride pic.h
      change (rotateBytes pic.bitmap.stride pic.h).toNat < 2 ^ 32
      omega
    | luma | chroma | alpha => exact Nat.mod_lt _ (by decide)
  · intro _
    change _ ≤ (pic.h * pic.bitmap.stride * 4 + 1024) % 2 ^ 32 ∧ _ ≤ (pic.h * pic.bitmap.stride * 2 + 1024) % 2 ^ 32 ∧
      _ ≤ (pic.h * pic.bitmap.stride * 1 + 1024) % 2 ^ 32
    omega

/-- The pixels of the new memory are those that were there at first. -/
theorem pixel_turned (turned : pic.Turned) (fits : Allocates pic.h pic.bitmap.stride) {p : Cell}
    (inside : Inside pic.cols pic.rows p) : (pic.bitmap.rotated pic.turn fresh).pixel p =
      pic.bitmap.pixel (pic.turn.source pic.bitmap.stride pic.h p) := by
  have angle : turnOf pic.bitmap.rotation = pic.turn := (if_pos turned).symm
  have whole : Inside (pic.turn.width pic.bitmap.stride pic.h) (pic.turn.height pic.bitmap.stride pic.h) p :=
    ⟨inside.1, Nat.lt_of_lt_of_le inside.2 pic.rows_le⟩
  have moved := @rotated_pixel pic.bitmap pic.turn fresh angle fits _ (pic.turn.source_inside whole)
  rwa [show pic.turn.cell pic.bitmap.stride pic.bitmap.h _ = p from pic.turn.cell_source whole] at moved

/-- Turned, the pixels are converted in the new memory, which has room for them. -/
theorem written_turned_iff (turned : pic.Turned) : pic.Written fresh ↔
    pic.Fits ∧ Counted pic.output (pic.rows * pic.cols) ∧ Halves pic.output pic.cols pic.rows := by
  have angle : turnOf pic.bitmap.rotation = pic.turn := (if_pos turned).symm
  have rotated := @rotate_eq pic.bitmap pic.turn fresh sound angle turned.1 turned.2
  by_cases fits : Allocates pic.h pic.bitmap.stride
  · have room : pic.bitmap.h * pic.bitmap.stride * RGB_BUFFER_BYTES ≤ pic.bitmap.buffer.bytes := sound.room fits.small
    rw [if_pos ⟨fits, room⟩] at rotated
    have pixels := content_congr (o := pic.output) fun p inside =>
      congrArg pic.output.stuck (@pixel_turned pic fresh turned fits p inside)
    have converted := converted_iff (o := pic.output) (@planned_turned pic fresh fits)
      (withPixels_shows pic.memory (pic.bitmap.rotated pic.turn fresh).buffer (pic.rows * pic.cols))
    have held : 4 * (pic.rows * pic.cols) ≤
        (pic.memory.withPixels (pic.bitmap.rotated pic.turn fresh).buffer).size .rgb := by
      have area := pic.area_le
      have allocated := fits.1
      change _ ≤ (rotateBytes pic.bitmap.stride pic.h).toNat
      unfold RGB_BUFFER_BYTES at allocated
      omega
    have fits' : pic.Fits := ⟨fun _ => fits, fun plain => absurd turned plain⟩
    unfold Written file
    rw [write_rotated rotated, ← pixels, and_iff_right fits']
    rw [and_iff_right held] at converted
    exact converted
  · rw [if_neg fun both => fits both.1] at rotated
    refine iff_of_false (fun written => ?_) fun needs => fits (needs.1.1 turned)
    unfold Written bitmapWriteFile at written
    rw [rotated] at written
    cases written

end Picture

/-- A file holds the converted pixels that were there at first, and all the chroma of a picture, exactly when the
memory asked for has room for the lines, the bytes of a pixel can be counted, and the sizes can be halved
where the chroma is. -/
theorem bitmapWriteFile_iff (pic : Picture) (fresh : Int → UInt32) : pic.Written fresh ↔
    pic.Fits ∧ Counted pic.output (pic.rows * pic.cols) ∧ Halves pic.output pic.cols pic.rows := by
  by_cases turned : pic.Turned
  · exact Picture.written_turned_iff turned
  · exact Picture.written_plain_iff turned

/-- A white line of three pixels. -/
def whiteLine : Picture where
  w := 3
  h := 1
  stride := 3
  rotation := 0
  wide := by decide
  high := by decide
  long := by decide
  angle := by decide
  pixels _ := 0xffffffff
  planes _ := 0
  output := { format := .yuv420, bpc := 8, zero := 0, one := 0, colorRangeFull := false }

/-- No chroma is written of it. -/
theorem bitmapWriteFile_odd : ¬whiteLine.Written (fun _ => 0) ∧
    bitmapWriteFile whiteLine.bitmap whiteLine.output whiteLine.memory (fun _ => 0) = .ok [235, 235, 235] ∧
      whiteLine.file = [235, 235, 235, 128, 128, 128, 128] := by
  have written : bitmapWriteFile whiteLine.bitmap whiteLine.output whiteLine.memory (fun _ => 0) =
      .ok [235, 235, 235] := by decide +kernel
  have file : whiteLine.file = [235, 235, 235, 128, 128, 128, 128] := by decide +kernel
  refine ⟨?_, written, file⟩
  rw [Picture.Written, written, file]
  decide

end ImxTest.Patgen
