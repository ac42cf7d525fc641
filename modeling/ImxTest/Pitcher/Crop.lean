import ImxTest.Pitcher.PlaneViews
import ImxTest.Pitcher.PlaneLayout

/-! What `ofile_output_by_line` writes of a picture to a file, and how much of the
picture the copy of pitcher/pixfmt.c takes. -/
namespace ImxTest.Pitcher.Crop

open Lib.Copy
open Word (word)

/-! ## The output of a picture -/

/-- The rows of plane `i` that are written, one by one: where each begins, and its bytes.
`w` and `h` are `int`s, and the sizes of a picture are numbers that those can hold. -/
def outputPlane (splane : BufRef) (fmt : PixFmtInfo) (crop : Rect) (w h i : Nat) : List (Nat × Nat) :=
  let desc := fmt.desc
  let w := align w (2 ^ desc.log2ChromaW)
  let h := align h (2 ^ desc.log2ChromaH)
  let w := if i = 0 then w else w / 2 ^ desc.log2ChromaW
  let h := if i = 0 then h else h / 2 ^ desc.log2ChromaH
  let line := Word.align (word (w * desc.bpp.getD i 0)) 8 / 8
  let left := if i = 0 then crop.left else crop.left / 2 ^ desc.log2ChromaW
  let top := if i = 0 then crop.top else crop.top / 2 ^ desc.log2ChromaH
  let xOffset := Word.align (word (left * desc.bpp.getD i 0)) 8 / 8
  let planesLine := (fmt.planes i).line
  let offset := word (planesLine * top)
  (List.range h).map fun j => (splane.virt + (offset + j * planesLine) + xOffset, line)

/-- The rows of all planes; `none` where `crop->left` is read from a buffer without a
crop rectangle. `splane` is the plane as it is before it is set. -/
def ofileOutputByLine (splane : BufRef) (buf : Buffer) (fmt : PixFmtInfo) : Option (List (List (Nat × Nat))) :=
  if fmt.numPlanes = 0 then some []
  else
    buf.crop.map fun crop =>
      (List.range fmt.numPlanes).map fun i =>
        outputPlane ((pitcherGetBufferPlane buf i).getD splane) fmt crop (buf.shown fmt).1 (buf.shown fmt).2 i

/-- The formats that are written line by line. -/
def Linear (fmt : PixFmtInfo) : Prop :=
  fmt.format.compressed = false ∧ fmt.format ≠ .rfc ∧ fmt.format ≠ .rfcx ∧
    fmt.desc.tileWs = 0 ∧ fmt.desc.tileHs = 0

instance (fmt : PixFmtInfo) : Decidable (Linear fmt) := by
  unfold Linear
  infer_instance

/-- What `ofile_run` writes of a buffer, but for the header of a VP8 frame. -/
def ofileRun (splane : BufRef) (buf : Buffer) : Option (List (List (Nat × Nat))) :=
  let whole := some [buf.planes.map fun plane => (plane.virt, plane.bytesused)]
  if buf.count = 0 ∨ (buf.plane 0).bytesused = 0 then some []
  else
    match buf.format with
    | some fmt => if Linear fmt then ofileOutputByLine splane buf fmt else whole
    | none => whole

/-! ## The samples of a rectangle -/

/-- The rectangle that a buffer shows: its crop rectangle, or the picture where it has
none or an empty one. -/
def area (buf : Buffer) (fmt : PixFmtInfo) : Rect :=
  match buf.crop with
  | some crop => if crop.width ≠ 0 ∧ crop.height ≠ 0 then crop else ⟨0, 0, fmt.width, fmt.height⟩
  | none => ⟨0, 0, fmt.width, fmt.height⟩

/-- The pixels that a sample of plane `i` stands for, where `2 ^ k` of them share the chroma. -/
def share (k i : Nat) : Nat := if i = 0 then 1 else 2 ^ k

/-- Those in a row, and those in a column. -/
def across (fmt : PixFmtInfo) (i : Nat) : Nat := share fmt.desc.log2ChromaW i

def down (fmt : PixFmtInfo) (i : Nat) : Nat := share fmt.desc.log2ChromaH i

/-- The rows of plane `i` that have samples of the pixels in a rectangle, each with the
bytes that those lie in. -/
def sampleRows (buf : Buffer) (fmt : PixFmtInfo) (rect : Rect) (i : Nat) : List (Nat × Nat) :=
  let start := rect.left / across fmt i * fmt.bppOf i / 8
  let ends := divRoundUp (divRoundUp (rect.left + rect.width) (across fmt i) * fmt.bppOf i) 8
  let top := rect.top / down fmt i
  (List.range (divRoundUp (rect.top + rect.height) (down fmt i) - top)).map fun j =>
    ((buf.view i).virt + (top + j) * (fmt.planes i).line + start, ends - start)

/-- The bytes of some rows. -/
def bytes (mem : Nat → UInt8) (rows : List (Nat × Nat)) : List (List UInt8) :=
  rows.map fun row => span mem row.1 row.2

/-- The samples of what the buffer shows are written, plane after plane and row after
row, and nothing is read outside the planes. -/
def Written (splane : BufRef) (buf : Buffer) (fmt : PixFmtInfo) : Prop :=
  ∃ planes, ofileOutputByLine splane buf fmt = some planes ∧
    (∀ mem, planes.map (bytes mem) =
      (List.range fmt.numPlanes).map fun i => bytes mem (sampleRows buf fmt (area buf fmt) i)) ∧
    ∀ i rows, planes[i]? = some rows → ∀ row ∈ rows, Inside (buf.view i) row.1 row.2

/-- The rectangle begins and ends between the samples of every plane and begins at a
byte, and an empty crop rectangle lies at the origin. -/
def OnGrid (buf : Buffer) (fmt : PixFmtInfo) (crop : Rect) : Prop :=
  (crop.width = 0 ∨ crop.height = 0 → crop.left = 0 ∧ crop.top = 0) ∧
    ∀ i < fmt.numPlanes,
      across fmt i ∣ (area buf fmt).left ∧ across fmt i ∣ (area buf fmt).width ∧
        down fmt i ∣ (area buf fmt).top ∧ down fmt i ∣ (area buf fmt).height ∧
        8 ∣ (area buf fmt).left / across fmt i * fmt.bppOf i

/-- A picture in the planes of a buffer; its rows have no more bits than 32 bits can count. -/
structure Holds (buf : Buffer) (fmt : PixFmtInfo) : Prop where
  known : buf.format = some fmt
  fits : buf.Fits fmt
  linear : Linear fmt
  planes : fmt.numPlanes = fmt.desc.numPlanes
  sized : 0 < fmt.width ∧ 0 < fmt.height
  wide : ∀ i < fmt.numPlanes, divRoundUp fmt.width (across fmt i) * fmt.bppOf i ≤ 8 * (fmt.planes i).line
  tall : ∀ i < fmt.numPlanes,
    divRoundUp fmt.height (down fmt i) * (fmt.planes i).line ≤ (buf.view i).size
  small : ∀ i < fmt.numPlanes, divRoundUp fmt.height (down fmt i) * (fmt.planes i).line < 2 ^ 32
  bits : ∀ i < fmt.numPlanes,
    align (align fmt.width (2 ^ fmt.desc.log2ChromaW) / across fmt i * fmt.bppOf i) 8 < 2 ^ 32
  inside : ∀ crop, buf.crop = some crop →
    crop.left + crop.width ≤ fmt.width ∧ crop.top + crop.height ≤ fmt.height

/-! ## What is written, in whole numbers -/

theorem desc_grid (format : PixelFormat) :
    (pixFmtDescriptors format).log2ChromaW ≤ 1 ∧ (pixFmtDescriptors format).log2ChromaH ≤ 1 ∧
      ((pixFmtDescriptors format).numPlanes = 1 →
        (pixFmtDescriptors format).log2ChromaW = 0 ∧ (pixFmtDescriptors format).log2ChromaH = 0) := by
  cases format <;> decide

theorem divRoundUp_one (n : Nat) : divRoundUp n 1 = n := by
  rw [divRoundUp, Nat.div_one]
  rfl

theorem divRoundUp_mono {m n : Nat} (least : m ≤ n) (d : Nat) : divRoundUp m d ≤ divRoundUp n d :=
  Nat.div_le_div_right (Nat.sub_le_sub_right (Nat.add_le_add_right least d) 1)

theorem align_eight (x : Nat) : align x 8 / 8 = divRoundUp x 8 := by
  unfold align divRoundUp
  split <;> omega

/-- Of samples of eight bits or more, more of them take more bytes. -/
theorem divRoundUp_inj {m n bits : Nat} (long : 8 ≤ bits)
    (same : divRoundUp (m * bits) 8 = divRoundUp (n * bits) 8) : m = n := by
  unfold divRoundUp at same
  rcases Nat.lt_trichotomy m n with less | same | more
  · have step := Nat.mul_le_mul_right bits (Nat.succ_le_of_lt less)
    rw [Nat.succ_mul] at step
    omega
  · exact same
  · have step := Nat.mul_le_mul_right bits (Nat.succ_le_of_lt more)
    rw [Nat.succ_mul] at step
    omega

section Rows
variable {buf : Buffer} {fmt : PixFmtInfo} {crop : Rect} {i : Nat}

theorem share_cases {k : Nat} (least : k ≤ 1) (i : Nat) : share k i = 1 ∨ share k i = 2 := by
  unfold share
  rcases (show k = 0 ∨ k = 1 by omega) with rfl | rfl <;> split <;> decide

theorem across_cases (fmt : PixFmtInfo) (i : Nat) : across fmt i = 1 ∨ across fmt i = 2 :=
  share_cases (desc_grid fmt.format).1 i

theorem down_cases (fmt : PixFmtInfo) (i : Nat) : down fmt i = 1 ∨ down fmt i = 2 :=
  share_cases (desc_grid fmt.format).2.1 i

theorem div_share (n k i : Nat) : (if i = 0 then n else n / 2 ^ k) = n / share k i := by
  unfold share
  split
  · rw [Nat.div_one]
  · rfl

/-- Rounding to the grid leaves no sample out. -/
theorem samples_le (n k i : Nat) : divRoundUp n (share k i) ≤ align n (2 ^ k) / share k i := by
  have whole := align_dvd n (Nat.two_pow_pos k)
  have least := le_align n (Nat.two_pow_pos k)
  unfold share
  split
  · exact divRoundUp_le Nat.one_pos least (Nat.one_dvd _)
  · exact divRoundUp_le (Nat.two_pow_pos k) least whole

theorem divRoundUp_pos {n d : Nat} (pos : 0 < d) (some_ : 0 < n) : 0 < divRoundUp n d :=
  Nat.div_pos (by omega) pos

theorem share_pos (k i : Nat) : 0 < share k i := by
  unfold share
  split
  · exact Nat.one_pos
  · exact Nat.two_pow_pos k

theorem area_size (buf : Buffer) (fmt : PixFmtInfo) :
    (area buf fmt).width = (buf.shown fmt).1 ∧ (area buf fmt).height = (buf.shown fmt).2 := by
  unfold area Buffer.shown
  cases buf.crop with
  | none => exact ⟨rfl, rfl⟩
  | some crop =>
    dsimp only
    split <;> exact ⟨rfl, rfl⟩

theorem Holds.area_inside (holds : Holds buf fmt) :
    0 < (area buf fmt).width ∧ 0 < (area buf fmt).height ∧
      (area buf fmt).left + (area buf fmt).width ≤ fmt.width ∧
      (area buf fmt).top + (area buf fmt).height ≤ fmt.height := by
  have sized := holds.sized
  unfold area
  cases shown : buf.crop with
  | none => exact ⟨sized.1, sized.2, Nat.le_of_eq (Nat.zero_add _), Nat.le_of_eq (Nat.zero_add _)⟩
  | some crop =>
    have inside := holds.inside crop shown
    dsimp only
    split
    case isTrue some_ => exact ⟨Nat.pos_of_ne_zero some_.1, Nat.pos_of_ne_zero some_.2, inside.1, inside.2⟩
    case isFalse => exact ⟨sized.1, sized.2, Nat.le_of_eq (Nat.zero_add _), Nat.le_of_eq (Nat.zero_add _)⟩

/-- What a picture has room for is counted right. -/
theorem Holds.counted (holds : Holds buf fmt) (below : i < fmt.numPlanes) {n : Nat}
    (least : n ≤ align fmt.width (2 ^ fmt.desc.log2ChromaW) / across fmt i) :
    Word.align (word (n * fmt.bppOf i)) 8 / 8 = divRoundUp (n * fmt.bppOf i) 8 := by
  have bits := holds.bits i below
  have product := Nat.mul_le_mul_right (fmt.bppOf i) least
  have whole := align_mono (show 0 < 8 by decide) product
  have room := le_align (n * fmt.bppOf i) (show 0 < 8 by decide)
  rw [Word.word_small (by omega), Word.align_small (by omega), align_eight]

/-- The rows that are written of plane `i`, without any wrapping. -/
theorem Holds.outputPlane_eq (holds : Holds buf fmt) (shown : buf.crop = some crop) (below : i < fmt.numPlanes) :
    outputPlane (buf.view i) fmt crop (buf.shown fmt).1 (buf.shown fmt).2 i =
      (List.range (align (area buf fmt).height (2 ^ fmt.desc.log2ChromaH) / down fmt i)).map fun j =>
        ((buf.view i).virt + (crop.top / down fmt i + j) * (fmt.planes i).line +
            divRoundUp (crop.left / across fmt i * fmt.bppOf i) 8,
          divRoundUp (align (area buf fmt).width (2 ^ fmt.desc.log2ChromaW) / across fmt i * fmt.bppOf i) 8) := by
  obtain ⟨width, height⟩ := area_size buf fmt
  obtain ⟨-, -, right, bottom⟩ := holds.area_inside
  obtain ⟨cropRight, cropBottom⟩ := holds.inside crop shown
  have bits : fmt.desc.bpp.getD i 0 = fmt.bppOf i := rfl
  have whole : (area buf fmt).width ≤ fmt.width := by omega
  have line := holds.counted below
    (Nat.div_le_div_right (c := across fmt i) (align_mono (Nat.two_pow_pos fmt.desc.log2ChromaW) whole))
  have left := holds.counted below
    (Nat.div_le_div_right (c := across fmt i) (Nat.le_trans (show crop.left ≤ fmt.width by omega)
      (le_align fmt.width (Nat.two_pow_pos fmt.desc.log2ChromaW))))
  have offset : word ((fmt.planes i).line * (crop.top / down fmt i)) =
      (fmt.planes i).line * (crop.top / down fmt i) := by
    have small := holds.small i below
    have unit := down_cases fmt i
    have upTo : crop.top / down fmt i ≤ divRoundUp fmt.height (down fmt i) :=
      Nat.div_le_div_right (by omega)
    have most := Nat.mul_le_mul_left (fmt.planes i).line upTo
    rw [Nat.mul_comm _ (fmt.planes i).line] at small
    rw [Word.word_small (by omega)]
  unfold outputPlane
  dsimp only
  rw [← width, ← height, div_share, div_share, div_share, div_share, bits]
  unfold across down at *
  rw [line, left, offset]
  apply List.map_congr_left
  intro j _
  rw [Nat.add_mul, Nat.mul_comm (fmt.planes i).line]

/-- Rows hold the same whatever the memory holds exactly if they are the same ones. -/
theorem bytes_range_iff {f g : Nat → Nat × Nat} {m n : Nat} (long : ∀ j < m, 0 < (f j).2) :
    (∀ mem, bytes mem ((List.range m).map f) = bytes mem ((List.range n).map g)) ↔
      m = n ∧ ∀ j < m, f j = g j := by
  constructor
  · intro same
    have count : m = n := by
      have lengths := congrArg List.length (same fun _ => 0)
      simpa [bytes] using lengths
    subst count
    refine ⟨rfl, ?_⟩
    intro j below
    have row (mem : Nat → UInt8) : span mem (f j).1 (f j).2 = span mem (g j).1 (g j).2 := by
      have cell := congrArg (·[j]?) (same mem)
      simpa [bytes, below] using cell
    have length : (f j).2 = (g j).2 := by
      have lengths := congrArg List.length (row fun _ => 0)
      rwa [span_length, span_length] at lengths
    refine Prod.ext ?_ length
    apply @span_determined UInt8 _ _ _ 0 1 (by decide) (long j below)
    intro mem
    rw [row mem, length]
  · rintro ⟨rfl, same⟩ mem
    rw [List.map_congr_left fun j found => same j (List.mem_range.mp found)]

/-- The rows written are as many as the samples have, as long, and at their place. -/
structure SameRows (buf : Buffer) (fmt : PixFmtInfo) (crop : Rect) (i : Nat) : Prop where
  rows : align (area buf fmt).height (2 ^ fmt.desc.log2ChromaH) / down fmt i =
    divRoundUp ((area buf fmt).top + (area buf fmt).height) (down fmt i) - (area buf fmt).top / down fmt i
  bytes : divRoundUp (align (area buf fmt).width (2 ^ fmt.desc.log2ChromaW) / across fmt i * fmt.bppOf i) 8 =
    divRoundUp (divRoundUp ((area buf fmt).left + (area buf fmt).width) (across fmt i) * fmt.bppOf i) 8 -
      (area buf fmt).left / across fmt i * fmt.bppOf i / 8
  start : crop.top / down fmt i * (fmt.planes i).line +
      divRoundUp (crop.left / across fmt i * fmt.bppOf i) 8 =
    (area buf fmt).top / down fmt i * (fmt.planes i).line +
      (area buf fmt).left / across fmt i * fmt.bppOf i / 8

theorem Holds.bpp (holds : Holds buf fmt) (below : i < fmt.numPlanes) : 8 ≤ fmt.bppOf i := by
  obtain ⟨raw, plain, plainX, -, -⟩ := holds.linear
  rw [holds.planes] at below
  exact desc_linear raw plain plainX below

theorem Holds.line_pos (holds : Holds buf fmt) (below : i < fmt.numPlanes) : 0 < (fmt.planes i).line := by
  have room := holds.wide i below
  have some_ : 0 < divRoundUp fmt.width (across fmt i) := divRoundUp_pos (share_pos _ i) holds.sized.1
  have least := Nat.mul_le_mul some_ (holds.bpp below)
  omega

theorem Holds.sameRows_eq (holds : Holds buf fmt) (shown : buf.crop = some crop) (below : i < fmt.numPlanes)
    (same : SameRows buf fmt crop i) :
    outputPlane (buf.view i) fmt crop (buf.shown fmt).1 (buf.shown fmt).2 i =
      sampleRows buf fmt (area buf fmt) i := by
  have start := same.start
  rw [holds.outputPlane_eq shown below, sampleRows, same.rows, same.bytes]
  apply List.map_congr_left
  intro j _
  rw [Prod.mk.injEq, Nat.add_mul, Nat.add_mul]
  exact ⟨by omega, rfl⟩

theorem Holds.sameRows_iff (holds : Holds buf fmt) (shown : buf.crop = some crop) (below : i < fmt.numPlanes) :
    (∀ mem, Crop.bytes mem (outputPlane (buf.view i) fmt crop (buf.shown fmt).1 (buf.shown fmt).2 i) =
        Crop.bytes mem (sampleRows buf fmt (area buf fmt) i)) ↔ SameRows buf fmt crop i := by
  obtain ⟨wide, tall, -, -⟩ := holds.area_inside
  have bits := holds.bpp below
  have columns : 0 < align (area buf fmt).width (2 ^ fmt.desc.log2ChromaW) / across fmt i :=
    Nat.lt_of_lt_of_le (divRoundUp_pos (share_pos fmt.desc.log2ChromaW i) wide) (samples_le _ _ i)
  have rows : 0 < align (area buf fmt).height (2 ^ fmt.desc.log2ChromaH) / down fmt i :=
    Nat.lt_of_lt_of_le (divRoundUp_pos (share_pos fmt.desc.log2ChromaH i) tall) (samples_le _ _ i)
  constructor
  · intro written
    rw [holds.outputPlane_eq shown below] at written
    unfold sampleRows at written
    dsimp only at written
    rw [bytes_range_iff] at written
    · obtain ⟨count, same⟩ := written
      have first := same 0 rows
      rw [Prod.mk.injEq, Nat.add_zero, Nat.add_zero] at first
      exact ⟨count, first.2, by omega⟩
    · intro j _
      have product := Nat.mul_le_mul columns bits
      unfold divRoundUp
      dsimp only
      omega
  · intro same mem
    rw [holds.sameRows_eq shown below same]

theorem area_crop (shown : buf.crop = some crop) :
    (crop.width ≠ 0 ∧ crop.height ≠ 0 ∧ area buf fmt = crop) ∨
      (crop.width = 0 ∨ crop.height = 0) ∧ (area buf fmt).left = 0 ∧ (area buf fmt).top = 0 := by
  unfold area
  rw [shown]
  dsimp only
  split
  case isTrue some_ => exact .inl ⟨some_.1, some_.2, rfl⟩
  case isFalse none_ => exact .inr ⟨by omega, rfl, rfl⟩

/-- Bytes from a whole byte on. -/
theorem divRoundUp_sub {p q bits : Nat} (whole : 8 ∣ p * bits) (least : p ≤ q) :
    divRoundUp (q * bits) 8 - p * bits / 8 = divRoundUp ((q - p) * bits) 8 := by
  have product := Nat.mul_le_mul_right bits least
  unfold divRoundUp
  rw [Nat.sub_mul]
  omega

theorem grid_iff {c l w : Nat} (unit : c = 1 ∨ c = 2) :
    align w c = w ∧ align w c / c = divRoundUp (l + w) c - l / c ↔ c ∣ w ∧ c ∣ l := by
  unfold align divRoundUp
  rcases unit with rfl | rfl
  · simp [Nat.mod_one]
  · by_cases even : w % 2 = 0
    · rw [if_pos even]
      omega
    · rw [if_neg even]
      omega

theorem start_le (buf : Buffer) (fmt : PixFmtInfo) (i : Nat) : (area buf fmt).left / across fmt i ≤
    divRoundUp ((area buf fmt).left + (area buf fmt).width) (across fmt i) := by
  have unit := across_cases fmt i
  exact Nat.div_le_div_right (by omega)

/-- A rectangle that is written right begins at whole bytes, and an empty one at the origin. -/
theorem Holds.starts (holds : Holds buf fmt) (shown : buf.crop = some crop)
    (same : ∀ i < fmt.numPlanes, SameRows buf fmt crop i) :
    (crop.width = 0 ∨ crop.height = 0 → crop.left = 0 ∧ crop.top = 0) ∧
      ∀ i < fmt.numPlanes, 8 ∣ (area buf fmt).left / across fmt i * fmt.bppOf i := by
  have some_ := holds.fits.1
  rcases @area_crop _ fmt _ shown with ⟨wide, tall, whole⟩ | ⟨-, left, top⟩
  · refine ⟨fun none_ => by omega, ?_⟩
    intro i below
    have start := (same i below).start
    rw [whole] at start ⊢
    unfold divRoundUp at start
    omega
  · refine ⟨fun _ => ?_, ?_⟩
    · have start := (same 0 some_).start
      have bits := holds.bpp some_
      have line := holds.line_pos some_
      rw [left, top, show across fmt 0 = 1 from rfl, show down fmt 0 = 1 from rfl] at start
      simp only [Nat.div_one, Nat.zero_mul, Nat.zero_div, Nat.add_zero, Nat.add_eq_zero_iff,
        Nat.mul_eq_zero] at start
      obtain ⟨above, before⟩ := start
      refine ⟨?_, by omega⟩
      unfold divRoundUp at before
      by_contra more
      have least := Nat.mul_le_mul (Nat.pos_of_ne_zero more) bits
      omega
    · intro i _
      rw [left, Nat.zero_div, Nat.zero_mul]
      exact Nat.dvd_zero 8

theorem Holds.onGrid_iff (holds : Holds buf fmt) (shown : buf.crop = some crop) :
    (∀ i < fmt.numPlanes, SameRows buf fmt crop i) ↔ OnGrid buf fmt crop := by
  have some_ := holds.fits.1
  have columns (i : Nat) (below : i < fmt.numPlanes)
      (whole : 8 ∣ (area buf fmt).left / across fmt i * fmt.bppOf i) :
      divRoundUp (align (area buf fmt).width (2 ^ fmt.desc.log2ChromaW) / across fmt i * fmt.bppOf i) 8 =
          divRoundUp (divRoundUp ((area buf fmt).left + (area buf fmt).width) (across fmt i) * fmt.bppOf i) 8 -
            (area buf fmt).left / across fmt i * fmt.bppOf i / 8 ↔
        align (area buf fmt).width (2 ^ fmt.desc.log2ChromaW) / across fmt i =
          divRoundUp ((area buf fmt).left + (area buf fmt).width) (across fmt i) -
            (area buf fmt).left / across fmt i := by
    rw [divRoundUp_sub whole (start_le buf fmt i)]
    exact ⟨divRoundUp_inj (holds.bpp below), fun same => by rw [same]⟩
  constructor
  · intro same
    obtain ⟨origin, whole⟩ := holds.starts shown same
    refine ⟨origin, ?_⟩
    have width := (columns 0 some_ (whole 0 some_)).mp (same 0 some_).bytes
    have height := (same 0 some_).rows
    rw [show across fmt 0 = 1 from rfl, divRoundUp_one, Nat.div_one, Nat.div_one, Nat.add_sub_cancel_left] at width
    rw [show down fmt 0 = 1 from rfl, divRoundUp_one, Nat.div_one, Nat.div_one, Nat.add_sub_cancel_left] at height
    intro i below
    have bytes := (columns i below (whole i below)).mp (same i below).bytes
    have rows := (same i below).rows
    rcases Nat.eq_zero_or_pos i with rfl | later
    · exact ⟨Nat.one_dvd _, Nat.one_dvd _, Nat.one_dvd _, Nat.one_dvd _, whole 0 below⟩
    · have part : across fmt i = 2 ^ fmt.desc.log2ChromaW := if_neg (Nat.ne_of_gt later)
      have partDown : down fmt i = 2 ^ fmt.desc.log2ChromaH := if_neg (Nat.ne_of_gt later)
      rw [← part] at width bytes
      rw [← partDown] at height rows
      obtain ⟨evenWidth, evenLeft⟩ := (grid_iff (across_cases fmt i)).mp ⟨width, bytes⟩
      obtain ⟨evenHeight, evenTop⟩ := (grid_iff (down_cases fmt i)).mp ⟨height, rows⟩
      exact ⟨evenLeft, evenWidth, evenTop, evenHeight, whole i below⟩
  · rintro ⟨origin, grid⟩ i below
    have even : 2 ^ fmt.desc.log2ChromaW ∣ (area buf fmt).width ∧
        2 ^ fmt.desc.log2ChromaH ∣ (area buf fmt).height := by
      by_cases single : fmt.numPlanes = 1
      · rw [holds.planes] at single
        obtain ⟨wide, tall⟩ := (desc_grid fmt.format).2.2 single
        unfold PixFmtInfo.desc
        rw [wide, tall]
        exact ⟨Nat.one_dvd _, Nat.one_dvd _⟩
      · obtain ⟨-, width, -, height, -⟩ := grid 1 (by omega)
        exact ⟨width, height⟩
    have width : align (area buf fmt).width (2 ^ fmt.desc.log2ChromaW) = (area buf fmt).width :=
      if_pos (Nat.mod_eq_zero_of_dvd even.1)
    have height : align (area buf fmt).height (2 ^ fmt.desc.log2ChromaH) = (area buf fmt).height :=
      if_pos (Nat.mod_eq_zero_of_dvd even.2)
    obtain ⟨evenLeft, evenWidth, evenTop, evenHeight, whole⟩ := grid i below
    obtain ⟨sameWidth, bytes⟩ := (grid_iff (across_cases fmt i)).mpr ⟨evenWidth, evenLeft⟩
    obtain ⟨sameHeight, rows⟩ := (grid_iff (down_cases fmt i)).mpr ⟨evenHeight, evenTop⟩
    rw [sameWidth] at bytes
    rw [sameHeight] at rows
    refine ⟨by rw [height, rows], (columns i below whole).mpr (by rw [width, bytes]), ?_⟩
    rcases @area_crop _ fmt _ shown with ⟨-, -, crop_⟩ | ⟨none_, left, top⟩
    · rw [crop_] at whole ⊢
      unfold divRoundUp
      omega
    · obtain ⟨cropLeft, cropTop⟩ := origin none_
      simp [cropLeft, cropTop, left, top, divRoundUp]

theorem Holds.output_eq (holds : Holds buf fmt) (shown : buf.crop = some crop) (splane : BufRef) :
    ofileOutputByLine splane buf fmt = some ((List.range fmt.numPlanes).map fun i =>
      outputPlane (buf.view i) fmt crop (buf.shown fmt).1 (buf.shown fmt).2 i) := by
  have view (i : Nat) (found : i ∈ List.range fmt.numPlanes) :
      (pitcherGetBufferPlane buf i).getD splane = buf.view i := by
    rw [holds.fits.view holds.known (List.mem_range.mp found), Option.getD_some]
  rw [ofileOutputByLine, if_neg (Nat.ne_of_gt holds.fits.1), shown, Option.map_some,
    List.map_congr_left fun i found => by rw [view i found]]

/-- Rows of the samples of what is shown lie in their plane. -/
theorem Holds.rows_inside (holds : Holds buf fmt) (below : i < fmt.numPlanes) {row : Nat × Nat}
    (found : row ∈ sampleRows buf fmt (area buf fmt) i) : Inside (buf.view i) row.1 row.2 := by
  obtain ⟨-, -, right, bottom⟩ := holds.area_inside
  have wide := holds.wide i below
  have tall := holds.tall i below
  obtain ⟨j, inside, rfl⟩ := List.mem_map.mp found
  rw [List.mem_range] at inside
  have lastRow : divRoundUp ((area buf fmt).top + (area buf fmt).height) (down fmt i) ≤
      divRoundUp fmt.height (down fmt i) := divRoundUp_mono bottom _
  have lastColumn : divRoundUp ((area buf fmt).left + (area buf fmt).width) (across fmt i) ≤
      divRoundUp fmt.width (across fmt i) := divRoundUp_mono right _
  have ends := Nat.mul_le_mul_right (fmt.bppOf i) lastColumn
  have starts := Nat.mul_le_mul_right (fmt.bppOf i) (start_le buf fmt i)
  have upTo := Nat.mul_le_mul_right (fmt.planes i).line
    (show (area buf fmt).top / down fmt i + j + 1 ≤ divRoundUp fmt.height (down fmt i) by omega)
  rw [Nat.succ_mul] at upTo
  unfold Inside divRoundUp at *
  dsimp only
  omega

end Rows

/-- What is written is the samples of the rectangle exactly if there is a crop rectangle
and it lies on the grid of the format. -/
theorem ofileOutputByLine_iff (splane : BufRef) (buf : Buffer) (fmt : PixFmtInfo) (holds : Holds buf fmt) :
    Written splane buf fmt ↔ ∃ crop, buf.crop = some crop ∧ OnGrid buf fmt crop := by
  have some_ := holds.fits.1
  cases shown : buf.crop with
  | none =>
    have null : ofileOutputByLine splane buf fmt = none := by
      rw [ofileOutputByLine, if_neg (Nat.ne_of_gt some_), shown, Option.map_none]
    constructor
    · rintro ⟨planes, out, -⟩
      rw [null] at out
      cases out
    · rintro ⟨crop, none_, -⟩
      cases none_
  | some crop =>
    have out := holds.output_eq shown splane
    have same : (∃ c, some crop = some c ∧ OnGrid buf fmt c) ↔ OnGrid buf fmt crop := by
      simp
    rw [same, ← holds.onGrid_iff shown]
    constructor
    · rintro ⟨planes, is, written, -⟩ i below
      rw [← holds.sameRows_iff shown below]
      intro mem
      obtain rfl := Option.some.inj (out.symm.trans is)
      have each := written mem
      rw [List.map_map] at each
      exact List.map_inj_left.mp each i (List.mem_range.mpr below)
    · intro same
      have rows := fun i below => holds.sameRows_eq shown below (same i below)
      refine ⟨_, out, ?_, ?_⟩
      · intro mem
        rw [List.map_map]
        apply List.map_congr_left
        intro i found
        rw [Function.comp_apply, rows i (List.mem_range.mp found)]
      · intro i plane here row found
        obtain ⟨k, at_, rfl⟩ := Option.map_eq_some_iff.mp (List.getElem?_map .. ▸ here)
        obtain ⟨below, rfl⟩ := List.getElem?_eq_some_iff.mp at_
        rw [List.length_range] at below
        rw [List.getElem_range, rows i below] at found
        exact holds.rows_inside below found

theorem ofileRun_linear {splane : BufRef} {buf : Buffer} {fmt : PixFmtInfo} (holds : Holds buf fmt)
    (some_ : buf.count ≠ 0) (data : (buf.plane 0).bytesused ≠ 0) :
    ofileRun splane buf = ofileOutputByLine splane buf fmt := by
  unfold ofileRun
  rw [if_neg (by omega), holds.known]
  exact if_pos holds.linear

/-- Any rectangle inside the picture may be what is shown of it. -/
theorem Holds.cropped {buf : Buffer} {fmt : PixFmtInfo} {crop : Option Rect} (holds : Holds buf fmt)
    (inside : ∀ rect, crop = some rect → rect.left + rect.width ≤ fmt.width ∧ rect.top + rect.height ≤ fmt.height) :
    Holds { buf with crop } fmt :=
  ⟨holds.known, holds.fits, holds.linear, holds.planes, holds.sized, holds.wide, holds.tall, holds.small,
    holds.bits, inside⟩

/-- A picture of 4x4 samples in NV12. -/
theorem square_holds {fmt : PixFmtInfo}
    (made : pitcherGetPixFmtInfo { format := .nv12, width := 4, height := 4 } 1 = some fmt) :
    Holds (memoryOf 4096 fmt) fmt := by
  obtain rfl := Option.some.inj made
  exact ⟨rfl, ⟨by decide, .inl rfl⟩, by decide, rfl, by decide, by decide, by decide, by decide, by decide, nofun⟩

/-- The lower right quarter of it. -/
theorem ofileOutputByLine_quarter :
    ∃ fmt, pitcherGetPixFmtInfo { format := .nv12, width := 4, height := 4 } 1 = some fmt ∧
      Written {} { memoryOf 4096 fmt with crop := some ⟨2, 2, 2, 2⟩ } fmt := by
  refine ⟨_, rfl, (ofileOutputByLine_iff {} { memoryOf 4096 _ with crop := some ⟨2, 2, 2, 2⟩ } _
    ((square_holds rfl).cropped ?_)).mpr ⟨_, rfl, by decide, by decide⟩⟩
  rintro crop ⟨⟩
  decide

/-- A picture without a crop rectangle is not written at all. -/
theorem ofileOutputByLine_null :
    ∃ fmt, pitcherGetPixFmtInfo { format := .nv12, width := 4, height := 4 } 1 = some fmt ∧
      Holds (memoryOf 4096 fmt) fmt ∧ ofileOutputByLine {} (memoryOf 4096 fmt) fmt = none ∧
      ¬ Written {} (memoryOf 4096 fmt) fmt := by
  refine ⟨_, rfl, square_holds rfl, rfl, ?_⟩
  rintro ⟨planes, out, -⟩
  cases out

/-! ## The copy of a cropped picture -/

/-- A bit of a row. -/
def bitAt (mem : Nat → UInt8) (row k : Nat) : Bool := (mem (row + k / 8)).toNat.testBit (k % 8)

/-- Two buffers of one format, with room in both for what is copied. -/
structure Takes (src dst : Buffer) (sfmt dfmt : PixFmtInfo) : Prop where
  known : dst.format = some dfmt
  fits : dst.Fits dfmt
  plain : sfmt.untiled
  same : dfmt.format = sfmt.format ∧ dfmt.numPlanes = sfmt.numPlanes
  sized : 0 < dfmt.width ∧ 0 < dfmt.height
  lines : ∀ i < sfmt.numPlanes, copiedLine src sfmt dfmt i ≤ (sfmt.planes i).line ∧
    copiedLine src sfmt dfmt i ≤ (dfmt.planes i).line
  rooms : ∀ i < sfmt.numPlanes,
    copiedRows src sfmt dfmt i * (sfmt.planes i).line ≤ (src.view i).size ∧
      copiedRows src sfmt dfmt i * (dfmt.planes i).line ≤ (dst.view i).size
  own : ∀ i < sfmt.numPlanes, ∀ k < sfmt.numPlanes, i < k →
    Apart (dst.view i).virt (dst.view i).size (dst.view k).virt (dst.view k).size
  others : ∀ i < sfmt.numPlanes, ∀ k < sfmt.numPlanes,
    Apart (src.view i).virt (src.view i).size (dst.view k).virt (dst.view k).size

/-- The samples of the rectangle that fit the destination arrive at its origin, and the
rows of it are those that are written to a file of the source. -/
structure CropCopied (splane dplane : BufRef) (src dst : Buffer) (sfmt dfmt : PixFmtInfo) (crop : Rect) : Prop where
  ok : ∀ mem, (pitcherCopyBufferData splane dplane mem src dst).1 = .OK
  samples : ∀ mem, ∀ i < sfmt.numPlanes,
    ∀ y < divRoundUp (min crop.height dfmt.height) (down sfmt i),
    ∀ x < divRoundUp (min crop.width dfmt.width) (across sfmt i), ∀ b < sfmt.bppOf i,
      bitAt (pitcherCopyBufferData splane dplane mem src dst).2.1 (dst.rowAt dfmt i y) (x * sfmt.bppOf i + b) =
        bitAt mem (src.rowAt sfmt i (crop.top / down sfmt i + y))
          ((crop.left / across sfmt i + x) * sfmt.bppOf i + b)
  file : ∃ planes, ofileOutputByLine splane src sfmt = some planes ∧
    ∀ i < sfmt.numPlanes, ∀ y < copiedRows src sfmt dfmt i,
      ∃ row, planes[i]?.bind (·[y]?) = some row ∧ copiedLine src sfmt dfmt i ≤ row.2 ∧
        ∀ mem, span (pitcherCopyBufferData splane dplane mem src dst).2.1 (dst.rowAt dfmt i y)
            (copiedLine src sfmt dfmt i) = span mem row.1 (copiedLine src sfmt dfmt i)

section Copying
variable {splane dplane : BufRef} {src dst : Buffer} {sfmt dfmt : PixFmtInfo} {crop : Rect}
  (holds : Holds src sfmt) (takes : Takes src dst sfmt dfmt)
include holds takes

theorem copied_eq (mem : Nat → UInt8) : pitcherCopyBufferData splane dplane mem src dst =
    (.OK, copyPlanes src dst sfmt dfmt sfmt.numPlanes 0 splane dplane mem dst.planes) := by
  have plain := of_decide_eq_true takes.plain
  unfold pitcherCopyBufferData
  simp only [holds.known, takes.known]
  rw [if_neg (by rw [takes.same.1]; exact not_not.mpr rfl), if_neg (by omega),
    if_neg (by rw [holds.linear.1]; decide)]

theorem Takes.rowsApart : RowsApart src dst sfmt dfmt := by
  have last {rows line size n j : Nat} (long : n ≤ line) (room : rows * line ≤ size) (below : j < rows) :
      j * line + n ≤ size := by
    have upTo := Nat.mul_le_mul_right line (Nat.succ_le_of_lt below)
    rw [Nat.succ_mul] at upTo
    omega
  have written (i : Nat) (below : i < sfmt.numPlanes) (j : Nat) (row : j < copiedRows src sfmt dfmt i) :
      dst.rowAt dfmt i j = (dst.view i).virt + j * (dfmt.planes i).line ∧
        j * (dfmt.planes i).line + copiedLine src sfmt dfmt i ≤ (dst.view i).size := by
    rw [takes.fits.view_virt takes.known (by rw [takes.same.2]; exact below), rowAt_start]
    exact ⟨rfl, last (takes.lines i below).2 (takes.rooms i below).2 row⟩
  have read (i : Nat) (below : i < sfmt.numPlanes) (j : Nat) (row : j < copiedRows src sfmt dfmt i) :
      src.rowAt sfmt i j = (src.view i).virt + j * (sfmt.planes i).line ∧
        j * (sfmt.planes i).line + copiedLine src sfmt dfmt i ≤ (src.view i).size := by
    rw [holds.fits.view_virt holds.known below, rowAt_start]
    exact ⟨rfl, last (takes.lines i below).1 (takes.rooms i below).1 row⟩
  constructor
  · exact fun i below => (takes.lines i below).2
  · intro i iBelow k kBelow less j jRow l lRow
    obtain ⟨first, inFirst⟩ := written i iBelow j jRow
    obtain ⟨second, inSecond⟩ := written k kBelow l lRow
    rw [first, second]
    exact (takes.own i iBelow k kBelow less).part (by omega) (by omega)
  · intro i iBelow k kBelow j jRow l lRow
    obtain ⟨from_, inFrom⟩ := read i iBelow j jRow
    obtain ⟨second, inSecond⟩ := written k kBelow l lRow
    rw [from_, second]
    exact (takes.others i iBelow k kBelow).part (by omega) (by omega)

/-- The rows are copied from the first one on, each from its first byte on. -/
theorem copied_row (mem : Nat → UInt8) {i j : Nat} (below : i < sfmt.numPlanes)
    (row : j < copiedRows src sfmt dfmt i) :
    span (pitcherCopyBufferData splane dplane mem src dst).2.1 (dst.rowAt dfmt i j)
        (copiedLine src sfmt dfmt i) =
      span mem (src.rowAt sfmt i j) (copiedLine src sfmt dfmt i) := by
  rw [copied_eq holds takes]
  exact copyPlanes_rows holds.fits takes.fits holds.known takes.known takes.same.2 (Nat.zero_add _)
    (takes.rowsApart holds) (Nat.zero_le i) below row

/-- The bits that a sample of the copied area has are in the bytes copied. -/
theorem copied_bit (mem : Nat → UInt8) {i y k : Nat} (below : i < sfmt.numPlanes)
    (row : y < copiedRows src sfmt dfmt i) (inside : k < copiedLine src sfmt dfmt i * 8) :
    bitAt (pitcherCopyBufferData splane dplane mem src dst).2.1 (dst.rowAt dfmt i y) k =
      bitAt mem (src.rowAt sfmt i y) k := by
  have same := @copied_row splane dplane _ _ _ _ holds takes mem _ _ below row
  have copied := span_eq_iff.mp same (k / 8) (by omega)
  rw [bitAt, bitAt, copied]

end Copying

/-- All samples of what is copied are in the rows copied. -/
theorem copiedRows_samples {h : Nat} (most : h ≤ min (src.shown sfmt).2 dfmt.height) (i : Nat) :
    divRoundUp h (down sfmt i) ≤ copiedRows src sfmt dfmt i := by
  have rows : copiedRows src sfmt dfmt i =
      align (min (src.shown sfmt).2 dfmt.height) (2 ^ sfmt.desc.log2ChromaH) / down sfmt i := div_share _ _ _
  rw [rows]
  exact Nat.le_trans (divRoundUp_mono most _) (samples_le _ _ i)

theorem copiedLine_eq (src : Buffer) (sfmt dfmt : PixFmtInfo) (i : Nat) : copiedLine src sfmt dfmt i =
    divRoundUp (align (min (src.shown sfmt).1 dfmt.width) (2 ^ sfmt.desc.log2ChromaW) /
      across sfmt i * sfmt.bppOf i) 8 := by
  unfold copiedLine PixelFormatDesc.lineOf
  dsimp only
  rw [align_eight, div_share]
  rfl

theorem copiedLine_samples {w : Nat} (most : w ≤ min (src.shown sfmt).1 dfmt.width) (i : Nat) :
    divRoundUp w (across sfmt i) * sfmt.bppOf i ≤ copiedLine src sfmt dfmt i * 8 := by
  have samples : divRoundUp w (across sfmt i) ≤
      align (min (src.shown sfmt).1 dfmt.width) (2 ^ sfmt.desc.log2ChromaW) / across sfmt i :=
    Nat.le_trans (divRoundUp_mono most _) (samples_le _ _ i)
  have bits := Nat.mul_le_mul_right (sfmt.bppOf i) samples
  rw [copiedLine_eq]
  unfold divRoundUp at *
  omega

theorem Holds.crop_le_shown (holds : Holds src sfmt) (shown : src.crop = some crop) :
    crop.width ≤ (src.shown sfmt).1 ∧ crop.height ≤ (src.shown sfmt).2 := by
  have inside := holds.inside crop shown
  unfold Buffer.shown
  rw [shown]
  dsimp only
  split
  · exact ⟨Nat.le_refl _, Nat.le_refl _⟩
  · exact ⟨by omega, by omega⟩

/-- The row of the file that a row copied is compared with. -/
theorem Holds.written_row (holds : Holds src sfmt) (shown : src.crop = some crop) {i y : Nat}
    (below : i < sfmt.numPlanes) (row : y < copiedRows src sfmt dfmt i) :
    ((List.range sfmt.numPlanes).map fun i =>
        outputPlane (src.view i) sfmt crop (src.shown sfmt).1 (src.shown sfmt).2 i)[i]?.bind (·[y]?) =
      some (src.rowAt sfmt i (crop.top / down sfmt i + y) + divRoundUp (crop.left / across sfmt i * sfmt.bppOf i) 8,
        divRoundUp (align (src.shown sfmt).1 (2 ^ sfmt.desc.log2ChromaW) / across sfmt i * sfmt.bppOf i) 8) := by
  obtain ⟨width, height⟩ := area_size src sfmt
  have rows : copiedRows src sfmt dfmt i =
      align (min (src.shown sfmt).2 dfmt.height) (2 ^ sfmt.desc.log2ChromaH) / down sfmt i := div_share _ _ _
  have most : copiedRows src sfmt dfmt i ≤
      align (src.shown sfmt).2 (2 ^ sfmt.desc.log2ChromaH) / down sfmt i := by
    rw [rows]
    exact Nat.div_le_div_right (align_mono (Nat.two_pow_pos _) (Nat.min_le_left _ _))
  have inside : y < align (src.shown sfmt).2 (2 ^ sfmt.desc.log2ChromaH) / down sfmt i :=
    Nat.lt_of_lt_of_le row most
  rw [List.getElem?_map, List.getElem?_range below, Option.map_some, Option.bind_some,
    holds.outputPlane_eq shown below, width, height, List.getElem?_map, List.getElem?_range inside,
    Option.map_some, holds.fits.view_virt holds.known below, rowAt_start]

/-- The copy takes the rectangle exactly if that begins at the origin of the picture. -/
theorem pitcherCopyBufferData_crop_iff (splane dplane : BufRef) (src dst : Buffer) (sfmt dfmt : PixFmtInfo)
    (crop : Rect) (shown : src.crop = some crop) (holds : Holds src sfmt) (takes : Takes src dst sfmt dfmt) :
    CropCopied splane dplane src dst sfmt dfmt crop ↔ crop.left = 0 ∧ crop.top = 0 := by
  have out := holds.output_eq shown splane
  constructor
  · rintro ⟨-, -, planes, is, file⟩
    have some_ := holds.fits.1
    have bits := holds.bpp some_
    obtain ⟨areaWide, areaTall, -, -⟩ := holds.area_inside
    obtain ⟨width, height⟩ := area_size src sfmt
    obtain ⟨wide, tall⟩ := takes.sized
    have columns : 1 ≤ min (src.shown sfmt).1 dfmt.width := by omega
    have lines : 1 ≤ min (src.shown sfmt).2 dfmt.height := by omega
    have firstRow : 0 < copiedRows src sfmt dfmt 0 :=
      Nat.lt_of_lt_of_le (divRoundUp_pos (share_pos _ 0) Nat.one_pos) (copiedRows_samples lines 0)
    have firstByte : 0 < copiedLine src sfmt dfmt 0 := by
      have samples := copiedLine_samples columns 0
      rw [show across sfmt 0 = 1 from rfl, divRoundUp_one] at samples
      omega
    obtain rfl := Option.some.inj (out.symm.trans is)
    obtain ⟨row, here, -, same⟩ := file 0 some_ 0 firstRow
    obtain rfl := Option.some.inj ((holds.written_row shown some_ firstRow).symm.trans here)
    have start := @span_determined UInt8 _ _ _ 0 1 (by decide) firstByte fun mem =>
      (copied_row holds takes mem some_ firstRow).symm.trans (same mem)
    have line := holds.line_pos some_
    rw [← rowAt_start src sfmt 0 (crop.top / down sfmt 0 + 0), show across sfmt 0 = 1 from rfl,
      show down sfmt 0 = 1 from rfl, Nat.div_one, Nat.div_one, Nat.add_zero] at start
    have above : crop.top * (sfmt.planes 0).line = 0 := by omega
    have before : divRoundUp (crop.left * sfmt.bppOf 0) 8 = 0 := by omega
    refine ⟨?_, (Nat.mul_eq_zero.mp above).resolve_right (Nat.ne_of_gt line)⟩
    apply divRoundUp_inj bits
    rw [before, Nat.zero_mul]
    rfl
  · rintro ⟨left, top⟩
    have origin (i y : Nat) : crop.top / down sfmt i + y = y ∧ crop.left / across sfmt i = 0 := by
      rw [left, top, Nat.zero_div, Nat.zero_div, Nat.zero_add]
      exact ⟨rfl, rfl⟩
    refine ⟨fun mem => by rw [copied_eq holds takes], ?_, _, out, ?_⟩
    · intro mem i below y row x column b bit
      obtain ⟨wide, tall⟩ := holds.crop_le_shown shown
      have columns : min crop.width dfmt.width ≤ min (src.shown sfmt).1 dfmt.width := by omega
      have lines : min crop.height dfmt.height ≤ min (src.shown sfmt).2 dfmt.height := by omega
      have rows := copiedRows_samples lines i
      have line := copiedLine_samples columns i
      have upTo := Nat.mul_le_mul_right (sfmt.bppOf i) (Nat.succ_le_of_lt column)
      rw [Nat.succ_mul] at upTo
      rw [(origin i y).1, (origin i y).2, Nat.zero_add]
      exact copied_bit holds takes mem below (by omega) (by omega)
    · intro i below y row
      refine ⟨_, holds.written_row shown below row, ?_, ?_⟩
      · rw [copiedLine_eq]
        have columns := Nat.div_le_div_right (c := across sfmt i)
          (align_mono (Nat.two_pow_pos sfmt.desc.log2ChromaW) (Nat.min_le_left (src.shown sfmt).1 dfmt.width))
        exact Nat.div_le_div_right (by have bits := Nat.mul_le_mul_right (sfmt.bppOf i) columns; omega)
      · intro mem
        rw [(origin i y).1, (origin i y).2, Nat.zero_mul, show divRoundUp 0 8 = 0 from rfl, Nat.add_zero]
        exact copied_row holds takes mem below row

/-- The upper left quarter of a picture of 4x4 samples in NV12. -/
theorem pitcherCopyBufferData_quarter :
    ∃ fmt, pitcherGetPixFmtInfo { format := .nv12, width := 4, height := 4 } 1 = some fmt ∧
      CropCopied {} {} { memoryOf 4096 fmt with crop := some ⟨0, 0, 2, 2⟩ } (memoryOf 8192 fmt) fmt fmt
        ⟨0, 0, 2, 2⟩ := by
  refine ⟨_, rfl, (pitcherCopyBufferData_crop_iff {} {} { memoryOf 4096 _ with crop := some ⟨0, 0, 2, 2⟩ }
    (memoryOf 8192 _) _ _ ⟨0, 0, 2, 2⟩ rfl ((square_holds rfl).cropped ?_)
    ⟨rfl, ⟨by decide, .inl rfl⟩, by decide, ⟨rfl, rfl⟩, by decide, by decide, by decide, by decide, by decide⟩).mpr
    ⟨rfl, rfl⟩⟩
  rintro crop ⟨⟩
  decide

/-- Of the lower right quarter nothing is copied: the first sample of it is set, and the
first one of the copy is not. -/
theorem pitcherCopyBufferData_lower_right :
    ∃ fmt, pitcherGetPixFmtInfo { format := .nv12, width := 4, height := 4 } 1 = some fmt ∧
      Holds { memoryOf 4096 fmt with crop := some ⟨2, 2, 2, 2⟩ } fmt ∧
      Takes { memoryOf 4096 fmt with crop := some ⟨2, 2, 2, 2⟩ } (memoryOf 8192 fmt) fmt fmt ∧
      ¬ CropCopied {} {} { memoryOf 4096 fmt with crop := some ⟨2, 2, 2, 2⟩ } (memoryOf 8192 fmt) fmt fmt
        ⟨2, 2, 2, 2⟩ := by
  refine ⟨_, rfl, (square_holds rfl).cropped ?_,
    ⟨rfl, ⟨by decide, .inl rfl⟩, by decide, ⟨rfl, rfl⟩, by decide, by decide, by decide, by decide, by decide⟩, ?_⟩
  · rintro crop ⟨⟩
    decide
  · intro copied
    have first := copied.samples (fun a => if a = 4096 + 10 then 1 else 0) 0 (by decide) 0 (by decide) 0
      (by decide) 0 (by decide)
    exact absurd first (by decide)

end ImxTest.Pitcher.Crop
