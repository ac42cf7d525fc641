import ImxTest.Pitcher.PlaneLayout
import ImxTest.Pitcher.PlaneViews

/-! Where `pitcher_copy_buffer_data` writes, and when the bytes counted in a memory
reach as far. -/
namespace ImxTest.Pitcher
open Lib.Copy

/-! ## The copies it makes -/

/-- The `memcpy`s for the planes from `i` on. -/
def copyMoves (src dst : Buffer) (sfmt dfmt : PixFmtInfo) :
    (left i : Nat) → (splane dplane : BufRef) → List Move
  | 0, _, _, _ => []
  | left + 1, i, splane, dplane =>
    let splane := (pitcherGetBufferPlane src i).getD splane
    let dplane := (pitcherGetBufferPlane dst i).getD dplane
    rowMoves dplane.virt splane.virt (dfmt.planes i).line (sfmt.planes i).line
        (copiedLine src sfmt dfmt i) (copiedRows src sfmt dfmt i) ++
      copyMoves src dst sfmt dfmt left (i + 1) splane dplane

/-- All `memcpy`s of a call. -/
def pitcherCopyMoves (splane dplane : BufRef) (src dst : Buffer) : List Move :=
  match src.format, dst.format with
  | some sfmt, some dfmt =>
    if sfmt.format ≠ dfmt.format then []
    else if sfmt.tileWs ≠ 0 ∨ sfmt.tileHs ≠ 0 then []
    else if sfmt.format.compressed then
      let splane := (pitcherGetBufferPlane src 0).getD splane
      let dplane := (pitcherGetBufferPlane dst 0).getD dplane
      if dplane.size < splane.bytesused then []
      else [⟨dplane.virt, splane.virt, splane.bytesused⟩]
    else copyMoves src dst sfmt dfmt sfmt.numPlanes 0 splane dplane
  | _, _ => []

/-- Every byte written lies in a memory of `dst`, below the bytes that the call has
counted in it, and those are no more than the memory has. -/
def BytesCounted (src dst : Buffer) : Prop :=
  ∀ splane dplane mem,
    let call := pitcherCopyBufferData splane dplane mem src dst
    call.1 = .OK → ∀ move ∈ pitcherCopyMoves splane dplane src dst,
      ∀ a, move.dst ≤ a → a < move.dst + move.n →
        ∃ m < dst.count, (dst.plane m).virt ≤ a ∧
          a < (dst.plane m).virt + (call.2.2.getD m {}).bytesused ∧
          (call.2.2.getD m {}).bytesused ≤ (dst.plane m).size

/-- Formats that have pictures of lines, but no components to copy. -/
def PixFmtInfo.blank (fmt : PixFmtInfo) : Bool := fmt.format = .rfc ∨ fmt.format = .rfcx

/-- The copy counts as far as it writes. A picture needs a place for each plane, memories
that hold what is counted, and, if its planes share one memory, a first plane that is
as high as what is copied. -/
def CountsBytes (src dst : Buffer) : Prop :=
  ∀ sfmt dfmt, src.format = some sfmt → dst.format = some dfmt → sfmt.format = dfmt.format → sfmt.untiled →
    if sfmt.format.compressed then dst.Fits dfmt ∨ src.Fits sfmt ∧ (src.plane 0).bytesused = 0
    else if sfmt.blank then True
    else
      dst.Fits dfmt ∧
        (∀ m < dst.count, counted dst.count dfmt.numPlanes
          (fun i => copiedRows src sfmt dfmt i * (dfmt.planes i).line) m ≤ (dst.plane m).size) ∧
        (dst.count = dfmt.numPlanes ∨
          copiedRows src sfmt dfmt 0 * (dfmt.planes 0).line = (dfmt.planes 0).size)

section Moves
variable {src dst : Buffer} {sfmt dfmt : PixFmtInfo} {splane dplane : BufRef} {mem : Nat → UInt8}

theorem copyPlanes_moves {left i : Nat} {planes : List BufRef} :
    (copyPlanes src dst sfmt dfmt left i splane dplane mem planes).1 =
      runMoves mem (copyMoves src dst sfmt dfmt left i splane dplane) := by
  induction left generalizing i splane dplane mem planes with
  | zero => rfl
  | succ left ih =>
    rw [copyPlanes, ih, copyMoves, runMoves_append, ← copyRows_moves]
    rfl

theorem untiled_iff {fmt : PixFmtInfo} : fmt.untiled ↔ ¬(fmt.tileWs ≠ 0 ∨ fmt.tileHs ≠ 0) := by
  rw [PixFmtInfo.untiled, decide_eq_true_iff, not_or, not_not, not_not]

/-- What a call needs to copy anything. -/
theorem copied_formats (ok : (pitcherCopyBufferData splane dplane mem src dst).1 = .OK) :
    ∃ sfmt dfmt, src.format = some sfmt ∧ dst.format = some dfmt ∧ sfmt.format = dfmt.format ∧
      sfmt.untiled := by
  unfold pitcherCopyBufferData at ok
  split at ok
  case h_2 => cases ok
  case h_1 sfmt dfmt sknown dknown =>
    split at ok
    case isTrue => cases ok
    case isFalse same =>
      split at ok
      case isTrue => cases ok
      case isFalse plain => exact ⟨sfmt, dfmt, sknown, dknown, not_not.mp same, untiled_iff.mpr plain⟩

section Known
variable (sknown : src.format = some sfmt) (dknown : dst.format = some dfmt)
  (same : sfmt.format = dfmt.format) (plain : sfmt.untiled)
include sknown dknown same plain

/-- A compressed frame is copied whole, where there is room. -/
theorem copied_frame (compressed : sfmt.format.compressed) {s d : BufRef}
    (from_ : (pitcherGetBufferPlane src 0).getD splane = s)
    (into : (pitcherGetBufferPlane dst 0).getD dplane = d) :
    pitcherCopyBufferData splane dplane mem src dst =
        (if d.size < s.bytesused then (.E_INVAL, mem, dst.planes)
        else (.OK, copy mem d.virt s.virt s.bytesused,
          dst.planes.modify 0 fun p => { p with bytesused := s.bytesused })) ∧
      pitcherCopyMoves splane dplane src dst =
        if d.size < s.bytesused then [] else [⟨d.virt, s.virt, s.bytesused⟩] := by
  subst from_ into
  simp only [pitcherCopyBufferData, pitcherCopyMoves, sknown, dknown]
  rw [if_neg (not_not.mpr same), if_neg (untiled_iff.mp plain), if_pos compressed,
    if_neg (not_not.mpr same), if_neg (untiled_iff.mp plain), if_pos compressed]
  exact ⟨rfl, rfl⟩

/-- A picture is copied row by row. -/
theorem copied_picture (raw : ¬sfmt.format.compressed) :
    pitcherCopyBufferData splane dplane mem src dst =
        (.OK, copyPlanes src dst sfmt dfmt sfmt.numPlanes 0 splane dplane mem dst.planes) ∧
      pitcherCopyMoves splane dplane src dst =
        copyMoves src dst sfmt dfmt sfmt.numPlanes 0 splane dplane := by
  simp only [pitcherCopyBufferData, pitcherCopyMoves, sknown, dknown]
  rw [if_neg (not_not.mpr same), if_neg (untiled_iff.mp plain), if_neg raw,
    if_neg (not_not.mpr same), if_neg (untiled_iff.mp plain), if_neg raw]
  exact ⟨rfl, rfl⟩

end Known

/-- The memory is changed by these copies only. -/
theorem pitcherCopyBufferData_moves (splane dplane : BufRef) (mem : Nat → UInt8) (src dst : Buffer)
    (ok : (pitcherCopyBufferData splane dplane mem src dst).1 = .OK) :
    (pitcherCopyBufferData splane dplane mem src dst).2.1 =
      runMoves mem (pitcherCopyMoves splane dplane src dst) := by
  obtain ⟨sfmt, dfmt, sknown, dknown, same, plain⟩ := copied_formats ok
  by_cases compressed : sfmt.format.compressed
  · obtain ⟨made, moves⟩ := @copied_frame src dst sfmt dfmt splane dplane mem sknown dknown same plain
      compressed _ _ rfl rfl
    rw [made, moves]
    split <;> rfl
  · obtain ⟨made, moves⟩ := @copied_picture src dst sfmt dfmt splane dplane mem sknown dknown same plain
      compressed
    rw [made, moves]
    exact copyPlanes_moves

/-- Where the rows of the planes are written. -/
theorem copyMoves_iff (dfits : dst.Fits dfmt) (dknown : dst.format = some dfmt) {left i : Nat}
    (last : i + left ≤ dfmt.numPlanes) (a n : Nat) :
    (∃ move ∈ copyMoves src dst sfmt dfmt left i splane dplane, move.dst = a ∧ move.n = n) ↔
      ∃ k, i ≤ k ∧ k < i + left ∧ ∃ j < copiedRows src sfmt dfmt k,
        dst.rowAt dfmt k j = a ∧ copiedLine src sfmt dfmt k = n := by
  induction left generalizing i splane dplane with
  | zero =>
    constructor
    · rintro ⟨move, mem, -⟩
      cases mem
    · rintro ⟨k, least, below, -⟩
      omega
  | succ left ih =>
    have own (j : Nat) : ((pitcherGetBufferPlane dst i).getD dplane).virt + j * (dfmt.planes i).line =
        dst.rowAt dfmt i j := by
      rw [dfits.plane dknown (by omega), rowAt_start]
    rw [copyMoves]
    constructor
    · rintro ⟨move, mem, start, length⟩
      rcases List.mem_append.mp mem with here | later
      · obtain ⟨j, row, rfl⟩ := List.mem_map.mp here
        refine ⟨i, Nat.le_refl i, by omega, j, List.mem_range.mp row, ?_, length⟩
        rw [← own, ← start]
      · obtain ⟨k, least, below, row⟩ := (ih (by omega)).mp ⟨move, later, start, length⟩
        exact ⟨k, by omega, by omega, row⟩
    · rintro ⟨k, least, below, j, row, start, length⟩
      rcases Nat.eq_or_lt_of_le least with rfl | more
      · refine ⟨_, List.mem_append_left _ (List.mem_map_of_mem (List.mem_range.mpr row)), ?_, length⟩
        rw [← start, ← own]
      · obtain ⟨move, mem, is⟩ := (ih (by omega)).mpr ⟨k, more, by omega, j, row, start, length⟩
        exact ⟨move, List.mem_append_right _ mem, is⟩

end Moves

/-! ## How far the rows reach -/

section Reach
variable {src dst : Buffer} {sfmt dfmt : PixFmtInfo}

theorem PixFmtInfo.Filled.sized {fmt : PixFmtInfo} (filled : fmt.Filled) : 0 < fmt.width ∧ 0 < fmt.height := by
  obtain ⟨info, alignment, made⟩ := filled
  unfold pitcherGetPixFmtInfo at made
  split at made
  case isTrue => cases made
  case isFalse good =>
    cases Option.some.inj made
    dsimp only
    omega

theorem shown_pos (filled : sfmt.Filled) : 0 < (src.shown sfmt).1 ∧ 0 < (src.shown sfmt).2 := by
  have sized := filled.sized
  unfold Buffer.shown
  split
  · split <;> omega
  · exact sized

theorem rowsOf_pos (desc : PixelFormatDesc) {h : Nat} (tall : 0 < h) (i : Nat) : 0 < desc.rowsOf i h := by
  have least := le_align_of_pos (Nat.two_pow_pos desc.log2ChromaH) tall
  unfold PixelFormatDesc.rowsOf
  split
  · exact align_pos (Nat.two_pow_pos _) tall
  · exact Nat.div_pos least (Nat.two_pow_pos _)

theorem lineOf_pos (desc : PixelFormatDesc) {w i : Nat} (wide : 0 < w) (bits : 0 < desc.bpp.getD i 0) :
    0 < desc.lineOf i w := by
  have least := le_align_of_pos (Nat.two_pow_pos desc.log2ChromaW) wide
  have columns : 0 < if i = 0 then align w (2 ^ desc.log2ChromaW)
      else align w (2 ^ desc.log2ChromaW) / 2 ^ desc.log2ChromaW := by
    split
    · exact align_pos (Nat.two_pow_pos _) wide
    · exact Nat.div_pos least (Nat.two_pow_pos _)
  exact Nat.div_pos (le_align_of_pos (by decide) (Nat.mul_pos columns bits)) (by decide)

theorem rowsOf_eq (desc : PixelFormatDesc) (i h : Nat) :
    desc.rowsOf i h = align h (2 ^ desc.log2ChromaH) / if i = 0 then 1 else 2 ^ desc.log2ChromaH := by
  unfold PixelFormatDesc.rowsOf
  split
  · rw [Nat.div_one]
  · rfl

theorem rowsOf_mono (desc : PixelFormatDesc) (i : Nat) {h h' : Nat} (less : h ≤ h') :
    desc.rowsOf i h ≤ desc.rowsOf i h' := by
  rw [rowsOf_eq, rowsOf_eq]
  exact Nat.div_le_div_right (align_mono (Nat.two_pow_pos _) less)

theorem lineOf_mono (desc : PixelFormatDesc) (i : Nat) {w w' : Nat} (less : w ≤ w') :
    desc.lineOf i w ≤ desc.lineOf i w' := by
  have columns := @align_mono w w' (2 ^ desc.log2ChromaW) (Nat.two_pow_pos _) less
  unfold PixelFormatDesc.lineOf
  dsimp only
  apply Nat.div_le_div_right
  apply align_mono (by decide)
  apply Nat.mul_le_mul_right
  split
  · exact columns
  · exact Nat.div_le_div_right columns

section Picture
variable {fmt : PixFmtInfo} {i h : Nat} (filled : fmt.Filled) (plain : fmt.untiled)
include filled plain

theorem PixFmtInfo.Filled.tileHs_zero : fmt.desc.tileHs = 0 := by
  rw [← filled.cases.2.2.1]
  exact (of_decide_eq_true plain).2

theorem PixFmtInfo.Filled.size_eq (below : i < fmt.numPlanes) :
    (fmt.planes i).size = (fmt.planes i).line * (align fmt.height fmt.alH /
      if i = 0 then 1 else 2 ^ fmt.desc.log2ChromaH) := by
  obtain ⟨-, -, -, alignment, planes⟩ := filled.cases
  rw [planes i below, pixPlaneInfo_size, heightOf_untiled (filled.tileHs_zero plain)]

omit plain in
theorem PixFmtInfo.Filled.line_pos (below : i < fmt.numPlanes) : 0 < (fmt.planes i).line := by
  obtain ⟨count, -, -, alignment, planes⟩ := filled.cases
  rw [planes i below]
  exact Nat.lt_of_lt_of_le (bytesOf_pos filled.sized.1 (count ▸ below)) (bytesOf_le_line fmt alignment i)

/-- No line of a plane is longer than those of the first one. -/
theorem PixFmtInfo.Filled.line_le_first (below : i < fmt.numPlanes) :
    (fmt.planes i).line ≤ (fmt.planes 0).line := by
  obtain ⟨count, -, -, alignment, planes⟩ := filled.cases
  have flat := filled.tileHs_zero plain
  rw [count] at below planes
  rcases Nat.eq_zero_or_pos i with rfl | later
  · exact Nat.le_refl _
  · rw [planes i below, planes 0 (by omega)]
    rcases desc_chroma below (by omega) flat with ⟨-, bits⟩ | ⟨-, bits, bytes⟩
    · exact Nat.le_of_eq (interleaved_line below (by omega) flat bits)
    · exact separate_line_le filled.sized.1 below (by omega) flat bits bytes

/-- Rows that fill the first plane fill the others too. -/
theorem PixFmtInfo.Filled.rows_fill (below : i < fmt.numPlanes)
    (full : fmt.desc.rowsOf 0 h * (fmt.planes 0).line = (fmt.planes 0).size) :
    fmt.desc.rowsOf i h * (fmt.planes i).line = (fmt.planes i).size := by
  have first := filled.line_pos (show 0 < fmt.numPlanes by omega)
  rw [filled.size_eq plain (by omega), rowsOf_eq, if_pos rfl, Nat.div_one, Nat.div_one, Nat.mul_comm] at full
  rw [filled.size_eq plain below, rowsOf_eq, Nat.eq_of_mul_eq_mul_left first full, Nat.mul_comm]

/-- Rows that do not fill the first plane leave a line of it at least. -/
theorem PixFmtInfo.Filled.rows_short (some_ : 0 < fmt.numPlanes)
    (less : fmt.desc.rowsOf 0 h * (fmt.planes 0).line < (fmt.planes 0).size) :
    fmt.desc.rowsOf 0 h * (fmt.planes 0).line + (fmt.planes 0).line ≤ (fmt.planes 0).size := by
  rw [filled.size_eq plain some_, Nat.mul_comm] at less ⊢
  exact Nat.mul_le_mul_left _ (Nat.lt_of_mul_lt_mul_left less)

end Picture

theorem sum_le_sum_first {f g : Nat → Nat} {m : Nat} (some_ : 0 < m) (most : ∀ k < m, f k ≤ g k) :
    ((List.range m).map f).sum + (g 0 - f 0) ≤ ((List.range m).map g).sum := by
  induction m with
  | zero => omega
  | succ m ih =>
    have last := most m (Nat.lt_succ_self m)
    rw [List.range_succ, List.map_append, List.map_append, List.sum_append, List.sum_append, List.map_singleton,
      List.map_singleton, List.sum_singleton, List.sum_singleton]
    rcases Nat.eq_zero_or_pos m with rfl | more
    · simp only [List.range_zero, List.map_nil, List.sum_nil]
      omega
    · have before := ih more fun k below => most k (by omega)
      omega

end Reach

/-! ## What is counted -/

section Counts
variable {src dst : Buffer} {sfmt dfmt : PixFmtInfo}

/-- The memories of a buffer lie apart, and none is empty. -/
structure Memories (buf : Buffer) : Prop where
  mapped : ∀ p ∈ buf.planes, 0 < p.size
  own : buf.planes.Pairwise fun p q => Apart p.virt p.size q.virt q.size

theorem Memories.apart {buf : Buffer} (memories : Memories buf) {m k : Nat} (mBelow : m < buf.count)
    (kBelow : k < buf.count) (other : m ≠ k) :
    Apart (buf.plane m).virt (buf.plane m).size (buf.plane k).virt (buf.plane k).size := by
  rcases Nat.lt_or_gt_of_ne other with less | more
  · have apart := List.pairwise_iff_getElem.mp memories.own m k mBelow kBelow less
    rwa [← Buffer.plane_eq mBelow, ← Buffer.plane_eq kBelow] at apart
  · have apart := List.pairwise_iff_getElem.mp memories.own k m kBelow mBelow more
    rw [← Buffer.plane_eq mBelow, ← Buffer.plane_eq kBelow] at apart
    exact apart.symm

/-- No address lies in two of them. -/
theorem Memories.one {buf : Buffer} (memories : Memories buf) {a m k : Nat} (mBelow : m < buf.count)
    (kBelow : k < buf.count) (mHere : (buf.plane m).virt ≤ a ∧ a < (buf.plane m).virt + (buf.plane m).size)
    (kHere : (buf.plane k).virt ≤ a ∧ a < (buf.plane k).virt + (buf.plane k).size) : m = k := by
  by_contra other
  have apart := memories.apart mBelow kBelow other
  unfold Apart at apart
  omega

/-- What a copied picture is known to be like. -/
structure Copied (src dst : Buffer) (sfmt dfmt : PixFmtInfo) : Prop where
  fits : dst.Fits dfmt
  filled : dfmt.Filled
  plain : dfmt.untiled
  desc : sfmt.desc = dfmt.desc
  shown : 0 < (src.shown sfmt).1 ∧ 0 < (src.shown sfmt).2
  bits : ∀ i < dfmt.numPlanes, 0 < dfmt.desc.bpp.getD i 0

section Rows
variable (copied : Copied src dst sfmt dfmt) {i j : Nat}
include copied

theorem Copied.rows_pos (i : Nat) : 0 < copiedRows src sfmt dfmt i := by
  have low := copied.filled.sized.2
  have tall := copied.shown.2
  exact rowsOf_pos _ (by omega) i

theorem Copied.line_pos (below : i < dfmt.numPlanes) : 0 < copiedLine src sfmt dfmt i := by
  have narrow := copied.filled.sized.1
  have wide := copied.shown.1
  rw [copiedLine, copied.desc]
  exact lineOf_pos _ (by omega) (copied.bits i below)

theorem Copied.line_le (below : i < dfmt.numPlanes) : copiedLine src sfmt dfmt i ≤ (dfmt.planes i).line := by
  rw [copiedLine, copied.desc]
  exact copied.filled.lineOf_le copied.plain below (Nat.min_le_right _ _)

theorem Copied.rows_le (below : i < dfmt.numPlanes) :
    copiedRows src sfmt dfmt i * (dfmt.planes i).line ≤ (dfmt.planes i).size := by
  rw [copiedRows, copied.desc]
  exact copied.filled.rowsOf_le copied.plain below (Nat.min_le_right _ _)

/-- A row ends before the rows that are counted do. -/
theorem Copied.row_end (below : i < dfmt.numPlanes) (row : j < copiedRows src sfmt dfmt i) :
    j * (dfmt.planes i).line + copiedLine src sfmt dfmt i ≤
      copiedRows src sfmt dfmt i * (dfmt.planes i).line := by
  have line := copied.line_le below
  have upTo := Nat.mul_le_mul_right (dfmt.planes i).line (Nat.succ_le_of_lt row)
  rw [Nat.succ_mul] at upTo
  omega

/-- The last row that is copied, in a memory that has all planes. -/
theorem Copied.last_end (single : dst.count ≠ dfmt.numPlanes)
    (reach : ((List.range (dfmt.numPlanes - 1)).map fun k => (dfmt.planes k).size).sum +
        (copiedRows src sfmt dfmt (dfmt.numPlanes - 1) - 1) * (dfmt.planes (dfmt.numPlanes - 1)).line +
        copiedLine src sfmt dfmt (dfmt.numPlanes - 1) ≤
      ((List.range dfmt.numPlanes).map fun k => copiedRows src sfmt dfmt k * (dfmt.planes k).line).sum) :
    copiedRows src sfmt dfmt 0 * (dfmt.planes 0).line = (dfmt.planes 0).size := by
  obtain ⟨some_, planes⟩ := copied.fits
  obtain ⟨n, several⟩ : ∃ n, dfmt.numPlanes = n + 2 := ⟨dfmt.numPlanes - 2, by omega⟩
  have least := copied.rows_le some_
  have line := copied.line_pos (show n + 1 < dfmt.numPlanes by omega)
  have narrow := copied.filled.line_le_first copied.plain (show n + 1 < dfmt.numPlanes by omega)
  have sums := @sum_le_sum_first (fun k => copiedRows src sfmt dfmt k * (dfmt.planes k).line)
    (fun k => (dfmt.planes k).size) (n + 1) (Nat.succ_pos n) fun k below => copied.rows_le (by omega)
  obtain ⟨rows, last⟩ : ∃ rows, copiedRows src sfmt dfmt (n + 1) = rows + 1 :=
    ⟨copiedRows src sfmt dfmt (n + 1) - 1, by have := copied.rows_pos (n + 1); omega⟩
  rw [several] at reach
  rw [List.range_succ (n := n + 1), List.map_append, List.sum_append, List.map_singleton, List.sum_singleton,
    show n + 2 - 1 = n + 1 from rfl, last, Nat.succ_mul, Nat.add_sub_cancel] at reach
  by_contra short
  have less : dfmt.desc.rowsOf 0 (min (src.shown sfmt).2 dfmt.height) * (dfmt.planes 0).line <
      (dfmt.planes 0).size := by
    rw [← copied.desc]
    exact Nat.lt_of_le_of_ne least short
  have missing := copied.filled.rows_short copied.plain some_ less
  rw [← copied.desc] at missing
  have missing : copiedRows src sfmt dfmt 0 * (dfmt.planes 0).line + (dfmt.planes 0).line ≤
    (dfmt.planes 0).size := missing
  omega

/-- Every byte of every row is counted. -/
theorem Copied.counted_iff (memories : Memories dst) {C : Nat → Nat}
    (counts : C = counted dst.count dfmt.numPlanes fun i => copiedRows src sfmt dfmt i * (dfmt.planes i).line) :
    (∀ i < dfmt.numPlanes, ∀ j < copiedRows src sfmt dfmt i, ∀ x < copiedLine src sfmt dfmt i,
        ∃ m < dst.count, (dst.plane m).virt ≤ dst.rowAt dfmt i j + x ∧
          dst.rowAt dfmt i j + x < (dst.plane m).virt + C m ∧ C m ≤ (dst.plane m).size) ↔
      (∀ m < dst.count, C m ≤ (dst.plane m).size) ∧
        (dst.count = dfmt.numPlanes ∨
          copiedRows src sfmt dfmt 0 * (dfmt.planes 0).line = (dfmt.planes 0).size) := by
  subst counts
  by_cases each : dst.count = dfmt.numPlanes
  · simp only [counted, if_pos each, Buffer.rowAt, Buffer.place, Nat.add_zero]
    constructor
    · intro reach
      refine ⟨?_, .inl each⟩
      intro m below
      obtain ⟨k, inside, start, ends, large⟩ := reach m (by omega) 0 (copied.rows_pos m) 0
        (copied.line_pos (by omega))
      have mapped := memories.mapped _ (Buffer.plane_mem below)
      obtain rfl := memories.one (a := (dst.plane m).virt) below inside (by omega) (by omega)
      exact large
    · rintro ⟨large, -⟩ i below j row x column
      have ends := copied.row_end below row
      exact ⟨i, by omega, by omega, by omega, large i (by omega)⟩
  · have one : dst.count = 1 := copied.fits.2.resolve_right each
    simp only [counted, if_neg each, Buffer.rowAt, Buffer.place]
    rw [one]
    constructor
    · intro reach
      have some_ := copied.fits.1
      have last : dfmt.numPlanes - 1 < dfmt.numPlanes := by omega
      have rows := copied.rows_pos (dfmt.numPlanes - 1)
      have line := copied.line_pos last
      obtain ⟨m, inside, start, ends, large⟩ := reach _ last (copiedRows src sfmt dfmt (dfmt.numPlanes - 1) - 1)
        (by omega) (copiedLine src sfmt dfmt (dfmt.numPlanes - 1) - 1) (by omega)
      obtain rfl : m = 0 := by omega
      refine ⟨?_, .inr (copied.last_end each (by omega))⟩
      intro k below
      obtain rfl : k = 0 := by omega
      exact large
    · rintro ⟨large, full⟩ i below j row x column
      have full := full.resolve_left (by omega)
      have fills : ∀ k < dfmt.numPlanes,
          (dfmt.planes k).size = copiedRows src sfmt dfmt k * (dfmt.planes k).line := by
        intro k below
        rw [copiedRows, copied.desc] at full ⊢
        exact (copied.filled.rows_fill copied.plain below full).symm
      have behind := @sum_sizes_le dfmt i dfmt.numPlanes below
      have sizes : ((List.range dfmt.numPlanes).map fun k => (dfmt.planes k).size).sum =
          ((List.range dfmt.numPlanes).map fun k => copiedRows src sfmt dfmt k * (dfmt.planes k).line).sum := by
        congr 1
        exact List.map_congr_left fun k mem => fills k (List.mem_range.mp mem)
      have ends := copied.row_end below row
      have size := fills i below
      exact ⟨0, by omega, by omega, by omega, large 0 (by omega)⟩

end Rows

theorem PixFmtInfo.Filled.numPlanes_pos {fmt : PixFmtInfo} (filled : fmt.Filled) : 0 < fmt.numPlanes := by
  have count := filled.cases.1
  obtain ⟨info, alignment, made⟩ := filled
  unfold pitcherGetPixFmtInfo at made
  split at made
  case isTrue => cases made
  case isFalse good =>
    rw [count, PixFmtInfo.desc]
    have known : fmt.format ≠ .none := by
      cases Option.some.inj made
      exact fun none => good (.inl none)
    revert known
    cases fmt.format <;> decide

/-- A buffer of any other number of planes has no place for those of the format. -/
theorem no_plane {buf : Buffer} {fmt : PixFmtInfo} (known : buf.format = some fmt)
    (some_ : 0 < fmt.numPlanes) (fits : ¬buf.Fits fmt) (i : Nat) : pitcherGetBufferPlane buf i = none := by
  have other : ¬(buf.count = 1 ∨ buf.count = fmt.numPlanes) := fun count => fits ⟨some_, count⟩
  simp only [pitcherGetBufferPlane, known]
  exact if_pos (.inr (not_or.mp other))

/-- A compressed frame lies in the only plane of its buffer. -/
theorem only_plane {buf : Buffer} {fmt : PixFmtInfo} (known : buf.format = some fmt) (filled : fmt.Filled)
    (compressed : fmt.format.compressed) (fits : buf.Fits fmt) (start : BufRef) :
    buf.planes = [buf.plane 0] ∧ (pitcherGetBufferPlane buf 0).getD start = buf.plane 0 := by
  obtain ⟨count, planes⟩ := compressed_one filled fits compressed
  obtain ⟨p, only⟩ := List.length_eq_one_iff.mp count
  have first : buf.plane 0 = p := by
    rw [Buffer.plane, only]
    rfl
  rw [first]
  refine ⟨only, ?_⟩
  simp only [pitcherGetBufferPlane, known, Buffer.count, only, planes]
  rfl

/-- There is an address behind all memories. -/
theorem exists_behind (planes : List BufRef) : ∃ top, ∀ p ∈ planes, p.virt + p.size ≤ top := by
  induction planes with
  | nil => exact ⟨0, fun p mem => by cases mem⟩
  | cons q rest ih =>
    obtain ⟨top, behind⟩ := ih
    refine ⟨max top (q.virt + q.size), ?_⟩
    rintro p (_ | ⟨_, mem⟩)
    · exact Nat.le_max_right _ _
    · exact Nat.le_trans (behind p mem) (Nat.le_max_left _ _)

/-- Nothing that is written behind all memories is counted. -/
theorem BytesCounted.inside (counts : BytesCounted src dst) {splane dplane : BufRef} {mem : Nat → UInt8}
    (ok : (pitcherCopyBufferData splane dplane mem src dst).1 = .OK)
    {move : Move} (here : move ∈ pitcherCopyMoves splane dplane src dst) (some_ : 0 < move.n) {top : Nat}
    (behind : ∀ p ∈ dst.planes, p.virt + p.size ≤ top) : move.dst < top := by
  obtain ⟨m, below, start, ends, large⟩ := counts splane dplane mem ok move here move.dst (Nat.le_refl _) (by omega)
  have inside := behind _ (Buffer.plane_mem below)
  omega

/-- The planes of a picture have components. -/
theorem some_bits (same : sfmt.format = dfmt.format) (dfilled : dfmt.Filled) (raw : ¬sfmt.format.compressed)
    (lines : ¬sfmt.blank) {i : Nat} (below : i < dfmt.numPlanes) : 0 < dfmt.desc.bpp.getD i 0 := by
  rw [PixFmtInfo.blank, decide_eq_true_iff, not_or] at lines
  rw [dfilled.cases.1, PixFmtInfo.desc, ← same] at below
  rw [PixFmtInfo.desc, ← same]
  exact Nat.lt_of_lt_of_le (by decide) (desc_linear (Bool.eq_false_iff.mpr raw) lines.1 lines.2 below)

theorem Copied.of_filled (fits : dst.Fits dfmt) (same : sfmt.format = dfmt.format) (plain : sfmt.untiled)
    (sfilled : sfmt.Filled) (dfilled : dfmt.Filled) (raw : ¬sfmt.format.compressed) (lines : ¬sfmt.blank) :
    Copied src dst sfmt dfmt where
  fits := fits
  filled := dfilled
  plain := by
    have desc : sfmt.desc = dfmt.desc := congrArg pixFmtDescriptors same
    rwa [PixFmtInfo.untiled, dfilled.cases.2.1, dfilled.cases.2.2.1, ← desc, ← sfilled.cases.2.1,
      ← sfilled.cases.2.2.1]
  desc := congrArg pixFmtDescriptors same
  shown := shown_pos sfilled
  bits := fun _ below => some_bits same dfilled raw lines below

section Known
variable (sknown : src.format = some sfmt) (dknown : dst.format = some dfmt)
  (same : sfmt.format = dfmt.format) (plain : sfmt.untiled)
include sknown dknown same plain

theorem frame_counted_iff (sfilled : sfmt.Filled) (dfilled : dfmt.Filled) (compressed : sfmt.format.compressed) :
    BytesCounted src dst ↔ dst.Fits dfmt ∨ src.Fits sfmt ∧ (src.plane 0).bytesused = 0 := by
  have call (splane dplane mem) := @copied_frame src dst sfmt dfmt splane dplane mem sknown dknown same plain
    compressed _ _ rfl rfl
  constructor
  · intro counts
    by_contra other
    rw [not_or] at other
    obtain ⟨dfits, data⟩ := other
    obtain ⟨top, behind⟩ := exists_behind dst.planes
    obtain ⟨splane, some_⟩ : ∃ splane, 0 < ((pitcherGetBufferPlane src 0).getD splane).bytesused := by
      by_cases sfits : src.Fits sfmt
      · refine ⟨{}, ?_⟩
        rw [(only_plane sknown sfilled compressed sfits {}).2]
        exact Nat.pos_of_ne_zero fun none => data ⟨sfits, none⟩
      · refine ⟨{ bytesused := 1 }, ?_⟩
        rw [no_plane sknown sfilled.numPlanes_pos sfits]
        exact Nat.one_pos
    have wild := no_plane dknown dfilled.numPlanes_pos dfits 0
    obtain ⟨made, moves⟩ := call splane
      { virt := top, size := ((pitcherGetBufferPlane src 0).getD splane).bytesused } fun _ => 0
    rw [wild, Option.getD_none, if_neg (Nat.lt_irrefl _)] at made moves
    have inside := counts.inside (by rw [made]) (by rw [moves]; exact List.mem_singleton_self _) some_ behind
    exact Nat.lt_irrefl _ inside
  · rintro (dfits | ⟨sfits, none⟩) splane dplane mem call_ ok move here a start ends
    · obtain ⟨only, place⟩ := only_plane dknown dfilled (same ▸ compressed) dfits dplane
      obtain ⟨made, moves⟩ := call splane dplane mem
      rw [place] at made moves
      by_cases small : (dst.plane 0).size < ((pitcherGetBufferPlane src 0).getD splane).bytesused
      · rw [moves, if_pos small] at here
        cases here
      · rw [moves, if_neg small, List.mem_singleton] at here
        subst here
        refine ⟨0, ?_, start, ?_⟩
        · rw [Buffer.count, only]
          exact Nat.one_pos
        · rw [show call_ = _ from made, if_neg small, only]
          exact ⟨ends, Nat.le_of_not_lt small⟩
    · obtain ⟨-, moves⟩ := call splane dplane mem
      rw [(only_plane sknown sfilled compressed sfits splane).2, none, if_neg (Nat.not_lt_zero _)] at moves
      rw [moves, List.mem_singleton] at here
      subst here
      dsimp only at start ends
      omega

/-- A format without components has no bytes in its rows. -/
theorem blank_counted (blank : sfmt.blank) : BytesCounted src dst := by
  have format := of_decide_eq_true blank
  have raw : ¬sfmt.format.compressed := by
    rcases format with is | is <;> rw [is] <;> decide
  have no_line (i : Nat) : copiedLine src sfmt dfmt i = 0 := by
    have none : sfmt.desc.bpp = [] := by
      unfold PixFmtInfo.desc
      rcases format with is | is <;> rw [is] <;> rfl
    rw [copiedLine, PixelFormatDesc.lineOf, none, List.getD_nil, Nat.mul_zero]
    rfl
  have empty {left i : Nat} {splane dplane : BufRef} :
      ∀ move ∈ copyMoves src dst sfmt dfmt left i splane dplane, move.n = 0 := by
    induction left generalizing i splane dplane with
    | zero => exact fun move here => by cases here
    | succ left ih =>
      intro move here
      rcases List.mem_append.mp here with here | later
      · obtain ⟨j, -, rfl⟩ := List.mem_map.mp here
        exact no_line i
      · exact ih move later
  intro splane dplane mem call ok move here a start ends
  obtain ⟨-, moves⟩ := @copied_picture src dst sfmt dfmt splane dplane mem sknown dknown same plain raw
  rw [moves] at here
  have none := empty move here
  omega

theorem picture_counted_iff (sfilled : sfmt.Filled) (dfilled : dfmt.Filled) (memories : Memories dst)
    (raw : ¬sfmt.format.compressed) (lines : ¬sfmt.blank) :
    BytesCounted src dst ↔
      dst.Fits dfmt ∧
        (∀ m < dst.count, counted dst.count dfmt.numPlanes
          (fun i => copiedRows src sfmt dfmt i * (dfmt.planes i).line) m ≤ (dst.plane m).size) ∧
        (dst.count = dfmt.numPlanes ∨
          copiedRows src sfmt dfmt 0 * (dfmt.planes 0).line = (dfmt.planes 0).size) := by
  have call (splane dplane mem) := @copied_picture src dst sfmt dfmt splane dplane mem sknown dknown same plain raw
  have desc : sfmt.desc = dfmt.desc := congrArg pixFmtDescriptors same
  have planes : dfmt.numPlanes = sfmt.numPlanes := by rw [sfilled.cases.1, dfilled.cases.1, desc]
  by_cases dfits : dst.Fits dfmt
  case neg =>
    constructor
    · intro counts
      exfalso
      obtain ⟨top, behind⟩ := exists_behind dst.planes
      obtain ⟨made, moves⟩ := call {} { virt := top } fun _ => 0
      have rows : 0 < copiedRows src sfmt dfmt 0 := by
        have tall := (@shown_pos src sfmt sfilled).2
        have low := dfilled.sized.2
        exact rowsOf_pos _ (by omega) 0
      have line : 0 < copiedLine src sfmt dfmt 0 := by
        have wide := (@shown_pos src sfmt sfilled).1
        have narrow := dfilled.sized.1
        rw [copiedLine, desc]
        exact lineOf_pos _ (by omega) (some_bits same dfilled raw lines dfilled.numPlanes_pos)
      have first : (⟨top + 0 * (dfmt.planes 0).line,
          ((pitcherGetBufferPlane src 0).getD {}).virt + 0 * (sfmt.planes 0).line,
          copiedLine src sfmt dfmt 0⟩ : Move) ∈ pitcherCopyMoves {} { virt := top } src dst := by
        obtain ⟨n, some_⟩ := Nat.exists_eq_succ_of_ne_zero (Nat.ne_of_gt sfilled.numPlanes_pos)
        rw [moves, some_, copyMoves, no_plane dknown dfilled.numPlanes_pos dfits]
        exact List.mem_append_left _ (List.mem_map_of_mem (List.mem_range.mpr rows))
      have inside : top + 0 * (dfmt.planes 0).line < top := counts.inside (by rw [made]) first line behind
      omega
    · rintro ⟨fits, -⟩
      exact absurd fits dfits
  case pos =>
    have copied : Copied src dst sfmt dfmt := .of_filled dfits same plain sfilled dfilled raw lines
    rw [← copied.counted_iff memories rfl]
    simp only [dfits, true_and]
    have used (splane dplane : BufRef) (mem : Nat → UInt8) {m : Nat} (below : m < dst.count) :
        ((pitcherCopyBufferData splane dplane mem src dst).2.2.getD m {}).bytesused =
          counted dst.count dfmt.numPlanes (fun i => copiedRows src sfmt dfmt i * (dfmt.planes i).line) m := by
      rw [(call splane dplane mem).1]
      exact counted_bytesused dfits planes below
    have rows (splane dplane : BufRef) (a n : Nat) := @copyMoves_iff src dst sfmt dfmt splane dplane dfits dknown
      sfmt.numPlanes 0 (by omega) a n
    constructor
    · intro counts i below j row x column
      obtain ⟨made, moves⟩ := call {} {} fun _ => 0
      obtain ⟨move, here, start, length⟩ := (rows {} {} _ _).mpr
        ⟨i, Nat.zero_le i, by omega, j, row, rfl, rfl⟩
      obtain ⟨m, inside, reach⟩ := counts {} {} (fun _ => 0) (by rw [made]) move (by rwa [moves])
        (dst.rowAt dfmt i j + x) (by omega) (by omega)
      rw [used {} {} _ inside] at reach
      exact ⟨m, inside, reach⟩
    · intro reach splane dplane mem call_ ok move here a start ends
      obtain ⟨-, moves⟩ := call splane dplane mem
      rw [moves] at here
      obtain ⟨i, -, below, j, row, begins, length⟩ := (rows splane dplane _ _).mp ⟨move, here, rfl, rfl⟩
      obtain ⟨m, inside, lies⟩ := reach i (by omega) j row (a - move.dst) (by omega)
      rw [begins, Nat.add_sub_cancel' start] at lies
      refine ⟨m, inside, ?_⟩
      rwa [used splane dplane mem inside]

end Known

/-- The bytes counted cover what is written exactly if the planes have places, the
memories hold what is counted, and a first plane in front of others is filled. -/
theorem pitcherCopyBufferData_counts_iff (src dst : Buffer)
    (filled : ∀ fmt, src.format = some fmt ∨ dst.format = some fmt → fmt.Filled) (memories : Memories dst) :
    BytesCounted src dst ↔ CountsBytes src dst := by
  constructor
  · intro counts sfmt dfmt sknown dknown same plain
    have sfilled := filled sfmt (.inl sknown)
    have dfilled := filled dfmt (.inr dknown)
    split
    case isTrue compressed =>
      exact (frame_counted_iff sknown dknown same plain sfilled dfilled compressed).mp counts
    case isFalse raw =>
      split
      case isTrue => trivial
      case isFalse lines =>
        exact (picture_counted_iff sknown dknown same plain sfilled dfilled memories raw lines).mp counts
  · intro condition splane dplane mem call ok
    obtain ⟨sfmt, dfmt, sknown, dknown, same, plain⟩ := copied_formats ok
    have sfilled := filled sfmt (.inl sknown)
    have dfilled := filled dfmt (.inr dknown)
    have condition := condition sfmt dfmt sknown dknown same plain
    have counts : BytesCounted src dst := by
      split at condition
      case isTrue compressed =>
        exact (frame_counted_iff sknown dknown same plain sfilled dfilled compressed).mpr condition
      case isFalse raw =>
        split at condition
        case isTrue blank => exact blank_counted sknown dknown same plain blank
        case isFalse lines =>
          exact (picture_counted_iff sknown dknown same plain sfilled dfilled memories raw lines).mpr condition
    exact counts splane dplane mem ok

end Counts

theorem memoryOf_filled {a b : Nat} {sfmt dfmt : PixFmtInfo} (sfilled : sfmt.Filled) (dfilled : dfmt.Filled) :
    ∀ fmt, (memoryOf a sfmt).format = some fmt ∨ (memoryOf b dfmt).format = some fmt → fmt.Filled := by
  rintro fmt (known | known)
  · exact Option.some.inj known ▸ sfilled
  · exact Option.some.inj known ▸ dfilled

/-- A picture of 4x4 samples in NV12, copied to one memory of the same format. -/
theorem pitcherCopyBufferData_counts_square :
    ∃ fmt, pitcherGetPixFmtInfo { format := .nv12, width := 4, height := 4 } 1 = some fmt ∧
      BytesCounted (memoryOf 4096 fmt) (memoryOf 8192 fmt) := by
  have made : pitcherGetPixFmtInfo { format := .nv12, width := 4, height := 4 } 1 = some _ := rfl
  refine ⟨_, made, (pitcherCopyBufferData_counts_iff (memoryOf 4096 _) (memoryOf 8192 _)
    (memoryOf_filled ⟨_, _, made⟩ ⟨_, _, made⟩) ⟨by decide, List.pairwise_singleton _ _⟩).mpr ?_⟩
  intro sfmt dfmt sknown dknown _ _
  rw [← Option.some.inj sknown, ← Option.some.inj dknown]
  exact ⟨by decide, by decide, .inr (by decide)⟩

/-- In a memory for 4x8 samples the chroma of it lies behind the bytes counted. -/
theorem pitcherCopyBufferData_uncounted :
    ∃ sfmt dfmt, pitcherGetPixFmtInfo { format := .nv12, width := 4, height := 4 } 1 = some sfmt ∧
      pitcherGetPixFmtInfo { format := .nv12, width := 4, height := 8 } 1 = some dfmt ∧
      ¬BytesCounted (memoryOf 4096 sfmt) (memoryOf 8192 dfmt) := by
  refine ⟨_, _, rfl, rfl, ?_⟩
  intro counts
  obtain ⟨m, below, -, ends, -⟩ := counts {} {} (fun _ => 0) (by decide) ⟨8192 + 32, 4096 + 16, 4⟩ (by decide)
    (8192 + 32) (by decide) (by decide)
  obtain rfl : m = 0 := Nat.lt_one_iff.mp below
  exact absurd ends (by decide)

end ImxTest.Pitcher
