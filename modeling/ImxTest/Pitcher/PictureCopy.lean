import ImxTest.Pitcher.PixFmt
import Mathlib.Algebra.BigOperators.Group.List.Basic

/-! What the copy of pitcher/pixfmt.c leaves in the buffer it copies to: every row
of the picture at the place its format gives it, and the bytes counted for them. -/
namespace ImxTest.Pitcher
open Lib.Copy

/-! ## The lines a format has -/

theorem le_align (x : Nat) {a : Nat} (pos : 0 < a) : x ≤ align x a := by
  unfold align
  split
  · exact Nat.le_refl x
  · have := Nat.mod_lt x pos
    omega

theorem align_dvd (x : Nat) {a : Nat} (pos : 0 < a) : a ∣ align x a := by
  unfold align
  split
  case isTrue even => exact Nat.dvd_of_mod_eq_zero even
  case isFalse =>
    have below := Nat.mod_lt x pos
    have split := Nat.div_add_mod x a
    refine ⟨x / a + 1, ?_⟩
    rw [Nat.mul_succ]
    omega

/-- The next multiple is the least one. -/
theorem align_le {x y a : Nat} (bound : x ≤ y) (multiple : a ∣ y) : align x a ≤ y := by
  unfold align
  split
  · exact bound
  case isFalse odd =>
    obtain ⟨q, rfl⟩ := multiple
    have below : x / a < q := by
      by_contra h
      have atLeast := Nat.mul_le_mul_left a (Nat.le_of_not_lt h)
      have split := Nat.div_add_mod x a
      omega
    have split := Nat.div_add_mod x a
    have next := Nat.mul_le_mul_left a below
    rw [Nat.mul_succ] at next
    omega

theorem align_mono {x y a : Nat} (pos : 0 < a) (bound : x ≤ y) : align x a ≤ align y a :=
  align_le (Nat.le_trans bound (le_align y pos)) (align_dvd y pos)

/-- A format that `pitcher_get_pix_fmt_info` has filled in. -/
def PixFmtInfo.Filled (fmt : PixFmtInfo) : Prop :=
  ∃ info alignment, pitcherGetPixFmtInfo info alignment = some fmt

def PixFmtInfo.untiled (fmt : PixFmtInfo) : Bool := fmt.tileWs = 0 ∧ fmt.tileHs = 0

section Filled
variable {fmt : PixFmtInfo} {i w h : Nat}

theorem PixFmtInfo.Filled.cases (filled : fmt.Filled) :
    fmt.numPlanes = fmt.desc.numPlanes ∧ fmt.tileWs = fmt.desc.tileWs ∧
      fmt.tileHs = fmt.desc.tileHs ∧
      ∃ alignment, ∀ i < fmt.numPlanes, fmt.planes i = pixPlaneInfo fmt alignment i := by
  obtain ⟨info, alignment, made⟩ := filled
  unfold pitcherGetPixFmtInfo at made
  split at made
  case isTrue => contradiction
  case isFalse =>
    cases Option.some.inj made
    refine ⟨rfl, rfl, rfl, if alignment = 0 then 1 else alignment, ?_⟩
    intro i below
    exact if_pos below

theorem ite_one_ne_zero (n : Nat) : (if n = 0 then 1 else n) ≠ 0 := by
  split <;> omega

/-- No row of a picture of that width is longer than the line of its plane. -/
theorem PixFmtInfo.Filled.lineOf_le (filled : fmt.Filled) (plain : fmt.untiled)
    (below : i < fmt.numPlanes) (bound : w ≤ fmt.width) :
    fmt.desc.lineOf i w ≤ (fmt.planes i).line := by
  obtain ⟨_, wide, _, alignment, planes⟩ := filled.cases
  obtain ⟨narrow, _⟩ := of_decide_eq_true plain
  rw [planes i below]
  simp only [pixPlaneInfo, pitcherFillPlaneDesc, PixelFormatDesc.lineOf]
  refine Nat.le_trans ?_ (le_align _ ?positive)
  case positive =>
    rw [Nat.pos_iff_ne_zero]
    exact ite_one_ne_zero _
  rw [← wide, narrow, Nat.max_eq_left (Nat.zero_le _)]
  have aligned := @align_mono w fmt.width (2 ^ fmt.desc.log2ChromaW) (Nat.two_pow_pos _) bound
  have scaled : (if i = 0 then align w (2 ^ fmt.desc.log2ChromaW)
        else align w (2 ^ fmt.desc.log2ChromaW) / 2 ^ fmt.desc.log2ChromaW) ≤
      if i = 0 then align fmt.width (2 ^ fmt.desc.log2ChromaW)
        else align fmt.width (2 ^ fmt.desc.log2ChromaW) / 2 ^ fmt.desc.log2ChromaW := by
    split
    · exact aligned
    · exact Nat.div_le_div_right aligned
  by_cases blank : fmt.desc.bpp.getD i 0 = 0
  · rw [blank]
    simp [align]
  · rw [if_pos blank]
    exact Nat.div_le_div_right (align_mono (by omega) (Nat.mul_le_mul_right _ scaled))

/-- All rows of a picture of that height lie in its plane. -/
theorem PixFmtInfo.Filled.rowsOf_le (filled : fmt.Filled) (plain : fmt.untiled)
    (below : i < fmt.numPlanes) (bound : h ≤ fmt.height) :
    fmt.desc.rowsOf i h * (fmt.planes i).line ≤ (fmt.planes i).size := by
  obtain ⟨_, _, tall, alignment, planes⟩ := filled.cases
  obtain ⟨_, low⟩ := of_decide_eq_true plain
  rw [planes i below]
  simp only [pixPlaneInfo, pitcherFillPlaneDesc, PixelFormatDesc.rowsOf]
  rw [Nat.mul_comm]
  apply Nat.mul_le_mul_left
  have flat : ¬(i ≠ 0 ∧ fmt.desc.tileHs ≠ 0) := by
    rw [← tall, low]
    exact fun h => h.2 rfl
  rw [if_neg flat, ← tall, low, Nat.max_eq_left (Nat.zero_le _)]
  have aligned : align h (2 ^ fmt.desc.log2ChromaH) ≤
      align fmt.height (2 ^ fmt.desc.log2ChromaH * if fmt.interlaced then 2 else 1) := by
    have pos : 0 < 2 ^ fmt.desc.log2ChromaH * if fmt.interlaced then 2 else 1 := by
      have := Nat.two_pow_pos fmt.desc.log2ChromaH
      split <;> omega
    apply align_le (Nat.le_trans bound (le_align _ pos))
    exact Nat.dvd_trans (Nat.dvd_mul_right _ _) (align_dvd _ pos)
  split
  · exact aligned
  · exact Nat.div_le_div_right aligned

end Filled

/-! ## Where the planes of a picture lie -/

/-- `pitcher_get_buffer_plane` knows where the planes of the format lie. -/
def Buffer.Fits (buf : Buffer) (fmt : PixFmtInfo) : Prop :=
  0 < fmt.numPlanes ∧ (buf.count = 1 ∨ buf.count = fmt.numPlanes)

instance (buf : Buffer) (fmt : PixFmtInfo) : Decidable (buf.Fits fmt) := by
  unfold Buffer.Fits
  infer_instance

/-- A compressed frame has one plane. -/
theorem compressed_one {buf : Buffer} {fmt : PixFmtInfo} (filled : fmt.Filled) (fits : buf.Fits fmt)
    (compressed : fmt.format.compressed) : buf.count = 1 ∧ fmt.numPlanes = 1 := by
  have planes := filled.cases.1
  have one : fmt.numPlanes = 0 ∨ fmt.numPlanes = 1 := by
    rw [planes, PixFmtInfo.desc]
    revert compressed
    cases fmt.format <;> decide
  have := fits.1
  have := fits.2
  omega

/-- The plane of the buffer that plane `i` of the picture lies in, and what is
before it there. -/
def Buffer.place (buf : Buffer) (fmt : PixFmtInfo) (i : Nat) : Nat × Nat :=
  if buf.count = fmt.numPlanes then (i, 0)
  else (0, ((List.range i).map fun k => (fmt.planes k).size).sum)

def Buffer.plane (buf : Buffer) (k : Nat) : BufRef := buf.planes.getD k {}

/-- The address of row `j` of plane `i`. -/
def Buffer.rowAt (buf : Buffer) (fmt : PixFmtInfo) (i j : Nat) : Nat :=
  (buf.plane (buf.place fmt i).1).virt + (buf.place fmt i).2 + j * (fmt.planes i).line

theorem foldl_nextPlane_virt (fmt : PixFmtInfo) (plane : BufRef) (i : Nat) :
    ((List.range i).foldl (nextPlane fmt) plane).virt =
      plane.virt + ((List.range i).map fun k => (fmt.planes k).size).sum := by
  induction i with
  | zero => simp
  | succ i ih =>
    simp only [List.range_succ, List.foldl_append, List.foldl_cons, List.foldl_nil, List.map_append,
      List.map_cons, List.map_nil, List.sum_append, List.sum_cons, List.sum_nil, nextPlane, ih]
    omega

theorem Buffer.Fits.plane {buf : Buffer} {fmt : PixFmtInfo} {i : Nat} (fits : buf.Fits fmt)
    (known : buf.format = some fmt) (below : i < fmt.numPlanes) (start : BufRef) :
    ((pitcherGetBufferPlane buf i).getD start).virt = buf.rowAt fmt i 0 := by
  rw [Buffer.rowAt, Nat.zero_mul, Nat.add_zero]
  simp only [pitcherGetBufferPlane, known, Buffer.place]
  rw [if_neg (by have := fits.2; omega)]
  split
  case isTrue whole =>
    have inside : i < buf.planes.length := by
      rw [Buffer.count] at whole
      omega
    simp only [Buffer.plane, List.getD_eq_getElem?_getD, List.getElem?_eq_getElem inside,
      Option.getD_some, Nat.add_zero]
  case isFalse =>
    rw [Option.getD_some, foldl_nextPlane_virt, Buffer.plane]
    cases buf.planes <;> rfl

/-! ## The copy -/

section Copying
variable {src dst : Buffer} {sfmt dfmt : PixFmtInfo} {mem : Nat → UInt8}

/-- The rows the copy writes for plane `i`, and the bytes of each. -/
def copiedRows (src : Buffer) (sfmt dfmt : PixFmtInfo) (i : Nat) : Nat :=
  sfmt.desc.rowsOf i (min (src.shown sfmt).2 dfmt.height)

def copiedLine (src : Buffer) (sfmt dfmt : PixFmtInfo) (i : Nat) : Nat :=
  sfmt.desc.lineOf i (min (src.shown sfmt).1 dfmt.width)

/-- The rows are written to places of their own, none of them read. -/
structure RowsApart (src dst : Buffer) (sfmt dfmt : PixFmtInfo) : Prop where
  narrow : ∀ i < sfmt.numPlanes, copiedLine src sfmt dfmt i ≤ (dfmt.planes i).line
  written : ∀ i < sfmt.numPlanes, ∀ k < sfmt.numPlanes, i < k →
    ∀ j < copiedRows src sfmt dfmt i, ∀ l < copiedRows src sfmt dfmt k,
      Apart (dst.rowAt dfmt i j) (copiedLine src sfmt dfmt i) (dst.rowAt dfmt k l)
        (copiedLine src sfmt dfmt k)
  read : ∀ i < sfmt.numPlanes, ∀ k < sfmt.numPlanes,
    ∀ j < copiedRows src sfmt dfmt i, ∀ l < copiedRows src sfmt dfmt k,
      Apart (src.rowAt sfmt i j) (copiedLine src sfmt dfmt i) (dst.rowAt dfmt k l)
        (copiedLine src sfmt dfmt k)

variable {left i : Nat} {splane dplane : BufRef} {planes : List BufRef}

theorem rowAt_start (buf : Buffer) (fmt : PixFmtInfo) (i j : Nat) :
    buf.rowAt fmt i 0 + j * (fmt.planes i).line = buf.rowAt fmt i j := by
  rw [Buffer.rowAt, Buffer.rowAt, Nat.zero_mul, Nat.add_zero]

theorem copyPlanes_apart (dfits : dst.Fits dfmt) (dknown : dst.format = some dfmt)
    (same : dfmt.numPlanes = sfmt.numPlanes) (last : i + left = sfmt.numPlanes) {a m : Nat}
    (apart : ∀ k, i ≤ k → k < sfmt.numPlanes → ∀ l < copiedRows src sfmt dfmt k,
      Apart a m (dst.rowAt dfmt k l) (copiedLine src sfmt dfmt k)) :
    span (copyPlanes src dst sfmt dfmt left i splane dplane mem planes).1 a m = span mem a m := by
  induction left generalizing i splane dplane mem planes with
  | zero => rfl
  | succ left ih =>
    rw [copyPlanes, ih (by omega) fun k least => apart k (by omega)]
    apply span_copyRows_apart
    intro j below
    rw [dfits.plane dknown (by omega), rowAt_start]
    exact apart i (Nat.le_refl i) (by omega) j below

theorem copyPlanes_rows (sfits : src.Fits sfmt) (dfits : dst.Fits dfmt)
    (sknown : src.format = some sfmt) (dknown : dst.format = some dfmt)
    (same : dfmt.numPlanes = sfmt.numPlanes) (last : i + left = sfmt.numPlanes)
    (rows : RowsApart src dst sfmt dfmt) {k j : Nat} (least : i ≤ k) (below : k < sfmt.numPlanes)
    (row : j < copiedRows src sfmt dfmt k) :
    span (copyPlanes src dst sfmt dfmt left i splane dplane mem planes).1 (dst.rowAt dfmt k j)
        (copiedLine src sfmt dfmt k) =
      span mem (src.rowAt sfmt k j) (copiedLine src sfmt dfmt k) := by
  induction left generalizing i splane dplane mem planes with
  | zero => omega
  | succ left ih =>
    rw [copyPlanes]
    rcases Nat.eq_or_lt_of_le least with rfl | later
    · -- The planes behind this one leave its rows alone.
      rw [copyPlanes_apart dfits dknown same (by omega)]
      · rw [sfits.plane sknown below, dfits.plane dknown (by omega)]
        have own := @span_copyRows _ mem (dst.rowAt dfmt i 0) (src.rowAt sfmt i 0)
          (dfmt.planes i).line (sfmt.planes i).line _ _ (rows.narrow i below) ?_ j row
        · rwa [rowAt_start, rowAt_start] at own
        · intro j jBelow l lBelow
          rw [rowAt_start, rowAt_start]
          exact rows.read i below i below j jBelow l lBelow
      · intro k next kBelow l lBelow
        exact rows.written i below k kBelow (by omega) j row l lBelow
    · rw [ih (by omega) (by omega)]
      apply span_copyRows_apart
      intro l lBelow
      rw [dfits.plane dknown (by omega), rowAt_start]
      exact rows.read k below i (by omega) j row l lBelow

theorem copyPlanes_planes :
    (copyPlanes src dst sfmt dfmt left i splane dplane mem planes).2 =
      (List.range' i left).foldl
        (fun planes i => countBytes planes i (copiedRows src sfmt dfmt i * (dfmt.planes i).line))
        planes := by
  induction left generalizing i splane dplane mem planes with
  | zero => rfl
  | succ left ih =>
    rw [copyPlanes, ih, List.range'_succ, List.foldl_cons]
    rfl

end Copying

/-! ## The bytes counted -/

/-- The bytes that plane `k` of the buffer has of a picture, where plane `i` of
the picture has `bytes i`. -/
def counted (count numPlanes : Nat) (bytes : Nat → Nat) (k : Nat) : Nat :=
  if count = numPlanes then bytes k else ((List.range numPlanes).map bytes).sum

section Counting
variable {bytes : Nat → Nat}

theorem countBytes_getElem? {planes : List BufRef} {i : Nat} (inside : i < planes.length) (n k : Nat) :
    (countBytes planes i n)[k]? =
      planes[k]?.map fun p => if k = i then { p with bytesused := n } else p := by
  rw [countBytes, if_pos inside, List.getElem?_modify]
  congr 1
  funext p
  by_cases here : i = k
  · rw [if_pos here, if_pos here.symm]
  · rw [if_neg here, if_neg (Ne.symm here)]

theorem countBytes_each {planes : List BufRef} {i left : Nat} (last : i + left = planes.length) (k : Nat) :
    ((List.range' i left).foldl (fun planes i => countBytes planes i (bytes i)) planes)[k]? =
      planes[k]?.map fun p => if i ≤ k then { p with bytesused := bytes k } else p := by
  induction left generalizing i planes with
  | zero =>
    rw [List.range'_zero, List.foldl_nil]
    rcases Nat.lt_or_ge k planes.length with inside | outside
    · rw [List.getElem?_eq_getElem inside, Option.map_some, if_neg (by omega)]
    · rw [List.getElem?_eq_none outside, Option.map_none]
  | succ left ih =>
    have inside : i < planes.length := by omega
    have length : (countBytes planes i (bytes i)).length = planes.length := by
      rw [countBytes, if_pos inside, List.length_modify]
    rw [List.range'_succ, List.foldl_cons, ih (by omega), countBytes_getElem? inside, Option.map_map]
    congr 1
    funext p
    rcases Nat.lt_trichotomy i k with less | rfl | more
    · simp only [Function.comp, if_neg (Nat.ne_of_gt less), if_pos (Nat.succ_le_of_lt less),
        if_pos (Nat.le_of_lt less)]
    · simp only [Function.comp, if_true, Nat.le_refl, if_neg (Nat.not_succ_le_self i)]
    · simp only [Function.comp, if_neg (Nat.ne_of_lt more), if_neg (show ¬i + 1 ≤ k by omega),
        if_neg (show ¬i ≤ k by omega)]

theorem countBytes_together {p : BufRef} {i left : Nat} (later : 0 < i) :
    (List.range' i left).foldl (fun planes i => countBytes planes i (bytes i)) [p] =
      [{ p with bytesused := p.bytesused + ((List.range' i left).map bytes).sum }] := by
  induction left generalizing i p with
  | zero => rfl
  | succ left ih =>
    have step : countBytes [p] i (bytes i) = [{ p with bytesused := p.bytesused + bytes i }] := by
      rw [countBytes, if_neg (by rw [List.length_singleton]; omega)]
      rfl
    rw [List.range'_succ, List.foldl_cons, step, ih (Nat.succ_pos i), List.map_cons, List.sum_cons]
    simp only [Nat.add_assoc]

theorem counted_planes {planes : List BufRef} {n : Nat} (some_plane : 0 < n)
    (fits : planes.length = 1 ∨ planes.length = n) (k : Nat) :
    ((List.range' 0 n).foldl (fun planes i => countBytes planes i (bytes i)) planes)[k]? =
      planes[k]?.map fun p => { p with bytesused := counted planes.length n bytes k } := by
  by_cases each : planes.length = n
  · rw [countBytes_each (by omega)]
    simp only [counted, if_pos each, Nat.zero_le, if_true]
  · obtain ⟨p, rfl⟩ := List.length_eq_one_iff.mp (fits.resolve_right each)
    obtain ⟨n, rfl⟩ := Nat.exists_eq_succ_of_ne_zero (Nat.ne_of_gt some_plane)
    have first : countBytes [p] 0 (bytes 0) = [{ p with bytesused := bytes 0 }] := rfl
    rw [List.range'_succ, List.foldl_cons, first, countBytes_together Nat.one_pos]
    simp only [counted, if_neg each, List.range_eq_range', List.range'_succ, List.map_cons, List.sum_cons]
    cases k <;> rfl

end Counting

/-! ## A picture in the buffer it was copied to -/

/-- Formats whose pictures are handled row by row. -/
def PixFmtInfo.byLine (fmt : PixFmtInfo) : Bool :=
  !fmt.format.compressed ∧ fmt.format ≠ .rfc ∧ fmt.format ≠ .rfcx ∧ fmt.untiled

/-- What is before the picture shown in each row of plane `i`, and in the rows
above it. -/
def Buffer.shift (buf : Buffer) (fmt : PixFmtInfo) (i : Nat) : Nat :=
  match buf.crop with
  | none => 0
  | some crop =>
    if crop.width = 0 ∨ crop.height = 0 then 0
    else
      let left := if i = 0 then crop.left else crop.left / 2 ^ fmt.desc.log2ChromaW
      let top := if i = 0 then crop.top else crop.top / 2 ^ fmt.desc.log2ChromaH
      (fmt.planes i).line * top + align (left * fmt.desc.bpp.getD i 0) 8 / 8

/-- Row `j` of plane `i` of a picture that is `w` wide ends inside its plane, of
which `room` bytes count. -/
def Buffer.RowIn (buf : Buffer) (fmt : PixFmtInfo) (shift w : Nat) (room : Nat → Nat) (i j : Nat) : Prop :=
  (buf.place fmt i).2 + shift + j * (fmt.planes i).line + fmt.desc.lineOf i w ≤
    room (buf.place fmt i).1

/-- The buffers lie apart, and the picture in the first one in its planes. -/
structure Layout (src dst : Buffer) : Prop where
  used : ∀ p ∈ src.planes, p.bytesused ≤ p.size
  mapped : ∀ q ∈ dst.planes, 0 < q.size
  own : dst.planes.Pairwise fun p q => Apart p.virt p.size q.virt q.size
  others : ∀ p ∈ src.planes, ∀ q ∈ dst.planes, Apart p.virt p.size q.virt q.size
  filled : ∀ fmt, src.format = some fmt ∨ dst.format = some fmt → fmt.numPlanes = 0 ∨ fmt.Filled
  shown : ∀ fmt, src.format = some fmt → fmt.byLine → src.Fits fmt →
    ∀ i < fmt.numPlanes, ∀ j < fmt.desc.rowsOf i (src.shown fmt).2,
      src.RowIn fmt (src.shift fmt i) (src.shown fmt).1 (fun k => (src.plane k).size) i j

/-- Which bytes of the planes count does not matter. -/
theorem Layout.of_same_planes {src dst dst' : Buffer} (layout : Layout src dst)
    (planes : dst'.planes.map (fun p => (p.virt, p.size)) = dst.planes.map fun p => (p.virt, p.size))
    (format : dst'.format = dst.format) : Layout src dst' := by
  have old : ∀ q ∈ dst'.planes, ∃ p ∈ dst.planes, p.virt = q.virt ∧ p.size = q.size := by
    intro q mem
    have place := List.mem_map_of_mem (f := fun p : BufRef => (p.virt, p.size)) mem
    rw [planes] at place
    obtain ⟨p, mem, same⟩ := List.mem_map.mp place
    exact ⟨p, mem, congrArg Prod.fst same, congrArg Prod.snd same⟩
  refine ⟨layout.used, ?_, ?_, ?_, ?_, layout.shown⟩
  · intro q mem
    obtain ⟨p, mem, _, size⟩ := old q mem
    rw [← size]
    exact layout.mapped p mem
  · have own := layout.own
    rw [← List.pairwise_map (f := fun p : BufRef => (p.virt, p.size))
      (R := fun a b => Apart a.1 a.2 b.1 b.2), ← planes, List.pairwise_map] at own
    exact own
  · intro p pMem q qMem
    obtain ⟨q', mem, virt, size⟩ := old q qMem
    rw [← virt, ← size]
    exact layout.others p pMem q' mem
  · rw [format]
    exact layout.filled

/-- `dst`, with `planes` and `mem'` now, shows the picture that `src` shows in
`mem`: it has room for all of it, in the planes and in the bytes counted of them. -/
def ShowsPicture (mem mem' : Nat → UInt8) (src dst : Buffer) (planes : List BufRef)
    (sfmt dfmt : PixFmtInfo) : Prop :=
  (src.shown sfmt).1 ≤ dfmt.width ∧ (src.shown sfmt).2 ≤ dfmt.height ∧
    ∀ i < sfmt.numPlanes, ∀ j < sfmt.desc.rowsOf i (src.shown sfmt).2,
      dst.RowIn dfmt 0 (src.shown sfmt).1 (fun k => (dst.plane k).size) i j ∧
      dst.RowIn dfmt 0 (src.shown sfmt).1 (fun k => (planes.getD k {}).bytesused) i j ∧
      span mem' (dst.rowAt dfmt i j) (sfmt.desc.lineOf i (src.shown sfmt).1) =
        span mem (src.rowAt sfmt i j + src.shift sfmt i) (sfmt.desc.lineOf i (src.shown sfmt).1)

/-- The picture `src` shows can be copied: it is the upper left part of the one
that `src` has, and `dst` has room for it. -/
def Copyable (src dst : Buffer) (sfmt dfmt : PixFmtInfo) : Prop :=
  (src.shown sfmt).1 ≤ dfmt.width ∧ (src.shown sfmt).2 ≤ dfmt.height ∧
    ∀ i < sfmt.numPlanes, ∀ j < sfmt.desc.rowsOf i (src.shown sfmt).2,
      dst.RowIn dfmt 0 (src.shown sfmt).1 (fun k => (dst.plane k).size) i j ∧
      dst.RowIn dfmt 0 (src.shown sfmt).1
        (counted dst.count dfmt.numPlanes fun i =>
          sfmt.desc.rowsOf i (src.shown sfmt).2 * (dfmt.planes i).line) i j ∧
      (sfmt.desc.lineOf i (src.shown sfmt).1 = 0 ∨ src.shift sfmt i = 0)

section Picture
variable {src dst : Buffer} {sfmt dfmt : PixFmtInfo}

theorem byLine_untiled {fmt : PixFmtInfo} (lines : fmt.byLine) : fmt.untiled :=
  (of_decide_eq_true lines).2.2.2

theorem Buffer.plane_eq {buf : Buffer} {k : Nat} (inside : k < buf.planes.length) :
    buf.plane k = buf.planes[k] := by
  rw [Buffer.plane, List.getD_eq_getElem?_getD, List.getElem?_eq_getElem inside, Option.getD_some]

theorem Buffer.plane_mem {buf : Buffer} {k : Nat} (inside : k < buf.count) :
    buf.plane k ∈ buf.planes := by
  rw [Buffer.plane_eq inside]
  exact List.getElem_mem inside

theorem Buffer.place_lt {buf : Buffer} {fmt : PixFmtInfo} {i : Nat} (fits : buf.Fits fmt)
    (below : i < fmt.numPlanes) : (buf.place fmt i).1 < buf.count := by
  rw [Buffer.place]
  split
  · omega
  · have := fits.2
    simp only
    omega

/-- A plane begins behind the one before it. -/
theorem sum_sizes_le {fmt : PixFmtInfo} {i k : Nat} (less : i < k) :
    ((List.range i).map fun i => (fmt.planes i).size).sum + (fmt.planes i).size ≤
      ((List.range k).map fun i => (fmt.planes i).size).sum := by
  induction k with
  | zero => omega
  | succ k ih =>
    rw [List.range_succ, List.map_append, List.sum_append]
    rcases Nat.eq_or_lt_of_le (Nat.le_of_lt_succ less) with rfl | before
    · simp
    · exact Nat.le_trans (ih before) (Nat.le_add_right _ _)

/-- Rows of two planes of a picture lie apart, in a buffer that has room for them. -/
theorem rows_written_apart (own : dst.planes.Pairwise fun p q => Apart p.virt p.size q.virt q.size)
    (filled : dfmt.Filled) (plain : dfmt.untiled) {w h : Nat}
    (narrow : w ≤ dfmt.width) (low : h ≤ dfmt.height) {i k j l : Nat} (iBelow : i < dfmt.numPlanes)
    (kBelow : k < dfmt.numPlanes) (less : i < k) (row : j < dfmt.desc.rowsOf i h)
    (iRoom : dst.RowIn dfmt 0 w (fun k => (dst.plane k).size) i j)
    (kRoom : dst.RowIn dfmt 0 w (fun k => (dst.plane k).size) k l) :
    Apart (dst.rowAt dfmt i j) (dfmt.desc.lineOf i w) (dst.rowAt dfmt k l) (dfmt.desc.lineOf k w) := by
  unfold Buffer.RowIn at iRoom kRoom
  unfold Buffer.rowAt
  by_cases each : dst.count = dfmt.numPlanes
  · simp only [Buffer.place, if_pos each] at iRoom kRoom ⊢
    have iInside : i < dst.count := by omega
    have kInside : k < dst.count := by omega
    have apart := List.pairwise_iff_getElem.mp own i k iInside kInside less
    rw [← Buffer.plane_eq iInside, ← Buffer.plane_eq kInside] at apart
    exact apart.part (by omega) (by omega)
  · simp only [Buffer.place, if_neg each] at iRoom kRoom ⊢
    have behind := @sum_sizes_le dfmt i k less
    have rows := filled.rowsOf_le plain iBelow low
    have line := filled.lineOf_le plain iBelow narrow
    have upTo := Nat.mul_le_mul_right (dfmt.planes i).line (Nat.succ_le_of_lt row)
    rw [Nat.succ_mul] at upTo
    unfold Apart
    omega

/-- A row that is read lies apart from a row that is written. -/
theorem rows_read_apart (layout : Layout src dst) (sfits : src.Fits sfmt) (dfits : dst.Fits dfmt)
    {m n i k j l : Nat} (iBelow : i < sfmt.numPlanes) (kBelow : k < dfmt.numPlanes)
    (iRoom : (src.place sfmt i).2 + j * (sfmt.planes i).line + m ≤ (src.plane (src.place sfmt i).1).size)
    (kRoom : (dst.place dfmt k).2 + l * (dfmt.planes k).line + n ≤ (dst.plane (dst.place dfmt k).1).size) :
    Apart (src.rowAt sfmt i j) m (dst.rowAt dfmt k l) n := by
  have apart := layout.others _ (Buffer.plane_mem (Buffer.place_lt sfits iBelow)) _
    (Buffer.plane_mem (Buffer.place_lt dfits kBelow))
  unfold Buffer.rowAt
  exact apart.part (by omega) (by omega)

theorem Layout.source_filled (layout : Layout src dst) (sfits : src.Fits sfmt)
    (sknown : src.format = some sfmt) : sfmt.Filled :=
  (layout.filled sfmt (.inl sknown)).resolve_left (Nat.ne_of_gt sfits.1)

theorem Layout.target_filled (layout : Layout src dst) (dfits : dst.Fits dfmt)
    (dknown : dst.format = some dfmt) : dfmt.Filled :=
  (layout.filled dfmt (.inr dknown)).resolve_left (Nat.ne_of_gt dfits.1)

/-- What the copy leaves behind, where the buffer has room for the picture. -/
theorem copyPlanes_shown (layout : Layout src dst) (sfits : src.Fits sfmt) (dfits : dst.Fits dfmt)
    (sknown : src.format = some sfmt) (dknown : dst.format = some dfmt)
    (same : sfmt.format = dfmt.format) (lines : sfmt.byLine)
    (narrow : (src.shown sfmt).1 ≤ dfmt.width) (low : (src.shown sfmt).2 ≤ dfmt.height)
    (room : ∀ i < sfmt.numPlanes, ∀ j < sfmt.desc.rowsOf i (src.shown sfmt).2,
      dst.RowIn dfmt 0 (src.shown sfmt).1 (fun k => (dst.plane k).size) i j)
    {splane dplane : BufRef} {mem : Nat → UInt8} {i j : Nat} (below : i < sfmt.numPlanes)
    (row : j < sfmt.desc.rowsOf i (src.shown sfmt).2) :
    span (copyPlanes src dst sfmt dfmt sfmt.numPlanes 0 splane dplane mem dst.planes).1
        (dst.rowAt dfmt i j) (sfmt.desc.lineOf i (src.shown sfmt).1) =
      span mem (src.rowAt sfmt i j) (sfmt.desc.lineOf i (src.shown sfmt).1) := by
  have desc : dfmt.desc = sfmt.desc := congrArg pixFmtDescriptors same.symm
  have sfilled := layout.source_filled sfits sknown
  have dfilled := layout.target_filled dfits dknown
  obtain ⟨splanes, swide, stall, _⟩ := sfilled.cases
  obtain ⟨dplanes, dwide, dtall, _⟩ := dfilled.cases
  have planes : dfmt.numPlanes = sfmt.numPlanes := by rw [splanes, dplanes, desc]
  have plain : dfmt.untiled := by
    have := byLine_untiled lines
    rwa [PixFmtInfo.untiled, swide, stall, ← desc, ← dwide, ← dtall] at this
  have copiedLine_eq : ∀ i, copiedLine src sfmt dfmt i = sfmt.desc.lineOf i (src.shown sfmt).1 := by
    intro i
    rw [copiedLine, Nat.min_eq_left narrow]
  have copiedRows_eq : ∀ i, copiedRows src sfmt dfmt i = sfmt.desc.rowsOf i (src.shown sfmt).2 := by
    intro i
    rw [copiedRows, Nat.min_eq_left low]
  rw [← copiedLine_eq]
  rw [← copiedRows_eq] at row
  apply copyPlanes_rows sfits dfits sknown dknown planes (Nat.zero_add _) ?_ (Nat.zero_le i) below row
  constructor
  case narrow =>
    intro i below
    rw [copiedLine_eq, ← desc]
    exact dfilled.lineOf_le plain (by omega) narrow
  case written =>
    intro i iBelow k kBelow less j jRow l lRow
    rw [copiedRows_eq] at jRow lRow
    rw [copiedLine_eq, copiedLine_eq, ← desc]
    apply rows_written_apart layout.own dfilled plain narrow low (by omega) (by omega) less
      (by rwa [desc]) (room i iBelow j jRow) (room k kBelow l lRow)
  case read =>
    intro i iBelow k kBelow j jRow l lRow
    rw [copiedRows_eq] at jRow lRow
    have source := layout.shown sfmt sknown lines sfits i iBelow j jRow
    have target := room k kBelow l lRow
    simp only [Buffer.RowIn, desc] at source target
    rw [copiedLine_eq, copiedLine_eq]
    exact rows_read_apart layout sfits dfits iBelow (by omega) (by omega) (by omega)

theorem counted_bytesused (dfits : dst.Fits dfmt) (planes : dfmt.numPlanes = sfmt.numPlanes)
    {splane dplane : BufRef} {mem : Nat → UInt8} {k : Nat} (inside : k < dst.count) :
    ((copyPlanes src dst sfmt dfmt sfmt.numPlanes 0 splane dplane mem dst.planes).2.getD k {}).bytesused =
      counted dst.count dfmt.numPlanes
        (fun i => copiedRows src sfmt dfmt i * (dfmt.planes i).line) k := by
  rw [copyPlanes_planes, List.getD_eq_getElem?_getD, ← planes, counted_planes dfits.1 dfits.2,
    List.getElem?_eq_getElem inside]
  rfl

theorem showsPicture_iff (layout : Layout src dst) (sfits : src.Fits sfmt) (dfits : dst.Fits dfmt)
    (sknown : src.format = some sfmt) (dknown : dst.format = some dfmt)
    (same : sfmt.format = dfmt.format) (lines : sfmt.byLine) {splane dplane : BufRef} :
    (∀ mem, ShowsPicture mem (copyPlanes src dst sfmt dfmt sfmt.numPlanes 0 splane dplane mem dst.planes).1
        src dst (copyPlanes src dst sfmt dfmt sfmt.numPlanes 0 splane dplane mem dst.planes).2 sfmt dfmt) ↔
      Copyable src dst sfmt dfmt := by
  have planes : dfmt.numPlanes = sfmt.numPlanes := by
    rw [(layout.source_filled sfits sknown).cases.1, (layout.target_filled dfits dknown).cases.1]
    exact congrArg (·.numPlanes) (congrArg pixFmtDescriptors same.symm)
  have used : ∀ mem, (src.shown sfmt).2 ≤ dfmt.height → ∀ i < sfmt.numPlanes, ∀ j,
      (dst.RowIn dfmt 0 (src.shown sfmt).1 (fun k =>
        ((copyPlanes src dst sfmt dfmt sfmt.numPlanes 0 splane dplane mem dst.planes).2.getD k {}).bytesused) i j ↔
      dst.RowIn dfmt 0 (src.shown sfmt).1
        (counted dst.count dfmt.numPlanes fun i =>
          sfmt.desc.rowsOf i (src.shown sfmt).2 * (dfmt.planes i).line) i j) := by
    intro mem low i below j
    unfold Buffer.RowIn
    simp only [counted_bytesused dfits planes (Buffer.place_lt dfits (by omega : i < dfmt.numPlanes)),
      copiedRows, Nat.min_eq_left low]
  constructor
  · intro shows
    obtain ⟨narrow, low, rows⟩ := shows fun _ => 0
    refine ⟨narrow, low, ?_⟩
    intro i below j row
    obtain ⟨room, bytes, _⟩ := rows i below j row
    refine ⟨room, (used _ low i below j).mp bytes, ?_⟩
    -- Where bytes are copied, they are copied from the first one of the row.
    rcases Nat.eq_zero_or_pos (sfmt.desc.lineOf i (src.shown sfmt).1) with blank | long
    · exact .inl blank
    · right
      have start : src.rowAt sfmt i j = src.rowAt sfmt i j + src.shift sfmt i := by
        apply @span_determined UInt8 _ _ _ 0 1 (by decide) long
        intro mem
        rw [← ((shows mem).2.2 i below j row).2.2]
        exact (copyPlanes_shown layout sfits dfits sknown dknown same lines narrow low
          (fun i below j row => (rows i below j row).1) below row).symm
      omega
  · rintro ⟨narrow, low, rows⟩ mem
    refine ⟨narrow, low, ?_⟩
    intro i below j row
    obtain ⟨room, bytes, start⟩ := rows i below j row
    refine ⟨room, (used _ low i below j).mpr bytes, ?_⟩
    rw [copyPlanes_shown layout sfits dfits sknown dknown same lines narrow low
      (fun i below j row => (rows i below j row).1) below row]
    rcases start with blank | zero
    · rw [blank, span_zero, span_zero]
    · rw [zero, Nat.add_zero]

end Picture

end ImxTest.Pitcher
