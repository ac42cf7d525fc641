import ImxTest.Lib.Grid
import ImxTest.Lib.Words

/-! The cropped pictures that mxc_vpu_test saves from a rotated and mirrored frame (dec.c and
transcode.c do the same). -/
namespace ImxTest.Vpu.CropRect
open Lib.Grid Lib.Words

inductive MirDir where
  | MIRDIR_NONE
  | MIRDIR_VER
  | MIRDIR_HOR
  | MIRDIR_HOR_VER
deriving DecidableEq, Repr

structure Decode where
  picwidth : Nat
  picheight : Nat
  rotEn : Bool
  rotAngle : Int
  mirror : MirDir
  picCropRect : Rect
  /-- A motion JPEG of MODE400 -/
  gray : Bool

/-- `mode` -/
def swapMode : (rotAngle : Int) → MirDir → Nat
  | 0, .MIRDIR_NONE => 0
  | 0, .MIRDIR_VER => 5
  | 0, .MIRDIR_HOR => 4
  | 0, .MIRDIR_HOR_VER => 2
  | 90, .MIRDIR_NONE => 3
  | 90, .MIRDIR_VER => 7
  | 90, .MIRDIR_HOR => 6
  | 90, .MIRDIR_HOR_VER => 1
  | 180, .MIRDIR_NONE => 2
  | 180, .MIRDIR_VER => 4
  | 180, .MIRDIR_HOR => 5
  | 180, .MIRDIR_HOR_VER => 0
  | 270, .MIRDIR_NONE => 1
  | 270, .MIRDIR_VER => 6
  | 270, .MIRDIR_HOR => 7
  | 270, .MIRDIR_HOR_VER => 3
  | _, _ => 0

/-- `a - b` of 32 bits without a sign. -/
def less (a b : Nat) : Nat := uint (a - b)

/-- A mode other than these leaves `rotCrop` as it is. -/
def swapCropRect (dec : Decode) (rotCrop : Rect) : Rect :=
  let framebufWidth := dec.picwidth
  let framebufHeight := dec.picheight
  let norCrop := dec.picCropRect
  if norCrop.left ||| norCrop.top ||| norCrop.right ||| norCrop.bottom = 0 then norCrop
  else
    match swapMode dec.rotAngle dec.mirror with
    | 0 =>
      { bottom := norCrop.bottom
        left := norCrop.left
        right := norCrop.right
        top := norCrop.top }
    | 1 =>
      { bottom := less framebufWidth norCrop.left
        left := norCrop.top
        right := norCrop.bottom
        top := less framebufWidth norCrop.right }
    | 2 =>
      { bottom := less framebufHeight norCrop.top
        left := less framebufWidth norCrop.right
        right := less framebufWidth norCrop.left
        top := less framebufHeight norCrop.bottom }
    | 3 =>
      { bottom := norCrop.right
        left := less framebufHeight norCrop.bottom
        right := less framebufHeight norCrop.top
        top := norCrop.left }
    | 4 =>
      { bottom := norCrop.bottom
        left := less framebufWidth norCrop.right
        right := less framebufWidth norCrop.left
        top := norCrop.top }
    | 5 =>
      { bottom := less framebufHeight norCrop.top
        left := norCrop.left
        right := norCrop.right
        top := less framebufHeight norCrop.bottom }
    | 6 =>
      { bottom := norCrop.right
        left := norCrop.top
        right := norCrop.bottom
        top := norCrop.left }
    | 7 =>
      { bottom := less framebufWidth norCrop.left
        left := less framebufHeight norCrop.bottom
        right := less framebufHeight norCrop.top
        top := less framebufWidth norCrop.right }
    | _ => rotCrop

/-- A loop of `fwriten`: `rows` rows of `cols` bytes from `p` on, each `stride` behind the one before. -/
def writeRows (buf : Int → UInt8) (p stride cols rows : Int) : List UInt8 :=
  (List.range rows.toNat).flatMap fun i : Nat =>
    (List.range cols.toNat).map fun x : Nat => buf (p + i * stride + x)

/-- What is written; `buf` is indexed from the buffer on. -/
def saveCropYuvImageHelper (dec : Decode) (buf : Int → UInt8) (cropRect : Rect) : List UInt8 :=
  let turned := dec.rotEn ∧ (dec.rotAngle = 90 ∨ dec.rotAngle = 270)
  let width := if turned then dec.picheight else dec.picwidth
  let height := if turned then dec.picwidth else dec.picheight
  let cropWidth := int (less cropRect.right cropRect.left)
  let cropHeight := int (less cropRect.bottom cropRect.top)
  let luma := writeRows buf (uint (width * cropRect.top : Nat) + cropRect.left) width cropWidth cropHeight
  if dec.gray then luma
  else
    let cropWidth := cropWidth.tdiv 2
    let cropHeight := cropHeight.tdiv 2
    let within := uint (width / 2 * (cropRect.top / 2) : Nat) + cropRect.left / 2
    let area := int (width * height : Nat)
    luma ++ writeRows buf (area + within) (width / 2 : Nat) cropWidth cropHeight ++
      writeRows buf ((int (area * 5)).tdiv 4 + within) (width / 2 : Nat) cropWidth cropHeight

/-! ## What is to be saved -/

/-- A planar picture of 4:2:0. -/
structure Frame where
  y : Cell → UInt8
  u : Cell → UInt8
  v : Cell → UInt8

def mirDir : Mirror → MirDir
  | .none => .MIRDIR_NONE
  | .vertical => .MIRDIR_VER
  | .horizontal => .MIRDIR_HOR
  | .both => .MIRDIR_HOR_VER

/-- The rectangle of the chroma samples. -/
def half (r : Rect) : Rect := ⟨r.left / 2, r.top / 2, r.right / 2, r.bottom / 2⟩

section Specification
variable (w h : Nat) (motion : Motion)

/-- The buffer holds the frame, rotated clockwise and then mirrored. -/
structure HoldsFrame (frame : Frame) (buf : Int → UInt8) : Prop where
  y : ∀ p, Inside w h p → buf (place (motion.width w h) (motion.cell w h p) : Nat) = frame.y p
  u : ∀ p, Inside (w / 2) (h / 2) p →
    buf (w * h + place (motion.width w h / 2) (motion.cell (w / 2) (h / 2) p) : Nat) = frame.u p
  v : ∀ p, Inside (w / 2) (h / 2) p →
    buf (w * h + w / 2 * (h / 2) + place (motion.width w h / 2) (motion.cell (w / 2) (h / 2) p) : Nat) = frame.v p

/-- What is written is a row-by-row list of the moved rectangle's samples, each of them one of the
rectangle. -/
def Images (frame : Frame) (crop rot : Rect) (written : List UInt8) : Prop :=
  ∃ luma chroma : List Cell, luma.map (motion.cell w h) = rot.cells ∧ luma.Perm crop.cells ∧
    chroma.map (motion.cell (w / 2) (h / 2)) = (half rot).cells ∧ chroma.Perm (half crop).cells ∧
    written = luma.map frame.y ++ chroma.map frame.u ++ chroma.map frame.v

def decode (crop : Rect) : Decode where
  picwidth := w
  picheight := h
  rotEn := true
  rotAngle := motion.turn.degrees
  mirror := mirDir motion.mirror
  picCropRect := crop
  gray := false

/-- What is said of a crop rectangle. -/
def SavesImages (crop : Rect) : Prop :=
  ∀ fresh, let rot := swapCropRect (decode w h motion crop) fresh
    rot.Within (motion.width w h) (motion.height w h) ∧
      ∀ frame buf, HoldsFrame w h motion frame buf →
        Images w h motion frame crop rot (saveCropYuvImageHelper (decode w h motion crop) buf rot)

end Specification

structure EvenRect (r : Rect) : Prop where
  left : 2 ∣ r.left
  top : 2 ∣ r.top
  right : 2 ∣ r.right
  bottom : 2 ∣ r.bottom

/-! ## The rectangle -/

variable {w h : Nat} {motion : Motion} {crop : Rect}

theorem less_eq {a b : Nat} (le : b ≤ a) (small : a < 2 ^ 32) : less a b = a - b := by
  unfold less
  rw [← Int.ofNat_sub le, uint_natCast (by omega)]

theorem swapCropRect_eq (wide : w < 2 ^ 31) (high : h < 2 ^ 31) (within : crop.Within w h)
    (some_crop : crop ≠ ⟨0, 0, 0, 0⟩) (fresh : Rect) :
    swapCropRect (decode w h motion crop) fresh = motion.rect w h crop := by
  obtain ⟨turn, mirror⟩ := motion
  obtain ⟨left, top, right, bottom⟩ := crop
  obtain ⟨⟨le, edge⟩, le', edge'⟩ := within
  dsimp only at le edge le' edge'
  have cropped : ¬ left ||| top ||| right ||| bottom = 0 := by
    simpa [Nat.or_eq_zero_iff, and_assoc] using some_crop
  have fromLeft := less_eq (le.trans edge) (by omega : w < 2 ^ 32)
  have fromRight := less_eq edge (by omega : w < 2 ^ 32)
  have fromTop := less_eq (le'.trans edge') (by omega : h < 2 ^ 32)
  have fromBottom := less_eq edge' (by omega : h < 2 ^ 32)
  refine (if_neg cropped).trans ?_
  cases turn <;> cases mirror
  all_goals
    change Rect.mk _ _ _ _ = Rect.mk _ _ _ _
    simp [decode, fromLeft, fromRight, fromTop, fromBottom, Motion.width, Motion.height, Turn.width, Turn.height,
      Turn.rect, Nat.sub_sub_self, edge, edge', le.trans edge, le'.trans edge']

theorem EvenRect.turned (even : EvenRect crop) (turn : Turn) (wide : 2 ∣ w) (high : 2 ∣ h) :
    EvenRect (turn.rect w h crop) ∧ half (turn.rect w h crop) = turn.rect (w / 2) (h / 2) (half crop) := by
  have ⟨left, top, right, bottom⟩ := even
  cases turn
  case none => exact ⟨even, rfl⟩
  all_goals
    refine ⟨⟨?_, ?_, ?_, ?_⟩, ?_⟩
    all_goals
      simp only [Turn.rect, half, Rect.mk.injEq, true_and, and_true]
      omega

theorem EvenRect.mirrored (even : EvenRect crop) (mirror : Mirror) (wide : 2 ∣ w) (high : 2 ∣ h) :
    EvenRect (mirror.rect w h crop) ∧ half (mirror.rect w h crop) = mirror.rect (w / 2) (h / 2) (half crop) := by
  have ⟨left, top, right, bottom⟩ := even
  cases mirror
  case none => exact ⟨even, rfl⟩
  all_goals
    refine ⟨⟨?_, ?_, ?_, ?_⟩, ?_⟩
    all_goals
      simp only [Mirror.rect, half, Rect.mk.injEq, true_and, and_true]
      omega

theorem half_width : motion.width (w / 2) (h / 2) = motion.width w h / 2 := by
  obtain ⟨turn, mirror⟩ := motion
  cases turn <;> rfl

theorem half_height : motion.height (w / 2) (h / 2) = motion.height w h / 2 :=
  @half_width h w motion

theorem width_even (motion : Motion) (wide : 2 ∣ w) (high : 2 ∣ h) : 2 ∣ motion.width w h := by
  obtain ⟨turn, mirror⟩ := motion
  cases turn
  case none | half => exact wide
  case quarter | threeQuarters => exact high

theorem EvenRect.moved (even : EvenRect crop) (wide : 2 ∣ w) (high : 2 ∣ h) :
    EvenRect (motion.rect w h crop) ∧ half (motion.rect w h crop) = motion.rect (w / 2) (h / 2) (half crop) := by
  obtain ⟨turned, same⟩ := even.turned motion.turn wide high
  obtain ⟨moved, same'⟩ := turned.mirrored motion.mirror (width_even motion wide high) (width_even motion high wide)
  refine ⟨moved, same'.trans ?_⟩
  rw [same]
  unfold Motion.rect
  rw [half_width, half_height]
  rfl

/-! ## The writer -/

theorem writeRows_cells (buf : Int → UInt8) (p : Int) (stride : Nat) (r : Rect) :
    writeRows buf p stride (r.right - r.left : Nat) (r.bottom - r.top : Nat) =
      r.cells.map fun q => buf (p - place stride (r.left, r.top) + place stride q) := by
  unfold writeRows Rect.cells
  simp only [Int.toNat_natCast, List.map_flatMap, List.range'_eq_map_range, List.flatMap_map, List.map_map]
  refine List.flatMap_congr fun i _ => List.map_congr_left fun x _ => ?_
  simp only [Function.comp, place]
  congr 1
  push_cast
  ring

theorem decode_turned : ((decode w h motion crop).rotEn = true ∧
    ((decode w h motion crop).rotAngle = 90 ∨ (decode w h motion crop).rotAngle = 270)) ↔
      motion.turn = .quarter ∨ motion.turn = .threeQuarters := by
  obtain ⟨turn, mirror⟩ := motion
  cases turn <;> simp [decode, Turn.degrees]

theorem width_eq : (if motion.turn = .quarter ∨ motion.turn = .threeQuarters then h else w) = motion.width w h := by
  obtain ⟨turn, mirror⟩ := motion
  cases turn <;> rfl

variable {rot : Rect}

theorem less_int {a b n : Nat} (le : b ≤ a) (below : a ≤ n) (small : n < 2 ^ 31) : int (less a b) = (a - b : Nat) := by
  rw [less_eq le (by omega), int_natCast (by omega)]

theorem motion_small (wide : w < 2 ^ 31) (high : h < 2 ^ 31) : motion.width w h < 2 ^ 31 ∧ motion.height w h < 2 ^ 31 := by
  obtain ⟨turn, mirror⟩ := motion
  cases turn
  case none | half => exact ⟨wide, high⟩
  case quarter | threeQuarters => exact ⟨high, wide⟩

/-- What is written, wherever the planes are taken to begin. -/
theorem save_eq (wide : w < 2 ^ 31) (high : h < 2 ^ 31) (even : EvenRect rot)
    (within : rot.Within (motion.width w h) (motion.height w h)) (buf : Int → UInt8) :
    let luma : Int := uint (motion.width w h * rot.top : Nat) + rot.left - place (motion.width w h) (rot.left, rot.top)
    let chroma : Int := uint (motion.width w h / 2 * (rot.top / 2) : Nat) + (rot.left / 2 : Nat) -
      place (motion.width w h / 2) (rot.left / 2, rot.top / 2)
    saveCropYuvImageHelper (decode w h motion crop) buf rot =
      rot.cells.map (fun q => buf (luma + place (motion.width w h) q)) ++
        (half rot).cells.map (fun q => buf (int (w * h : Nat) + chroma + place (motion.width w h / 2) q)) ++
        (half rot).cells.map (fun q => buf ((int (int (w * h : Nat) * 5)).tdiv 4 + chroma +
          place (motion.width w h / 2) q)) := by
  intro luma chroma
  obtain ⟨small, small'⟩ := @motion_small w h motion wide high
  obtain ⟨⟨columns, edge⟩, rows, edge'⟩ := within
  have ⟨left, top, right, bottom⟩ := even
  have cols : int (less rot.right rot.left) = (rot.right - rot.left : Nat) := less_int columns edge small
  have lines : int (less rot.bottom rot.top) = (rot.bottom - rot.top : Nat) := less_int rows edge' small'
  have halfCols : ((rot.right - rot.left : Nat) : Int).tdiv 2 = (rot.right / 2 - rot.left / 2 : Nat) := by
    rw [Int.tdiv_eq_ediv_of_nonneg (by omega)]
    omega
  have halfLines : ((rot.bottom - rot.top : Nat) : Int).tdiv 2 = (rot.bottom / 2 - rot.top / 2 : Nat) := by
    rw [Int.tdiv_eq_ediv_of_nonneg (by omega)]
    omega
  have area : motion.width w h * motion.height w h = w * h := by rw [Nat.mul_comm, motion.area]
  have width' : (if motion.turn = .quarter ∨ motion.turn = .threeQuarters then w else h) = motion.height w h :=
    @width_eq h w motion
  unfold saveCropYuvImageHelper
  simp only [decode_turned]
  simp only [decode, width_eq, width', cols, lines, halfCols, halfLines, area, Bool.false_eq_true, if_false]
  have chromaRows := fun p => writeRows_cells buf p (motion.width w h / 2) (half rot)
  simp only [half] at chromaRows
  rw [writeRows_cells, chromaRows, chromaRows]
  simp only [luma, chroma, half, Int.natCast_add, Int.add_sub_assoc]

/-- All bytes of a frame and their quarters are counted by an `int`. -/
def Counts (w h : Nat) : Prop := 5 * (w * h) < 2 ^ 31

instance : Decidable (Counts w h) := inferInstanceAs (Decidable (_ < _))

theorem quarter_area (wide : 2 ∣ w) (high : 2 ∣ h) : w * h = 4 * (w / 2 * (h / 2)) := by
  obtain ⟨m, rfl⟩ := wide
  obtain ⟨n, rfl⟩ := high
  rw [Nat.mul_div_cancel_left _ (by decide), Nat.mul_div_cancel_left _ (by decide)]
  ring

theorem save_counted (wide : w < 2 ^ 31) (high : h < 2 ^ 31) (wide' : 2 ∣ w) (high' : 2 ∣ h) (even : EvenRect rot)
    (within : rot.Within (motion.width w h) (motion.height w h)) (counts : Counts w h) (buf : Int → UInt8) :
    saveCropYuvImageHelper (decode w h motion crop) buf rot =
      rot.cells.map (fun q => buf (place (motion.width w h) q : Nat)) ++
        (half rot).cells.map (fun q => buf (w * h + place (motion.width w h / 2) q : Nat)) ++
        (half rot).cells.map (fun q => buf (w * h + w / 2 * (h / 2) + place (motion.width w h / 2) q : Nat)) := by
  have area := motion.area (w := w) (h := h)
  have rows : rot.top ≤ motion.height w h := within.2.1.trans within.2.2
  have lumaSmall : motion.width w h * rot.top ≤ w * h := by
    rw [← area, Nat.mul_comm]
    exact Nat.mul_le_mul_right _ rows
  have chromaSmall : motion.width w h / 2 * (rot.top / 2) ≤ motion.width w h * rot.top :=
    Nat.mul_le_mul (Nat.div_le_self ..) (Nat.div_le_self ..)
  have quarter := quarter_area wide' high'
  unfold Counts at counts
  rw [save_eq wide high even within, uint_natCast (by omega), uint_natCast (by omega), int_natCast (by omega)]
  have fifths : (int ((w * h : Nat) * 5)).tdiv 4 = (w * h + w / 2 * (h / 2) : Nat) := by
    rw [int_eq (by omega) (by omega), Int.tdiv_eq_ediv_of_nonneg (by omega)]
    omega
  rw [fifths]
  have luma : ((motion.width w h * rot.top : Nat) : Int) + rot.left - place (motion.width w h) (rot.left, rot.top) = 0 := by
    unfold place
    push_cast
    ring
  have chroma : ((motion.width w h / 2 * (rot.top / 2) : Nat) : Int) + (rot.left / 2 : Nat) -
      place (motion.width w h / 2) (rot.left / 2, rot.top / 2) = 0 := by
    unfold place
    push_cast
    ring
  rw [luma, chroma]
  simp only [Int.zero_add, Int.add_zero, Int.natCast_add]

theorem half_within (within : crop.Within w h) : (half crop).Within (w / 2) (h / 2) := by
  unfold Rect.Within half at *
  dsimp only
  omega

/-- Where the area is counted, the images are written. -/
theorem savesImages_of_counts (wide : w < 2 ^ 31) (high : h < 2 ^ 31) (wide' : 2 ∣ w) (high' : 2 ∣ h)
    (within : crop.Within w h) (even : EvenRect crop) (some_crop : crop ≠ ⟨0, 0, 0, 0⟩) (counts : Counts w h) :
    SavesImages w h motion crop := by
  intro fresh rot
  have same : rot = motion.rect w h crop := swapCropRect_eq wide high within some_crop fresh
  rw [same]
  have moved := motion.rect_within within
  obtain ⟨even', halved⟩ := @EvenRect.moved w h motion _ even wide' high'
  refine ⟨moved, fun frame buf holds => ?_⟩
  obtain ⟨luma, images, part⟩ := motion.exists_cells within
  obtain ⟨chroma, images', part'⟩ := motion.exists_cells (half_within within)
  refine ⟨luma, chroma, images, part, images'.trans (congrArg Rect.cells halved.symm), part', ?_⟩
  have inside (p : Cell) (mem : p ∈ luma) : Inside w h p := (Rect.mem_cells.mp (part.mem_iff.mp mem)).inside within
  have inside' (p : Cell) (mem : p ∈ chroma) : Inside (w / 2) (h / 2) p :=
    (Rect.mem_cells.mp (part'.mem_iff.mp mem)).inside (half_within within)
  rw [save_counted wide high wide' high' even' moved counts, halved, ← images, ← images', List.map_map, List.map_map,
    List.map_map]
  congr 1
  · congr 1
    · exact List.map_congr_left fun p mem => holds.y p (inside p mem)
    · exact List.map_congr_left fun p mem => holds.u p (inside' p mem)
  · exact List.map_congr_left fun p mem => holds.v p (inside' p mem)

def Empty (r : Rect) : Prop := r.left = r.right ∨ r.top = r.bottom

instance : Decidable (Empty crop) := inferInstanceAs (Decidable (_ ∨ _))

theorem cells_empty (empty : Empty crop) : crop.cells = [] := by
  unfold Rect.cells
  rcases empty with same | same <;> simp [same]

/-- Nothing is written of an empty rectangle, in whatever place it is looked for. -/
theorem savesImages_of_empty (wide : w < 2 ^ 31) (high : h < 2 ^ 31) (wide' : 2 ∣ w) (high' : 2 ∣ h)
    (within : crop.Within w h) (even : EvenRect crop) (some_crop : crop ≠ ⟨0, 0, 0, 0⟩) (empty : Empty crop) :
    SavesImages w h motion crop := by
  intro fresh rot
  have same : rot = motion.rect w h crop := swapCropRect_eq wide high within some_crop fresh
  rw [same]
  have moved := motion.rect_within within
  obtain ⟨even', halved⟩ := @EvenRect.moved w h motion _ even wide' high'
  refine ⟨moved, fun frame buf _ => ?_⟩
  have none := cells_empty empty
  have none' : (half crop).cells = [] := cells_empty (empty.imp (congrArg (· / 2)) (congrArg (· / 2)))
  obtain ⟨luma, images, part⟩ := motion.exists_cells within
  obtain ⟨chroma, images', part'⟩ := motion.exists_cells (half_within within)
  rw [none, List.perm_nil] at part
  rw [none', List.perm_nil] at part'
  subst part part'
  rw [← halved] at images'
  refine ⟨[], [], images, by rw [none], images', by rw [none'], ?_⟩
  rw [save_eq wide high even' moved, ← images, ← images']
  rfl

/-- Where the area is not counted, the second chroma plane is taken to begin too early. -/
theorem fifths_low (wide : 2 ∣ w) (high : 2 ∣ h) (beyond : ¬ Counts w h) :
    (int (int (w * h : Nat) * 5)).tdiv 4 < (w * h + w / 2 * (h / 2) : Nat) := by
  have quarter := quarter_area wide high
  have bounds := int_bounds (int (w * h : Nat) * 5)
  have most : (int (int (w * h : Nat) * 5)).tdiv 4 < 2 ^ 29 := by
    rcases Int.le_total 0 (int (int (w * h : Nat) * 5)) with positive | negative
    · rw [Int.tdiv_eq_ediv_of_nonneg positive]
      omega
    · rw [← Int.neg_neg (int _), Int.neg_tdiv, Int.tdiv_eq_ediv_of_nonneg (by omega)]
      omega
  unfold Counts at beyond
  omega

theorem hit {a b : Int} (one : (if a = b then (1 : UInt8) else 0) = 1) : a = b := by
  by_contra elsewhere
  exact absurd ((if_neg elsewhere).symm.trans one) (by decide)

/-- Otherwise the second chroma plane is looked for in front of where it is. -/
theorem counts_of_savesImages (wide : w < 2 ^ 31) (high : h < 2 ^ 31) (wide' : 2 ∣ w) (high' : 2 ∣ h)
    (within : crop.Within w h) (even : EvenRect crop) (some_crop : crop ≠ ⟨0, 0, 0, 0⟩) (filled : ¬ Empty crop)
    (saves : SavesImages w h motion crop) : Counts w h := by
  by_contra beyond
  have same := @swapCropRect_eq w h motion _ wide high within some_crop crop
  have moved := motion.rect_within within
  obtain ⟨even', halved⟩ := @EvenRect.moved w h motion _ even wide' high'
  have written := (saves crop).2
  rw [same] at written
  generalize motion.rect w h crop = rot at *
  let buf (a : Int) : UInt8 :=
    if a = (w * h + w / 2 * (h / 2) + place (motion.width w h / 2) (rot.left / 2, rot.top / 2) : Nat) then 1 else 0
  let frame : Frame :=
    { y := fun p => buf (place (motion.width w h) (motion.cell w h p) : Nat)
      u := fun p => buf (w * h + place (motion.width w h / 2) (motion.cell (w / 2) (h / 2) p) : Nat)
      v := fun p => buf (w * h + w / 2 * (h / 2) + place (motion.width w h / 2) (motion.cell (w / 2) (h / 2) p) : Nat) }
  obtain ⟨luma, chroma, -, -, images, part, out⟩ := written frame buf ⟨fun _ _ => rfl, fun _ _ => rfl, fun _ _ => rfl⟩
  have corner : (rot.left / 2, rot.top / 2) ∈ (half rot).cells := by
    have first : (crop.left / 2, crop.top / 2) ∈ (half crop).cells := by
      have ⟨left, top, right, bottom⟩ := even
      obtain ⟨⟨columns, -⟩, rows, -⟩ := within
      unfold Empty at filled
      refine Rect.mem_cells.mpr ⟨⟨Nat.le_refl _, ?_⟩, Nat.le_refl _, ?_⟩
      all_goals
        dsimp only [half]
        omega
    have seen : motion.cell (w / 2) (h / 2) (crop.left / 2, crop.top / 2) ∈ (half rot).cells := by
      rw [← images]
      exact List.mem_map_of_mem (part.mem_iff.mpr first)
    obtain ⟨⟨low, high⟩, low', high'⟩ := Rect.mem_cells.mp seen
    exact Rect.mem_cells.mpr ⟨⟨Nat.le_refl _, Nat.lt_of_le_of_lt low high⟩, Nat.le_refl _, Nat.lt_of_le_of_lt low' high'⟩
  rw [save_eq wide high even' moved] at out
  have lengths := congrArg List.length images
  rw [List.length_map] at lengths
  have planes := (List.append_inj' out (by rw [List.length_map, List.length_map, lengths])).2
  have places : chroma.map frame.v = (half rot).cells.map fun q =>
      buf (w * h + w / 2 * (h / 2) + place (motion.width w h / 2) q : Nat) := by
    rw [← images, List.map_map]
    rfl
  rw [places, List.map_inj_left] at planes
  have looked := planes _ corner
  have here : buf (w * h + w / 2 * (h / 2) + place (motion.width w h / 2) (rot.left / 2, rot.top / 2) : Nat) = 1 :=
    if_pos rfl
  rw [here] at looked
  have address := hit looked
  have start := fifths_low wide' high' beyond
  have row := uint_mod (motion.width w h / 2 * (rot.top / 2))
  have least := Nat.mod_le (motion.width w h / 2 * (rot.top / 2)) (2 ^ 32)
  have spot : place (motion.width w h / 2) (rot.left / 2, rot.top / 2) =
      motion.width w h / 2 * (rot.top / 2) + rot.left / 2 := by rw [place, Nat.mul_comm]
  omega

/-- Which crops are saved as the images of their samples. -/
theorem savesImages_iff (motion : Motion) (wide : w < 2 ^ 31) (high : h < 2 ^ 31) (wide' : 2 ∣ w) (high' : 2 ∣ h)
    (within : crop.Within w h) (even : EvenRect crop) (some_crop : crop ≠ ⟨0, 0, 0, 0⟩) :
    SavesImages w h motion crop ↔ Counts w h ∨ Empty crop := by
  constructor
  · intro saves
    by_cases empty : Empty crop
    · exact .inr empty
    · exact .inl (counts_of_savesImages wide high wide' high' within even some_crop empty saves)
  · rintro (counts | empty)
    · exact savesImages_of_counts wide high wide' high' within even some_crop counts
    · exact savesImages_of_empty wide high wide' high' within even some_crop empty

theorem savesImages_720 : SavesImages 1280 736 ⟨.quarter, .vertical⟩ ⟨0, 8, 1280, 728⟩ :=
  (savesImages_iff ⟨.quarter, .vertical⟩ (by decide) (by decide) (by decide) (by decide) (by unfold Rect.Within; decide)
    ⟨by decide, by decide, by decide, by decide⟩ (by decide)).mpr (by decide)

/-- A frame so large that five times its samples are more than an `int` counts. -/
theorem savesImages_large : ¬ SavesImages 20736 20736 ⟨.none, .none⟩ ⟨0, 0, 2, 2⟩ := fun saves =>
  absurd (counts_of_savesImages (by decide) (by decide) (by decide) (by decide) (by unfold Rect.Within; decide)
    ⟨by decide, by decide, by decide, by decide⟩ (by decide) (by decide) saves) (by decide)

end ImxTest.Vpu.CropRect
