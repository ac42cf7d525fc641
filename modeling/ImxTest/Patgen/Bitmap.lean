import ImxTest.Lib.Grid
import ImxTest.Lib.Words
import ImxTest.Lib.Writes

/-! The rotation of a pattern by patgen/bitmap.c. -/
namespace ImxTest.Patgen
open Lib.Grid Lib.Words Lib.Writes

def RGB_BUFFER_BYTES : Nat := 4

/-- Allocated memory, in pixels of 32 bits. -/
structure Pixels where
  bytes : Nat
  cells : Int → UInt32

def Pixels.Holds (pixels : Pixels) (i : Int) : Prop := 0 ≤ i ∧ RGB_BUFFER_BYTES * (i + 1) ≤ pixels.bytes

instance (pixels : Pixels) (i : Int) : Decidable (pixels.Holds i) := inferInstanceAs (Decidable (_ ∧ _))

/-- A negative size is a `size_t` that no memory has. -/
def malloc (s : Int) (fresh : Int → UInt32) : Option Pixels :=
  if s < 0 then none else some { bytes := s.toNat, cells := fresh }

/-- `bitmap_t`, as far as `bitmap_rotate_buffer` uses it. -/
structure Bitmap where
  w : Nat
  h : Nat
  stride : Nat
  rotation : Nat
  buffer : Pixels

/-- The bytes that `bitmap_create` asks for, in 32 bits. -/
def bufferBytes (h stride : Nat) : Nat := (h * stride * RGB_BUFFER_BYTES + 1024) % 2 ^ 32

/-- `bitmap_create`, with what the new buffer holds. -/
def bitmapCreate (w h stride rotation : Nat) (fresh : Int → UInt32) : Bitmap :=
  let stride := if w > stride then w else stride
  { w, h, stride, rotation, buffer := { bytes := bufferBytes h stride, cells := fresh } }

inductive Fault where
  | outside
deriving DecidableEq, Repr

/-- `i` -/
def rotateTarget (rotation : Nat) (w h x y : Int) : Int :=
  int <|
    if rotation = 90 then x * h + ((h - 1) - y)
    else if rotation = 180 then ((h - 1) - y) * w + ((w - 1) - x)
    else if rotation = 270 then ((w - 1) - x) * h + y
    else y * w + x

/-- `j` -/
def rotateSource (w x y : Int) : Int := int (y * w + x)

/-- The pairs of `i` and `j` in the order of the loops. -/
def rotateTurns (rotation : Nat) (w h : Int) : List (Int × Int) :=
  (List.range h.toNat).flatMap fun y : Nat =>
    (List.range w.toNat).map fun x : Nat => (rotateTarget rotation w h x y, rotateSource w x y)

/-- `s` -/
def rotateBytes (w h : Int) : Int := int (max h w * max h w * RGB_BUFFER_BYTES + 1024)

/-- The function from the loops on, with `temp_buffer`. -/
def rotateInto (bm : Bitmap) (w h : Int) (temp : Pixels) : Except Fault (Nat × Bitmap) :=
  if ∀ turn ∈ rotateTurns bm.rotation w h, temp.Holds turn.1 ∧ bm.buffer.Holds turn.2 then
    let cells := store temp.cells ((rotateTurns bm.rotation w h).map fun turn => (turn.1, bm.buffer.cells turn.2))
    let bm' := { bm with buffer := { temp with cells } }
    if bm.rotation = 90 ∨ bm.rotation = 270 then
      .ok (0, { bm' with stride := bm.h, w := bm.h, h := bm.w })
    else .ok (0, bm')
  else .error .outside

/-- The function when its `w` and `h` are set. -/
def rotateSized (bm : Bitmap) (w h : Int) (fresh : Int → UInt32) : Except Fault (Nat × Bitmap) :=
  if bm.rotation = 0 then .ok (0, bm)
  else
    match malloc (rotateBytes w h) fresh with
    | none => .ok (1, bm)
    | some temp => rotateInto bm w h temp

/-- What the function returns and the bitmap it leaves behind. -/
def bitmapRotateBuffer (bm : Bitmap) (fresh : Int → UInt32) : Except Fault (Nat × Bitmap) :=
  rotateSized bm (int ↑(max bm.stride bm.w)) (int bm.h) fresh

/-! ## What a rotation is -/

/-- The turn that the angle stands for. Another angle leaves each pixel where it is. -/
def turnOf (rotation : Nat) : Turn :=
  if rotation = 90 then .quarter else if rotation = 180 then .half else if rotation = 270 then .threeQuarters else .none

@[simp] theorem turnOf_degrees (turn : Turn) : turnOf turn.degrees = turn := by cases turn <;> rfl

def Bitmap.pixel (bm : Bitmap) (p : Cell) : UInt32 := bm.buffer.cells (place bm.stride p : Nat)

def Bitmap.Visible (bm : Bitmap) (p : Cell) : Prop := Inside bm.w bm.h p

/-- The visible picture of `bm'` is that of `bm`, turned. -/
structure Rotated (turn : Turn) (bm bm' : Bitmap) : Prop where
  width : bm'.w = turn.width bm.w bm.h
  height : bm'.h = turn.height bm.w bm.h
  narrow : bm'.w ≤ bm'.stride
  pixels : ∀ p, bm.Visible p → bm'.pixel (turn.cell bm.w bm.h p) = bm.pixel p

/-- The same picture is to be seen. -/
structure SamePicture (bm bm' : Bitmap) : Prop where
  size : bm'.w = bm.w ∧ bm'.h = bm.h
  pixels : ∀ p, bm.Visible p → bm'.pixel p = bm.pixel p

/-- A bitmap whose sizes are those of an `int`, and whose buffer has all its lines where that is
a number of 32 bits. -/
structure Bitmap.Sound (bm : Bitmap) : Prop where
  narrow : bm.w ≤ bm.stride
  stride : bm.stride < 2 ^ 31
  height : bm.h < 2 ^ 31
  room : bm.h * bm.stride * RGB_BUFFER_BYTES < 2 ^ 31 → bm.h * bm.stride * RGB_BUFFER_BYTES ≤ bm.buffer.bytes
  bytes : bm.buffer.bytes < 2 ^ 32

/-- The bitmap with other pixels in its buffer, to be rotated by `turn`. -/
def Bitmap.holding (bm : Bitmap) (turn : Turn) (cells : Int → UInt32) : Bitmap :=
  { bm with rotation := turn.degrees, buffer := { bm.buffer with cells } }

/-- The memory asked for has room for the lines. -/
def Allocates (h stride : Nat) : Prop :=
  (h * stride * RGB_BUFFER_BYTES : Nat) ≤ rotateBytes stride h ∧ 0 ≤ rotateBytes stride h

instance (h stride : Nat) : Decidable (Allocates h stride) := inferInstanceAs (Decidable (_ ∧ _))

theorem bitmapCreate_sound {w h stride rotation : Nat} {fresh : Int → UInt32} (wide : w < 2 ^ 31)
    (long : stride < 2 ^ 31) (high : h < 2 ^ 31) : (bitmapCreate w h stride rotation fresh).Sound := by
  unfold bitmapCreate
  dsimp only
  constructor
  · dsimp only
    split <;> omega
  · dsimp only
    split <;> omega
  · exact high
  · intro small
    simp only [bufferBytes] at small ⊢
    omega
  · exact Nat.mod_lt _ (by decide)

/-! ## The loops -/

section Loops
variable {turn : Turn} {rotation w h x y k : Nat} {pixels buffer temp : Pixels}

theorem rotateTarget_eq (rotation : Nat) (left : x < w) (low : y < h) : rotateTarget rotation w h x y =
    int (place ((turnOf rotation).width w h) ((turnOf rotation).cell w h (x, y)) : Nat) := by
  unfold rotateTarget turnOf
  congr 1
  split_ifs with quarter half three
  · simp only [place, Turn.width, Turn.cell]
    push_cast [Nat.sub_sub, Nat.cast_sub (show 1 + y ≤ h by omega)]
    ring
  · simp only [place, Turn.width, Turn.cell]
    push_cast [Nat.sub_sub, Nat.cast_sub (show 1 + y ≤ h by omega), Nat.cast_sub (show 1 + x ≤ w by omega)]
    ring
  · simp only [place, Turn.width, Turn.cell]
    push_cast [Nat.sub_sub, Nat.cast_sub (show 1 + x ≤ w by omega)]
    ring
  · simp only [place, Turn.width, Turn.cell]
    push_cast
    rfl

theorem rotateSource_eq : rotateSource w x y = int (place w (x, y) : Nat) := by
  unfold rotateSource place
  push_cast
  rfl

theorem mem_rotateTurns {i j : Int} (angle : turnOf rotation = turn) : (i, j) ∈ rotateTurns rotation w h ↔
    ∃ p, Inside w h p ∧ i = int (place (turn.width w h) (turn.cell w h p) : Nat) ∧ j = int (place w p : Nat) := by
  subst angle
  simp only [rotateTurns, Int.toNat_natCast, List.mem_flatMap, List.mem_map, List.mem_range, Prod.mk.injEq,
    Prod.exists, Inside]
  constructor
  · rintro ⟨y, low, x, left, rfl, rfl⟩
    exact ⟨x, y, ⟨left, low⟩, rotateTarget_eq rotation left low, rotateSource_eq⟩
  · rintro ⟨x, y, ⟨left, low⟩, rfl, rfl⟩
    exact ⟨y, low, x, left, rotateTarget_eq rotation left low, rotateSource_eq⟩

theorem holds_iff (small : k < 2 ^ 31) : pixels.Holds (int k) ↔ RGB_BUFFER_BYTES * (k + 1) ≤ pixels.bytes := by
  rw [int_natCast small]
  unfold Pixels.Holds RGB_BUFFER_BYTES
  omega

/-- Numbers given without a gap: a buffer holds them all when it has room for so many. -/
theorem all_hold_iff {number : Cell → Nat} (each : ∀ k, (∃ p, Inside w h p ∧ number p = k) ↔ k < w * h)
    (bytes : pixels.bytes < 2 ^ 32) :
    (∀ p, Inside w h p → pixels.Holds (int (number p))) ↔ h * w * RGB_BUFFER_BYTES ≤ pixels.bytes := by
  rw [Nat.mul_comm h w]
  constructor
  · intro held
    by_contra short
    unfold RGB_BUFFER_BYTES at short
    -- the first pixel behind the buffer
    obtain ⟨p, inside, first⟩ := (each (pixels.bytes / RGB_BUFFER_BYTES)).mpr (by unfold RGB_BUFFER_BYTES; omega)
    have held := held p inside
    rw [first, holds_iff (by unfold RGB_BUFFER_BYTES; omega)] at held
    unfold RGB_BUFFER_BYTES at held
    omega
  · intro room p inside
    have low := (each (number p)).mp ⟨p, inside, rfl⟩
    unfold RGB_BUFFER_BYTES at room
    rw [holds_iff (by omega)]
    unfold RGB_BUFFER_BYTES
    omega

theorem exists_source : (∃ p, Inside w h p ∧ place w p = k) ↔ k < w * h := by
  rw [Nat.mul_comm]
  exact ⟨fun ⟨p, inside, same⟩ => same ▸ place_lt inside, exists_place⟩

theorem exists_target (turn : Turn) :
    (∃ p, Inside w h p ∧ place (turn.width w h) (turn.cell w h p) = k) ↔ k < w * h := by
  rw [← turn.area]
  refine ⟨fun ⟨p, inside, same⟩ => same ▸ place_lt (turn.inside inside), fun low => ?_⟩
  obtain ⟨q, inside, rfl⟩ := exists_place low
  obtain ⟨p, within, rfl⟩ := turn.exists_cell inside
  exact ⟨p, within, rfl⟩

/-- The accesses stay inside both buffers when these have room for the lines. -/
theorem turns_hold_iff (angle : turnOf rotation = turn) (fresh : temp.bytes < 2 ^ 32) (bytes : buffer.bytes < 2 ^ 32) :
    (∀ t ∈ rotateTurns rotation w h, temp.Holds t.1 ∧ buffer.Holds t.2) ↔
      h * w * RGB_BUFFER_BYTES ≤ temp.bytes ∧ h * w * RGB_BUFFER_BYTES ≤ buffer.bytes := by
  rw [← all_hold_iff (fun k => exists_source) bytes,
    ← all_hold_iff (fun k => exists_target turn) fresh, ← forall₂_and]
  constructor
  · intro held p inside
    exact held _ ((mem_rotateTurns angle).mpr ⟨p, inside, rfl, rfl⟩)
  · rintro held ⟨i, j⟩ mem
    obtain ⟨p, inside, rfl, rfl⟩ := (mem_rotateTurns angle).mp mem
    exact held p inside

end Loops

/-! ## What the function does -/

theorem rotateBytes_lt {w h : Int} : rotateBytes w h < 2 ^ 31 := (int_bounds _).2

section Call
variable {bm bm' : Bitmap} {turn : Turn} {fresh : Int → UInt32}

/-- The bitmap that is left behind. -/
def Bitmap.rotated (bm : Bitmap) (turn : Turn) (fresh : Int → UInt32) : Bitmap where
  w := turn.width bm.w bm.h
  h := turn.height bm.w bm.h
  stride := turn.width bm.stride bm.h
  rotation := bm.rotation
  buffer :=
    { bytes := (rotateBytes bm.stride bm.h).toNat
      cells := store fresh ((rotateTurns bm.rotation bm.stride bm.h).map fun t => (t.1, bm.buffer.cells t.2)) }

theorem rotate_failed (sound : bm.Sound) (turning : bm.rotation ≠ 0) (failed : rotateBytes bm.stride bm.h < 0) :
    bitmapRotateBuffer bm fresh = .ok (1, bm) := by
  have columns : int ↑(max bm.stride bm.w) = bm.stride := by
    rw [max_eq_left sound.narrow, int_natCast sound.stride]
  unfold bitmapRotateBuffer rotateSized
  rw [columns, int_natCast sound.height, if_neg turning]
  unfold malloc
  rw [if_pos failed]

/-- With memory, the turn is made when both buffers have room for the lines. -/
theorem rotate_eq (sound : bm.Sound) (angle : turnOf bm.rotation = turn) (turning : bm.rotation ≠ 0)
    (memory : 0 ≤ rotateBytes bm.stride bm.h) : bitmapRotateBuffer bm fresh =
      if Allocates bm.h bm.stride ∧ bm.h * bm.stride * RGB_BUFFER_BYTES ≤ bm.buffer.bytes then
        .ok (0, bm.rotated turn fresh)
      else .error .outside := by
  have columns : int ↑(max bm.stride bm.w) = bm.stride := by
    rw [max_eq_left sound.narrow, int_natCast sound.stride]
  have small : (rotateBytes bm.stride bm.h).toNat < 2 ^ 32 := by
    have bound := rotateBytes_lt (w := bm.stride) (h := bm.h)
    omega
  have inside := @turns_hold_iff turn bm.rotation bm.stride bm.h bm.buffer ⟨(rotateBytes bm.stride bm.h).toNat, fresh⟩
    angle small sound.bytes
  have allocates : bm.h * bm.stride * RGB_BUFFER_BYTES ≤ (rotateBytes bm.stride bm.h).toNat ↔
      Allocates bm.h bm.stride := by
    unfold Allocates
    omega
  dsimp only at inside
  rw [allocates] at inside
  unfold bitmapRotateBuffer rotateSized
  rw [columns, int_natCast sound.height, if_neg turning]
  unfold malloc
  rw [if_neg (not_lt.mpr memory)]
  dsimp only
  unfold rotateInto
  by_cases held : ∀ t ∈ rotateTurns bm.rotation bm.stride bm.h,
      (⟨(rotateBytes bm.stride bm.h).toNat, fresh⟩ : Pixels).Holds t.1 ∧ bm.buffer.Holds t.2
  · rw [if_pos held, if_pos (inside.mp held)]
    subst angle
    unfold Bitmap.rotated turnOf
    split_ifs <;> simp_all [Turn.width, Turn.height]
  · rw [if_neg held, if_neg fun room => held (inside.mpr room)]

theorem rotate_ok_iff (moves : turn ≠ .none) (sound : bm.Sound) (angle : bm.rotation = turn.degrees) :
    bitmapRotateBuffer bm fresh = .ok (0, bm') ↔
      (Allocates bm.h bm.stride ∧ bm.h * bm.stride * RGB_BUFFER_BYTES ≤ bm.buffer.bytes) ∧
        bm' = bm.rotated turn fresh := by
  have turning : bm.rotation ≠ 0 := by
    rw [angle]
    cases turn with
    | none => exact absurd rfl moves
    | quarter | half | threeQuarters => decide
  by_cases failed : rotateBytes bm.stride bm.h < 0
  · rw [rotate_failed sound turning failed]
    refine iff_of_false (by simp) fun both => ?_
    exact absurd both.1.1.2 (not_le.mpr failed)
  · rw [rotate_eq sound (by rw [angle, turnOf_degrees]) turning (not_lt.mp failed)]
    by_cases room : Allocates bm.h bm.stride ∧ bm.h * bm.stride * RGB_BUFFER_BYTES ≤ bm.buffer.bytes
    · rw [if_pos room, and_iff_right room]
      simp [eq_comm]
    · rw [if_neg room]
      exact iff_of_false (by simp) fun both => room both.1

theorem Allocates.small {h stride : Nat} (allocates : Allocates h stride) :
    h * stride * RGB_BUFFER_BYTES < 2 ^ 31 := by
  have room := allocates.1.trans_lt rotateBytes_lt
  omega

/-- Each pixel of a line, the padding included, is put where the turn of the whole lines has it. -/
theorem rotated_pixel (angle : turnOf bm.rotation = turn) (allocates : Allocates bm.h bm.stride) {p : Cell} (inside : Inside bm.stride bm.h p) :
    (bm.rotated turn fresh).pixel (turn.cell bm.stride bm.h p) = bm.pixel p := by
  have small := allocates.small
  unfold RGB_BUFFER_BYTES at small
  have source (p : Cell) (inside : Inside bm.stride bm.h p) :
      int (place bm.stride p : Nat) = (place bm.stride p : Nat) :=
    int_natCast (by have low := place_lt inside; omega)
  have target (p : Cell) (inside : Inside bm.stride bm.h p) :
      int (place (turn.width bm.stride bm.h) (turn.cell bm.stride bm.h p) : Nat) =
        (place (turn.width bm.stride bm.h) (turn.cell bm.stride bm.h p) : Nat) := by
    have low := place_lt (turn.inside inside)
    rw [turn.area, Nat.mul_comm] at low
    exact int_natCast (by omega)
  unfold Bitmap.pixel Bitmap.rotated
  dsimp only
  apply store_all
  · refine List.mem_map.mpr ⟨_, (mem_rotateTurns angle).mpr ⟨p, inside, rfl, rfl⟩, ?_⟩
    rw [target p inside, source p inside]
  · intro pixel mem
    obtain ⟨⟨i, j⟩, turns, same⟩ := List.mem_map.mp mem
    obtain ⟨q, within, rfl, rfl⟩ := (mem_rotateTurns angle).mp turns
    rw [target q within, source q within, Prod.mk.injEq] at same
    obtain ⟨place_, rfl⟩ := same
    obtain rfl := (turn.cell_inj within inside).mp
      ((place_inj (turn.inside within).1 (turn.inside inside).1).mp (Int.ofNat.inj place_))
    rfl

/-- The lines hold nothing but the picture, or a turn leaves their ends where they are. -/
def Turns (bm : Bitmap) (turn : Turn) : Prop := turn = .quarter ∨ bm.stride = bm.w ∨ bm.w = 0 ∨ bm.h = 0

instance (bm : Bitmap) (turn : Turn) : Decidable (Turns bm turn) := inferInstanceAs (Decidable (_ ∨ _))

theorem rotated_right (fresh : Int → UInt32) (sound : bm.Sound) (angle : bm.rotation = turn.degrees)
    (allocates : Allocates bm.h bm.stride) (turns : Turns bm turn) : Rotated turn bm (bm.rotated turn fresh) := by
  constructor
  · rfl
  · rfl
  · have narrow := sound.narrow
    cases turn with
    | none | half => exact narrow
    | quarter | threeQuarters => exact le_rfl
  · intro p visible
    have inside : Inside bm.stride bm.h p := ⟨visible.1.trans_le sound.narrow, visible.2⟩
    have same : turn.cell bm.w bm.h p = turn.cell bm.stride bm.h p := by
      rcases turns with rfl | tight | empty | empty
      · rfl
      · rw [tight]
      · exact absurd visible.1 (by omega)
      · exact absurd visible.2 (by omega)
    rw [same]
    exact rotated_pixel (by rw [angle, turnOf_degrees]) allocates inside

end Call

/-! ## Turning once and twice -/

section Exact
variable {bm : Bitmap} {turn : Turn}

theorem Bitmap.Sound.holding (sound : bm.Sound) (turn : Turn) (cells : Int → UInt32) :
    (bm.holding turn cells).Sound :=
  ⟨sound.narrow, sound.stride, sound.height, sound.room, sound.bytes⟩

theorem Bitmap.Sound.angle (sound : bm.Sound) (rotation : Nat) : ({ bm with rotation } : Bitmap).Sound :=
  ⟨sound.narrow, sound.stride, sound.height, sound.room, sound.bytes⟩

/-- The bitmap is rotated, whatever is in its lines and in the memory allocated. -/
def RotatesRight (bm : Bitmap) (turn : Turn) : Prop :=
  ∀ cells fresh, ∃ bm', bitmapRotateBuffer (bm.holding turn cells) fresh = .ok (0, bm') ∧
    Rotated turn (bm.holding turn cells) bm'

/-- With padding behind the picture, the last columns of a half turn or of three quarters come from
the padding. -/
theorem padded_wrong (moves : turn ≠ .none) (sound : bm.Sound) (allocates : Allocates bm.h bm.stride)
    (padded : ¬Turns bm turn) : ∃ cells, ∀ fresh,
      ¬Rotated turn (bm.holding turn cells) ((bm.holding turn cells).rotated turn fresh) := by
  refine ⟨fun k => if k = 0 then 1 else 0, fun fresh rotated => ?_⟩
  simp only [Turns, not_or] at padded
  obtain ⟨quarter, loose, wide, high⟩ := padded
  have narrow := sound.narrow
  have inside : Inside bm.stride bm.h (bm.stride - bm.w, 0) := ⟨by dsimp only; omega, by dsimp only; omega⟩
  have shown := rotated.pixels (0, 0) ⟨Nat.pos_of_ne_zero wide, Nat.pos_of_ne_zero high⟩
  have stored := @rotated_pixel (bm.holding turn fun k => if k = 0 then 1 else 0) turn fresh (turnOf_degrees turn) allocates _
    inside
  have same : turn.cell bm.stride bm.h (bm.stride - bm.w, 0) = turn.cell bm.w bm.h (0, 0) := by
    cases turn with
    | none => exact absurd rfl moves
    | quarter => exact absurd rfl quarter
    | half | threeQuarters => simp only [Turn.cell, Prod.mk.injEq, true_and, and_true]; omega
  have clash := (congrArg _ same.symm).trans stored |>.symm.trans shown
  simp [Bitmap.pixel, Bitmap.holding, place] at clash
  omega

theorem rotatesRight_iff (moves : turn ≠ .none) (sound : bm.Sound) :
    RotatesRight bm turn ↔ Allocates bm.h bm.stride ∧ Turns bm turn := by
  constructor
  · intro right
    obtain ⟨_, ok, -⟩ := right bm.buffer.cells bm.buffer.cells
    have allocates := ((rotate_ok_iff moves (sound.holding ..) rfl).mp ok).1.1
    refine ⟨allocates, by_contra fun padded => ?_⟩
    obtain ⟨cells, wrong⟩ := padded_wrong moves sound allocates padded
    obtain ⟨bm', ok, rotated⟩ := right cells cells
    obtain rfl := ((rotate_ok_iff moves (sound.holding ..) rfl).mp ok).2
    exact wrong _ rotated
  · rintro ⟨allocates, turns⟩ cells fresh
    refine ⟨_, (rotate_ok_iff moves (sound.holding ..) rfl).mpr ⟨⟨allocates, sound.room allocates.small⟩, rfl⟩, ?_⟩
    exact rotated_right fresh (sound.holding ..) rfl allocates turns

/-- A bitmap turned by a quarter has no padding. -/
theorem Bitmap.Sound.quarter (sound : bm.Sound) (allocates : Allocates bm.h bm.stride) (fresh : Int → UInt32) :
    (bm.rotated .quarter fresh).Sound := by
  have bound := rotateBytes_lt (w := bm.stride) (h := bm.h)
  have room := allocates.1
  have lines : bm.h * bm.w ≤ bm.h * bm.stride := Nat.mul_le_mul_left _ sound.narrow
  constructor
  · exact le_rfl
  · exact sound.height
  · exact sound.narrow.trans_lt sound.stride
  · intro
    simp only [Bitmap.rotated, Turn.width, Turn.height, RGB_BUFFER_BYTES, Nat.mul_comm bm.w] at room ⊢
    omega
  · simp only [Bitmap.rotated]
    omega

/-- A quarter turn, and then another turn of what it leaves. -/
def QuarterThen (bm : Bitmap) (turn : Turn) (cells fresh fresh' : Int → UInt32) (bm' : Bitmap) : Prop :=
  ∃ once, bitmapRotateBuffer (bm.holding .quarter cells) fresh = .ok (0, once) ∧
    bitmapRotateBuffer { once with rotation := turn.degrees } fresh' = .ok (0, bm')

theorem quarterThen_iff (moves : turn ≠ .none) (sound : bm.Sound) {cells fresh fresh' : Int → UInt32}
    {bm' : Bitmap} : QuarterThen bm turn cells fresh fresh' bm' ↔
      (Allocates bm.h bm.stride ∧ Allocates bm.w bm.h) ∧
        bm' = ({ (bm.holding .quarter cells).rotated .quarter fresh with
          rotation := turn.degrees } : Bitmap).rotated turn fresh' := by
  have first {bm' : Bitmap} := @rotate_ok_iff (bm.holding .quarter cells) bm' .quarter fresh (by decide)
    (sound.holding ..) rfl
  unfold QuarterThen
  constructor
  · rintro ⟨once, ok, again⟩
    obtain ⟨⟨allocates, -⟩, rfl⟩ := first.mp ok
    have quarter := ((sound.holding .quarter cells).quarter allocates fresh).angle turn.degrees
    obtain ⟨⟨room, -⟩, same⟩ := (rotate_ok_iff moves quarter rfl).mp again
    exact ⟨⟨allocates, room⟩, same⟩
  · rintro ⟨⟨allocates, room⟩, rfl⟩
    have quarter := ((sound.holding .quarter cells).quarter allocates fresh).angle turn.degrees
    refine ⟨_, first.mpr ⟨⟨allocates, sound.room allocates.small⟩, rfl⟩, ?_⟩
    exact (rotate_ok_iff moves quarter rfl).mpr ⟨⟨room, quarter.room room.small⟩, rfl⟩

/-- Each visible pixel is where the two turns take it. -/
theorem QuarterThen.pixels (moves : turn ≠ .none) (sound : bm.Sound) {cells fresh fresh' : Int → UInt32}
    {bm' : Bitmap} (then_ : QuarterThen bm turn cells fresh fresh' bm') {p : Cell} (visible : bm.Visible p) :
    bm'.pixel (turn.cell bm.h bm.w (Turn.cell bm.w bm.h p .quarter)) = (bm.holding .quarter cells).pixel p := by
  obtain ⟨⟨allocates, room⟩, rfl⟩ := (quarterThen_iff moves sound).mp then_
  have first := rotated_right fresh (sound.holding .quarter cells) rfl allocates (.inl rfl)
  have quarter := ((sound.holding .quarter cells).quarter allocates fresh).angle turn.degrees
  have second := rotated_right fresh' quarter rfl room (.inr (.inl rfl))
  refine (second.pixels _ ?_).trans (first.pixels p visible)
  exact Turn.quarter.inside visible

/-- A quarter turn and then three quarters bring the picture back. -/
def Restores (bm : Bitmap) : Prop :=
  ∀ cells fresh fresh', ∃ bm', QuarterThen bm .threeQuarters cells fresh fresh' bm' ∧
    SamePicture (bm.holding .quarter cells) bm'

theorem restores_iff (sound : bm.Sound) :
    Restores bm ↔ Allocates bm.h bm.stride ∧ Allocates bm.w bm.h := by
  constructor
  · intro restores
    obtain ⟨_, then_, -⟩ := restores bm.buffer.cells bm.buffer.cells bm.buffer.cells
    exact ((quarterThen_iff (by decide) sound).mp then_).1
  · intro rooms cells fresh fresh'
    have then_ := (@quarterThen_iff bm .threeQuarters (by decide) sound cells fresh fresh' _).mpr ⟨rooms, rfl⟩
    refine ⟨_, then_, ⟨rfl, rfl⟩, fun p visible => ?_⟩
    have pixels := then_.pixels (by decide) sound visible
    rwa [quarter_back (w := bm.w) (h := bm.h) visible] at pixels

/-- Two quarter turns make the picture of a half turn. -/
def QuartersAreHalf (bm : Bitmap) : Prop :=
  ∀ cells fresh fresh', ∃ twice half, QuarterThen bm .quarter cells fresh fresh' twice ∧
    bitmapRotateBuffer (bm.holding .half cells) fresh = .ok (0, half) ∧ SamePicture half twice

theorem quartersAreHalf_iff (sound : bm.Sound) : QuartersAreHalf bm ↔
    (Allocates bm.h bm.stride ∧ Allocates bm.w bm.h) ∧ Turns bm .half := by
  constructor
  · intro same
    obtain ⟨_, _, then_, -⟩ := same bm.buffer.cells bm.buffer.cells bm.buffer.cells
    have rooms := ((quarterThen_iff (by decide) sound).mp then_).1
    refine ⟨rooms, ((rotatesRight_iff (by decide) sound).mp fun cells fresh => ?_).2⟩
    obtain ⟨twice, half, then_, ok, same⟩ := same cells fresh fresh
    obtain rfl := ((rotate_ok_iff (by decide) (sound.holding ..) rfl).mp ok).2
    refine ⟨_, ok, rfl, rfl, sound.narrow, fun p visible => ?_⟩
    exact (same.pixels _ (Turn.half.inside visible)).symm.trans (then_.pixels (by decide) sound visible)
  · rintro ⟨rooms, turns⟩ cells fresh fresh'
    have then_ := (@quarterThen_iff bm .quarter (by decide) sound cells fresh fresh' _).mpr ⟨rooms, rfl⟩
    obtain ⟨half, ok, rotated⟩ := (rotatesRight_iff (by decide) sound).mpr ⟨rooms.1, turns⟩ cells fresh
    obtain rfl := ((rotate_ok_iff (by decide) (sound.holding ..) rfl).mp ok).2
    refine ⟨_, _, then_, ok, ⟨rfl, rfl⟩, fun q visible => ?_⟩
    obtain ⟨p, inside, rfl⟩ := Turn.half.exists_cell visible
    exact (then_.pixels (by decide) sound inside).trans (rotated.pixels p inside).symm

/-- A picture is rotated right by a quarter wherever memory for it is allocated; by a half or by
three quarters only where its lines have no padding. -/
theorem bitmapRotateBuffer_iff (bm : Bitmap) (sound : bm.Sound) :
    (∀ turn ≠ .none, RotatesRight bm turn ↔ Allocates bm.h bm.stride ∧ Turns bm turn) ∧
      (Restores bm ↔ Allocates bm.h bm.stride ∧ Allocates bm.w bm.h) ∧
      (QuartersAreHalf bm ↔ (Allocates bm.h bm.stride ∧ Allocates bm.w bm.h) ∧ Turns bm .half) :=
  ⟨fun _ moves => rotatesRight_iff moves sound, restores_iff sound, quartersAreHalf_iff sound⟩

theorem bitmapRotateBuffer_tight :
    (∀ turn ≠ .none, RotatesRight (bitmapCreate 3 2 3 90 fun _ => 0) turn) ∧
      Restores (bitmapCreate 3 2 3 90 fun _ => 0) ∧ QuartersAreHalf (bitmapCreate 3 2 3 90 fun _ => 0) := by
  have rooms : Allocates 2 3 ∧ Allocates 3 2 := by decide +kernel
  obtain ⟨turns, back, twice⟩ := bitmapRotateBuffer_iff (bitmapCreate 3 2 3 90 fun _ => 0)
    (bitmapCreate_sound (by decide) (by decide) (by decide))
  exact ⟨fun turn moves => (turns turn moves).mpr ⟨rooms.1, .inr (.inl rfl)⟩, back.mpr rooms,
    twice.mpr ⟨rooms, .inr (.inl rfl)⟩⟩

/-- One pixel in a line of two. -/
theorem bitmapRotateBuffer_padded : ¬RotatesRight (bitmapCreate 1 1 2 180 fun _ => 0) .half := by
  rw [rotatesRight_iff (by decide) (bitmapCreate_sound (by decide) (by decide) (by decide))]
  decide +kernel

end Exact

end ImxTest.Patgen
