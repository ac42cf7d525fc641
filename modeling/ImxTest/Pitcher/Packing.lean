import ImxTest.Pitcher.Convert

/-! Which samples of a picture the packers and unpackers put where. -/
namespace ImxTest.Pitcher.Convert
open Lib.Writes

/-! ## Where samples are taken from -/

section Takes
variable (w h : Nat)

/-- The samples of a picture with a plane of luma and one of chroma pairs. -/
def Shown : Cell → Prop
  | (0, y, x) => y < h ∧ x < w
  | (1, y, x) => y < halfUp h ∧ x < halfUp w * 2
  | _ => False

def takesPlanar : Cell → Option Cell
  | (0, y, x) => if y < h ∧ x < w then some (0, y, x) else none
  | (1, y, x) => if y < halfUp h ∧ x < halfUp w then some (1, y, x * 2) else none
  | (2, y, x) => if y < halfUp h ∧ x < halfUp w then some (1, y, x * 2 + 1) else none
  | _ => none

/-- Three planes, of which the last two become pairs. -/
def takesPairs : Cell → Option Cell
  | (0, y, x) => if y < h ∧ x < w then some (0, y, x) else none
  | (1, y, x) =>
    if y < halfUp h ∧ x < halfUp w * 2 then
      some (if x % 2 = 0 then (1, y, x / 2) else (2, y, x / 2))
    else none
  | _ => none

def takesSwapped : Cell → Option Cell
  | (0, y, x) => if y < h ∧ x < w then some (0, y, x) else none
  | (1, y, x) =>
    if y < halfUp h ∧ x < halfUp w * 2 then
      some (if x % 2 = 0 then (1, y, x / 2 * 2 + 1) else (1, y, x / 2 * 2))
    else none
  | _ => none

def takesPlanes : Cell → Option Cell
  | (0, y, x) => if y < h ∧ x < w then some (0, y, x) else none
  | (1, y, x) => if y < halfUp h ∧ x < w then some (1, y, x) else none
  | _ => none

def takesGray : Cell → Option Cell
  | (0, y, x) => if y < h ∧ x < w then some (0, y, x) else none
  | _ => none

def takesYuyv : Cell → Option Cell
  | (0, y, x) =>
    if y < h ∧ x < w * 2 then some (if x % 2 = 0 then (0, y, x / 2) else (1, y / 2, x / 2)) else none
  | _ => none

def takesYuv24 : Cell → Option Cell
  | (0, y, x) =>
    if y < h ∧ x < w * 3 then
      some (if x % 3 = 0 then (0, y, x / 3) else (1, y / 2, x / 3 / 2 * 2 + (x % 3 - 1)))
    else none
  | _ => none

end Takes

section Loops
variable {n p y x : Nat} {body : Nat → Writes} {write : Cell × UInt16} {f : UInt16 → UInt16}
  {src : Picture} {samples : Samples} {c : Cell} {v : UInt16}

theorem mem_each : write ∈ each n body ↔ ∃ i < n, write ∈ body i := by
  simp [each]

theorem mem_copyLine : (c, v) ∈ copyLine f samples p y n ↔
    ∃ x < n, c = (p, y, x) ∧ v = f (samples (p, y, x)) := by
  simp [copyLine, mem_each]

theorem mem_when {cond : Prop} [Decidable cond] {writes : Writes} :
    write ∈ (if cond then writes else []) ↔ cond ∧ write ∈ writes := by
  split <;> simp [*]

theorem halfUp_le : halfUp n ≤ n := by
  unfold halfUp
  omega

/-- A writer that copies the luma, and in the first half of the lines writes the
chroma of one line each. -/
theorem lines_gathers {w h : Nat} {takes : Cell → Option Cell} {chroma : Nat → Writes}
    (luma : ∀ y x, takes (0, y, x) = if y < h ∧ x < w then some (0, y, x) else none)
    (half : ∀ p y x s, p ≠ 0 → takes (p, y, x) = some s → y < halfUp h)
    (lines : ∀ y < halfUp h, ∀ p z x v, ((p, z, x), v) ∈ chroma y ↔
      p ≠ 0 ∧ z = y ∧ ∃ s, takes (p, y, x) = some s ∧ v = f (samples s)) :
    Gathers (each h fun y => copyLine f samples 0 y w ++ if y < halfUp h then chroma y else [])
      takes (f ∘ samples) := by
  rintro ⟨p, y, x⟩ v
  simp only [mem_each, List.mem_append, mem_copyLine, mem_when, Prod.mk.injEq]
  constructor
  · rintro ⟨z, low, ⟨x, inside, ⟨rfl, rfl, rfl⟩, rfl⟩ | ⟨upper, written⟩⟩
    · exact ⟨(0, y, x), by rw [luma, if_pos ⟨low, inside⟩], rfl⟩
    · obtain ⟨-, rfl, s, taken, rfl⟩ := (lines z upper p y x v).mp written
      exact ⟨s, taken, rfl⟩
  · rintro ⟨s, taken, rfl⟩
    by_cases plane : p = 0
    · subst plane
      rw [luma] at taken
      obtain ⟨⟨low, inside⟩, same⟩ := Option.ite_none_right_eq_some.mp taken
      cases same
      exact ⟨y, low, .inl ⟨x, inside, ⟨rfl, rfl, rfl⟩, rfl⟩⟩
    · have upper := half p y x s plane taken
      refine ⟨y, Nat.lt_of_lt_of_le upper halfUp_le, .inr ⟨upper, ?_⟩⟩
      exact (lines y upper p y x _).mpr ⟨plane, rfl, s, taken, rfl⟩

theorem packI420_gathers :
    Gathers (packI420 f src) (takesPlanar src.width src.height) (f ∘ src.samples) := by
  refine lines_gathers (fun _ _ => rfl) ?_ fun y upper p z x v => ?_
  · rintro (_ | _ | _ | p) y x s plane taken
    · exact absurd rfl plane
    · exact (Option.ite_none_right_eq_some.mp taken).1.1
    · exact (Option.ite_none_right_eq_some.mp taken).1.1
    · cases taken
  · simp only [mem_each, List.mem_cons, List.not_mem_nil, or_false, Prod.mk.injEq]
    constructor
    · rintro ⟨x, inside, ⟨⟨rfl, rfl, rfl⟩, rfl⟩ | ⟨⟨rfl, rfl, rfl⟩, rfl⟩⟩
      · exact ⟨Nat.one_ne_zero, rfl, _, if_pos ⟨upper, inside⟩, rfl⟩
      · exact ⟨Nat.succ_ne_zero 1, rfl, _, if_pos ⟨upper, inside⟩, rfl⟩
    · rintro ⟨plane, rfl, s, taken, rfl⟩
      rcases p with _ | _ | _ | p
      · exact absurd rfl plane
      · obtain ⟨⟨-, inside⟩, same⟩ := Option.ite_none_right_eq_some.mp taken
        cases same
        exact ⟨x, inside, .inl ⟨⟨rfl, rfl, rfl⟩, rfl⟩⟩
      · obtain ⟨⟨-, inside⟩, same⟩ := Option.ite_none_right_eq_some.mp taken
        cases same
        exact ⟨x, inside, .inr ⟨⟨rfl, rfl, rfl⟩, rfl⟩⟩
      · cases taken

/-- A chroma line that is written in pairs, of which the first value is that of an
even place and the second that of the odd one behind it. -/
theorem pairs_gathers {w h : Nat} {takes : Cell → Option Cell} (even odd : Nat → Nat → Cell)
    (luma : ∀ y x, takes (0, y, x) = if y < h ∧ x < w then some (0, y, x) else none)
    (only : ∀ p y x, takes (p + 2, y, x) = none)
    (chroma : ∀ y x, takes (1, y, x) = if y < halfUp h ∧ x < halfUp w * 2 then
      some (if x % 2 = 0 then even y (x / 2) else odd y (x / 2)) else none) :
    Gathers (each h fun y => copyLine f samples 0 y w ++ if y < halfUp h then
      each (halfUp w) fun x =>
        [((1, y, x * 2), f (samples (even y x))), ((1, y, x * 2 + 1), f (samples (odd y x)))]
      else []) takes (f ∘ samples) := by
  refine lines_gathers luma ?_ fun y upper p z x v => ?_
  · rintro (_ | _ | p) y x s plane taken
    · exact absurd rfl plane
    · rw [chroma] at taken
      exact (Option.ite_none_right_eq_some.mp taken).1.1
    · rw [only] at taken
      cases taken
  · simp only [mem_each, List.mem_cons, List.not_mem_nil, or_false, Prod.mk.injEq]
    constructor
    · rintro ⟨k, inside, ⟨⟨rfl, rfl, rfl⟩, rfl⟩ | ⟨⟨rfl, rfl, rfl⟩, rfl⟩⟩
      · refine ⟨Nat.one_ne_zero, rfl, even z k, ?_, rfl⟩
        rw [chroma, if_pos ⟨upper, by omega⟩, if_pos (by omega), Nat.mul_div_cancel k (by decide)]
      · refine ⟨Nat.one_ne_zero, rfl, odd z k, ?_, rfl⟩
        rw [chroma, if_pos ⟨upper, by omega⟩, if_neg (by omega),
          show (k * 2 + 1) / 2 = k by omega]
    · rintro ⟨plane, rfl, s, taken, rfl⟩
      rcases p with _ | _ | p
      · exact absurd rfl plane
      · rw [chroma] at taken
        obtain ⟨⟨-, inside⟩, same⟩ := Option.ite_none_right_eq_some.mp taken
        refine ⟨x / 2, by omega, ?_⟩
        split at same
        next => exact .inl ⟨⟨rfl, rfl, by omega⟩, by rw [← Option.some.inj same]⟩
        next => exact .inr ⟨⟨rfl, rfl, by omega⟩, by rw [← Option.some.inj same]⟩
      · rw [only] at taken
        cases taken

theorem unpackI420_gathers :
    Gathers (unpackI420 f src) (takesPairs src.width src.height) (f ∘ src.samples) :=
  pairs_gathers (fun y x => (1, y, x)) (fun y x => (2, y, x)) (fun _ _ => rfl)
      (fun _ _ _ => rfl) fun _ _ => rfl

theorem packNv21_gathers :
    Gathers (swcPackNv21 src) (takesSwapped src.width src.height) src.samples := by
  have pairs : Gathers (swcPackNv21 src) (takesSwapped src.width src.height) (id ∘ src.samples) :=
    pairs_gathers (fun y x => (1, y, x * 2 + 1)) (fun y x => (1, y, x * 2)) (fun _ _ => rfl)
      (fun _ _ _ => rfl) fun _ _ => rfl
  exact pairs

theorem copyPlanes_gathers :
    Gathers (copyPlanes f src) (takesPlanes src.width src.height) (f ∘ src.samples) := by
  refine lines_gathers (fun _ _ => rfl) ?_ fun y upper p z x v => ?_
  · rintro (_ | _ | p) y x s plane taken
    · exact absurd rfl plane
    · exact (Option.ite_none_right_eq_some.mp taken).1.1
    · cases taken
  · rw [mem_copyLine]
    constructor
    · rintro ⟨x, inside, ⟨⟩, rfl⟩
      exact ⟨Nat.one_ne_zero, rfl, _, if_pos ⟨upper, inside⟩, rfl⟩
    · rintro ⟨plane, rfl, s, taken, rfl⟩
      rcases p with _ | _ | p
      · exact absurd rfl plane
      · obtain ⟨⟨-, inside⟩, same⟩ := Option.ite_none_right_eq_some.mp taken
        cases same
        exact ⟨x, inside, rfl, rfl⟩
      · cases taken

theorem packGray_gathers : Gathers (packGray src) (takesGray src.width src.height) src.samples := by
  rintro ⟨p, y, x⟩ v
  simp only [packGray, mem_each, mem_copyLine, Prod.mk.injEq]
  constructor
  · rintro ⟨y, low, x, inside, ⟨rfl, rfl, rfl⟩, rfl⟩
    exact ⟨_, if_pos ⟨low, inside⟩, rfl⟩
  · rintro ⟨s, taken, rfl⟩
    rcases p with _ | p
    · obtain ⟨⟨low, inside⟩, same⟩ := Option.ite_none_right_eq_some.mp taken
      cases same
      exact ⟨y, low, x, inside, ⟨rfl, rfl, rfl⟩, rfl⟩
    · cases taken

theorem packYuyv_gathers : Gathers (packYuyv src) (takesYuyv src.width src.height) src.samples := by
  rintro ⟨p, y, x⟩ v
  simp only [packYuyv, mem_each, List.mem_cons, List.not_mem_nil, or_false, Prod.mk.injEq]
  constructor
  · rintro ⟨y, low, k, inside, ⟨⟨rfl, rfl, rfl⟩, rfl⟩ | ⟨⟨rfl, rfl, rfl⟩, rfl⟩⟩
    · refine ⟨(0, y, k), ?_, rfl⟩
      rw [takesYuyv, if_pos ⟨low, by omega⟩, if_pos (by omega), Nat.mul_div_cancel k (by decide)]
    · refine ⟨(1, y / 2, k), ?_, rfl⟩
      rw [takesYuyv, if_pos ⟨low, by omega⟩, if_neg (by omega), show (k * 2 + 1) / 2 = k by omega]
  · rintro ⟨s, taken, rfl⟩
    rcases p with _ | p
    · obtain ⟨⟨low, inside⟩, same⟩ := Option.ite_none_right_eq_some.mp taken
      refine ⟨y, low, x / 2, by omega, ?_⟩
      split at same
      next => exact .inl ⟨⟨rfl, rfl, by omega⟩, by rw [← Option.some.inj same]⟩
      next => exact .inr ⟨⟨rfl, rfl, by omega⟩, by rw [← Option.some.inj same]⟩
    · cases taken

theorem packYuv24_gathers : Gathers (packYuv24 src) (takesYuv24 src.width src.height) src.samples := by
  rintro ⟨p, y, x⟩ v
  simp only [packYuv24, mem_each, List.mem_cons, List.not_mem_nil, or_false, Prod.mk.injEq]
  constructor
  · rintro ⟨y, low, k, inside, ⟨⟨rfl, rfl, rfl⟩, rfl⟩ | ⟨⟨rfl, rfl, rfl⟩, rfl⟩ | ⟨⟨rfl, rfl, rfl⟩, rfl⟩⟩
    · refine ⟨(0, y, k), ?_, rfl⟩
      rw [takesYuv24, if_pos ⟨low, by omega⟩, if_pos (by omega), Nat.mul_div_cancel k (by decide)]
    · refine ⟨(1, y / 2, k / 2 * 2), ?_, rfl⟩
      rw [takesYuv24, if_pos ⟨low, by omega⟩, if_neg (by omega), show (k * 3 + 1) / 3 = k by omega,
        show (k * 3 + 1) % 3 - 1 = 0 by omega, Nat.add_zero]
    · refine ⟨(1, y / 2, k / 2 * 2 + 1), ?_, rfl⟩
      rw [takesYuv24, if_pos ⟨low, by omega⟩, if_neg (by omega), show (k * 3 + 2) / 3 = k by omega,
        show (k * 3 + 2) % 3 - 1 = 1 by omega]
  · rintro ⟨s, taken, rfl⟩
    rcases p with _ | p
    · obtain ⟨⟨low, inside⟩, same⟩ := Option.ite_none_right_eq_some.mp taken
      refine ⟨y, low, x / 3, by omega, ?_⟩
      split at same
      next => exact .inl ⟨⟨rfl, rfl, by omega⟩, by rw [← Option.some.inj same]⟩
      next first =>
        rcases (by omega : x % 3 = 1 ∨ x % 3 = 2) with place | place
        · rw [place] at same
          exact .inr (.inl ⟨⟨rfl, rfl, by omega⟩, by rw [← Option.some.inj same]; rfl⟩)
        · rw [place] at same
          exact .inr (.inr ⟨⟨rfl, rfl, by omega⟩, by rw [← Option.some.inj same]⟩)
    · cases taken

/-- The luma that is written first does not count. -/
theorem packNv12_10le_store {mem : Samples} :
    store mem (swcPackNv12_10le src) = store mem (copyPlanes (· >>> 6) src) := by
  refine store_flatMap fun y _ mem => store_covered fun c v written => ?_
  obtain ⟨x, inside, rfl, -⟩ := mem_copyLine.mp written
  exact ⟨_, List.mem_append_left _ (mem_copyLine.mpr ⟨x, inside, rfl, rfl⟩)⟩

end Loops

/-! ## The formats -/

/-- Where a format takes its samples from. -/
def takes (dst : PixelFormat) (w h : Nat) : Cell → Option Cell :=
  match dst with
  | .i420 | .i420_10le => takesPlanar w h
  | .nv21 => takesSwapped w h
  | .nv12 | .nv12_10le | .p010 | .p012 => takesPlanes w h
  | .gray | .y012 | .y16 => takesGray w h
  | .yuyv | .y212 => takesYuyv w h
  | .yuv24 | .yuv48_12 => takesYuv24 w h
  | _ => fun _ => none

/-- The words of these two have their ten bits at the bottom. -/
def shifted (dst : PixelFormat) (v : UInt16) : UInt16 :=
  match dst with
  | .nv12_10le | .i420_10le => v >>> 6
  | _ => v

/-- The formats of 8 bits that can be written. -/
def packs : List PixelFormat := [.i420, .yuyv, .nv21, .nv12, .gray, .yuv24]

/-- And those of more. -/
def packs16 : List PixelFormat :=
  [.nv12_10le, .i420_10le, .p010, .p012, .y012, .y16, .y212, .yuv48_12]

section Formats
variable {format : PixelFormat} {src : Picture}

theorem depth_packs (mem : format ∈ packs) : depth format = 8 := by
  revert format
  decide

theorem depth_packs16 (mem : format ∈ packs16) : 8 < depth format := by
  revert format
  decide

theorem pack_stores (mem : format ∈ packs) : ∃ writes, pitcherSwPack src format = some writes ∧
    ∀ old, store old writes = gather (takes format src.width src.height) src.samples old := by
  simp only [packs, List.mem_cons, List.not_mem_nil, or_false] at mem
  rcases mem with rfl | rfl | rfl | rfl | rfl | rfl
  · exact ⟨_, rfl, fun old => store_gathers packI420_gathers⟩
  · exact ⟨_, rfl, fun old => store_gathers packYuyv_gathers⟩
  · exact ⟨_, rfl, fun old => store_gathers packNv21_gathers⟩
  · exact ⟨_, rfl, fun old => store_gathers copyPlanes_gathers⟩
  · exact ⟨_, rfl, fun old => store_gathers packGray_gathers⟩
  · exact ⟨_, rfl, fun old => store_gathers packYuv24_gathers⟩

theorem pack16_stores (mem : format ∈ packs16) :
    ∃ writes, pitcherSwPack16 src format = some writes ∧ ∀ old, store old writes =
      gather (takes format src.width src.height) (shifted format ∘ src.samples) old := by
  simp only [packs16, List.mem_cons, List.not_mem_nil, or_false] at mem
  rcases mem with rfl | rfl | rfl | rfl | rfl | rfl | rfl | rfl
  · exact ⟨_, rfl, fun old => packNv12_10le_store.trans (store_gathers copyPlanes_gathers)⟩
  · exact ⟨_, rfl, fun old => store_gathers packI420_gathers⟩
  · exact ⟨_, rfl, fun old => store_gathers copyPlanes_gathers⟩
  · exact ⟨_, rfl, fun old => store_gathers copyPlanes_gathers⟩
  · exact ⟨_, rfl, fun old => store_gathers packGray_gathers⟩
  · exact ⟨_, rfl, fun old => store_gathers packGray_gathers⟩
  · exact ⟨_, rfl, fun old => store_gathers packYuyv_gathers⟩
  · exact ⟨_, rfl, fun old => store_gathers packYuv24_gathers⟩

theorem pack_none (other : format ∉ packs) : pitcherSwPack src format = none := by
  cases format <;> first | rfl | exact absurd (by decide) other

theorem pack16_none (other : format ∉ packs16) : pitcherSwPack16 src format = none := by
  cases format <;> first | rfl | exact absurd (by decide) other

end Formats

/-! ## The samples of a picture -/

section Samples
variable {w h : Nat} {c s : Cell} {format : PixelFormat} {f g : UInt16 → UInt16}
  {samples old old' : Samples} {v : UInt16}

theorem pairs_back (shown : Shown w h s) : (takesPairs w h s).bind (takesPlanar w h) = some s := by
  rcases s with ⟨_ | _ | p, y, x⟩
  · obtain ⟨low, inside⟩ : y < h ∧ x < w := shown
    rw [takesPairs, if_pos ⟨low, inside⟩, Option.bind_some, takesPlanar, if_pos ⟨low, inside⟩]
  · obtain ⟨low, inside⟩ : y < halfUp h ∧ x < halfUp w * 2 := shown
    rcases Nat.mod_two_eq_zero_or_one x with even | odd
    · rw [takesPairs, if_pos ⟨low, inside⟩, if_pos even, Option.bind_some, takesPlanar,
        if_pos ⟨low, by omega⟩, show x / 2 * 2 = x by omega]
    · rw [takesPairs, if_pos ⟨low, inside⟩, if_neg (by omega), Option.bind_some, takesPlanar,
        if_pos ⟨low, by omega⟩, show x / 2 * 2 + 1 = x by omega]
  · exact shown.elim

/-- A picture that is taken apart into three planes and put together again. -/
theorem pairs_planar (shown : Shown w h s) :
    gather (takesPairs w h) (g ∘ gather (takesPlanar w h) (f ∘ samples) old) old' s =
      g (f (samples s)) :=
  gather_gather (pairs_back shown)

/-- The samples of a picture in a format. -/
def Visible (format : PixelFormat) (w h : Nat) : Cell → Prop :=
  match format with
  | .i420 | .i420_10le => fun
    | (0, y, x) => y < h ∧ x < w
    | (1, y, x) | (2, y, x) => y < halfUp h ∧ x < halfUp w
    | _ => False
  | .nv12 | .nv21 | .nv12_10le | .p010 | .p012 | .p016 => Shown w h
  | .gray | .y012 | .y16 => fun
    | (0, y, x) => y < h ∧ x < w
    | _ => False
  | .yuyv | .y212 => fun
    | (0, y, x) => y < h ∧ x < w * 2
    | _ => False
  | .yuv24 | .yuv48_12 => fun
    | (0, y, x) => y < h ∧ x < w * 3
    | _ => False
  | _ => fun _ => False

/-- The bits at the bottom of a word that its sample has not. -/
def padding : PixelFormat → Nat
  | .p010 => 6
  | .p012 | .y012 | .y212 | .yuv48_12 => 4
  | _ => 0

/-- The bits below the upper ten. -/
def belowTen : PixelFormat → Nat
  | .p010 | .p012 | .y012 | .y212 | .yuv48_12 | .y16 => 6
  | _ => 0

/-- Two buffers show the same picture, the bits at the bottom apart. -/
def Same (low : PixelFormat → Nat) (format : PixelFormat) (w h : Nat) (a b : Samples) : Prop :=
  ∀ c, Visible format w h c → (a c).toNat / 2 ^ low format = (b c).toNat / 2 ^ low format

theorem lt_halfUp {x : Nat} (inside : x < w) : x < halfUp w * 2 ∧ x / 2 < halfUp w := by
  unfold halfUp
  omega

theorem planar_shown (taken : takesPlanar w h c = some s) : Shown w h s := by
  rcases c with ⟨_ | _ | _ | p, y, x⟩
  · obtain ⟨inside, same⟩ := Option.ite_none_right_eq_some.mp taken
    exact Option.some.inj same ▸ inside
  · obtain ⟨⟨low, inside⟩, same⟩ := Option.ite_none_right_eq_some.mp taken
    exact Option.some.inj same ▸ ⟨low, by omega⟩
  · obtain ⟨⟨low, inside⟩, same⟩ := Option.ite_none_right_eq_some.mp taken
    exact Option.some.inj same ▸ ⟨low, by omega⟩
  · cases taken

theorem swapped_shown (taken : takesSwapped w h c = some s) : Shown w h s := by
  rcases c with ⟨_ | _ | p, y, x⟩
  · obtain ⟨inside, same⟩ := Option.ite_none_right_eq_some.mp taken
    exact Option.some.inj same ▸ inside
  · obtain ⟨⟨low, inside⟩, same⟩ := Option.ite_none_right_eq_some.mp taken
    rw [← Option.some.inj same]
    split
    · exact ⟨low, by omega⟩
    · exact ⟨low, by omega⟩
  · cases taken

theorem planes_shown (taken : takesPlanes w h c = some s) : Shown w h s := by
  rcases c with ⟨_ | _ | p, y, x⟩
  · obtain ⟨inside, same⟩ := Option.ite_none_right_eq_some.mp taken
    exact Option.some.inj same ▸ inside
  · obtain ⟨⟨low, inside⟩, same⟩ := Option.ite_none_right_eq_some.mp taken
    exact Option.some.inj same ▸ ⟨low, (lt_halfUp inside).1⟩
  · cases taken

theorem gray_shown (taken : takesGray w h c = some s) : Shown w h s := by
  rcases c with ⟨_ | p, y, x⟩
  · obtain ⟨inside, same⟩ := Option.ite_none_right_eq_some.mp taken
    exact Option.some.inj same ▸ inside
  · cases taken

theorem yuyv_shown (taken : takesYuyv w h c = some s) : Shown w h s := by
  rcases c with ⟨_ | p, y, x⟩
  · obtain ⟨⟨low, inside⟩, same⟩ := Option.ite_none_right_eq_some.mp taken
    rw [← Option.some.inj same]
    have place : x / 2 < w := by omega
    split
    · exact ⟨low, place⟩
    · exact ⟨(lt_halfUp low).2, (lt_halfUp place).1⟩
  · cases taken

theorem yuv24_shown (taken : takesYuv24 w h c = some s) : Shown w h s := by
  rcases c with ⟨_ | p, y, x⟩
  · obtain ⟨⟨low, inside⟩, same⟩ := Option.ite_none_right_eq_some.mp taken
    rw [← Option.some.inj same]
    have place : x / 3 < w := by omega
    split
    · exact ⟨low, place⟩
    · have pair := (lt_halfUp place).2
      exact ⟨(lt_halfUp low).2, by omega⟩
  · cases taken

theorem takes_shown (taken : takes format w h c = some s) : Shown w h s := by
  cases format with
  | i420 | i420_10le => exact planar_shown taken
  | nv21 => exact swapped_shown taken
  | nv12 | nv12_10le | p010 | p012 => exact planes_shown taken
  | gray | y012 | y16 => exact gray_shown taken
  | yuyv | y212 => exact yuyv_shown taken
  | yuv24 | yuv48_12 => exact yuv24_shown taken
  | _ => cases taken

theorem planes_visible (taken : takesPlanes w h c = some s) : Shown w h c := by
  rcases c with ⟨_ | _ | p, y, x⟩
  · exact (Option.ite_none_right_eq_some.mp taken).1
  · obtain ⟨low, inside⟩ := (Option.ite_none_right_eq_some.mp taken).1
    exact ⟨low, (lt_halfUp inside).1⟩
  · cases taken

theorem swapped_visible (taken : takesSwapped w h c = some s) : Shown w h c := by
  rcases c with ⟨_ | _ | p, y, x⟩
  · exact (Option.ite_none_right_eq_some.mp taken).1
  · exact (Option.ite_none_right_eq_some.mp taken).1
  · cases taken

theorem planar_visible (taken : takesPlanar w h c = some s) : Visible .i420 w h c := by
  rcases c with ⟨_ | _ | _ | p, y, x⟩
  · exact (Option.ite_none_right_eq_some.mp taken).1
  · exact (Option.ite_none_right_eq_some.mp taken).1
  · exact (Option.ite_none_right_eq_some.mp taken).1
  · cases taken

theorem gray_visible (taken : takesGray w h c = some s) : Visible .gray w h c := by
  rcases c with ⟨_ | p, y, x⟩
  · exact (Option.ite_none_right_eq_some.mp taken).1
  · cases taken

theorem yuyv_visible (taken : takesYuyv w h c = some s) : Visible .yuyv w h c := by
  rcases c with ⟨_ | p, y, x⟩
  · exact (Option.ite_none_right_eq_some.mp taken).1
  · cases taken

theorem yuv24_visible (taken : takesYuv24 w h c = some s) : Visible .yuv24 w h c := by
  rcases c with ⟨_ | p, y, x⟩
  · exact (Option.ite_none_right_eq_some.mp taken).1
  · cases taken

/-- Only samples of the picture are written. -/
theorem takes_visible (taken : takes format w h c = some s) : Visible format w h c := by
  cases format with
  | i420 | i420_10le => exact planar_visible taken
  | nv21 => exact swapped_visible taken
  | nv12 | nv12_10le | p010 | p012 => exact planes_visible taken
  | gray | y012 | y16 => exact gray_visible taken
  | yuyv | y212 => exact yuyv_visible taken
  | yuv24 | yuv48_12 => exact yuv24_visible taken
  | _ => cases taken

/-- The bits that ten bits do not hold are none of the sample's. -/
def LowFree (format : PixelFormat) (v : UInt16) : Prop :=
  format = .nv12_10le ∨ format = .i420_10le ∨ v.toNat % 64 < 2 ^ padding format

theorem toNat_low : (v >>> 6 <<< 6).toNat = v.toNat / 64 * 64 := by
  have bound := v.toNat_lt
  have right : (v >>> 6).toNat = v.toNat / 64 := by
    rw [UInt16.toNat_shiftRight, Nat.shiftRight_eq_div_pow]
    rfl
  rw [UInt16.toNat_shiftLeft, right, Nat.shiftLeft_eq]
  exact Nat.mod_eq_of_lt (by
    show v.toNat / 64 * 64 < 65536
    omega)

theorem shiftRight_low : v >>> 6 <<< 6 >>> 6 = v >>> 6 := by
  apply UInt16.toNat_inj.mp
  rw [UInt16.toNat_shiftRight, toNat_low, UInt16.toNat_shiftRight, Nat.shiftRight_eq_div_pow,
    Nat.shiftRight_eq_div_pow]
  show v.toNat / 64 * 64 / 64 = v.toNat / 64
  omega

theorem padding_iff (mem : format ∈ packs16) :
    (shifted format v).toNat / 2 ^ padding format =
      (shifted format (v >>> 6 <<< 6)).toNat / 2 ^ padding format ↔ LowFree format v := by
  simp only [packs16, List.mem_cons, List.not_mem_nil, or_false] at mem
  rcases mem with rfl | rfl | rfl | rfl | rfl | rfl | rfl | rfl
  · simp only [shifted, shiftRight_low, LowFree, true_or]
  · simp only [shifted, shiftRight_low, LowFree, true_or, or_true]
  all_goals
    simp only [shifted, toNat_low, LowFree, padding, reduceCtorEq, false_or]
    omega

theorem belowTen_same (mem : format ∈ packs16) :
    (shifted format v).toNat / 2 ^ belowTen format =
      (shifted format (v >>> 6 <<< 6)).toNat / 2 ^ belowTen format := by
  simp only [packs16, List.mem_cons, List.not_mem_nil, or_false] at mem
  rcases mem with rfl | rfl | rfl | rfl | rfl | rfl | rfl | rfl
  · simp only [shifted, shiftRight_low]
  · simp only [shifted, shiftRight_low]
  all_goals
    simp only [shifted, toNat_low, belowTen]
    omega

/-- Only the samples that are taken count. -/
theorem same_gather {low : PixelFormat → Nat} {value value' : Samples} :
    Same low format w h (gather (takes format w h) value old) (gather (takes format w h) value' old) ↔
      ∀ c s, takes format w h c = some s →
        (value s).toNat / 2 ^ low format = (value' s).toNat / 2 ^ low format := by
  constructor
  · intro same c s taken
    have here := same c (takes_visible taken)
    rwa [gather_some taken, gather_some taken] at here
  · intro same c visible
    cases taken : takes format w h c with
    | none => rw [gather_none taken, gather_none taken]
    | some s =>
      rw [gather_some taken, gather_some taken]
      exact same c s taken

end Samples

end ImxTest.Pitcher.Convert
