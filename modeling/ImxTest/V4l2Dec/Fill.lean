import ImxTest.Lib.Strips
import ImxTest.Lib.Words
import ImxTest.Lib.Writes

/-! The output buffer of mxc_v4l2_vpu_test/mxc_vpu_dec.c, and how it is filled with samples of
one byte or two. -/
namespace ImxTest.V4l2Dec
open Lib.Strips Lib.Words Lib.Writes

/-- Memory by the place in it; a pointer is such a function with its own place as 0. -/
abbrev Memory := Int → UInt8

/-- The bytes are written one after the other into a buffer of `cap` bytes; nothing is said of
writes outside. -/
def write (cap : Nat) (mem : Memory) (bytes : List (Int × UInt8)) : Option Memory :=
  if ∀ byte ∈ bytes, 0 ≤ byte.1 ∧ byte.1 < cap then some (store mem bytes) else none

/-- Sample `sample.1` behind `base`, its low byte first. -/
def put (base ratio : Nat) (sample : Int × Nat) : List (Int × UInt8) :=
  (List.range ratio).map fun b : Nat => (base + sample.1 * ratio + b, .ofNat (sample.2 / 256 ^ b))

def fill (cap : Nat) (mem : Memory) (base ratio : Nat) (samples : List (Int × Nat)) : Option Memory :=
  write cap mem (samples.flatMap (put base ratio))

/-- The samples of so many lines stand one behind the other from `base` on. -/
def Shows (mem : Memory) (base ratio width lines : Nat) (sample : Nat → Nat → Nat) : Prop :=
  ∀ x < width, ∀ y < lines, ∀ b < ratio, mem (base + (y * width + x) * ratio + b : Nat) = .ofNat (sample x y / 256 ^ b)

/-- Samples that are bytes. -/
theorem shows_bytes {mem : Memory} {base width lines : Nat} {sample : Nat → Nat → UInt8} :
    Shows mem base 1 width lines (fun x y => (sample x y).toNat) ↔
      ∀ x < width, ∀ y < lines, mem (base + y * width + x : Nat) = sample x y := by
  simp only [Shows, Nat.lt_one_iff, forall_eq, pow_zero, Nat.div_one, Nat.mul_one, Nat.add_zero, Nat.add_assoc,
    UInt8.ofNat_toNat]

/-- An index of the source that is right up to a limit, and whose next value lies outside of any
buffer of less than 2^32 bytes. -/
structure Indexes (index : Nat → Int) (limit : Nat) : Prop where
  right : ∀ n < limit, index n = n
  wrong : ∃ m ≤ limit, index m < 0 ∨ 2 ^ 32 - 1 ≤ index m

theorem int_indexes : Indexes (fun n => int n) (2 ^ 31) where
  right _ small := int_natCast small
  wrong := ⟨2 ^ 31, Nat.le_refl _, .inl (by unfold int; decide)⟩

theorem uint_indexes : Indexes (fun n => uint n) (2 ^ 32) where
  right n small := congrArg Int.ofNat (uint_natCast small)
  wrong := ⟨2 ^ 32 - 1, by decide, .inr (by unfold uint; decide)⟩

/-- What a pass over the strips of a picture writes. -/
def stripSamples (index : Nat → Int) (lines width : Nat) (start : Nat → Nat) (groups strips : Nat)
    (value : Spot → Nat) : List (Int × Nat) :=
  (spots lines start groups strips).map fun s => (index (s.place lines width), value s)

section Pass
variable {cap base ratio lines width groups strips limit : Nat} {start : Nat → Nat} {index : Nat → Int}
  {value : Spot → Nat} {mem mem' : Memory} {s t : Spot}

theorem mem_pass {c : Int} {v : UInt8} :
    (c, v) ∈ (stripSamples index lines width start groups strips value).flatMap (put base ratio) ↔
      ∃ s ∈ spots lines start groups strips, ∃ b < ratio,
        c = base + index (s.place lines width) * ratio + (b : Nat) ∧ v = .ofNat (value s / 256 ^ b) := by
  simp only [stripSamples, List.flatMap_map, List.mem_flatMap, put, List.mem_map, List.mem_range, Prod.mk.injEq]
  constructor
  · rintro ⟨s, mem, b, below, rfl, rfl⟩
    exact ⟨s, mem, b, below, rfl, rfl⟩
  · rintro ⟨s, mem, b, below, rfl, rfl⟩
    exact ⟨s, mem, b, below, rfl, rfl⟩

theorem write_eq_some_iff {bytes : List (Int × UInt8)} : write cap mem bytes = some mem' ↔
    (∀ byte ∈ bytes, 0 ≤ byte.1 ∧ byte.1 < cap) ∧ store mem bytes = mem' := by
  unfold write
  split
  · rename_i inside
    exact ⟨fun same => ⟨inside, Option.some.inj same⟩, fun both => congrArg some both.2⟩
  · rename_i outside
    exact ⟨fun same => absurd same (by simp), fun both => absurd both.1 outside⟩

theorem fill_eq_some_iff {samples : List (Int × Nat)} : fill cap mem base ratio samples = some mem' ↔
    (∀ byte ∈ samples.flatMap (put base ratio), 0 ≤ byte.1 ∧ byte.1 < cap) ∧
      store mem (samples.flatMap (put base ratio)) = mem' :=
  write_eq_some_iff

theorem fill_append {first second : List (Int × Nat)} : fill cap mem base ratio (first ++ second) = some mem' ↔
    ∃ between, fill cap mem base ratio first = some between ∧ fill cap between base ratio second = some mem' := by
  simp only [fill_eq_some_iff, List.flatMap_append, List.forall_mem_append, store_append]
  constructor
  · rintro ⟨⟨inside, inside'⟩, same⟩
    exact ⟨_, ⟨inside, rfl⟩, inside', same⟩
  · rintro ⟨_, ⟨inside, rfl⟩, inside', same⟩
    exact ⟨⟨inside, inside'⟩, same⟩

/-- A pass that has room. -/
structure RoomFor (cap base ratio limit reach : Nat) : Prop where
  numbers : reach ≤ limit
  bytes : base + reach * ratio ≤ cap

theorem exists_fill (indexes : Indexes index limit) (mono : Monotone start)
    (room : RoomFor cap base ratio limit (extent lines width start groups strips)) :
    ∃ mem', fill cap mem base ratio (stripSamples index lines width start groups strips value) = some mem' := by
  refine ⟨_, fill_eq_some_iff.mpr ⟨?_, rfl⟩⟩
  rintro ⟨c, v⟩ inside
  obtain ⟨s, mem_s, b, below, rfl, -⟩ := mem_pass.mp inside
  have low := @place_lt lines groups strips width start s mono mem_s
  rw [indexes.right _ (Nat.lt_of_lt_of_le low room.numbers)]
  have up := Nat.mul_le_mul_right ratio (Nat.succ_le_of_lt low)
  have bytes := room.bytes
  rw [Nat.succ_mul] at up
  have place : ((s.place lines width * ratio : Nat) : Int) = s.place lines width * ratio := Int.natCast_mul ..
  dsimp only
  omega

/-- The limit is kept to, in a pass from the front of the buffer on. -/
theorem numbers_of_fill (indexes : Indexes index limit) (small : cap < 2 ^ 32) (first : start 0 = 0)
    (wide : width ≤ start groups) (positive : 0 < width) (some_byte : 0 < ratio)
    (filled : fill cap mem 0 ratio (stripSamples index lines width start groups strips value) = some mem') :
    extent lines width start groups strips ≤ limit := by
  by_contra beyond
  obtain ⟨m, le, outside⟩ := indexes.wrong
  obtain ⟨s, mem_s, here⟩ := @exists_place lines groups strips width start first wide positive m (by omega)
  have inside := (fill_eq_some_iff.mp filled).1 _ (mem_pass.mpr ⟨s, mem_s, 0, some_byte, rfl, rfl⟩)
  rw [here] at inside
  dsimp only at inside
  have bytes : (1 : Int) ≤ ratio := by omega
  rcases outside with negative | large
  · have times := Int.mul_le_mul_of_nonneg_right (show index m ≤ -1 by omega) (show (0 : Int) ≤ ratio by omega)
    omega
  · have times := Int.mul_le_mul_of_nonneg_left bytes (show 0 ≤ index m by omega)
    omega

/-- The samples that are written are in the buffer. -/
theorem bytes_of_fill (indexes : Indexes index limit) (numbers : extent lines width start groups strips ≤ limit)
    (first : start 0 = 0) (wide : width ≤ start groups) (positive : 0 < width) (some_byte : 0 < ratio)
    (some_line : 0 < strips * lines)
    (filled : fill cap mem base ratio (stripSamples index lines width start groups strips value) = some mem') :
    base + extent lines width start groups strips * ratio ≤ cap := by
  have some_sample : 0 < extent lines width start groups strips := by
    unfold extent
    rw [if_neg (by omega)]
    omega
  obtain ⟨s, mem_s, here⟩ := @exists_place lines groups strips width start first wide positive
    (extent lines width start groups strips - 1) (by omega)
  have inside := (fill_eq_some_iff.mp filled).1 _ (mem_pass.mpr ⟨s, mem_s, ratio - 1, by omega, rfl, rfl⟩)
  rw [here, indexes.right _ (by omega)] at inside
  obtain ⟨n, count⟩ := Nat.exists_eq_add_of_lt some_sample
  rw [count] at inside ⊢
  rw [Nat.zero_add, Nat.add_sub_cancel] at inside
  rw [Nat.zero_add, Nat.succ_mul]
  push_cast [Nat.cast_sub (show 1 ≤ ratio from some_byte)] at inside
  have last := inside.2
  have whole : ((n * ratio : Nat) : Int) = n * ratio := by push_cast; rfl
  omega

/-- A sample that is written last where it is. -/
theorem fill_last (indexes : Indexes index limit) (mono : Monotone start)
    (numbers : extent lines width start groups strips ≤ limit)
    (filled : fill cap mem base ratio (stripSamples index lines width start groups strips value) = some mem')
    (mem_t : t ∈ spots lines start groups strips)
    (last : ∀ s ∈ spots lines start groups strips, s.place lines width = t.place lines width → s = t ∨ s.Before t)
    {b : Nat} (below : b < ratio) :
    mem' (base + t.place lines width * ratio + b : Nat) = .ofNat (value t / 256 ^ b) := by
  obtain ⟨-, rfl⟩ := fill_eq_some_iff.mp filled
  have right (s : Spot) (mem_s : s ∈ spots lines start groups strips) :
      index (s.place lines width) = (s.place lines width : Nat) :=
    indexes.right _ (Nat.lt_of_lt_of_le (place_lt mono mem_s) numbers)
  have same_place {s : Spot} (mem_s : s ∈ spots lines start groups strips) {w : UInt8}
      (written : (((base + t.place lines width * ratio + b : Nat) : Int), w) ∈
        put base ratio (index (s.place lines width), value s)) :
      s.place lines width = t.place lines width ∧ w = .ofNat (value s / 256 ^ b) := by
    obtain ⟨b', below', same⟩ := List.mem_map.mp written
    rw [List.mem_range] at below'
    obtain ⟨place, rfl⟩ := Prod.mk.inj same
    dsimp only at place
    rw [right s mem_s] at place
    have place' : s.place lines width * ratio + b' = t.place lines width * ratio + b := by
      have product : ((s.place lines width * ratio : Nat) : Int) = s.place lines width * ratio := Int.natCast_mul ..
      omega
    have alike : b' = b := by
      have rest := congrArg (· % ratio) place'
      simpa [Nat.add_mod, Nat.mod_eq_of_lt below, Nat.mod_eq_of_lt below'] using rest
    subst alike
    exact ⟨Nat.eq_of_mul_eq_mul_right (Nat.zero_lt_of_lt below) (Nat.add_right_cancel place'), rfl⟩
  unfold stripSamples
  rw [List.flatMap_map]
  refine store_last spots_sorted (fun s first => first.strict) mem_t ?_ ?_ ?_
  · rintro s mem_s ⟨w, written⟩
    exact last s mem_s (same_place mem_s written).1
  · refine List.mem_map.mpr ⟨b, List.mem_range.mpr below, ?_⟩
    rw [right t mem_t]
    push_cast
    rfl
  · exact fun w written => (same_place mem_t written).2

/-- Bytes tell numbers apart. -/
theorem bytes_inj {v w : Nat} (small : v < 256 ^ ratio) (small' : w < 256 ^ ratio)
    (same : ∀ b < ratio, UInt8.ofNat (v / 256 ^ b) = .ofNat (w / 256 ^ b)) : v = w := by
  induction ratio generalizing v w with
  | zero =>
    rw [pow_zero] at small small'
    omega
  | succ ratio ih =>
    have low : v % 256 = w % 256 := by simpa using congrArg UInt8.toNat (same 0 (Nat.succ_pos _))
    rw [pow_succ] at small small'
    have high := @ih (v / 256) (w / 256) (Nat.div_lt_of_lt_mul (by rwa [Nat.mul_comm]))
      (Nat.div_lt_of_lt_mul (by rwa [Nat.mul_comm])) fun b below => by
        simpa only [Nat.div_div_eq_div_mul, pow_succ'] using same (b + 1) (by omega)
    omega

theorem Shows.congr {sample sample' : Nat → Nat → Nat} (shows : Shows mem base ratio width lines sample)
    (same : ∀ x < width, ∀ y < lines, sample x y = sample' x y) : Shows mem base ratio width lines sample' := by
  intro x col y line
  rw [← same x col y line]
  exact shows x col y line

/-- What is shown is one picture. -/
theorem Shows.unique {sample sample' : Nat → Nat → Nat} (shows : Shows mem base ratio width lines sample)
    (shows' : Shows mem base ratio width lines sample') (small : ∀ x y, sample x y < 256 ^ ratio)
    (small' : ∀ x y, sample' x y < 256 ^ ratio) {x y : Nat} (col : x < width) (line : y < lines) :
    sample x y = sample' x y :=
  bytes_inj (small x y) (small' x y) fun b below =>
    (shows x col y line b below).symm.trans (shows' x col y line b below)

/-- What is shown where a sample is written last is its value. -/
theorem fill_value (indexes : Indexes index limit) (mono : Monotone start)
    (numbers : extent lines width start groups strips ≤ limit)
    (filled : fill cap mem 0 ratio (stripSamples index lines width start groups strips value) = some mem')
    (mem_t : t ∈ spots lines start groups strips)
    (last : ∀ s ∈ spots lines start groups strips, s.place lines width = t.place lines width → s = t ∨ s.Before t)
    {height x y : Nat} {sample : Nat → Nat → Nat} (shows : Shows mem' 0 ratio width height sample) (col : x < width)
    (line : y < height) (here : t.place lines width = y * width + x) (small : value t < 256 ^ ratio)
    (small' : sample x y < 256 ^ ratio) : value t = sample x y := by
  refine bytes_inj small small' fun b below => ?_
  rw [← fill_last indexes mono numbers filled mem_t last below, here]
  exact shows x col y line b below

/-- What lies outside of the samples is as it was. -/
theorem fill_outside (indexes : Indexes index limit) (mono : Monotone start)
    (numbers : extent lines width start groups strips ≤ limit)
    (filled : fill cap mem base ratio (stripSamples index lines width start groups strips value) = some mem')
    {c : Nat} (outside : c < base ∨ base + extent lines width start groups strips * ratio ≤ c) : mem' c = mem c := by
  obtain ⟨-, rfl⟩ := fill_eq_some_iff.mp filled
  refine store_free fun v inside => ?_
  obtain ⟨s, mem_s, b, below, place, -⟩ := mem_pass.mp inside
  have low := @place_lt lines groups strips width start s mono mem_s
  rw [indexes.right _ (Nat.lt_of_lt_of_le low numbers)] at place
  have up := Nat.mul_le_mul_right ratio (Nat.succ_le_of_lt low)
  rw [Nat.succ_mul] at up
  have product : ((s.place lines width * ratio : Nat) : Int) = s.place lines width * ratio := Int.natCast_mul ..
  omega

/-- The visible samples are shown, and what is outside of the reach is as it was. -/
structure Lays (mem mem' : Memory) (base reach ratio width lines : Nat) (sample : Nat → Nat → Nat) : Prop where
  shows : Shows mem' base ratio width lines sample
  outside : ∀ c : Nat, c < base ∨ base + reach ≤ c → mem' c = mem c

theorem byte_lt {x y b : Nat} (col : x < width) (line : y < lines) (below : b < ratio) :
    (y * width + x) * ratio + b < width * lines * ratio := by
  have row := Nat.mul_le_mul_right width (Nat.succ_le_of_lt line)
  rw [Nat.succ_mul, Nat.mul_comm lines] at row
  have sample := Nat.mul_le_mul_right ratio (show y * width + x + 1 ≤ width * lines by omega)
  rw [Nat.succ_mul] at sample
  omega

/-- What stands in front of a pass is still shown behind it. -/
theorem Lays.keeps {base' reach ratio' width' lines' : Nat} {sample sample' : Nat → Nat → Nat}
    (lays : Lays mem mem' base' reach ratio' width' lines' sample') (shows : Shows mem base ratio width lines sample)
    (apart : base + width * lines * ratio ≤ base') : Shows mem' base ratio width lines sample := by
  intro x col y line b below
  have inside := byte_lt col line below
  rw [lays.outside _ (by omega)]
  exact shows x col y line b below

/-- A pass that shows what it is for: its last group ends with the line, or there is but one group
to a line, or one line. -/
theorem exists_lays {height : Nat} {sample : Nat → Nat → Nat} (indexes : Indexes index limit) (mono : Monotone start)
    (first : start 0 = 0) (wide : width ≤ start groups) (tall : height ≤ strips * lines)
    (room : RoomFor cap base ratio limit (extent lines width start groups strips))
    (kept : start groups ≤ width ∨ groups ≤ 1 ∨ height ≤ 1)
    (values : ∀ s ∈ spots lines start groups strips, s.col < width → s.row lines < height →
      value s = sample s.col (s.row lines)) :
    ∃ mem', fill cap mem base ratio (stripSamples index lines width start groups strips value) = some mem' ∧
      Lays mem mem' base (extent lines width start groups strips * ratio) ratio width height sample := by
  obtain ⟨mem', filled⟩ := @exists_fill cap base ratio lines width groups strips limit start index value mem indexes mono room
  refine ⟨mem', filled, ?_, fun c outside => fill_outside indexes mono room.numbers filled outside⟩
  intro x visible y line b below
  obtain ⟨t, mem_t, rfl, rfl, inner⟩ :=
    exists_spot first (Nat.lt_of_lt_of_le visible wide) (Nat.lt_of_lt_of_le line tall)
  rw [← values t mem_t visible line]
  refine fill_last indexes mono room.numbers filled mem_t (fun s mem_s same => ?_) below
  refine before_of_kept mono mem_s mem_t visible same (kept.imp_right fun rest => rest.imp_right fun single => ?_)
  rw [inner, show t.row lines = 0 by omega, Nat.zero_mod]

end Pass

end ImxTest.V4l2Dec
