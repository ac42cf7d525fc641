import ImxTest.Pitcher.Packing

/-! Pictures that are packed and unpacked again, or unpacked and packed again: the
samples that come back as they were. -/
namespace ImxTest.Pitcher.Convert
open Lib.Writes

/-! ## Where the unpackers take samples from -/

section Takes
variable (w h : Nat)

/-- Every second pixel of every second line has a pair. -/
def takesFromYuv24 : Cell → Option Cell
  | (0, y, x) => if y < h ∧ x < w then some (0, y, x * 3) else none
  | (1, y, x) =>
    if y < halfUp h ∧ x < halfUp w * 2 then some (0, y * 2, x / 2 * 2 * 3 + 1 + x % 2) else none
  | _ => none

end Takes

section Unpackers
variable {f : UInt16 → UInt16} {src : Picture}

theorem unpackYuv24_gathers :
    Gathers (unpackYuv24 src) (takesFromYuv24 src.width src.height) src.samples := by
  rintro ⟨p, y, x⟩ v
  simp only [unpackYuv24, mem_each, List.mem_cons, mem_when, List.not_mem_nil, or_false, Prod.mk.injEq]
  constructor
  · rintro ⟨y, low, x, inside, ⟨⟨rfl, rfl, rfl⟩, rfl⟩ | ⟨⟨even, start⟩, written⟩⟩
    · exact ⟨_, if_pos ⟨low, inside⟩, rfl⟩
    · have line := (lt_halfUp low).2
      have pair := (lt_halfUp inside).2
      rcases written with ⟨⟨rfl, rfl, rfl⟩, rfl⟩ | ⟨⟨rfl, rfl, rfl⟩, rfl⟩
      · refine ⟨(0, y, x * 3 + 1), ?_, rfl⟩
        rw [takesFromYuv24, if_pos ⟨line, by omega⟩, show y / 2 * 2 = y by omega,
          show x / 2 * 2 * 3 + 1 + x % 2 = x * 3 + 1 by omega]
      · refine ⟨(0, y, x * 3 + 2), ?_, rfl⟩
        rw [takesFromYuv24, if_pos ⟨line, by omega⟩, show y / 2 * 2 = y by omega,
          show (x + 1) / 2 * 2 * 3 + 1 + (x + 1) % 2 = x * 3 + 2 by omega]
  · rintro ⟨s, taken, rfl⟩
    rcases p with _ | _ | p
    · obtain ⟨⟨low, inside⟩, same⟩ := Option.ite_none_right_eq_some.mp taken
      cases same
      exact ⟨y, low, x, inside, .inl ⟨⟨rfl, rfl, rfl⟩, rfl⟩⟩
    · obtain ⟨⟨low, inside⟩, same⟩ := Option.ite_none_right_eq_some.mp taken
      cases same
      have line : y * 2 < src.height := by
        unfold halfUp at low
        omega
      have column : x / 2 * 2 < src.width := by
        unfold halfUp at inside
        omega
      refine ⟨y * 2, line, x / 2 * 2, column, .inr ⟨by omega, ?_⟩⟩
      rcases Nat.mod_two_eq_zero_or_one x with even | odd
      · exact .inl ⟨⟨rfl, by omega, by omega⟩, by rw [even]⟩
      · exact .inr ⟨⟨rfl, by omega, by omega⟩, by rw [odd]⟩
    · cases taken

end Unpackers

/-! ## Samples that come back -/

section Back
variable {w h : Nat} {s : Cell} {v : UInt16}

theorem swapped_back (shown : Shown w h s) : (takesSwapped w h s).bind (takesSwapped w h) = some s := by
  rcases s with ⟨_ | _ | p, y, x⟩
  · obtain ⟨low, inside⟩ : y < h ∧ x < w := shown
    rw [takesSwapped, if_pos ⟨low, inside⟩, Option.bind_some, takesSwapped, if_pos ⟨low, inside⟩]
  · obtain ⟨low, inside⟩ : y < halfUp h ∧ x < halfUp w * 2 := shown
    rcases Nat.mod_two_eq_zero_or_one x with even | odd
    · rw [takesSwapped, if_pos ⟨low, inside⟩, if_pos even, Option.bind_some, takesSwapped,
        if_pos ⟨low, by omega⟩, if_neg (by omega), show (x / 2 * 2 + 1) / 2 * 2 = x by omega]
    · rw [takesSwapped, if_pos ⟨low, inside⟩, if_neg (by omega), Option.bind_some, takesSwapped,
        if_pos ⟨low, by omega⟩, if_pos (by omega), show x / 2 * 2 / 2 * 2 + 1 = x by omega]
  · exact shown.elim

/-- Each pair lies at the first of the pixels that it stands for. -/
theorem yuv24_back (shown : Shown w h s) : (takesFromYuv24 w h s).bind (takesYuv24 w h) = some s := by
  rcases s with ⟨_ | _ | p, y, x⟩
  · obtain ⟨low, inside⟩ : y < h ∧ x < w := shown
    rw [takesFromYuv24, if_pos ⟨low, inside⟩, Option.bind_some, takesYuv24, if_pos ⟨low, by omega⟩,
      if_pos (by omega), Nat.mul_div_cancel x (by decide)]
  · obtain ⟨low, inside⟩ : y < halfUp h ∧ x < halfUp w * 2 := shown
    have place : y * 2 < h ∧ x / 2 * 2 * 3 + 1 + x % 2 < w * 3 := by
      unfold halfUp at low inside
      omega
    rw [takesFromYuv24, if_pos ⟨low, inside⟩, Option.bind_some, takesYuv24, if_pos place, if_neg (by omega),
      Nat.mul_div_cancel y (by decide)]
    simp only [Option.some.injEq, Prod.mk.injEq, true_and]
    omega
  · exact shown.elim

end Back

/-! ## There and back -/

section Twice
variable {picture : Picture} {old old' : Samples} {first second : Cell → Option Cell}
  {f g : UInt16 → UInt16} {writes : Writes} {back : Picture → Writes}

/-- Samples that are found where the first loop has put them, their bits with them. -/
theorem twice_back (there : Gathers writes first (f ∘ picture.samples))
    (again : ∀ between, Gathers (back { picture with samples := between }) second (g ∘ between)) {s : Cell}
    (found : (second s).bind first = some s) (same : g (f (picture.samples s)) = picture.samples s) :
    store old' (back { picture with samples := store old writes }) s = picture.samples s := by
  rw [store_gathers (again _), store_gathers there, gather_gather found, same]

end Twice

section Repacked
variable (pack : Picture → PixelFormat → Option Writes) (unpack : Frame → Option Writes)
  (picture : Picture) (format : PixelFormat) (old old' : Samples)

/-- What a picture that is packed and unpacked leaves in a buffer, after the one in between. -/
def repacked : Option Samples :=
  (pack picture format).bind fun packing =>
    (unpack ({ picture with samples := store old packing }.as format)).map (store old')

variable {pack unpack picture format old old'} {packing : Writes} {first : Cell → Option Cell}

theorem repacked_back {kept : Cell → Prop} (second : Cell → Option Cell) (unpacking : Picture → Writes)
    (packed : pack picture format = some packing)
    (unpacks : ∀ src : Picture, unpack (src.as format) = some (unpacking src))
    (there : Gathers packing first (id ∘ picture.samples))
    (again : ∀ between, Gathers (unpacking { picture with samples := between }) second (id ∘ between))
    (found : ∀ s, kept s → (second s).bind first = some s) :
    ∃ restored, repacked pack unpack picture format old old' = some restored ∧
      ∀ s, kept s → restored s = picture.samples s := by
  refine ⟨store old' (unpacking { picture with samples := store old packing }), ?_, fun s mem => ?_⟩
  · rw [repacked, packed, Option.bind_some, unpacks, Option.map_some]
  · exact twice_back there again (found s mem) rfl

/-- A place of the packed picture has the sample, whatever the picture is. -/
def Kept (pack : Picture → PixelFormat → Option Writes) (format : PixelFormat) (w h : Nat) (s : Cell) : Prop :=
  ∃ c, ∀ (samples old : Samples) (packing : Writes),
    pack { width := w, height := h, samples } format = some packing → store old packing c = samples s

end Repacked

section Restored
variable (unpackers : Unpackers) (old old' : Samples)

/-- Whatever the size, all of the samples. -/
theorem pitcherSwPack_restores (picture : Picture) (format : PixelFormat)
    (mem : format ∈ [.i420, .nv21, .yuv24]) :
    ∃ restored, repacked pitcherSwPack (pitcherSwUnpack unpackers) picture format old old' = some restored ∧
      ∀ c, Shown picture.width picture.height c → restored c = picture.samples c := by
  simp only [List.mem_cons, List.not_mem_nil, or_false] at mem
  rcases mem with rfl | rfl | rfl
  · exact repacked_back (takesPairs picture.width picture.height) swcUnpackI420 rfl (fun src => rfl)
      packI420_gathers (fun between => unpackI420_gathers) fun s shown => pairs_back shown
  · exact repacked_back (takesSwapped picture.width picture.height) swcUnpackNv21 rfl (fun src => rfl)
      packNv21_gathers (fun between => packNv21_gathers) fun s shown => swapped_back shown
  · exact repacked_back (takesFromYuv24 picture.width picture.height) swcUnpackYuv24 rfl (fun src => rfl)
      packYuv24_gathers (fun between => unpackYuv24_gathers) fun s shown => yuv24_back shown

/-- A picture with an odd last line and column. -/
theorem pitcherSwPack_restores_odd : ∃ restored,
    repacked pitcherSwPack (pitcherSwUnpack ⟨fun _ => [], fun _ => [], fun _ => []⟩)
        { width := 3, height := 3, samples := fun c => .ofNat (c.2.1 * 16 + c.2.2) } .yuv24 (fun _ => 0) (fun _ => 0) =
      some restored ∧ restored (1, 1, 3) = 19 := by
  obtain ⟨restored, done, back⟩ := pitcherSwPack_restores ⟨fun _ => [], fun _ => [], fun _ => []⟩ (fun _ => 0)
    (fun _ => 0) { width := 3, height := 3, samples := fun c => .ofNat (c.2.1 * 16 + c.2.2) } .yuv24 (by decide)
  exact ⟨restored, done, back (1, 1, 3) (by decide : 1 < halfUp 3 ∧ 3 < halfUp 3 * 2)⟩

end Restored

end ImxTest.Pitcher.Convert
