import ImxTest.Pitcher.Packing

/-! The shortcuts of the converter against the way through an intermediate picture. -/
namespace ImxTest.Pitcher.Convert
open Lib.Writes

/-! ## What the dispatcher does -/

/-- A picture has room in a destination that shows full frames. -/
def Room (src dst : Picture) : Prop :=
  src.width ≤ dst.width ∧ src.height ≤ dst.height ∧ dst.interlaced = false

section Dispatch
variable {unpackers : Unpackers} {swc : SwCvrt} {src dst : Frame} {picture : Picture}
  {format : PixelFormat} {writes : Option Writes} {mid : MidBuffer} {old : Option MidBuffer}
  {memory : Option Samples}

theorem convert_room (ok : (pitcherSwConvertFrame unpackers swc src dst).1 = .OK) :
    Room src.toPicture dst.toPicture := by
  unfold pitcherSwConvertFrame at ok
  split_ifs at ok with small interlaced
  all_goals
    obtain ⟨width, height⟩ := not_or.mp small
    exact ⟨Nat.le_of_not_lt width, Nat.le_of_not_lt height, Bool.eq_false_iff.mpr interlaced⟩

/-- The way of a picture that shows full frames and has room. -/
theorem convert_progressive (room : Room picture dst.toPicture) (full : picture.interlaced = false) :
    pitcherSwConvertFrame unpackers swc (picture.as format) dst =
      if format = .nv12 then dst.written swc (pitcherSwPack picture dst.format)
      else if format = .p016 ∧ 8 < depth dst.format then
        dst.written swc (pitcherSwPack16 picture dst.format)
      else if pitcherSwConvertCheckDepth format dst.format then
        convertSame unpackers swc (picture.as format) dst
      else convertOther unpackers swc (picture.as format) dst := by
  obtain ⟨width, height, whole⟩ := room
  have large : ¬ ((picture.as format).width > dst.width ∨ (picture.as format).height > dst.height) :=
    not_or.mpr ⟨Nat.not_lt.mpr width, Nat.not_lt.mpr height⟩
  rw [pitcherSwConvertFrame, if_neg large, if_neg (by simp [whole]),
    if_neg fun half => Bool.noConfusion (full.symm.trans half.1)]
  simp only [Picture.as, full, Bool.not_false, and_true, true_and]
  rfl

theorem new_size (made : newMidBuffer src memory = some mid) :
    mid.width = src.width ∧ mid.height = src.height := by
  unfold newMidBuffer at made
  split_ifs at made
  obtain ⟨samples, -, rfl⟩ := Option.map_eq_some_iff.mp made
  exact ⟨rfl, rfl⟩

theorem alloc_size (made : allocMidBuffer src old memory = some mid) :
    mid.width = src.width ∧ mid.height = src.height := by
  unfold allocMidBuffer at made
  split at made
  · split_ifs at made with same
    · exact Option.some.inj made ▸ ⟨same.1, same.2.1⟩
    · exact new_size made
  · exact new_size made

theorem alloc_sized (made : allocMidBuffer src old memory = some mid) :
    src.width ≠ 0 ∧ src.height ≠ 0 := by
  obtain ⟨width, height⟩ := alloc_size made
  exact width ▸ height ▸ mid.sized

theorem alloc_some (sized : src.width ≠ 0 ∧ src.height ≠ 0) (samples : Samples) :
    ∃ mid, allocMidBuffer src none (some samples) = some mid := by
  rw [allocMidBuffer, newMidBuffer, dif_neg (not_or.mpr sized)]
  exact ⟨_, rfl⟩

/-- What the way through both buffers needs. -/
theorem other_needs (ok : (convertOther unpackers swc src dst).1 = .OK) : ∃ mid mid16 writes,
    allocMidBuffer src swc.mid swc.memory = some mid ∧
    allocMidBuffer src swc.mid16 swc.memory16 = some mid16 ∧ unpack unpackers src = some writes := by
  unfold convertOther at ok
  split at ok
  next => cases ok
  next mid first =>
    split at ok
    next => cases ok
    next mid16 second =>
      split at ok
      next => cases ok
      next writes unpacked => exact ⟨mid, mid16, writes, first, second, unpacked⟩

theorem same_direct (direct : dst.format = .nv12 ∨ dst.format = .p016) :
    convertSame unpackers swc src dst = dst.written swc (unpack unpackers src) := by
  unfold convertSame
  rcases direct with nv12 | p016
  · rw [if_pos (by rw [nv12]; rfl), if_pos nv12]
  · rw [if_neg (by rw [p016]; decide), if_pos p016]

theorem same_needs8 (shallow : depth dst.format = 8) (other : dst.format ≠ .nv12)
    (ok : (convertSame unpackers swc src dst).1 = .OK) : ∃ mid writes,
      allocMidBuffer src swc.mid swc.memory = some mid ∧ unpack unpackers src = some writes := by
  rw [convertSame, if_pos shallow, if_neg other] at ok
  split at ok
  next => cases ok
  next mid first =>
    split at ok
    next => cases ok
    next writes unpacked => exact ⟨mid, writes, first, unpacked⟩

theorem same_needs16 (deep : depth dst.format ≠ 8) (other : dst.format ≠ .p016)
    (ok : (convertSame unpackers swc src dst).1 = .OK) : ∃ mid16 writes,
      allocMidBuffer src swc.mid16 swc.memory16 = some mid16 ∧ unpack unpackers src = some writes := by
  rw [convertSame, if_neg deep, if_neg other] at ok
  split at ok
  next => cases ok
  next mid16 second =>
    split at ok
    next => cases ok
    next writes unpacked => exact ⟨mid16, writes, second, unpacked⟩

theorem same_pack {writes : Writes} (shallow : depth dst.format = 8) (other : dst.format ≠ .nv12)
    (first : allocMidBuffer src swc.mid swc.memory = some mid)
    (unpacked : unpack unpackers src = some writes) :
    convertSame unpackers swc src dst = dst.written { swc with mid := some (mid.stored writes) }
      (pitcherSwPack (mid.stored writes).toPicture dst.format) := by
  rw [convertSame, if_pos shallow, if_neg other, first, unpacked]

theorem same_pack16 {writes : Writes} (deep : depth dst.format ≠ 8) (other : dst.format ≠ .p016)
    (second : allocMidBuffer src swc.mid16 swc.memory16 = some mid)
    (unpacked : unpack unpackers src = some writes) :
    convertSame unpackers swc src dst = dst.written { swc with mid16 := some (mid.stored writes) }
      (pitcherSwPack16 (mid.stored writes).toPicture dst.format) := by
  rw [convertSame, if_neg deep, if_neg other, second, unpacked]

theorem check_eight {other : PixelFormat} (eight : depth format = 8) :
    pitcherSwConvertCheckDepth format other = true ↔ depth other = 8 := by
  simp [pitcherSwConvertCheckDepth, eight]

theorem check_more {other : PixelFormat} (more : 8 < depth format) :
    pitcherSwConvertCheckDepth format other = true ↔ 8 < depth other := by
  have never : depth format ≠ 8 := Nat.ne_of_gt more
  simp [pitcherSwConvertCheckDepth, more, never]

theorem other_pack16 {mid16 : MidBuffer} {writes : Writes} (eight : depth src.format = 8)
    (deep : depth dst.format ≠ 8) (first : allocMidBuffer src swc.mid swc.memory = some mid)
    (second : allocMidBuffer src swc.mid16 swc.memory16 = some mid16)
    (unpacked : unpack unpackers src = some writes) :
    ∃ swc' picture, convertOther unpackers swc src dst =
      dst.written swc' (pitcherSwPack16 picture dst.format) := by
  have change : ¬ pitcherSwConvertCheckDepth .nv12 dst.format = true :=
    mt (check_eight rfl).mp deep
  simp only [convertOther, first, second, unpacked, if_pos eight, if_neg change]
  exact ⟨_, _, rfl⟩

theorem other_pack {mid16 : MidBuffer} {writes : Writes} (more : depth src.format ≠ 8)
    (shallow : ¬ 8 < depth dst.format) (first : allocMidBuffer src swc.mid swc.memory = some mid)
    (second : allocMidBuffer src swc.mid16 swc.memory16 = some mid16)
    (unpacked : unpack unpackers src = some writes) :
    ∃ swc' picture, convertOther unpackers swc src dst =
      dst.written swc' (pitcherSwPack picture dst.format) := by
  have change : ¬ pitcherSwConvertCheckDepth .p016 dst.format = true :=
    mt (check_more (by decide)).mp shallow
  simp only [convertOther, first, second, unpacked, if_neg more, if_neg change]
  exact ⟨_, _, rfl⟩

end Dispatch

/-! ## Pictures that the packers can take at once -/

section Pack
variable {swc : SwCvrt} {picture : Picture} {dst : Frame}

theorem written_pack (mem : dst.format ∈ packs) :
    (dst.written swc (pitcherSwPack picture dst.format)).1 = .OK ∧
      (dst.written swc (pitcherSwPack picture dst.format)).2.2.samples =
        gather (takes dst.format picture.width picture.height) picture.samples dst.samples := by
  obtain ⟨writes, packed, stores⟩ := @pack_stores _ picture mem
  rw [packed]
  exact ⟨rfl, stores dst.samples⟩

theorem written_pack16 (mem : dst.format ∈ packs16) :
    (dst.written swc (pitcherSwPack16 picture dst.format)).1 = .OK ∧
      (dst.written swc (pitcherSwPack16 picture dst.format)).2.2.samples =
        gather (takes dst.format picture.width picture.height)
          (shifted dst.format ∘ picture.samples) dst.samples := by
  obtain ⟨writes, packed, stores⟩ := @pack16_stores _ picture mem
  rw [packed]
  exact ⟨rfl, stores dst.samples⟩

theorem pack_mem (ok : (dst.written swc (pitcherSwPack picture dst.format)).1 = .OK) :
    dst.format ∈ packs := by
  by_contra other
  rw [pack_none other] at ok
  cases ok

theorem pack16_mem (ok : (dst.written swc (pitcherSwPack16 picture dst.format)).1 = .OK) :
    dst.format ∈ packs16 := by
  by_contra other
  rw [pack16_none other] at ok
  cases ok

end Pack

section Direct
variable {unpackers : Unpackers} {swc : SwCvrt} {picture : Picture} {dst : Frame}

theorem convert_nv12 (room : Room picture dst.toPicture) (full : picture.interlaced = false) :
    pitcherSwConvertFrame unpackers swc (picture.as .nv12) dst =
      dst.written swc (pitcherSwPack picture dst.format) :=
  (convert_progressive room full).trans (if_pos rfl)

theorem convert_p016 (room : Room picture dst.toPicture) (full : picture.interlaced = false)
    (deep : 8 < depth dst.format) :
    pitcherSwConvertFrame unpackers swc (picture.as .p016) dst =
      dst.written swc (pitcherSwPack16 picture dst.format) := by
  rw [convert_progressive room full, if_neg PixelFormat.noConfusion, if_pos ⟨rfl, deep⟩]

end Direct

/-! ## The way through an intermediate picture -/

/-- What the planes of an intermediate picture give back. -/
def paired (f : UInt16 → UInt16) (picture : Picture) : Samples → Samples :=
  gather (takesPairs picture.width picture.height) (f ∘ picture.samples)

section Detour
variable {unpackers : Unpackers} {swc : SwCvrt} {picture : Picture} {dst : Frame}

/-- The planar pictures take the long way. -/
theorem convert_i420 (room : Room picture dst.toPicture) (full : picture.interlaced = false) :
    pitcherSwConvertFrame unpackers swc (picture.as .i420) dst =
      if depth dst.format = 8 then convertSame unpackers swc (picture.as .i420) dst
      else convertOther unpackers swc (picture.as .i420) dst := by
  rw [convert_progressive room full, if_neg PixelFormat.noConfusion,
    if_neg fun known => PixelFormat.noConfusion known.1]
  simp only [check_eight (rfl : depth .i420 = 8)]

theorem convert_i420_10le (room : Room picture dst.toPicture) (full : picture.interlaced = false) :
    pitcherSwConvertFrame unpackers swc (picture.as .i420_10le) dst =
      if 8 < depth dst.format then convertSame unpackers swc (picture.as .i420_10le) dst
      else convertOther unpackers swc (picture.as .i420_10le) dst := by
  rw [convert_progressive room full, if_neg PixelFormat.noConfusion,
    if_neg fun known => PixelFormat.noConfusion known.1]
  simp only [check_more (by decide : 8 < depth .i420_10le)]

theorem store_i420 {mem : Samples} :
    store mem (swcUnpackI420 picture) = paired id picture mem :=
  store_gathers unpackI420_gathers

theorem store_i420_10le {mem : Samples} :
    store mem (swcUnpackI420_10le picture) = paired (· <<< 6) picture mem :=
  store_gathers unpackI420_gathers

/-- Which destinations a planar picture of 8 bits reaches, and what they get. -/
theorem i420_ok (full : picture.interlaced = false)
    (ok : (pitcherSwConvertFrame unpackers swc (picture.as .i420) dst).1 = .OK) :
    (dst.format = .nv12 ∧ (pitcherSwConvertFrame unpackers swc (picture.as .i420) dst).2.2.samples =
      paired id picture dst.samples) ∨
    (picture.width ≠ 0 ∧ picture.height ≠ 0) ∧ (dst.format ∈ packs16 ∨ dst.format ∈ packs ∧
      ∃ mem, (pitcherSwConvertFrame unpackers swc (picture.as .i420) dst).2.2.samples =
        gather (takes dst.format picture.width picture.height) (paired id picture mem) dst.samples) := by
  have room : Room picture dst.toPicture := convert_room ok
  rw [convert_i420 room full] at ok ⊢
  by_cases shallow : depth dst.format = 8
  · rw [if_pos shallow] at ok ⊢
    by_cases nv12 : dst.format = .nv12
    · refine .inl ⟨nv12, ?_⟩
      rw [same_direct (.inl nv12)]
      exact store_i420
    · obtain ⟨mid, writes, first, unpacked⟩ := same_needs8 shallow nv12 ok
      obtain ⟨width, height⟩ := alloc_size first
      rw [same_pack shallow nv12 first unpacked] at ok ⊢
      have mem := pack_mem ok
      refine .inr ⟨alloc_sized first, .inr ⟨mem, mid.samples, ?_⟩⟩
      cases unpacked
      rw [(written_pack mem).2, ← store_i420]
      exact congrArg₂ (fun w h => gather (takes dst.format w h) _ _) width height
  · rw [if_neg shallow] at ok
    obtain ⟨mid, mid16, writes, first, second, unpacked⟩ := other_needs ok
    obtain ⟨swc', between, same⟩ := @other_pack16 _ _ _ dst _ _ _ rfl shallow first second unpacked
    exact .inr ⟨alloc_sized first, .inl (pack16_mem (same ▸ ok))⟩

theorem i420_10le_ok (full : picture.interlaced = false)
    (ok : (pitcherSwConvertFrame unpackers swc (picture.as .i420_10le) dst).1 = .OK) :
    dst.format = .p016 ∨
    (picture.width ≠ 0 ∧ picture.height ≠ 0) ∧ (dst.format ∈ packs ∨ dst.format ∈ packs16 ∧
      ∃ mem, (pitcherSwConvertFrame unpackers swc (picture.as .i420_10le) dst).2.2.samples =
        gather (takes dst.format picture.width picture.height)
          (shifted dst.format ∘ paired (· <<< 6) picture mem) dst.samples) := by
  have room : Room picture dst.toPicture := convert_room ok
  rw [convert_i420_10le room full] at ok ⊢
  by_cases deep : 8 < depth dst.format
  · rw [if_pos deep] at ok ⊢
    by_cases p016 : dst.format = .p016
    · exact .inl p016
    · have more : depth dst.format ≠ 8 := Nat.ne_of_gt deep
      obtain ⟨mid, writes, second, unpacked⟩ := same_needs16 more p016 ok
      obtain ⟨width, height⟩ := alloc_size second
      rw [same_pack16 more p016 second unpacked] at ok ⊢
      have mem := pack16_mem ok
      refine .inr ⟨alloc_sized second, .inr ⟨mem, mid.samples, ?_⟩⟩
      cases unpacked
      rw [(written_pack16 mem).2, ← store_i420_10le]
      exact congrArg₂ (fun w h => gather (takes dst.format w h) _ _) width height
  · rw [if_neg deep] at ok
    obtain ⟨mid, mid16, writes, first, second, unpacked⟩ := other_needs ok
    obtain ⟨swc', between, same⟩ :=
      @other_pack _ _ _ dst _ _ _ (by decide : depth .i420_10le ≠ 8) deep first second unpacked
    exact .inr ⟨alloc_sized first, .inl (pack_mem (same ▸ ok))⟩

end Detour

/-! ## Agreement -/

/-- From `src` through a picture in the format `middle`, whose planes held `old`. -/
def detour (unpackers : Unpackers) (first second : SwCvrt) (old : Samples) (middle : PixelFormat)
    (src dst : Frame) : Ret × SwCvrt × Frame :=
  let image : Picture := { src.toPicture with samples := old }
  pitcherSwConvertFrame unpackers second
    (pitcherSwConvertFrame unpackers first src (image.as middle)).2.2 dst

/-- Whatever the way through the format `middle` puts into `dst`, the straight way does too. -/
def Met (unpackers : Unpackers) (low : PixelFormat → Nat) (middle : PixelFormat) (src dst : Frame) :
    Prop :=
  ∀ (direct first second : SwCvrt) (old : Samples),
    (detour unpackers first second old middle src dst).1 = .OK →
      (pitcherSwConvertFrame unpackers direct src dst).1 = .OK ∧
      Same low dst.format src.width src.height
        (pitcherSwConvertFrame unpackers direct src dst).2.2.samples
        (detour unpackers first second old middle src dst).2.2.samples

/-- A planar picture of this size can be converted to `dst`, given memory. -/
def Reaches (picture : Picture) (dst : Frame) : Prop :=
  Room picture dst.toPicture ∧ picture.width ≠ 0 ∧ picture.height ≠ 0

section Agreement
variable {unpackers : Unpackers} {first second : SwCvrt} {old : Samples} {picture : Picture}
  {dst : Frame}

/-- The planes between. -/
def planar (f : UInt16 → UInt16) (picture : Picture) (old : Samples) : Picture :=
  { picture with
    samples := gather (takesPlanar picture.width picture.height) (f ∘ picture.samples) old }

theorem detour_nv12 (full : picture.interlaced = false) :
    detour unpackers first second old .i420 (picture.as .nv12) dst =
      pitcherSwConvertFrame unpackers second ((planar id picture old).as .i420) dst := by
  let image : Picture := { picture with samples := old }
  have room : Room picture (image.as .i420).toPicture := ⟨Nat.le_refl _, Nat.le_refl _, full⟩
  have between : (pitcherSwConvertFrame unpackers first (picture.as .nv12) (image.as .i420)).2.2 =
      (planar id picture old).as .i420 := by
    rw [convert_nv12 room full]
    exact congrArg (fun samples => ({ picture with samples } : Picture).as .i420)
      (store_gathers packI420_gathers)
  exact congrArg (pitcherSwConvertFrame unpackers second · dst) between

theorem detour_p016 (full : picture.interlaced = false) :
    detour unpackers first second old .i420_10le (picture.as .p016) dst =
      pitcherSwConvertFrame unpackers second ((planar (· >>> 6) picture old).as .i420_10le) dst := by
  let image : Picture := { picture with samples := old }
  have room : Room picture (image.as .i420_10le).toPicture := ⟨Nat.le_refl _, Nat.le_refl _, full⟩
  have between : (pitcherSwConvertFrame unpackers first (picture.as .p016)
      (image.as .i420_10le)).2.2 = (planar (· >>> 6) picture old).as .i420_10le := by
    rw [convert_p016 room full (by decide : 8 < depth .i420_10le)]
    exact congrArg (fun samples => ({ picture with samples } : Picture).as .i420_10le)
      (store_gathers packI420_gathers)
  exact congrArg (pitcherSwConvertFrame unpackers second · dst) between

theorem planes_even {c : Cell} {w h : Nat} (even : w % 2 = 0) (shown : Shown w h c) :
    takesPlanes w h c = some c := by
  rcases c with ⟨_ | _ | p, y, x⟩
  · exact if_pos shown
  · obtain ⟨low, inside⟩ : y < halfUp h ∧ x < halfUp w * 2 := shown
    have place : x < w := by
      unfold halfUp at inside
      omega
    exact if_pos ⟨low, place⟩
  · exact shown.elim

/-- A picture of 8 bits to another one of 8 bits. Of lines of an odd width the last
sample of chroma is not copied. -/
theorem nv12_met (full : picture.interlaced = false) (mem : dst.format ∈ packs)
    (even : dst.format = .nv12 → picture.width % 2 = 0) :
    Met unpackers padding .i420 (picture.as .nv12) dst := by
  intro direct first second old ok
  rw [detour_nv12 full] at ok ⊢
  have room : Room picture dst.toPicture := convert_room ok
  obtain ⟨done, straight⟩ := @written_pack direct picture dst mem
  rw [← @convert_nv12 unpackers direct picture dst room full] at done straight
  refine ⟨done, ?_⟩
  have whole : (planar id picture old).interlaced = false := full
  rcases i420_ok whole ok with ⟨nv12, long⟩ | ⟨-, deep | ⟨-, between, long⟩⟩
  · rw [straight, long, nv12]
    intro c shown
    have taken : takes .nv12 picture.width picture.height c = some c := planes_even (even nv12) shown
    have given := @pairs_planar _ _ c id id picture.samples old dst.samples shown
    rw [gather_some taken]
    exact congrArg (fun v => UInt16.toNat v / _) given.symm
  · exact absurd (depth_packs mem) (Nat.ne_of_gt (depth_packs16 deep))
  · rw [straight, long]
    refine same_gather.mpr fun c s taken => ?_
    have given := @pairs_planar _ _ s id id picture.samples old between (takes_shown taken)
    exact congrArg (fun v => UInt16.toNat v / _) given.symm

/-- In which samples the two ways from a picture of 16 bits may differ. -/
theorem p016_same {low : PixelFormat → Nat} {direct : SwCvrt} (full : picture.interlaced = false)
    (mem : dst.format ∈ packs16)
    (ok : (detour unpackers first second old .i420_10le (picture.as .p016) dst).1 = .OK) :
    (pitcherSwConvertFrame unpackers direct (picture.as .p016) dst).1 = .OK ∧
    (Same low dst.format picture.width picture.height
      (pitcherSwConvertFrame unpackers direct (picture.as .p016) dst).2.2.samples
      (detour unpackers first second old .i420_10le (picture.as .p016) dst).2.2.samples ↔
    ∀ c s, takes dst.format picture.width picture.height c = some s →
      (shifted dst.format (picture.samples s)).toNat / 2 ^ low dst.format =
        (shifted dst.format (picture.samples s >>> 6 <<< 6)).toNat / 2 ^ low dst.format) := by
  rw [detour_p016 full] at ok ⊢
  have room : Room picture dst.toPicture := convert_room ok
  obtain ⟨done, straight⟩ := @written_pack16 direct picture dst mem
  rw [← @convert_p016 unpackers direct picture dst room full (depth_packs16 mem)] at done straight
  refine ⟨done, ?_⟩
  have whole : (planar (· >>> 6) picture old).interlaced = false := full
  rcases i420_10le_ok whole ok with p016 | ⟨-, shallow | ⟨-, between, long⟩⟩
  · exact absurd mem (by rw [p016]; decide)
  · exact absurd (depth_packs shallow) (Nat.ne_of_gt (depth_packs16 mem))
  · rw [straight, long]
    refine same_gather.trans (forall₃_congr fun c s taken => ?_)
    have given := @pairs_planar _ _ s (· >>> 6) (· <<< 6) picture.samples old between (takes_shown taken)
    rw [← given]
    rfl

/-- With memory, a planar picture is converted. -/
theorem i420_10le_reaches (full : picture.interlaced = false) (mem : dst.format ∈ packs16)
    (reach : Reaches picture dst) :
    ∃ swc, (pitcherSwConvertFrame unpackers swc (picture.as .i420_10le) dst).1 = .OK := by
  obtain ⟨room, sized⟩ := reach
  let swc : SwCvrt := { memory := none, memory16 := some fun _ => 0 }
  obtain ⟨mid, second⟩ := @alloc_some (picture.as .i420_10le) sized fun _ => 0
  have deep : 8 < depth dst.format := depth_packs16 mem
  have p016 : dst.format ≠ .p016 := fun same => absurd mem (by rw [same]; decide)
  refine ⟨swc, ?_⟩
  rw [convert_i420_10le room full, if_pos deep,
    same_pack16 (Nat.ne_of_gt deep) p016 second (rfl : unpack unpackers (picture.as .i420_10le) = _)]
  exact (written_pack16 mem).1

theorem p016_met_iff (full : picture.interlaced = false) (mem : dst.format ∈ packs16) :
    Met unpackers padding .i420_10le (picture.as .p016) dst ↔ (Reaches picture dst →
      ∀ c s, takes dst.format picture.width picture.height c = some s →
        LowFree dst.format (picture.samples s)) := by
  constructor
  · intro met reach c s taken
    have whole : (planar (· >>> 6) picture fun _ => 0).interlaced = false := full
    obtain ⟨swc, ok⟩ := @i420_10le_reaches unpackers _ dst whole mem reach
    rw [← @detour_p016 unpackers swc swc _ picture dst full] at ok
    have same := (p016_same full mem ok).2.mp (met swc swc swc (fun _ => 0) ok).2
    exact (padding_iff mem).mp (same c s taken)
  · intro free direct first second old ok
    obtain ⟨done, same⟩ := @p016_same _ _ _ _ _ _ padding direct full mem ok
    refine ⟨done, same.mpr fun c s taken => (padding_iff mem).mpr (free ?_ c s taken)⟩
    rw [detour_p016 full] at ok
    have whole : (planar (· >>> 6) picture old).interlaced = false := full
    have room : Room picture dst.toPicture := convert_room ok
    rcases i420_10le_ok whole ok with p016 | ⟨sized, -⟩
    · exact absurd mem (by rw [p016]; decide)
    · exact ⟨room, sized⟩

/-- The straight ways agree with the ways through a planar picture, as far as this
one has the bits. -/
theorem fast_path_agrees (unpackers : Unpackers) (picture : Picture) (dst : Frame)
    (full : picture.interlaced = false) :
    (dst.format ∈ packs → (dst.format = .nv12 → picture.width % 2 = 0) →
      Met unpackers padding .i420 (picture.as .nv12) dst) ∧
    (dst.format ∈ packs16 →
      Met unpackers belowTen .i420_10le (picture.as .p016) dst ∧
      (Met unpackers padding .i420_10le (picture.as .p016) dst ↔ (Reaches picture dst →
        ∀ c s, takes dst.format picture.width picture.height c = some s →
          LowFree dst.format (picture.samples s)))) := by
  refine ⟨nv12_met full, fun mem => ⟨?_, p016_met_iff full mem⟩⟩
  intro direct first second old ok
  obtain ⟨done, same⟩ := @p016_same _ _ _ _ _ _ belowTen direct full mem ok
  exact ⟨done, same.mpr fun c s _ => belowTen_same mem⟩

end Agreement

/-- None of the unpackers of other formats is used. -/
def noUnpackers : Unpackers := ⟨fun _ => [], fun _ => [], fun _ => []⟩

/-- Two lines of two samples. -/
def square (v : UInt16) : Picture := { width := 2, height := 2, samples := fun _ => v }

theorem nv12_agrees_yuyv :
    Met noUnpackers padding .i420 ((square 100).as .nv12) ((square 0).as .yuyv) :=
  (fast_path_agrees noUnpackers (square 100) ((square 0).as .yuyv) rfl).1 (by decide) PixelFormat.noConfusion

/-- The two bits that twelve bits have and ten have not get lost in between. -/
theorem p012_loses_bits :
    ¬ Met noUnpackers padding .i420_10le ((square 32).as .p016) ((square 0).as .p012) := by
  intro met
  have reach : Reaches (square 32) ((square 0).as .p012) := ⟨⟨Nat.le_refl 2, Nat.le_refl 2, rfl⟩, by decide, by decide⟩
  have free := (p016_met_iff rfl (by decide)).mp met reach (0, 0, 0) (0, 0, 0) rfl
  rcases free with known | known | low
  · cases known
  · cases known
  · exact absurd low (by decide)

end ImxTest.Pitcher.Convert
