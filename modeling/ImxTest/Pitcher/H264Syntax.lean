import ImxTest.Pitcher.H264Proofs

/-! The headers of H.264 as the standard writes them, and the parsers of
pitcher/h264_parse.c on the streams they are made for. The parser reads no colour
plane, knows the high profiles by their number, and asserts that 4:4:4 pictures
have no scaling matrix. -/
namespace ImxTest.Pitcher.H264

open Lib.BitString Reads

structure Params where
  profileIdc : Nat
  chromaFormatIdc : Nat
  separateColourPlaneFlag : Nat
  scalingMatrixFlag : Nat
  log2MaxFrameNum : Nat
  frameMbsOnlyFlag : Nat
deriving DecidableEq, Repr

/-- The profiles with the chroma elements in their sequence parameter sets. -/
def highProfiles : List Nat := [100, 110, 122, 244, 44, 83, 86, 118, 128, 138, 139, 134, 135]

/-- `separate_colour_plane_flag`, zero where it is not there. -/
def planeSyntax (chromaFormatIdc : Nat) : Reads Nat :=
  if chromaFormatIdc = 3 then readFlag else pure 0

/-- `chroma_format_idc`, `separate_colour_plane_flag` and
`seq_scaling_matrix_present_flag`. -/
def chromaSyntax : Reads (Nat × Nat × Nat) := do
  let chromaFormatIdc ← readUvlc
  let separateColourPlaneFlag ← planeSyntax chromaFormatIdc
  discard readUvlc
  discard readUvlc
  discard readFlag
  let scalingMatrixFlag ← readFlag
  .when (scalingMatrixFlag ≠ 0) (scalingLists (if chromaFormatIdc = 3 then 12 else 8) 0)
  pure (chromaFormatIdc, separateColourPlaneFlag, scalingMatrixFlag)

/-- In the other profiles the format is 4:2:0. -/
def profileSyntax (profileIdc : Nat) : Reads (Nat × Nat × Nat) :=
  if profileIdc ∈ highProfiles then chromaSyntax else pure (1, 0, 0)

def spsSyntax : Reads Params := do
  let profileIdc ← parseProfile
  let chroma ← profileSyntax profileIdc
  let log2MaxFrameNumMinus4 ← readUvlc
  parsePicOrderCnt
  let frameMbsOnlyFlag ← parseFrameInfo
  pure ⟨profileIdc, chroma.1, chroma.2.1, chroma.2.2, log2MaxFrameNumMinus4 + 4, frameMbsOnlyFlag⟩

/-- What the parser takes for granted. -/
structure Params.Supported (s : Params) : Prop where
  profile : 100 ≤ s.profileIdc ↔ s.profileIdc ∈ highProfiles
  planes : s.separateColourPlaneFlag = 0
  matrix : s.chromaFormatIdc = 3 → s.scalingMatrixFlag = 0
  log2 : s.log2MaxFrameNum ≤ 16

instance (s : Params) : Decidable s.Supported :=
  decidable_of_iff ((100 ≤ s.profileIdc ↔ s.profileIdc ∈ highProfiles) ∧ s.separateColourPlaneFlag = 0 ∧
      (s.chromaFormatIdc = 3 → s.scalingMatrixFlag = 0) ∧ s.log2MaxFrameNum ≤ 16)
    ⟨fun ⟨profile, planes, matrix, log2⟩ => ⟨profile, planes, matrix, log2⟩,
      fun ⟨profile, planes, matrix, log2⟩ => ⟨profile, planes, matrix, log2⟩⟩

structure SliceHeader where
  firstMbInSlice : Nat
  frameNum : Nat
  fieldPicFlag : Nat
  bottomFieldFlag : Nat
deriving DecidableEq, Repr

/-- The first elements of a slice header. -/
def sliceSyntax (s : Params) (idrFlag : Bool) : Reads SliceHeader := do
  let firstMbInSlice ← readUvlc
  discard readUvlc
  discard readUvlc
  .when (s.separateColourPlaneFlag ≠ 0) (discard (readCode 2))
  let frameNum ← readCode s.log2MaxFrameNum
  let flags ← parseFieldFlags s.frameMbsOnlyFlag
  .when idrFlag (discard readUvlc)
  pure ⟨firstMbInSlice, frameNum, flags.1, flags.2⟩

/-! ## The parsers -/

theorem bits_bind_some {α β : Type} {reads : Reads α} {f : α → Reads β} {bs : List Bool}
    {result : β × List Bool} : (reads >>= f).bits bs = some result ↔
      ∃ a rest, reads.bits bs = some (a, rest) ∧ (f a).bits rest = some result := by
  rw [bits_bind]
  change Option.bind _ _ = _ ↔ _
  rw [Option.bind_eq_some_iff]
  constructor
  · rintro ⟨⟨a, rest⟩, first, later⟩
    exact ⟨a, rest, first, later⟩
  · rintro ⟨a, rest, first, later⟩
    exact ⟨⟨a, rest⟩, first, later⟩

theorem bits_pure {α : Type} (a : α) (bs : List Bool) : (pure a : Reads α).bits bs = some (a, bs) := rfl

theorem bits_discard {α : Type} {reads : Reads α} {bs rest : List Bool} {a : α}
    (read : reads.bits bs = some (a, rest)) : (Functor.discard reads).bits bs = some ((), rest) :=
  bits_bind_some.mpr ⟨a, rest, read, rfl⟩

/-- The chroma elements, when planes are not separate and 4:4:4 has no matrix. -/
theorem parseChromaInfo_bits {bs rest : List Bool} {chroma matrix : Nat}
    (read : chromaSyntax.bits bs = some ((chroma, 0, matrix), rest)) (plain : chroma = 3 → matrix = 0) :
    parseChromaInfo.bits bs = some ((), rest) := by
  obtain ⟨c, b1, first, read⟩ := bits_bind_some.mp read
  obtain ⟨separate, b2, plane, read⟩ := bits_bind_some.mp read
  obtain ⟨_, b3, luma, read⟩ := bits_bind_some.mp read
  obtain ⟨_, b4, depth, read⟩ := bits_bind_some.mp read
  obtain ⟨_, b5, bypass, read⟩ := bits_bind_some.mp read
  obtain ⟨m, b6, flag, read⟩ := bits_bind_some.mp read
  obtain ⟨_, b7, lists, read⟩ := bits_bind_some.mp read
  rw [bits_pure, Option.some.injEq, Prod.mk.injEq, Prod.mk.injEq, Prod.mk.injEq] at read
  obtain ⟨⟨rfl, rfl, rfl⟩, rfl⟩ := read
  refine bits_bind_some.mpr ⟨c, b1, first, bits_bind_some.mpr ⟨(), b2, ?_, ?_⟩⟩
  · unfold planeSyntax at plane
    unfold Reads.when
    split at plane
    case isTrue three => rw [if_pos three, bits_discard plane]
    case isFalse other =>
      obtain ⟨-, rfl⟩ := Prod.mk.inj (Option.some.inj plane)
      rw [if_neg other]
      rfl
  refine bits_bind_some.mpr ⟨_, b3, luma, bits_bind_some.mpr ⟨_, b4, depth, ?_⟩⟩
  refine bits_bind_some.mpr ⟨_, b5, bypass, bits_bind_some.mpr ⟨m, b6, flag, ?_⟩⟩
  unfold Reads.when at lists ⊢
  by_cases none : m = 0
  · rw [if_neg (by simpa using none)] at lists ⊢
    exact lists
  · have other : c ≠ 3 := fun three => none (plain three)
    rw [if_pos none, if_neg other] at lists ⊢
    exact lists

/-- The values the parser stores are those of the standard. -/
theorem parseSps_bits {bs rest : List Bool} {s : Params} (read : spsSyntax.bits bs = some (s, rest))
    (supported : s.Supported) :
    parseSps.bits bs = some ((2 ^ s.log2MaxFrameNum, s.frameMbsOnlyFlag), rest) := by
  obtain ⟨profile, b1, first, read⟩ := bits_bind_some.mp read
  obtain ⟨⟨c, separate, m⟩, b2, chroma, read⟩ := bits_bind_some.mp read
  obtain ⟨value, b3, log2, read⟩ := bits_bind_some.mp read
  obtain ⟨_, b4, order, read⟩ := bits_bind_some.mp read
  obtain ⟨flag, b5, frame, read⟩ := bits_bind_some.mp read
  rw [bits_pure, Option.some.injEq, Prod.mk.injEq] at read
  obtain ⟨rfl, rfl⟩ := read
  obtain ⟨known, planes, matrix, small⟩ := supported
  simp only at known planes matrix small
  subst planes
  have shift : shiftOne ((value + 4) % 2 ^ 32) = .ok (2 ^ (value + 4)) := by
    rw [shiftOne, if_neg (by omega), Nat.mod_eq_of_lt (by omega), Nat.one_shiftLeft]
  refine bits_bind_some.mpr ⟨profile, b1, first, bits_bind_some.mpr ⟨(), b2, ?_, ?_⟩⟩
  · unfold profileSyntax at chroma
    unfold Reads.when
    by_cases high : profile ∈ highProfiles
    · rw [if_pos high] at chroma
      rw [if_pos (known.mpr high), parseChromaInfo_bits chroma matrix]
    · rw [if_neg high] at chroma
      obtain ⟨-, rfl⟩ := Prod.mk.inj (Option.some.inj chroma)
      rw [if_neg (mt known.mp high)]
      rfl
  refine bits_bind_some.mpr ⟨value, b3, log2, bits_bind_some.mpr ⟨_, b3, by rw [shift]; rfl, ?_⟩⟩
  exact bits_bind_some.mpr ⟨_, b4, order, bits_bind_some.mpr ⟨flag, b5, frame, rfl⟩⟩

theorem frameNumWidthFrom_pow {k todo i : Nat} (le : i ≤ k + 1) (enough : k + 1 < i + todo) :
    frameNumWidthFrom (2 ^ k) todo i = .ok (k + 1) := by
  induction todo generalizing i with
  | zero => omega
  | succ todo ih =>
    rw [frameNumWidthFrom, Nat.shiftRight_eq_div_pow]
    rcases Nat.lt_or_eq_of_le le with less | rfl
    · have more : 2 ^ k / 2 ^ i ≠ 0 := by
        have := Nat.div_pos (Nat.pow_le_pow_right (by decide : 0 < 2) (Nat.le_of_lt_succ less))
          (Nat.two_pow_pos i)
        omega
      rw [if_neg more]
      exact ih less (by omega)
    · rw [if_pos (Nat.div_eq_of_lt (Nat.pow_lt_pow_right (by decide) (Nat.lt_succ_self k)))]

/-- What the parser makes of a slice header. -/
def decided (info : H264ParseT) (h : SliceHeader) : Bool × H264ParseT :=
  if h.firstMbInSlice = 0 then findBoundary info h.frameNum h.fieldPicFlag h.bottomFieldFlag
  else (false, info)

theorem parseSliceHeaderInfo_bits {bs rest : List Bool} {s : Params} {h : SliceHeader} {idrFlag : Bool}
    (read : (sliceSyntax s idrFlag).bits bs = some (h, rest)) (supported : s.Supported)
    {info : H264ParseT} (max : info.maxFrameNum = 2 ^ s.log2MaxFrameNum)
    (mbs : info.frameMbsOnlyFlag = s.frameMbsOnlyFlag) :
    (parseSliceHeaderInfo info idrFlag).bits bs = some (decided info h, rest) := by
  obtain ⟨first, b1, mb, read⟩ := bits_bind_some.mp read
  obtain ⟨_, b2, type, read⟩ := bits_bind_some.mp read
  obtain ⟨_, b3, set, read⟩ := bits_bind_some.mp read
  obtain ⟨_, b4, plane, read⟩ := bits_bind_some.mp read
  obtain ⟨num, b5, number, read⟩ := bits_bind_some.mp read
  obtain ⟨⟨field, bottom⟩, b6, flags, read⟩ := bits_bind_some.mp read
  obtain ⟨_, b7, idr, read⟩ := bits_bind_some.mp read
  rw [bits_pure, Option.some.injEq, Prod.mk.injEq] at read
  obtain ⟨rfl, rfl⟩ := read
  have small := supported.log2
  rw [Reads.when, if_neg (by simp [supported.planes])] at plane
  obtain ⟨-, rfl⟩ := Prod.mk.inj (Option.some.inj plane)
  have width : frameNumWidth info.maxFrameNum = .ok (s.log2MaxFrameNum + 1) := by
    rw [max]
    exact frameNumWidthFrom_pow (Nat.zero_le _) (by omega)
  have length : (s.log2MaxFrameNum + 1 + 2 ^ 32 - 1) % 2 ^ 32 = s.log2MaxFrameNum := by omega
  refine bits_bind_some.mpr ⟨first, b1, mb, bits_bind_some.mpr ⟨_, b2, type, ?_⟩⟩
  refine bits_bind_some.mpr ⟨_, b3, set, bits_bind_some.mpr ⟨_, b3, by rw [width]; rfl, ?_⟩⟩
  refine bits_bind_some.mpr ⟨num, b5, by rw [length]; exact number, ?_⟩
  refine bits_bind_some.mpr ⟨(field, bottom), b6, by rw [mbs]; exact flags, ?_⟩
  exact bits_bind_some.mpr ⟨_, b7, idr, rfl⟩

/-! ## Headers in the memory -/

/-- More bytes do not change a header. -/
theorem header_extend {α : Type} {reads : Reads α} {bytes : List UInt8} {a : α}
    (read : header reads bytes = some a) (more : List UInt8) : header reads (bytes ++ more) = some a := by
  unfold header at read ⊢
  obtain ⟨⟨b, rest⟩, found, rfl⟩ := Option.map_eq_some_iff.mp read
  obtain ⟨tail, eq⟩ := unescape_prefix bytes more
  rw [eq, ofBytes_append, bits_extend found]
  rfl

theorem header_sps {bytes : List UInt8} {s : Params} (read : header spsSyntax bytes = some s)
    (supported : s.Supported) (info : H264ParseT) : header (parseSpsInfo info) bytes =
      some { info with
        maxFrameNum := 2 ^ s.log2MaxFrameNum
        frameMbsOnlyFlag := s.frameMbsOnlyFlag } := by
  unfold header at read ⊢
  obtain ⟨⟨b, rest⟩, found, rfl⟩ := Option.map_eq_some_iff.mp read
  have stored : (parseSpsInfo info).bits (ofBytes (unescape bytes)) =
      some ({ info with
        maxFrameNum := 2 ^ b.log2MaxFrameNum
        frameMbsOnlyFlag := b.frameMbsOnlyFlag }, rest) :=
    bits_bind_some.mpr ⟨_, rest, parseSps_bits found supported, rfl⟩
  rw [stored]
  rfl

theorem header_slice {bytes : List UInt8} {s : Params} {h : SliceHeader} {idrFlag : Bool}
    (read : header (sliceSyntax s idrFlag) bytes = some h) (supported : s.Supported)
    {info : H264ParseT} (max : info.maxFrameNum = 2 ^ s.log2MaxFrameNum)
    (mbs : info.frameMbsOnlyFlag = s.frameMbsOnlyFlag) :
    header (parseSliceHeaderInfo info idrFlag) bytes = some (decided info h) := by
  unfold header at read ⊢
  obtain ⟨⟨b, rest⟩, found, rfl⟩ := Option.map_eq_some_iff.mp read
  rw [parseSliceHeaderInfo_bits found supported max mbs]
  rfl

end ImxTest.Pitcher.H264
