import ImxTest.Pitcher.H264Syntax

/-! Which slices `parse_slice_header_info` takes for the first of a picture. The two
fields of a pair are kept together by the fields found so far and by a frame number
that stays the same; the counter of frames and fields, which tells whether there is a
frame number to compare with, is a `uint32_t`. -/
namespace ImxTest.Pitcher.H264

open Lib.BitString

/-- The bytes of a slice header, without its unit's header and emulation prevention. -/
structure Slice where
  buf : List UInt8
  idrFlag : Bool := false
deriving DecidableEq, Repr

/-- The slices of a frame or field. -/
structure SlicedField where
  first : Slice
  rest : List Slice := []
deriving DecidableEq, Repr

/-- A frame, or a pair of fields, with the sequence parameter set it refers to. -/
structure SlicedPicture where
  params : Params
  coded : SlicedField
  second : Option SlicedField := none
deriving DecidableEq, Repr

namespace Slice

def Holds (s : Params) (slice : Slice) (h : SliceHeader) : Prop :=
  ∃ rest, (sliceSyntax s slice.idrFlag).bits (ofBytes slice.buf) = some (h, rest)

end Slice

namespace SlicedPicture

def isPair (p : SlicedPicture) : Bool := p.second.isSome

/-- The first slice of a frame, or those of two complementary fields. -/
def Leads (p : SlicedPicture) : Prop :=
  match p.second with
  | none => ∃ h, p.coded.first.Holds p.params h ∧ h.firstMbInSlice = 0 ∧ h.fieldPicFlag = 0
  | some c => ∃ h h', p.coded.first.Holds p.params h ∧ c.first.Holds p.params h' ∧
      h.firstMbInSlice = 0 ∧ h'.firstMbInSlice = 0 ∧ h.fieldPicFlag ≠ 0 ∧ h'.fieldPicFlag ≠ 0 ∧
      h.frameNum = h'.frameNum ∧ (h.bottomFieldFlag ≠ 0 ↔ h'.bottomFieldFlag = 0)

def rests (p : SlicedPicture) : List Slice := p.coded.rest ++ (p.second.map (·.rest)).getD []

/-- What the headers of a picture describe. With separate colour planes there would be
further slices from the first macroblock on. -/
structure Described (p : SlicedPicture) : Prop where
  planes : p.params.separateColourPlaneFlag = 0
  log2 : p.params.log2MaxFrameNum ≤ 16
  leads : p.Leads
  rests : ∀ slice ∈ p.rests, ∃ h, slice.Holds p.params h ∧ h.firstMbInSlice ≠ 0

def slices (p : SlicedPicture) : List (Params × Slice) :=
  (p.coded.first :: p.coded.rest ++ p.second.elim [] fun c => c.first :: c.rest).map (p.params, ·)

/-- `new_frame` for each slice, set on the first. -/
def marks (p : SlicedPicture) : List Bool := true :: List.replicate (p.slices.length - 1) false

/-- The frames and fields of a picture. -/
def starts (p : SlicedPicture) : Nat := if p.isPair then 2 else 1

end SlicedPicture

/-- The values `parse_sps_info` has stored for a picture. -/
def H264ParseT.stored (info : H264ParseT) (s : Params) : H264ParseT :=
  { info with maxFrameNum := 2 ^ s.log2MaxFrameNum, frameMbsOnlyFlag := s.frameMbsOnlyFlag }

/-- `new_frame` of one slice after another. -/
def newFrames : List (Params × Slice) → H264ParseT → Except Fault (List Bool × H264ParseT)
  | [], info => .ok ([], info)
  | (s, slice) :: more, info => do
    let ((newFrame, info), _) ← (parseSliceHeaderInfo (info.stored s) slice.idrFlag).run (bsInit slice.buf)
    let (flags, info) ← newFrames more info
    .ok (newFrame :: flags, info)

/-! ## Slices -/

section Slices
variable {info : H264ParseT} {s : Params} {slice : Slice} {h : SliceHeader}

theorem newFrames_cons (planes : s.separateColourPlaneFlag = 0) (log2 : s.log2MaxFrameNum ≤ 16)
    (holds : slice.Holds s h) (more : List (Params × Slice)) :
    newFrames ((s, slice) :: more) info =
      (newFrames more (decided (info.stored s) h).2).map fun r =>
        ((decided (info.stored s) h).1 :: r.1, r.2) := by
  obtain ⟨rest, read⟩ := holds
  -- the syntax of a slice header does not depend on the profile
  let plain : Params := { s with profileIdc := 0, chromaFormatIdc := 1, scalingMatrixFlag := 0 }
  have profile : 100 ≤ 0 ↔ 0 ∈ highProfiles := by decide
  have supported : plain.Supported := ⟨profile, planes, fun _ => rfl, log2⟩
  have bits : (parseSliceHeaderInfo (info.stored s) slice.idrFlag).bits (ofBytes slice.buf) =
      some (decided (info.stored s) h, rest) :=
    parseSliceHeaderInfo_bits (s := plain) read supported rfl rfl
  have follows := Reads.run_follows _ (parseSliceHeaderInfo_ends (info.stored s) slice.idrFlag)
    (BitstreamBuf.valid_init slice.buf)
  rw [BitstreamBuf.rest_init, bits] at follows
  obtain ⟨bs, run, -⟩ := follows
  rw [newFrames]
  simp only [run, bind, Except.bind]
  cases newFrames more (decided (info.stored s) h).2 with
  | error fault => rfl
  | ok r => rfl

theorem newFrames_append {first second : List (Params × Slice)} {flags : List Bool} {mid : H264ParseT}
    (run : newFrames first info = .ok (flags, mid)) :
    newFrames (first ++ second) info = (newFrames second mid).map fun r => (flags ++ r.1, r.2) := by
  induction first generalizing info flags with
  | nil =>
    obtain ⟨rfl, rfl⟩ := Prod.mk.inj (Except.ok.inj run)
    rw [List.nil_append]
    cases newFrames second info with
    | error fault => rfl
    | ok r => rfl
  | cons head first ih =>
    obtain ⟨s, slice⟩ := head
    rw [List.cons_append, newFrames]
    rw [newFrames] at run
    cases read : (parseSliceHeaderInfo (info.stored s) slice.idrFlag).run (bsInit slice.buf) with
    | error fault => simp [read, bind, Except.bind] at run
    | ok result =>
      obtain ⟨⟨newFrame, next⟩, bs⟩ := result
      cases later : newFrames first next with
      | error fault => simp [read, later, bind, Except.bind] at run
      | ok r =>
        obtain ⟨tail, last⟩ := r
        simp only [read, later, bind, Except.bind, Except.ok.injEq, Prod.mk.injEq] at run
        obtain ⟨rfl, rfl⟩ := run
        simp only [bind, Except.bind, ih later]
        cases newFrames second last with
        | error fault => rfl
        | ok r => rfl

/-- Further slices change nothing. -/
theorem newFrames_rest {rests : List Slice} (planes : s.separateColourPlaneFlag = 0)
    (log2 : s.log2MaxFrameNum ≤ 16)
    (further : ∀ slice ∈ rests, ∃ h, slice.Holds s h ∧ h.firstMbInSlice ≠ 0) (stored : info.stored s = info) :
    newFrames (rests.map (s, ·)) info = .ok (List.replicate rests.length false, info) := by
  induction rests with
  | nil => rfl
  | cons slice rests ih =>
    obtain ⟨h, holds, later⟩ := further slice List.mem_cons_self
    have same : decided (info.stored s) h = (false, info) := by rw [decided, if_neg later, stored]
    rw [List.map_cons, newFrames_cons planes log2 holds, same,
      ih fun slice mem => further slice (List.mem_cons_of_mem _ mem)]
    rfl

theorem findBoundary_stored {frameNum field bottom : Nat} :
    (findBoundary (info.stored s) frameNum field bottom).2.stored s =
      (findBoundary (info.stored s) frameNum field bottom).2 := by
  unfold findBoundary findField H264ParseT.stored
  dsimp only
  split_ifs <;> rfl

/-- The first slice of a frame or field and its further ones. -/
theorem newFrames_field (info : H264ParseT) {f : SlicedField} (planes : s.separateColourPlaneFlag = 0)
    (log2 : s.log2MaxFrameNum ≤ 16) (holds : f.first.Holds s h) (zero : h.firstMbInSlice = 0)
    (further : ∀ slice ∈ f.rest, ∃ h, slice.Holds s h ∧ h.firstMbInSlice ≠ 0) :
    newFrames ((f.first :: f.rest).map (s, ·)) info =
      .ok ((decided (info.stored s) h).1 :: List.replicate f.rest.length false,
        (decided (info.stored s) h).2) := by
  have stored : (decided (info.stored s) h).2.stored s = (decided (info.stored s) h).2 := by
    rw [decided, if_pos zero]
    exact findBoundary_stored
  rw [List.map_cons, newFrames_cons planes log2 holds, newFrames_rest planes log2 further stored]
  rfl

end Slices

/-! ## Pictures -/

/-- The counters between two pictures, `n` frames and fields from the start. -/
structure Between (n : Nat) (info : H264ParseT) : Prop where
  even : info.bfFound = info.tfFound
  count : info.frameCnt = n % 2 ^ 32

section Pictures
variable {n : Nat} {info : H264ParseT} {s : Params} {h h' : SliceHeader}

theorem decided_frame (between : Between n info) (zero : h.firstMbInSlice = 0) (frame : h.fieldPicFlag = 0) :
    (decided (info.stored s) h).1 = true ∧ Between (n + 1) (decided (info.stored s) h).2 := by
  obtain ⟨even, count⟩ := between
  rw [decided, if_pos zero]
  simp only [findBoundary, if_pos frame, ite_self, true_and]
  refine ⟨even, ?_⟩
  simp only [H264ParseT.stored, count, Nat.mod_add_mod]

/-- The first field of a pair, and what is found of it. -/
theorem decided_first (between : Between n info) (zero : h.firstMbInSlice = 0) (field : h.fieldPicFlag ≠ 0)
    (mbs : s.frameMbsOnlyFlag = 0) :
    (decided (info.stored s) h).1 = true ∧ (decided (info.stored s) h).2.curFrameNum = h.frameNum ∧
      (decided (info.stored s) h).2.frameCnt = (n + 1) % 2 ^ 32 ∧
      (decided (info.stored s) h).2.bfFound = (if h.bottomFieldFlag ≠ 0 then 1 else 0) ∧
      (decided (info.stored s) h).2.tfFound = (if h.bottomFieldFlag ≠ 0 then 0 else 1) := by
  obtain ⟨even, count⟩ := between
  rw [decided, if_pos zero]
  simp only [findBoundary, H264ParseT.stored, mbs, ne_eq, not_true_eq_false, if_false, if_neg field,
    findField, even, BEq.rfl, Bool.true_or, if_true, count, Nat.mod_add_mod]
  split_ifs <;> simp

/-- The second field of a pair begins no picture as long as the counter shows that there
was a field before. -/
theorem decided_second {mid : H264ParseT} (zero : h'.firstMbInSlice = 0) (field : h'.fieldPicFlag ≠ 0)
    (mbs : s.frameMbsOnlyFlag = 0) (num : mid.curFrameNum = h'.frameNum) (word : h'.frameNum < 2 ^ 32 - 1)
    (count : mid.frameCnt = (n + 1) % 2 ^ 32)
    (bottom : mid.bfFound = if h'.bottomFieldFlag ≠ 0 then 0 else 1)
    (top : mid.tfFound = if h'.bottomFieldFlag ≠ 0 then 1 else 0) :
    ((decided (mid.stored s) h').1 = false ↔ ¬ 2 ^ 32 ∣ n + 1) ∧
      Between (n + 2) (decided (mid.stored s) h').2 := by
  have apart : (mid.bfFound == mid.tfFound) = false := by
    rw [bottom, top]
    split_ifs <;> rfl
  have more : (mid.frameCnt + 1) % 2 ^ 32 = (n + 2) % 2 ^ 32 := by omega
  rw [decided, if_pos zero]
  simp only [findBoundary, H264ParseT.stored, mbs, ne_eq, not_true_eq_false, if_false, if_neg field,
    findField, apart, Bool.false_or, Bool.false_eq_true]
  refine ⟨?_, ?_, ?_⟩
  · rw [Nat.dvd_iff_mod_eq_zero, ← count]
    by_cases wrapped : mid.frameCnt = 0
    · split_ifs <;> simp [wrapped] <;> omega
    · split_ifs <;> simp [wrapped, num]
  · by_cases below : h'.bottomFieldFlag = 0
    · simp [bottom, below]
    · simp [top, below]
  · by_cases below : h'.bottomFieldFlag = 0
    · simpa [below] using more
    · simpa [below] using more

theorem readCode_lt {bs rest : List Bool} {length v : Nat}
    (read : (readCode length).bits bs = some (v, rest)) : v < 2 ^ length := by
  simp only [readCode, Reads.bits] at read
  split_ifs at read
  obtain ⟨⟨num, left⟩, number, same⟩ := Option.bind_eq_some_iff.mp read
  obtain ⟨rfl, rfl⟩ := Prod.mk.inj (Option.some.inj same)
  unfold readBits at number
  split_ifs at number
  exact take_lt number

/-- What the syntax of a header says of its values. -/
theorem sliceSyntax_values {slice : Slice} (holds : slice.Holds s h) :
    h.frameNum < 2 ^ s.log2MaxFrameNum ∧ (h.fieldPicFlag ≠ 0 → s.frameMbsOnlyFlag = 0) := by
  obtain ⟨rest, read⟩ := holds
  obtain ⟨_, _, -, read⟩ := bits_bind_some.mp read
  obtain ⟨_, _, -, read⟩ := bits_bind_some.mp read
  obtain ⟨_, _, -, read⟩ := bits_bind_some.mp read
  obtain ⟨_, _, -, read⟩ := bits_bind_some.mp read
  obtain ⟨num, _, number, read⟩ := bits_bind_some.mp read
  obtain ⟨flags, _, fields, read⟩ := bits_bind_some.mp read
  obtain ⟨_, _, -, read⟩ := bits_bind_some.mp read
  rw [bits_pure, Option.some.injEq, Prod.mk.injEq] at read
  obtain ⟨rfl, -⟩ := read
  refine ⟨readCode_lt number, fun field => ?_⟩
  by_contra frames
  rw [parseFieldFlags, if_neg frames, bits_pure] at fields
  obtain ⟨rfl, -⟩ := Prod.mk.inj (Option.some.inj fields)
  exact field rfl

/-- A picture between two others: what is set for it, and when that is right. -/
theorem newFrames_picture {p : SlicedPicture} (described : p.Described) (between : Between n info) :
    ∃ flags last, newFrames p.slices info = .ok (flags, last) ∧ flags.length = p.marks.length ∧
      Between (n + p.starts) last ∧ (flags = p.marks ↔ (p.isPair = true → ¬ 2 ^ 32 ∣ n + 1)) := by
  obtain ⟨planes, log2, leads, rests⟩ := described
  obtain ⟨params, coded, second⟩ := p
  cases second with
  | none =>
    obtain ⟨h, holds, zero, frame⟩ := leads
    have run := newFrames_field info planes log2 holds zero fun slice mem =>
      rests slice (List.mem_append_left _ mem)
    obtain ⟨set, after⟩ := decided_frame (s := params) between zero frame
    have marks : (decided (info.stored params) h).1 :: List.replicate coded.rest.length false =
        SlicedPicture.marks ⟨params, coded, none⟩ := by
      simp [SlicedPicture.marks, SlicedPicture.slices, set]
    refine ⟨_, _, ?_, congrArg List.length marks, after, ?_⟩
    · simpa [SlicedPicture.slices] using run
    · simp [marks, SlicedPicture.isPair]
  | some c =>
    obtain ⟨h, h', holds, holds', zero, zero', field, field', num, parity⟩ := leads
    obtain ⟨word, -⟩ := sliceSyntax_values holds'
    have mbs := (sliceSyntax_values holds).2 field
    have run := newFrames_field info planes log2 holds zero fun slice mem =>
      rests slice (List.mem_append_left _ mem)
    have run' := newFrames_field (decided (info.stored params) h).2 planes log2 holds' zero'
      fun slice mem => rests slice (List.mem_append_right _ mem)
    obtain ⟨set, cur, count, bottom, top⟩ := decided_first (s := params) between zero field mbs
    have small : h'.frameNum < 2 ^ 32 - 1 := by
      have bound := Nat.pow_le_pow_right (show 0 < 2 by decide) log2
      exact word.trans_le (bound.trans (by decide))
    obtain ⟨unset, after⟩ := decided_second (s := params) (n := n) zero' field' mbs (cur.trans num) small count
      (by rw [bottom]; split_ifs <;> simp_all) (by rw [top]; split_ifs <;> simp_all)
    have marks : SlicedPicture.marks ⟨params, coded, some c⟩ = (true ::
        List.replicate coded.rest.length false) ++ (false :: List.replicate c.rest.length false) := by
      have length : (SlicedPicture.slices ⟨params, coded, some c⟩).length - 1 =
          coded.rest.length + (c.rest.length + 1) := by
        simp [SlicedPicture.slices]
      rw [SlicedPicture.marks, length, List.replicate_add, List.replicate_succ, List.cons_append]
    refine ⟨((decided (info.stored params) h).1 :: List.replicate coded.rest.length false) ++
      ((decided ((decided (info.stored params) h).2.stored params) h').1 ::
        List.replicate c.rest.length false), _, ?_, ?_, after, ?_⟩
    · rw [SlicedPicture.slices, List.map_append, newFrames_append run, Option.elim_some, run']
      rfl
    · simp [marks]
    · rw [marks, set]
      simp [SlicedPicture.isPair, unset]

end Pictures

/-! ## Sequences of pictures -/

/-- No second field comes when the counter has run through all its values, where `n`
frames and fields were counted before. -/
def Steady (n : Nat) (ps : List SlicedPicture) : Prop :=
  ∀ before p after, ps = before ++ p :: after → p.isPair = true →
    ¬ 2 ^ 32 ∣ n + (before.map (·.starts)).sum + 1

/-- The first slice of each picture is the one that is marked. -/
def Exact (ps : List SlicedPicture) : Prop :=
  ∃ last, newFrames (ps.flatMap (·.slices)) {} = .ok (ps.flatMap (·.marks), last)

section Sequences
variable {n : Nat} {p : SlicedPicture} {ps : List SlicedPicture} {info : H264ParseT}

theorem steady_cons : Steady n (p :: ps) ↔ (p.isPair = true → ¬ 2 ^ 32 ∣ n + 1) ∧ Steady (n + p.starts) ps := by
  constructor
  · intro steady
    refine ⟨fun pair => steady [] p ps rfl pair, ?_⟩
    rintro before q after rfl pair
    have later := steady (p :: before) q after rfl pair
    rwa [List.map_cons, List.sum_cons, ← Nat.add_assoc] at later
  · rintro ⟨here, later⟩ before q after split pair
    cases before with
    | nil =>
      obtain ⟨rfl, rfl⟩ := List.cons.inj split
      exact here pair
    | cons b before =>
      obtain ⟨rfl, rfl⟩ := List.cons.inj split
      rw [List.map_cons, List.sum_cons, ← Nat.add_assoc]
      exact later before q after rfl pair

theorem newFrames_pictures (described : ∀ p ∈ ps, p.Described) (between : Between n info) :
    ∃ flags last, newFrames (ps.flatMap (·.slices)) info = .ok (flags, last) ∧
      (flags = ps.flatMap (·.marks) ↔ Steady n ps) := by
  induction ps generalizing n info with
  | nil =>
    refine ⟨[], info, rfl, fun _ before p after split => ?_, fun _ => rfl⟩
    simp at split
  | cons p ps ih =>
    obtain ⟨flags, mid, first, length, between', right⟩ :=
      newFrames_picture (described p List.mem_cons_self) between
    obtain ⟨more, last, later, right'⟩ :=
      ih (fun q mem => described q (List.mem_cons_of_mem p mem)) between'
    refine ⟨flags ++ more, last, ?_, ?_⟩
    · rw [List.flatMap_cons, newFrames_append first, later]
      rfl
    · rw [List.flatMap_cons, steady_cons, ← right, ← right']
      constructor
      · exact fun same => List.append_inj same length
      · rintro ⟨rfl, rfl⟩
        rfl

theorem exact_iff (described : ∀ p ∈ ps, p.Described) : Exact ps ↔ Steady 0 ps := by
  obtain ⟨flags, last, run, right⟩ := @newFrames_pictures 0 ps {} described ⟨rfl, rfl⟩
  rw [← right]
  constructor
  · rintro ⟨last', run'⟩
    exact (Prod.mk.inj (Except.ok.inj (run.symm.trans run'))).1
  · rintro rfl
    exact ⟨last, run⟩

/-- `new_frame` is set just on the first slice of each picture, exactly when no second
field has a multiple of 2^32 frames and fields before it. -/
theorem boundary_iff (described : ∀ p ∈ ps, p.Described) : Exact ps ↔
    ∀ before p after, ps = before ++ p :: after → p.isPair = true →
      ¬ 2 ^ 32 ∣ (before.map (·.starts)).sum + 1 := by
  rw [exact_iff described, Steady]
  simp only [Nat.zero_add]

end Sequences

/-- A sequence parameter set of an interlaced stream. -/
def interlaced : Params := ⟨77, 1, 0, 0, 4, 0⟩

/-- An intra frame, and a pair of intra fields with two slices in the first. -/
def intraFrame : SlicedPicture := { params := interlaced, coded := { first := ⟨[0x88, 0x80], false⟩ } }

def intraFields : SlicedPicture :=
  { params := interlaced
    coded := { first := ⟨[0x88, 0x84], false⟩, rest := [⟨[0x42, 0x21, 0], false⟩] }
    second := some { first := ⟨[0x88, 0x86], false⟩ } }

theorem intraFrame_described : intraFrame.Described where
  planes := rfl
  log2 := by decide
  leads := ⟨⟨0, 0, 0, 0⟩, ⟨[false, false], rfl⟩, rfl, rfl⟩
  rests := nofun

theorem intraFields_described : intraFields.Described where
  planes := rfl
  log2 := by decide
  leads := ⟨⟨0, 0, 1, 0⟩, ⟨0, 0, 1, 1⟩, ⟨[false], rfl⟩, ⟨[false], rfl⟩, rfl, rfl, by decide, by decide,
    rfl, by decide⟩
  rests := by
    intro slice mem
    obtain rfl := List.mem_singleton.mp mem
    exact ⟨⟨1, 0, 1, 0⟩, ⟨List.replicate 7 false, rfl⟩, by decide⟩

theorem boundary_fields : Exact [intraFrame, intraFields] := by
  refine (boundary_iff ?_).mpr ?_
  · intro p mem
    simp only [List.mem_cons, List.not_mem_nil, or_false] at mem
    rcases mem with rfl | rfl
    · exact intraFrame_described
    · exact intraFields_described
  · intro before p after split pair
    match before with
    | [] =>
      obtain ⟨rfl, -⟩ := List.cons.inj split
      cases pair
    | [q] =>
      obtain ⟨rfl, -⟩ := List.cons.inj split
      decide
    | q :: r :: before => simp at split

/-- A pair behind `k` frames. -/
def behindFrames (k : Nat) : List SlicedPicture := List.replicate k intraFrame ++ [intraFields]

theorem behindFrames_described (k : Nat) : ∀ p ∈ behindFrames k, p.Described := by
  intro p mem
  rcases List.mem_append.mp mem with frame | fields
  · obtain rfl := List.eq_of_mem_replicate frame
    exact intraFrame_described
  · obtain rfl := List.mem_singleton.mp fields
    exact intraFields_described

theorem behindFrames_apart {k : Nat} (wraps : 2 ^ 32 ∣ k + 1) : ¬ Exact (behindFrames k) := by
  intro exact
  have steady := (exact_iff (behindFrames_described k)).mp exact (List.replicate k intraFrame)
    intraFields [] rfl rfl
  rw [List.map_replicate, List.sum_replicate_nat, Nat.zero_add] at steady
  exact steady (by simpa [SlicedPicture.starts, SlicedPicture.isPair, intraFrame] using wraps)

/-- After as many frames as the counter has values less one, a pair comes apart. -/
theorem boundary_wraps : ∃ ps : List SlicedPicture, (∀ p ∈ ps, p.Described) ∧ ¬ Exact ps :=
  ⟨behindFrames (2 ^ 32 - 1), behindFrames_described _, behindFrames_apart (by decide)⟩

end ImxTest.Pitcher.H264
