import ImxTest.Extractor.CodecData
import ImxTest.Lib.Wrap
import ImxTest.Pitcher.PixFmt

/-! The frames that media_extractor.c makes of an MP4 file: first the codec data, then the
samples, which a parser library hands out in parts. -/
namespace ImxTest.Extractor
open Lib.BitString Lib.Copy Lib.While Lib.Wrap
open Pitcher (Ret PixelFormat)

/-- What is returned for an error. -/
def retCode : Ret → Int
  | .OK => 0
  | .E_NULL_POINTER => -10
  | .E_INVAL => -11
  | .E_MMAP => -12
  | .E_OPEN => -13
  | .E_NO_MEMORY => -14
  | .E_EMPTY => -15
  | .E_FULL => -16
  | .E_NOSYS => -17
  | .E_NOT_READY => -18
  | .E_NOT_MATCH => -19
  | .E_NOT_FOUND => -20
  | .E_NOT_SUPPORT => -21

inductive ReadMode where
  | trackBased | fileBased
deriving DecidableEq, Repr

/-- What a parser answers; `notFinished` is `FLAG_SAMPLE_NOT_FINISHED`. -/
structure Reply where
  ret : Int
  pdata : Option Nat
  size : Nat
  notFinished : Bool
  track : Nat

/-- A parser library. It is asked for a part of a sample, may request room for it and write
there. `PARSER_EOS` and `PARSER_NOT_READY` are not what stands for success or for a sample that
is not finished. -/
structure Parser (σ : Type) where
  getNextSample : σ → (track : Nat) → (request : Nat → Option Nat) → Bytes → Reply × Bytes × σ
  getFileNextSample : σ → (track : Nat) → (request : Nat → Option Nat) → Bytes → Reply × Bytes × σ
  eos : Int
  notReady : Int
  eos_own : eos ≠ retCode .OK ∧ eos ≠ retCode .E_NOT_READY
  notReady_own : notReady ≠ retCode .OK

/-- `struct mm_extractor_test_t`, with the plane of its buffer. -/
structure Mme (σ : Type) where
  handle : σ
  readMode : ReadMode
  trackIndex : Nat
  format : PixelFormat
  codecData : List UInt8
  codecDataSent : Bool
  isAvcc : Bool
  isHvcc : Bool
  lengthSize : Nat
  frameCount : Nat
  isEnd : Bool
  mem : Bytes
  size : Nat
  bytesused : Nat

variable {σ : Type}

/-- Room behind what is in the plane. -/
def mmeRequestBuffer (planeSize bytesused size : Nat) : Option Nat :=
  if size = 0 then none
  else if size + bytesused > planeSize then none
  else some bytesused

def Parser.ask (parser : Parser σ) : ReadMode → σ → (track : Nat) → (request : Nat → Option Nat) → Bytes →
    Reply × Bytes × σ
  | .trackBased => parser.getNextSample
  | .fileBased => parser.getFileNextSample

/-- A turn of the loop of `mme_get_next_sample`, with what it returns. -/
def sampleTurn (parser : Parser σ) (mme : Mme σ) : Except Fault (Turn (Mme σ) (Int × Mme σ)) :=
  let (reply, mem, handle) := parser.ask mme.readMode mme.handle mme.trackIndex
    (mmeRequestBuffer mme.size mme.bytesused) mme.mem
  let mme := { mme with mem, handle }
  if mme.readMode = .fileBased ∧ reply.track ≠ mme.trackIndex then .ok (.again mme)
  else if reply.ret = parser.notReady then .ok (.leave (reply.ret, mme))
  else
    let mme := if reply.pdata.isSome ∧ reply.size ≠ 0 then { mme with bytesused := mme.bytesused + reply.size } else mme
    let (ret, mme) :=
      if reply.notFinished then (retCode .E_NOT_READY, mme)
      else if mme.bytesused ≠ 0 then (retCode .OK, { mme with frameCount := mme.frameCount + 1 })
      else (reply.ret, mme)
    if ret = parser.eos then .ok (.leave (ret, { mme with isEnd := true }))
    else if ret = retCode .OK then .ok (.leave (ret, mme))
    else .ok (.again mme)

/-- How `mme_get_next_sample` ends. -/
def MmeGetNextSample (parser : Parser σ) (mme : Mme σ) (outcome : Except Fault (Int × Mme σ)) : Prop :=
  Ends (sampleTurn parser) mme outcome

/-- Behind the conversion of the codec data. -/
def Mme.codecDataDone (mme : Mme σ) (result : Ret × List UInt8) : Int × Mme σ :=
  let mme := { mme with mem := store mme.mem 0 result.2 }
  if result.1 ≠ .OK then (retCode .E_INVAL, { mme with isEnd := true })
  else (retCode .OK, { mme with bytesused := result.2.length, codecDataSent := true })

/-- How `mme_handle_frame` ends. -/
def MmeHandleFrame (parser : Parser σ) (mme : Mme σ) (outcome : Except Fault (Int × Mme σ)) : Prop :=
  if mme.codecData ≠ [] ∧ mme.codecDataSent = false then
    if mme.codecData.length > mme.size then outcome = .ok (retCode .E_INVAL, { mme with isEnd := true })
    else
      match mme.format with
      | .h264 => ∃ result, MmeAvcc2annexbCodecdata mme.codecData mme.size result ∧
          outcome = result.map
            { mme with isAvcc := true, lengthSize := lengthSizeOf (field mme.codecData 4) }.codecDataDone
      | .h265 => outcome = (mmeHvcc2annexbCodecdata mme.codecData mme.size).map
            { mme with isHvcc := true, lengthSize := lengthSizeOf (field mme.codecData 21) }.codecDataDone
      | _ => outcome = .ok (mme.codecDataDone (.OK, mme.codecData))
  else
    ∃ sample, MmeGetNextSample parser mme sample ∧
      match sample with
      | .error fault => outcome = .error fault
      | .ok (ret, mme) =>
        if ret ≠ retCode .OK then outcome = .ok (ret, mme)
        else if mme.isAvcc ∨ mme.isHvcc then
          ∃ frame, MmeMp4ToAnnexbFrame mme.lengthSize (u32 mme.bytesused) mme.mem frame ∧
            outcome = frame.map fun mem => (retCode .OK, { mme with mem })
        else outcome = .ok (retCode .OK, mme)

/-! ## A sample in parts -/

/-- What a parser does when it is asked: it answers for another track, as it may where the
whole file is read, or it hands out a part of the sample. -/
inductive Piece where
  | other
  | part (bytes : List UInt8)

def Piece.bytes : Piece → List UInt8
  | .other => []
  | .part bytes => bytes

/-- Only requested room is written. -/
def Within (request : Nat → Option Nat) (mem after : Bytes) : Prop :=
  ∀ a, after a ≠ mem a → ∃ n place, request n = some place ∧ place ≤ a ∧ a < place + n

/-- A part of the sample is where it was requested, with more to come or not. -/
structure Hands (request : Nat → Option Nat) (track : Nat) (bytes : List UInt8) (more : Bool) (mem : Bytes)
    (reply : Reply) (after : Bytes) : Prop where
  success : reply.ret = retCode .OK
  track_eq : reply.track = track
  notFinished_eq : reply.notFinished = more
  size_eq : reply.size = bytes.length
  pdata_eq : bytes ≠ [] → reply.pdata = request bytes.length
  written : ∀ place, request bytes.length = some place → span after place bytes.length = bytes
  within : Within request mem after

/-- The parser hands out these pieces, whatever is in the plane, as long as there is room. -/
def Delivers (parser : Parser σ) (mode : ReadMode) (track : Nat) : List Piece → σ → Prop
  | [], _ => False
  | .other :: rest, handle =>
    mode = .fileBased ∧ ∀ request mem, ∃ reply after next,
      parser.ask mode handle track request mem = (reply, after, next) ∧ reply.track ≠ track ∧
        Within request mem after ∧ Delivers parser mode track rest next
  | .part bytes :: rest, handle =>
    ∀ request mem, (bytes ≠ [] → (request bytes.length).isSome) → ∃ reply after next,
      parser.ask mode handle track request mem = (reply, after, next) ∧
        Hands request track bytes (!rest.isEmpty) mem reply after ∧
        (rest ≠ [] → Delivers parser mode track rest next)

section Parts
variable {parser : Parser σ} {mme : Mme σ} {reply : Reply} {after : Bytes} {next : σ} {bytes : List UInt8}
  {more : Bool} {pieces : List Piece}

/-- Requested room lies behind what is in the plane. -/
theorem within_front (within : Within (mmeRequestBuffer mme.size mme.bytesused) mme.mem after) :
    span after 0 mme.bytesused = span mme.mem 0 mme.bytesused := by
  apply span_eq_iff.mpr
  intro k inside
  by_contra changed
  obtain ⟨n, place, room, from_, -⟩ := within _ changed
  unfold mmeRequestBuffer at room
  split at room
  · cases room
  split at room
  · cases room
  · cases room
    omega

theorem sampleTurn_other (answered : parser.ask mme.readMode mme.handle mme.trackIndex
      (mmeRequestBuffer mme.size mme.bytesused) mme.mem = (reply, after, next))
    (file : mme.readMode = .fileBased) (other : reply.track ≠ mme.trackIndex) :
    sampleTurn parser mme = .ok (.again { mme with mem := after, handle := next }) := by
  unfold sampleTurn
  rw [answered]
  exact if_pos ⟨file, other⟩

/-- A finished sample counts as a frame, unless it is empty. -/
def Mme.counted (mme : Mme σ) : Mme σ :=
  if mme.bytesused ≠ 0 then { mme with frameCount := mme.frameCount + 1 } else mme

theorem sampleTurn_part (answered : parser.ask mme.readMode mme.handle mme.trackIndex
      (mmeRequestBuffer mme.size mme.bytesused) mme.mem = (reply, after, next))
    (hands : Hands (mmeRequestBuffer mme.size mme.bytesused) mme.trackIndex bytes more mme.mem reply after)
    (room : mme.bytesused + bytes.length ≤ mme.size) :
    sampleTurn parser mme =
      let grown := { mme with mem := after, handle := next, bytesused := mme.bytesused + bytes.length }
      .ok (if more then .again grown else .leave (retCode .OK, grown.counted)) := by
  have mine : ¬ (mme.readMode = .fileBased ∧ reply.track ≠ mme.trackIndex) := fun both => both.2 hands.track_eq
  have ready : reply.ret ≠ parser.notReady := hands.success ▸ parser.notReady_own.symm
  have grown : (if reply.pdata.isSome ∧ reply.size ≠ 0 then
      { mme with mem := after, handle := next, bytesused := mme.bytesused + reply.size }
      else { mme with mem := after, handle := next }) =
      { mme with mem := after, handle := next, bytesused := mme.bytesused + bytes.length } := by
    rw [hands.size_eq]
    by_cases empty : bytes = []
    · rw [if_neg fun both => both.2 (by rw [empty]; rfl), empty]
      rfl
    · have some_ := List.length_pos_iff.mpr empty
      have given : mmeRequestBuffer mme.size mme.bytesused bytes.length = some mme.bytesused := by
        rw [mmeRequestBuffer, if_neg (by omega), if_neg (by omega)]
      rw [if_pos ⟨by rw [hands.pdata_eq empty, given]; rfl, by omega⟩]
  unfold sampleTurn
  rw [answered]
  dsimp only
  rw [if_neg mine, if_neg ready, grown, hands.notFinished_eq, hands.success]
  cases more with
  | true =>
    have own := parser.eos_own.2.symm
    rw [if_pos rfl]
    dsimp only
    rw [if_neg own, if_neg (by decide)]
    rfl
  | false =>
    have own := parser.eos_own.1.symm
    rw [if_neg Bool.false_ne_true, Mme.counted]
    by_cases some_ : mme.bytesused + bytes.length ≠ 0
    · rw [if_pos some_]
      dsimp only
      rw [if_neg own, if_pos rfl, if_pos some_]
      rfl
    · rw [if_neg some_]
      dsimp only
      rw [if_neg own, if_pos rfl, if_neg some_]
      rfl

/-- The part stands behind what was in the plane before. -/
theorem Hands.appended (hands : Hands (mmeRequestBuffer mme.size mme.bytesused) mme.trackIndex bytes more mme.mem
      reply after) (room : mme.bytesused + bytes.length ≤ mme.size) :
    span after 0 (mme.bytesused + bytes.length) = span mme.mem 0 mme.bytesused ++ bytes := by
  rw [span_append, within_front hands.within, Nat.zero_add]
  congr 1
  by_cases empty : bytes = []
  · rw [empty]
    rfl
  · have some_ := List.length_pos_iff.mpr empty
    exact hands.written mme.bytesused (by rw [mmeRequestBuffer, if_neg (by omega), if_neg (by omega)])

/-- The parts of a sample end up one behind the other. -/
theorem sample_parts (delivers : Delivers parser mme.readMode mme.trackIndex pieces mme.handle)
    (room : mme.bytesused + (pieces.flatMap Piece.bytes).length ≤ mme.size) :
    ∃ mem handle, MmeGetNextSample parser mme (.ok (retCode .OK,
        { mme with mem, handle, bytesused := mme.bytesused + (pieces.flatMap Piece.bytes).length }.counted)) ∧
      span mem 0 (mme.bytesused + (pieces.flatMap Piece.bytes).length) =
        span mme.mem 0 mme.bytesused ++ pieces.flatMap Piece.bytes := by
  induction pieces generalizing mme with
  | nil => exact delivers.elim
  | cons piece rest ih =>
    cases piece with
    | other =>
      obtain ⟨file, answers⟩ := delivers
      obtain ⟨reply, after, next, answered, other, within, delivers⟩ :=
        answers (mmeRequestBuffer mme.size mme.bytesused) mme.mem
      obtain ⟨mem, handle, ended, all⟩ := @ih { mme with mem := after, handle := next } delivers room
      refine ⟨mem, handle, (ends_again (sampleTurn_other answered file other)).mpr ended, ?_⟩
      exact all.trans (congrArg (· ++ _) (within_front within))
    | part bytes =>
      have front : (Piece.part bytes :: rest).flatMap Piece.bytes = bytes ++ rest.flatMap Piece.bytes :=
        List.flatMap_cons
      rw [front, List.length_append, ← Nat.add_assoc] at room
      rw [front, List.length_append, ← Nat.add_assoc, ← List.append_assoc]
      have asked : bytes ≠ [] → (mmeRequestBuffer mme.size mme.bytesused bytes.length).isSome := by
        intro some_
        have positive := List.length_pos_iff.mpr some_
        rw [mmeRequestBuffer, if_neg (by omega), if_neg (by omega)]
        rfl
      obtain ⟨reply, after, next, answered, hands, delivers⟩ :=
        delivers (mmeRequestBuffer mme.size mme.bytesused) mme.mem asked
      have turn := sampleTurn_part answered hands (by omega)
      have appended := hands.appended (by omega)
      cases rest with
      | nil =>
        rw [List.flatMap_nil, List.append_nil]
        exact ⟨after, next, ends_leave turn, appended⟩
      | cons following rest =>
        obtain ⟨mem, handle, ended, all⟩ :=
          @ih { mme with mem := after, handle := next, bytesused := mme.bytesused + bytes.length }
            (delivers (List.cons_ne_nil _ _)) room
        refine ⟨mem, handle, (ends_again turn).mpr ended, all.trans ?_⟩
        exact congrArg (· ++ _) appended

end Parts

/-! ## Annex B -/

section AnnexB
variable {lengthSize : Nat} {nals : List (List UInt8)}

/-- Units behind their lengths become units behind start codes, in a sample of that many
bytes, and in one that a parser hands out in any parts. -/
theorem annexb_sample (known : lengthSize = 3 ∨ lengthSize = 4) (some_ : nals ≠ [])
    (lengths : ∀ nal ∈ nals, nal.length < 2 ^ (8 * lengthSize))
    (small : (lengthPrefixed lengthSize nals).length < 2 ^ 32) :
    (∀ mem, span mem 0 (lengthPrefixed lengthSize nals).length = lengthPrefixed lengthSize nals →
      ∃ after, MmeMp4ToAnnexbFrame lengthSize (lengthPrefixed lengthSize nals).length mem (.ok after) ∧
        span after 0 (lengthPrefixed lengthSize nals).length = startCoded lengthSize nals) ∧
    ∀ (parser : Parser σ) (mme : Mme σ) (pieces : List Piece),
      pieces.flatMap Piece.bytes = lengthPrefixed lengthSize nals →
      Delivers parser mme.readMode mme.trackIndex pieces mme.handle →
      mme.codecData = [] ∨ mme.codecDataSent = true → mme.isAvcc = true ∨ mme.isHvcc = true →
      mme.lengthSize = lengthSize → mme.bytesused = 0 → (lengthPrefixed lengthSize nals).length ≤ mme.size →
      ∃ after, MmeHandleFrame parser mme (.ok (retCode .OK, after)) ∧
        after.bytesused = (lengthPrefixed lengthSize nals).length ∧
        span after.mem 0 after.bytesused = startCoded lengthSize nals := by
  have converted (mem : Bytes)
      (here : span mem 0 (lengthPrefixed lengthSize nals).length = lengthPrefixed lengthSize nals) :
      ∃ after, MmeMp4ToAnnexbFrame lengthSize (lengthPrefixed lengthSize nals).length mem (.ok after) ∧
        span after 0 (lengthPrefixed lengthSize nals).length = startCoded lengthSize nals := by
    obtain ⟨after, ended, codes, -⟩ := annexb_units (by omega) (by omega) small lengths here (Nat.zero_add _)
    exact ⟨after, ended, codes⟩
  refine ⟨converted, ?_⟩
  intro parser mme pieces split delivers sent annexb known_ empty room
  have total : mme.bytesused + (pieces.flatMap Piece.bytes).length = (lengthPrefixed lengthSize nals).length := by
    rw [empty, split, Nat.zero_add]
  obtain ⟨mem, handle, ended, parts⟩ := sample_parts delivers (total ▸ room)
  have positive : (lengthPrefixed lengthSize nals).length ≠ 0 := by
    obtain ⟨nal, rest, rfl⟩ := List.exists_cons_of_ne_nil some_
    rw [lengthPrefixed, List.flatMap_cons, List.length_append, List.length_append, bytesOf_length]
    omega
  rw [total] at ended parts
  rw [split, empty, span_zero, List.nil_append] at parts
  obtain ⟨after, frame, codes⟩ := converted mem parts
  have frames : ({ mme with mem, handle, bytesused := (lengthPrefixed lengthSize nals).length }.counted : Mme σ) =
      { mme with mem, handle, bytesused := (lengthPrefixed lengthSize nals).length, frameCount := mme.frameCount + 1 } :=
    if_pos positive
  rw [frames] at ended
  have samples : ¬ (mme.codecData ≠ [] ∧ mme.codecDataSent = false) := by
    rintro ⟨data, unsent⟩
    exact sent.elim data fun done => Bool.false_ne_true (unsent.symm.trans done)
  have handled : MmeHandleFrame parser mme (.ok (retCode .OK,
      { mme with
        mem := after
        handle
        bytesused := (lengthPrefixed lengthSize nals).length
        frameCount := mme.frameCount + 1 })) := by
    unfold MmeHandleFrame
    rw [if_neg samples]
    refine ⟨_, ended, ?_⟩
    dsimp only
    rw [if_neg (not_not.mpr rfl), if_pos annexb, u32_small small, known_]
    exact ⟨.ok after, frame, rfl⟩
  exact ⟨_, handled, rfl, codes⟩

end AnnexB

/-! ## A parser -/

/-- Hands out what it has, part by part. -/
def partsAnswer (parts : List (List UInt8)) (track : Nat) (request : Nat → Option Nat) (mem : Bytes) :
    Reply × Bytes × List (List UInt8) :=
  match parts with
  | [] => (⟨1, none, 0, false, track⟩, mem, [])
  | part :: rest =>
    match request part.length with
    | some place => (⟨0, some place, part.length, !rest.isEmpty, track⟩, store mem place part, rest)
    | none => (⟨if part = [] then 0 else -1, none, 0, !rest.isEmpty, track⟩, mem, rest)

def partsParser : Parser (List (List UInt8)) where
  getNextSample := partsAnswer
  getFileNextSample := partsAnswer
  eos := 1
  notReady := 2
  eos_own := by decide
  notReady_own := by decide

section PartsParser
variable {mode : ReadMode} {track : Nat} {part : List UInt8} {rest : List (List UInt8)}
  {request : Nat → Option Nat} {mem : Bytes}

theorem store_outside {place a : Nat} (out : a < place ∨ place + part.length ≤ a) : store mem place part a = mem a := by
  unfold store
  split
  · rfl
  · exact List.getD_eq_default _ _ (by omega)

theorem partsAnswer_hands (asked : part ≠ [] → (request part.length).isSome) : ∃ reply after,
    partsAnswer (part :: rest) track request mem = (reply, after, rest) ∧
      Hands request track part (!rest.isEmpty) mem reply after := by
  unfold partsAnswer
  dsimp only
  cases given : request part.length with
  | some place =>
    refine ⟨_, _, rfl, rfl, rfl, rfl, rfl, fun _ => given.symm, ?_, ?_⟩
    · intro place' same
      cases given.symm.trans same
      exact span_store
    · intro a changed
      refine ⟨part.length, place, given, ?_⟩
      by_contra out
      exact changed (store_outside (by omega))
  | none =>
    obtain rfl : part = [] := by
      by_contra some_
      rw [given] at asked
      exact Bool.false_ne_true (asked some_)
    refine ⟨_, _, rfl, rfl, rfl, rfl, rfl, fun some_ => absurd rfl some_, ?_, ?_⟩
    · intro place same
      rw [given] at same
      cases same
    · intro a changed
      exact absurd rfl changed

theorem partsParser_delivers :
    Delivers partsParser mode track ((part :: rest).map Piece.part) (part :: rest) := by
  induction rest generalizing part with
  | nil =>
    intro request mem asked
    obtain ⟨reply, after, answered, hands⟩ := @partsAnswer_hands track part [] request mem asked
    refine ⟨reply, after, [], ?_, hands, fun some_ => absurd rfl some_⟩
    cases mode with
    | trackBased => exact answered
    | fileBased => exact answered
  | cons following rest ih =>
    intro request mem asked
    obtain ⟨reply, after, answered, hands⟩ := @partsAnswer_hands track part (following :: rest) request mem asked
    refine ⟨reply, after, following :: rest, ?_, hands, fun _ => ih⟩
    cases mode with
    | trackBased => exact answered
    | fileBased => exact answered

end PartsParser

def partsMme (parts : List (List UInt8)) : Mme (List (List UInt8)) where
  handle := parts
  readMode := .trackBased
  trackIndex := 0
  format := .h264
  codecData := [0x01, 0x42, 0x00, 0x1e, 0xff, 0xe1, 0x00, 0x01, 0x67, 0x01, 0x00, 0x01, 0x68]
  codecDataSent := true
  isAvcc := true
  isHvcc := false
  lengthSize := 4
  frameCount := 0
  isEnd := false
  mem := fun _ => 0xff
  size := 64
  bytesused := 0

/-- Two units, in three parts. -/
theorem annexb_sample_parts :
    ∃ after, MmeHandleFrame partsParser
        (partsMme [[0x00, 0x00], [0x00, 0x02, 0x65, 0x88, 0x00], [0x00, 0x00, 0x01, 0x41]]) (.ok (0, after)) ∧
      after.bytesused = 11 ∧
      span after.mem 0 after.bytesused = [0x00, 0x00, 0x00, 0x01, 0x65, 0x88, 0x00, 0x00, 0x00, 0x01, 0x41] :=
  (@annexb_sample _ 4 [[0x65, 0x88], [0x41]] (.inr rfl) (List.cons_ne_nil _ _) (by decide) (by decide)).2 partsParser
    (partsMme [[0x00, 0x00], [0x00, 0x02, 0x65, 0x88, 0x00], [0x00, 0x00, 0x01, 0x41]])
    (List.map Piece.part [[0x00, 0x00], [0x00, 0x02, 0x65, 0x88, 0x00], [0x00, 0x00, 0x01, 0x41]]) rfl
    partsParser_delivers (.inr rfl) (.inl rfl) rfl rfl (by decide)

end ImxTest.Extractor
