import ImxTest.Pitcher.H264
import ImxTest.Pitcher.BitstreamProofs

/-! What `h264_check_frame` makes of the bytes of a unit: it runs to its end exactly
when the headers it parses can be read from their bits. -/
namespace ImxTest.Pitcher.H264

open Lib.BitString Reads

/-! ## The faults of the parsing functions -/

theorem ends_pure {α : Type} (a : α) : (pure a : Reads α).Ends := trivial

theorem ends_readCode (n : Nat) : (readCode n).Ends := fun _ => trivial

theorem ends_readFlag : readFlag.Ends := fun _ => trivial

theorem ends_readUvlc : readUvlc.Ends := fun _ => trivial

theorem ends_readSvlc : readSvlc.Ends := fun _ => trivial

theorem Ends.discard {α : Type} {reads : Reads α} (ends : reads.Ends) :
    (Functor.discard reads).Ends := Ends.bind ends fun _ => trivial

theorem Ends.ite {α : Type} {c : Prop} [Decidable c] {x y : Reads α} (first : x.Ends) (second : y.Ends) :
    (if c then x else y).Ends := by
  split
  · exact first
  · exact second

theorem Ends.when {c : Prop} [Decidable c] {reads : Reads Unit} (ends : reads.Ends) :
    (Reads.when c reads).Ends := Ends.ite ends (ends_pure ())

theorem scalingListFrom_ends (todo i lastScale nextScale : Nat) :
    (scalingListFrom todo i lastScale nextScale).Ends := by
  induction todo generalizing i lastScale nextScale with
  | zero => trivial
  | succ todo ih =>
    refine Ends.ite (Ends.bind ends_readSvlc fun delta => ?_) (ih ..)
    exact Ends.ite (ends_pure ()) (ih ..)

theorem scalingLists_ends (todo i : Nat) : (scalingLists todo i).Ends := by
  induction todo generalizing i with
  | zero => trivial
  | succ todo ih =>
    refine Ends.bind ends_readFlag fun value => Ends.bind ?_ fun _ => ih (i + 1)
    exact Ends.when (scalingListFrom_ends ..)

theorem parseChromaInfo_ends : parseChromaInfo.Ends := by
  refine Ends.bind ends_readUvlc fun chroma => Ends.bind (Ends.when (Ends.discard ends_readFlag)) fun _ => ?_
  refine Ends.bind (Ends.discard ends_readUvlc) fun _ => Ends.bind (Ends.discard ends_readUvlc) fun _ => ?_
  refine Ends.bind (Ends.discard ends_readFlag) fun _ => Ends.bind ends_readFlag fun value => Ends.when ?_
  exact Ends.ite trivial (scalingLists_ends 8 0)

theorem parseOffsets_ends (todo : Nat) : (parseOffsets todo).Ends := by
  induction todo with
  | zero => trivial
  | succ todo ih => exact Ends.bind (Ends.discard ends_readSvlc) fun _ => ih

theorem parsePicOrderCnt_ends : parsePicOrderCnt.Ends := by
  refine Ends.bind ends_readUvlc fun type => Ends.ite (Ends.discard ends_readUvlc) (Ends.when ?_)
  refine Ends.bind (Ends.discard ends_readFlag) fun _ => Ends.bind (Ends.discard ends_readSvlc) fun _ => ?_
  exact Ends.bind (Ends.discard ends_readSvlc) fun _ => Ends.bind ends_readUvlc fun n => parseOffsets_ends n

theorem parseFrameInfo_ends : parseFrameInfo.Ends := by
  refine Ends.bind (Ends.discard ends_readUvlc) fun _ => Ends.bind (Ends.discard ends_readFlag) fun _ => ?_
  refine Ends.bind (Ends.discard ends_readUvlc) fun _ => Ends.bind (Ends.discard ends_readUvlc) fun _ => ?_
  refine Ends.bind ends_readFlag fun mbs => Ends.bind (Ends.when (Ends.discard ends_readFlag)) fun _ => ?_
  refine Ends.bind (Ends.discard ends_readFlag) fun _ => Ends.bind ends_readFlag fun crop => ?_
  refine Ends.bind (Ends.when ?_) fun _ => Ends.bind (Ends.discard ends_readFlag) fun _ => trivial
  refine Ends.bind (Ends.discard ends_readUvlc) fun _ => Ends.bind (Ends.discard ends_readUvlc) fun _ => ?_
  exact Ends.bind (Ends.discard ends_readUvlc) fun _ => Ends.discard ends_readUvlc

theorem ends_check {α : Type} {computed : Except Fault α}
    (trips : ∀ fault, computed = .error fault → fault.Trip) : (Reads.check computed).Ends := by
  cases computed with
  | ok a => trivial
  | error fault => exact trips fault rfl

theorem shiftOne_trips (n : Nat) : ∀ fault, shiftOne n = .error fault → fault.Trip := by
  unfold shiftOne
  split
  · rintro fault ⟨⟩
    trivial
  · simp

theorem parseProfile_ends : parseProfile.Ends := by
  refine Ends.bind (ends_readCode 8) fun profile => ?_
  refine Ends.bind (Ends.discard ends_readFlag) fun _ => Ends.bind (Ends.discard ends_readFlag) fun _ => ?_
  refine Ends.bind (Ends.discard ends_readFlag) fun _ => Ends.bind (Ends.discard ends_readFlag) fun _ => ?_
  refine Ends.bind (Ends.discard ends_readFlag) fun _ => Ends.bind (Ends.discard ends_readFlag) fun _ => ?_
  refine Ends.bind (Ends.discard (ends_readCode 2)) fun _ => Ends.bind (Ends.discard (ends_readCode 8)) fun _ => ?_
  exact Ends.bind (Ends.discard ends_readUvlc) fun _ => trivial

theorem parseSpsInfo_ends (info : H264ParseT) : (parseSpsInfo info).Ends := by
  refine Ends.bind ?_ fun _ => trivial
  refine Ends.bind parseProfile_ends fun profile => Ends.bind (Ends.when parseChromaInfo_ends) fun _ => ?_
  refine Ends.bind ends_readUvlc fun value => Ends.bind (ends_check (shiftOne_trips _)) fun m => ?_
  exact Ends.bind parsePicOrderCnt_ends fun _ => Ends.bind parseFrameInfo_ends fun _ => trivial

theorem frameNumWidthFrom_trips (maxFrameNum todo i : Nat) :
    ∀ fault, frameNumWidthFrom maxFrameNum todo i = .error fault → fault.Trip := by
  induction todo generalizing i with
  | zero =>
    rintro fault ⟨⟩
    trivial
  | succ todo ih =>
    rw [frameNumWidthFrom]
    split
    · simp
    · exact ih (i + 1)

theorem parseFieldFlags_ends (frameMbsOnlyFlag : Nat) : (parseFieldFlags frameMbsOnlyFlag).Ends := by
  refine Ends.ite (Ends.bind ends_readFlag fun field => ?_) (ends_pure _)
  exact Ends.ite (Ends.bind ends_readFlag fun bottom => trivial) (ends_pure _)

theorem parseSliceHeaderInfo_ends (info : H264ParseT) (idrFlag : Bool) :
    (parseSliceHeaderInfo info idrFlag).Ends := by
  refine Ends.bind ends_readUvlc fun first => Ends.bind (Ends.discard ends_readUvlc) fun _ => ?_
  refine Ends.bind (Ends.discard ends_readUvlc) fun _ => ?_
  refine Ends.bind (ends_check (frameNumWidthFrom_trips _ 32 0)) fun i => Ends.bind (ends_readCode _) fun num => ?_
  exact Ends.bind (parseFieldFlags_ends _) fun flags =>
    Ends.bind (Ends.when (Ends.discard ends_readUvlc)) fun _ => trivial

/-! ## A header and its bytes -/

/-- What a parsing function makes of some bytes behind the header of a unit. -/
def header {α : Type} (reads : Reads α) (bytes : List UInt8) : Option α :=
  (reads.bits (ofBytes (unescape bytes))).map Prod.fst

/-- The bytes of a unit of `size` bytes behind its header; none, when `size` is
no `int`. -/
def nalBytes (virt : Nat → UInt8) (p size : Nat) : List UInt8 :=
  if size < 2 ^ 31 then bytesAt virt (p + 1) (size - 1) else []

/-- The first address past all those looked at for these bytes. -/
def nalReach (virt : Nat → UInt8) (p size : Nat) : Nat :=
  if size < 2 ^ 31 ∧ 1 < size then p + size + (looksPast (nalBytes virt p size)).toNat else 0

theorem nalRemoveEmulBytes_unit (virt : Nat → UInt8) (p : Nat) {size : Nat} (word : size < 2 ^ 32) :
    nalRemoveEmulBytes virt p (asInt size) 1 0x000003 =
      ⟨unescape (nalBytes virt p size), nalReach virt p size⟩ := by
  have empty : ∀ n : Int, n ≤ 1 → nalRemoveEmulBytes virt p n 1 3 = {} := by
    intro n small
    have none : ¬ 1 < n.toNat := by omega
    unfold nalRemoveEmulBytes
    cases fuel : n.toNat <;> simp [nalRemoveEmulBytesLoop]
    omega
  unfold nalReach asInt
  by_cases int : size < 2 ^ 31
  · by_cases more : 1 < size
    · rw [if_pos int, nalRemoveEmulBytes_spec virt p (by omega), if_neg (by omega), if_pos ⟨int, more⟩,
        nalBytes, if_pos int]
    · rw [if_pos int, empty _ (by omega), if_neg (by omega), nalBytes, if_pos int,
        show size - 1 = 0 by omega]
      rfl
  · rw [if_neg int, empty _ (by omega), if_neg (by omega), nalBytes, if_neg int]
    rfl

/-- A parse of a unit succeeds exactly when its header can be read. -/
theorem parseNal_spec {α : Type} {reads : Reads α} (ends : reads.Ends) (virt : Nat → UInt8) (p : Nat)
    {size limit : Nat} (word : size < 2 ^ 32) (fits : size ≤ limit) :
    match header reads (nalBytes virt p size) with
    | some a => parseNal reads virt p size limit = .ok (a, nalReach virt p size)
    | none => ∃ fault, parseNal reads virt p size limit = .error fault ∧ fault.Trip := by
  have unit := nalRemoveEmulBytes_unit virt p word
  have follows := run_follows reads ends (BitstreamBuf.valid_init (unescape (nalBytes virt p size)))
  rw [BitstreamBuf.rest_init] at follows
  simp only [parseNal, unit, Bind.bind, Except.bind, header]
  cases read : reads.bits (ofBytes (unescape (nalBytes virt p size))) with
  | none =>
    rw [read] at follows
    obtain ⟨fault, error, proper⟩ := follows
    exact ⟨fault, by rw [error], proper⟩
  | some pair =>
    obtain ⟨a, rest⟩ := pair
    rw [read] at follows
    obtain ⟨bs, run, valid, -, buf⟩ := follows
    -- the bits read are in the bytes written, which are fewer than those of the unit
    have written := unescape_length (nalBytes virt p size)
    have length : (nalBytes virt p size).length ≤ size - 1 := by
      unfold nalBytes
      split <;> simp
    have pointer := valid.pointer
    have count := valid.count
    rw [buf] at pointer
    have consumed : ¬ limit < ((bs.numBitsRead + 7) % 2 ^ 32) >>> 3 := by
      rw [Nat.shiftRight_eq_div_pow]
      simp only [bsInit] at pointer
      omega
    simp only [Option.map_some, run, consumed, if_false]

theorem parseNal_trips {α : Type} {reads : Reads α} (ends : reads.Ends) (virt : Nat → UInt8) (p : Nat)
    {size limit : Nat} (word : size < 2 ^ 32) (fits : size ≤ limit) :
    ∀ fault, parseNal reads virt p size limit = .error fault → fault.Trip := by
  intro fault failed
  have spec := parseNal_spec ends virt p word fits
  cases read : header reads (nalBytes virt p size) with
  | none =>
    rw [read] at spec
    obtain ⟨fault', error, trip⟩ := spec
    rw [failed] at error
    cases error
    exact trip
  | some a =>
    rw [read] at spec
    rw [failed] at spec
    contradiction

/-! ## Units -/

/-- What the units met so far have left: the private data, and the place of a
sequence parameter set that is not read yet. -/
structure Met where
  info : H264ParseT := {}
  sps : Option Nat := none
deriving DecidableEq, Repr

/-- The private data with the pending sequence parameter set, which ends in front
of `p`. -/
def Met.settle (virt : Nat → UInt8) (p : Nat) (m : Met) : Option H264ParseT :=
  match m.sps with
  | none => some m.info
  | some q => header (parseSpsInfo m.info) (nalBytes virt q (spsSize p q))

/-- The unit at `p` when `info` is known: its type and what it leaves. Nothing when
it is a slice whose header cannot be read from its first bytes. -/
def readUnit (virt : Nat → UInt8) (size p : Nat) (info : H264ParseT) : Option (ParserType × Met) :=
  let type := (virt p).toNat &&& 0x1f
  if type = 1 ∨ type = 5 then
    if info.headerCnt = 0 then some (.UNKNOWN, { info })
    else (header (parseSliceHeaderInfo info (type == 5))
        (nalBytes virt p (min (leftSize size p) MAX_SLICE_HDR_SZ))).map fun (newFrame, info) =>
      (if newFrame then .FRAME else .UNKNOWN, { info })
  else if type = 7 then
    some (.CONFIG, ⟨{ info with headerCnt := (info.headerCnt + 1) % 2 ^ 32, configFound := 1 }, some p⟩)
  else if type = 8 ∨ type = 6 then some (.CONFIG, { info := { info with configFound := 1 } })
  else some (.UNKNOWN, { info })

/-- A unit of at least two bytes completes the sequence parameter set before it. -/
def meet (virt : Nat → UInt8) (size p : Nat) (m : Met) : Option (ParserType × Met) :=
  if leftSize size p < 2 then some (.UNKNOWN, m)
  else m.settle virt p >>= readUnit virt size p

/-- The unit at `p` is a slice whose first bytes end the file, and the search for
emulation prevention bytes looks past them. -/
def peeks (virt : Nat → UInt8) (size p : Nat) (m : Met) : Bool :=
  let type := (virt p).toNat &&& 0x1f
  let n := min (leftSize size p) MAX_SLICE_HDR_SZ
  decide (2 ≤ leftSize size p) && (type == 1 || type == 5) && m.info.headerCnt != 0 &&
    (p + n == size && looksPast (nalBytes virt p n))

/-- The callback's state holds what was met. -/
structure Keeps (buffer : Nat) (s : H264State) (m : Met) : Prop where
  info : s.info = m.info
  psps : s.psps = m.sps.map (buffer, ·)

theorem Keeps.state {buffer : Nat} {s : H264State} {m : Met} (keeps : Keeps buffer s m) :
    s = ⟨m.info, m.sps.map (buffer, ·), s.reach⟩ := by
  obtain ⟨info, psps, reach⟩ := s
  obtain ⟨rfl, same⟩ := keeps
  simp only at same ⊢
  rw [same]

theorem spsSize_word (p q : Nat) : spsSize p q < 2 ^ 32 := by
  unfold spsSize
  omega

theorem spsSize_le {p q : Nat} (before : q < p) : spsSize p q ≤ p - q := by
  unfold spsSize
  omega

theorem nalReach_le (virt : Nat → UInt8) (p n : Nat) : nalReach virt p n ≤ p + n + 1 := by
  have := Bool.toNat_le (looksPast (nalBytes virt p n))
  unfold nalReach
  split <;> omega

theorem parseSpsInfo_header {info next : H264ParseT} {bytes : List UInt8}
    (read : header (parseSpsInfo info) bytes = some next) :
    ∃ m f, header parseSps bytes = some (m, f) ∧
      next = { info with maxFrameNum := m, frameMbsOnlyFlag := f } := by
  unfold header parseSpsInfo at read
  rw [bits_bind] at read
  cases sps : parseSps.bits (ofBytes (unescape bytes)) with
  | none => simp [sps] at read
  | some pair =>
    obtain ⟨⟨m, f⟩, rest⟩ := pair
    rw [sps] at read
    exact ⟨m, f, by rw [header, sps]; rfl, (Option.some.inj read).symm⟩

theorem Met.settle_headerCnt {virt : Nat → UInt8} {p : Nat} {m : Met} {info : H264ParseT}
    (settled : m.settle virt p = some info) : info.headerCnt = m.info.headerCnt := by
  unfold Met.settle at settled
  split at settled
  case h_1 =>
    obtain rfl := Option.some.inj settled
    rfl
  case h_2 =>
    obtain ⟨_, _, -, rfl⟩ := parseSpsInfo_header settled
    rfl

theorem checkPsps_spec (virt : Nat → UInt8) {buffer size p : Nat} {s : H264State} {m : Met}
    (keeps : Keeps buffer s m) (inside : p + 2 ≤ size) (before : ∀ q, m.sps = some q → q < p) :
    match m.settle virt p with
    | some info => ∃ s', checkPsps buffer virt p s = .ok s' ∧ Keeps buffer s' { info } ∧
      (s'.reach ≤ size ↔ s.reach ≤ size)
    | none => ∃ fault, checkPsps buffer virt p s = .error fault ∧ fault.Trip := by
  obtain ⟨info, sps⟩ := m
  rw [keeps.state]
  cases sps with
  | none => exact ⟨_, rfl, ⟨rfl, rfl⟩, Iff.rfl⟩
  | some q =>
    have less := before q rfl
    have spec := parseNal_spec (parseSpsInfo_ends info) virt q (spsSize_word p q) (le_refl _)
    simp only [Met.settle, checkPsps, Option.map_some, ne_eq, not_true_eq_false, if_false, Bind.bind,
      Except.bind]
    cases read : header (parseSpsInfo info) (nalBytes virt q (spsSize p q)) with
    | none =>
      rw [read] at spec
      obtain ⟨fault, error, trip⟩ := spec
      exact ⟨fault, by rw [error], trip⟩
    | some next =>
      rw [read] at spec
      refine ⟨_, by rw [spec], ⟨rfl, rfl⟩, ?_⟩
      have := nalReach_le virt q (spsSize p q)
      have := spsSize_le less
      simp only [Nat.max_le]
      omega

/-- A slice's header: read from its first bytes, or refused. -/
theorem parseSlice_spec (virt : Nat → UInt8) {size p : Nat} (some_ : 2 ≤ leftSize size p)
    (info : H264ParseT) (idr : Bool) :
    let n := min (leftSize size p) MAX_SLICE_HDR_SZ
    match header (parseSliceHeaderInfo info idr) (nalBytes virt p n) with
    | some a => ∃ reach, parseNal (parseSliceHeaderInfo info idr) virt p n MAX_SLICE_HDR_SZ = .ok (a, reach) ∧
      (reach ≤ size ↔ (p + n == size && looksPast (nalBytes virt p n)) = false)
    | none => ∃ fault, parseNal (parseSliceHeaderInfo info idr) virt p n MAX_SLICE_HDR_SZ = .error fault ∧
      fault.Trip := by
  intro n
  have small : n ≤ 32 := min_le_right ..
  have left : n ≤ leftSize size p := min_le_left ..
  have two : 2 ≤ n := le_min some_ (by decide)
  have inside : p + leftSize size p ≤ size := by
    unfold leftSize at some_ ⊢
    omega
  have spec := parseNal_spec (parseSliceHeaderInfo_ends info idr) virt p (show n < 2 ^ 32 by omega) small
  cases read : header (parseSliceHeaderInfo info idr) (nalBytes virt p n) with
  | none =>
    rw [read] at spec
    exact spec
  | some a =>
    rw [read] at spec
    refine ⟨_, spec, ?_⟩
    rw [nalReach, if_pos ⟨by omega, by omega⟩]
    cases past : looksPast (nalBytes virt p n)
    · simp
      omega
    · simp
      omega

/-- A call does what is said of the unit, and looks past the file where it peeks. -/
theorem h264CheckFrame_spec (virt : Nat → UInt8) (size : Nat) {buffer p : Nat} {s : H264State} {m : Met}
    (keeps : Keeps buffer s m) (before : ∀ q, m.sps = some q → q < p) :
    match meet virt size p m with
    | some (type, m') => ∃ s', h264CheckFrame buffer virt p (leftSize size p) s = .ok (type, s') ∧
      Keeps buffer s' m' ∧ (s'.reach ≤ size ↔ s.reach ≤ size ∧ peeks virt size p m = false)
    | none => ∃ fault, h264CheckFrame buffer virt p (leftSize size p) s = .error fault ∧ fault.Trip := by
  unfold meet h264CheckFrame
  by_cases short : leftSize size p < 2
  · have quiet : peeks virt size p m = false := by simp [peeks, short]
    simp only [short, if_true]
    exact ⟨s, rfl, keeps, by simp [quiet]⟩
  · have some_ : 2 ≤ leftSize size p := by omega
    have inside : p + 2 ≤ size := by
      unfold leftSize at some_
      omega
    have settled := checkPsps_spec virt keeps inside before
    simp only [short, if_false]
    cases pending : m.settle virt p with
    | none =>
      rw [pending] at settled
      obtain ⟨fault, error, trip⟩ := settled
      simp only [error, Bind.bind, Except.bind, Option.bind]
      exact ⟨fault, rfl, trip⟩
    | some info =>
      have count := Met.settle_headerCnt pending
      rw [pending] at settled
      obtain ⟨s', checked, keeps', low⟩ := settled
      have state := keeps'.state
      generalize s'.reach = reach at state low
      subst state
      simp only [checked, Bind.bind, Except.bind, Option.bind, readUnit, Option.map_none]
      by_cases slice : (virt p).toNat &&& 0x1f = 1 ∨ (virt p).toNat &&& 0x1f = 5
      · simp only [slice, if_true]
        by_cases none_ : info.headerCnt = 0
        · have quiet : peeks virt size p m = false := by simp [peeks, ← count, none_]
          simp only [none_, if_true]
          exact ⟨_, rfl, ⟨rfl, rfl⟩, by simp [quiet, low]⟩
        · have looks : peeks virt size p m =
              (p + min (leftSize size p) MAX_SLICE_HDR_SZ == size &&
                looksPast (nalBytes virt p (min (leftSize size p) MAX_SLICE_HDR_SZ))) := by
            have kind : ((virt p).toNat &&& 0x1f == 1 || (virt p).toNat &&& 0x1f == 5) = true := by
              simpa using slice
            have counted : (m.info.headerCnt != 0) = true := by simpa [← count] using none_
            simp only [peeks, some_, decide_true, kind, counted, Bool.true_and]
          simp only [none_, if_false]
          have spec := parseSlice_spec virt some_ info ((virt p).toNat &&& 0x1f == 5)
          simp only at spec
          cases read : header (parseSliceHeaderInfo info ((virt p).toNat &&& 0x1f == 5))
              (nalBytes virt p (min (leftSize size p) MAX_SLICE_HDR_SZ)) with
          | none =>
            rw [read] at spec
            obtain ⟨fault, error, trip⟩ := spec
            simp only [error, Option.map_none]
            exact ⟨fault, rfl, trip⟩
          | some result =>
            obtain ⟨newFrame, next⟩ := result
            rw [read] at spec
            obtain ⟨reach', parsed, outside⟩ := spec
            simp only [parsed, Option.map_some]
            refine ⟨_, rfl, ⟨rfl, rfl⟩, ?_⟩
            rw [looks, ← outside, ← low]
            exact Nat.max_le
      · have kind : ((virt p).toNat &&& 0x1f == 1 || (virt p).toNat &&& 0x1f == 5) = false := by
          simpa using slice
        have quiet : peeks virt size p m = false := by
          simp only [peeks, kind, Bool.and_false, Bool.false_and]
        have same : reach ≤ size ↔ s.reach ≤ size ∧ peeks virt size p m = false := by simp [quiet, low]
        simp only [slice, if_false]
        by_cases sps : (virt p).toNat &&& 0x1f = 7
        · simp only [sps, if_true]
          exact ⟨_, rfl, ⟨rfl, rfl⟩, same⟩
        · simp only [sps, if_false]
          by_cases config : (virt p).toNat &&& 0x1f = 8 ∨ (virt p).toNat &&& 0x1f = 6
          · simp only [config, if_true]
            exact ⟨_, rfl, ⟨rfl, rfl⟩, same⟩
          · simp only [config, if_false]
            exact ⟨_, rfl, ⟨rfl, rfl⟩, same⟩

end ImxTest.Pitcher.H264
