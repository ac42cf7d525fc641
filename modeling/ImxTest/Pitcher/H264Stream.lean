import ImxTest.Pitcher.H264Syntax
import ImxTest.Pitcher.Pictures

/-! Streams of frames and pairs of complementary fields, and what `h264_check_frame`
makes of their units: each picture has one frame, its first slice. -/
namespace ImxTest.Pitcher.H264

open Lib.Cut Scan Elementary

/-! ## Streams of pictures -/

def typeOf (e : Element) : Nat := (e.bytes.headD 0).toNat &&& 0x1f

/-- A slice of a picture that is not partitioned. -/
def isSlice (type : Nat) : Bool := type == 1 || type == 5

/-- The case labels that give `PARSER_TYPE_CONFIG`: SPS, PPS and SEI. -/
def isConfig (type : Nat) : Bool := type == 7 || type == 8 || type == 6

/-- The NAL units of a coded frame or field: those in front of its first slice,
that one, and its other slices with what stands between and behind them. -/
structure Coded where
  front : List Element
  first : Element
  rest : List Element
deriving DecidableEq, Repr

/-- A frame, or a pair of complementary fields. -/
structure Picture where
  coded : Coded
  second : Option Coded := none
deriving DecidableEq, Repr

inductive Role where
  | other | frame | firstField | secondField | slice
deriving DecidableEq, Repr

/-- The picture a unit belongs to and what it is in it. -/
structure Tag where
  picture : Nat
  role : Role
deriving DecidableEq, Repr

def Tag.slice (t : Tag) : Bool := t.role != .other

def tagged (k : Nat) (e : Element) : CodedUnit Tag :=
  .of ⟨k, if isSlice (typeOf e) then .slice else .other⟩ e

def Picture.lead (p : Picture) : Role := if p.second.isNone then .frame else .firstField

/-- The second field of a pair. -/
def Picture.secondUnits (p : Picture) (k : Nat) : List (CodedUnit Tag) :=
  match p.second with
  | none => []
  | some c => c.front.map (tagged k) ++ .of ⟨k, .secondField⟩ c.first :: c.rest.map (tagged k)

def Picture.parts (p : Picture) (k : Nat) : PictureUnits Tag where
  front := p.coded.front.map (tagged k)
  first := .of ⟨k, p.lead⟩ p.coded.first
  rest := p.coded.rest.map (tagged k) ++ p.secondUnits k

def units (ps : List Picture) : List (CodedUnit Tag) := flatten (groups Picture.parts 0 ps)

/-- Parameter sets and SEI stand in front of a frame or field only, slices behind it. -/
structure Coded.Ordered (c : Coded) : Prop where
  front : ∀ e ∈ c.front, isSlice (typeOf e) = false
  first : isSlice (typeOf c.first) = true
  rest : ∀ e ∈ c.rest, isConfig (typeOf e) = false

instance (c : Coded) : Decidable c.Ordered :=
  decidable_of_iff ((∀ e ∈ c.front, isSlice (typeOf e) = false) ∧ isSlice (typeOf c.first) = true ∧
      ∀ e ∈ c.rest, isConfig (typeOf e) = false)
    ⟨fun ⟨front, first, rest⟩ => ⟨front, first, rest⟩, fun ⟨front, first, rest⟩ => ⟨front, first, rest⟩⟩

structure Picture.Ordered (p : Picture) : Prop where
  coded : p.coded.Ordered
  second : ∀ c, p.second = some c → c.Ordered

/-- What is known in a stream: the sequence parameter set sent last, and the frame
number and parity of a first field. -/
structure Known where
  sps : Option Params := none
  field : Option (Nat × Bool) := none

/-- The header of a slice, read from the first 32 bytes of its unit. -/
def sliceOf (s : Params) (e : Element) : Option SliceHeader :=
  header (sliceSyntax s (typeOf e == 5)) ((e.bytes.drop 1).take 31)

def Known.next (a : Known) (u : CodedUnit Tag) : Known :=
  match u.tag.role with
  | .other =>
    if typeOf u.toElement = 7 then { a with sps := header spsSyntax (u.bytes.drop 1) } else a
  | .firstField =>
    { a with field := (a.sps.bind (sliceOf · u.toElement)).map fun h => (h.frameNum, h.bottomFieldFlag != 0) }
  | .secondField => { a with field := none }
  | .frame | .slice => a

/-- The slice header is that of a unit in this role. Other slice orders than from the
first macroblock on the parser does not support. -/
def Suits (a : Known) (h : SliceHeader) : Role → Prop
  | .other => False
  | .frame => h.firstMbInSlice = 0 ∧ h.fieldPicFlag = 0 ∧ a.field = none
  | .firstField => h.firstMbInSlice = 0 ∧ h.fieldPicFlag ≠ 0 ∧ a.field = none
  | .secondField => h.firstMbInSlice = 0 ∧ h.fieldPicFlag ≠ 0 ∧
      a.field = some (h.frameNum, !(h.bottomFieldFlag != 0))
  | .slice => h.firstMbInSlice ≠ 0

/-- A unit of a stream the parser is made for. -/
structure Fit (a : Known) (u : CodedUnit Tag) : Prop where
  closed : u.Closed
  slice : u.tag.slice = isSlice (typeOf u.toElement)
  filled : isConfig (typeOf u.toElement) = true → 2 ≤ u.bytes.length
  sps : typeOf u.toElement = 7 → u.bytes.length + u.zeros + 3 < 2 ^ 31 ∧
    ∃ s, header spsSyntax (u.bytes.drop 1) = some s ∧ s.Supported
  header : u.tag.slice = true → ∃ s h, a.sps = some s ∧ sliceOf s u.toElement = some h ∧ Suits a h u.tag.role

instance (a : Known) (h : SliceHeader) : (role : Role) → Decidable (Suits a h role)
  | .other => inferInstanceAs (Decidable False)
  | .frame | .firstField | .secondField => inferInstanceAs (Decidable (_ ∧ _ ∧ _))
  | .slice => inferInstanceAs (Decidable (_ ≠ _))

instance (a : Known) (u : CodedUnit Tag) : Decidable (Fit a u) :=
  decidable_of_iff (u.Closed ∧ u.tag.slice = isSlice (typeOf u.toElement) ∧
      (isConfig (typeOf u.toElement) = true → 2 ≤ u.bytes.length) ∧
      (typeOf u.toElement = 7 → u.bytes.length + u.zeros + 3 < 2 ^ 31 ∧
        ∃ s, s ∈ H264.header spsSyntax (u.bytes.drop 1) ∧ s.Supported) ∧
      (u.tag.slice = true → ∃ s, s ∈ a.sps ∧ ∃ h, h ∈ sliceOf s u.toElement ∧ Suits a h u.tag.role))
    ⟨fun ⟨closed, slice, filled, sps, read⟩ => ⟨closed, slice, filled, sps, fun h => by
        obtain ⟨s, known, header, found, suits⟩ := read h
        exact ⟨s, header, known, found, suits⟩⟩,
      fun ⟨closed, slice, filled, sps, read⟩ => ⟨closed, slice, filled, sps, fun h => by
        obtain ⟨s, header, known, found, suits⟩ := read h
        exact ⟨s, known, header, found, suits⟩⟩⟩

def kind (u : CodedUnit Tag) : ParserType :=
  match u.tag.role with
  | .frame | .firstField => .FRAME
  | .secondField | .slice => .UNKNOWN
  | .other => if isConfig (typeOf u.toElement) then .CONFIG else .UNKNOWN

def step (a : Known) (u : CodedUnit Tag) : ParserType × Known := (kind u, a.next u)

/-- A stream of pictures as the standard has them and the parser supports them. -/
structure Stream (ps : List Picture) : Prop where
  ordered : ∀ p ∈ ps, p.Ordered
  legal : Legal step Fit {} (units ps)

/-! ## What the callback remembers of a stream -/

/-- The fields found, as told by a first field. -/
def Pairs (info : H264ParseT) : Option (Nat × Bool) → Prop
  | none => info.bfFound = info.tfFound
  | some (num, bottom) => info.curFrameNum = num ∧ info.frameCnt ≠ 0 ∧
      info.bfFound = bottom.toNat ∧ info.tfFound = (!bottom).toNat

/-- The counters hold what is known in front of `pos`. -/
structure Remembers (virt : Nat → UInt8) (size pos : Nat) (m : Met) (a : Known) : Prop where
  headers : m.info.headerCnt ≤ pos
  frames : m.info.frameCnt ≤ pos
  sps : match a.sps with
    | none => m.info.headerCnt = 0 ∧ m.sps = none
    | some s => m.info.headerCnt ≠ 0 ∧ s.Supported ∧ match m.sps with
      | none => m.info.maxFrameNum = 2 ^ s.log2MaxFrameNum ∧ m.info.frameMbsOnlyFlag = s.frameMbsOnlyFlag
      | some q => (pos + 5 ≤ size → pos + 3 < q + 2 ^ 31) ∧ ∃ bytes, header spsSyntax bytes = some s ∧
          Holds virt (q + 1) bytes ∧ q + 1 + bytes.length ≤ pos
  field : Pairs m.info a.field

theorem bytesAt_holds {virt : Nat → UInt8} {pos : Nat} {bytes : Bytes} (holds : Holds virt pos bytes) :
    bytesAt virt pos bytes.length = bytes := by
  apply List.ext_getElem (bytesAt_length ..)
  intro i h1 h2
  simp only [bytesAt, List.getElem_map, List.getElem_range', Nat.one_mul]
  exact holds i _ (List.getElem?_eq_getElem h2)

/-- A header in the memory, when more bytes are taken than it needs. -/
theorem header_at {α : Type} {reads : Reads α} {virt : Nat → UInt8} {pos n : Nat} {bytes : Bytes} {a : α}
    (read : header reads bytes = some a) (holds : Holds virt pos bytes) (long : bytes.length ≤ n) :
    header reads (bytesAt virt pos n) = some a := by
  obtain ⟨d, rfl⟩ := Nat.exists_eq_add_of_le long
  rw [bytesAt_append, bytesAt_holds holds]
  exact header_extend read _

theorem Remembers.pending {virt : Nat → UInt8} {size pos : Nat} {m : Met} {a : Known}
    (remembers : Remembers virt size pos m a) {q : Nat} (pending : m.sps = some q) : q < pos + 3 := by
  have sps := remembers.sps
  cases known : a.sps with
  | none =>
    rw [known] at sps
    rw [sps.2] at pending
    contradiction
  | some s =>
    rw [known, pending] at sps
    obtain ⟨-, -, -, bytes, -, -, low⟩ := sps
    omega

/-- The pending sequence parameter set is read as the standard has it. -/
theorem Remembers.settle {virt : Nat → UInt8} {size pos : Nat} {m : Met} {a : Known}
    (remembers : Remembers virt size pos m a) (inside : pos + 5 ≤ size) :
    ∃ info, m.settle virt (pos + 3) = some info ∧ Remembers virt size pos { info } a := by
  obtain ⟨headers, frames, sps, field⟩ := remembers
  obtain ⟨info, pending⟩ := m
  cases pending with
  | none => exact ⟨info, rfl, headers, frames, sps, field⟩
  | some q =>
    cases known : a.sps with
    | none => simp [known] at sps
    | some s =>
      simp only [known] at sps
      obtain ⟨counted, supported, short, bytes, read, holds, low⟩ := sps
      have less := short inside
      have size_ : spsSize (pos + 3) q = pos + 3 - q := by
        unfold spsSize
        omega
      have long : bytes.length ≤ pos + 3 - q - 1 := by omega
      have stored := header_at (header_sps read supported info) holds long
      have bytes_ : nalBytes virt q (spsSize (pos + 3) q) = bytesAt virt (q + 1) (pos + 3 - q - 1) := by
        rw [size_]
        exact if_pos (by omega)
      refine ⟨_, (congrArg (header (parseSpsInfo info)) bytes_).trans stored, ?_⟩
      refine ⟨headers, frames, ?_, field⟩
      simp only [known]
      exact ⟨counted, supported, by simp⟩

theorem Remembers.mono {virt : Nat → UInt8} {size pos next : Nat} {info : H264ParseT} {a : Known}
    (remembers : Remembers virt size pos { info } a) (le : pos ≤ next) :
    Remembers virt size next { info } a where
  headers := remembers.headers.trans le
  frames := remembers.frames.trans le
  sps := remembers.sps
  field := remembers.field

/-- A stream of frames only has no field flags. -/
theorem frame_only {s : Params} {idrFlag : Bool} {bytes : Bytes} {h : SliceHeader}
    (read : header (sliceSyntax s idrFlag) bytes = some h) (field : h.fieldPicFlag ≠ 0) :
    s.frameMbsOnlyFlag = 0 := by
  obtain ⟨⟨h', rest⟩, found, rfl⟩ := Option.map_eq_some_iff.mp read
  obtain ⟨_, _, -, found⟩ := bits_bind_some.mp found
  obtain ⟨_, _, -, found⟩ := bits_bind_some.mp found
  obtain ⟨_, _, -, found⟩ := bits_bind_some.mp found
  obtain ⟨_, _, -, found⟩ := bits_bind_some.mp found
  obtain ⟨_, _, -, found⟩ := bits_bind_some.mp found
  obtain ⟨flags, _, parsed, found⟩ := bits_bind_some.mp found
  obtain ⟨_, _, -, found⟩ := bits_bind_some.mp found
  obtain ⟨rfl, -⟩ := Prod.mk.inj (Option.some.inj found)
  by_contra mbs
  unfold parseFieldFlags at parsed
  rw [if_neg mbs] at parsed
  obtain ⟨rfl, -⟩ := Prod.mk.inj (Option.some.inj parsed)
  exact field rfl

/-- The first field that waits for its second behind a slice in this role. -/
def fieldBehind (before : Option (Nat × Bool)) (h : SliceHeader) : Role → Option (Nat × Bool)
  | .firstField => some (h.frameNum, h.bottomFieldFlag != 0)
  | .secondField => none
  | _ => before

/-- A slice is a frame where it begins one or a first field. -/
theorem decided_follows {info : H264ParseT} {a : Known} (pairs : Pairs info a.field)
    (bound : info.frameCnt + 1 < 2 ^ 32) {h : SliceHeader} {role : Role} (suits : Suits a h role)
    (mbs : h.fieldPicFlag ≠ 0 → info.frameMbsOnlyFlag = 0) :
    (decided info h).1 = (role == .frame || role == .firstField) ∧
    Pairs (decided info h).2 (fieldBehind a.field h role) ∧
    ∃ cur pre cnt tf bf, cnt ≤ info.frameCnt + 1 ∧ (decided info h).2 = { info with
      curFrameNum := cur, preFrameNum := pre, frameCnt := cnt, tfFound := tf, bfFound := bf } := by
  have count : (info.frameCnt + 1) % 2 ^ 32 = info.frameCnt + 1 := Nat.mod_eq_of_lt bound
  cases role with
  | other => exact suits.elim
  | slice =>
    have later : h.firstMbInSlice ≠ 0 := suits
    simp only [decided, later, if_false]
    exact ⟨rfl, pairs, _, _, _, _, _, Nat.le_succ _, rfl⟩
  | frame =>
    obtain ⟨first, frame, none⟩ := suits
    have result : decided info h = (true, { info with
        preFrameNum := if info.frameCnt = 0 then 2 ^ 32 - 1 else info.curFrameNum
        curFrameNum := h.frameNum
        frameCnt := info.frameCnt + 1 }) := by
      simp only [decided, findBoundary, first, frame, count, if_true, ite_self]
    rw [result]
    refine ⟨rfl, ?_, _, _, _, _, _, le_refl _, rfl⟩
    change Pairs _ a.field
    rw [none] at pairs ⊢
    exact pairs
  | firstField =>
    obtain ⟨first, field, none⟩ := suits
    rw [none] at pairs
    have same : info.bfFound = info.tfFound := pairs
    have flag := mbs field
    simp only [decided, findBoundary, first, field, flag, findField, same, count, beq_self_eq_true,
      if_true, if_false, ne_eq, not_true_eq_false, Bool.true_or]
    cases parity : h.bottomFieldFlag != 0
    · have bottom : h.bottomFieldFlag = 0 := by simpa using parity
      simp only [bottom, not_true_eq_false, if_false]
      refine ⟨rfl, ?_, _, _, _, _, _, le_refl _, rfl⟩
      simp [Pairs, fieldBehind, bottom]
    · have bottom : h.bottomFieldFlag ≠ 0 := by simpa using parity
      simp only [bottom, not_false_eq_true, if_true]
      refine ⟨rfl, ?_, _, _, _, _, _, le_refl _, rfl⟩
      simp [Pairs, fieldBehind, parity]
  | secondField =>
    obtain ⟨first, field, some_⟩ := suits
    rw [some_] at pairs
    obtain ⟨num, nonzero, bf, tf⟩ := pairs
    have flag := mbs field
    have differ : (info.bfFound == info.tfFound) = false := by
      rw [bf, tf]
      cases h.bottomFieldFlag != 0 <;> rfl
    simp only [decided, findBoundary, first, field, flag, findField, differ, count, nonzero, num,
      if_true, if_false, ne_eq, not_true_eq_false, Bool.false_or, Bool.false_eq_true]
    cases parity : h.bottomFieldFlag != 0
    · have bottom : h.bottomFieldFlag = 0 := by simpa using parity
      rw [parity] at bf
      simp only [bottom, not_true_eq_false, if_false]
      exact ⟨by simp, bf, _, _, _, _, _, le_refl _, rfl⟩
    · have bottom : h.bottomFieldFlag ≠ 0 := by simpa using parity
      rw [parity] at tf
      simp only [bottom, not_false_eq_true, if_true]
      exact ⟨by simp, tf.symm, _, _, _, _, _, le_refl _, rfl⟩

theorem next_slice {a : Known} {u : CodedUnit Tag} {s : Params} {h : SliceHeader} (known : a.sps = some s)
    (read : sliceOf s u.toElement = some h) (slice : u.tag.slice = true) :
    a.next u = { a with field := fieldBehind a.field h u.tag.role } := by
  unfold Known.next
  cases role : u.tag.role with
  | other => simp [Tag.slice, role] at slice
  | firstField => simp [fieldBehind, known, read]
  | frame | secondField | slice => rfl

theorem kind_slice {u : CodedUnit Tag} (slice : u.tag.slice = true) :
    kind u = if u.tag.role == .frame || u.tag.role == .firstField then .FRAME else .UNKNOWN := by
  unfold kind
  cases role : u.tag.role <;> simp
  simp [Tag.slice, role] at slice

theorem other_of_plain {u : CodedUnit Tag} (plain : u.tag.slice = false) : u.tag.role = .other := by
  simpa [Tag.slice] using plain

section Units
variable {virt : Nat → UInt8} {size pos : Nat} {u : CodedUnit Tag} {info : H264ParseT} {a : Known}

theorem unit_bytes (holds : Holds virt pos (startCode ++ u.payload)) (nonempty : u.bytes ≠ []) :
    ((virt (pos + 3)).toNat &&& 0x1f) = typeOf u.toElement ∧ Holds virt (pos + 3 + 1) (u.bytes.drop 1) := by
  have bytes : Holds virt (pos + 3) u.bytes := holds.right.left
  obtain ⟨b, rest, eq⟩ := List.exists_cons_of_ne_nil nonempty
  rw [eq] at bytes
  constructor
  · rw [show virt (pos + 3) = b from bytes 0 b rfl, typeOf, eq]
    rfl
  · rw [eq]
    have split : Holds virt (pos + 3) ([b] ++ rest) := bytes
    exact split.right

/-- A slice is classified by its header. -/
theorem slice_follows (remembers : Remembers virt size pos { info } a) (fit : Fit a u)
    (holds : Holds virt pos (startCode ++ u.payload)) (inside : place pos [u] ≤ size)
    (bounded : size < 2 ^ 32) (slice : u.tag.slice = true) :
    ∃ m', readUnit virt size (pos + 3) info = some (kind u, m') ∧
      Remembers virt size (place pos [u]) m' (a.next u) := by
  obtain ⟨s, h, known, read, suits⟩ := fit.header slice
  obtain ⟨headers, frames, sps, pairs⟩ := remembers
  obtain ⟨type, bytes⟩ := unit_bytes holds fit.closed.nonempty
  have spot := place_singleton pos u
  have nonempty := List.length_pos_iff.mpr fit.closed.nonempty
  simp only [known] at sps headers frames
  obtain ⟨counted, supported, max, mbs⟩ := sps
  have left : leftSize size (pos + 3) = size - (pos + 3) := Nat.mod_eq_of_lt (by omega)
  have stored := header_slice read supported max mbs
  have first : Holds virt (pos + 3 + 1) ((u.bytes.drop 1).take 31) := by
    rw [← List.take_append_drop 31 (u.bytes.drop 1)] at bytes
    exact bytes.left
  have found : header (parseSliceHeaderInfo info (typeOf u.toElement == 5))
      (nalBytes virt (pos + 3) (min (leftSize size (pos + 3)) MAX_SLICE_HDR_SZ)) =
      some (decided info h) := by
    rw [nalBytes, if_pos (by simp only [MAX_SLICE_HDR_SZ]; omega)]
    apply header_at stored first
    simp only [List.length_take, List.length_drop, MAX_SLICE_HDR_SZ]
    omega
  have field : h.fieldPicFlag ≠ 0 → info.frameMbsOnlyFlag = 0 :=
    fun field => mbs.trans (frame_only read field)
  obtain ⟨newFrame, pairs', cur, pre, cnt, tf, bf, more, rest⟩ :=
    decided_follows pairs (by simp only; omega) suits field
  have isSlice_ : typeOf u.toElement = 1 ∨ typeOf u.toElement = 5 := by
    simpa [isSlice, slice] using fit.slice.symm
  refine ⟨{ info := (decided info h).2 }, ?_, ?_⟩
  · simp only [readUnit, type, isSlice_, if_true, counted, if_false, found, Option.map_some]
    rw [kind_slice slice, ← newFrame]
  · rw [next_slice known read slice]
    rw [rest] at pairs' ⊢
    refine ⟨?_, ?_, ?_, pairs'⟩
    · simp only
      omega
    · simp only at more ⊢
      omega
    · simp only [known]
      exact ⟨counted, supported, max, mbs⟩

/-- Any other unit is classified by its type, and a sequence parameter set is left
for the next unit. -/
theorem plain_follows (remembers : Remembers virt size pos { info } a) (fit : Fit a u)
    (holds : Holds virt pos (startCode ++ u.payload)) (inside : place pos [u] ≤ size)
    (bounded : size < 2 ^ 32) (plain : u.tag.slice = false) :
    ∃ m', readUnit virt size (pos + 3) info = some (kind u, m') ∧
      Remembers virt size (place pos [u]) m' (a.next u) := by
  obtain ⟨type, bytes⟩ := unit_bytes holds fit.closed.nonempty
  have role := other_of_plain plain
  have spot := place_singleton pos u
  have nonempty := List.length_pos_iff.mpr fit.closed.nonempty
  have notSlice : ¬ (typeOf u.toElement = 1 ∨ typeOf u.toElement = 5) := by
    simpa [isSlice, plain] using fit.slice.symm
  simp only [readUnit, type, notSlice, if_false, kind, Known.next, role]
  by_cases seven : typeOf u.toElement = 7
  · obtain ⟨short, s, read, supported⟩ := fit.sps seven
    have count : (info.headerCnt + 1) % 2 ^ 32 = info.headerCnt + 1 := by
      have := remembers.headers
      simp only at this
      omega
    simp only [seven, if_true, count]
    refine ⟨_, rfl, ?_, ?_, ?_, remembers.field⟩
    · have := remembers.headers
      simp only at this ⊢
      omega
    · exact remembers.frames.trans (place_le pos [u])
    · simp only [read]
      refine ⟨Nat.succ_ne_zero _, supported, ?_, u.bytes.drop 1, read, bytes, ?_⟩
      · intro _
        omega
      · rw [List.length_drop]
        omega
  · have same := remembers.mono (place_le pos [u])
    simp only [seven, if_false]
    by_cases config : typeOf u.toElement = 8 ∨ typeOf u.toElement = 6
    · have config' : isConfig (typeOf u.toElement) = true := by simpa [isConfig, seven] using config
      simp only [config, if_true, config']
      exact ⟨_, rfl, same.headers, same.frames, same.sps, same.field⟩
    · have config' : isConfig (typeOf u.toElement) = false := by simpa [isConfig, seven] using config
      simp only [config, if_false, config', Bool.false_eq_true]
      exact ⟨_, rfl, same⟩

/-- A last unit of a single byte is passed over. -/
theorem short_follows {m : Met} (remembers : Remembers virt size pos m a) (fit : Fit a u)
    (inside : place pos [u] ≤ size) (bounded : size < 2 ^ 32) (short : leftSize size (pos + 3) < 2) :
    kind u = .UNKNOWN ∧ Remembers virt size (place pos [u]) m (a.next u) := by
  have spot := place_singleton pos u
  have nonempty := List.length_pos_iff.mpr fit.closed.nonempty
  have left : leftSize size (pos + 3) = size - (pos + 3) := Nat.mod_eq_of_lt (by omega)
  have one : u.bytes.length = 1 := by omega
  have plain : u.tag.slice = false := by
    by_contra slice
    obtain ⟨s, h, -, read, -⟩ := fit.header (by simpa using slice)
    rw [sliceOf, List.drop_eq_nil_of_le (by omega)] at read
    contradiction
  have config : isConfig (typeOf u.toElement) = false := by
    by_contra config
    have := fit.filled (by simpa using config)
    omega
  have other : typeOf u.toElement ≠ 7 := by
    intro seven
    rw [seven] at config
    contradiction
  have role := other_of_plain plain
  refine ⟨by simp [kind, role, config], ?_⟩
  simp only [Known.next, role, other, if_false]
  obtain ⟨headers, frames, sps, pairs⟩ := remembers
  refine ⟨headers.trans (place_le pos [u]), frames.trans (place_le pos [u]), ?_, pairs⟩
  cases known : a.sps with
  | none =>
    simp only [known] at sps ⊢
    exact sps
  | some s =>
    simp only [known] at sps ⊢
    refine ⟨sps.1, sps.2.1, ?_⟩
    have later := sps.2.2
    cases pending : m.sps with
    | none =>
      simp only [pending] at later ⊢
      exact later
    | some q =>
      simp only [pending] at later ⊢
      obtain ⟨-, bytes, read, holds, low⟩ := later
      exact ⟨fun _ => by omega, bytes, read, holds, by omega⟩

theorem h264CheckFrame_follows {buffer : Nat} {state : H264State}
    (related : ∃ m, Keeps buffer state m ∧ Remembers virt size pos m a) (fit : Fit a u)
    (holds : Holds virt pos (startCode ++ u.payload)) (inside : place pos [u] ≤ size)
    (bounded : size < 2 ^ 32) :
    ∃ state', h264CheckFrame buffer virt (pos + 3) (leftSize size (pos + 3)) state =
        .ok ((step a u).1, state') ∧
      ∃ m', Keeps buffer state' m' ∧ Remembers virt size (place pos [u]) m' (step a u).2 := by
  obtain ⟨m, keeps, remembers⟩ := related
  have spec := h264CheckFrame_spec virt size keeps
    fun q pending => remembers.pending pending
  obtain ⟨m', met, remembers'⟩ : ∃ m', meet virt size (pos + 3) m = some (kind u, m') ∧
      Remembers virt size (place pos [u]) m' (a.next u) := by
    unfold meet
    by_cases short : leftSize size (pos + 3) < 2
    · obtain ⟨unknown, same⟩ := short_follows remembers fit inside bounded short
      exact ⟨m, by rw [if_pos short, unknown], same⟩
    · have room : pos + 5 ≤ size := by
        unfold leftSize at short
        omega
      obtain ⟨info, settled, remembers⟩ := remembers.settle room
      rw [if_neg short, settled]
      cases slice : u.tag.slice
      · exact plain_follows remembers fit holds inside bounded slice
      · exact slice_follows remembers fit holds inside bounded slice
  rw [met] at spec
  obtain ⟨state', called, keeps', -⟩ := spec
  exact ⟨state', called, m', keeps', remembers'⟩

end Units

end ImxTest.Pitcher.H264
