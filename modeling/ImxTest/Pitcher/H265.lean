import ImxTest.Pitcher.Pictures

/-! H.265 in pitcher/h265_parse.c. A parameter set or SEI makes the next slice
segment a frame, whatever its first_slice_segment_in_pic_flag says, so one
between the slice segments of a picture splits the picture. -/
namespace ImxTest.Pitcher.H265

open Lib.Cut Scan Elementary

/-- `struct h265_parse_t`, two `uint32_t`. -/
structure H265ParseT where
  headerCnt : Nat := 0
  configFound : Nat := 0
deriving DecidableEq, Repr

def nalType (header : UInt8) : Nat := (header.toNat &&& 0x7E) >>> 1

/-- The case labels of the slice segments. -/
def isSlice (type : Nat) : Bool := decide (type ≤ 9) || decide (16 ≤ type) && decide (type ≤ 21)

/-- The case labels that set `config_found`: SPS, PPS, VPS, prefix and suffix SEI. -/
def isConfig (type : Nat) : Bool :=
  type == 33 || type == 34 || type == 32 || type == 39 || type == 40

/-- The switch of `h265_check_frame`, for the third byte of a unit. -/
def classify (type : Nat) (third : UInt8) (info : H265ParseT) : ParserType × H265ParseT :=
  if isSlice type then
    if info.headerCnt = 0 then (.UNKNOWN, info)
    else if info.configFound ≠ 0 then (.FRAME, { info with configFound := 0 })
    else if third &&& 0x80 ≠ 0 then (.FRAME, info)
    else (.UNKNOWN, info)
  else if isConfig type then
    let info := if type = 33 then { info with headerCnt := (info.headerCnt + 1) % 2 ^ 32 } else info
    (.CONFIG, { info with configFound := 1 })
  else (.UNKNOWN, info)

def h265CheckFrame {ε : Type} : CheckFrame ε H265ParseT := fun virt p size info =>
  if size < 3 then .ok (.UNKNOWN, info)
  else .ok (classify (nalType (virt p)) (virt (p + 2)) info)

def h265Parse (parser : PitcherParser) : Except Empty (Ret × PitcherParser × H265ParseT) :=
  pitcherParseStartcode parser h265Scode (some h265CheckFrame) {}

/-! ## Streams of pictures -/

def typeOf (e : Element) : Nat := nalType (e.bytes.headD 0)

/-- first_slice_segment_in_pic_flag, the bit behind the two bytes of the header. -/
def firstFlag (e : Element) : Bool := e.bytes.getD 2 0 &&& 0x80 != 0

/-- A parameter set, SEI or slice segment has a byte behind its header. -/
def Filled (e : Element) : Prop :=
  isSlice (typeOf e) || isConfig (typeOf e) → 3 ≤ e.bytes.length

instance (e : Element) : Decidable (Filled e) := inferInstanceAs (Decidable (_ → _))

/-- The NAL units of a picture: those in front of its first slice segment, that
one, and its other slice segments with what stands between and behind them. -/
structure Picture where
  front : List Element
  first : Element
  rest : List Element
  front_plain : ∀ e ∈ front, isSlice (typeOf e) = false
  first_slice : isSlice (typeOf first) = true
  first_flag : firstFlag first = true
  rest_flags : ∀ e ∈ rest, isSlice (typeOf e) = true → firstFlag e = false
  filled : ∀ e ∈ front ++ first :: rest, Filled e

/-- The picture a unit belongs to and whether it is one of its slice segments. -/
structure Tag where
  picture : Nat
  slice : Bool
deriving DecidableEq, Repr

def tagged (k : Nat) (e : Element) : CodedUnit Tag := .of ⟨k, isSlice (typeOf e)⟩ e

def Picture.units (p : Picture) (k : Nat) : List (CodedUnit Tag) :=
  p.front.map (tagged k) ++ tagged k p.first :: p.rest.map (tagged k)

/-- The units of pictures numbered from `k` on. -/
def unitsFrom : Nat → List Picture → List (CodedUnit Tag)
  | _, [] => []
  | k, p :: ps => p.units k ++ unitsFrom (k + 1) ps

/-- A sequence parameter set precedes the first slice segment. -/
def Opens : List Picture → Prop
  | [] => True
  | p :: _ => ∃ e ∈ p.front, typeOf e = 33

/-- A parameter set or SEI with a slice segment behind it. -/
def splits : List Element → Bool
  | [] => false
  | e :: es => isConfig (typeOf e) && es.any (isSlice <| typeOf ·) || splits es

/-- Some parameter set or SEI stands between two slice segments of the picture. -/
def Picture.Interrupted (p : Picture) : Prop := splits p.rest = true

/-- All slice segments of each picture the limit lets through lie in one range,
and no range meets slice segments of two pictures. -/
structure Together (units : List (Placed Tag)) (pictures number : Nat) (ranges : List (Int × Int)) :
    Prop where
  one : ∀ k < pictures, number = 0 ∨ k < number → ∃ r ∈ ranges,
    ∀ x ∈ units, x.tag = ⟨k, true⟩ → r.1 ≤ x.start ∧ x.stop ≤ r.2
  alone : ∀ r ∈ ranges, ∀ x ∈ units, ∀ y ∈ units, x.tag.slice = true → y.tag.slice = true →
    r.1 < x.stop → x.start < r.2 → r.1 < y.stop → y.start < r.2 → x.tag.picture = y.tag.picture

/-! ## The parse of such a stream -/

/-- What the callback remembers: whether a sequence parameter set came, and
whether a parameter set or SEI came after the last frame. -/
structure Seen where
  sps : Bool := false
  config : Bool := false
deriving DecidableEq, Repr

def step (a : Seen) (u : CodedUnit Tag) : ParserType × Seen :=
  if isSlice (typeOf u.toElement) then
    if a.sps = false then (.UNKNOWN, a)
    else if a.config then (.FRAME, { a with config := false })
    else if firstFlag u.toElement then (.FRAME, a)
    else (.UNKNOWN, a)
  else if isConfig (typeOf u.toElement) then
    (.CONFIG, ⟨a.sps || typeOf u.toElement == 33, true⟩)
  else (.UNKNOWN, a)

/-- The callback's counters are not zero when something was seen. The count of
headers stays below the place in the file, so it does not wrap. -/
structure Remembers (pos : Nat) (info : H265ParseT) (a : Seen) : Prop where
  sps : info.headerCnt = 0 ↔ a.sps = false
  count : info.headerCnt ≤ pos
  config : info.configFound = 0 ↔ a.config = false

def Fit (_ : Seen) (u : CodedUnit Tag) : Prop := u.Closed ∧ Filled u.toElement

theorem classify_follows {pos : Nat} {info : H265ParseT} {a : Seen}
    (remembers : Remembers pos info a) {u : CodedUnit Tag} (third : UInt8) (bound : pos + 1 < 2 ^ 32)
    (flag : isSlice (typeOf u.toElement) = true → (third &&& 0x80 ≠ 0 ↔ firstFlag u.toElement = true)) :
    (classify (typeOf u.toElement) third info).1 = (step a u).1 ∧
      Remembers (pos + 1) (classify (typeOf u.toElement) third info).2 (step a u).2 := by
  have count := remembers.count
  have later : Remembers (pos + 1) info a := ⟨remembers.sps, by omega, remembers.config⟩
  unfold classify step
  cases slice : isSlice (typeOf u.toElement)
  · simp only [Bool.false_eq_true, if_false]
    cases config : isConfig (typeOf u.toElement)
    · simp only [Bool.false_eq_true, if_false]
      exact ⟨trivial, later⟩
    · simp only [if_true]
      have small : (info.headerCnt + 1) % 2 ^ 32 = info.headerCnt + 1 :=
        Nat.mod_eq_of_lt (by omega)
      by_cases sps : typeOf u.toElement = 33
      · simp only [sps, if_true, small, beq_self_eq_true, Bool.or_true]
        exact ⟨trivial, by simp, by simp only; omega, by simp⟩
      · simp only [sps, if_false, Bool.or_false, beq_eq_false_iff_ne.mpr sps]
        exact ⟨trivial, remembers.sps, by simp only; omega, by simp⟩
  · simp only [if_true]
    by_cases none : info.headerCnt = 0
    · simp only [none, remembers.sps.mp none, if_true]
      exact ⟨trivial, later⟩
    · have sps : a.sps = true := by simpa using mt remembers.sps.mpr none
      simp only [none, sps, Bool.true_eq_false, if_false]
      by_cases quiet : info.configFound = 0
      · have config := remembers.config.mp quiet
        have bit : third &&& 0x80 ≠ 0 ↔ firstFlag u.toElement = true := flag slice
        simp only [quiet, config, ne_eq, not_true_eq_false, Bool.false_eq_true, if_false] at bit ⊢
        simp only [bit]
        split
        · exact ⟨rfl, later⟩
        · exact ⟨rfl, later⟩
      · have config : a.config = true := by simpa using mt remembers.config.mpr quiet
        simp only [quiet, config, ne_eq, not_false_eq_true, if_true]
        exact ⟨trivial, ⟨by simpa [sps] using none, by simp only; omega, by simp⟩⟩

theorem Remembers.mono {pos next : Nat} {info : H265ParseT} {a : Seen}
    (remembers : Remembers pos info a) (le : pos ≤ next) : Remembers next info a :=
  ⟨remembers.sps, remembers.count.trans le, remembers.config⟩

/-- A unit of two bytes is neither a slice segment nor a header. -/
theorem short_unknown {u : CodedUnit Tag} (filled : Filled u.toElement)
    (short : u.bytes.length < 3) (a : Seen) : step a u = (.UNKNOWN, a) := by
  have neither : ¬ (isSlice (typeOf u.toElement) || isConfig (typeOf u.toElement)) = true :=
    fun h => absurd (filled h) (by omega)
  simp only [Bool.or_eq_true, not_or, Bool.not_eq_true] at neither
  simp only [step, neither.1, neither.2, Bool.false_eq_true, if_false]

theorem h265CheckFrame_follows {ε : Type} {virt : Nat → UInt8} {size pos : Nat}
    {u : CodedUnit Tag} {info : H265ParseT} {a : Seen} (remembers : Remembers pos info a)
    (fit : Fit a u) (holds : Holds virt pos (startCode ++ u.payload))
    (inside : place pos [u] ≤ size) (bounded : size < 2 ^ 32) :
    ∃ info', h265CheckFrame (ε := ε) virt (pos + 3) (leftSize size (pos + 3)) info =
        .ok ((step a u).1, info') ∧ Remembers (place pos [u]) info' (step a u).2 := by
  obtain ⟨closed, filled⟩ := fit
  have nonempty := List.length_pos_iff.mpr closed.nonempty
  have spot := place_singleton pos u
  have left : leftSize size (pos + 3) = size - (pos + 3) := Nat.mod_eq_of_lt (by omega)
  have later : Remembers (place pos [u]) info a := remembers.mono (place_le pos [u])
  have byte : ∀ k b, u.bytes[k]? = some b → virt (pos + 3 + k) = b := by
    intro k b found
    rw [Nat.add_assoc]
    apply holds (3 + k) b
    have inside := (List.getElem?_eq_some_iff.mp found).1
    rw [List.getElem?_append_right (by simp [startCode]), CodedUnit.payload,
      List.getElem?_append_left (by simpa [startCode] using inside)]
    simpa [startCode] using found
  unfold h265CheckFrame
  by_cases tiny : leftSize size (pos + 3) < 3
  · have short := short_unknown filled (by omega) a
    simp only [tiny, if_true, short]
    exact ⟨info, rfl, later⟩
  · have type : nalType (virt (pos + 3)) = typeOf u.toElement := by
      obtain ⟨b, rest, bytes⟩ := List.exists_cons_of_ne_nil closed.nonempty
      rw [byte 0 b (by simp [bytes]), typeOf, bytes]
      rfl
    have flag : isSlice (typeOf u.toElement) = true →
        (virt (pos + 3 + 2) &&& 0x80 ≠ 0 ↔ firstFlag u.toElement = true) := by
      intro slice
      have long : 3 ≤ u.bytes.length := filled (by simp [slice])
      have third := byte 2 u.bytes[2] (List.getElem?_eq_getElem _)
      simp [firstFlag, third, List.getD_eq_getElem?_getD, List.getElem?_eq_getElem long]
    obtain ⟨same, next⟩ := classify_follows remembers (virt (pos + 3 + 2)) (by omega) flag
    simp only [tiny, if_false, type]
    refine ⟨_, ?_, next.mono (by omega)⟩
    rw [← same]

/-! ## The frames of a picture -/

theorem step_slice {a : Seen} {u : CodedUnit Tag} (slice : isSlice (typeOf u.toElement) = true)
    (sps : a.sps = true) :
    step a u = (if a.config || firstFlag u.toElement then .FRAME else .UNKNOWN,
      { a with config := false }) := by
  obtain ⟨sps', config⟩ := a
  obtain rfl : sps' = true := sps
  cases config <;> simp [step, slice]
  split <;> rfl

theorem step_plain {a : Seen} {u : CodedUnit Tag} (plain : isSlice (typeOf u.toElement) = false) :
    step a u = if isConfig (typeOf u.toElement) then
      (.CONFIG, ⟨a.sps || typeOf u.toElement == 33, true⟩) else (.UNKNOWN, a) := by
  simp only [step, plain, Bool.false_eq_true, if_false]

theorem config_plain {type : Nat} (config : isConfig type = true) : isSlice type = false := by
  simp only [isConfig, Bool.or_eq_true, beq_iff_eq] at config
  rcases config with (((rfl | rfl) | rfl) | rfl) | rfl <;> rfl

theorem step_config {a : Seen} {u : CodedUnit Tag} (config : isConfig (typeOf u.toElement) = true) :
    step a u = (.CONFIG, ⟨a.sps || typeOf u.toElement == 33, true⟩) := by
  rw [step_plain (config_plain config), if_pos config]

theorem sps_stays {a : Seen} (sps : a.sps = true) (us : List (CodedUnit Tag)) :
    (after step a us).sps = true := by
  induction us generalizing a with
  | nil => exact sps
  | cons u us ih =>
    apply ih
    change (step a u).2.sps = true
    unfold step
    split_ifs <;> simp [sps]

/-- Units that are no slice segments are no frames, and leave a header pending. -/
theorem plain_after {us : List (CodedUnit Tag)} (plain : ∀ u ∈ us, isSlice (typeOf u.toElement) = false)
    (a : Seen) : (types step a us).count .FRAME = 0 ∧
      (a.config = true → (after step a us).config = true) := by
  induction us generalizing a with
  | nil => exact ⟨rfl, id⟩
  | cons u us ih =>
    have here := step_plain (a := a) (plain u (by simp))
    obtain ⟨none, pending⟩ := ih (fun v mem => plain v (List.mem_cons_of_mem _ mem)) (step a u).2
    constructor
    · rw [types, List.count_cons, none, here]
      split <;> rfl
    · intro config
      apply pending
      rw [here]
      split
      · rfl
      · exact config

/-- Between a frame and the next header no slice segment is one. -/
theorem body_quiet {us : List (CodedUnit Tag)}
    (body : ∀ u ∈ us, isConfig (typeOf u.toElement) = false ∧
      (isSlice (typeOf u.toElement) = true → firstFlag u.toElement = false))
    {a : Seen} (sps : a.sps = true) (none : a.config = false) : Quiet step a us := by
  induction us generalizing a with
  | nil => trivial
  | cons u us ih =>
    obtain ⟨plain, flag⟩ := body u (by simp)
    have rest := fun v mem => body v (List.mem_cons_of_mem u mem)
    cases slice : isSlice (typeOf u.toElement)
    · have here := step_plain (a := a) slice
      simp only [plain, Bool.false_eq_true, if_false] at here
      exact ⟨by rw [here], ih rest (by rw [here]; exact sps) (by rw [here]; exact none)⟩
    · have here := step_slice slice sps
      simp only [none, flag slice, Bool.or_self, Bool.false_eq_true, if_false] at here
      exact ⟨by rw [here], ih rest (by rw [here]; exact sps) (by rw [here])⟩

/-- An uninterrupted picture has its slice segments before the next header. -/
theorem splits_false {es : List Element} (whole : splits es = false) :
    ∃ body trailer, es = body ++ trailer ∧ (∀ e ∈ body, isConfig (typeOf e) = false) ∧
      ∀ e ∈ trailer, isSlice (typeOf e) = false := by
  induction es with
  | nil => exact ⟨[], [], rfl, by simp, by simp⟩
  | cons e es ih =>
    simp only [splits, Bool.or_eq_false_iff, Bool.and_eq_false_iff] at whole
    obtain ⟨body, trailer, rfl, noConfig, noSlice⟩ := ih whole.2
    cases config : isConfig (typeOf e)
    · refine ⟨e :: body, trailer, rfl, ?_, noSlice⟩
      intro d mem
      rcases List.mem_cons.mp mem with rfl | mem
      · exact config
      · exact noConfig d mem
    · have none : (body ++ trailer).any (isSlice <| typeOf ·) = false := by
        simpa [config] using whole.1
      refine ⟨[], e :: (body ++ trailer), rfl, by simp, ?_⟩
      intro d mem
      rcases List.mem_cons.mp mem with rfl | mem
      · exact config_plain config
      · simpa using List.any_eq_false.mp none d mem

/-- An interrupted picture has a header with a slice segment behind it, and none
between the two. -/
theorem splits_true {es : List Element} (split : splits es = true) :
    ∃ before c between s behind, es = before ++ c :: (between ++ s :: behind) ∧
      isConfig (typeOf c) = true ∧ (∀ e ∈ between, isSlice (typeOf e) = false) ∧
      isSlice (typeOf s) = true := by
  induction es with
  | nil => contradiction
  | cons e es ih =>
    simp only [splits, Bool.or_eq_true, Bool.and_eq_true] at split
    rcases split with ⟨config, more⟩ | later
    · obtain ⟨s, found⟩ := Option.isSome_iff_exists.mp (List.find?_isSome.mpr (List.any_eq_true.mp more))
      obtain ⟨slice, between, behind, rfl, none⟩ := List.find?_eq_some_iff_append.mp found
      exact ⟨[], e, between, s, behind, rfl, config, fun d mem => by simpa using none d mem, slice⟩
    · obtain ⟨before, c, between, s, behind, rfl, found⟩ := ih later
      exact ⟨e :: before, c, between, s, behind, rfl, found⟩

def Picture.parts (p : Picture) (k : Nat) : PictureUnits Tag :=
  ⟨p.front.map (tagged k), tagged k p.first, p.rest.map (tagged k)⟩

theorem unitsFrom_flatten (n : Nat) (ps : List Picture) : unitsFrom n ps = flatten (groups Picture.parts n ps) := by
  induction ps generalizing n with
  | nil => rfl
  | cons p ps ih => simp only [unitsFrom, ih, groups, flatten, List.flatMap_cons]; rfl

theorem parts_mem {p : Picture} {k : Nat} {u : CodedUnit Tag} (mem : u ∈ (p.parts k).units) :
    ∃ e ∈ p.front ++ p.first :: p.rest, u = tagged k e := by
  simp only [PictureUnits.units, Picture.parts, List.mem_append, List.mem_map, List.mem_cons] at mem
  rcases mem with ⟨e, inside, rfl⟩ | rfl | ⟨e, inside, rfl⟩
  · exact ⟨e, by simp [inside], rfl⟩
  · exact ⟨p.first, by simp, rfl⟩
  · exact ⟨e, by simp [inside], rfl⟩

theorem front_plain {p : Picture} (k : Nat) :
    ∀ u ∈ (p.parts k).front, isSlice (typeOf u.toElement) = false := by
  intro u mem
  obtain ⟨e, inside, rfl⟩ := List.mem_map.mp mem
  exact p.front_plain e inside

theorem numbered (ps : List Picture) : Numbered Tag.picture Tag.slice (groups Picture.parts 0 ps) where
  number := by
    intro k g at_ u mem
    obtain ⟨p, -, rfl⟩ := groups_find at_
    obtain ⟨e, -, rfl⟩ := parts_mem mem
    rfl
  front := by
    intro g mem u inside
    obtain ⟨k, at_⟩ := List.getElem?_of_mem mem
    obtain ⟨p, -, rfl⟩ := groups_find at_
    obtain ⟨e, here, rfl⟩ := List.mem_map.mp inside
    exact p.front_plain e here

theorem sps_found {us : List (CodedUnit Tag)} (found : ∃ u ∈ us, typeOf u.toElement = 33) (a : Seen) :
    (after step a us).sps = true := by
  obtain ⟨u, mem, type⟩ := found
  obtain ⟨before, behind, rfl⟩ := List.append_of_mem mem
  have here : (step (after step a before) u).2.sps = true := by
    rw [step_plain (by rw [type]; rfl), type]
    simp [isConfig]
  rw [after_append]
  exact sps_stays here behind

section Frames
variable {ps : List Picture} {k : Nat} {p : Picture}

/-- A parameter set opens the stream before the first slice segment of any picture. -/
theorem sps_seen (opens : Opens ps) (at_ : ps[k]? = some p) :
    (after step {} (ahead (groups Picture.parts 0 ps) k (p.parts k))).sps = true := by
  apply sps_found
  cases ps with
  | nil => simp at at_
  | cons q ps =>
    obtain ⟨e, mem, type⟩ := opens
    cases k with
    | zero =>
      obtain rfl : q = p := by simpa using at_
      exact ⟨tagged 0 e, by simpa [ahead, flatten, Picture.parts] using ⟨e, mem, rfl⟩, type⟩
    | succ k =>
      refine ⟨tagged 0 e, List.mem_append_left _ ?_, type⟩
      simp only [groups, List.take_succ_cons, flatten, List.flatMap_cons, PictureUnits.units,
        Picture.parts, List.mem_append, List.mem_map]
      exact .inl (.inl ⟨e, mem, rfl⟩)

theorem lead_frame {a : Seen} (sps : a.sps = true) :
    step a (p.parts k).first = (.FRAME, { a with config := false }) := by
  have slice : isSlice (typeOf (p.parts k).first.toElement) = true := p.first_slice
  have flag : firstFlag (p.parts k).first.toElement = true := p.first_flag
  rw [step_slice slice sps, flag, Bool.or_true, if_pos rfl]

/-- An uninterrupted picture is kept together. -/
theorem compact_of_whole (opens : Opens ps) (at_ : ps[k]? = some p) (whole : ¬ p.Interrupted) :
    Compact Tag.slice step {} (groups Picture.parts 0 ps) k (p.parts k) := by
  have lead := lead_frame (p := p) (k := k) (sps_seen opens at_)
  obtain ⟨body, trailer, eq, noConfig, noSlice⟩ := splits_false (Bool.eq_false_iff.mpr whole)
  refine ⟨body.map (tagged k), trailer.map (tagged k), ?_, ?_, ?_⟩
  · rw [← List.map_append, ← eq]
    rfl
  · rw [after_append]
    change Quiet step (step _ (p.parts k).first).2 _
    rw [lead]
    refine body_quiet ?_ (a := ⟨_, false⟩) (sps_seen opens at_) rfl
    intro u mem
    obtain ⟨e, inside, rfl⟩ := List.mem_map.mp mem
    exact ⟨noConfig e inside, p.rest_flags e (eq ▸ List.mem_append_left _ inside)⟩
  · intro u mem
    obtain ⟨e, inside, rfl⟩ := List.mem_map.mp mem
    exact noSlice e inside

theorem quiet_frames {us : List (CodedUnit Tag)} {a : Seen} (quiet : Quiet step a us) :
    (types step a us).count .FRAME = 0 := by
  induction us generalizing a with
  | nil => rfl
  | cons u us ih => simp [types, quiet.1, ih quiet.2]

/-- An uninterrupted picture has one frame. -/
theorem picture_frames (opens : Opens ps) (at_ : ps[k]? = some p) (whole : ¬ p.Interrupted) :
    (types step (after step {} (flatten ((groups Picture.parts 0 ps).take k))) (p.parts k).units).count .FRAME = 1 := by
  have sps := sps_seen opens at_
  obtain ⟨body, trailer, eq, quiet, plain⟩ := compact_of_whole opens at_ whole
  rw [after_append] at quiet
  change Quiet step (step _ (p.parts k).first).2 body at quiet
  have flat : ∀ u ∈ trailer, isSlice (typeOf u.toElement) = false := by
    intro u mem
    obtain ⟨e, -, rfl⟩ := List.mem_map.mp (eq ▸ List.mem_append_right body mem : u ∈ (p.parts k).rest)
    exact plain _ mem
  rw [ahead, after_append] at sps quiet
  have lead := lead_frame (p := p) (k := k) sps
  rw [PictureUnits.units, types_append, List.count_append, (plain_after (front_plain k) _).1, types,
    List.count_cons, eq, types_append, List.count_append, quiet_frames quiet, (plain_after flat _).1, lead]
  rfl

/-- The first slice segment of a picture behind uninterrupted ones. -/
theorem leads (opens : Opens ps) (at_ : ps[k]? = some p)
    (whole : ∀ j q, j < k → ps[j]? = some q → ¬ q.Interrupted) :
    Leads step {} (groups Picture.parts 0 ps) k (p.parts k) where
  frame := by rw [lead_frame (sps_seen opens at_)]
  rank := by
    apply rank_of_single (groups_at at_) (plain_after (front_plain k) _).1
    intro j h less found
    obtain ⟨q, here, rfl⟩ := groups_find found
    exact picture_frames opens here (whole j q less here)

end Frames

/-! ## The ranges of a stream -/

theorem standard : Standard (normalize h265Scode) := ⟨rfl, rfl, rfl, .inr ⟨rfl, rfl, rfl⟩⟩

theorem unitsFrom_filled {n : Nat} {ps : List Picture} {u : CodedUnit Tag}
    (mem : u ∈ unitsFrom n ps) : Filled u.toElement := by
  induction ps generalizing n with
  | nil => contradiction
  | cons p ps ih =>
    rcases List.mem_append.mp mem with here | later
    · simp only [Picture.units, List.mem_append, List.mem_map, List.mem_cons] at here
      rcases here with ⟨e, inside, rfl⟩ | rfl | ⟨e, inside, rfl⟩
      · exact p.filled e (by simp [inside])
      · exact p.filled p.first (by simp)
      · exact p.filled e (by simp [inside])
    · exact ih later

section Pieces
variable {virt : Nat → UInt8} {size : Nat} {lead : Bytes} {ps : List Picture}

abbrev codes (virt : Nat → UInt8) (lead : Bytes) (ps : List Picture) : List Code :=
  codesBy (normalize h265Scode) virt step lead.length (unitsFrom 0 ps) {}

theorem parse_pictures (file : File virt size lead (unitsFrom 0 ps)) (bounded : size < 2 ^ 32)
    (number : Nat) :
    Ordered (size : Int) ((codes virt lead ps).map Code.mark) ∧
    ∃ q final, h265Parse { virt, size, number } = .ok (.OK, q, final) ∧
      q.handed.map range = kept number (cut size ((codes virt lead ps).map Code.mark)) := by
  have legal : ∀ (us : List (CodedUnit Tag)), (∀ u ∈ us, u.Closed ∧ Filled u.toElement) →
      ∀ a, Legal step Fit a us := by
    intro us fit
    induction us with
    | nil => exact fun _ => trivial
    | cons u us ih => exact fun a => ⟨fit u (by simp), ih (fun v mem => fit v (by simp [mem])) _⟩
  refine parse_units (by decide) standard file ?_ number
  refine codesOf_simulates (R := Remembers) ?_ ⟨by simp, by simp, by simp⟩
    (legal _ (fun u mem => ⟨file.closed u mem, unitsFrom_filled mem⟩) _) file.units
    (le_of_eq file.size.symm)
  intro pos u info a remembers fit holds inside
  exact h265CheckFrame_follows remembers fit holds inside bounded

/-- A slice segment of an interrupted picture lies past the piece of the first one. -/
theorem split_outside {k : Nat} {p : Picture} (at_ : ps[k]? = some p) (opens : Opens ps)
    (split : p.Interrupted) {s : Int × Int}
    (around : Around (normalize h265Scode) virt step lead.length (ahead (groups Picture.parts 0 ps) k (p.parts k))
      (p.parts k).first (behind (groups Picture.parts 0 ps) k (p.parts k)) {} s) :
    ∃ x ∈ layout lead.length (unitsFrom 0 ps), x.tag = ⟨k, true⟩ ∧ s.2 ≤ x.start := by
  obtain ⟨quiet, c, between, e, trailer, eq, config, plain, slice⟩ := splits_true split
  -- the units up to the header, and from there to the slice segment
  let first := quiet.map (tagged k)
  let second := between.map (tagged k)
  have rest : (p.parts k).rest = first ++ tagged k c :: (second ++ tagged k e :: trailer.map (tagged k)) := by
    simp [Picture.parts, eq, first, second]
  have header : ∀ a, step a (tagged k c) = (.CONFIG, ⟨a.sps || typeOf c == 33, true⟩) :=
    fun a => step_config (u := tagged k c) config
  have flat : ∀ u ∈ second, isSlice (typeOf u.toElement) = false := by
    intro u mem
    obtain ⟨d, inside, rfl⟩ := List.mem_map.mp mem
    exact plain d inside
  have framed : ∃ d ∈ codesBy (normalize h265Scode) virt step
      (place lead.length (ahead (groups Picture.parts 0 ps) k (p.parts k) ++ [(p.parts k).first]))
      (behind (groups Picture.parts 0 ps) k (p.parts k))
      (after step {} (ahead (groups Picture.parts 0 ps) k (p.parts k) ++ [(p.parts k).first])), d.type = .FRAME := by
    have sps := sps_stays (sps_seen opens at_) ((p.parts k).first :: (first ++ tagged k c :: second))
    rw [behind, rest, show first ++ tagged k c :: (second ++ tagged k e :: trailer.map (tagged k)) =
      (first ++ tagged k c :: second) ++ tagged k e :: trailer.map (tagged k) by simp,
      List.append_assoc, List.cons_append]
    apply frame_code
    rw [← after_append, List.append_assoc, List.singleton_append, after_append,
      step_slice (u := tagged k e) slice sps]
    have pending := (plain_after flat (step (after step
      (step (after step {} (ahead (groups Picture.parts 0 ps) k (p.parts k))) (p.parts k).first).2 first)
      (tagged k c)).2).2 (by rw [header])
    simp only [after, List.foldl_cons, List.foldl_append] at pending ⊢
    rw [pending]
    rfl
  obtain ⟨x, mem, tag, past⟩ := kept_outside (groups_at at_) around rest (by simp [header]) framed
  refine ⟨x, by rwa [unitsFrom_flatten], ?_, past⟩
  rw [tag]
  simp [tagged, CodedUnit.of, slice]

end Pieces

/-- Below 4 GiB the slice segments of each picture stay together exactly when no
picture the limit lets through is interrupted by a parameter set or SEI. -/
theorem h265_together_iff {virt : Nat → UInt8} {size : Nat} {lead : Bytes} (ps : List Picture)
    (file : File virt size lead (unitsFrom 0 ps)) (opens : Opens ps) (bounded : size < 2 ^ 32)
    (number : Nat) :
    ∃ q final, h265Parse { virt, size, number } = .ok (.OK, q, final) ∧
      (Together (layout lead.length (unitsFrom 0 ps)) ps.length number (q.handed.map range) ↔
        ∀ k p, ps[k]? = some p → number = 0 ∨ k < number → ¬ p.Interrupted) := by
  obtain ⟨ordered, q, final, run, ranges⟩ := parse_pictures file bounded number
  refine ⟨q, final, run, ?_⟩
  rw [ranges]
  obtain ⟨a, tiles⟩ := cut_tiling ordered
  have flat := unitsFrom_flatten 0 ps
  have file' := flat ▸ file
  have ordered' : Ordered (size : Int) ((codesBy (normalize h265Scode) virt step lead.length
    (flatten (groups Picture.parts 0 ps)) {}).map Code.mark) := flat ▸ ordered
  constructor
  · intro together k
    -- the pictures before are uninterrupted, so this one leads the piece of its number
    induction k using Nat.strongRecOn with
    | ind k earlier =>
      intro p at_ limit split
      have bound := (List.getElem?_eq_some_iff.mp at_).1
      obtain ⟨r, mem, whole⟩ := together.one k bound limit
      obtain ⟨i, found⟩ := List.getElem?_of_mem (kept_mem mem)
      obtain ⟨s, piece, around⟩ := (leads opens at_ fun j q less here =>
        earlier j less q here (by omega)).piece (groups_at at_) standard file' ordered'
      obtain ⟨x, inside, tag, past⟩ := split_outside at_ opens split around
      have first : placed lead.length (ahead (groups Picture.parts 0 ps) k (p.parts k)) (p.parts k).first ∈
          layout lead.length (unitsFrom 0 ps) :=
        mem_layout.mpr ⟨_, _, _, flat.trans (around_first (groups_at at_)), rfl⟩
      have tagged_ : (p.parts k).first.tag = ⟨k, true⟩ := by
        simp [Picture.parts, tagged, CodedUnit.of, p.first_slice]
      have lead_ := whole _ first tagged_
      have stop := around.holds [] _ rfl trivial _ (List.mem_singleton.mpr rfl)
      have start := around.start
      rw [← flat] at piece
      have same : i = k := tiles.index_unique found piece
        (x := (place lead.length (ahead (groups Picture.parts 0 ps) k (p.parts k)) : Int))
        (by simp only [placed] at lead_; omega)
        (by simp only [placed, place_nil] at stop; omega)
      rw [same, piece] at found
      cases Option.some.inj found
      have := whole x inside tag
      have := (layout_bounds inside).2.1
      omega
  · intro whole
    have limited : ∀ k p, ps[k]? = some p → number = 0 ∨ k ≤ number →
        Leads step {} (groups Picture.parts 0 ps) k (p.parts k) := fun k p at_ limit =>
      leads opens at_ fun j q less here => whole j q here (by omega)
    constructor
    · intro k bound limit
      have at_ := List.getElem?_eq_getElem bound
      obtain ⟨s, piece, around⟩ :=
        (limited k _ at_ (by omega)).piece (groups_at at_) standard file' ordered'
      rw [← flat] at piece
      refine ⟨s, List.mem_of_getElem? (i := k) (by rw [kept_getElem, if_pos limit, piece]), ?_⟩
      intro x mem tag
      rw [flat] at mem
      exact (compact_of_whole opens at_ (whole k _ at_ limit)).inside (numbered ps) (groups_at at_)
        around mem (by rw [tag]) (by rw [tag])
    · intro r mem x hx y hy xslice yslice xlow xhigh ylow yhigh
      obtain ⟨i, found⟩ := List.getElem?_of_mem mem
      rw [kept_getElem] at found
      split at found
      case isTrue limit =>
        have found' : (pieces (normalize h265Scode) virt step {} size lead (flatten (groups Picture.parts 0 ps)))[i]? =
          some r := flat ▸ found
        -- without a limit every picture counts, and none follows the last
        let bound := if number = 0 then max ps.length (i + 1) else number
        have own : ∀ z ∈ layout lead.length (unitsFrom 0 ps), z.tag.slice = true → r.1 < z.stop →
            z.start < r.2 → z.tag.picture = i := by
          intro z hz zslice zlow zhigh
          rw [flat] at hz
          refine meets_own (numbered ps) standard file' ordered' bound ?_ ?_ found' ?_ hz
            zslice zlow zhigh
          · intro k g here within
            obtain ⟨p, at_, rfl⟩ := groups_find here
            exact limited k p at_ (by simp only [bound] at within; split at within <;> omega)
          · intro k g here within
            obtain ⟨p, at_, rfl⟩ := groups_find here
            refine compact_of_whole opens at_ (whole k p at_ ?_)
            simp only [bound] at within
            split at within <;> omega
          · simp only [bound]
            split <;> omega
        rw [own x hx xslice xlow xhigh, own y hy yslice ylow yhigh]
      case isFalse => contradiction

/-- A sequence parameter set and an IDR picture of two slice segments with a suffix
SEI between them. -/
def suffixBetween : Picture where
  front := [{ bytes := [0x42, 0x01, 0x01, 0x01, 0x60], zeros := 1 }]
  first := { bytes := [0x26, 0x01, 0xAF, 0x78], zeros := 1 }
  rest := [{ bytes := [0x50, 0x01, 0x84, 0x01, 0x80], zeros := 1 },
    { bytes := [0x26, 0x01, 0x20, 0xBC] }]
  front_plain := by decide
  first_slice := by decide
  first_flag := by decide
  rest_flags := by decide
  filled := by decide

def suffixBytes : Bytes := 0 :: stream (payloads (unitsFrom 0 [suffixBetween]))

theorem suffixBetween_file :
    File (memory suffixBytes) 34 [0] (unitsFrom 0 [suffixBetween]) where
  clean := by decide
  closed := by decide
  holds := memory_holds _
  size := by decide

theorem h265_together_suffix : ∃ q final,
    h265Parse { virt := memory suffixBytes, size := 34, number := 0 } = .ok (.OK, q, final) ∧
      (Together (layout 1 (unitsFrom 0 [suffixBetween])) 1 0 (q.handed.map range) ↔
        ∀ k p, [suffixBetween][k]? = some p → 0 = 0 ∨ k < 0 → ¬ p.Interrupted) :=
  h265_together_iff [suffixBetween] suffixBetween_file ⟨_, List.mem_singleton.mpr rfl, rfl⟩ (by decide) 0

/-- The suffix SEI makes a frame of the second slice segment. -/
theorem h265_splits_picture : ∃ q final,
    h265Parse { virt := memory suffixBytes, size := 34, number := 0 } = .ok (.OK, q, final) ∧
      ¬ Together (layout 1 (unitsFrom 0 [suffixBetween])) 1 0 (q.handed.map range) := by
  have evaluated : (h265Parse { virt := memory suffixBytes, size := 34, number := 0 }).map
      (fun result => (result.1, result.2.1.handed)) = .ok (.OK, [(0, 17), (17, 17)]) := by decide
  cases run : h265Parse { virt := memory suffixBytes, size := 34, number := 0 } with
  | error e => nomatch e
  | ok result =>
    obtain ⟨ret, q, final⟩ := result
    simp only [run, Except.map, Except.ok.injEq, Prod.mk.injEq] at evaluated
    obtain ⟨rfl, handed⟩ := evaluated
    refine ⟨q, final, rfl, fun together => ?_⟩
    obtain ⟨r, mem, whole⟩ := together.one 0 (by decide) (.inl rfl)
    rw [handed] at mem
    have first := whole ⟨⟨0, true⟩, 10, 17⟩ (by decide) rfl
    have second := whole ⟨⟨0, true⟩, 27, 34⟩ (by decide) rfl
    simp only [List.map_cons, List.map_nil, range, List.mem_cons, List.not_mem_nil, or_false] at mem
    rcases mem with rfl | rfl
    · exact absurd second (by decide)
    · exact absurd first (by decide)

end ImxTest.Pitcher.H265
