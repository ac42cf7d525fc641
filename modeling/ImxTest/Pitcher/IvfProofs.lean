import ImxTest.Pitcher.Ivf
import Mathlib.Tactic.Ring

/-! What the IVF reader hands over. Every turn of its loop reads a frame header;
the sizes lead from one header to the next as long as they are not negative. -/
namespace ImxTest.Pitcher.Ivf

open Lib.While

/-- A file whose header the reader accepts: long enough, "DKIF" with a version
byte of zero, "VP80" or "VP90". -/
structure Headed (virt : Nat → UInt8) (size : Nat) : Prop where
  long : ivfHdrSize ≤ size
  signature : bytesAt virt 0 5 = dkif ++ [0]
  codec : bytesAt virt 8 4 = vp80 ∨ bytesAt virt 8 4 = vp90

theorem accepts_spec (p : PitcherParser) :
    ∃ accepted, accepts p = .ok accepted ∧ (accepted = true ↔ Headed p.virt p.size) := by
  by_cases long : p.size < ivfHdrSize
  · exact ⟨false, by rw [accepts, if_pos long], by simp, fun headed => absurd headed.long (by omega)⟩
  · have enough : 32 ≤ p.size := Nat.le_of_not_lt long
    have signature : strncmp p dkif 0 5 = .ok (decide (bytesAt p.virt 0 5 = dkif ++ [0])) :=
      @strncmp_ended p dkif 0 (Nat.lt_of_lt_of_le (by decide) enough) (by simp [dkif])
    have first : strncmp p vp80 8 4 = .ok (decide (bytesAt p.virt 8 4 = vp80)) :=
      @strncmp_text p vp80 8 (Nat.le_trans (by decide) enough) (by simp [vp80])
    have second : strncmp p vp90 8 4 = .ok (decide (bytesAt p.virt 8 4 = vp90)) :=
      @strncmp_text p vp90 8 (Nat.le_trans (by decide) enough) (by simp [vp90])
    refine ⟨decide (bytesAt p.virt 0 5 = dkif ++ [0] ∧
      (bytesAt p.virt 8 4 = vp80 ∨ bytesAt p.virt 8 4 = vp90)), ?_, ?_⟩
    · simp only [accepts, if_neg long, signature, first, second, bind, Except.bind, decide_eq_true_eq]
      split_ifs <;> simp_all
    · rw [decide_eq_true_eq]
      exact ⟨fun ⟨signature, codec⟩ => ⟨enough, signature, codec⟩,
        fun headed => ⟨headed.signature, headed.codec⟩⟩

theorem frameSize_inside {p : PitcherParser} {pos : Nat} (inside : pos + 4 ≤ p.size) :
    frameSize p pos = .ok (int32 (littleEndian p.virt pos 4)) := by
  have l0 := load_inside (show pos < p.size by omega)
  have l1 := load_inside (show pos + 1 < p.size by omega)
  have l2 := load_inside (show pos + 2 < p.size by omega)
  have l3 := load_inside (show pos + 3 < p.size by omega)
  push_cast at l1 l2 l3
  simp only [frameSize, l0, l1, l2, l3, bind, Except.bind, littleEndian, Nat.shiftLeft_eq]
  congr 2
  push_cast
  ring

theorem resolution_inside {p : PitcherParser} (long : ivfHdrSize ≤ p.size) :
    ∃ width height, resolution p = .ok { p with width, height } := by
  have enough : 32 ≤ p.size := long
  have l0 : load p 12 = .ok (p.virt 12) := load_inside (show 12 < p.size by omega)
  have l1 : load p 13 = .ok (p.virt 13) := load_inside (show 13 < p.size by omega)
  have l2 : load p 14 = .ok (p.virt 14) := load_inside (show 14 < p.size by omega)
  have l3 : load p 15 = .ok (p.virt 15) := load_inside (show 15 < p.size by omega)
  refine ⟨(p.virt 12).toNat ||| (p.virt 13).toNat <<< 8, (p.virt 14).toNat ||| (p.virt 15).toNat <<< 8, ?_⟩
  simp only [resolution, l0, l1, l2, l3, bind, Except.bind]

/-- The loop is about to read what lies `pos` bytes into the file. -/
structure At (virt : Nat → UInt8) (size pos : Nat) (v : Locals) : Prop where
  current : v.current = pos
  leftBytes : v.leftBytes = size - pos
  virt : v.parser.virt = virt
  size : v.parser.size = size

section turns
variable {virt : Nat → UInt8} {size pos : Nat} {v : Locals}

theorem turn_short (here : At virt size pos v) (short : size ≤ pos + frameHdrSize) :
    turn v = .ok (.leave v.parser) := by
  have few : ¬ (frameHdrSize : Int) < v.leftBytes := by rw [here.leftBytes]; omega
  rw [turn, if_neg few]

theorem turn_header (here : At virt size pos v) (long : pos + frameHdrSize < size) :
    turn v =
      if (size : Int) - pos - frameHdrSize < int32 (littleEndian virt pos 4) then .ok (.leave v.parser)
      else .ok (.again
        { current := pos + frameHdrSize + int32 (littleEndian virt pos 4)
          leftBytes := size - pos - frameHdrSize - int32 (littleEndian virt pos 4)
          frameIdx := v.frameIdx + 1
          parser := pitcherParserPushNewFrame v.parser (pos + frameHdrSize)
            (int32 (littleEndian virt pos 4)) v.frameIdx }) := by
  have many : (frameHdrSize : Int) < v.leftBytes := by rw [here.leftBytes]; omega
  have read : frameSize v.parser pos = .ok (int32 (littleEndian virt pos 4)) := by
    rw [← here.virt]
    apply frameSize_inside
    rw [here.size]
    exact Nat.le_trans (Nat.add_le_add_left (by decide) pos) long.le
  have offset : (size : Int) - (size - pos - frameHdrSize) = pos + frameHdrSize := by omega
  rw [turn, if_pos many, here.current]
  simp only [read, bind, Except.bind, here.leftBytes, here.size, offset]

/-- The frame behind the header at `pos` is in the file: it is handed over. -/
theorem turn_frame (here : At virt size pos v) (long : pos + frameHdrSize < size)
    (small : littleEndian virt pos 4 < 2 ^ 31)
    (fits : pos + frameHdrSize + littleEndian virt pos 4 ≤ size) :
    ∃ w, turn v = .ok (.again w) ∧ At virt size (pos + frameHdrSize + littleEndian virt pos 4) w ∧
      w.frameIdx = v.frameIdx + 1 ∧
      w.parser = pitcherParserPushNewFrame v.parser (pos + frameHdrSize : Nat)
        (littleEndian virt pos 4) v.frameIdx := by
  rw [turn_header here long, int32_small small, if_neg (by omega)]
  refine ⟨_, rfl, ?_, rfl, by push_cast; rfl⟩
  constructor
  · push_cast
    rfl
  · push_cast
    omega
  · exact here.virt
  · exact here.size

theorem turn_truncated (here : At virt size pos v) (long : pos + frameHdrSize < size)
    (small : littleEndian virt pos 4 < 2 ^ 31)
    (past : size < pos + frameHdrSize + littleEndian virt pos 4) :
    turn v = .ok (.leave v.parser) := by
  rw [turn_header here long, int32_small small, if_pos (by omega)]

/-- A size with its top bit set is handed over as a negative one. -/
theorem turn_negative (here : At virt size pos v) (long : pos + frameHdrSize < size)
    (large : 2 ^ 31 ≤ littleEndian virt pos 4) :
    ∃ w length, turn v = .ok (.again w) ∧ length < 0 ∧
      ((pos + frameHdrSize : Int), length) ∈ w.parser.handed := by
  have negative := int32_negative large (littleEndian_lt virt pos 4)
  rw [turn_header here long, if_neg (by omega)]
  refine ⟨_, _, rfl, negative, ?_⟩
  simp [pitcherParserPushNewFrame, pitcherParserPush]

end turns

theorem handed_grows {v w : Locals} (next : turn v = .ok (.again w)) :
    v.parser.handed ⊆ w.parser.handed := by
  unfold turn at next
  split at next
  case isTrue =>
    cases read : frameSize v.parser v.current with
    | error e => simp [read, bind, Except.bind] at next
    | ok length =>
      simp only [read, bind, Except.bind] at next
      split at next
      · simp at next
      · obtain rfl : _ = w := by simpa using next
        exact List.subset_append_left ..
  case isFalse => simp at next

theorem leaves_held {v : Locals} {q : PitcherParser} (left : turn v = .ok (.leave q)) :
    q = v.parser := by
  unfold turn at left
  split at left
  case isTrue =>
    cases read : frameSize v.parser v.current with
    | error e => simp [read, bind, Except.bind] at left
    | ok length =>
      simp only [read, bind, Except.bind] at left
      split at left
      · simpa using left.symm
      · simp at left
  case isFalse => simpa using left.symm

/-- The outcome of a parse, after enough turns. -/
def Parses (p : PitcherParser) (outcome : Except Outside (Ret × PitcherParser)) : Prop :=
  ∃ fuel, vpxParse fuel p = some outcome

theorem parses_rejected {p : PitcherParser} (rejected : ¬ Headed p.virt p.size) :
    Parses p (.ok (.E_INVAL, p)) := by
  obtain ⟨accepted, tested, headed⟩ := accepts_spec p
  have no : accepted = false := by simpa using fun yes => rejected (headed.mp yes)
  exact ⟨0, by simp only [vpxParse, tested, no]⟩

theorem parses_headed {p : PitcherParser} (headed : Headed p.virt p.size) :
    ∃ start, At p.virt p.size ivfHdrSize start ∧ start.frameIdx = 0 ∧
      (∃ width height, start.parser = { p with width, height }) ∧
      ∀ ret q, Parses p (.ok (ret, q)) ↔ ret = .OK ∧ Ends turn start (.ok q) := by
  obtain ⟨accepted, tested, iff_⟩ := accepts_spec p
  obtain rfl : accepted = true := iff_.mpr headed
  obtain ⟨width, height, read⟩ := resolution_inside headed.long
  refine ⟨{ current := ivfHdrSize, leftBytes := p.size - ivfHdrSize, parser := { p with width, height } },
    ⟨rfl, rfl, rfl, rfl⟩, rfl, ⟨width, height, rfl⟩, fun ret q => ?_⟩
  constructor
  · rintro ⟨fuel, parsed⟩
    simp only [vpxParse, tested, read, Option.map_eq_some_iff] at parsed
    obtain ⟨outcome, ended, mapped⟩ := parsed
    cases outcome with
    | error e => simp [Except.map] at mapped
    | ok q' =>
      obtain ⟨rfl, rfl⟩ : .OK = ret ∧ q' = q := by simpa [Except.map] using mapped
      exact ⟨rfl, fuel, ended⟩
  · rintro ⟨rfl, fuel, ended⟩
    refine ⟨fuel, ?_⟩
    simp only [vpxParse, tested, read, ended]
    rfl

/-! ## Any file -/

/-- The places of frame headers in a file, as the sizes in them lead on. -/
inductive HeaderAt (virt : Nat → UInt8) (size : Nat) : Nat → Prop where
  | first : HeaderAt virt size ivfHdrSize
  | next {pos : Nat} (before : HeaderAt virt size pos) (long : pos + frameHdrSize < size)
      (small : littleEndian virt pos 4 < 2 ^ 31)
      (fits : pos + frameHdrSize + littleEndian virt pos 4 ≤ size) :
      HeaderAt virt size (pos + frameHdrSize + littleEndian virt pos 4)

/-- The reader ends, and hands over ranges inside the file only. -/
def Bounded (virt : Nat → UInt8) (size number : Nat) : Prop :=
  ∃ ret q, Parses { virt, size, number } (.ok (ret, q)) ∧ WithinFile size q.handed

/-- The sizes of the frames in front of each header are positive numbers. -/
def Plain (virt : Nat → UInt8) (size : Nat) : Prop :=
  ∀ pos, HeaderAt virt size pos → pos + frameHdrSize < size → littleEndian virt pos 4 < 2 ^ 31

structure Inside (virt : Nat → UInt8) (size : Nat) (v : Locals) (pos : Nat) : Prop where
  header : HeaderAt virt size pos
  here : At virt size pos v
  placed : WithinFile size v.parser.handed
  behind : ∀ r ∈ v.parser.handed, r.1 < pos + frameHdrSize ∧ r.1 + r.2 ≤ pos

theorem Inside.turn {virt : Nat → UInt8} {size pos : Nat} {v : Locals} (plain : Plain virt size)
    (inside : Inside virt size v pos) :
    turn v = .ok (.leave v.parser) ∨ ∃ w next, turn v = .ok (.again w) ∧ Inside virt size w next ∧
      w.leftBytes.toNat < v.leftBytes.toNat := by
  have here := inside.here
  by_cases long : pos + frameHdrSize < size
  · have small := plain pos inside.header long
    by_cases fits : pos + frameHdrSize + littleEndian virt pos 4 ≤ size
    · obtain ⟨w, again, there, -, parser⟩ := turn_frame here long small fits
      have handed : w.parser.handed =
          v.parser.handed ++ [(((pos + frameHdrSize : Nat) : Int), (littleEndian virt pos 4 : Int))] := by
        rw [parser]
        rfl
      refine .inr ⟨w, _, again, ⟨.next inside.header long small fits, there, ?_, ?_⟩, ?_⟩
      · rw [handed]
        apply inside.placed.push
        · omega
        · intro r mem
          have := inside.behind r mem
          omega
      · intro r mem
        rw [handed] at mem
        rcases List.mem_append.mp mem with old | new
        · have := inside.behind r old
          omega
        · obtain rfl := List.mem_singleton.mp new
          have : 0 < frameHdrSize := by decide
          constructor
          · omega
          · omega
      · rw [here.leftBytes, there.leftBytes]
        have : 0 < frameHdrSize := by decide
        omega
    · exact .inl (turn_truncated here long small (Nat.lt_of_not_le fits))
  · exact .inl (turn_short here (Nat.le_of_not_lt long))

theorem plain_bounded {virt : Nat → UInt8} {size number : Nat}
    (plain : Headed virt size → Plain virt size) : Bounded virt size number := by
  by_cases headed : Headed virt size
  · obtain ⟨start, here, -, ⟨width, height, parser⟩, parses⟩ :=
      @parses_headed { virt, size, number } headed
    have first : Inside virt size start ivfHdrSize := by
      constructor
      · exact .first
      · exact here
      · rw [parser]
        exact .nil size
      · rw [parser]
        simp
    obtain ⟨last, q, ⟨pos, inside⟩, left, ended⟩ := exists_ends
      (fun v => ∃ pos, Inside virt size v pos) (fun v => v.leftBytes.toNat)
      (by
        rintro v ⟨pos, inside⟩
        rcases inside.turn (plain headed) with left | ⟨w, next, again, -⟩
        · exact ⟨_, left⟩
        · exact ⟨_, again⟩)
      (by
        rintro v w ⟨pos, inside⟩ again
        rcases inside.turn (plain headed) with left | ⟨w', next, again', still, lower⟩
        · rw [left] at again
          simp at again
        · obtain rfl : w' = w := by simpa using again'.symm.trans again
          exact ⟨⟨next, still⟩, lower⟩)
      ⟨ivfHdrSize, first⟩
    refine ⟨.OK, q, (parses .OK q).mpr ⟨rfl, ended⟩, ?_⟩
    rw [leaves_held left]
    exact inside.placed
  · exact ⟨.E_INVAL, _, parses_rejected headed, .nil size⟩

/-- The loop comes to every header. -/
theorem reaches_header {virt : Nat → UInt8} {size pos : Nat} (header : HeaderAt virt size pos)
    {start : Locals} (here : At virt size ivfHdrSize start) :
    ∃ v, At virt size pos v ∧ ∀ q, Ends turn start (.ok q) → Ends turn v (.ok q) := by
  induction header with
  | first => exact ⟨start, here, fun _ ended => ended⟩
  | next before long small fits ih =>
    obtain ⟨v, there, onward⟩ := ih
    obtain ⟨w, again, next, -⟩ := turn_frame there long small fits
    exact ⟨w, next, fun q ended => (ends_again again).mp (onward q ended)⟩

theorem bounded_plain {virt : Nat → UInt8} {size number : Nat} (bounded : Bounded virt size number)
    (headed : Headed virt size) : Plain virt size := by
  intro pos header long
  by_contra large
  obtain ⟨ret, q, parsed, placed⟩ := bounded
  obtain ⟨start, here, -, -, parses⟩ := @parses_headed { virt, size, number } headed
  obtain ⟨v, there, onward⟩ := reaches_header header here
  obtain ⟨w, length, again, negative, handed⟩ := turn_negative there long (Nat.le_of_not_lt large)
  have ended := (ends_again again).mp (onward q ((parses ret q).mp parsed).2)
  obtain ⟨last, kept, left⟩ := ended.invariant
    (fun v => ((pos + frameHdrSize : Int), length) ∈ v.parser.handed)
    (fun _ _ mem next => handed_grows next mem) handed
  rw [leaves_held left] at placed
  have := placed.inside _ kept
  omega

/-- Exactly the files with a frame size of 2^31 or more make the reader hand
over something else than ranges of the file, or never end. -/
theorem vpxParse_bounded_iff (virt : Nat → UInt8) (size number : Nat) :
    Bounded virt size number ↔ (Headed virt size → ∀ pos, HeaderAt virt size pos →
      pos + frameHdrSize < size → littleEndian virt pos 4 < 2 ^ 31) :=
  ⟨bounded_plain, plain_bounded⟩

/-- A VP8 file with one frame of four bytes whose header says 2^32 - 1. -/
def negativeFrame : List UInt8 :=
  vp8InsertIvfSeqhdr 64 64 30 ++ [0xff, 0xff, 0xff, 0xff, 0, 0, 0, 0, 0, 0, 0, 0] ++ [1, 2, 3, 4]

theorem vpxParse_negative : ¬ Bounded (fun i => negativeFrame.getD i 0) 48 0 := by
  intro bounded
  have headed : Headed (fun i => negativeFrame.getD i 0) 48 := by
    constructor
    · decide
    · decide
    · exact .inl (by decide)
  have small := bounded_plain bounded headed ivfHdrSize .first (by decide)
  revert small
  decide

/-! ## A file the output node wrote -/

/-- Where the payloads lie when the first frame header is `pos` bytes into the file. -/
def payloads : (pos : Nat) → List (List UInt8) → List (Int × Int)
  | _, [] => []
  | pos, f :: fs =>
    (((pos + frameHdrSize : Nat) : Int), (f.length : Int)) :: payloads (pos + frameHdrSize + f.length) fs

/-- The queue entries of ranges handed over, numbered from `idx` on, in the
widths of `struct pitcher_frame`. -/
def stored (idx : Nat) (ranges : List (Int × Int)) : List PitcherFrame :=
  ranges.mapIdx fun i r => ⟨(idx + i) % 2 ^ 32, (r.2 % 2 ^ 64).toNat, (r.1 % 2 ^ 32).toNat⟩

theorem stored_cons (idx : Nat) (r : Int × Int) (ranges : List (Int × Int)) :
    stored idx (r :: ranges) =
      ⟨idx % 2 ^ 32, (r.2 % 2 ^ 64).toNat, (r.1 % 2 ^ 32).toNat⟩ :: stored (idx + 1) ranges := by
  simp only [stored, List.mapIdx_cons, Nat.add_zero, List.cons.injEq, true_and]
  congr 1
  funext i r
  rw [Nat.add_right_comm, Nat.add_assoc]

theorem record_length (f : List UInt8) : (record f).length = frameHdrSize + f.length := by
  rw [record, List.length_append]
  rfl

theorem getD_behind (l m : List UInt8) (k : Nat) : (l ++ m).getD (l.length + k) 0 = m.getD k 0 := by
  rw [List.getD_eq_getElem?_getD, List.getElem?_append_right (Nat.le_add_right ..),
    Nat.add_sub_cancel_left, List.getD_eq_getElem?_getD]

theorem byteAt_toNat (n shift : Nat) : (byteAt n shift).toNat = n / 2 ^ shift % 2 ^ 8 := by
  rw [byteAt, UInt8.toNat_ofNat', Nat.shiftRight_eq_div_pow]

/-- The reader finds the length the writer put in the header. -/
theorem littleEndian_record {virt : Nat → UInt8} {pos : Nat} {f rest : List UInt8}
    (holds : ∀ k, virt (pos + k) = (record f ++ rest).getD k 0) (short : f.length < 2 ^ 31) :
    littleEndian virt pos 4 = f.length := by
  have c0 : virt pos = byteAt f.length 0 := holds 0
  have c1 : virt (pos + 1) = byteAt f.length 8 := holds 1
  have c2 : virt (pos + 1 + 1) = byteAt f.length 16 := holds 2
  have c3 : virt (pos + 1 + 1 + 1) = byteAt f.length 24 := holds 3
  simp only [littleEndian, c0, c1, c2, c3, byteAt_toNat]
  omega

theorem ends_records {frames : List (List UInt8)} (nonempty : ∀ f ∈ frames, f ≠ [])
    (short : ∀ f ∈ frames, f.length < 2 ^ 31) {virt : Nat → UInt8} {size pos : Nat}
    (holds : ∀ k, virt (pos + k) = (frames.flatMap record).getD k 0)
    (whole : size = pos + (frames.flatMap record).length) {v : Locals} (here : At virt size pos v) :
    ∃ q, Ends turn v (.ok q) ∧ q.handed = v.parser.handed ++ payloads pos frames ∧
      q.queue = v.parser.queue ++ stored v.frameIdx (payloads pos frames) := by
  induction frames generalizing pos v with
  | nil =>
    have left := turn_short here (by rw [whole]; exact Nat.add_le_add_left (Nat.zero_le _) pos)
    exact ⟨v.parser, ends_leave left, (List.append_nil _).symm, (List.append_nil _).symm⟩
  | cons f frames ih =>
    have some_ : 0 < f.length := List.length_pos_of_ne_nil (nonempty f List.mem_cons_self)
    have length := littleEndian_record holds (short f List.mem_cons_self)
    rw [List.flatMap_cons, List.length_append, record_length] at whole
    obtain ⟨w, again, next, idx, parser⟩ := turn_frame here (by omega)
      (by rw [length]; exact short f List.mem_cons_self) (by omega)
    rw [length] at next parser
    obtain ⟨q, ended, handed, queue⟩ := ih (fun g mem => nonempty g (List.mem_cons_of_mem f mem))
      (fun g mem => short g (List.mem_cons_of_mem f mem))
      (by
        intro k
        have there := holds (frameHdrSize + f.length + k)
        rw [List.flatMap_cons, ← record_length, getD_behind] at there
        rw [← there, record_length]
        congr 1
        omega)
      (by omega) next
    refine ⟨q, (ends_again again).mpr ended, ?_, ?_⟩
    · rw [handed, parser]
      simp [payloads, pitcherParserPushNewFrame, pitcherParserPush]
    · rw [queue, parser, idx]
      simp [payloads, stored_cons, pitcherParserPushNewFrame, pitcherParserPush]

theorem payloads_bytes (pre : List UInt8) (frames : List (List UInt8)) :
    (payloads pre.length frames).map (fun r =>
      ((pre ++ frames.flatMap record).drop r.1.toNat).take r.2.toNat) = frames := by
  induction frames generalizing pre with
  | nil => rfl
  | cons f frames ih =>
    have rest := ih (pre ++ record f)
    rw [List.length_append, record_length, ← Nat.add_assoc] at rest
    have header : (vp8InsertIvfPichdr f.length).length = frameHdrSize := rfl
    have payload : ((pre ++ (f :: frames).flatMap record).drop (pre.length + frameHdrSize)).take f.length =
        f := by
      rw [List.flatMap_cons, record, ← header, ← List.drop_drop, List.drop_left, List.append_assoc,
        List.drop_left, List.take_left]
    simp only [payloads, List.map_cons, Int.toNat_natCast, payload]
    rw [List.flatMap_cons, ← List.append_assoc, rest]

/-- What the VP8 output node writes, the reader hands over frame by frame. -/
theorem vpxParse_ivfFile (width height frameRate number : Nat) {frames : List (List UInt8)}
    (nonempty : ∀ f ∈ frames, f ≠ []) (short : ∀ f ∈ frames, f.length < 2 ^ 31) :
    ∃ q, Parses (mapped (ivfFile width height frameRate frames) number) (.ok (.OK, q)) ∧
      q.handed = payloads ivfHdrSize frames ∧ q.queue = stored 0 (payloads ivfHdrSize frames) ∧
      q.handed.map (fun r =>
        ((ivfFile width height frameRate frames).drop r.1.toNat).take r.2.toNat) = frames := by
  have header : (vp8InsertIvfSeqhdr width height frameRate).length = ivfHdrSize := rfl
  have whole : (ivfFile width height frameRate frames).length =
      ivfHdrSize + (frames.flatMap record).length := by rw [ivfFile, List.length_append, header]
  have holds : ∀ k, (ivfFile width height frameRate frames).getD (ivfHdrSize + k) 0 =
      (frames.flatMap record).getD k 0 := by
    intro k
    rw [ivfFile, ← header, getD_behind]
  have headed : Headed (mapped (ivfFile width height frameRate frames) number).virt
      (mapped (ivfFile width height frameRate frames) number).size := by
    constructor
    · exact Nat.le_trans (Nat.le_add_right ..) whole.ge
    · rfl
    · exact .inl rfl
  obtain ⟨start, here, idx, ⟨w, h, parser⟩, parses⟩ := parses_headed headed
  obtain ⟨q, ended, handed, queue⟩ := ends_records nonempty short holds whole here
  rw [parser] at handed
  rw [parser, idx] at queue
  refine ⟨q, (parses .OK q).mpr ⟨rfl, ended⟩, handed, queue, ?_⟩
  rw [handed]
  exact payloads_bytes (vp8InsertIvfSeqhdr width height frameRate) frames

theorem vpxParse_ivfFile_two :
    ∃ q, Parses (mapped (ivfFile 64 48 30 [[1, 2], [3]]) 0) (.ok (.OK, q)) ∧
      q.handed = payloads ivfHdrSize [[1, 2], [3]] ∧
      q.queue = stored 0 (payloads ivfHdrSize [[1, 2], [3]]) ∧
      q.handed.map (fun r =>
        ((ivfFile 64 48 30 [[1, 2], [3]]).drop r.1.toNat).take r.2.toNat) = [[1, 2], [3]] :=
  vpxParse_ivfFile 64 48 30 0 (by decide) (by decide)

end ImxTest.Pitcher.Ivf
