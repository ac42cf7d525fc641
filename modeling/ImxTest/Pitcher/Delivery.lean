import ImxTest.Pitcher.Ranges

/-! The parser node of mxc_v4l2_vpu_enc.c: it hands the frames of the queue on,
one for each run. A frame keeps its offset in 32 bits, and a `check_frame` callback
is told what is left of the file in 32 bits. -/
namespace ImxTest.Pitcher.Delivery

open Lib.Cut Scan

structure Seek where
  enable : Bool := false
  posSeek : Nat := 0
  posNew : Nat := 0
deriving DecidableEq, Repr

/-- `struct parser_test_t`; `cur` is the place of `cur_frame` in the queue of `p`,
and the frames are counted without an end. -/
structure ParserTest where
  p : PitcherParser
  cur : Option Nat
  frameCount : Nat := 0
  frameNum : Nat
  size : Nat
  offset : Nat := 0
  ended : Bool := false
  loop : Int := 0
  skip : Nat := 0
  seek : Seek := {}

/-- The first plane of a buffer; `virt` as its distance from the start of the file. -/
structure Plane where
  virt : Nat
  bytesused : Nat
deriving DecidableEq, Repr

/-- A buffer pushed to the sinks, with the place of its frame in the queue. -/
structure Delivered where
  frame : Nat
  plane : Plane
  last : Bool
  seek : Bool
deriving DecidableEq, Repr

def pitcherParserFirstFrame (p : PitcherParser) : Option Nat := if p.queue = [] then none else some 0

def pitcherParserSeekToBegin (node : ParserTest) : ParserTest :=
  { node with cur := pitcherParserFirstFrame node.p }

def pitcherParserToNextFrame (node : ParserTest) : ParserTest :=
  match node.cur with
  | none => node
  | some k => { node with cur := if k + 1 = node.p.queue.length then none else some (k + 1) }

/-- The part of `parser_run` that fills the buffer. `pitcher_parser_cur_frame`
has marked the last frame of the queue as such. -/
def fill (node : ParserTest) (k : Nat) (frame : PitcherFrame) (plane : Plane) : ParserTest × Plane :=
  if node.offset < node.size then
    let node := pitcherParserToNextFrame
      { node with offset := (node.offset + frame.size) % 2 ^ 64, frameCount := node.frameCount + 1 }
    if k + 1 = node.p.queue.length ∨ node.size ≤ node.offset then
      if node.loop ≠ 0 then
        (pitcherParserSeekToBegin { node with loop := node.loop - 1, offset := 0 },
          ⟨frame.offset, frame.size⟩)
      else ({ node with ended := true }, ⟨frame.offset, frame.size⟩)
    else (node, ⟨frame.offset, frame.size⟩)
  else ({ node with ended := true }, plane)

/-- The part of `parser_run` behind it: the flags, the push and the seek. -/
def push (node : ParserTest) (k : Nat) (plane : Plane) : ParserTest × Option Delivered :=
  let seeks := node.seek.enable && decide (node.frameCount = node.seek.posSeek)
  let ended := node.ended ||
    (!seeks && decide (0 < node.frameNum ∧ node.frameNum ≤ node.frameCount))
  let node := { node with ended }
  let buffer : Delivered := { frame := k, plane, last := !seeks && node.ended, seek := seeks }
  let pushed := if 0 < plane.bytesused ∧ node.skip < node.frameCount then some buffer else none
  if seeks then
    (pitcherParserSeekToBegin
      { node with
        offset := 0, frameCount := 0, skip := node.seek.posNew
        seek := { node.seek with enable := false } }, pushed)
  else (node, pushed)

/-- `idle` is the plane of the idle buffer that is taken, if there is one. -/
def parserRun (node : ParserTest) (idle : Option Plane) : ParserTest × Option Delivered :=
  match node.cur.bind fun k => node.p.queue[k]?.map (Prod.mk k) with
  | none => ({ node with ended := true }, none)
  | some (k, frame) =>
    match idle with
    | none => (node, none)
    | some plane => push (fill node k frame plane).1 k (fill node k frame plane).2

/-- What one visit to an active node depends on. -/
structure Visit where
  termination : Bool
  idle : Option Plane
deriving DecidableEq, Repr

/-- `__process_chn_active`: `parser_checkready`, then `parser_run` when ready. -/
def visit (node : ParserTest) (v : Visit) : ParserTest × Option Delivered :=
  let node := { node with ended := node.ended || v.termination }
  if node.ended then (node, none)
  else if v.idle.isSome then parserRun node v.idle
  else (node, none)

def deliveries (node : ParserTest) : List Visit → List Delivered
  | [] => []
  | v :: vs => (visit node v).2.toList ++ deliveries (visit node v).1 vs

/-- The node as `init_parser_node` leaves it: `p` has been parsed. -/
def initParserNode (p : PitcherParser) (loop : Int) (skip : Nat) (seek : Seek) : ParserTest :=
  pitcherParserSeekToBegin
    { p, cur := none, frameNum := p.number, size := p.size, loop, skip, seek }

/-- A callback that also keeps what it was told, as places and sizes. -/
def logged {σ : Type} (f : Callback σ) : Callback (σ × List (Nat × Nat)) :=
  fun virt pos size priv =>
    let (type, next) := f virt pos size priv.1
    (type, next, priv.2 ++ [(pos, size)])

/-! ## The pieces of the queue -/

/-- The frames of the queue are these pieces of the file. -/
structure Laid (p : PitcherParser) (pieces : List (Int × Int)) : Prop where
  queue : p.queue.map heldRange = pieces.map fun piece => narrowed (call piece)
  bounds : ∀ x ∈ pieces, 0 ≤ x.1 ∧ x.1 < x.2 ∧ x.2 ≤ p.size
  joined : ∀ k x y, pieces[k]? = some x → pieces[k + 1]? = some y → x.2 = y.1

theorem Laid.length {p : PitcherParser} {pieces : List (Int × Int)} (laid : Laid p pieces) :
    p.queue.length = pieces.length := by
  have same := congrArg List.length laid.queue
  rwa [List.length_map, List.length_map] at same

theorem Laid.frame {p : PitcherParser} {pieces : List (Int × Int)} (laid : Laid p pieces) {k : Nat}
    {frame : PitcherFrame} (at_ : p.queue[k]? = some frame) :
    ∃ x, pieces[k]? = some x ∧ heldRange frame = narrowed (call x) := by
  have same : (p.queue.map heldRange)[k]? = (pieces.map fun piece => narrowed (call piece))[k]? := by
    rw [laid.queue]
  rw [List.getElem?_map, List.getElem?_map, at_, Option.map_some] at same
  obtain ⟨x, there, held⟩ := Option.map_eq_some_iff.mp same.symm
  exact ⟨x, there, held.symm⟩

/-- The node stands before a piece as far into the file as `offset` counts. -/
structure Stands (p : PitcherParser) (pieces : List (Int × Int)) (node : ParserTest) : Prop where
  parsed : node.p = p
  size : node.size = p.size
  before : ∀ k, node.cur = some k → ∃ x first, pieces[k]? = some x ∧ pieces[0]? = some first ∧
    (node.offset : Int) = x.1 - first.1

section stands
variable {p : PitcherParser} {pieces : List (Int × Int)} {node : ParserTest}

theorem Stands.first (laid : Laid p pieces) (parsed : node.p = p) (size : node.size = p.size)
    (start : node.offset = 0) : Stands p pieces (pitcherParserSeekToBegin node) where
  parsed := parsed
  size := size
  before := by
    intro k found
    simp only [pitcherParserSeekToBegin, pitcherParserFirstFrame, parsed] at found
    split at found
    case isTrue => contradiction
    case isFalse some_ =>
      obtain rfl := Option.some.inj found
      cases pieces with
      | nil =>
        have none_ := List.length_eq_zero_iff.mp laid.length
        contradiction
      | cons x rest => exact ⟨x, x, rfl, rfl, by simp [pitcherParserSeekToBegin, start]⟩

theorem Stands.ended (stands : Stands p pieces node) (ended : Bool) :
    Stands p pieces { node with ended } :=
  ⟨stands.parsed, stands.size, stands.before⟩

/-- What `fill` puts into the buffer, and where the node stands behind it. -/
theorem Stands.fill (laid : Laid p pieces) (stands : Stands p pieces node) {k : Nat}
    (cur : node.cur = some k) {frame : PitcherFrame} (at_ : p.queue[k]? = some frame) (plane : Plane)
    (fits : p.size < 2 ^ 64) :
    Stands p pieces (fill node k frame plane).1 ∧
      ∃ x, pieces[k]? = some x ∧
        (fill node k frame plane).2 = ⟨(x.1 % 2 ^ 32).toNat, (x.2 - x.1).toNat⟩ := by
  obtain ⟨x, there, held⟩ := laid.frame at_
  obtain ⟨x', first, there', start, offset⟩ := stands.before k cur
  obtain rfl : x' = x := Option.some.inj (there'.symm.trans there)
  obtain ⟨low, proper, high⟩ := laid.bounds x' (List.mem_of_getElem? there)
  have lowest := (laid.bounds first (List.mem_of_getElem? start)).1
  have more : node.offset < node.size := by
    rw [stands.size]
    omega
  obtain ⟨place, length⟩ : frame.offset = (x'.1 % 2 ^ 32).toNat ∧ frame.size = (x'.2 - x'.1).toNat := by
    obtain ⟨place, length⟩ := Prod.mk.inj held
    refine ⟨place, length.trans ?_⟩
    simp only [call]
    rw [Int.emod_eq_of_lt (by omega) (by omega)]
  have whole : (node.offset + frame.size) % 2 ^ 64 = node.offset + frame.size :=
    Nat.mod_eq_of_lt (by omega)
  have next : Stands p pieces (pitcherParserToNextFrame
      { node with offset := (node.offset + frame.size) % 2 ^ 64, frameCount := node.frameCount + 1 }) := by
    have onward : pitcherParserToNextFrame
        { node with offset := (node.offset + frame.size) % 2 ^ 64, frameCount := node.frameCount + 1 } =
        { node with
          offset := (node.offset + frame.size) % 2 ^ 64, frameCount := node.frameCount + 1
          cur := if k + 1 = p.queue.length then none else some (k + 1) } := by
      simp only [pitcherParserToNextFrame, cur, stands.parsed]
    rw [onward]
    refine ⟨stands.parsed, stands.size, ?_⟩
    intro j found
    dsimp only at found ⊢
    split at found
    case isTrue => contradiction
    case isFalse notLast =>
      obtain rfl := Option.some.inj found
      have inside := (List.getElem?_eq_some_iff.mp there).1
      obtain ⟨y, after⟩ : ∃ y, pieces[k + 1]? = some y := by
        refine ⟨_, List.getElem?_eq_getElem ?_⟩
        have := laid.length
        omega
      have joined := laid.joined k x' y there after
      refine ⟨y, first, after, start, ?_⟩
      rw [whole]
      omega
  unfold Delivery.fill
  rw [if_pos more]
  dsimp only
  split
  · split
    · refine ⟨Stands.first laid next.parsed next.size rfl, x', there, ?_⟩
      rw [place, length]
    · refine ⟨next.ended true, x', there, ?_⟩
      rw [place, length]
  · refine ⟨next, x', there, ?_⟩
    rw [place, length]

theorem Stands.push (laid : Laid p pieces) (stands : Stands p pieces node) (k : Nat) (plane : Plane) :
    Stands p pieces (push node k plane).1 ∧
      ∀ d, (push node k plane).2 = some d → d.frame = k ∧ d.plane = plane := by
  unfold Delivery.push
  dsimp only
  constructor
  · split
    · exact Stands.first laid stands.parsed stands.size rfl
    · exact stands.ended _
  · intro d pushed
    split_ifs at pushed
    all_goals
      obtain rfl := Option.some.inj pushed
      exact ⟨rfl, rfl⟩

/-- One visit: the buffer it pushes holds the piece it says. -/
theorem Stands.visit (laid : Laid p pieces) (fits : p.size < 2 ^ 64) (stands : Stands p pieces node)
    (v : Visit) :
    Stands p pieces (visit node v).1 ∧ ∀ d, (visit node v).2 = some d →
      ∃ x, pieces[d.frame]? = some x ∧ d.plane = ⟨(x.1 % 2 ^ 32).toNat, (x.2 - x.1).toNat⟩ := by
  have still := stands.ended (node.ended || v.termination)
  unfold Delivery.visit
  dsimp only
  split
  · exact ⟨still, by simp⟩
  split
  case isFalse => exact ⟨still, by simp⟩
  unfold parserRun
  split
  · exact ⟨still.ended true, by simp⟩
  · rename_i k frame found
    obtain ⟨k', cur, framed⟩ := Option.bind_eq_some_iff.mp found
    obtain ⟨frame', at_, same⟩ := Option.map_eq_some_iff.mp framed
    obtain ⟨rfl, rfl⟩ := Prod.mk.inj same
    split
    · exact ⟨still, by simp⟩
    · rename_i plane _
      rw [stands.parsed] at at_
      obtain ⟨filled, x, there, holds⟩ := still.fill laid cur at_ plane fits
      obtain ⟨pushed, buffer⟩ := filled.push laid k' (Delivery.fill _ k' frame' plane).2
      refine ⟨pushed, fun d delivered => ?_⟩
      obtain ⟨which, what⟩ := buffer d delivered
      exact ⟨x, which ▸ there, what.trans holds⟩

theorem Stands.deliveries (laid : Laid p pieces) (fits : p.size < 2 ^ 64)
    (stands : Stands p pieces node) (vs : List Visit) :
    ∀ d ∈ deliveries node vs,
      ∃ x, pieces[d.frame]? = some x ∧ d.plane = ⟨(x.1 % 2 ^ 32).toNat, (x.2 - x.1).toNat⟩ := by
  induction vs generalizing node with
  | nil => simp [Delivery.deliveries]
  | cons v vs ih =>
    obtain ⟨next, pushed⟩ := stands.visit laid fits v
    intro d mem
    rcases List.mem_append.mp mem with now | later
    · exact pushed d (Option.mem_toList.mp now)
    · exact ih next d later

end stands

/-! ## Every frame is delivered -/

/-- Nothing is skipped, sought, repeated or cut short, and the frames before
place `k` have been delivered. -/
structure Fresh (p : PitcherParser) (pieces : List (Int × Int)) (node : ParserTest) (k : Nat) : Prop where
  stands : Stands p pieces node
  cur : node.cur = some k
  count : node.frameCount = k
  frameNum : node.frameNum = p.number
  plain : node.ended = false ∧ node.loop = 0 ∧ node.skip = 0 ∧ node.seek.enable = false

/-- A visit of an active node that finds an idle buffer. -/
def go : Visit := { termination := false, idle := some ⟨0, 0⟩ }

section fresh
variable {p : PitcherParser} {pieces : List (Int × Int)} {node : ParserTest} {k : Nat}

theorem Fresh.visit (laid : Laid p pieces) (fits : p.size < 2 ^ 64)
    (room : p.number = 0 ∨ pieces.length ≤ p.number) (fresh : Fresh p pieces node k)
    (inside : k < pieces.length) :
    (∃ d, (visit node go).2 = some d ∧ d.frame = k) ∧
      (k + 1 < pieces.length → Fresh p pieces (visit node go).1 (k + 1)) := by
  obtain ⟨ended, loop, skip, seek⟩ := fresh.plain
  have same : { node with ended := node.ended || go.termination } = node := by
    rw [ended, go, Bool.or_false]
    cases node
    simp only at ended
    rw [ended]
  have counted := laid.length
  obtain ⟨frame, at_⟩ : ∃ frame, p.queue[k]? = some frame :=
    ⟨_, List.getElem?_eq_getElem (by omega)⟩
  have visited : Delivery.visit node go =
      Delivery.push (Delivery.fill node k frame ⟨0, 0⟩).1 k (Delivery.fill node k frame ⟨0, 0⟩).2 := by
    have found : (node.cur.bind fun k => node.p.queue[k]?.map (Prod.mk k)) = some (k, frame) := by
      rw [fresh.cur, fresh.stands.parsed, Option.bind_some, at_, Option.map_some]
    unfold Delivery.visit
    dsimp only
    rw [if_neg (by simp [ended, go]), if_pos (by rfl), same]
    simp only [parserRun, found, go]
  obtain ⟨stands, x, there, plane⟩ := fresh.stands.fill laid fresh.cur at_ ⟨0, 0⟩ fits
  obtain ⟨still, buffer⟩ := stands.push laid k (Delivery.fill node k frame ⟨0, 0⟩).2
  have proper := (laid.bounds x (List.mem_of_getElem? there)).2.1
  obtain ⟨first, start⟩ : ∃ first, pieces[0]? = some first :=
    ⟨_, List.getElem?_eq_getElem (by omega)⟩
  have lowest := (laid.bounds first (List.mem_of_getElem? start)).1
  -- all that `fill` can change: the last frame ends the node, the others do not
  have filled : (Delivery.fill node k frame ⟨0, 0⟩).1.frameCount = k + 1 ∧
      (Delivery.fill node k frame ⟨0, 0⟩).1.frameNum = p.number ∧
      (Delivery.fill node k frame ⟨0, 0⟩).1.skip = 0 ∧
      (Delivery.fill node k frame ⟨0, 0⟩).1.seek.enable = false ∧
      (k + 1 < pieces.length → (Delivery.fill node k frame ⟨0, 0⟩).1.cur = some (k + 1) ∧
        (Delivery.fill node k frame ⟨0, 0⟩).1.ended = false ∧
        (Delivery.fill node k frame ⟨0, 0⟩).1.loop = 0) := by
    obtain ⟨x', first', there', start', offset⟩ := fresh.stands.before k fresh.cur
    obtain rfl : x' = x := Option.some.inj (there'.symm.trans there)
    obtain rfl : first' = first := Option.some.inj (start'.symm.trans start)
    have high := (laid.bounds x' (List.mem_of_getElem? there)).2.2
    have more : node.offset < node.size := by
      rw [fresh.stands.size]
      omega
    obtain ⟨x'', there'', held⟩ := laid.frame at_
    obtain rfl : x'' = x' := Option.some.inj (there''.symm.trans there)
    have length : frame.size = (x''.2 - x''.1).toNat := by
      have := (Prod.mk.inj held).2
      simp only [call] at this
      rw [this, Int.emod_eq_of_lt (by omega) (by omega)]
    unfold Delivery.fill
    rw [if_pos more]
    simp only [pitcherParserToNextFrame, fresh.cur, fresh.stands.parsed, loop, ne_eq, not_true_eq_false,
      if_false]
    by_cases last : k + 1 = p.queue.length
    · simp only [last, true_or, if_true, fresh.count, fresh.frameNum, skip, seek, true_and]
      exact fun less => by omega
    · obtain ⟨y, after⟩ : ∃ y, pieces[k + 1]? = some y :=
        ⟨_, List.getElem?_eq_getElem (by omega)⟩
      have joined := laid.joined k x'' y there after
      have bounds := laid.bounds y (List.mem_of_getElem? after)
      have onward : ¬ node.size ≤ (node.offset + frame.size) % 2 ^ 64 := by
        rw [fresh.stands.size, Nat.mod_eq_of_lt (by omega)]
        omega
      simp only [last, onward, or_self, if_false, fresh.count, fresh.frameNum, skip, seek, ended,
        and_self, implies_true]
  obtain ⟨count, frameNum, skip, seek, onward⟩ := filled
  have long : 0 < (Delivery.fill node k frame ⟨0, 0⟩).2.bytesused := by
    rw [plane]
    dsimp only
    omega
  rw [visited]
  constructor
  · have pushed : ∃ d, (Delivery.push (Delivery.fill node k frame ⟨0, 0⟩).1 k
        (Delivery.fill node k frame ⟨0, 0⟩).2).2 = some d := by
      have ahead : (Delivery.fill node k frame ⟨0, 0⟩).1.skip <
          (Delivery.fill node k frame ⟨0, 0⟩).1.frameCount := by omega
      simp only [Delivery.push, seek, Bool.false_and, Bool.false_eq_true, if_false, long, ahead,
        and_self, if_true]
      exact ⟨_, rfl⟩
    obtain ⟨d, pushed⟩ := pushed
    exact ⟨d, pushed, (buffer d pushed).1⟩
  · intro less
    obtain ⟨cur, ended, loop⟩ := onward less
    have below : ¬ (0 < p.number ∧ p.number ≤ k + 1) := by omega
    refine ⟨still, ?_, ?_, ?_, ?_⟩
    all_goals simp only [Delivery.push, seek, Bool.false_and, Bool.false_eq_true, if_false]
    · exact cur
    · exact count
    · exact frameNum
    · simp only [ended, frameNum, count, below, decide_false, Bool.and_false, Bool.or_self, loop, skip,
        and_self]

theorem Fresh.deliveries (laid : Laid p pieces) (fits : p.size < 2 ^ 64)
    (room : p.number = 0 ∨ pieces.length ≤ p.number) (fresh : Fresh p pieces node k) (ahead : Nat)
    (inside : k + ahead < pieces.length) :
    ∃ d ∈ deliveries node (List.replicate (ahead + 1) go), d.frame = k + ahead := by
  induction ahead generalizing node k with
  | zero =>
    obtain ⟨⟨d, pushed, which⟩, -⟩ := fresh.visit laid fits room inside
    exact ⟨d, by simp [List.replicate, Delivery.deliveries, pushed], which⟩
  | succ ahead ih =>
    obtain ⟨-, next⟩ := fresh.visit laid fits room (by omega)
    obtain ⟨d, mem, which⟩ := ih (next (by omega)) (by omega)
    refine ⟨d, ?_, by omega⟩
    rw [List.replicate_succ, Delivery.deliveries]
    exact List.mem_append_right _ mem

end fresh

/-- Every buffer pushed for a frame holds the range the parser handed over for
that frame. -/
def Delivers (p : PitcherParser) : Prop :=
  ∀ loop skip seek vs, ∀ d ∈ deliveries (initParserNode p loop skip seek) vs,
    ∃ r, p.handed[d.frame]? = some r ∧ (d.plane.virt : Int) = r.1 ∧ (d.plane.bytesused : Int) = r.2

theorem delivers_iff {p : PitcherParser} {pieces : List (Int × Int)} (laid : Laid p pieces)
    (handed : p.handed = pieces.map call) (fits : p.size < 2 ^ 64)
    (room : p.number = 0 ∨ pieces.length ≤ p.number) :
    Delivers p ↔ ∀ x ∈ pieces, x.1 < 2 ^ 32 := by
  constructor
  · intro delivers x mem
    obtain ⟨k, at_⟩ := List.mem_iff_getElem?.mp mem
    have inside := (List.getElem?_eq_some_iff.mp at_).1
    have counted := laid.length
    have some_ : p.queue ≠ [] := by
      intro none_
      rw [none_, List.length_nil] at counted
      omega
    have fresh : Fresh p pieces (initParserNode p 0 0 {}) 0 := by
      refine ⟨Stands.first laid rfl rfl rfl, ?_, rfl, rfl, rfl, rfl, rfl, rfl⟩
      simp only [initParserNode, pitcherParserSeekToBegin, pitcherParserFirstFrame, some_, if_false]
    obtain ⟨d, delivered, which⟩ := fresh.deliveries laid fits room k (by omega)
    obtain ⟨x', there, plane⟩ := (Stands.first laid rfl rfl rfl).deliveries laid fits
      (List.replicate (k + 1) go) d delivered
    rw [Nat.zero_add] at which
    obtain rfl : x' = x := by
      rw [which, at_] at there
      exact (Option.some.inj there).symm
    obtain ⟨r, same, virt, -⟩ := delivers 0 0 {} _ d delivered
    rw [handed, List.getElem?_map, which, at_] at same
    obtain rfl : call x' = r := Option.some.inj same
    rw [plane] at virt
    simp only [call] at virt
    omega
  · intro small loop skip seek vs d mem
    obtain ⟨x, at_, plane⟩ := (Stands.first laid rfl rfl rfl).deliveries laid fits vs d mem
    have bounds := laid.bounds x (List.mem_of_getElem? at_)
    have below := small x (List.mem_of_getElem? at_)
    refine ⟨call x, by rw [handed, List.getElem?_map, at_]; rfl, ?_, ?_⟩
    · rw [plane, Int.emod_eq_of_lt (by omega) below]
      exact Int.toNat_of_nonneg bounds.1
    · rw [plane]
      exact Int.toNat_of_nonneg (by omega)

/-! ## What a callback is told -/

section told
variable {σ : Type}

/-- The calls of a callback are logged in their order, the first one at the first place. -/
theorem calls_logged (f : Callback σ) (virt : Nat → UInt8) (size number frames : Nat) (ps : List Nat)
    (priv : σ) (log : List (Nat × Nat)) :
    ∃ final more, calls (logged f).total virt size number frames ps (priv, log) =
        .ok (final, log ++ more) ∧
      (∀ call ∈ more, call.1 ∈ ps ∧ call.2 = leftSize size call.1) ∧
      ∀ p rest, ps = p :: rest → (p, leftSize size p) ∈ more := by
  induction ps generalizing frames priv log with
  | nil => exact ⟨priv, [], by rw [List.append_nil]; rfl, by simp, by simp⟩
  | cons p ps ih =>
    have one : (logged f).total virt p (leftSize size p) (priv, log) =
        .ok ((f virt p (leftSize size p) priv).1, (f virt p (leftSize size p) priv).2,
          log ++ [(p, leftSize size p)]) := rfl
    have onward : ∀ frames, ∃ final more, calls (logged f).total virt size number frames ps
          ((f virt p (leftSize size p) priv).2, log ++ [(p, leftSize size p)]) =
          .ok (final, log ++ ((p, leftSize size p) :: more)) ∧
        ∀ call ∈ (p, leftSize size p) :: more, call.1 ∈ p :: ps ∧ call.2 = leftSize size call.1 := by
      intro frames
      obtain ⟨final, more, run, told, -⟩ := ih frames (f virt p (leftSize size p) priv).2
        (log ++ [(p, leftSize size p)])
      refine ⟨final, more, by rw [run, List.append_assoc]; rfl, ?_⟩
      intro call mem
      rcases List.mem_cons.mp mem with rfl | later
      · exact ⟨List.mem_cons_self, rfl⟩
      · exact ⟨List.mem_cons_of_mem p (told call later).1, (told call later).2⟩
    have first : ∀ more : List (Nat × Nat), ∀ q rest, p :: ps = q :: rest →
        (q, leftSize size q) ∈ (p, leftSize size p) :: more := by
      intro more q rest same
      obtain ⟨rfl, -⟩ := List.cons.inj same
      exact List.mem_cons_self
    simp only [calls, one, bind, Except.bind]
    split
    · split
      · refine ⟨_, [(p, leftSize size p)], rfl, ?_, first []⟩
        intro call mem
        obtain rfl := List.mem_singleton.mp mem
        exact ⟨List.mem_cons_self, rfl⟩
      · obtain ⟨final, more, run, told⟩ := onward (frames + 1)
        exact ⟨final, _, run, told, first more⟩
    · obtain ⟨final, more, run, told⟩ := onward frames
      exact ⟨final, _, run, told, first more⟩

/-- The callback of a file is told the truth exactly when no code ends too far
from the end of the file. -/
theorem told_iff {psc : Scode} (known : psc ∈ scodes) (f : Callback σ) (priv : σ)
    (virt : Nat → UInt8) (size number : Nat) {ret : Ret} {q : PitcherParser} {final : σ × List (Nat × Nat)}
    (run : pitcherParseStartcode { virt, size, number } psc (some (logged f).total) (priv, []) =
      .ok (ret, q, final)) :
    (∀ call ∈ final.2, call.2 = size - call.1) ↔
      ∀ i < size, codeEnds (normalize psc) virt i = true → size - (i + 1) < 2 ^ 32 := by
  have spaced := scodes_spaced psc known
  have positive : 0 < psc.num := (normalize_widest psc).2 ▸ spaced.positive
  have matching : ∀ psc ∈ scodes, psc.num < psc.extraNum → psc.extraCode &&& psc.mask = psc.scode := by
    decide
  have called := pitcherParseStartcode_calls positive (matching psc known) spaced.relaxed (logged f).total
    (show HasRoom { virt, size, number } from Nat.eq_zero_or_pos number) (priv, [])
  obtain ⟨last, more, calls_, told, first⟩ := calls_logged f virt size number 0
    (spots (normalize psc) virt size 0) priv []
  rw [run, calls_] at called
  obtain rfl : final = (last, [] ++ more) := Except.ok.inj called
  rw [List.nil_append]
  constructor
  · intro true_ i inside ends
    -- the first call is the farthest from the end
    cases places : spots (normalize psc) virt size 0 with
    | nil =>
      have mem : i + 1 ∈ spots (normalize psc) virt size 0 :=
        mem_spots.mpr ⟨i, Nat.zero_le i, by omega, ends, rfl⟩
      rw [places] at mem
      contradiction
    | cons p rest =>
      have honest := true_ _ (first p rest places)
      have close : size - p < 2 ^ 32 := by
        have small : leftSize size p < 2 ^ 32 := Nat.mod_lt _ (by decide)
        dsimp only at honest
        omega
      have mem : i + 1 ∈ p :: rest := by
        rw [← places]
        exact mem_spots.mpr ⟨i, Nat.zero_le i, by omega, ends, rfl⟩
      have sorted := (spots_sorted (normalize psc) virt size 0).1
      rw [places] at sorted
      rcases List.mem_cons.mp mem with rfl | later
      · exact close
      · have := List.rel_of_pairwise_cons sorted later
        omega
  · intro close call mem
    obtain ⟨place, size_⟩ := told call mem
    obtain ⟨j, -, inside, ends, at_⟩ := mem_spots.mp place
    have small := close j (by omega) ends
    rw [size_, leftSize, at_, Nat.mod_eq_of_lt small]

end told

/-! ## Files of any length -/

/-- The places where a range begins: the first start code, and the code after
the last frame code of each range. -/
def begins : List Code → List Int
  | [] => []
  | c :: cs => c.offset :: cutPoints ((c :: cs).map Code.mark)

/-- At most `number` of them, if there is a limit. -/
def upTo {α : Type} (number : Nat) (l : List α) : List α := if number = 0 then l else l.take number

theorem spans_begin {α : Type} (a b : α) (cs : List α) : (spans a cs b).map Prod.fst = a :: cs := by
  induction cs generalizing a with
  | nil => rfl
  | cons c cs ih => rw [spans, List.map_cons, ih]

theorem cut_begin (size : Int) (codes : List Code) :
    (cut size (codes.map Code.mark)).map Prod.fst = begins codes := by
  cases codes with
  | nil => rfl
  | cons c cs => rw [List.map_cons, cut_spans, spans_begin]; rfl

theorem laid_pieces {psc : Scode} (known : psc ∈ scodes) {ε σ : Type} {check : Option (CheckFrame ε σ)}
    {priv last : σ} {virt : Nat → UInt8} {size number : Nat} {codes : List Code}
    (accepted : acceptedCodes { virt, size, number } psc check priv = .ok (codes, last)) :
    ∃ q final, pitcherParseStartcode { virt, size, number } psc check priv = .ok (.OK, q, final) ∧
      q.size = size ∧ q.number = number ∧
      q.handed = (upTo number (cut (size : Int) (codes.map Code.mark))).map call ∧
      Laid q (upTo number (cut (size : Int) (codes.map Code.mark))) := by
  have spaced := scodes_spaced psc known
  have positive : 0 < psc.num := (normalize_widest psc).2 ▸ spaced.positive
  have matching : ∀ psc ∈ scodes, psc.num < psc.extraNum → psc.extraCode &&& psc.mask = psc.scode := by
    decide
  have room : HasRoom { virt, size, number } := Nat.eq_zero_or_pos number
  obtain ⟨q, final, run, extends_⟩ := pitcherParseStartcode_spec positive (matching psc known) room accepted
  have pieces : limited { virt, size, number } (cut (size : Int) (codes.map Code.mark)) =
      upTo number (cut (size : Int) (codes.map Code.mark)) := rfl
  rw [pieces] at extends_
  have ordered := acceptedCodes_ordered known accepted
  obtain ⟨a, tiles⟩ := cut_tiling ordered
  have early : ∀ (k : Nat) (x : Int × Int),
      (upTo number (cut (size : Int) (codes.map Code.mark)))[k]? = some x →
      (cut (size : Int) (codes.map Code.mark))[k]? = some x := by
    intro k x at_
    unfold upTo at at_
    split at at_
    · exact at_
    · rw [List.getElem?_take] at at_
      split at at_
      · exact at_
      · contradiction
  refine ⟨q, final, run, extends_.size, extends_.number, extends_.handed, ⟨extends_.queue, ?_, ?_⟩⟩
  · intro x mem
    obtain ⟨k, at_⟩ := List.mem_iff_getElem?.mp mem
    have whole := List.mem_of_getElem? (early k x at_)
    obtain ⟨-, proper, high⟩ := tiles.bounds whole
    have starts : x.1 ∈ begins codes := by
      rw [← cut_begin size codes]
      exact List.mem_map_of_mem whole
    have low : ∀ b ∈ begins codes, 0 ≤ b := by
      obtain ⟨bounds, -⟩ := codesFrom_after spaced (by rw [← spaced.relaxed]; exact accepted)
      have each : ∀ c ∈ codes, 0 ≤ c.offset := fun c mem => (bounds c mem).2.2.1
      intro b mem
      cases codes with
      | nil => simp [begins] at mem
      | cons c cs =>
        rcases List.mem_cons.mp mem with rfl | later
        · exact each c List.mem_cons_self
        · have sub := cutPoints_sublist ((c :: cs).map Code.mark)
          obtain ⟨d, code, rfl⟩ : ∃ d ∈ cs, d.mark.pos = b := by simpa using sub.subset later
          exact each d (List.mem_cons_of_mem c code)
    exact ⟨low x.1 starts, proper, extends_.size ▸ high⟩
  · intro k x y at_ next
    exact tiles.joined (early k x at_) (early (k + 1) y next)

/-- Exactly the files in which every range begins in the first 4 GiB, and no
code that a callback judges ends 4 GiB before the end, are delivered as they are. -/
theorem parserRun_delivers_iff {σ : Type} {psc : Scode} (known : psc ∈ scodes)
    (check : Option (Callback σ)) (priv : σ) (virt : Nat → UInt8) {size : Nat} (long : size < 2 ^ 63)
    (number : Nat) :
    ∃ codes last q final,
      acceptedCodes { virt, size, number } psc (check.map fun f => (logged f).total) (priv, []) =
        .ok (codes, last) ∧
      pitcherParseStartcode { virt, size, number } psc (check.map fun f => (logged f).total) (priv, []) =
        .ok (.OK, q, final) ∧
      (Delivers q ∧ (check.isSome → ∀ call ∈ final.2, call.2 = size - call.1) ↔
        (∀ b ∈ upTo number (begins codes), b < 2 ^ 32) ∧
        (check.isSome → ∀ i < size, codeEnds (normalize psc) virt i = true → size - (i + 1) < 2 ^ 32)) := by
  obtain ⟨codes, last, accepted⟩ := codesFrom_total (normalize psc) (check.map logged) virt size size 0
    (normalize psc).forceExtraOnFirst (priv, [])
  rw [Option.map_map] at accepted
  obtain ⟨q, final, run, sized, limit, handed, laid⟩ := laid_pieces known
    (show acceptedCodes { virt, size, number } psc (check.map fun f => (logged f).total) (priv, []) = _
      from accepted)
  refine ⟨codes, last, q, final, accepted, run, ?_⟩
  have starts : (∀ x ∈ upTo number (cut (size : Int) (codes.map Code.mark)), x.1 < 2 ^ 32) ↔
      ∀ b ∈ upTo number (begins codes), b < 2 ^ 32 := by
    have firsts : upTo number (begins codes) =
        (upTo number (cut (size : Int) (codes.map Code.mark))).map Prod.fst := by
      rw [← cut_begin size codes]
      unfold upTo
      split
      · rfl
      · rw [List.map_take]
    rw [firsts, List.forall_mem_map]
  have delivers := delivers_iff laid handed (by rw [sized]; omega) (by
    rw [limit]
    unfold upTo
    split
    · exact .inl (by assumption)
    · exact .inr (List.length_take_le ..))
  rw [delivers, starts]
  refine and_congr_right fun _ => ?_
  cases check with
  | none => simp
  | some f => simpa using told_iff known f priv virt size number run

def vc1gCheckFrame : Callback Unit := fun virt pos size priv =>
  (if size = 0 then .UNKNOWN
    else if virt pos = 0x0D ∨ virt pos = 0x0F then .FRAME else .UNKNOWN, priv)

/-- A short VC-1 file is delivered as it is. -/
theorem parserRun_delivers_short :
    let file := fun i => [0, 0, 1, 0x0F, 0x40, 0, 0, 1, 0x0D, 0x21].getD i 0
    ∃ codes last q final,
      acceptedCodes { virt := file, size := 10 } vc1gScode
        ((some vc1gCheckFrame).map fun f => (logged f).total) ((), []) = .ok (codes, last) ∧
      pitcherParseStartcode { virt := file, size := 10 } vc1gScode
        ((some vc1gCheckFrame).map fun f => (logged f).total) ((), []) = .ok (.OK, q, final) ∧
      (Delivers q ∧ ((some vc1gCheckFrame).isSome → ∀ call ∈ final.2, call.2 = 10 - call.1) ↔
        (∀ b ∈ upTo 0 (begins codes), b < 2 ^ 32) ∧
        ((some vc1gCheckFrame).isSome → ∀ i < 10, codeEnds (normalize vc1gScode) file i = true →
          10 - (i + 1) < 2 ^ 32)) :=
  parserRun_delivers_iff (by decide) (some vc1gCheckFrame) () _ (by decide) 0

/-- A frame code, then zeros for 4 GiB. -/
def longFile (i : Nat) : UInt8 := if i = 2 then 1 else if i = 3 then 0x0D else 0

/-- The callback is told that nothing is left. -/
theorem parserRun_long :
    ∃ q final, pitcherParseStartcode { virt := longFile, size := 2 ^ 32 + 3 } vc1gScode
        (some (logged vc1gCheckFrame).total) ((), []) = .ok (.OK, q, final) ∧
      ¬ (Delivers q ∧ ∀ call ∈ final.2, call.2 = 2 ^ 32 + 3 - call.1) := by
  have known : vc1gScode ∈ scodes := by decide
  obtain ⟨codes, last, accepted⟩ := codesFrom_total (normalize vc1gScode)
    (some (logged vc1gCheckFrame)) longFile (2 ^ 32 + 3) (2 ^ 32 + 3) 0
    (normalize vc1gScode).forceExtraOnFirst ((), [])
  obtain ⟨q, final, run, -⟩ := @laid_pieces vc1gScode known _ _ _ _ _ longFile (2 ^ 32 + 3) 0 _ accepted
  refine ⟨q, final, run, ?_⟩
  rintro ⟨-, told⟩
  have near := (told_iff known vc1gCheckFrame () longFile (2 ^ 32 + 3) 0 run).mp told 2 (by decide) (by decide)
  exact absurd near (by decide)

end ImxTest.Pitcher.Delivery
