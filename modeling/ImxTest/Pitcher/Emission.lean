import ImxTest.Lib.Feed
import ImxTest.Pitcher.Delivery
import ImxTest.Pitcher.Ivf

/-! The order in which the parser node of mxc_v4l2_vpu_enc.c hands its frames on:
over the passes of a loop, and over a seek. -/
namespace ImxTest.Pitcher.Emission

open Delivery Lib.Feed

/-- A visit at which nobody terminates the test. -/
def visitIdle (node : ParserTest) (idle : Option Plane) : ParserTest × Option Delivered :=
  visit node { termination := false, idle }

/-- What the frames in front of frame `k` add up to in `parser->offset`. -/
def startOf (frames : List PitcherFrame) (k : Nat) : Nat :=
  ((frames.take k).map PitcherFrame.size).sum % 2 ^ 64

/-- The frames of a pass: those in front of the first one that starts behind the
file, when the sizes before it are added up. -/
def passLength (frames : List PitcherFrame) (size : Nat) : Nat :=
  ((List.range' 1 (frames.length - 1)).find? fun k => size ≤ startOf frames k).getD frames.length

def planeOf (frames : List PitcherFrame) (k : Nat) : Plane :=
  match frames[k]? with
  | some frame => ⟨frame.offset, frame.size⟩
  | none => ⟨0, 0⟩

/-! ## One call -/

section call
variable {frames : List PitcherFrame} {size k : Nat}

structure PassLength (frames : List PitcherFrame) (size pass : Nat) : Prop where
  positive : 0 < pass
  le : pass ≤ frames.length
  inside : ∀ k < pass, startOf frames k < size
  past : pass = frames.length ∨ size ≤ startOf frames pass

theorem passLength_spec (file : 0 < size) (some_ : frames ≠ []) :
    PassLength frames size (passLength frames size) := by
  have positive : 0 < frames.length := List.length_pos_iff.mpr some_
  have first : ∀ k, (0 < k → startOf frames k < size) → startOf frames k < size := by
    intro k later
    rcases Nat.eq_zero_or_pos k with rfl | more
    · exact file
    · exact later more
  unfold passLength
  cases found : (List.range' 1 (frames.length - 1)).find? fun k => size ≤ startOf frames k with
  | none =>
    refine ⟨positive, Nat.le_refl _, ?_, .inl rfl⟩
    intro k less
    apply first
    intro more
    have := List.find?_eq_none.mp found k (List.mem_range'_1.mpr (by
      rw [Option.getD_none] at less
      omega))
    simpa using this
  | some j =>
    obtain ⟨behind, mem, earlier⟩ := List.find?_range'_eq_some.mp found
    have inside := List.mem_range'_1.mp mem
    rw [Option.getD_some]
    refine ⟨by omega, by omega, ?_, .inr (by simpa using behind)⟩
    intro k less
    apply first
    intro more
    simpa using earlier k more less

theorem startOf_succ {frame : PitcherFrame} (at_ : frames[k]? = some frame) :
    (startOf frames k + frame.size) % 2 ^ 64 = startOf frames (k + 1) := by
  unfold startOf
  rw [List.take_add_one, at_, Nat.mod_add_mod]
  simp

variable {node : ParserTest} {pass : Nat} {frame : PitcherFrame} {plane : Plane}

/-- The node stands in front of frame `k`. -/
structure Before (node : ParserTest) (frames : List PitcherFrame) (size k : Nat) : Prop where
  queue : node.p.queue = frames
  size : node.size = size
  cur : node.cur = some k
  offset : node.offset = startOf frames k

theorem fill_within (spec : PassLength frames size pass) (before : Before node frames size k)
    (at_ : frames[k]? = some frame) (less : k + 1 < pass) :
    fill node k frame plane =
      ({ node with offset := startOf frames (k + 1), frameCount := node.frameCount + 1, cur := some (k + 1) },
        planeOf frames k) := by
  have inside := spec.inside k (by omega)
  have next := spec.inside (k + 1) less
  have notLast : k + 1 ≠ frames.length := by have := spec.le; omega
  unfold fill
  rw [if_pos (by rw [before.offset, before.size]; exact inside)]
  simp only [pitcherParserToNextFrame, before.cur, before.queue, before.offset, before.size,
    startOf_succ at_, notLast, if_false, Nat.not_le.mpr next, or_self, planeOf, at_]

theorem pass_over (spec : PassLength frames size pass) (last : k + 1 = pass) :
    k + 1 = frames.length ∨ size ≤ startOf frames (k + 1) := last ▸ spec.past

theorem fill_again (spec : PassLength frames size pass) (before : Before node frames size k)
    (at_ : frames[k]? = some frame) (last : k + 1 = pass) (again : node.loop ≠ 0) :
    fill node k frame plane =
      ({ node with
          offset := 0, frameCount := node.frameCount + 1, cur := some 0, loop := node.loop - 1 },
        planeOf frames k) := by
  have inside := spec.inside k (by omega)
  have some_ : frames ≠ [] := by
    rintro rfl
    simp at at_
  unfold fill
  rw [if_pos (by rw [before.offset, before.size]; exact inside)]
  simp only [pitcherParserToNextFrame, pitcherParserSeekToBegin, pitcherParserFirstFrame, before.cur,
    before.queue, before.offset, before.size, startOf_succ at_, pass_over spec last, if_true, again, ne_eq,
    not_false_eq_true, some_, if_false, planeOf, at_]

theorem fill_ends (spec : PassLength frames size pass) (before : Before node frames size k)
    (at_ : frames[k]? = some frame) (last : k + 1 = pass) (once : node.loop = 0) :
    fill node k frame plane =
      ({ node with
          offset := startOf frames (k + 1), frameCount := node.frameCount + 1, ended := true
          cur := if k + 1 = frames.length then none else some (k + 1) },
        planeOf frames k) := by
  have inside := spec.inside k (by omega)
  unfold fill
  rw [if_pos (by rw [before.offset, before.size]; exact inside)]
  simp only [pitcherParserToNextFrame, before.cur, before.queue, before.offset, before.size,
    startOf_succ at_, pass_over spec last, if_true, once, ne_eq, not_true_eq_false, if_false, planeOf, at_]

/-- Away from the seek, `push` ends the node at the limit and hands on what is not skipped. -/
theorem push_plain (plain : (node.seek.enable && decide (node.frameCount = node.seek.posSeek)) = false)
    (long : 0 < plane.bytesused) :
    push node k plane =
      ({ node with ended := node.ended || decide (0 < node.frameNum ∧ node.frameNum ≤ node.frameCount) },
        if node.skip < node.frameCount then
          some { frame := k, plane, seek := false, last :=
            node.ended || decide (0 < node.frameNum ∧ node.frameNum ≤ node.frameCount) }
        else none) := by
  simp only [push, plain, Bool.not_false, Bool.true_and, long, true_and, Bool.false_eq_true, if_false]

/-- At the seek, the node is led back to the first frame. -/
theorem push_seeks (enable : node.seek.enable = true) (reached : node.frameCount = node.seek.posSeek)
    (some_ : node.p.queue ≠ []) (long : 0 < plane.bytesused) (counts : node.skip < node.frameCount) :
    push node k plane =
      ({ node with
          offset := 0, frameCount := 0, cur := some 0, skip := node.seek.posNew
          seek := { node.seek with enable := false } },
        some { frame := k, plane, seek := true, last := false }) := by
  have start : pitcherParserFirstFrame node.p = some 0 := if_neg some_
  simp only [push, enable, reached, decide_true, Bool.and_true, Bool.not_true, Bool.false_and, Bool.or_false,
    pitcherParserSeekToBegin, start, long, reached ▸ counts, and_self, if_true]

theorem visitIdle_eq (idle : Option Plane) :
    visitIdle node idle =
      if node.ended then (node, none) else if idle.isSome then parserRun node idle else (node, none) := by
  unfold visitIdle visit
  simp only [Bool.or_false]

/-- A visit that finds an idle buffer is a call. -/
theorem visitIdle_call (before : Before node frames size k) (at_ : frames[k]? = some frame)
    (active : node.ended = false) :
    visitIdle node (some plane) = push (fill node k frame plane).1 k (fill node k frame plane).2 := by
  have found : (node.cur.bind fun k => node.p.queue[k]?.map (Prod.mk k)) = some (k, frame) := by
    rw [before.cur, before.queue, Option.bind_some, at_, Option.map_some]
  rw [visitIdle_eq, active]
  simp only [Bool.false_eq_true, if_false, Option.isSome_some, if_true, parserRun, found]

theorem visitIdle_wait {idle : Option Plane} (without : idle.isSome = false) :
    visitIdle node idle = (node, none) := by
  rw [visitIdle_eq, without]
  simp

theorem planeOf_used {frames : List PitcherFrame} {k : Nat} {frame : PitcherFrame}
    (nonempty : ∀ f ∈ frames, 0 < f.size) (at_ : frames[k]? = some frame) : 0 < (planeOf frames k).bytesused := by
  rw [planeOf, at_]
  exact nonempty frame (List.mem_of_getElem? at_)

theorem visitIdle_rest (past : node.ended = true) (idle : Option Plane) :
    visitIdle node idle = (node, none) := by
  rw [visitIdle_eq, past, if_pos rfl]

end call

/-! ## Runs without a seek -/

section plain
variable {p : PitcherParser} {loop skip pass total m : Nat} {node : ParserTest}

/-- What call `m` hands on, of a run of so many calls. -/
def handed (p : PitcherParser) (skip pass total m : Nat) : Option Delivered :=
  if skip < m + 1 then
    some { frame := m % pass, plane := planeOf p.queue (m % pass), last := m + 1 = total, seek := false }
  else none

/-- The node behind `m` calls. -/
structure Runs (p : PitcherParser) (loop skip pass total m : Nat) (node : ParserTest) : Prop where
  frameNum : node.frameNum = p.number
  skips : node.skip = skip
  plain : node.seek.enable = false
  ended : node.ended = decide (total ≤ m)
  onward : m < total → node.frameCount = m ∧ node.loop = loop - (m / pass : Nat) ∧
    Before node p.queue p.size (m % pass)

/-- What `fill` makes of the node, whether the pass goes on, starts again or is the last one. -/
theorem Runs.fill (spec : PassLength p.queue p.size pass) (long : total ≤ pass * (loop + 1))
    (runs : Runs p loop skip pass total m node) (more : m < total) {frame : PitcherFrame}
    (at_ : p.queue[m % pass]? = some frame) (plane : Plane) :
    ∃ next, fill node (m % pass) frame plane = (next, planeOf p.queue (m % pass)) ∧
      next.frameNum = p.number ∧ next.skip = skip ∧ next.seek.enable = false ∧
      next.frameCount = m + 1 ∧ next.ended = decide (pass * (loop + 1) ≤ m + 1) ∧
      (m + 1 < pass * (loop + 1) → next.loop = loop - ((m + 1) / pass : Nat) ∧
        Before next p.queue p.size ((m + 1) % pass)) := by
  obtain ⟨count, loops, before⟩ := runs.onward more
  have active : node.ended = false := by rw [runs.ended, decide_eq_false (by omega)]
  have split := Nat.div_add_mod m pass
  have lap : m / pass ≤ loop := by
    have : m / pass < loop + 1 := Nat.div_lt_of_lt_mul (by omega)
    omega
  have laps := Nat.mul_le_mul_left pass lap
  rcases @next_place m pass spec.positive with ⟨less, place, round⟩ | ⟨full, place, round⟩
  · refine ⟨_, fill_within spec before at_ less, runs.frameNum, runs.skips, runs.plain, ?_, ?_, ?_⟩
    · exact congrArg (· + 1) count
    · rw [Nat.mul_succ, decide_eq_false (by omega)]
      exact active
    · intro _
      rw [place, round]
      exact ⟨loops, before.queue, before.size, rfl, rfl⟩
  rcases Nat.lt_or_ge (m / pass) loop with again | once
  · have goes : node.loop ≠ 0 := by omega
    have ahead := Nat.mul_le_mul_left pass (Nat.succ_le_of_lt again)
    rw [Nat.mul_succ] at ahead
    refine ⟨_, fill_again spec before at_ full goes, runs.frameNum, runs.skips, runs.plain, ?_, ?_, ?_⟩
    · exact congrArg (· + 1) count
    · have positive := spec.positive
      rw [Nat.mul_succ, decide_eq_false (by omega)]
      exact active
    · intro _
      rw [place, round]
      exact ⟨by dsimp only; omega, before.queue, before.size, rfl, rfl⟩
  · have same : m / pass = loop := by omega
    have past : m + 1 = pass * (loop + 1) := by rw [Nat.mul_succ, ← same]; omega
    refine ⟨_, fill_ends spec before at_ full (by omega), runs.frameNum, runs.skips, runs.plain, ?_, ?_, ?_⟩
    · exact congrArg (· + 1) count
    · rw [decide_eq_true (by omega)]
    · intro less
      omega

theorem runs_feeds (nonempty : ∀ f ∈ p.queue, 0 < f.size) (spec : PassLength p.queue p.size pass)
    (calls : total = limited p.number (pass * (loop + 1))) :
    Feeds visitIdle Option.isSome (some total) (handed p skip pass total) (Runs p loop skip pass total) where
  wait := by
    intro m node idle runs without
    rw [visitIdle_wait without]
    exact ⟨rfl, runs⟩
  rest := by
    intro m node idle runs last
    obtain rfl : total = m := Option.some.inj last
    rw [visitIdle_rest (by rw [runs.ended, decide_eq_true (Nat.le_refl _)])]
    exact ⟨rfl, runs⟩
  call := by
    intro m node idle runs found ahead
    obtain ⟨plane, rfl⟩ := Option.isSome_iff_exists.mp found
    have more : m < total := ahead total rfl
    have long : total ≤ pass * (loop + 1) := by rw [calls, limited_le]; exact .inl (Nat.le_refl _)
    have below := Nat.mod_lt m spec.positive
    obtain ⟨frame, at_⟩ : ∃ frame, p.queue[m % pass]? = some frame :=
      ⟨_, List.getElem?_eq_getElem (Nat.lt_of_lt_of_le below spec.le)⟩
    obtain ⟨-, -, before⟩ := runs.onward more
    have active : node.ended = false := by rw [runs.ended, decide_eq_false (by omega)]
    obtain ⟨next, filled, frameNum, skips, plain, count, ended, onward⟩ := runs.fill spec long more at_ plane
    have used := planeOf_used nonempty at_
    have past : (next.ended || decide (0 < next.frameNum ∧ next.frameNum ≤ next.frameCount)) =
        decide (total ≤ m + 1) := by
      rw [ended, frameNum, count, ← Bool.decide_or, calls]
      exact decide_eq_decide.mpr limited_le.symm
    rw [visitIdle_call before at_ active, filled, push_plain (by rw [plain, Bool.false_and]) used, past]
    constructor
    · have last : decide (total ≤ m + 1) = decide (m + 1 = total) := decide_eq_decide.mpr (by omega)
      rw [handed, skips, count, last]
    · refine ⟨frameNum, skips, plain, rfl, ?_⟩
      intro later
      obtain ⟨loops, before⟩ := onward (by omega)
      exact ⟨count, loops, before.queue, before.size, before.cur, before.offset⟩

theorem runs_start (spec : PassLength p.queue p.size pass) (some_ : p.queue ≠ [])
    (calls : total = limited p.number (pass * (loop + 1))) :
    Runs p loop skip pass total 0 (initParserNode p loop skip {}) where
  frameNum := rfl
  skips := rfl
  plain := rfl
  ended := by
    have positive : 0 < pass * (loop + 1) := Nat.mul_pos spec.positive (Nat.succ_pos loop)
    have more : ¬ total ≤ 0 := by rw [calls, limited_le]; omega
    rw [decide_eq_false more]
    rfl
  onward := by
    intro _
    refine ⟨rfl, by simp [initParserNode, pitcherParserSeekToBegin], rfl, rfl, ?_, ?_⟩
    · rw [Nat.zero_mod]
      exact if_neg some_
    · rw [Nat.zero_mod]
      rfl

end plain

/-! ## What a run is to hand on -/

/-- The places of the frames of `loop + 1` passes, of which only so many count. -/
def planned (frames : List PitcherFrame) (loop limit : Nat) : List Nat :=
  upTo limit (List.replicate (loop + 1) (List.range frames.length)).flatten

/-- Buffers with these frames, the last one marked as such. -/
def marked (frames : List PitcherFrame) (places : List Nat) : List Delivered :=
  places.mapIdx fun j k =>
    { frame := k, plane := planeOf frames k, last := j + 1 = places.length, seek := false }

theorem planned_eq (frames : List PitcherFrame) (loop limit : Nat) :
    planned frames loop limit =
      (List.range (limited limit (frames.length * (loop + 1)))).map (· % frames.length) := by
  rw [planned, replicate_range, upTo, limited]
  split
  · rfl
  · rw [← List.map_take, List.take_range]

/-- The frames of passes of this length, with the last one marked. -/
def passes (frames : List PitcherFrame) (pass total : Nat) : List Delivered :=
  (List.range total).map fun j =>
    { frame := j % pass, plane := planeOf frames (j % pass), seek := false, last := j + 1 = total }

theorem marked_planned (frames : List PitcherFrame) (loop limit : Nat) :
    marked frames (planned frames loop limit) =
      passes frames frames.length (limited limit (frames.length * (loop + 1))) := by
  rw [marked, planned_eq, passes]
  apply List.ext_getElem?
  intro j
  rw [List.getElem?_mapIdx, List.getElem?_map, List.getElem?_map]
  rcases Nat.lt_or_ge j (limited limit (frames.length * (loop + 1))) with less | more
  · rw [List.getElem?_range less]
    simp
  · rw [List.getElem?_eq_none (by simpa using more)]
    rfl

/-- No pass is cut short, or that cannot be seen: everything is skipped, or the
limit is reached where the shorter passes and the whole ones run side by side. -/
def Steady (p : PitcherParser) (loop skip : Nat) : Prop :=
  let pass := passLength p.queue p.size
  let whole := p.queue.length
  pass = whole ∨ limited p.number (whole * (loop + 1)) ≤ skip ∨
    (0 < p.number ∧ p.number ≤ pass * (loop + 1) ∧
      ∃ start, pass ∣ start ∧ whole ∣ start ∧ start ≤ skip ∧ p.number ≤ start + pass)

/-- Two ways round side by side, one with fewer places: where they agree from
`skip` on, they do from a common start. -/
theorem side_by_side {short long skip limit : Nat} (positive : 0 < short) (shorter : short < long)
    (some_ : skip < limit) :
    (∀ j, skip ≤ j → j < limit → j % short = j % long) ↔
      ∃ start, short ∣ start ∧ long ∣ start ∧ start ≤ skip ∧ limit ≤ start + short := by
  constructor
  · intro agree
    have here := agree skip (Nat.le_refl _) some_
    refine ⟨skip - skip % short, Nat.dvd_sub_mod skip, ?_, Nat.sub_le .., ?_⟩
    · rw [here]
      exact Nat.dvd_sub_mod skip
    · by_contra more
      have below := Nat.mod_lt skip positive
      have next := agree (skip - skip % short + short) (by omega) (by omega)
      have zero : (skip - skip % short + short) % short = 0 := by
        rw [Nat.add_mod_right]
        exact Nat.mod_eq_zero_of_dvd (Nat.dvd_sub_mod skip)
      obtain ⟨q, same⟩ : long ∣ skip - skip % short := here ▸ Nat.dvd_sub_mod skip
      rw [zero, same, Nat.mul_add_mod, Nat.mod_eq_of_lt shorter] at next
      omega
  · rintro ⟨start, ⟨q, same⟩, ⟨r, same'⟩, before, close⟩ j after below
    obtain ⟨k, rfl⟩ : ∃ k, j = start + k := ⟨j - start, by omega⟩
    have small : k < short := by omega
    rw [same, Nat.mul_add_mod, ← same, same', Nat.mul_add_mod, Nat.mod_eq_of_lt small,
      Nat.mod_eq_of_lt (Nat.lt_trans small shorter)]

section order
variable {frames : List PitcherFrame} {size loop limit skip pass : Nat}

theorem passes_get {total j : Nat} (less : j < total) :
    (passes frames pass total)[j]? = some
      { frame := j % pass, plane := planeOf frames (j % pass), seek := false, last := j + 1 = total } := by
  rw [passes, List.getElem?_map, List.getElem?_range less]
  rfl

theorem passes_skip_agree {total : Nat} (agree : ∀ j, skip ≤ j → j < total → j % pass = j % frames.length) :
    (passes frames frames.length total).drop skip = (passes frames pass total).drop skip := by
  apply List.ext_getElem?
  intro j
  rw [List.getElem?_drop, List.getElem?_drop]
  rcases Nat.lt_or_ge (skip + j) total with less | more
  · rw [passes_get less, passes_get less, agree (skip + j) (Nat.le_add_right ..) less]
  · rw [List.getElem?_eq_none (by simpa [passes] using more),
      List.getElem?_eq_none (by simpa [passes] using more)]

theorem passes_skip_iff (spec : PassLength frames size pass) :
    (passes frames frames.length (limited limit (frames.length * (loop + 1)))).drop skip =
          (passes frames pass (limited limit (pass * (loop + 1)))).drop skip ↔
      pass = frames.length ∨ limited limit (frames.length * (loop + 1)) ≤ skip ∨
        (0 < limit ∧ limit ≤ pass * (loop + 1) ∧
          ∃ start, pass ∣ start ∧ frames.length ∣ start ∧ start ≤ skip ∧ limit ≤ start + pass) := by
  rcases Nat.eq_or_lt_of_le spec.le with same | shorter
  · simp only [same, true_or]
  have fewer : pass * (loop + 1) < frames.length * (loop + 1) :=
    Nat.mul_lt_mul_of_pos_right shorter (Nat.succ_pos loop)
  constructor
  · intro same
    rcases Nat.lt_or_ge skip (limited limit (frames.length * (loop + 1))) with some_ | all
    · have lengths := congrArg List.length same
      simp only [List.length_drop, passes, List.length_map, List.length_range] at lengths
      have cut : 0 < limit ∧ limit ≤ pass * (loop + 1) := by
        have equal : limited limit (frames.length * (loop + 1)) = limited limit (pass * (loop + 1)) := by
          omega
        unfold limited at equal
        split at equal <;> omega
      have whole : limited limit (frames.length * (loop + 1)) = limit := by
        unfold limited
        rw [if_neg (by omega), Nat.min_eq_left (by omega)]
      have short : limited limit (pass * (loop + 1)) = limit := by
        unfold limited
        rw [if_neg (by omega), Nat.min_eq_left cut.2]
      rw [whole, short] at same
      rw [whole] at some_
      refine .inr (.inr ⟨cut.1, cut.2, (side_by_side spec.positive shorter some_).mp ?_⟩)
      intro j after below
      have item := congrArg (·[j - skip]?) same
      rw [List.getElem?_drop, List.getElem?_drop, Nat.add_sub_cancel' after, passes_get below,
        passes_get below] at item
      exact (congrArg Delivered.frame (Option.some.inj item)).symm
    · exact .inr (.inl all)
  · rintro (same | all | ⟨positive, cut, start⟩)
    · omega
    · have also : limited limit (pass * (loop + 1)) ≤ skip := by
        rw [limited_le] at all ⊢
        omega
      rw [List.drop_eq_nil_of_le (by simpa [passes] using all),
        List.drop_eq_nil_of_le (by simpa [passes] using also)]
    · have whole : limited limit (frames.length * (loop + 1)) = limit := by
        unfold limited
        rw [if_neg (by omega), Nat.min_eq_left (by omega)]
      have short : limited limit (pass * (loop + 1)) = limit := by
        unfold limited
        rw [if_neg (by omega), Nat.min_eq_left cut]
      rw [whole, short]
      apply passes_skip_agree
      intro j after below
      exact (side_by_side spec.positive shorter (Nat.lt_of_le_of_lt after below)).mpr start j after below

end order

theorem handed_all (p : PitcherParser) (skip pass total : Nat) :
    (List.range total).filterMap (handed p skip pass total) = (passes p.queue pass total).drop skip :=
  filterMap_skip skip total _

/-- An empty queue: the first call ends the node. -/
theorem empty_emits {p : PitcherParser} (none_ : p.queue = []) (loop skip : Nat) :
    Emits visitIdle Option.isSome (fun node => node.ended = true) (initParserNode p loop skip {}) [] := by
  have feeds : Feeds visitIdle Option.isSome (some 1) (fun _ => none)
      fun m node => node.cur = none ∧ node.ended = decide (1 ≤ m) := by
    refine ⟨?_, ?_, ?_⟩
    · intro m node idle at_ without
      rw [visitIdle_wait without]
      exact ⟨rfl, at_⟩
    · intro m node idle at_ found ahead
      have first : m = 0 := by have := ahead 1 rfl; omega
      obtain ⟨cur, ended⟩ := at_
      rw [visitIdle_eq, ended, first, found]
      simp [parserRun, cur]
    · intro m node idle at_ last
      obtain rfl : 1 = m := Option.some.inj last
      rw [visitIdle_rest at_.2]
      exact ⟨rfl, at_⟩
  have start : (initParserNode p loop skip {}).cur = none ∧
      (initParserNode p loop skip {}).ended = decide (1 ≤ 0) :=
    ⟨if_pos none_, rfl⟩
  rw [feeds.emits_iff start (fun m node le at_ => by rw [at_.2, decide_eq_true_iff]; omega) ⟨some ⟨0, 0⟩, rfl⟩]
  simp

/-- Over a run without a seek the frames are handed on as they were asked for,
exactly where no pass is cut short. -/
theorem parserRun_emits_iff (p : PitcherParser) (file : 0 < p.size) (nonempty : ∀ f ∈ p.queue, 0 < f.size)
    (loop skip : Nat) :
    Emits visitIdle Option.isSome (fun node => node.ended = true) (initParserNode p loop skip {})
        ((marked p.queue (planned p.queue loop p.number)).drop skip) ↔
      Steady p loop skip := by
  rw [marked_planned]
  by_cases none_ : p.queue = []
  · have plan : limited p.number 0 = 0 := Nat.le_zero.mp (limited_le.mpr (.inl (Nat.le_refl 0)))
    simp only [Steady, none_, passLength, List.length_nil, Nat.zero_mul, plan, passes, List.range_zero,
      List.map_nil, List.drop_nil, Nat.zero_sub, List.range'_zero, List.find?_nil, Option.getD_none, true_or, iff_true]
    exact empty_emits none_ loop skip
  have spec := passLength_spec file none_
  have start := @runs_start p loop skip _ _ spec none_ rfl
  have plan := @passes_skip_iff p.queue p.size loop p.number skip _ spec
  rw [(runs_feeds nonempty spec rfl).emits_iff start
        (fun m node le at_ => by rw [at_.ended, decide_eq_true_iff]; omega)
    ⟨some ⟨0, 0⟩, rfl⟩, handed_all]
  rw [Steady, ← plan]
  refine and_iff_left_of_imp ?_
  intro same some_
  rw [same, ne_eq, List.drop_eq_nil_iff, Nat.not_le] at some_
  simp only [passes, List.length_map, List.length_range] at some_
  rw [handed, if_pos (by omega)]
  rfl

/-- A second pass ends at the limit. -/
theorem parserRun_emits_twice :
    let p : PitcherParser :=
      { virt := fun _ => 0, size := 9, number := 3, queue := [⟨0, 4, 0⟩, ⟨1, 5, 4⟩], frameCnt := 2 }
    Emits visitIdle Option.isSome (fun node => node.ended = true) (initParserNode p 1 1 {})
        ((marked p.queue (planned p.queue 1 p.number)).drop 1) ↔ Steady p 1 1 :=
  parserRun_emits_iff _ (by decide) (by decide) 1 1

/-- An IVF file whose second frame has the size -36: it leads back into the first one. -/
def jumpingFile (i : Nat) : UInt8 :=
  ([0x44, 0x4b, 0x49, 0x46, 0, 0, 32, 0, 0x56, 0x50, 0x38, 0x30, 16, 0, 16, 0,
    25, 0, 0, 0, 1, 0, 0, 0, 3, 0, 0, 0, 0, 0, 0, 0,
    24, 0, 0, 0, 0, 0, 0, 0, 0, 0, 0, 0, 28, 0, 0, 0, 0, 0, 0, 0, 0, 0, 0, 0, 1, 2, 3, 4, 5, 6, 7, 8, 9, 10, 11, 12,
    0xdc, 0xff, 0xff, 0xff, 0, 0, 0, 0, 0, 0, 0, 0] : List UInt8).getD i 7

/-- The third frame of the queue is never handed on. -/
theorem parserRun_jumping :
    ∃ q, Ivf.vpxParse 5 { virt := jumpingFile, size := 84 } = some (.ok (.OK, q)) ∧
      q.queue = [⟨0, 24, 44⟩, ⟨1, 2 ^ 64 - 36, 80⟩, ⟨2, 28, 56⟩] ∧
      ¬ Emits visitIdle Option.isSome (fun node => node.ended = true) (initParserNode q 0 0 {})
        ((marked q.queue (planned q.queue 0 q.number)).drop 0) := by
  have fields : ((Ivf.vpxParse 5 { virt := jumpingFile, size := 84 }).bind Except.toOption).map
      (fun result => (result.1, result.2.queue, result.2.size, result.2.number)) =
        some (.OK, [⟨0, 24, 44⟩, ⟨1, 2 ^ 64 - 36, 80⟩, ⟨2, 28, 56⟩], 84, 0) := by
    decide +kernel
  obtain ⟨⟨ret, q⟩, parsed, same⟩ := Option.map_eq_some_iff.mp fields
  obtain ⟨outcome, run, ok⟩ := Option.bind_eq_some_iff.mp parsed
  cases outcome with
  | error e => cases ok
  | ok result =>
    obtain rfl : result = (ret, q) := Option.some.inj ok
    cases q
    simp only [Prod.mk.injEq] at same
    obtain ⟨rfl, rfl, rfl, rfl⟩ := same
    refine ⟨_, run, rfl, ?_⟩
    intro emits
    have all := emits.whole [some ⟨0, 0⟩, some ⟨0, 0⟩] (by
      simp [behind, visitIdle_eq, parserRun, initParserNode, pitcherParserSeekToBegin,
        pitcherParserFirstFrame, fill, push, pitcherParserToNextFrame])
    have two := congrArg List.length all
    rw [marked_planned] at two
    simp [outputs, visitIdle_eq, parserRun, initParserNode, pitcherParserSeekToBegin,
      pitcherParserFirstFrame, fill, push, pitcherParserToNextFrame, passes, limited] at two

/-! ## Runs with a seek -/

/-- The end of `parse_parser_option`: a seek that is not in front of the frames
skipped at the start becomes a skip. -/
def settleSeek (seek : Seek) (skip : Nat) : Seek × Nat :=
  if seek.enable then
    if seek.posSeek ≤ skip then ({ seek with enable := false }, max seek.posNew skip) else (seek, skip)
  else (seek, skip)

/-- The node that the option `seek` asks for. -/
def seekNode (p : PitcherParser) (posSeek posNew : Nat) : ParserTest :=
  let settled := settleSeek { enable := true, posSeek, posNew } 0
  initParserNode p 0 settled.2 settled.1

/-- What a run with a seek is to hand on: the frames up to the seek, then those
from the new position on. -/
def sought (frames : List PitcherFrame) (posSeek posNew : Nat) : List Delivered :=
  ((List.range posSeek).map fun k =>
      { frame := k, plane := planeOf frames k, last := false, seek := k + 1 = posSeek }) ++
    (List.range' posNew (frames.length - posNew)).map fun k =>
      { frame := k, plane := planeOf frames k, last := k + 1 = frames.length, seek := false }

section seek
variable {p : PitcherParser} {a b pass total m : Nat} {node : ParserTest}

def soughtCalls (a pass : Nat) : Nat := if a < pass then a + pass else pass

/-- What call `m` hands on. -/
def handedSeek (p : PitcherParser) (a b total m : Nat) : Option Delivered :=
  if m < a then
    some
      { frame := m, plane := planeOf p.queue m, last := m + 1 = total ∧ m + 1 ≠ a, seek := m + 1 = a }
  else if b < m - a + 1 then
    some { frame := m - a, plane := planeOf p.queue (m - a), last := m + 1 = total, seek := false }
  else none

/-- The node behind `m` calls, before and behind the seek. -/
structure Seeks (p : PitcherParser) (a b total m : Nat) (node : ParserTest) : Prop where
  unlimited : node.frameNum = 0
  once : node.loop = 0
  ended : node.ended = decide (total ≤ m)
  first : m < a → m < total → node.seek = { enable := true, posSeek := a, posNew := b } ∧
    node.skip = 0 ∧ node.frameCount = m ∧ Before node p.queue p.size m
  second : a ≤ m → m < total → node.seek.enable = false ∧ node.skip = b ∧ node.frameCount = m - a ∧
    Before node p.queue p.size (m - a)

theorem Seeks.call_first (nonempty : ∀ f ∈ p.queue, 0 < f.size) (spec : PassLength p.queue p.size pass)
    (calls : total = soughtCalls a pass) (seeks : Seeks p a b total m node) (before : m < a)
    (more : m < total) (plane : Plane) :
    (visitIdle node (some plane)).2 = handedSeek p a b total m ∧
      Seeks p a b total (m + 1) (visitIdle node (some plane)).1 := by
  obtain ⟨seek, skip, count, here⟩ := seeks.first before more
  have below : m < pass := by
    unfold soughtCalls at calls
    split at calls <;> omega
  obtain ⟨frame, at_⟩ : ∃ frame, p.queue[m]? = some frame :=
    ⟨_, List.getElem?_eq_getElem (Nat.lt_of_lt_of_le below spec.le)⟩
  have active : node.ended = false := by rw [seeks.ended, decide_eq_false (by omega)]
  have used := planeOf_used nonempty at_
  have some_ : p.queue ≠ [] := by
    intro none_
    rw [none_] at at_
    cases at_
  rw [visitIdle_call here at_ active, handedSeek, if_pos before]
  rcases Nat.lt_or_ge (m + 1) pass with less | last
  · rw [fill_within spec here at_ less]
    have notLast : ¬ total ≤ m + 1 := by
      unfold soughtCalls at calls
      split at calls <;> omega
    by_cases reached : m + 1 = a
    · rw [push_seeks (by rw [seek]) (by rw [seek]; dsimp only; omega)
        (by rw [here.queue]; exact some_) used (by dsimp only; omega)]
      refine ⟨?_, seeks.unlimited, seeks.once, ?_, ?_, ?_⟩
      · simp only [reached, ne_eq, not_true_eq_false, and_false, decide_false, decide_true]
      · rw [decide_eq_false notLast]
        exact active
      · intro less
        omega
      · intro _ _
        refine ⟨rfl, by rw [seek], by dsimp only; omega, here.queue, here.size, ?_, ?_⟩
        · rw [reached, Nat.sub_self]
        · rw [reached, Nat.sub_self]
          rfl
    · rw [push_plain (by rw [seek, count]; simp [reached]) used]
      refine ⟨?_, seeks.unlimited, seeks.once, ?_, ?_, ?_⟩
      · dsimp only
        rw [active, seeks.unlimited, skip, count, if_pos (Nat.succ_pos m)]
        simp [reached, show ¬ m + 1 = total by omega]
      · dsimp only
        rw [active, seeks.unlimited, decide_eq_false notLast]
        simp
      · intro _ _
        exact ⟨seek, skip, congrArg (· + 1) count, here.queue, here.size, rfl, rfl⟩
      · intro _ _
        omega
  · -- The last frame of the queue ends the node, whether the seek is at it or not.
    have full : m + 1 = pass := by omega
    have past : total = m + 1 := by
      unfold soughtCalls at calls
      rw [if_neg (by omega)] at calls
      omega
    rw [fill_ends spec here at_ full seeks.once]
    by_cases reached : m + 1 = a
    · rw [push_seeks (by rw [seek]) (by rw [seek]; dsimp only; omega)
        (by rw [here.queue]; exact some_) used (by dsimp only; omega)]
      refine ⟨?_, seeks.unlimited, seeks.once, ?_, ?_, ?_⟩
      · simp only [reached, ne_eq, not_true_eq_false, and_false, decide_false, decide_true]
      · rw [decide_eq_true (Nat.le_of_eq past)]
      · intro _ less
        omega
      · intro _ less
        omega
    · rw [push_plain (by rw [seek, count]; simp [reached]) used]
      refine ⟨?_, seeks.unlimited, seeks.once, ?_, ?_, ?_⟩
      · dsimp only
        rw [skip, count, if_pos (Nat.succ_pos m)]
        simp [reached, past]
      · dsimp only
        rw [decide_eq_true (Nat.le_of_eq past), Bool.true_or]
      · intro _ less
        omega
      · intro _ less
        omega

theorem Seeks.call_second (nonempty : ∀ f ∈ p.queue, 0 < f.size) (spec : PassLength p.queue p.size pass)
    (calls : total = soughtCalls a pass) (seeks : Seeks p a b total m node) (after : a ≤ m)
    (more : m < total) (plane : Plane) :
    (visitIdle node (some plane)).2 = handedSeek p a b total m ∧
      Seeks p a b total (m + 1) (visitIdle node (some plane)).1 := by
  obtain ⟨plain, skip, count, here⟩ := seeks.second after more
  have sum : total = a + pass := by
    unfold soughtCalls at calls
    split at calls <;> omega
  obtain ⟨frame, at_⟩ : ∃ frame, p.queue[m - a]? = some frame :=
    ⟨_, List.getElem?_eq_getElem (by have := spec.le; omega)⟩
  have active : node.ended = false := by rw [seeks.ended, decide_eq_false (by omega)]
  have used := planeOf_used nonempty at_
  have next : m + 1 - a = m - a + 1 := by omega
  rw [visitIdle_call here at_ active, handedSeek, if_neg (by omega)]
  rcases Nat.lt_or_ge (m - a + 1) pass with less | last
  · rw [fill_within spec here at_ less, push_plain (by rw [plain, Bool.false_and]) used]
    refine ⟨?_, seeks.unlimited, seeks.once, ?_, ?_, ?_⟩
    · dsimp only
      rw [active, seeks.unlimited, skip, count]
      simp [show ¬ m + 1 = total by omega]
    · dsimp only
      rw [active, seeks.unlimited, decide_eq_false (show ¬ total ≤ m + 1 by omega)]
      simp
    · intro _ _
      omega
    · intro _ _
      rw [next]
      exact ⟨plain, skip, congrArg (· + 1) count, here.queue, here.size, rfl, rfl⟩
  · rw [fill_ends spec here at_ (by omega) seeks.once, push_plain (by rw [plain, Bool.false_and]) used]
    refine ⟨?_, seeks.unlimited, seeks.once, ?_, ?_, ?_⟩
    · dsimp only
      rw [skip, count]
      simp [show m + 1 = total by omega]
    · dsimp only
      rw [decide_eq_true (show total ≤ m + 1 by omega), Bool.true_or]
    · intro _ _
      omega
    · intro _ _
      omega

theorem seeks_feeds (nonempty : ∀ f ∈ p.queue, 0 < f.size) (spec : PassLength p.queue p.size pass)
    (calls : total = soughtCalls a pass) :
    Feeds visitIdle Option.isSome (some total) (handedSeek p a b total) (Seeks p a b total) where
  wait := by
    intro m node idle seeks without
    rw [visitIdle_wait without]
    exact ⟨rfl, seeks⟩
  rest := by
    intro m node idle seeks last
    obtain rfl : total = m := Option.some.inj last
    rw [visitIdle_rest (by rw [seeks.ended, decide_eq_true (Nat.le_refl _)])]
    exact ⟨rfl, seeks⟩
  call := by
    intro m node idle seeks found ahead
    obtain ⟨plane, rfl⟩ := Option.isSome_iff_exists.mp found
    rcases Nat.lt_or_ge m a with before | after
    · exact seeks.call_first nonempty spec calls before (ahead total rfl) plane
    · exact seeks.call_second nonempty spec calls after (ahead total rfl) plane

theorem seeks_start (spec : PassLength p.queue p.size pass) (some_ : p.queue ≠ [])
    (unlimited : p.number = 0) (positive : 0 < a) (calls : total = soughtCalls a pass) :
    Seeks p a b total 0 (seekNode p a b) := by
  have settled : settleSeek { enable := true, posSeek := a, posNew := b } 0 =
      ({ enable := true, posSeek := a, posNew := b }, 0) := by
    rw [settleSeek, if_pos rfl, if_neg (Nat.not_le.mpr positive)]
  have more : ¬ total ≤ 0 := by
    have := spec.positive
    unfold soughtCalls at calls
    split at calls <;> omega
  rw [seekNode, settled]
  refine ⟨unlimited, rfl, ?_, ?_, ?_⟩
  · rw [decide_eq_false more]
    rfl
  · intro _ _
    exact ⟨rfl, rfl, rfl, rfl, rfl, if_neg some_, rfl⟩
  · intro after
    omega

/-- What the calls of a run with a seek hand on, where the seek is in front of the
end of the pass. -/
theorem handedSeek_within (pass : Nat) :
    (List.range (a + pass)).filterMap (handedSeek p a b (a + pass)) =
      ((List.range a).map fun k =>
          { frame := k, plane := planeOf p.queue k, last := k + 1 = a + pass ∧ k + 1 ≠ a, seek := k + 1 = a }) ++
        ((List.range pass).map fun k =>
          { frame := k, plane := planeOf p.queue k, last := k + 1 = pass, seek := false }).drop b := by
  rw [List.range_add, List.filterMap_append, List.filterMap_map, ← filterMap_skip]
  congr 1
  · rw [← List.filterMap_eq_map]
    apply List.filterMap_congr
    intro k mem
    rw [handedSeek, if_pos (List.mem_range.mp mem)]
    rfl
  · apply List.filterMap_congr
    intro k _
    simp only [Function.comp, handedSeek, if_neg (Nat.not_lt.mpr (Nat.le_add_right a k)),
      Nat.add_sub_cancel_left]
    congr 3
    exact decide_eq_decide.mpr (by omega)

end seek

theorem sought_within {p : PitcherParser} {a b : Nat} (new : b < p.queue.length) :
    (List.range (a + p.queue.length)).filterMap (handedSeek p a b (a + p.queue.length)) =
      sought p.queue a b := by
  rw [handedSeek_within, sought]
  congr 1
  · apply List.map_congr_left
    intro k mem
    have below := List.mem_range.mp mem
    congr 1
    exact decide_eq_false (by omega)
  · rw [range_split (Nat.le_of_lt new), List.map_append]
    exact List.drop_left' (by simp)

/-- A seek is carried out as it was asked for, exactly where it is in front of the
last frame and no pass is cut short. -/
theorem parserRun_seeks_iff (p : PitcherParser) (file : 0 < p.size) (nonempty : ∀ f ∈ p.queue, 0 < f.size)
    (unlimited : p.number = 0) (a b : Nat) (positive : 0 < a) (inside : a ≤ p.queue.length)
    (new : b < p.queue.length) :
    Emits visitIdle Option.isSome (fun node => node.ended = true) (seekNode p a b) (sought p.queue a b) ↔
      a < p.queue.length ∧ passLength p.queue p.size = p.queue.length := by
  have some_ : p.queue ≠ [] := List.length_pos_iff.mp (by omega)
  have spec := passLength_spec file some_
  have length : (sought p.queue a b).length = a + (p.queue.length - b) := by simp [sought]
  rw [(seeks_feeds nonempty spec rfl).emits_iff (seeks_start spec some_ unlimited positive rfl)
    (fun m node le at_ => by rw [at_.ended, decide_eq_true_iff]; omega) ⟨some ⟨0, 0⟩, rfl⟩]
  constructor
  · rintro ⟨same, -⟩
    have lengths := congrArg List.length same
    rw [length] at lengths
    rcases Nat.lt_or_ge a (passLength p.queue p.size) with within | behind
    · rw [soughtCalls, if_pos within, handedSeek_within] at lengths
      simp only [List.length_append, List.length_map, List.length_range, List.length_drop] at lengths
      have := spec.le
      omega
    · have few := List.length_filterMap_le
        (handedSeek p a b (soughtCalls a (passLength p.queue p.size)))
        (List.range (soughtCalls a (passLength p.queue p.size)))
      rw [List.length_range] at few
      rw [soughtCalls, if_neg (Nat.not_lt.mpr behind)] at few lengths
      omega
  · rintro ⟨early, whole⟩
    rw [whole, soughtCalls, if_pos early]
    refine ⟨(sought_within new).symm, ?_⟩
    intro _
    rw [handedSeek, if_neg (by omega), if_pos (by omega)]
    rfl

/-- From the first of three frames on to the last one. -/
theorem parserRun_seeks_early :
    let p : PitcherParser :=
      { virt := fun _ => 0, size := 15, queue := [⟨0, 4, 0⟩, ⟨1, 5, 4⟩, ⟨2, 6, 9⟩], frameCnt := 3 }
    Emits visitIdle Option.isSome (fun node => node.ended = true) (seekNode p 1 2) (sought p.queue 1 2) ↔
      1 < p.queue.length ∧ passLength p.queue p.size = p.queue.length :=
  parserRun_seeks_iff _ (by decide) (by decide) rfl 1 2 (by decide) (by decide) (by decide)

/-- A seek behind the last of two frames: the node has ended, and nothing follows. -/
theorem parserRun_seeks_end :
    ¬ Emits visitIdle Option.isSome (fun node => node.ended = true)
      (seekNode { virt := fun _ => 0, size := 9, queue := [⟨0, 4, 0⟩, ⟨1, 5, 4⟩], frameCnt := 2 } 2 0)
      (sought [⟨0, 4, 0⟩, ⟨1, 5, 4⟩] 2 0) := by
  intro emits
  have all := emits.whole [some ⟨0, 0⟩, some ⟨0, 0⟩] (by decide)
  exact absurd all (by decide)

end ImxTest.Pitcher.Emission
