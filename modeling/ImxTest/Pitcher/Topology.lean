import ImxTest.Pitcher.Registry

/-! Pipes and the links of the units at their two ends. A unit has sixteen places
for its outputs, and what `pitcher_add_unit_output` returns is not looked at. -/
namespace ImxTest.Pitcher.Core

open Lib.Runs

/-- The queues of pipes hold pipes that are there, each in one queue. -/
structure Piped (w : World) : Prop where
  queue : ∀ k, ∃ pipes, (w.core k).pipes = some pipes ∧ pipes.Nodup ∧ ∀ p ∈ pipes, ∃ pipe, w.pipe p = some pipe
  apart : ∀ k k' pipes pipes' p, (w.core k).pipes = some pipes → (w.core k').pipes = some pipes' →
    p ∈ pipes → p ∈ pipes' → k = k'

/-- What `pitcher_add_unit_output` makes of the outputs, for a pipe that is new. -/
def addOut (outs : Fin 16 → Nat) (p : Nat) : Fin 16 → Nat :=
  match (List.finRange 16).find? fun i => decide (outs i = NULL) with
  | some i => Function.update outs i p
  | none => outs

/-- A connection that is made: `a` and `b` are its channels' places. -/
structure Joins (w : World) (a b : Nat) (c e : PitcherChn) (node : Bool) (w' : World) : Prop where
  chn : w'.chn = w.chn
  chns : w'.chns = w.chns
  bitmap : w'.chnBitmap = w.chnBitmap
  allocs : w'.allocs = w.allocs + 1
  pipe : w'.pipe = Function.update w.pipe w.allocs (some { src := a, dst := b })
  core : ∃ pipes, (w.core c.core).pipes = some pipes ∧
    w'.core = Function.update w.core c.core
      { w.core c.core with pipes := some (if node then pipes ++ [w.allocs] else pipes) }
  unit : ∀ x, w'.unit x = (w.unit x).map fun u =>
    { u with
      input := if x = e.unit then w.allocs else u.input
      outs := if x = c.unit then addOut u.outs w.allocs else u.outs }

variable {w w' : World} {a b n : Nat} {c e : PitcherChn}

theorem addUnitOutput_spec {u p : Nat} {unit : PitcherUnit} (live : w.unit u = some unit)
    (new : ∀ i, unit.outs i ≠ p) :
    ∃ code w', pitcherAddUnitOutput w u p = .ok (code, w') ∧ w'.chn = w.chn ∧ w'.chns = w.chns ∧
      w'.chnBitmap = w.chnBitmap ∧ w'.allocs = w.allocs ∧ w'.pipe = w.pipe ∧ w'.core = w.core ∧
      w'.unit = Function.update w.unit u (some { unit with outs := addOut unit.outs p }) := by
  have absent : (List.finRange 16).find? (fun i => decide (unit.outs i = p)) = none := by
    rw [List.find?_eq_none]
    intro i _
    simpa using new i
  cases room : (List.finRange 16).find? (fun i => decide (unit.outs i = NULL)) with
  | some i =>
    refine ⟨.OK, w.setUnit u { unit with outs := Function.update unit.outs i p }, ?_, rfl, rfl, rfl, rfl, rfl, rfl, ?_⟩
    · simp only [pitcherAddUnitOutput, getUnit_ok live, bind, Except.bind, absent, room]
    · simp only [World.setUnit, addOut, room]
  | none =>
    refine ⟨.E_FULL, w, ?_, rfl, rfl, rfl, rfl, rfl, rfl, ?_⟩
    · simp only [pitcherAddUnitOutput, getUnit_ok live, bind, Except.bind, absent, room]
    · simp only [addOut, room, ← live, Function.update_eq_self]

/-- The links of the units are places handed out before. -/
structure Below (w : World) : Prop where
  allocs : 0 < w.allocs
  null : w.pipe NULL = none
  links : ∀ x unit, w.unit x = some unit → unit.input < w.allocs ∧ ∀ i, unit.outs i < w.allocs

/-- A connection past its guards. -/
theorem join_spec (below : Below w) {u v : PitcherUnit} (source : w.unit c.unit = some u)
    (sink : w.unit e.unit = some v) {pipes : List Nat} (piped : (w.core c.core).pipes = some pipes)
    (node : Bool) :
    ∃ w', (do
      let w₁ ← pitcherSetUnitInput (newPipe w a b) (.unit e.unit) w.allocs
      let (_, w₂) ← pitcherAddUnitOutput w₁ c.unit w.allocs
      (.ok (Ret.OK, { w₂ with
        core := Function.update w₂.core c.core
          { w₂.core c.core with pipes := some (if node then pipes ++ [w.allocs] else pipes) } }) :
        Except Fault (Ret × World))) = .ok (.OK, w') ∧ Joins w a b c e node w' := by
  have first : pitcherSetUnitInput (newPipe w a b) (.unit e.unit) w.allocs =
      .ok ((newPipe w a b).setUnit e.unit { v with input := w.allocs }) := by
    simp only [pitcherSetUnitInput, getUnit_ok (show (newPipe w a b).unit e.unit = some v from sink), bind,
      Except.bind]
  have there : ∃ u', ((newPipe w a b).setUnit e.unit { v with input := w.allocs }).unit c.unit = some u' ∧
      u'.outs = u.outs ∧ u'.desc = u.desc ∧ u'.input = if c.unit = e.unit then w.allocs else u.input := by
    by_cases same : c.unit = e.unit
    · obtain rfl := Option.some.inj (source.symm.trans (same ▸ sink))
      refine ⟨{ u with input := w.allocs }, ?_, rfl, rfl, (if_pos same).symm⟩
      simp only [World.setUnit, same, Function.update_self]
    · refine ⟨u, ?_, rfl, rfl, (if_neg same).symm⟩
      simp only [World.setUnit, Function.update_of_ne same]
      exact source
  obtain ⟨u', there, outs, desc, input⟩ := there
  have new (i : Fin 16) : u'.outs i ≠ w.allocs := outs ▸ Nat.ne_of_lt ((below.links _ u source).2 i)
  obtain ⟨code, w₂, added, chn, chns, bitmap, allocs, pipe, core, unit⟩ := addUnitOutput_spec there new
  refine ⟨{ w₂ with
    core := Function.update w₂.core c.core
      { w₂.core c.core with pipes := some (if node then pipes ++ [w.allocs] else pipes) } }, ?_,
    ⟨chn, chns, bitmap, allocs, pipe, ⟨pipes, piped, ?_⟩, ?_⟩⟩
  · simp only [first, added, bind, Except.bind]
  · simp only [core]
    rfl
  · intro x
    simp only [unit]
    by_cases out : x = c.unit
    · subst out
      simp only [Function.update_self, source, Option.map_some, if_true, Option.some.injEq]
      cases u'
      simp_all
    · rw [Function.update_of_ne out]
      by_cases in_ : x = e.unit
      · subst in_
        simp only [World.setUnit, Function.update_self, sink, Option.map_some, if_true, out, if_false]
      · simp only [World.setUnit, Function.update_of_ne in_, in_, out, if_false]
        exact (Option.map_id' ..).symm

/-- A call of `pitcher_connect` for the channels at `a` and `b` that passes the
guards and gets its pipe. -/
structure Joining (w : World) (src dst : Nat) (luck : PipeLuck) (a b : Nat) (c e : PitcherChn) : Prop where
  source : w.chn a = some c
  src : c.chnno = src
  sink : w.chn b = some e
  dst : e.chnno = dst
  core : c.core = e.core
  input : ∃ v, w.unit e.unit = some v ∧ (v.input = NULL ∨ ∃ pipe, w.pipe v.input = some pipe ∧ pipe.src = a)
  luck : luck.pipe = true

theorem otherSource_false {v : PitcherUnit} :
    otherSource w v a = .ok false ↔ v.input = NULL ∨ ∃ pipe, w.pipe v.input = some pipe ∧ pipe.src = a := by
  unfold otherSource
  by_cases none_ : v.input = NULL
  · simp only [none_, if_true, true_or]
  · rw [if_neg none_]
    cases there : w.pipe v.input with
    | none => simp [World.getPipe, there, none_, bind, Except.bind]
    | some pipe => simp [World.getPipe, there, none_, bind, Except.bind]

/-- What a call of `pitcher_connect` comes to, unless it reads a freed pipe. -/
theorem connect_cases {src dst : Nat} {luck : PipeLuck} {code : Ret} (sound : Sound w) (piped : Piped w)
    (below : Below w) (done : pitcherConnect w src dst luck = .ok (code, w')) :
    (∃ a b c e, Joining w src dst luck a b c e ∧ code = .OK ∧ Joins w a b c e luck.node w') ∨
    ((∀ a b c e, ¬ Joining w src dst luck a b c e) ∧ code ≠ .OK ∧ w' = w) := by
  unfold pitcherConnect at done
  rcases findChn_spec sound src with ⟨a, c, source, rfl, found⟩ | ⟨none_, missing⟩
  · rcases findChn_spec sound dst with ⟨b, e, sink, rfl, found'⟩ | ⟨none_, missing⟩
    · obtain ⟨items, chns, _⟩ := sound.queued c.core
      obtain ⟨pipes, queue, _⟩ := piped.queue c.core
      obtain ⟨u, unit⟩ := sound.units a c source
      obtain ⟨v, unit'⟩ := sound.units b e sink
      have only {a' b' c' e'} (joining : Joining w c.chnno e.chnno luck a' b' c' e') :
          a' = a ∧ c' = c ∧ b' = b ∧ e' = e := by
        obtain rfl := sound.distinct a' a c' c joining.source source joining.src
        obtain rfl := sound.distinct b' b e' e joining.sink sink joining.dst
        exact ⟨rfl, Option.some.inj (joining.source.symm.trans source), rfl,
          Option.some.inj (joining.sink.symm.trans sink)⟩
      simp only [found, found', getChn_ok source, getChn_ok sink, chns, queue, getUnit_ok unit', bind,
        Except.bind] at done
      by_cases core : c.core = e.core
      · rw [if_neg (not_not.mpr core)] at done
        cases other : otherSource w v a with
        | error fault => simp [other] at done
        | ok refused =>
          cases refused with
          | true =>
            simp only [other, if_true, Except.ok.injEq, Prod.mk.injEq] at done
            obtain ⟨rfl, rfl⟩ := done
            refine .inr ⟨?_, nofun, rfl⟩
            intro a' b' c' e' joining
            obtain ⟨rfl, rfl, rfl, rfl⟩ := only joining
            obtain ⟨v', there, input⟩ := joining.input
            obtain rfl := Option.some.inj (unit'.symm.trans there)
            cases other.symm.trans (otherSource_false.mpr input)
          | false =>
            simp only [other, Bool.false_eq_true, if_false] at done
            cases pipe : luck.pipe with
            | false =>
              simp only [pipe, Bool.not_false, if_true, Except.ok.injEq, Prod.mk.injEq] at done
              obtain ⟨rfl, rfl⟩ := done
              refine .inr ⟨?_, nofun, rfl⟩
              intro a' b' c' e' joining
              cases pipe.symm.trans joining.luck
            | true =>
              obtain ⟨w'', made, joins⟩ := @join_spec w a b c e below u v unit unit' pipes queue luck.node
              simp only [pipe, Bool.not_true, Bool.false_eq_true, if_false] at done
              have same := made.symm.trans done
              simp only [Except.ok.injEq, Prod.mk.injEq] at same
              obtain ⟨rfl, rfl⟩ := same
              exact .inl ⟨a, b, c, e, ⟨source, rfl, sink, rfl, core, ⟨v, unit', otherSource_false.mp other⟩, pipe⟩,
                rfl, joins⟩
      · rw [if_pos core] at done
        simp only [Except.ok.injEq, Prod.mk.injEq] at done
        obtain ⟨rfl, rfl⟩ := done
        refine .inr ⟨?_, nofun, rfl⟩
        intro a' b' c' e' joining
        obtain ⟨rfl, rfl, rfl, rfl⟩ := only joining
        exact core joining.core
    · simp only [found, missing, bind, Except.bind, Except.ok.injEq, Prod.mk.injEq] at done
      obtain ⟨rfl, rfl⟩ := done
      exact .inr ⟨fun a' b' c' e' joining => none_ b' e' joining.sink joining.dst, nofun, rfl⟩
  · have same : code = .E_INVAL ∧ w' = w := by
      rcases findChn_spec sound dst with ⟨b, e, _, _, found'⟩ | ⟨_, missing'⟩
      · simp only [missing, found', bind, Except.bind, Except.ok.injEq, Prod.mk.injEq] at done
        exact ⟨done.1.symm, done.2.symm⟩
      · simp only [missing, missing', bind, Except.bind, Except.ok.injEq, Prod.mk.injEq] at done
        exact ⟨done.1.symm, done.2.symm⟩
    obtain ⟨rfl, rfl⟩ := same
    exact .inr ⟨fun a' b' c' e' joining => none_ a' c' joining.source joining.src, nofun, rfl⟩

/-! ## Pushing to the outputs -/

theorem pipePushBack_spec (buffer : Nat) {p : Nat} {pipe : PitcherPipe} (live : w.pipe p = some pipe)
    (never : pipe.numerator = 0) :
    ∃ w', pitcherPipePushBack w p buffer true = .ok w' ∧
      w'.pipe = Function.update w.pipe p (some { pipe with queue := pipe.queue ++ [buffer] }) := by
  have skip : checkIsNeedSkip pipe = (false, pipe) := by
    simp only [checkIsNeedSkip, never, true_or, if_true]
  simp only [pitcherPipePushBack, getPipe_ok live, bind, Except.bind, skip, Bool.false_eq_true, if_false,
    if_true]
  split
  · exact ⟨_, rfl, rfl⟩
  · exact ⟨_, rfl, rfl⟩

/-- Every pipe among the outputs gets the buffer once. -/
theorem pushBackOutputs_spec (buffer : Nat) {outs : Fin 16 → Nat} {places : List (Fin 16)}
    (nodup : places.Nodup) (once : ∀ i j, outs i ≠ NULL → outs i = outs j → i = j)
    (live : ∀ i ∈ places, outs i ≠ NULL → ∃ pipe, w.pipe (outs i) = some pipe ∧ pipe.numerator = 0) :
    ∃ w', pushBackOutputs buffer (fun _ => true) outs places w = .ok w' ∧
      (∀ i ∈ places, outs i ≠ NULL → w'.pipe (outs i) =
        (w.pipe (outs i)).map fun pipe => { pipe with queue := pipe.queue ++ [buffer] }) ∧
      ∀ p, (∀ i ∈ places, outs i ≠ NULL → outs i ≠ p) → w'.pipe p = w.pipe p := by
  induction places generalizing w with
  | nil => exact ⟨w, rfl, nofun, fun _ _ => rfl⟩
  | cons i places ih =>
    rw [List.nodup_cons] at nodup
    by_cases none_ : outs i = NULL
    · obtain ⟨w', pushed, there, others⟩ := ih nodup.2 fun j mem => live j (List.mem_cons_of_mem i mem)
      refine ⟨w', ?_, ?_, ?_⟩
      · simp only [pushBackOutputs, none_, if_true, pushed]
      · intro j mem some_
        rcases List.mem_cons.mp mem with rfl | inside
        · exact absurd none_ some_
        · exact there j inside some_
      · exact fun p away => others p fun j mem => away j (List.mem_cons_of_mem i mem)
    · obtain ⟨pipe, here, never⟩ := live i List.mem_cons_self none_
      obtain ⟨w₁, first, after⟩ := pipePushBack_spec buffer here never
      have apart (j : Fin 16) (mem : j ∈ places) (some_ : outs j ≠ NULL) : outs j ≠ outs i := by
        intro same
        exact nodup.1 (once j i some_ same ▸ mem)
      have kept (p : Nat) (away : p ≠ outs i) : w₁.pipe p = w.pipe p := by
        rw [after]
        exact Function.update_of_ne away ..
      obtain ⟨w', pushed, there, others⟩ := ih (w := w₁) nodup.2 fun j mem some_ => by
        rw [kept _ (apart j mem some_)]
        exact live j (List.mem_cons_of_mem i mem) some_
      refine ⟨w', ?_, ?_, ?_⟩
      · simp only [pushBackOutputs, none_, if_false, first, bind, Except.bind, pushed]
      · intro j mem some_
        rcases List.mem_cons.mp mem with rfl | inside
        · rw [others _ fun k mem' some' => apart k mem' some', after, Function.update_self, here]
          rfl
        · rw [there j inside some_, kept _ (apart j inside some_)]
      · intro p away
        rw [others p fun j mem => away j (List.mem_cons_of_mem i mem)]
        exact kept p (Ne.symm (away i List.mem_cons_self none_))

/-! ## Links along a run -/

/-- A pipe is an output of its source's unit and the input of its destination's. -/
def Attached (w : World) (p : Nat) : Prop :=
  ∃ pipe c e u v, w.pipe p = some pipe ∧ w.chn pipe.src = some c ∧ w.unit c.unit = some u ∧
    (∃ i, u.outs i = p) ∧ w.chn pipe.dst = some e ∧ w.unit e.unit = some v ∧ v.input = p

/-- A buffer pushed by the channel numbered `src` comes to the end of the input
pipe of the one numbered `dst`, where there is memory for the queue's node. -/
def Reaches (w : World) (src dst : Nat) : Prop :=
  ∃ a b c e v, w.chn a = some c ∧ c.chnno = src ∧ w.chn b = some e ∧ e.chnno = dst ∧
    w.unit e.unit = some v ∧ ∀ buffer, ∃ w' pipe pipe',
      pitcherUnitPushBackOutput w c.unit buffer (fun _ => true) = .ok w' ∧
      w.pipe v.input = some pipe ∧ w'.pipe v.input = some pipe' ∧ pipe'.queue = pipe.queue ++ [buffer]

/-- The pipes of two channels that were connected: an output of one, the input of
the other. -/
def Linked (w : World) (src dst : Nat) : Prop :=
  ∃ a b c e u v, w.chn a = some c ∧ c.chnno = src ∧ w.chn b = some e ∧ e.chnno = dst ∧
    w.unit c.unit = some u ∧ w.unit e.unit = some v ∧ v.input ≠ NULL ∧ ∃ i, u.outs i = v.input

/-- The worlds of runs that connect and register only, with the pairs connected
so far. -/
structure Wired (w : World) (joined : List (Nat × Nat)) : Prop where
  sound : Sound w
  piped : Piped w
  below : Below w
  moving : ∀ p pipe, w.pipe p = some pipe → pipe.numerator = 0
  input : ∀ a c u, w.chn a = some c → w.unit c.unit = some u → u.input ≠ NULL →
    ∃ pipe, w.pipe u.input = some pipe ∧ pipe.dst = a
  outs : ∀ a c u i, w.chn a = some c → w.unit c.unit = some u → u.outs i ≠ NULL →
    ∃ pipe, w.pipe (u.outs i) = some pipe ∧ pipe.src = a
  once : ∀ a c u i j, w.chn a = some c → w.unit c.unit = some u → u.outs i ≠ NULL → u.outs i = u.outs j → i = j
  attached : ∀ k pipes, (w.core k).pipes = some pipes → ∀ p ∈ pipes, Attached w p
  joined : ∀ pair ∈ joined, Linked w pair.1 pair.2

variable {joined : List (Nat × Nat)} {node : Bool}

theorem Wired.reaches (wired : Wired w joined) {src dst : Nat} (linked : Linked w src dst) :
    Reaches w src dst := by
  obtain ⟨a, b, c, e, u, v, source, from_, sink, to_, unit, unit', some_, i, out⟩ := linked
  refine ⟨a, b, c, e, v, source, from_, sink, to_, unit', ?_⟩
  intro buffer
  obtain ⟨w', pushed, there, _⟩ := pushBackOutputs_spec buffer (List.nodup_finRange 16)
    (fun i j => wired.once a c u i j source unit) fun j _ some' => by
      obtain ⟨pipe, live, _⟩ := wired.outs a c u j source unit some'
      exact ⟨pipe, live, wired.moving _ _ live⟩
  obtain ⟨pipe, live, _⟩ := wired.input b e v sink unit' some_
  refine ⟨w', pipe, { pipe with queue := pipe.queue ++ [buffer] }, ?_, live, ?_, rfl⟩
  · simp only [pitcherUnitPushBackOutput, getUnit_ok unit, bind, Except.bind, pushed]
  · rw [← out, there i (List.mem_finRange i) (out ▸ some_), out, live]
    rfl

theorem start_wired : Wired {} [] where
  sound := start_sound
  piped := ⟨fun _ => ⟨[], rfl, List.nodup_nil, nofun⟩, fun k k' pipes pipes' p queue queue' mem _ => by
    cases queue
    cases mem⟩
  below := ⟨Nat.one_pos, rfl, nofun⟩
  moving := nofun
  input _ _ _ source := nomatch source
  outs _ _ _ _ source := nomatch source
  once _ _ _ _ _ source := nomatch source
  attached k pipes same p mem := by
    cases same
    cases mem
  joined := nofun

section added
variable {core : Nat} {items : List Nat} {unit : PitcherUnit} {bitmap : Nat → BitVec 64}

theorem addChn_pipes (k : Nat) :
    ((addChn { w with chnBitmap := bitmap } core n items unit node).core k).pipes = (w.core k).pipes := by
  by_cases here : k = core
  · subst here
    simp only [addChn, Function.update_self]
  · simp only [addChn, Function.update_of_ne here]

theorem addChn_piped (piped : Piped w) : Piped (addChn { w with chnBitmap := bitmap } core n items unit node) := by
  constructor
  · intro k
    rw [addChn_pipes k]
    exact piped.queue k
  · intro k k' pipes pipes' p queue queue'
    rw [addChn_pipes k] at queue
    rw [addChn_pipes k'] at queue'
    exact piped.apart k k' pipes pipes' p queue queue'

theorem addChn_below (below : Below w) (empty : unit.input = NULL ∧ unit.outs = fun _ => NULL) :
    Below (addChn { w with chnBitmap := bitmap } core n items unit node) := by
  refine ⟨Nat.lt_of_lt_of_le below.allocs (Nat.le_add_right _ 2), below.null, ?_⟩
  intro x u there
  have more : w.allocs ≤ (addChn { w with chnBitmap := bitmap } core n items unit node).allocs :=
    Nat.le_add_right _ 2
  have low {m : Nat} (old : m < w.allocs) := Nat.lt_of_lt_of_le old more
  by_cases new : x = w.allocs + 1
  · subst new
    simp only [addChn, Function.update_self, Option.some.injEq] at there
    rw [← there, empty.1, empty.2]
    exact ⟨low below.allocs, fun _ => low below.allocs⟩
  · simp only [addChn, Function.update_of_ne new] at there
    obtain ⟨input, outs⟩ := below.links x u there
    exact ⟨low input, fun i => low (outs i)⟩

end added

/-- What a registration leaves of the pipes and of the channels there were. -/
theorem addChn_wired {core : Nat} {items : List Nat} {bitmap : Nat → BitVec 64} {unit : PitcherUnit}
    (node : Bool) (wired : Wired w joined) (got : getChnno w.chnBitmap = (some n, bitmap))
    (queue : (w.core core).chns = some items) (empty : unit.input = NULL ∧ unit.outs = fun _ => NULL) :
    Wired (addChn { w with chnBitmap := bitmap } core n items unit node) joined := by
  have sound := wired.sound
  have chn {b : Nat} {d : PitcherChn} (live : w.chn b = some d) :
      (addChn { w with chnBitmap := bitmap } core n items unit node).chn b = some d :=
    (Function.update_of_ne (Nat.ne_of_lt (sound.address live)) ..).trans live
  have unit_ {x : Nat} {u : PitcherUnit} (live : w.unit x = some u) :
      (addChn { w with chnBitmap := bitmap } core n items unit node).unit x = some u := by
    have low : x ≠ w.allocs + 1 := by
      rintro rfl
      cases (sound.below _ (Nat.le_succ _)).2.1.symm.trans live
    exact (Function.update_of_ne low ..).trans live
  have known {b : Nat} {d : PitcherChn} {u : PitcherUnit}
      (there : (addChn { w with chnBitmap := bitmap } core n items unit node).chn b = some d)
      (links : (addChn { w with chnBitmap := bitmap } core n items unit node).unit d.unit = some u) :
      u = unit ∨ (w.chn b = some d ∧ w.unit d.unit = some u) := by
    rcases addChn_chn there with ⟨_, _, _, place, _⟩ | ⟨_, live⟩
    · left
      rw [place] at links
      simpa only [addChn, Function.update_self, Option.some.injEq, eq_comm] using links
    · obtain ⟨u', old⟩ := sound.units b d live
      cases links.symm.trans (unit_ old)
      exact .inr ⟨live, old⟩
  constructor
  · exact addChn_sound unit node sound got queue
  · exact addChn_piped wired.piped
  · exact addChn_below wired.below empty
  · exact wired.moving
  · intro b d u there links some_
    rcases known there links with rfl | ⟨live, old⟩
    · exact absurd empty.1 some_
    · exact wired.input b d u live old some_
  · intro b d u i there links some_
    rcases known there links with rfl | ⟨live, old⟩
    · exact absurd (congrFun empty.2 i) some_
    · exact wired.outs b d u i live old some_
  · intro b d u i j there links some_ same
    rcases known there links with rfl | ⟨live, old⟩
    · exact absurd (congrFun empty.2 i) some_
    · exact wired.once b d u i j live old some_ same
  · intro k ps same p mem
    rw [addChn_pipes k] at same
    obtain ⟨pipe, c, e, u, v, live, source, out, held, sink, in_, input⟩ := wired.attached k ps same p mem
    exact ⟨pipe, c, e, u, v, live, chn source, unit_ out, held, chn sink, unit_ in_, input⟩
  · intro pair mem
    obtain ⟨a, b, c, e, u, v, source, from_, sink, to_, out, in_, rest⟩ := wired.joined pair mem
    exact ⟨a, b, c, e, u, v, chn source, from_, chn sink, to_, unit_ out, unit_ in_, rest⟩

theorem pitcherNewUnit_links {desc : Option PitcherUnitDesc} {luck : Luck} {unit : PitcherUnit}
    (made : pitcherNewUnit desc luck = some unit) : unit.input = NULL ∧ unit.outs = fun _ => NULL := by
  unfold pitcherNewUnit at made
  split at made
  · cases made
  · split at made
    · cases made
    · split at made
      · cases made
      · split at made
        · cases made
        · split at made
          · split at made
            · cases made
            · cases made
              exact ⟨rfl, rfl⟩
          · cases made
            exact ⟨rfl, rfl⟩

/-! ## A connection -/

theorem addOut_cases (outs : Fin 16 → Nat) (p : Nat) :
    (∃ i, outs i = NULL ∧ addOut outs p = Function.update outs i p) ∨
      ((∀ i, outs i ≠ NULL) ∧ addOut outs p = outs) := by
  unfold addOut
  split
  · next i found => exact .inl ⟨i, by simpa using List.find?_some found, rfl⟩
  · next none_ =>
    refine .inr ⟨fun i => ?_, rfl⟩
    simpa using List.find?_eq_none.mp none_ i (List.mem_finRange i)

section joins
variable (joins : Joins w a b c e node w')
include joins

theorem Joins.chns_same (k : Nat) : (w'.core k).chns = (w.core k).chns := by
  obtain ⟨pipes, _, core⟩ := joins.core
  rw [core]
  by_cases here : k = c.core
  · rw [here, Function.update_self]
  · rw [Function.update_of_ne here]

theorem Joins.unit_some {x : Nat} {u : PitcherUnit} (live : w.unit x = some u) :
    w'.unit x = some { u with
      input := if x = e.unit then w.allocs else u.input
      outs := if x = c.unit then addOut u.outs w.allocs else u.outs } := by
  rw [joins.unit, live]
  rfl

theorem Joins.unit_of {x : Nat} {u : PitcherUnit} (live : w'.unit x = some u) :
    ∃ u', w.unit x = some u' ∧ u = { u' with
      input := if x = e.unit then w.allocs else u'.input
      outs := if x = c.unit then addOut u'.outs w.allocs else u'.outs } := by
  rw [joins.unit, Option.map_eq_some_iff] at live
  obtain ⟨u', known, same⟩ := live
  exact ⟨u', known, same.symm⟩

theorem Joins.pipe_old {p : Nat} (old : p ≠ w.allocs) : w'.pipe p = w.pipe p := by
  rw [joins.pipe]
  exact Function.update_of_ne old ..

theorem Joins.pipe_new : w'.pipe w.allocs = some { src := a, dst := b } := by
  rw [joins.pipe]
  exact Function.update_self ..

theorem Joins.sound (sound : Sound w) : Sound w' := by
  have parts := joins
  obtain ⟨chn, chns, bitmap, allocs, _, _, unit⟩ := parts
  constructor
  · rw [chns, chn]
    exact sound.listed
  · rw [chns]
    exact sound.nodup
  · intro x high
    obtain ⟨one, two, three⟩ := sound.below x (by omega)
    refine ⟨chn ▸ one, by rw [unit, two]; rfl, ?_⟩
    rw [joins.pipe_old (by omega)]
    exact three
  · rw [chn]
    exact sound.distinct
  · rw [chn, bitmap]
    exact sound.marked
  · intro k
    rw [joins.chns_same k, chn]
    exact sound.queued k
  · intro x d live
    obtain ⟨u, known⟩ := sound.units x d (chn ▸ live)
    exact ⟨_, joins.unit_some known⟩
  · rw [chn]
    exact sound.apart

theorem Joins.below (below : Below w) : Below w' := by
  have more : w.allocs < w'.allocs := by
    rw [joins.allocs]
    exact Nat.lt_succ_self _
  refine ⟨Nat.lt_trans below.allocs more, (joins.pipe_old (Nat.ne_of_lt below.allocs)).trans below.null, ?_⟩
  intro x u live
  obtain ⟨u', known, rfl⟩ := joins.unit_of live
  obtain ⟨input, outs⟩ := below.links x u' known
  constructor
  · simp only
    split
    · exact more
    · exact Nat.lt_trans input more
  · intro i
    simp only
    split
    · rcases addOut_cases u'.outs w.allocs with ⟨j, _, added⟩ | ⟨_, same⟩
      · rw [added]
        by_cases here : i = j
        · rw [here, Function.update_self]
          exact more
        · rw [Function.update_of_ne here]
          exact Nat.lt_trans (outs i) more
      · rw [same]
        exact Nat.lt_trans (outs i) more
    · exact Nat.lt_trans (outs i) more

omit joins in
/-- A pipe that is there is not the next one. -/
theorem pipe_fresh (sound : Sound w) {p : Nat} {pipe : PitcherPipe} (live : w.pipe p = some pipe) : p ≠ w.allocs := by
  rintro rfl
  cases (sound.below _ (Nat.le_refl _)).2.2.symm.trans live

theorem Joins.pipe_still (sound : Sound w) {p : Nat} {pipe : PitcherPipe} (live : w.pipe p = some pipe) :
    w'.pipe p = some pipe :=
  (joins.pipe_old (pipe_fresh sound live)).trans live

theorem Joins.piped (sound : Sound w) (piped : Piped w) : Piped w' := by
  obtain ⟨pipes, queue, core⟩ := joins.core
  -- what a queue holds is there before, or new in the queue of the two channels
  have split {k p : Nat} {pipes' : List Nat} (queue' : (w'.core k).pipes = some pipes') (mem : p ∈ pipes') :
      (∃ old, (w.core k).pipes = some old ∧ p ∈ old) ∨ (k = c.core ∧ p = w.allocs) := by
    rw [core] at queue'
    by_cases here : k = c.core
    · subst here
      rw [Function.update_self] at queue'
      obtain rfl := Option.some.inj queue'
      split at mem
      · rcases List.mem_append.mp mem with inside | last
        · exact .inl ⟨pipes, queue, inside⟩
        · exact .inr ⟨rfl, List.mem_singleton.mp last⟩
      · exact .inl ⟨pipes, queue, mem⟩
    · rw [Function.update_of_ne here] at queue'
      exact .inl ⟨pipes', queue', mem⟩
  have old {k p : Nat} {pipes' : List Nat} (queue' : (w.core k).pipes = some pipes') (mem : p ∈ pipes') :
      ∃ pipe, w.pipe p = some pipe := by
    obtain ⟨pipes'', known, _, live⟩ := piped.queue k
    obtain rfl := Option.some.inj (queue'.symm.trans known)
    exact live p mem
  constructor
  · intro k
    obtain ⟨pipes', queue', nodup, live⟩ := piped.queue k
    have there : ∃ pipes'', (w'.core k).pipes = some pipes'' ∧ pipes''.Nodup := by
      rw [core]
      by_cases here : k = c.core
      · subst here
        obtain rfl := Option.some.inj (queue.symm.trans queue')
        refine ⟨if node then pipes ++ [w.allocs] else pipes, by rw [Function.update_self], ?_⟩
        split
        · apply nodup.append (List.nodup_singleton _)
          intro p mem last
          obtain ⟨pipe, known⟩ := live p mem
          exact pipe_fresh sound known (List.mem_singleton.mp last)
        · exact nodup
      · exact ⟨pipes', by rw [Function.update_of_ne here, queue'], nodup⟩
    obtain ⟨pipes'', queue'', nodup'⟩ := there
    refine ⟨pipes'', queue'', nodup', ?_⟩
    intro p mem
    rcases split queue'' mem with ⟨before, known, inside⟩ | ⟨_, rfl⟩
    · obtain ⟨pipe, live⟩ := old known inside
      exact ⟨pipe, joins.pipe_still sound live⟩
    · exact ⟨_, joins.pipe_new⟩
  · intro k k' pipes₁ pipes₂ p queue₁ queue₂ mem₁ mem₂
    rcases split queue₁ mem₁ with ⟨before, known, inside⟩ | ⟨rfl, rfl⟩
    · rcases split queue₂ mem₂ with ⟨before', known', inside'⟩ | ⟨_, rfl⟩
      · exact piped.apart k k' before before' p known known' inside inside'
      · obtain ⟨pipe, live⟩ := old known inside
        exact absurd rfl (pipe_fresh sound live)
    · rcases split queue₂ mem₂ with ⟨before', known', inside'⟩ | ⟨rfl, _⟩
      · obtain ⟨pipe, live⟩ := old known' inside'
        exact absurd rfl (pipe_fresh sound live)
      · rfl

end joins

/-- A pipe to the destination is there already, or the source has no place left
for an output. -/
def Surplus (w : World) : Call → Prop
  | .connect src dst luck => ∃ a b c e, Joining w src dst luck a b c e ∧
      ((∃ k pipes p pipe, (w.core k).pipes = some pipes ∧ p ∈ pipes ∧ w.pipe p = some pipe ∧ pipe.dst = b) ∨
        ∃ u, w.unit c.unit = some u ∧ ∀ i, u.outs i ≠ NULL)
  | _ => False

theorem addOut_room {outs : Fin 16 → Nat} (room : ¬ ∀ i, outs i ≠ NULL) (p : Nat) :
    ∃ i, outs i = NULL ∧ addOut outs p = Function.update outs i p := by
  rcases addOut_cases outs p with found | ⟨full, _⟩
  · exact found
  · exact absurd full room

/-- A place that is taken keeps its pipe. -/
theorem addOut_taken {outs : Fin 16 → Nat} {p : Nat} {i : Fin 16} (some_ : outs i ≠ NULL) :
    addOut outs p i = outs i := by
  rcases addOut_cases outs p with ⟨j, none_, added⟩ | ⟨_, kept⟩
  · rw [added]
    apply Function.update_of_ne
    rintro rfl
    exact some_ none_
  · rw [kept]

theorem addOut_kept {x n : Nat} {outs : Fin 16 → Nat} {p : Nat} {i : Fin 16} (some_ : outs i ≠ NULL) :
    (if x = n then addOut outs p else outs) i = outs i := by
  split
  · exact addOut_taken some_
  · rfl

/-- Two channels with one unit are one. -/
theorem chn_of_unit (sound : Sound w) {x : Nat} {d : PitcherChn} {u v : PitcherUnit} (there : w.chn a = some c)
    (source : w.unit c.unit = some u) (live : w.chn x = some d) (known : w.unit d.unit = some v)
    (same : d.unit = c.unit) : x = a ∧ v = u :=
  ⟨sound.apart x a d c live there same, Option.some.inj (known.symm.trans (same ▸ source))⟩

section wires
variable {src dst : Nat} {luck : PipeLuck} (wired : Wired w joined) (joining : Joining w src dst luck a b c e)
  (joins : Joins w a b c e luck.node w') {x : Nat} {d : PitcherChn} {u v : PitcherUnit} {slot : Fin 16}
include wired joining joins

/-- The new pipe is the input of the sink, the other inputs are as they were. -/
theorem Joins.wired_input (live : w'.chn x = some d) (links : w'.unit d.unit = some v) (some_ : v.input ≠ NULL) :
    ∃ pipe, w'.pipe v.input = some pipe ∧ pipe.dst = x := by
  rw [joins.chn] at live
  obtain ⟨old, known, rfl⟩ := joins.unit_of links
  by_cases here : d.unit = e.unit
  · simp only [here, if_true]
    exact ⟨_, joins.pipe_new, (wired.sound.apart x b d e live joining.sink here).symm⟩
  · simp only [here, if_false] at some_ ⊢
    obtain ⟨pipe, there, back⟩ := wired.input x d old live known some_
    exact ⟨pipe, joins.pipe_still wired.sound there, back⟩

variable (source : w.unit c.unit = some u) (added : addOut u.outs w.allocs = Function.update u.outs slot w.allocs)
include source added

/-- The new pipe is an output of the source, the other outputs are as they were. -/
theorem Joins.wired_outs {i : Fin 16} (live : w'.chn x = some d) (links : w'.unit d.unit = some v)
    (some_ : v.outs i ≠ NULL) : ∃ pipe, w'.pipe (v.outs i) = some pipe ∧ pipe.src = x := by
  rw [joins.chn] at live
  obtain ⟨old, known, rfl⟩ := joins.unit_of links
  by_cases here : d.unit = c.unit
  · obtain ⟨rfl, rfl⟩ := chn_of_unit wired.sound joining.source source live known here
    simp only [here, if_true, added] at some_ ⊢
    by_cases place : i = slot
    · rw [place, Function.update_self]
      exact ⟨_, joins.pipe_new, rfl⟩
    · rw [Function.update_of_ne place] at some_ ⊢
      obtain ⟨pipe, there, back⟩ := wired.outs x d old i live known some_
      exact ⟨pipe, joins.pipe_still wired.sound there, back⟩
  · simp only [here, if_false] at some_ ⊢
    obtain ⟨pipe, there, back⟩ := wired.outs x d old i live known some_
    exact ⟨pipe, joins.pipe_still wired.sound there, back⟩

theorem Joins.wired_once {i j : Fin 16} (live : w'.chn x = some d) (links : w'.unit d.unit = some v)
    (some_ : v.outs i ≠ NULL) (same : v.outs i = v.outs j) : i = j := by
  rw [joins.chn] at live
  obtain ⟨old, known, rfl⟩ := joins.unit_of links
  by_cases here : d.unit = c.unit
  · obtain ⟨rfl, rfl⟩ := chn_of_unit wired.sound joining.source source live known here
    have low (k : Fin 16) : old.outs k ≠ w.allocs := Nat.ne_of_lt ((wired.below.links _ old known).2 k)
    simp only [here, if_true, added] at some_ same
    by_cases place : i = slot
    · by_cases place' : j = slot
      · exact place.trans place'.symm
      · rw [place, Function.update_self, Function.update_of_ne place'] at same
        exact absurd same.symm (low j)
    · rw [Function.update_of_ne place] at some_ same
      by_cases place' : j = slot
      · rw [place', Function.update_self] at same
        exact absurd same (low i)
      · rw [Function.update_of_ne place'] at same
        exact wired.once x d old i j live known some_ same
  · simp only [here, if_false] at some_ same
    exact wired.once x d old i j live known some_ same

omit wired in
theorem Joins.attached_new : Attached w' w.allocs := by
  obtain ⟨sink, there, -⟩ := joining.input
  exact ⟨_, c, e, _, _, joins.pipe_new, joins.chn ▸ joining.source, joins.unit_some source,
    ⟨slot, by simp only [if_true, added, Function.update_self]⟩, joins.chn ▸ joining.sink,
    joins.unit_some there, if_pos rfl⟩

omit source added in
/-- A pipe that does not lead to the sink stays attached. -/
theorem Joins.attached_old {p : Nat} (attached : Attached w p) (away : ∀ pipe, w.pipe p = some pipe → pipe.dst ≠ b) :
    Attached w' p := by
  obtain ⟨pipe, d, f, u, v, live, src_, unit, ⟨i, out⟩, dst_, unit', in_⟩ := attached
  have some_ : u.outs i ≠ NULL := by
    rintro none_
    rw [out] at none_
    subst none_
    cases wired.below.null.symm.trans live
  have other : f.unit ≠ e.unit := fun same =>
    away pipe live (wired.sound.apart pipe.dst b f e dst_ joining.sink same)
  exact ⟨pipe, d, f, _, _, joins.pipe_still wired.sound live, joins.chn ▸ src_, joins.unit_some unit,
    ⟨i, (addOut_kept some_).trans out⟩, joins.chn ▸ dst_, joins.unit_some unit', (if_neg other).trans in_⟩

theorem Joins.linked_new : Linked w' src dst := by
  obtain ⟨sink, there, -⟩ := joining.input
  refine ⟨a, b, c, e, _, _, joins.chn ▸ joining.source, joining.src, joins.chn ▸ joining.sink, joining.dst,
    joins.unit_some source, joins.unit_some there, ?_, slot, ?_⟩
  · simp only [if_true]
    exact Ne.symm (Nat.ne_of_lt wired.below.allocs)
  · simp only [if_true, added, Function.update_self]

theorem Joins.linked_old {n m : Nat} (linked : Linked w n m) : Linked w' n m := by
  obtain ⟨x, y, d, f, u₁, v₁, src_, from_, dst_, to_, unit, unit', some_, i, out⟩ := linked
  refine ⟨x, y, d, f, _, _, joins.chn ▸ src_, from_, joins.chn ▸ dst_, to_, joins.unit_some unit,
    joins.unit_some unit', ?_⟩
  by_cases here : f.unit = e.unit
  · -- the pair was connected before, and so was the source: its pipe is the new one now
    obtain ⟨sink, there, guard⟩ := joining.input
    obtain ⟨rfl, rfl⟩ := chn_of_unit wired.sound joining.sink there dst_ unit' here
    obtain ⟨pipe, live, back⟩ := wired.outs x d u₁ i src_ unit (out ▸ some_)
    rw [out] at live
    have same : x = a := by
      rcases guard with none_ | ⟨pipe', live', back'⟩
      · exact absurd none_ some_
      · cases live.symm.trans live'
        exact back.symm.trans back'
    subst same
    obtain rfl : d = c := Option.some.inj (src_.symm.trans joining.source)
    obtain rfl := Option.some.inj (unit.symm.trans source)
    refine ⟨?_, slot, ?_⟩
    · simp only [here, if_true]
      exact Ne.symm (Nat.ne_of_lt wired.below.allocs)
    · simp only [here, if_true, added, Function.update_self]
  · refine ⟨?_, i, ?_⟩
    · simpa only [here, if_false] using some_
    · simp only [here, if_false]
      exact (addOut_kept (out ▸ some_)).trans out

end wires

theorem Joins.wired {src dst : Nat} {luck : PipeLuck} (wired : Wired w joined)
    (joining : Joining w src dst luck a b c e) (joins : Joins w a b c e luck.node w')
    (fine : ¬ Surplus w (.connect src dst luck)) : Wired w' (joined ++ [(src, dst)]) := by
  have sound := wired.sound
  obtain ⟨u, source⟩ := sound.units a c joining.source
  have room : ¬ ∀ i, u.outs i ≠ NULL := fun full => fine ⟨a, b, c, e, joining, .inr ⟨u, source, full⟩⟩
  obtain ⟨slot, empty, added⟩ := addOut_room room w.allocs
  have old {k : Nat} {pipes : List Nat} {p : Nat} (queue : (w.core k).pipes = some pipes) (mem : p ∈ pipes) :
      Attached w' p :=
    joins.attached_old wired joining (wired.attached k pipes queue p mem) fun pipe live same =>
      fine ⟨a, b, c, e, joining, .inl ⟨k, pipes, p, pipe, queue, mem, live, same⟩⟩
  constructor
  · exact joins.sound sound
  · exact joins.piped sound wired.piped
  · exact joins.below wired.below
  · intro p pipe live
    by_cases here : p = w.allocs
    · subst here
      cases joins.pipe_new.symm.trans live
      rfl
    · exact wired.moving p pipe ((joins.pipe_old here).symm.trans live)
  · exact fun x d v live links some_ => joins.wired_input wired joining live links some_
  · exact fun x d v i live links some_ => joins.wired_outs wired joining source added live links some_
  · exact fun x d v i j live links some_ same => joins.wired_once wired joining source added live links some_ same
  · intro k pipes' queue' p mem
    obtain ⟨pipes, queue, core⟩ := joins.core
    rw [core] at queue'
    by_cases here : k = c.core
    · rw [here, Function.update_self] at queue'
      obtain rfl := Option.some.inj queue'
      split at mem
      · rcases List.mem_append.mp mem with inside | last
        · exact old queue inside
        · exact List.mem_singleton.mp last ▸ joins.attached_new joining source added
      · exact old queue mem
    · rw [Function.update_of_ne here] at queue'
      exact old queue' mem
  · intro pair mem
    rcases List.mem_append.mp mem with before | last
    · exact joins.linked_old wired joining source added (wired.joined pair before)
    · obtain rfl := List.mem_singleton.mp last
      exact joins.linked_new wired joining source added

/-! ## Runs -/

def Call.connects : Call → Prop
  | .register _ _ _ | .connect _ _ _ => True
  | .unregister _ | .disconnect _ _ => False

def Answer.failed : Answer → Prop
  | .number _ => False
  | .ret code => code ≠ .OK

/-- The world with the pairs of numbers `pitcher_connect` has returned `RET_OK` for. -/
structure Net where
  world : World := {}
  joined : List (Nat × Nat) := []

def Connecting (net : Net) (event : Call × Answer) (net' : Net) : Prop :=
  event.1.connects ∧ Step net.world event net'.world ∧
    net'.joined =
      match event with
      | (.connect src dst _, .ret .OK) => net.joined ++ [(src, dst)]
      | _ => net.joined

/-- Every pipe has the links of its two ends, a channel has one incoming pipe at
most, every pair connected so far is, and a call that fails changes nothing. -/
structure TopologyMet (net : Net) (event : Call × Answer) (net' : Net) : Prop where
  attached : ∀ k pipes, (net'.world.core k).pipes = some pipes → ∀ p ∈ pipes, Attached net'.world p
  single : ∀ k k' pipes pipes' p q pipe pipe', (net'.world.core k).pipes = some pipes → p ∈ pipes →
    net'.world.pipe p = some pipe → (net'.world.core k').pipes = some pipes' → q ∈ pipes' →
    net'.world.pipe q = some pipe' → pipe.dst = pipe'.dst → p = q
  reached : ∀ pair ∈ net'.joined, Reaches net'.world pair.1 pair.2
  failed : event.2.failed → net'.world = net.world

/-- A registration that loses its number, or a connection too many. -/
def Excess (w : World) (call : Call) : Prop := Loses w call ∨ Surplus w call

theorem Wired.met {net net' : Net} {event : Call × Answer} (wired : Wired net'.world net'.joined)
    (failed : event.2.failed → net'.world = net.world) : TopologyMet net event net' where
  attached := wired.attached
  single := by
    intro k k' pipes pipes' p q pipe pipe' queue mem live queue' mem' live' same
    obtain ⟨_, _, e, _, v, there, _, _, _, sink, unit, rfl⟩ := wired.attached k pipes queue p mem
    obtain ⟨_, _, e', _, v', there', _, _, _, sink', unit', rfl⟩ := wired.attached k' pipes' queue' q mem'
    obtain rfl := Option.some.inj (live.symm.trans there)
    obtain rfl := Option.some.inj (live'.symm.trans there')
    rw [same] at sink
    obtain rfl := Option.some.inj (sink.symm.trans sink')
    obtain rfl := Option.some.inj (unit.symm.trans unit')
    rfl
  reached := fun pair mem => wired.reaches (wired.joined pair mem)
  failed := failed

/-- A second pipe to a channel takes the place of the first as its input. -/
theorem Joins.detaches (joins : Joins w a b c e node w') (sound : Sound w) (sink : w.chn b = some e)
    {k p : Nat} {pipes : List Nat} {pipe : PitcherPipe} (queue : (w.core k).pipes = some pipes) (mem : p ∈ pipes)
    (live : w.pipe p = some pipe) (same : pipe.dst = b) :
    ∃ pipes', (w'.core k).pipes = some pipes' ∧ p ∈ pipes' ∧ ¬ Attached w' p := by
  have old : p ≠ w.allocs := by
    rintro rfl
    cases (sound.below _ (Nat.le_refl _)).2.2.symm.trans live
  obtain ⟨ps, queue', core⟩ := joins.core
  have inside : ∃ pipes', (w'.core k).pipes = some pipes' ∧ p ∈ pipes' := by
    rw [core]
    by_cases here : k = c.core
    · subst here
      obtain rfl := Option.some.inj (queue.symm.trans queue')
      refine ⟨_, by rw [Function.update_self], ?_⟩
      split
      · exact List.mem_append_left _ mem
      · exact mem
    · exact ⟨pipes, by rw [Function.update_of_ne here, queue], mem⟩
  obtain ⟨pipes', queue'', mem'⟩ := inside
  refine ⟨pipes', queue'', mem', ?_⟩
  rintro ⟨pipe', _, e', _, v', live', _, _, _, sink', unit', input⟩
  rw [joins.pipe_old old] at live'
  obtain rfl := Option.some.inj (live.symm.trans live')
  rw [same, joins.chn] at sink'
  obtain rfl := Option.some.inj (sink.symm.trans sink')
  obtain ⟨v, _, rfl⟩ := joins.unit_of unit'
  exact old (input.symm.trans (if_pos rfl))

/-- With all places taken the new pipe is no output, and nothing comes to it. -/
theorem Joins.cut_off {src dst : Nat} {luck : PipeLuck} (joins : Joins w a b c e node w')
    (wired : Wired w joined) (joining : Joining w src dst luck a b c e) {u : PitcherUnit}
    (source : w.unit c.unit = some u) (full : ∀ i, u.outs i ≠ NULL) : ¬ Reaches w' src dst := by
  rintro ⟨a', b', c', e', v', there, from_, there', to_, unit', reach⟩
  rw [joins.chn] at there there'
  obtain rfl := wired.sound.distinct a' a c' c there joining.source (from_.trans joining.src.symm)
  obtain rfl := wired.sound.distinct b' b e' e there' joining.sink (to_.trans joining.dst.symm)
  obtain rfl := Option.some.inj (there.symm.trans joining.source)
  obtain rfl := Option.some.inj (there'.symm.trans joining.sink)
  obtain ⟨v, _, rfl⟩ := joins.unit_of unit'
  simp only [if_true] at reach
  have same : addOut u.outs w.allocs = u.outs := by
    rcases addOut_cases u.outs w.allocs with ⟨i, none_, _⟩ | ⟨_, same⟩
    · exact absurd none_ (full i)
    · exact same
  have low (i : Fin 16) : u.outs i ≠ w.allocs := Nat.ne_of_lt ((wired.below.links _ u source).2 i)
  obtain ⟨w'', pushed, _, others⟩ := @pushBackOutputs_spec w' 0 u.outs _ (List.nodup_finRange 16)
    (fun i j => wired.once a' c' u i j there source) fun i _ some_ => by
      obtain ⟨pipe, live, _⟩ := wired.outs a' c' u i there source some_
      exact ⟨pipe, (joins.pipe_old (low i)).trans live, wired.moving _ _ live⟩
  obtain ⟨w₁, pipe, pipe', pushed', live, live', queue⟩ := reach 0
  simp only [pitcherUnitPushBackOutput, getUnit_ok (joins.unit_some source), bind, Except.bind, if_true, same,
    pushed, Except.ok.injEq] at pushed'
  subst pushed'
  rw [others _ fun i _ _ => low i] at live'
  cases live.symm.trans live'
  simp at queue

theorem connecting_kept {net net' : Net} {event : Call × Answer} (wired : Wired net.world net.joined)
    (step : Connecting net event net') :
    (TopologyMet net event net' ↔ ¬ Excess net.world event.1) ∧
      (¬ Excess net.world event.1 → Wired net'.world net'.joined) := by
  obtain ⟨w, joined⟩ := net
  obtain ⟨w', joined'⟩ := net'
  obtain ⟨call, answer⟩ := event
  obtain ⟨only, taken, pairs⟩ := step
  cases call with
  | unregister => exact only.elim
  | disconnect => exact only.elim
  | register core desc luck =>
    simp only [Step, exec] at taken
    obtain rfl : joined' = joined := pairs
    have none_ : ¬ Surplus w (.register core desc luck) := id
    rcases register_cases w core desc luck with ⟨full, result⟩ | ⟨n, bitmap, got, result⟩
    · rw [result] at taken
      cases taken
      have fine : ¬ Excess w (.register core desc luck) := by
        rintro (⟨⟨m, small, free⟩, _⟩ | surplus)
        · exact free (full m small)
        · exact surplus
      exact ⟨iff_of_true (wired.met fun _ => rfl) fine, fun _ => wired⟩
    · rcases result with ⟨loses, code, _, bad, result⟩ | ⟨kept, items, unit, queue, made, result⟩
      · rw [result] at taken
        cases taken
        refine ⟨iff_of_false ?_ (not_not.mpr (.inl loses)), fun fine => absurd (.inl loses) fine⟩
        intro met
        have same : bitmap = w.chnBitmap := congrArg World.chnBitmap (met.failed bad)
        obtain ⟨_, free, marks⟩ := getChnno_some got
        exact free (same ▸ (marks n).mpr (.inl rfl))
      · rw [result] at taken
        cases taken
        have fine : ¬ Excess w (.register core desc luck) := not_or.mpr ⟨kept, none_⟩
        have wired' := addChn_wired luck.node wired got queue (pitcherNewUnit_links made)
        exact ⟨iff_of_true (Wired.met wired' fun failed => failed.elim) fine, fun _ => wired'⟩
  | connect src dst luck =>
    simp only [Step, exec, bind, Except.bind] at taken
    cases result : pitcherConnect w src dst luck with
    | error fault => simp [result] at taken
    | ok pair =>
      obtain ⟨code, w''⟩ := pair
      simp only [result, Except.ok.injEq, Prod.mk.injEq] at taken
      obtain ⟨rfl, rfl⟩ := taken
      rcases connect_cases wired.sound wired.piped wired.below result with
        ⟨a, b, c, e, joining, rfl, joins⟩ | ⟨none_, bad, rfl⟩
      · obtain rfl : joined' = joined ++ [(src, dst)] := pairs
        by_cases surplus : Surplus w (.connect src dst luck)
        · refine ⟨iff_of_false ?_ (not_not.mpr (.inr surplus)), fun fine => absurd (.inr surplus) fine⟩
          intro met
          obtain ⟨a', b', c', e', joining', excess⟩ := surplus
          obtain rfl := wired.sound.distinct a' a c' c joining'.source joining.source
            (joining'.src.trans joining.src.symm)
          obtain rfl := wired.sound.distinct b' b e' e joining'.sink joining.sink
            (joining'.dst.trans joining.dst.symm)
          obtain rfl := Option.some.inj (joining'.source.symm.trans joining.source)
          rcases excess with ⟨k, pipes, p, pipe, queue, mem, live, same⟩ | ⟨u, source, full⟩
          · obtain ⟨pipes', queue', mem', off⟩ :=
              joins.detaches wired.sound joining.sink queue mem live same
            exact off (met.attached k pipes' queue' p mem')
          · exact joins.cut_off wired joining source full
              (met.reached (src, dst) (List.mem_append_right _ (List.mem_singleton_self _)))
        · have fine : ¬ Excess w (.connect src dst luck) := not_or.mpr ⟨id, surplus⟩
          have wired' := joins.wired wired joining surplus
          exact ⟨iff_of_true (Wired.met wired' fun bad => absurd rfl bad) fine, fun _ => wired'⟩
      · have same : joined' = joined := by
          cases code with
          | OK => exact absurd rfl bad
          | _ => exact pairs
        subst same
        have fine : ¬ Excess w'' (.connect src dst luck) := by
          rintro (loses | ⟨a, b, c, e, joining, _⟩)
          · exact loses
          · exact none_ a b c e joining
        exact ⟨iff_of_true (wired.met fun _ => rfl) fine, fun _ => wired⟩

/-- No call of the two touches freed memory. -/
theorem connect_runs (wired : Wired w joined) (src dst : Nat) (luck : PipeLuck) :
    ∃ result, pitcherConnect w src dst luck = .ok result := by
  have sound := wired.sound
  unfold pitcherConnect
  rcases findChn_spec sound src with ⟨a, c, source, rfl, found⟩ | ⟨_, missing⟩
  · rcases findChn_spec sound dst with ⟨b, e, sink, rfl, found'⟩ | ⟨_, missing⟩
    · obtain ⟨items, chns, _⟩ := sound.queued c.core
      obtain ⟨pipes, queue, _⟩ := wired.piped.queue c.core
      obtain ⟨u, unit⟩ := sound.units a c source
      obtain ⟨v, unit'⟩ := sound.units b e sink
      have other : ∃ refused, otherSource w v a = .ok refused := by
        unfold otherSource
        split
        · exact ⟨_, rfl⟩
        · next some_ =>
          obtain ⟨pipe, live, _⟩ := wired.input b e v sink unit' some_
          exact ⟨decide (pipe.src ≠ a), by simp only [getPipe_ok live, bind, Except.bind]⟩
      obtain ⟨refused, other⟩ := other
      simp only [found, found', getChn_ok source, getChn_ok sink, chns, queue, getUnit_ok unit', other, bind,
        Except.bind]
      split
      · exact ⟨_, rfl⟩
      · split
        · exact ⟨_, rfl⟩
        · split
          · exact ⟨_, rfl⟩
          · obtain ⟨w', made, _⟩ := @join_spec w a b c e wired.below u v unit unit' pipes queue luck.node
            exact ⟨_, made⟩
    · exact ⟨(.E_INVAL, w), by simp only [found, missing, bind, Except.bind]⟩
  · rcases findChn_spec sound dst with ⟨b, e, _, _, found'⟩ | ⟨_, missing'⟩
    · exact ⟨(.E_INVAL, w), by simp only [missing, found', bind, Except.bind]⟩
    · exact ⟨(.E_INVAL, w), by simp only [missing, missing', bind, Except.bind]⟩

theorem connecting_runs {net : Net} (wired : Wired net.world net.joined) {call : Call} (only : call.connects) :
    ∃ answer net', Connecting net (call, answer) net' := by
  cases call with
  | unregister => exact only.elim
  | disconnect => exact only.elim
  | register core desc luck =>
    obtain ⟨answer, w', _, step⟩ := @registering_runs net.world wired.sound (.register core desc luck) trivial
    exact ⟨answer, ⟨w', net.joined⟩, trivial, step, rfl⟩
  | connect src dst luck =>
    obtain ⟨⟨code, w'⟩, result⟩ := connect_runs wired src dst luck
    exact ⟨.ret code, ⟨w', _⟩, trivial, by simp only [Step, exec, result, bind, Except.bind], rfl⟩

/-- Over any registrations and connections the topology is as it should be as
long as, and no longer than, no registration loses its number, no channel is
connected to a second time and no source has a seventeenth output. -/
theorem topology_met_iff (events : List (Call × Answer)) (net : Net) :
    (Run (Only Connecting TopologyMet) {} events net ↔
      Run (Only Connecting fun net event _ => ¬ Excess net.world event.1) {} events net) ∧
    (Run (Only Connecting fun net event _ => ¬ Excess net.world event.1) {} events net →
      ∀ call : Call, call.connects → ∃ answer net', Connecting net (call, answer) net') := by
  have kept : ∀ net event net', Wired net.world net.joined → Connecting net event net' →
      ¬ Excess net.world event.1 → Wired net'.world net'.joined :=
    fun net event net' wired step fine => (connecting_kept wired step).2 fine
  constructor
  · apply Run.judged_iff _ _ kept start_wired
    exact fun net event net' wired step => (connecting_kept wired step).1
  · intro run call only
    exact connecting_runs (run.invariant (fun net event net' wired step => kept net event net' wired step.1 step.2)
      start_wired) only

/-- The world behind a call. -/
def after (w : World) (call : Call) : World :=
  match exec w call with
  | .ok (_, w) => w
  | .error _ => w

def oneChannel : World := after {} (.register 0 (some {}) {})

def twoChannels : World := after oneChannel (.register 0 (some {}) {})

def connectedOnce : World := after twoChannels (.connect 0 1 {})

def connectedTwice : World := after connectedOnce (.connect 0 1 {})

/-- Two channels are connected twice, and the first pipe is nobody's input. -/
theorem second_connect_detaches : ¬ ∀ events net, Run Connecting {} events net →
    Run (Only Connecting TopologyMet) {} events net := by
  intro claim
  have first : Connecting {} (.register 0 (some {}) {}, .number 0) ⟨oneChannel, []⟩ := ⟨trivial, rfl, rfl⟩
  have second : Connecting ⟨oneChannel, []⟩ (.register 0 (some {}) {}, .number 1) ⟨twoChannels, []⟩ :=
    ⟨trivial, rfl, rfl⟩
  have third : Connecting ⟨twoChannels, []⟩ (.connect 0 1 {}, .ret .OK) ⟨connectedOnce, [(0, 1)]⟩ :=
    ⟨trivial, rfl, rfl⟩
  have fourth : Connecting ⟨connectedOnce, [(0, 1)]⟩ (.connect 0 1 {}, .ret .OK)
      ⟨connectedTwice, [(0, 1), (0, 1)]⟩ := ⟨trivial, rfl, rfl⟩
  have run := claim _ _ (.next first (.next second (.next third (.next fourth (.stay _)))))
  obtain _ | ⟨_, _ | ⟨_, _ | ⟨_, _ | ⟨met, _ | _⟩⟩⟩⟩ := run
  obtain ⟨pipe, _, e, _, v, live, _, _, _, sink, unit, input⟩ := met.2.attached 0 [5, 6] rfl 5 (by simp)
  cases live
  cases sink
  cases unit
  cases input

end ImxTest.Pitcher.Core
