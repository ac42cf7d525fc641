import ImxTest.Nodes.Session

/-! A decoder does not end in the middle of its source, with a driver that tells of a change before it
gives the last buffer in front of it. -/
namespace ImxTest.Nodes.Decoding
open Pitcher.Core (ChnState)
open Lib.Runs

/-- The source has ended and the driver has been told. -/
def Drained (d : Decoder) : Prop := phase d.calls = .draining ∨ phase d.calls = .closed

/-- What comes out of the capture is the end of it. -/
def Dequeued.Ends : Dequeued → Prop
  | .ended => True
  | .frame _ last => last = true
  | .nothing => False

/-- The capture ends only behind the stop command or in front of a change that has been taken, EOS is only
raised behind the stop command, and nothing fails. A start may. -/
def Orderly (d : Decoder) : Label → Prop
  | .raise event => event = .EOS → Drained d
  | .interrupt => False
  | .active .output a error _ _ r =>
    a.registers = true ∧ (∀ side, a.seekOff side = true) ∧ error = false ∧ r.dequeued ≠ .ended
  | .active .capture _ error _ _ r => error = false ∧ (r.dequeued.Ends → Drained d ∨ Pending d)
  | .stopping _ off => off = true

/-- What holds of the flags whenever none of the callbacks runs. -/
structure Calm (d : Decoder) : Prop where
  unregistered : d.registered = false → d.capture.state = .STOPPED
  eos : d.registered = false → Event.EOS ∈ d.raised ∨ d.output.eosReceived = true → Drained d
  last : d.capture.ending = true → Drained d ∨ Pending d
  stopped : d.capture.state = .STOPPED → d.capture.ending = true → Drained d
  over_ : d.output.state ≠ .ACTIVE → Drained d ∧ ¬ Pending d

/-- Only a component that is at its end leaves. -/
def Settled (d : Decoder) : Prop :=
  d.output.ending = true ∨ d.forceExit = true → d.output.state ≠ .ACTIVE

/-- What holds while the output goes on. -/
structure Going (d : Decoder) : Prop extends Calm d where
  active : d.output.state = .ACTIVE
  before : d.output.ending = false
  stays : d.forceExit = false

theorem Drained.call {d : Decoder} {c : Call} (drained : Drained d) (started : ∀ started, c ≠ .start .output started) :
    phase (d.calls ++ [c]) = .draining ∨ phase (d.calls ++ [c]) = .closed := by
  rw [phase_append]
  rcases drained with here | here
  all_goals
    rw [here]
    cases c with
    | start side s =>
      cases side
      · exact absurd rfl (started s)
      · first | exact .inl rfl | exact .inr rfl
    | streamoff side => cases side <;> first | exact .inl rfl | exact .inr rfl
    | _ => first | exact .inl rfl | exact .inr rfl

/-! ## The node -/

section Going
variable {d e : Decoder}

theorem Going.next (going : Going d) (active : e.output.state = d.output.state) (before : e.output.ending = d.output.ending)
    (stays : e.forceExit = d.forceExit) (unregistered : e.registered = false → e.capture.state = .STOPPED)
    (eos : e.registered = false → Event.EOS ∈ e.raised ∨ e.output.eosReceived = true → Drained e)
    (last : e.capture.ending = true → Drained e ∨ Pending e)
    (stopped : e.capture.state = .STOPPED → e.capture.ending = true → Drained e) : Going e where
  unregistered := unregistered
  eos := eos
  last := last
  stopped := stopped
  over_ left := absurd (active.trans going.active) left
  active := active.trans going.active
  before := before.trans going.before
  stays := stays.trans going.stays

theorem Going.flushDec (going : Going d) : Going (flushDec d) := by
  unfold Decoding.flushDec
  split_ifs
  · exact going.next rfl rfl rfl going.unregistered (fun free told => (going.eos free told).call nofun)
      (fun last => (going.last last).imp_left fun drained => drained.call nofun)
      fun stopped last => (going.stopped stopped last).call nofun
  · exact going

theorem Going.takeEos (going : Going d) : Going (takeEos d) := by
  unfold Decoding.takeEos
  split_ifs with received registered
  · exact going.next rfl rfl rfl going.unregistered (fun free told => going.eos free (told.imp_right nofun))
      going.last going.stopped
  · have drained : Drained d := going.eos (Bool.eq_false_iff.mpr registered) (.inr received)
    exact going.next rfl rfl rfl going.unregistered (fun _ _ => drained) (fun _ => .inl drained) fun _ _ => drained
  · exact going

theorem Going.takeChange (going : Going d) : Going (takeChange d) ∧ (takeChange d).output.resolutionChange = false := by
  unfold Decoding.takeChange
  split_ifs with changed
  · exact ⟨going.next rfl rfl rfl going.unregistered going.eos (fun _ => .inr (.inr rfl)) going.stopped, rfl⟩
  · exact ⟨going, Bool.eq_false_iff.mpr changed⟩

theorem Going.handleDecoderResolutionChange (going : Going d) {a : Answers} (registers : a.registers = true) :
    Going (handleDecoderResolutionChange d a).1 ∧ (handleDecoderResolutionChange d a).2 = false ∧
      (handleDecoderResolutionChange d a).1.output.resolutionChange = d.output.resolutionChange := by
  unfold Decoding.handleDecoderResolutionChange
  dsimp only
  split_ifs with none_ fails stopped
  · exact ⟨going, rfl, rfl⟩
  · rw [registers, Bool.not_true, Bool.and_false] at fails
    cases fails
  · -- the end of a capture that is stopped is not that of an earlier change
    obtain ⟨enable, state, started⟩ := @startChn_capture { d with registered := true } stopped a.started
    rw [started]
    refine ⟨?_, rfl, rfl⟩
    exact going.next rfl rfl rfl nofun nofun (fun last => .inl ((going.stopped stopped last).call nofun))
      fun _ last => (going.stopped stopped last).call nofun
  · have pending : d.capture.resolutionChange = true := by simpa using none_
    refine ⟨?_, rfl, rfl⟩
    exact going.next rfl rfl rfl nofun nofun (fun _ => .inr (.inr pending)) fun is _ => absurd is stopped

/-- What a seek leaves of the flags. -/
theorem sought (d : Decoder) (first second : Started) :
    let e := startV4l2 (startV4l2 (stopV4l2 (stopV4l2 d .output true) .capture true) .capture first) .output second
    (e.output.state = d.output.state ∧ e.output.ending = false ∧ e.forceExit = d.forceExit) ∧
      (e.registered = d.registered ∧ e.capture.state = d.capture.state ∧ e.capture.ending = false) ∧
      e.output.resolutionChange = d.output.resolutionChange := by
  cases first <;> cases second <;> exact ⟨⟨rfl, rfl, rfl⟩, ⟨rfl, rfl, rfl⟩, rfl⟩

theorem Going.seekDecoder (going : Going d) (seekThd : Nat) {a : Answers} (off : ∀ side, a.seekOff side = true) :
    Going (seekDecoder seekThd d a) ∧
      (seekDecoder seekThd d a).output.resolutionChange = d.output.resolutionChange := by
  unfold Decoding.seekDecoder
  split_ifs with seeks waits
  · exact ⟨going, rfl⟩
  · exact ⟨going, rfl⟩
  · obtain ⟨active, -⟩ := not_or.mp waits
    have active : d.capture.state = .ACTIVE := not_not.mp active
    have registered : d.registered = true := by
      by_contra free
      rw [going.unregistered (Bool.eq_false_iff.mpr free)] at active
      cases active
    rw [off, off]
    obtain ⟨⟨state, ending, exit⟩, ⟨registered', state', ending'⟩, change⟩ :=
      sought { d with output := { d.output with seek := false } } (a.seekStarted .capture) (a.seekStarted .output)
    refine ⟨going.next state (ending.trans going.before.symm) exit ?_ ?_ ?_ ?_, change⟩
    · exact fun free => absurd (registered'.symm.trans free) (by rw [registered]; decide)
    · exact fun free => absurd (registered'.symm.trans free) (by rw [registered]; decide)
    · exact fun last => absurd (ending'.symm.trans last) (by decide)
    · exact fun _ last => absurd (ending'.symm.trans last) (by decide)

/-- Where the node calls it the end, the source has been drained and no change is left. -/
theorem Going.isDecoderOutputFinish (going : Going d) (seekThd : Nat) {a : Answers} (registers : a.registers = true)
    (off : ∀ side, a.seekOff side = true) :
    let r := isDecoderOutputFinish seekThd d a
    if r.2 then Calm r.1 ∧ Drained r.1 ∧ ¬ Pending r.1 else Going r.1 := by
  have flushed : Going (if a.sourceEnd then Decoding.flushDec d else d) := by
    split_ifs
    · exact going.flushDec
    · exact going
  obtain ⟨taken, none_left⟩ := flushed.takeEos.takeChange
  obtain ⟨handled, holds, same⟩ := taken.handleDecoderResolutionChange registers
  obtain ⟨sought, same'⟩ := handled.seekDecoder seekThd off
  have none_left := same'.trans (same.trans none_left)
  have finish {e : Decoder} {failed : Bool} (going : Going e) (holds : failed = false)
      (none_left : e.output.resolutionChange = false) :
      let r := if e.forceExit || e.capture.ending && !e.capture.resolutionChange then
        ({ e with forceExit := e.forceExit || e.output.frameCount = 0 }, true) else (e, failed)
      if r.2 then Calm r.1 ∧ Drained r.1 ∧ ¬ Pending r.1 else Going r.1 := by
    intro r
    by_cases over_ : (e.forceExit || e.capture.ending && !e.capture.resolutionChange) = true
    · have ends : r = ({ e with forceExit := e.forceExit || e.output.frameCount = 0 }, true) := if_pos over_
      rw [ends]
      rw [going.stays, Bool.false_or, Bool.and_eq_true_iff] at over_
      have pending : ¬ Pending e := by
        rintro (change | change)
        · rw [none_left] at change
          cases change
        · rw [change] at over_
          exact absurd over_.2 (by decide)
      have drained : Drained e := (going.last over_.1).resolve_right pending
      exact ⟨⟨going.unregistered, going.eos, going.last, going.stopped, going.over_⟩, drained, pending⟩
    · have goes : r = (e, false) := holds ▸ if_neg over_
      rw [goes]
      exact going
  exact finish sought holds none_left

/-! ## Buffers -/

theorem Going.checkV4l2Events (going : Going d) (polled : Bool) : Going (checkV4l2Events d polled) := by
  unfold Decoding.checkV4l2Events
  split
  · exact going
  · rename_i event raised same
    split_ifs
    · have eos (free : d.registered = false) (told : Event.EOS ∈ event :: raised ∨ d.output.eosReceived = true) :
          Drained (d.call (.dqevent event)) := (going.eos free (same ▸ told)).call nofun
      have last (last : d.capture.ending = true) : Drained (d.call (.dqevent event)) ∨ Pending d :=
        (going.last last).imp_left fun drained => drained.call nofun
      have stopped (stopped : d.capture.state = .STOPPED) (last : d.capture.ending = true) :
          Drained (d.call (.dqevent event)) := (going.stopped stopped last).call nofun
      cases event with
      | EOS => exact going.next rfl rfl rfl going.unregistered (fun free _ => eos free (.inl List.mem_cons_self)) last stopped
      | SOURCE_CHANGE =>
        exact going.next rfl rfl rfl going.unregistered (fun free told => eos free (told.imp_left (List.mem_cons_of_mem _)))
          (fun _ => .inr (.inl rfl)) stopped
      | other =>
        exact going.next rfl rfl rfl going.unregistered (fun free told => eos free (told.imp_left (List.mem_cons_of_mem _)))
          last stopped
    · exact going

theorem Going.runV4l2Output (going : Going d) (polled seek : Bool) (attempt : Attempt) :
    Going (runV4l2Output d polled seek attempt).1 := by
  have checked := going.checkV4l2Events polled
  cases attempt with
  | empty => exact checked
  | noRoom => exact checked
  | sent transferred queued =>
    unfold Decoding.runV4l2Output
    dsimp only
    split_ifs
    · exact checked.next rfl rfl rfl checked.unregistered (fun free told => (checked.eos free told).call nofun)
        (fun last => (checked.last last).imp_left fun drained => drained.call nofun)
        fun stopped last => (checked.stopped stopped last).call nofun
    · exact checked.next rfl rfl rfl checked.unregistered checked.eos checked.last checked.stopped

theorem Going.runV4l2 (going : Going d) {r : Running} (plain : r.dequeued ≠ .ended) : Going (runV4l2 d r .output) := by
  have dequeued {e : Decoder} : dequeue e .output r.dequeued = e := by
    cases same : r.dequeued with
    | nothing => rfl
    | ended => exact absurd same plain
    | frame => rfl
  unfold Decoding.runV4l2
  dsimp only
  rw [dequeued]
  split
  · exact going
  · rename_i seek _
    rw [dequeued]
    have first := going.runV4l2Output r.polled.1 seek r.attempts.1
    split
    · split_ifs
      · exact first
      · exact first.runV4l2Output r.polled.2 seek r.attempts.2
    · exact first

end Going

/-! ## Steps -/

section Steps
variable {d e : Decoder} {seekThd : Nat}

theorem Going.step {a : Answers} {error polled some_ : Bool} {r : Running} (going : Going d)
    (orderly : Orderly d (.active .output a error polled some_ r)) :
    Calm (processActive seekThd d .output a error polled some_ r) ∧
      Settled (processActive seekThd d .output a error polled some_ r) := by
  obtain ⟨registers, off, rfl, plain⟩ := orderly
  have finish := going.isDecoderOutputFinish seekThd registers off
  have before : (d.get .output).ending = false := going.before
  unfold processActive checkV4l2Ready isV4l2End
  rw [before]
  cases result : Decoding.isDecoderOutputFinish seekThd d a with
  | mk e isEnd =>
    rw [result] at finish
    cases isEnd with
    | true =>
      obtain ⟨calm, drained, pending⟩ := finish
      exact ⟨⟨calm.unregistered, calm.eos, calm.last, calm.stopped, fun _ => ⟨drained, pending⟩⟩, fun _ => nofun⟩
    | false =>
      have checked : Going (Decoding.checkV4l2Events e polled) := Going.checkV4l2Events finish polled
      have run : Going (if !(Decoding.checkV4l2Events e polled).output.seek && some_ then
          Decoding.runV4l2 (Decoding.checkV4l2Events e polled) r .output else Decoding.checkV4l2Events e polled) := by
        split_ifs
        · exact checked.runV4l2 plain
        · exact checked
      refine ⟨run.toCalm, fun over_ => ?_⟩
      rcases over_ with over_ | over_
      · cases run.before.symm.trans over_
      · cases run.stays.symm.trans over_

theorem Calm.capture {a : Answers} {error polled some_ : Bool} {r : Running} (calm : Calm d) (settled : Settled d)
    (active : d.capture.state = .ACTIVE) (orderly : Orderly d (.active .capture a error polled some_ r)) :
    Calm (processActive seekThd d .capture a error polled some_ r) ∧
      Settled (processActive seekThd d .capture a error polled some_ r) := by
  obtain ⟨rfl, plain⟩ := orderly
  have registered (free : d.registered = false) : False := by
    have stopped := calm.unregistered free
    rw [active] at stopped
    cases stopped
  have leaves (ending : Bool) (last : ending = true → Drained d ∨ Pending d) :
      Calm { d with capture := { d.capture with ending, state := .STOPPING } } :=
    ⟨fun free => (registered free).elim, fun free => (registered free).elim, last, nofun, calm.over_⟩
  have goes (ending : Bool) (frameCount : Nat) (last : ending = true → Drained d ∨ Pending d) :
      Calm { d with capture := { d.capture with ending, frameCount } } :=
    ⟨fun free => (registered free).elim, fun free => (registered free).elim, last,
      fun stopped => (by rw [active] at stopped; cases stopped), calm.over_⟩
  unfold processActive checkV4l2Ready isV4l2End
  by_cases over_ : (d.get .capture).ending = true
  · rw [if_pos over_]
    exact ⟨leaves d.capture.ending calm.last, settled⟩
  · rw [if_neg over_]
    by_cases exits : d.forceExit = true
    · simp only [exits, Bool.true_or, if_true]
      exact ⟨leaves true fun _ => .inl (calm.over_ (settled (.inr exits))).1, settled⟩
    · have ran : Calm (Decoding.runV4l2 d r .capture) ∧ Settled (Decoding.runV4l2 d r .capture) := by
        unfold Decoding.runV4l2
        cases same : r.dequeued with
        | nothing => exact ⟨calm, settled⟩
        | ended => exact ⟨goes true d.capture.frameCount fun _ => plain (same ▸ trivial), settled⟩
        | frame counted last =>
          refine ⟨goes _ _ fun ending => ?_, settled⟩
          rcases Bool.or_eq_true_iff.mp ending with before | now
          · exact absurd before over_
          · exact plain (same ▸ now)
      simp only [exits, Bool.false_or, Bool.false_eq_true, if_false]
      split_ifs
      · exact ran
      · exact ⟨calm, settled⟩

theorem Calm.step {l : Label} (calm : Calm d) (settled : Settled d) (step : Step seekThd d l e) (orderly : Orderly d l) :
    Calm e ∧ Settled e := by
  cases l with
  | raise event =>
    obtain rfl := Option.some.inj step
    refine ⟨⟨calm.unregistered, fun free told => ?_, calm.last, calm.stopped, calm.over_⟩, settled⟩
    rcases told with raised | received
    · rcases List.mem_append.mp raised with before | now
      · exact calm.eos free (.inl before)
      · exact orderly (List.mem_singleton.mp now).symm
    · exact calm.eos free (.inr received)
  | interrupt => exact orderly.elim
  | active side a error polled some_ r =>
    obtain ⟨active, same⟩ := Option.ite_none_right_eq_some.mp step
    obtain rfl := Option.some.inj same
    cases side with
    | output =>
      have before : d.output.ending = false := Bool.eq_false_iff.mpr fun ending => settled (.inl ending) active
      have stays : d.forceExit = false := Bool.eq_false_iff.mpr fun exits => settled (.inr exits) active
      exact Going.step ⟨calm, active, before, stays⟩ orderly
    | capture => exact calm.capture settled active orderly
  | stopping side off =>
    obtain ⟨stopping, same⟩ := Option.ite_none_right_eq_some.mp step
    obtain rfl := Option.some.inj same
    obtain rfl : off = true := orderly
    cases side with
    | output =>
      have left : d.output.state ≠ .ACTIVE := by
        change (d.get .output).state ≠ _
        rw [stopping]
        decide
      obtain ⟨drained, pending⟩ := calm.over_ left
      refine ⟨⟨calm.unregistered, fun _ _ => drained.call nofun, fun _ => .inl (drained.call nofun),
        fun _ _ => drained.call nofun, fun _ => ⟨drained.call nofun, pending⟩⟩, fun _ => nofun⟩
    | capture =>
      exact ⟨⟨fun _ => rfl, fun free told => (calm.eos free told).call nofun, nofun, nofun,
        fun left => ⟨(calm.over_ left).1.call nofun, (calm.over_ left).2⟩⟩, settled⟩

end Steps

theorem calm_start : Calm start ∧ Settled start :=
  ⟨⟨fun _ => rfl, fun _ told => (by rcases told with raised | received <;> contradiction), nofun, nofun, nofun⟩,
    fun over_ => (by rcases over_ with ending | exits <;> contradiction)⟩

/-- With such a driver the output leaves only when the source has ended, the driver has been told so and every
change of the resolution that it has told of has been served. -/
theorem finishes_drained {seekThd : Nat} {ls : List Label} {d : Decoder}
    (run : Run (Only (Step seekThd) fun d l _ => Orderly d l) start ls d) (left : d.output.state ≠ .ACTIVE) :
    Drained d ∧ owed d.calls = false := by
  have inv : Told d ∧ Calm d ∧ Settled d := by
    refine @Run.invariant _ _ _ _ _ _ (fun d => Told d ∧ Calm d ∧ Settled d) run ?_ ⟨told_start, calm_start⟩
    exact fun d l e inv step => ⟨inv.1.step step.1, inv.2.1.step inv.2.2 step.1 step.2⟩
  obtain ⟨told, calm, -⟩ := inv
  obtain ⟨drained, pending⟩ := calm.over_ left
  exact ⟨drained, Bool.eq_false_iff.mpr fun owes => pending (told.served owes)⟩

/-- The end is that of the source. -/
theorem finishes_short : ∃ ls d, Run (Only (Step 0) fun d l _ => Orderly d l) start ls d ∧
    d.output.state = .STOPPING ∧ Drained d ∧ owed d.calls = false := by
  have plain {d : Decoder} {sourceEnd : Bool} :
      Orderly d (.active .output { sourceEnd } false true true { frame := some false }) :=
    ⟨rfl, fun _ => rfl, rfl, nofun⟩
  have run : ∃ d, Run (Only (Step 0) fun d l _ => Orderly d l) start
      [.raise .SOURCE_CHANGE, .active .output {} false true true { frame := some false },
        .active .output {} false true true { frame := some false },
        .active .output { sourceEnd := true } false true true { frame := some false },
        .active .capture {} false true true { dequeued := .frame true true },
        .active .output {} false true true { frame := some false }] d ∧ d.output.state = .STOPPING :=
    ⟨_, .next ⟨rfl, nofun⟩ <| .next ⟨rfl, plain⟩ <| .next ⟨rfl, plain⟩ <| .next ⟨rfl, plain⟩ <|
      .next ⟨rfl, rfl, fun _ => .inl (.inl rfl)⟩ <| .next ⟨rfl, plain⟩ (.stay _), rfl⟩
  obtain ⟨d, run, left⟩ := run
  exact ⟨_, d, run, left, finishes_drained run (by rw [left]; decide)⟩

/-- The last buffer in front of a change ends the decoder where it comes before the event is dequeued. -/
example : ([.raise .SOURCE_CHANGE, .active .output {} false true true {}, .active .output {} false false true {},
    .raise .SOURCE_CHANGE, .active .capture {} false false true { dequeued := .frame true true },
    .active .output {} false true true {}].foldlM (step 0) start).map
      (fun d => (d.output.state, phase d.calls, d.raised)) = some (.STOPPING, .on, [.SOURCE_CHANGE]) := rfl

end ImxTest.Nodes.Decoding
