import ImxTest.Nodes.Decoding

/-! What the driver of a decoder is told, over every run of the node. -/
namespace ImxTest.Nodes.Decoding
open Pitcher.Core (ChnState)
open Lib.Runs

/-! ## The calls -/

/-- Where the output is with the driver. -/
inductive Phase where
  | off | on
  /-- behind the stop command -/
  | draining
  /-- behind the STREAMOFF of an output that was draining -/
  | closed
deriving DecidableEq, Repr

def Phase.next : Phase → Call → Phase
  | .on, .stop => .draining
  | _, .start .output .ok => .on
  | .on, .streamoff .output => .off
  | .draining, .streamoff .output => .closed
  | phase, _ => phase

def phase (calls : List Call) : Phase := calls.foldl Phase.next .off

/-- Frames and the stop command are for an output that is on. -/
def Phase.Allows (phase : Phase) (call : Call) : Prop := call = .stop ∨ call = .qbuf → phase = .on

def Legal (calls : List Call) : Prop := ∀ front call back, calls = front ++ call :: back → (phase front).Allows call

/-- Whether there was a change behind the last start of the capture. -/
def Call.owes (owed : Bool) : Call → Bool
  | .dqevent .SOURCE_CHANGE => true
  | .start .capture _ => false
  | _ => owed

def owed (calls : List Call) : Bool := calls.foldl Call.owes false

/-- A change that has been taken is to be seen to. -/
def Pending (d : Decoder) : Prop := d.output.resolutionChange = true ∨ d.capture.resolutionChange = true

section Calls
variable {calls : List Call} {c : Call}

theorem phase_append : phase (calls ++ [c]) = (phase calls).next c := List.foldl_append ..

theorem legal_nil : Legal [] := by
  intro front call back split
  cases front <;> cases split

theorem Legal.append (legal : Legal calls) (allows : (phase calls).Allows c) : Legal (calls ++ [c]) := by
  intro front call back split
  rcases List.eq_nil_or_concat back with rfl | ⟨back, last, rfl⟩
  · obtain ⟨rfl, same⟩ := List.append_inj' split rfl
    obtain ⟨rfl, -⟩ := List.cons.inj same
    exact allows
  · rw [List.concat_eq_append, ← List.cons_append, ← List.append_assoc] at split
    exact legal front call back (List.append_inj' split rfl).1

theorem owed_append : owed (calls ++ [c]) = c.owes (owed calls) := List.foldl_append ..

/-- The calls that may come at any time. -/
theorem Legal.free (legal : Legal calls) (stop : c ≠ .stop) (qbuf : c ≠ .qbuf) : Legal (calls ++ [c]) :=
  legal.append fun either => absurd either (not_or.mpr ⟨stop, qbuf⟩)

end Calls

/-- What the driver has been told fits what the component thinks. -/
structure Told (d : Decoder) : Prop where
  legal : Legal d.calls
  streaming : d.output.enable = true → phase d.calls = .on
  served : owed d.calls = true → Pending d

section Told
variable {d e : Decoder}

theorem Told.same (told : Told d) (calls : e.calls = d.calls)
    (enable : e.output.enable = true → d.output.enable = true) (pending : Pending d → Pending e) : Told e where
  legal := calls ▸ told.legal
  streaming on := calls ▸ told.streaming (enable on)
  served owes := pending (told.served (calls ▸ owes))

theorem Told.startV4l2 (told : Told d) (side : Side) (started : Started) : Told (startV4l2 d side started) := by
  have legal : Legal (d.calls ++ [.start side started]) := told.legal.free nofun nofun
  cases side with
  | output =>
    have served (owes : owed (d.calls ++ [.start .output started]) = true) : Pending d := by
      rw [owed_append] at owes
      exact told.served owes
    cases started with
    | refused =>
      refine ⟨legal, fun on => ?_, served⟩
      change phase (d.calls ++ [_]) = _
      rw [phase_append, told.streaming on]
      rfl
    | offline => exact ⟨legal, nofun, served⟩
    | ok =>
      refine ⟨legal, fun _ => ?_, served⟩
      change phase (d.calls ++ [_]) = _
      rw [phase_append]
      cases phase d.calls <;> rfl
  | capture =>
    have served (owes : owed (d.calls ++ [.start .capture started]) = true) : Pending d := by
      rw [owed_append] at owes
      cases owes
    have streaming (on : d.output.enable = true) : phase (d.calls ++ [.start .capture started]) = .on := by
      rw [phase_append, told.streaming on]
      rfl
    cases started <;> exact ⟨legal, streaming, served⟩

theorem Told.stopV4l2 (told : Told d) (side : Side) (off : Bool) : Told (stopV4l2 d side off) := by
  unfold Decoding.stopV4l2
  split_ifs
  · have legal : Legal (d.calls ++ [.streamoff side]) := told.legal.free nofun nofun
    have served (owes : owed (d.calls ++ [.streamoff side]) = true) : Pending d := by
      rw [owed_append] at owes
      exact told.served owes
    cases side with
    | output => exact ⟨legal, nofun, served⟩
    | capture =>
      refine ⟨legal, fun on => ?_, served⟩
      change phase (d.calls ++ [_]) = _
      rw [phase_append, told.streaming on]
      rfl
  · exact told

theorem Told.checkV4l2Events (told : Told d) (polled : Bool) : Told (checkV4l2Events d polled) := by
  unfold Decoding.checkV4l2Events
  split
  · exact told
  · rename_i event raised _
    split_ifs
    · have legal : Legal (d.calls ++ [.dqevent event]) := told.legal.free nofun nofun
      have streaming (on : d.output.enable = true) : phase (d.calls ++ [.dqevent event]) = .on := by
        rw [phase_append, told.streaming on]
        rfl
      cases event with
      | SOURCE_CHANGE => exact ⟨legal, streaming, fun _ => .inl rfl⟩
      | EOS | other =>
        refine ⟨legal, streaming, fun owes => told.served ?_⟩
        exact owed_append.symm.trans owes
    · exact told

theorem Told.flushDec (told : Told d) : Told (flushDec d) := by
  unfold Decoding.flushDec
  split_ifs with on
  · refine ⟨told.legal.append fun _ => told.streaming on, nofun, fun owes => told.served ?_⟩
    exact owed_append.symm.trans owes
  · exact told

theorem Told.takeEos (told : Told d) : Told (takeEos d) := by
  unfold Decoding.takeEos
  split_ifs
  · exact told.same rfl id id
  · exact told.same rfl id id
  · exact told

theorem Told.takeChange (told : Told d) : Told (takeChange d) := by
  unfold Decoding.takeChange
  split_ifs
  · exact told.same rfl id fun _ => .inr rfl
  · exact told

/-- A start of a stopped capture changes nothing else. -/
theorem startChn_capture (stopped : d.capture.state = .STOPPED) (started : Started) :
    ∃ enable state, startChn d .capture started =
      { d with
        capture := { d.capture with enable, state }
        calls := d.calls ++ [.start .capture started] } := by
  unfold startChn
  rw [if_neg (by change ¬ d.capture.state = _; rw [stopped]; decide)]
  cases started
  · exact ⟨d.capture.enable, d.capture.state, rfl⟩
  · exact ⟨false, d.capture.state, rfl⟩
  · exact ⟨true, .ACTIVE, rfl⟩

theorem Told.handleDecoderResolutionChange (told : Told d) (a : Answers) :
    Told (handleDecoderResolutionChange d a).1 := by
  unfold Decoding.handleDecoderResolutionChange
  dsimp only
  split_ifs with none_ fails stopped
  · exact told
  · exact told
  · obtain ⟨enable, state, started⟩ := @startChn_capture { d with registered := true } stopped a.started
    rw [started]
    refine ⟨told.legal.free nofun nofun, fun on => ?_, fun owes => ?_⟩
    · change phase (d.calls ++ [_]) = _
      rw [phase_append, told.streaming on]
      rfl
    · change owed (d.calls ++ [_]) = true at owes
      rw [owed_append] at owes
      cases owes
  · exact told.same rfl id id

theorem Told.seekDecoder (told : Told d) (seekThd : Nat) (a : Answers) : Told (seekDecoder seekThd d a) := by
  unfold Decoding.seekDecoder
  split_ifs
  · exact told
  · exact told
  · have sought : Told { d with output := { d.output with seek := false } } := told.same rfl id id
    exact (((sought.stopV4l2 .output _).stopV4l2 .capture _).startV4l2 .capture _).startV4l2 .output _

theorem Told.isDecoderOutputFinish (told : Told d) (seekThd : Nat) (a : Answers) :
    Told (isDecoderOutputFinish seekThd d a).1 := by
  have flushed : Told (if a.sourceEnd then Decoding.flushDec d else d) := by
    split_ifs
    · exact told.flushDec
    · exact told
  have finish {e : Decoder} (sought : Told e) (failed : Bool) :
      Told (if e.forceExit || e.capture.ending && !e.capture.resolutionChange then
        ({ e with forceExit := e.forceExit || e.output.frameCount = 0 }, true) else (e, failed)).1 := by
    split_ifs
    · exact sought.same rfl id id
    · exact sought
  exact finish ((flushed.takeEos.takeChange.handleDecoderResolutionChange a).seekDecoder seekThd a) _

theorem Told.ending (told : Told d) (side : Side) : Told (d.put { d.get side with ending := true } side) := by
  cases side <;> exact told.same rfl id id

theorem Told.isV4l2End (told : Told d) (seekThd : Nat) (side : Side) (a : Answers) (error : Bool) :
    Told (isV4l2End seekThd d side a error).1 := by
  unfold Decoding.isV4l2End
  split_ifs with done
  · exact told
  · cases side
    · have finished := told.isDecoderOutputFinish seekThd a
      dsimp only
      split_ifs
      · exact finished.ending .output
      · exact finished
    · dsimp only
      split_ifs
      · exact told.ending .capture
      · exact told

theorem Told.checkV4l2Ready (told : Told d) (seekThd : Nat) (side : Side) (a : Answers) (error polled some_ : Bool) :
    Told (checkV4l2Ready seekThd d side a error polled some_).1 := by
  have checked := told.isV4l2End seekThd side a error
  unfold Decoding.checkV4l2Ready
  split
  · rename_i same
    rw [same] at checked
    exact checked
  · rename_i same
    rw [same] at checked
    cases side
    · exact checked.checkV4l2Events polled
    · exact checked

theorem Told.runV4l2Output (told : Told d) (polled seek : Bool) (attempt : Attempt) :
    Told (runV4l2Output d polled seek attempt).1 := by
  have checked := told.checkV4l2Events polled
  cases attempt with
  | empty => exact checked
  | noRoom => exact checked
  | sent transferred queued =>
    unfold Decoding.runV4l2Output
    dsimp only
    split_ifs with queues
    · have on := checked.streaming (Bool.and_eq_true_iff.mp queues).1
      refine ⟨checked.legal.append fun _ => on, fun _ => ?_, fun owes => checked.served ?_⟩
      · change phase (_ ++ [_]) = _
        rw [phase_append, on]
        rfl
      · exact owed_append.symm.trans owes
    · exact checked.same rfl id id

theorem Told.dequeue (told : Told d) (side : Side) (dequeued : Dequeued) : Told (dequeue d side dequeued) := by
  cases dequeued with
  | nothing => exact told
  | ended => exact told.ending side
  | frame => cases side <;> exact told.same rfl id id

theorem Told.runV4l2 (told : Told d) (r : Running) (side : Side) : Told (runV4l2 d r side) := by
  cases side with
  | capture => exact told.dequeue .capture r.dequeued
  | output =>
    unfold Decoding.runV4l2
    dsimp only
    split
    · exact told.dequeue .output r.dequeued
    · rename_i seek _
      have first := (told.runV4l2Output r.polled.1 seek r.attempts.1).dequeue .output r.dequeued
      split
      · split_ifs
        · exact first
        · exact first.runV4l2Output r.polled.2 seek r.attempts.2
      · exact first

theorem Told.state (told : Told d) (side : Side) (state : ChnState) : Told (d.put { d.get side with state } side) := by
  cases side <;> exact told.same rfl id id

theorem Told.processActive (told : Told d) (seekThd : Nat) (side : Side) (a : Answers) (error polled some_ : Bool)
    (r : Running) : Told (processActive seekThd d side a error polled some_ r) := by
  have checked := told.checkV4l2Ready seekThd side a error polled some_
  unfold Decoding.processActive
  dsimp only
  split_ifs
  · exact (checked.runV4l2 r side).state side .STOPPING
  · exact checked.state side .STOPPING
  · exact checked.runV4l2 r side
  · exact checked

theorem Told.step {seekThd : Nat} {l : Label} (told : Told d) (step : Step seekThd d l e) : Told e := by
  cases l with
  | raise event =>
    obtain rfl := Option.some.inj step
    exact told.same rfl id id
  | interrupt =>
    obtain rfl := Option.some.inj step
    exact told.same rfl id id
  | active side a error polled some_ r =>
    obtain ⟨-, same⟩ := Option.ite_none_right_eq_some.mp step
    obtain rfl := Option.some.inj same
    exact told.processActive seekThd side a error polled some_ r
  | stopping side off =>
    obtain ⟨-, same⟩ := Option.ite_none_right_eq_some.mp step
    obtain rfl := Option.some.inj same
    exact (told.stopV4l2 side off).state side .STOPPED

end Told

theorem told_start : Told start := by
  refine ⟨?_, fun _ => rfl, nofun⟩
  exact legal_nil.free nofun nofun

end ImxTest.Nodes.Decoding
