import ImxTest.Pitcher.Core
import ImxTest.Lib.Runs

/-! The decoder of mxc_v4l2_vpu_enc.c between its two components: what the callbacks make of the events
of the driver, of changes of the resolution, of a seek and of the end of the source. Where the buffers
are is left to the components. -/
namespace ImxTest.Nodes.Decoding
open Pitcher.Core (ChnState)

inductive Side where
  | output | capture
deriving DecidableEq, Repr

inductive Event where
  | EOS | SOURCE_CHANGE | other
deriving DecidableEq, Repr

/-- How `start_v4l2` comes out: it fails in front of `enable`, at STREAMON, or not. -/
inductive Started where
  | refused | offline | ok
deriving DecidableEq, Repr

/-- What the driver is told and asked, where it does it. -/
inductive Call where
  /-- `V4L2_DEC_CMD_STOP`, also where the driver fails it -/
  | stop
  /-- `VIDIOC_QBUF` at the output -/
  | qbuf
  | dqevent (event : Event)
  /-- what `start_v4l2` asks, up to STREAMON -/
  | start (side : Side) (started : Started)
  | streamoff (side : Side)
deriving DecidableEq, Repr

/-- A `struct v4l2_component_t` with the state of its channel. -/
structure Component where
  state : ChnState := .STOPPED
  enable : Bool := false
  /-- `end` -/
  ending : Bool := false
  seek : Bool := false
  eosReceived : Bool := false
  resolutionChange : Bool := false
  frameCount : Nat := 0
deriving DecidableEq, Repr

structure Decoder where
  output : Component := {}
  capture : Component := {}
  /-- The capture has a `chnno`. -/
  registered : Bool := false
  forceExit : Bool := false
  /-- The events that have not been dequeued. -/
  raised : List Event := []
  calls : List Call := []
deriving DecidableEq, Repr

namespace Decoder

def get (d : Decoder) : Side → Component
  | .output => d.output
  | .capture => d.capture

def put (d : Decoder) (c : Component) : Side → Decoder
  | .output => { d with output := c }
  | .capture => { d with capture := c }

def call (d : Decoder) (c : Call) : Decoder := { d with calls := d.calls ++ [c] }

end Decoder

/-! ## A component -/

def startV4l2 (d : Decoder) (side : Side) (started : Started) : Decoder :=
  let d := d.call (.start side started)
  match started with
  | .refused => d
  | .offline => d.put { d.get side with enable := false } side
  | .ok => d.put { d.get side with enable := true } side

/-- The stop, which goes no further where STREAMOFF fails. -/
def stopV4l2 (d : Decoder) (side : Side) (off : Bool) : Decoder :=
  if off then (d.call (.streamoff side)).put { d.get side with enable := false, ending := false } side
  else d

/-- `pitcher_start_chn`, whose result is always 0. -/
def startChn (d : Decoder) (side : Side) (started : Started) : Decoder :=
  if (d.get side).state = .ACTIVE then d
  else
    let d := startV4l2 d side started
    if started = .ok then d.put { d.get side with state := .ACTIVE } side else d

/-- At most one event, where `polled` says that there is POLLPRI and VIDIOC_DQEVENT works. -/
def checkV4l2Events (d : Decoder) (polled : Bool) : Decoder :=
  match d.raised with
  | [] => d
  | event :: raised =>
    if polled then
      let d := { d with raised }.call (.dqevent event)
      match event with
      | .EOS => { d with output := { d.output with eosReceived := true } }
      | .SOURCE_CHANGE => { d with output := { d.output with resolutionChange := true } }
      | .other => d
    else d

/-! ## The node -/

def flushDec (d : Decoder) : Decoder :=
  if d.output.enable then { d.call .stop with output := { d.output with enable := false } } else d

/-- The answers that `is_decoder_output_finish` gets. -/
structure Answers where
  sourceEnd : Bool := false
  /-- The capture gets a channel. -/
  registers : Bool := true
  started : Started := .ok
  seekOff : Side → Bool := fun _ => true
  seekStarted : Side → Started := fun _ => .ok

def takeEos (d : Decoder) : Decoder :=
  if d.output.eosReceived then
    { d with
      output := { d.output with eosReceived := false }
      capture := if d.registered then { d.capture with eosReceived := true } else { d.capture with ending := true } }
  else d

def takeChange (d : Decoder) : Decoder :=
  if d.output.resolutionChange then
    { d with
      output := { d.output with resolutionChange := false }
      capture := { d.capture with resolutionChange := true } }
  else d

/-- The second part says whether it fails. -/
def handleDecoderResolutionChange (d : Decoder) (a : Answers) : Decoder × Bool :=
  if !d.capture.resolutionChange then (d, false)
  else if !d.registered && !a.registers then (d, true)
  else
    let d := { d with registered := true }
    if d.capture.state = .STOPPED then
      let d := startChn d .capture a.started
      ({ d with capture := { d.capture with resolutionChange := false } }, false)
    else ({ d with capture := { d.capture with ending := true } }, false)

def seekDecoder (seekThd : Nat) (d : Decoder) (a : Answers) : Decoder :=
  if !d.output.seek then d
  else if d.capture.state ≠ .ACTIVE ∨ d.capture.frameCount < seekThd then d
  else
    let d := { d with output := { d.output with seek := false } }
    let d := stopV4l2 d .output (a.seekOff .output)
    let d := stopV4l2 d .capture (a.seekOff .capture)
    let d := startV4l2 d .capture (a.seekStarted .capture)
    startV4l2 d .output (a.seekStarted .output)

def isDecoderOutputFinish (seekThd : Nat) (d : Decoder) (a : Answers) : Decoder × Bool :=
  let d := if a.sourceEnd then flushDec d else d
  let d := takeChange (takeEos d)
  let (d, failed) := handleDecoderResolutionChange d a
  let d := seekDecoder seekThd d a
  if d.forceExit || d.capture.ending && !d.capture.resolutionChange then
    ({ d with forceExit := d.forceExit || d.output.frameCount = 0 }, true)
  else (d, failed)

/-- `__is_v4l2_end`; `error` is that of the channel. -/
def isV4l2End (seekThd : Nat) (d : Decoder) (side : Side) (a : Answers) (error : Bool) : Decoder × Bool :=
  if (d.get side).ending then (d, true)
  else
    let (d, finish) := match side with
      | .output => isDecoderOutputFinish seekThd d a
      | .capture => (d, d.forceExit)
    if finish || error then (d.put { d.get side with ending := true } side, true) else (d, false)

/-- Whether it is the end, and whether the component is ready; `some_` says that a buffer of it is free or
its file can be read or written. -/
def checkV4l2Ready (seekThd : Nat) (d : Decoder) (side : Side) (a : Answers) (error polled some_ : Bool) :
    Decoder × Bool × Bool :=
  match isV4l2End seekThd d side a error with
  | (d, true) => (d, true, false)
  | (d, false) =>
    match side with
    | .output =>
      let d := checkV4l2Events d polled
      (d, false, !d.output.seek && some_)
    | .capture => (d, false, d.capture.eosReceived || some_)

/-! ## Buffers -/

/-- What `__run_v4l2_output` comes to with a frame: it has no data, no buffer is handed on, or one is, whether
or not the data has got into it and the driver takes it. -/
inductive Attempt where
  | empty
  | noRoom
  | sent (transferred queued : Bool)
deriving DecidableEq, Repr

inductive Dequeued where
  | nothing
  /-- EPIPE, or another error behind the end -/
  | ended
  | frame (counted last : Bool)
deriving DecidableEq, Repr

/-- What `run_v4l2` is given and what comes of it. -/
structure Running where
  /-- There is a frame, and whether it has `PITCHER_BUFFER_FLAG_SEEK`. -/
  frame : Option Bool := none
  polled : Bool × Bool := (false, false)
  attempts : Attempt × Attempt := (.noRoom, .noRoom)
  dequeued : Dequeued := .nothing

/-- The second part says whether the frame is done with. -/
def runV4l2Output (d : Decoder) (polled : Bool) (seek : Bool) : Attempt → Decoder × Bool
  | .empty => (checkV4l2Events d polled, true)
  | .noRoom => (checkV4l2Events d polled, false)
  | .sent transferred queued =>
    let d := checkV4l2Events d polled
    let d := if d.output.enable && queued then
        { d.call .qbuf with output := { d.output with frameCount := d.output.frameCount + 1 } }
      else d
    ({ d with output := { d.output with seek := d.output.seek || seek } }, transferred)

/-- Only a frame of the capture can be the last one. -/
def dequeue (d : Decoder) (side : Side) : Dequeued → Decoder
  | .nothing => d
  | .ended => d.put { d.get side with ending := true } side
  | .frame counted last =>
    match side with
    | .output => d
    | .capture =>
      { d with capture := { d.capture with
          ending := d.capture.ending || last
          frameCount := d.capture.frameCount + if counted then 1 else 0 } }

def runV4l2 (d : Decoder) (r : Running) : Side → Decoder
  | .capture => dequeue d .capture r.dequeued
  | .output =>
    match r.frame with
    | none => dequeue d .output r.dequeued
    | some seek =>
      let (d, done) := runV4l2Output d r.polled.1 seek r.attempts.1
      let d := dequeue d .output r.dequeued
      match r.dequeued with
      | .frame _ _ => if done then d else (runV4l2Output d r.polled.2 seek r.attempts.2).1
      | _ => d

/-! ## Steps -/

inductive Label where
  | raise (event : Event)
  | interrupt
  /-- `__process_chn_active` -/
  | active (side : Side) (a : Answers) (error polled some_ : Bool) (r : Running)
  /-- `__process_chn_stopping` with no sink alive -/
  | stopping (side : Side) (off : Bool)

def processActive (seekThd : Nat) (d : Decoder) (side : Side) (a : Answers) (error polled some_ : Bool)
    (r : Running) : Decoder :=
  let (d, isEnd, ready) := checkV4l2Ready seekThd d side a error polled some_
  let d := if ready then runV4l2 d r side else d
  if isEnd then d.put { d.get side with state := .STOPPING } side else d

def processStopping (d : Decoder) (side : Side) (off : Bool) : Decoder :=
  let d := stopV4l2 d side off
  d.put { d.get side with state := .STOPPED } side

def step (seekThd : Nat) (d : Decoder) : Label → Option Decoder
  | .raise event => some { d with raised := d.raised ++ [event] }
  | .interrupt => some { d with forceExit := true }
  | .active side a error polled some_ r =>
    if (d.get side).state = .ACTIVE then some (processActive seekThd d side a error polled some_ r) else none
  | .stopping side off =>
    if (d.get side).state = .STOPPING then some (processStopping d side off) else none

def Step (seekThd : Nat) (d : Decoder) (l : Label) (e : Decoder) : Prop := step seekThd d l = some e

/-- The program has started the output. -/
def start : Decoder := startChn {} .output .ok

end ImxTest.Nodes.Decoding
