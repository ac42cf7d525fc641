import ImxTest.Pitcher.Core
import ImxTest.Lib.Runs

/-! The states of channels in pitcher/core.c: timer sweeps, poll callbacks, what the
callbacks of a unit push and what a pipe makes of it. The calls that have not
returned are the frames of a stack, the innermost one first. -/
namespace ImxTest.Pitcher.Schedule
open Core (ChnState)

/-- A buffer in a pipe, and whether it has `PITCHER_BUFFER_FLAG_LAST`. -/
structure Buffer where
  tag : Nat
  last : Bool := false
deriving DecidableEq, Repr

/-- The two ends of a pipe. -/
structure Link where
  src : Nat
  dst : Nat
deriving DecidableEq, Repr

/-- The channels of a context in the order of registration and its pipes in the order
they were made, which are a forest. -/
structure Context where
  chns : List Nat
  pipes : List Link
  /-- The channels whose callbacks are those of an output file, which is open. -/
  ofile : Nat → Bool
  inside : ∀ pipe ∈ pipes, pipe.src ∈ chns ∧ pipe.dst ∈ chns
  single : (pipes.map (·.dst)).Nodup
  deeper : ∃ depth : Nat → Nat, ∀ pipe ∈ pipes, depth pipe.src < depth pipe.dst

/-- The pipes in `outs` of a unit, which has room for 16. -/
def Context.outs (ctx : Context) (c : Nat) : List Nat :=
  ((ctx.pipes.filter (·.src = c)).map (·.dst)).take 16

/-- A channel with its unit and the queue of the pipe to it. `fin` is `file->end` of an
output file. What the channel pushed and what its `runfunc` was given is kept too. -/
structure Chn where
  state : ChnState := .STOPPED
  enable : Bool := false
  fin : Bool := false
  input : List Buffer := []
  pushed : List Buffer := []
  handed : List Buffer := []
deriving DecidableEq, Repr

/-- A call that has not returned. -/
inductive Frame where
  /-- `__timer_func`: the channels to come and how many were not stopped -/
  | timer (rest : List Nat) (count : Nat)
  /-- `__run_chn` behind `__process_chn_run` -/
  | ran (c : Nat) (rest : List Nat) (count : Nat)
  /-- `__process_chn_run` -/
  | run (c : Nat)
  /-- `__process_chn_active` in `check_ready` -/
  | check (c : Nat)
  /-- and in `runfunc` -/
  | body (c : Nat) (isEnd : Bool)
  /-- `pitcher_unit_push_back_output`: the sinks that have not got the buffer -/
  | push (c : Nat) (buffer : Buffer) (outs : List Nat)
deriving DecidableEq, Repr

structure Machine where
  chn : Nat → Chn
  stack : List Frame := []
  running : Bool := true

/-! ## The functions -/

def getSource (ctx : Context) (c : Nat) : Option Nat :=
  ctx.pipes.foldl (fun found pipe => if pipe.dst = c then some pipe.src else found) none

def getAliveSink (ctx : Context) (chn : Nat → Chn) (c : Nat) : Option Nat :=
  ctx.pipes.foldl
    (fun found pipe => if pipe.src = c ∧ (chn pipe.dst).state ≠ .STOPPED then some pipe.dst else found)
    none

def isSourceEnd (ctx : Context) (chn : Nat → Chn) (c : Nat) : Bool :=
  if (chn c).input ≠ [] then false
  else
    match getSource ctx c with
    | none => true
    | some source => decide ((chn source).state ≠ .ACTIVE)

/-- What starting makes of a channel; `ofile_start` clears `file->end`. -/
def Chn.started (chn : Chn) : Chn := { chn with state := .ACTIVE, enable := true, fin := false }

/-- `pitcher_start_chn`. `ok` says whether the unit starts; that of an output file does. -/
def startChn (ctx : Context) (chn : Nat → Chn) (c : Nat) (ok : Bool) : Nat → Chn :=
  if (chn c).state = .ACTIVE then chn
  else if ok || ctx.ofile c then Function.update chn c (chn c).started
  else chn

/-- `pitcher_unit_stop`, which leaves the unit as it is when its callback fails. -/
def unitStop (chn : Chn) (ok : Bool) : Chn :=
  if ok then { chn with enable := false, input := [] } else chn

/-- `__stop_chn` -/
def stopChn (ctx : Context) (chn : Nat → Chn) (c : Nat) (ok : Bool) : Nat → Chn :=
  if (chn c).state = .STOPPED then chn
  else Function.update chn c { unitStop (chn c) (ok || ctx.ofile c) with state := .STOPPED }

/-- `__start_sink_chn` over the pipes. -/
def startSinks (ctx : Context) (chn : Nat → Chn) (c : Nat) (ok : Nat → Bool) : Nat → Chn :=
  ctx.pipes.foldl
    (fun chn pipe =>
      if pipe.src = c ∧ (chn pipe.dst).state = .STOPPED then startChn ctx chn pipe.dst (ok pipe.dst)
      else chn)
    chn

def processChnStopping (ctx : Context) (chn : Nat → Chn) (c : Nat) (ok : Bool) : Nat → Chn :=
  match getAliveSink ctx chn c with
  | some _ => chn
  | none => Function.update chn c { unitStop (chn c) (ok || ctx.ofile c) with state := .STOPPED }

/-- The rest of `__process_chn_active`. -/
def leave (chn : Nat → Chn) (c : Nat) (isEnd : Bool) : Nat → Chn :=
  if isEnd then Function.update chn c { chn c with state := .STOPPING } else chn

/-- `pitcher_unit_run` up to the call of `runfunc`. -/
def pop (chn : Chn) : Chn :=
  match chn.input with
  | [] => chn
  | buffer :: input => { chn with input, handed := chn.handed ++ [buffer] }

/-- What `ofile_run` does to its file: it ends with the last buffer. -/
def ofileRun (chn : Chn) : Chn :=
  { pop chn with fin := chn.fin || chn.input.head?.any (·.last) }

/-- `file->end` at the end of `ofile_checkready`. -/
def ofileEnd (ctx : Context) (chn : Nat → Chn) (c : Nat) (forceExit : Bool) : Bool :=
  (chn c).fin || forceExit || isSourceEnd ctx chn c

/-- `pitcher_start` of a context whose channels are all stopped. -/
def pitcherStart (ctx : Context) (starts stops : Nat → Bool) : Machine :=
  let chn := ctx.chns.foldl (fun chn c => startChn ctx chn c (starts c)) fun _ => {}
  if ctx.chns.all fun c => (chn c).state = .ACTIVE then { chn }
  else { chn := ctx.chns.foldl (fun chn c => stopChn ctx chn c (stops c)) chn }

/-! ## Steps -/

inductive Event where
  /-- `__timer_func` is called. -/
  | timer
  /-- `__poll_func` is called for a channel, with an event it waits for. -/
  | poll (c : Nat)
  /-- The innermost call goes on. `ok` is what a `stop` callback returns. -/
  | proceed (ok : Bool)
  /-- The innermost pipe skips the buffer. -/
  | skip
  /-- `check_ready` returns. -/
  | checked (ready isEnd : Bool)
  /-- `ofile_checkready` returns, and `ofile_run` with it. -/
  | ofile (forceExit : Bool)
  /-- A callback calls `pitcher_push_back_output` for its own channel. -/
  | push (buffer : Buffer) (ok : Nat → Bool)
  /-- A callback calls `pitcher_start_chn`. -/
  | start (c : Nat) (ok : Bool)
  /-- `runfunc` returns. -/
  | ret

/-- The channel whose callback the innermost call is. -/
def caller : List Frame → Option Nat
  | .check c :: _ => some c
  | .body c _ :: _ => some c
  | _ => none

def proceed (ctx : Context) (m : Machine) (ok : Bool) : Option Machine :=
  match m.stack with
  | .timer [] count :: stack => some { m with stack, running := m.running && decide (count ≠ 0) }
  | .timer (c :: rest) count :: stack =>
    if (m.chn c).state = .STOPPED then some { m with stack := .timer rest count :: stack }
    else some { m with stack := .run c :: .ran c rest count :: stack }
  | .ran c rest count :: stack =>
    let count := if (m.chn c).state = .STOPPED then count else count + 1
    some { m with stack := .timer rest count :: stack }
  | .run c :: stack =>
    match (m.chn c).state with
    | .ACTIVE => some { m with stack := .check c :: stack }
    | .STOPPING => some { m with chn := processChnStopping ctx m.chn c ok, stack }
    | .STOPPED => some { m with stack }
  | .push _ _ [] :: stack => some { m with stack }
  | .push c buffer (d :: outs) :: stack =>
    let sink := m.chn d
    some { m with
      chn := Function.update m.chn d { sink with input := sink.input ++ [buffer] }
      stack := .run d :: .push c buffer outs :: stack }
  | _ => none

def step (ctx : Context) (m : Machine) : Event → Option Machine
  | .timer =>
    if m.stack = [] ∧ m.running then some { m with stack := [.timer ctx.chns 0] } else none
  | .poll c => if m.stack = [] then some { m with stack := [.run c] } else none
  | .proceed ok => proceed ctx m ok
  | .skip =>
    match m.stack with
    | .push c buffer (_ :: outs) :: stack => some { m with stack := .push c buffer outs :: stack }
    | _ => none
  | .checked ready isEnd =>
    match m.stack with
    | .check c :: stack =>
      if ctx.ofile c then none
      else if ready ∧ (m.chn c).enable then
        some { m with
          chn := Function.update m.chn c (pop (m.chn c)), stack := .body c isEnd :: stack }
      else some { m with chn := leave m.chn c isEnd, stack }
    | _ => none
  | .ofile forceExit =>
    match m.stack with
    | .check c :: stack =>
      if !ctx.ofile c then none
      else
        let fin := ofileEnd ctx m.chn c forceExit
        if (m.chn c).enable then
          some { m with
            chn := Function.update m.chn c (ofileRun { m.chn c with fin })
            stack := .body c fin :: stack }
        else
          some { m with chn := leave (Function.update m.chn c { m.chn c with fin }) c fin, stack }
    | _ => none
  | .push buffer ok =>
    match caller m.stack with
    | none => none
    | some c =>
      if ctx.ofile c then none
      else
        let chn := startSinks ctx m.chn c ok
        some { m with
          chn := Function.update chn c { chn c with pushed := (chn c).pushed ++ [buffer] }
          stack := .push c buffer (ctx.outs c) :: m.stack }
  | .start d ok =>
    match caller m.stack with
    | none => none
    | some c => if ctx.ofile c then none else some { m with chn := startChn ctx m.chn d ok }
  | .ret =>
    match m.stack with
    | .body c isEnd :: stack => some { m with chn := leave m.chn c isEnd, stack }
    | _ => none

def Step (ctx : Context) (m : Machine) (event : Event) (t : Machine) : Prop := step ctx m event = some t

end ImxTest.Pitcher.Schedule
