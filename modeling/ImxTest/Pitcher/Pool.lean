import ImxTest.Lib.Runs
import ImxTest.Pitcher.Core
import Mathlib.Data.Finset.Basic

/-! The buffer pool of a unit that allocates one: its idle queue, the references to its
buffers that are elsewhere, and the channel's ways to stop. -/
namespace ImxTest.Pitcher.Pool
open Core Lib.Runs

/-- Where a reference is besides the idle queue. -/
inductive Holder where
  /-- The unit itself, while it runs. -/
  | unit
  /-- The pipe to a sink. -/
  | pipe (chnno : Nat)
  /-- The unit of a sink. -/
  | sink (chnno : Nat)
deriving DecidableEq, Repr

/-- Whose recycle callback the buffers have. -/
inductive Component where
  | ifile | parser | convert
deriving DecidableEq, Repr

structure World where
  /-- What is registered under the channel's number. -/
  state : ChnState := .STOPPED
  enable : Bool := false
  bufferCount : Nat := 0
  /-- `end` of the component. -/
  fin : Bool := false
  idles : List Nat := []
  refcount : Nat → Nat := fun _ => 0
  refs : List (Holder × Nat) := []
  /-- The buffers in the order in which they were freed. -/
  deleted : List Nat := []
  allocs : Nat := 0
  /-- The sinks that are not stopped. -/
  alive : Finset Nat := ∅

variable (c : Component) (w : World) (b : Nat) (memory : Bool)

/-! ## Buffers -/

/-- `pitcher_put_unit_buffer_idle`; what `pitcher_queue_push_back` returns is not looked at. -/
def putUnitBufferIdle : World :=
  if w.enable then
    { w with
      refcount := Function.update w.refcount b (w.refcount b + 1)
      idles := if memory then w.idles ++ [b] else w.idles }
  else w

def ifileRecycleBuffer : World × Bool :=
  if w.state = .ACTIVE ∧ w.fin = false then (putUnitBufferIdle w b memory, false) else (w, true)

def parserRecycleBuffer : World × Bool :=
  if w.state = .ACTIVE ∧ w.fin = false then (putUnitBufferIdle w b memory, false) else (w, true)

def recycleConvertBuffer : World × Bool :=
  if w.state = .ACTIVE ∧ w.fin = false then (putUnitBufferIdle w b memory, false) else (w, true)

def Component.recycle : World × Bool :=
  match c with
  | .ifile => ifileRecycleBuffer w b memory
  | .parser => parserRecycleBuffer w b memory
  | .convert => recycleConvertBuffer w b memory

/-- `__release_buffer` -/
def releaseBuffer : World :=
  let (w, isDel) := c.recycle w b memory
  if isDel then { w with deleted := w.deleted ++ [b] } else w

def getBuffer : World := { w with refcount := Function.update w.refcount b (w.refcount b + 1) }

def putBuffer : World :=
  if w.refcount b = 0 then w
  else
    let w := { w with refcount := Function.update w.refcount b (w.refcount b - 1) }
    if w.refcount b = 0 then releaseBuffer c w b memory else w

/-- Each of these is put, and nothing else is done. -/
def putAll (bs : List Nat) : World := bs.foldl (fun w b => putBuffer c w b memory) w

/-! ## The unit -/

/-- `__alloc_buffer`, one buffer; `node` tells whether the idle queue gets memory for it. -/
def allocBuffer (node : Bool) : World :=
  { w with
    refcount := Function.update w.refcount w.allocs 1
    idles := if node then w.idles ++ [w.allocs] else w.idles
    allocs := w.allocs + 1 }

/-- `__free_buffer`. Without `enable` nothing comes back to the queue that is being cleared. -/
def freeBuffer : World :=
  if w.bufferCount = 0 then w else putAll c { w with idles := [] } true w.idles

/-- `pitcher_unit_start`; whether it succeeds. Of the three only the convert unit has a start
callback, and that does not fail. -/
def unitStart (nodes : List Bool) : World × Bool :=
  let w := { nodes.foldl allocBuffer w with bufferCount := nodes.length }
  if w.bufferCount = 0 then (w, false)
  else
    let w := match c with
      | .convert => { w with fin := false }
      | .ifile | .parser => w
    ({ w with enable := true }, true)

/-- `pitcher_unit_stop`. None of the three has a stop callback; the buffers in the unit's own
input are of another pool. -/
def unitStop : World := freeBuffer c { w with enable := false }

/-! ## The channel -/

def startChn (nodes : List Bool) : World :=
  if w.state = .ACTIVE then w
  else
    let (w, started) := unitStart c w nodes
    if started then { w with state := .ACTIVE } else w

/-- `__stop_chn`: the way of `pitcher_stop` and of a failed `pitcher_start`. -/
def stopChn : World :=
  if w.state = .STOPPED then w else { unitStop c w with state := .STOPPED }

/-- `__process_chn_stopping` -/
def processChnStopping : World :=
  if w.state = .STOPPING ∧ w.alive = ∅ then { unitStop c w with state := .STOPPED } else w

inductive Event where
  | start (nodes : List Bool)
  | getIdle
  /-- A reference for the pipe to a sink. -/
  | push (h : Holder) (d b : Nat) (memory : Bool)
  | pop (d b : Nat)
  /-- `pitcher_get_buffer` by who has a reference. -/
  | take (h : Holder) (b : Nat)
  | put (h : Holder) (b : Nat) (memory : Bool)
  /-- The component sets its `end`. -/
  | finish
  /-- `__process_chn_active` finds the end. -/
  | stopping
  | processStopping
  | stop
  | sinkStart (d : Nat)
  /-- The unit of the sink has stopped, and its pipe is cleared. -/
  | sinkStop (d : Nat) (memory : Bool)

/-- The unit has nothing in its hands, as between two calls of its run function. -/
def World.Quiet (w : World) : Prop := ∀ b, (.unit, b) ∉ w.refs

instance : Decidable w.Quiet :=
  decidable_of_iff (∀ x ∈ w.refs, x.1 ≠ .unit)
    ⟨fun none _ member => none _ member rfl, fun quiet x member same => quiet x.2 (same ▸ member)⟩

/-- The buffers in the pipe to a sink. -/
def World.piped (w : World) (d : Nat) : List Nat := (w.refs.filter fun x => x.1 = .pipe d).map Prod.snd

def step (w : World) : Event → Option World
  | .start nodes => if w.state = .STOPPED then some (startChn c w nodes) else none
  | .getIdle =>
    match w.idles with
    | [] => none
    | b :: rest =>
      if w.state = .ACTIVE then some { w with idles := rest, refs := w.refs ++ [(.unit, b)] } else none
  | .push h d b memory =>
    if (h, b) ∈ w.refs then
      let w := getBuffer w b
      some { w with refs := if memory then w.refs ++ [(.pipe d, b)] else w.refs }
    else none
  | .pop d b =>
    if (.pipe d, b) ∈ w.refs ∧ d ∈ w.alive then
      some { w with refs := w.refs.erase (.pipe d, b) ++ [(.sink d, b)] }
    else none
  | .take h b =>
    if (h, b) ∈ w.refs then
      let w := getBuffer w b
      some { w with refs := w.refs ++ [(h, b)] }
    else none
  | .put h b memory =>
    if (h, b) ∈ w.refs then some (putBuffer c { w with refs := w.refs.erase (h, b) } b memory) else none
  | .finish => some { w with fin := true }
  | .stopping =>
    if w.state = .ACTIVE ∧ w.fin = true ∧ w.Quiet then some { w with state := .STOPPING } else none
  | .processStopping => some (processChnStopping c w)
  | .stop => if w.Quiet then some (stopChn c w) else none
  | .sinkStart d => some { w with alive := insert d w.alive }
  | .sinkStop d memory =>
    -- its stop callback has put what the unit had
    if ∀ x ∈ w.refs, x.1 ≠ .sink d then
      let w' := putAll c { w with refs := w.refs.filter fun x => x.1 ≠ .pipe d } memory (w.piped d)
      some { w' with alive := w'.alive.erase d }
    else none

/-! ## What it is for -/

/-- The references to a buffer that are not in the idle queue. -/
def World.held (w : World) (b : Nat) : Nat := (w.refs.map Prod.snd).count b

/-- The buffer is in one place. -/
inductive Booked (w : World) (b : Nat) : Prop where
  | idle (idle : w.idles.count b = 1) (held : w.held b = 0) (refcount : w.refcount b = 1)
      (deleted : w.deleted.count b = 0)
  | held (idle : w.idles.count b = 0) (held : 0 < w.held b) (refcount : w.refcount b = w.held b)
      (deleted : w.deleted.count b = 0)
  | deleted (idle : w.idles.count b = 0) (held : w.held b = 0) (deleted : w.deleted.count b = 1)

/-- A buffer that is put for the last time goes back to the idle queue. -/
def World.Recycles (w : World) : Prop := w.state = .ACTIVE ∧ w.fin = false

/-- What the steps have to keep away from: a forced stop with buffers in the idle queue of an
active channel that is not at its end, a push to a sink that could not be started, and a queue
without memory. -/
def Careful (w : World) : Event → World → Prop
  | .start nodes, _ => ∀ node ∈ nodes, node = true
  | .push _ d _ memory, _ => d ∈ w.alive ∧ memory = true
  | .put _ _ memory, _ | .sinkStop _ memory, _ => w.Recycles → memory = true
  | .stop, _ => w.Recycles → w.idles = []
  | _, _ => True

end ImxTest.Pitcher.Pool
