import ImxTest.Pitcher.Transfer
import Mathlib.Logic.Function.Basic

/-! The buffers of a component of pitcher/v4l2.c: who holds them, and how they pass
to the driver and back. A buffer object is known by the number it is allocated
under, and no number is used again. -/
namespace ImxTest.Pitcher.V4l2

def MAX_BUFFER_COUNT : Nat := 32
def PITCHER_BUFFER_FLAG_LAST : UInt32 := 1
def PITCHER_BUFFER_FLAG_SEEK : UInt32 := 2
def PITCHER_BUFFER_FLAG_ERROR : UInt32 := 4

/-- `struct ext_buffer` -/
structure ExtBuffer where
  buffer : Buffer
  refcount : Nat

/-- What is noted of a run: `VIDIOC_QUERYBUF` has failed, the driver has taken a
buffer it owned, a buffer it owned was freed, a buffer was made for an index that
had one. -/
inductive Fault where
  | queryFailed
  | queuedTwice (index : Nat)
  | freedOwned (index : Nat)
  | madeTwice (index : Nat)
deriving DecidableEq, Repr

def note (seen : Bool) (fault : Fault) (faults : List Fault) : List Fault :=
  if seen then fault :: faults else faults

/-- A component and its buffers. `held` counts the references that are not the
component's own, `sources` those it holds on the buffers of others. `driver` has
the planes of the buffers the driver owns, `requested` is the number of buffers
it has, `calls` the number of calls of `VIDIOC_QUERYBUF`. -/
structure World where
  fd : Int := 0
  output : Bool
  multiplanar : Bool
  memory : V4l2Memory
  buffers : Nat → Option Nat := fun _ => none
  slots : Nat → Option Nat := fun _ => none
  errors : Nat → Option Nat := fun _ => none
  bufferCount : Nat := 0
  enable : Bool := false
  ending : Bool := false
  seek : Bool := false
  eosReceived : Bool := false
  resolutionChange : Bool := false
  frameCount : Nat := 0
  objs : Nat → Option ExtBuffer := fun _ => none
  allocs : Nat := 0
  held : Nat → Nat := fun _ => 0
  sources : Nat → Nat := fun _ => 0
  mem : Nat → UInt8 := fun _ => 0
  driver : Nat → Option (List BufRef) := fun _ => none
  requested : Nat := 0
  calls : Nat := 0
  faults : List Fault := []

/-- What `VIDIOC_QUERYBUF` and `VIDIOC_QBUF` return, call by call. -/
structure Driver where
  querybuf : Nat → Bool := fun _ => true
  qbuf : Nat → Bool := fun _ => true

section References
variable (D : Driver)

def setObj (w : World) (id : Nat) (o : ExtBuffer) : World :=
  { w with objs := Function.update w.objs id (some o) }

def pitcherGetBuffer (w : World) (id : Nat) : World :=
  match w.objs id with
  | none => w
  | some o => setObj w id { o with refcount := o.refcount + 1 }

/-- `SAFE_RELEASE(buffer->priv, pitcher_put_buffer)` -/
def releasePriv (w : World) (id : Nat) : World :=
  match w.objs id with
  | none => w
  | some o =>
    match o.buffer.priv with
    | none => w
    | some src =>
      setObj { w with sources := Function.update w.sources src (w.sources src - 1) } id
        { o with buffer := { o.buffer with priv := none } }

/-- The planes as `struct v4l2_buffer` has them. -/
def v4lPlanes (w : World) (o : ExtBuffer) : List BufRef :=
  if w.multiplanar then o.buffer.planes else o.buffer.planes.take 1

/-- The driver takes the buffer under its index. -/
def accepts (w : World) (index : Nat) : Bool :=
  index < w.requested ∧ D.querybuf w.calls ∧ D.qbuf w.calls

/-- `__qbuf` -/
def qbuf (w : World) (id : Nat) : World :=
  if w.fd < 0 ∨ !w.enable then w
  else
    match w.objs id with
    | none => w
    | some o =>
      let index := o.buffer.index
      let called := { w with calls := w.calls + 1 }
      if !(index < w.requested ∧ D.querybuf w.calls) then
        { called with faults := .queryFailed :: w.faults }
      else if !D.qbuf w.calls then
        let called := pitcherGetBuffer (releasePriv called id) id
        { called with errors := Function.update called.errors index (some id) }
      else
        { called with
          driver := Function.update w.driver index (some (v4lPlanes w o))
          faults := note (w.driver index).isSome (.queuedTwice index) w.faults
          slots := Function.update w.slots index (some id)
          frameCount := if w.output then w.frameCount + 1 else w.frameCount }

/-- `__recycle_v4l2_buffer`, with `*del` -/
def recycleV4l2Buffer (w : World) (id : Nat) : World × Bool :=
  if w.fd < 0 then (w, false)
  else
    let w := qbuf D w id
    match w.objs id with
    | none => (w, false)
    | some o =>
      let del := (!w.enable || w.ending || o.buffer.flags &&& PITCHER_BUFFER_FLAG_LAST ≠ 0) &&
        o.refcount = 0
      (if del then { w with slots := Function.update w.slots o.buffer.index none } else w, del)

def freeBuffer (w : World) (id : Nat) : World :=
  match w.objs id with
  | none => w
  | some o =>
    { w with
      objs := Function.update w.objs id none
      faults := note (w.driver o.buffer.index).isSome (.freedOwned o.buffer.index) w.faults }

/-- `__release_buffer` -/
def releaseBuffer (w : World) (id : Nat) : World :=
  match w.objs id with
  | none => w
  | some o =>
    let (w, del) := recycleV4l2Buffer D (setObj w id { o with buffer := { o.buffer with flags := 0 } }) id
    if del then freeBuffer w id else w

def pitcherPutBuffer (w : World) (id : Nat) : World :=
  match w.objs id with
  | none => w
  | some o =>
    if o.refcount = 0 then w
    else
      let w := setObj w id { o with refcount := o.refcount - 1 }
      if o.refcount = 1 then releaseBuffer D w id else w

/-- `SAFE_RELEASE(component->buffers[i], pitcher_put_buffer)` -/
def releaseFree (w : World) (i : Nat) : World :=
  match w.buffers i with
  | none => w
  | some id =>
    let w := pitcherPutBuffer D w id
    { w with buffers := Function.update w.buffers i none }

end References

/-! ## Frames -/

/-- What `VIDIOC_DQEVENT` brings. -/
inductive Event where
  | none | eos | sourceChange | other
deriving DecidableEq, Repr

/-- `__check_v4l2_events` -/
def checkV4l2Events (w : World) (event : Event) : World :=
  if w.fd < 0 then w
  else
    match event with
    | .eos => { w with eosReceived := true }
    | .sourceChange => { w with resolutionChange := true }
    | _ => w

/-- A buffer that `VIDIOC_DQBUF` returns, and its flags. -/
structure Dequeued where
  index : Nat
  bytesused : Nat → Nat
  keyframe : Bool := false
  pframe : Bool := false
  bframe : Bool := false
  last : Bool := false
  error : Bool := false

inductive Dqbuf where
  | notReady
  | failed (epipe : Bool)
  | done (d : Dequeued)

/-- The planes' `bytesused`, as the driver returns them. -/
def dqPlanes (multiplanar : Bool) (d : Dequeued) (planes : List BufRef) : List BufRef :=
  if multiplanar then planes.mapIdx fun i p => { p with bytesused := d.bytesused i }
  else planes.modify 0 fun p => { p with bytesused := d.bytesused 0 }

/-- The flags of a buffer of a capture component. -/
def dqFlags (d : Dequeued) (flags : UInt32) : UInt32 :=
  let type : UInt32 := if d.keyframe then 1 else if d.pframe then 2 else if d.bframe then 3 else 0
  let flags := flags ||| (type <<< 16)
  let flags := if d.last ∨ d.bytesused 0 = 0 then flags ||| PITCHER_BUFFER_FLAG_LAST else flags
  if d.error then
    let flags := flags ||| PITCHER_BUFFER_FLAG_ERROR
    if !d.last ∧ d.bytesused 0 = 0 then flags &&& ~~~PITCHER_BUFFER_FLAG_LAST else flags
  else flags

/-- `__dqbuf` -/
def dqbuf (w : World) (answer : Dqbuf) : World × Option Nat :=
  if w.fd < 0 then (w, none)
  else
    match answer with
    | .notReady => (w, none)
    | .failed epipe =>
      if epipe ∨ !w.output ∧ w.eosReceived then ({ w with ending := true }, none) else (w, none)
    | .done d =>
      let w := { w with driver := Function.update w.driver d.index none }
      match w.slots d.index with
      | none => (w, none)
      | some id =>
        let w := { w with slots := Function.update w.slots d.index none }
        match w.objs id with
        | none => (w, none)
        | some o =>
          let flags := if w.output then o.buffer.flags else dqFlags d o.buffer.flags
          let buffer := { o.buffer with planes := dqPlanes w.multiplanar d o.buffer.planes, flags }
          let counts := !w.output ∧ (buffer.plane 0).bytesused ≠ 0 ∧ flags &&& PITCHER_BUFFER_FLAG_ERROR = 0
          let w := { w with frameCount := if counts then w.frameCount + 1 else w.frameCount }
          (pitcherGetBuffer (setObj w id { o with buffer }) id, some id)

/-- `__get_buf` -/
def getBuf (w : World) : Option Nat :=
  if w.fd < 0 then none else (List.range w.bufferCount).findSome? w.buffers

/-- A buffer of another component, under its number. -/
structure Frame where
  number : Nat
  buffer : Buffer

def Frame.hasData (pbuf : Frame) : Bool :=
  pbuf.buffer.count ≠ 0 ∧ (pbuf.buffer.plane 0).bytesused ≠ 0

/-- Both buffers have a format, and not the same. -/
def formatsDiffer (src dst : Buffer) : Bool :=
  match src.format, dst.format with
  | some sfmt, some dfmt => sfmt.format ≠ dfmt.format
  | _, _ => false

/-- The planes of `object` and its hold on `pbuf` after a transfer. -/
def transferred (w : World) (id : Nat) (o : ExtBuffer) (pbuf : Frame) (ret : Ret)
    (mem : Nat → UInt8) (planes : List BufRef) : World :=
  let refers := ret = .OK ∧ w.memory ≠ .MMAP
  let priv := if refers then some pbuf.number else o.buffer.priv
  let sources := if refers then Function.update w.sources pbuf.number (w.sources pbuf.number + 1)
    else w.sources
  setObj { w with mem, sources } id { o with buffer := { o.buffer with planes, priv } }

section Run
variable (D : Driver) (splane dplane : BufRef)

/-- `__run_v4l2_output`. `splane` and `dplane` are what the two planes hold that
`pitcher_copy_buffer_data` does not set before it uses them. -/
def runV4l2Output (event : Event) (w : World) (pbuf : Frame) : World × Ret :=
  if w.fd < 0 then (w, .E_INVAL)
  else if !w.output then (w, .OK)
  else
    let w := checkV4l2Events w event
    if pbuf.buffer.count = 0 then (w, .E_NOT_READY)
    else if (pbuf.buffer.plane 0).bytesused = 0 then (w, .OK)
    else
      match getBuf w with
      | none => (w, .E_NOT_READY)
      | some id =>
        match w.objs id with
        | none => (w, .E_NOT_READY)
        | some o =>
          if formatsDiffer pbuf.buffer o.buffer then (w, .E_INVAL)
          else
            let (ret, mem, planes) :=
              transferOutputBuffer w.memory splane dplane w.mem pbuf.buffer o.buffer
            let w := releaseFree D (transferred w id o pbuf ret mem planes) o.buffer.index
            let seek := pbuf.buffer.flags &&& PITCHER_BUFFER_FLAG_SEEK ≠ 0
            ({ w with seek := w.seek || seek }, ret)

/-- What a call of `run_v4l2` meets outside: an event before each transfer, the
answer of `VIDIOC_DQBUF`, and the references taken downstream. -/
structure RunAnswers where
  first : Event := .none
  dq : Dqbuf
  taken : Nat := 0
  second : Event := .none

/-- The first transfer of `run_v4l2`, and the frame that is left. -/
def firstOutput (a : RunAnswers) (w : World) (pbuf : Option Frame) : World × Option Frame :=
  match pbuf with
  | some frame =>
    if w.output then
      let (w, ret) := runV4l2Output D splane dplane a.first w frame
      (w, if ret = .OK then none else some frame)
    else (w, some frame)
  | none => (w, none)

/-- What `run_v4l2` does with a buffer the driver has given back. -/
def returned (a : RunAnswers) (w : World) (id : Nat) : World :=
  let w := releasePriv w id
  match w.objs id with
  | none => w
  | some o =>
    let w :=
      if w.output then
        { pitcherGetBuffer w id with
          buffers := Function.update w.buffers o.buffer.index (some id) }
      else if o.buffer.flags &&& PITCHER_BUFFER_FLAG_ERROR = 0 then
        -- Each reference taken downstream is one `pitcher_get_buffer`.
        { setObj w id { o with refcount := o.refcount + a.taken } with
          held := Function.update w.held id (w.held id + a.taken) }
      else w
    let w := if o.buffer.flags &&& PITCHER_BUFFER_FLAG_LAST ≠ 0 then { w with ending := true } else w
    pitcherPutBuffer D w id

def runV4l2 (a : RunAnswers) (w : World) (pbuf : Option Frame) : World × Ret :=
  if w.fd < 0 then (w, .E_INVAL)
  else
    let (w, pbuf) := firstOutput D splane dplane a w pbuf
    match dqbuf w a.dq with
    | (w, none) => (w, .E_NOT_READY)
    | (w, some id) =>
      let w := returned D a w id
      match pbuf with
      | some frame =>
        if w.output then runV4l2Output D splane dplane a.second w frame else (w, .OK)
      | none => (w, .OK)

end Run

/-! ## Sessions -/

/-- `__clear_error_buffers` -/
def clearErrorBuffers (D : Driver) (w : World) : World :=
  (List.range w.bufferCount).foldl (fun w i =>
    match w.errors i with
    | none => w
    | some id =>
      let w := pitcherGetBuffer w id
      let w := pitcherPutBuffer D { w with buffers := Function.update w.buffers i (some id) } id
      { w with errors := Function.update w.errors i none }) w

/-- What `start_v4l2` meets outside: whether the formats are set, the least number
of buffers, the answer of `VIDIOC_REQBUFS`, how many buffers can be allocated and
with which planes, their format, and the answer of `VIDIOC_STREAMON`. -/
structure StartAnswers where
  setup : Bool := true
  minBuffers : Nat := 0
  reqbufs : Option Nat
  made : Nat
  planes : Nat → List BufRef
  format : Option PixFmtInfo := none
  crop : Option Rect := none
  streamon : Bool := true

/-- `__req_v4l2_buffer`; the driver forgets the buffers it had. -/
def reqV4l2Buffer (a : StartAnswers) (w : World) : World × Bool :=
  let w := { w with bufferCount := min (max w.bufferCount a.minBuffers) MAX_BUFFER_COUNT }
  match a.reqbufs with
  | none => (w, false)
  | some n =>
    let n := if n > MAX_BUFFER_COUNT then 0 else n
    ({ w with bufferCount := n, requested := n, driver := fun _ => none }, true)

/-- There is a buffer under an index. -/
def World.has (w : World) (index : Nat) : Bool :=
  (List.range w.allocs).any fun id => (w.objs id).any fun o => o.buffer.index = index

/-- A turn of the loop of `__alloc_v4l2_buffer`. -/
def allocBuffer (a : StartAnswers) (i : Nat) (w : World) : World :=
  { w with
    objs := Function.update w.objs w.allocs (some
      { buffer := { planes := a.planes i, index := i, format := a.format, crop := a.crop }
        refcount := 1 })
    allocs := w.allocs + 1
    buffers := Function.update w.buffers i (some w.allocs)
    faults := note (w.has i) (.madeTwice i) w.faults }

/-- `__alloc_v4l2_buffer` -/
def allocV4l2Buffer (a : StartAnswers) (w : World) : World × Bool :=
  if w.memory = .OVERLAY then (w, false)
  else
    let made := min w.bufferCount a.made
    ({ (List.range made).foldl (fun w i => allocBuffer a i w) w with bufferCount := made }, made ≠ 0)

def startV4l2 (D : Driver) (a : StartAnswers) (w : World) : World × Ret :=
  if w.fd < 0 ∨ !a.setup then (w, .E_INVAL)
  else
    let (w, granted) := reqV4l2Buffer a w
    if !granted then (w, .E_INVAL)
    else
      let (w, some_buffer) := allocV4l2Buffer a w
      if !some_buffer then (w, .E_NO_MEMORY)
      else
        let w := { w with enable := true }
        let w := if w.output then w else (List.range w.bufferCount).foldl (releaseFree D) w
        if a.streamon then (w, .OK) else ({ w with enable := false }, .E_INVAL)

/-- The answers of `VIDIOC_STREAMOFF` and `VIDIOC_REQBUFS` to `stop_v4l2`. -/
structure StopAnswers where
  streamoff : Bool := true
  reqbufs : Bool := true

/-- Buffers that wait for a frame are given up. -/
def releaseFrees (D : Driver) (w : World) : World :=
  (List.range w.bufferCount).foldl (fun w i =>
    match w.buffers i with
    | none => w
    | some id => releaseFree D (releasePriv w id) i) w

/-- `__cleanup_v4l2` -/
def cleanupV4l2 (D : Driver) (a : StopAnswers) (w : World) : World × Ret :=
  let w := releaseFrees D (clearErrorBuffers D w)
  if a.reqbufs then ({ w with requested := 0, driver := fun _ => none }, .OK) else (w, .E_INVAL)

/-- The loop of `stop_v4l2` over the buffers that were queued. -/
def releaseSlots (D : Driver) (w : World) : World :=
  (List.range w.bufferCount).foldl (fun w i =>
    match w.slots i with
    | none => w
    | some id =>
      let w := pitcherPutBuffer D (releasePriv (pitcherGetBuffer w id) id) id
      { w with slots := Function.update w.slots i none }) w

def stopV4l2 (D : Driver) (a : StopAnswers) (w : World) : World × Ret :=
  if w.fd < 0 ∨ !a.streamoff then (w, .E_INVAL)
  else
    let w := releaseSlots D { w with enable := false, ending := false, driver := fun _ => none }
    cleanupV4l2 D a (releaseFrees D (clearErrorBuffers D w))

/-- `check_v4l2_ready`: what it changes. `isEnd` is whether the component's own
callback or the channel reports an end. -/
def checkV4l2Ready (D : Driver) (isEnd : Bool) (event : Event) (w : World) : World :=
  if w.fd < 0 ∨ w.ending then w
  else if isEnd then { w with ending := true }
  else
    let w := if w.output then checkV4l2Events w event else w
    if w.output ∧ w.seek then w
    else if !w.output ∧ w.eosReceived then w
    else clearErrorBuffers D w

end ImxTest.Pitcher.V4l2
