import ImxTest.Pitcher.Def
import Mathlib.Logic.Function.Basic
import Mathlib.Tactic.Common

/-! The channels of pitcher/core.c, their units and the pipes between them. An
object is known by the number it is allocated under, and no number is used
again; 0 is NULL. -/
namespace ImxTest.Pitcher.Core

def NULL : Nat := 0

inductive ChnState where
  | STOPPED | STOPPING | ACTIVE
deriving DecidableEq, Repr

/-- `struct pitcher_unit_desc`: what registration reads of it. `init` is what the
callback returns, when there is one. -/
structure PitcherUnitDesc where
  name : List UInt8 := []
  init : Option Int := none
  checkReady : Bool := true
  runfunc : Bool := true
  fd : Int := -1
  events : UInt32 := 0
deriving DecidableEq, Repr

structure PitcherUnit where
  desc : PitcherUnitDesc
  input : Nat := NULL
  outs : Fin 16 → Nat := fun _ => NULL

structure PitcherPollFd where
  fd : Int
  events : UInt32
deriving DecidableEq, Repr

structure PitcherChn where
  name : List UInt8
  chnno : Nat
  error : UInt32 := 0
  unit : Nat
  state : ChnState := .STOPPED
  pfd : Option PitcherPollFd
  core : Nat
  ignorePollerr : Nat := 0
  preferredFourcc : Nat := 0
deriving DecidableEq, Repr

structure PitcherPipe where
  src : Nat := NULL
  dst : Nat := NULL
  queue : List Nat := []
  numerator : UInt32 := 0
  denominator : UInt32 := 1
  idx : UInt32 := 0
deriving DecidableEq, Repr

/-- `struct pitcher_core`: its two queues, where there is one. -/
structure PitcherCore where
  chns : Option (List Nat) := some []
  pipes : Option (List Nat) := some []
deriving DecidableEq, Repr

/-- `puts` holds the buffers `pitcher_put_buffer` was called for, `notified` the
channels a pipe has notified. -/
structure World where
  chnBitmap : Nat → BitVec 64 := fun _ => 0
  chns : List Nat := []
  core : Nat → PitcherCore := fun _ => {}
  chn : Nat → Option PitcherChn := fun _ => none
  unit : Nat → Option PitcherUnit := fun _ => none
  pipe : Nat → Option PitcherPipe := fun _ => none
  allocs : Nat := 1
  puts : List Nat := []
  notified : List Nat := []

/-- An access to memory that is not allocated, or a failed assertion. -/
inductive Fault where
  | freed (a : Nat)
  | assertion
deriving DecidableEq, Repr

def World.getChn (w : World) (a : Nat) : Except Fault PitcherChn := (w.chn a).elim (.error (.freed a)) .ok

def World.getUnit (w : World) (a : Nat) : Except Fault PitcherUnit := (w.unit a).elim (.error (.freed a)) .ok

def World.getPipe (w : World) (a : Nat) : Except Fault PitcherPipe := (w.pipe a).elim (.error (.freed a)) .ok

def World.setUnit (w : World) (a : Nat) (u : PitcherUnit) : World :=
  { w with unit := Function.update w.unit a (some u) }

def World.setPipe (w : World) (a : Nat) (p : PitcherPipe) : World :=
  { w with pipe := Function.update w.pipe a (some p) }

/-! ## Channel numbers -/

def getChnno (bitmap : Nat → BitVec 64) : Option Nat × (Nat → BitVec 64) :=
  let found := (List.range 256).findSome? fun i =>
    if bitmap i = BitVec.allOnes 64 then none
    else ((List.range 64).find? fun j => !(bitmap i).getLsbD j).map fun j => (i, j)
  match found with
  | none => (none, bitmap)
  | some (i, j) => (some (i * 64 + j), Function.update bitmap i (bitmap i ||| 1#64 <<< j))

def putChnno (bitmap : Nat → BitVec 64) (chnno : Nat) : Nat → BitVec 64 :=
  let i := chnno / 64
  let j := chnno % 64
  if 256 ≤ i then bitmap else Function.update bitmap i (bitmap i &&& ~~~(1#64 <<< j))

def findIn (w : World) (chnno : Nat) : List Nat → Except Fault (Option Nat)
  | [] => .ok none
  | a :: rest => do
    let chn ← w.getChn a
    if chnno = chn.chnno then .ok (some a) else findIn w chnno rest

/-- `__find_chn` -/
def findChn (w : World) (chnno : Nat) : Except Fault (Option Nat) := findIn w chnno w.chns

/-! ## Registering -/

/-- Whether the allocations of a registration succeed, the queue's node last. -/
structure Luck where
  chn : Bool := true
  unit : Bool := true
  idles : Bool := true
  node : Bool := true
deriving DecidableEq, Repr

def pitcherNewUnit (desc : Option PitcherUnitDesc) (luck : Luck) : Option PitcherUnit :=
  match desc with
  | none => none
  | some desc =>
    if !desc.checkReady || !desc.runfunc then none
    else if !luck.unit then none
    else if !luck.idles then none
    else
      match desc.init with
      | some ret => if ret < 0 then none else some { desc }
      | none => some { desc }

/-- The part of a registration behind which nothing fails. -/
def addChn (w : World) (core chnno : Nat) (chns : List Nat) (unit : PitcherUnit) (node : Bool) : World :=
  let chn := w.allocs
  { w with
    chn := Function.update w.chn chn (some
      { name := (unit.desc.name.takeWhile (· ≠ 0)).take 63
        chnno, core
        unit := chn + 1
        pfd :=
          if unit.desc.fd ≥ 0 ∧ unit.desc.events ≠ 0 then some ⟨unit.desc.fd, unit.desc.events⟩ else none })
    unit := Function.update w.unit (chn + 1) (some unit)
    allocs := chn + 2
    chns := w.chns ++ [chn]
    -- what the push returns is not looked at
    core := Function.update w.core core
      { w.core core with chns := some (if node then chns ++ [chn] else chns) } }

def pitcherRegisterChn (w : World) (core : Nat) (desc : Option PitcherUnitDesc) (luck : Luck) :
    Except Ret Nat × World :=
  match getChnno w.chnBitmap with
  | (none, _) => (.error .E_FULL, w)
  | (some chnno, bitmap) =>
    let w := { w with chnBitmap := bitmap }
    match (w.core core).chns with
    | none => (.error .E_INVAL, w)
    | some chns =>
      if !luck.chn then (.error .E_NO_MEMORY, w)
      else
        match pitcherNewUnit desc luck with
        | none => (.error .E_INVAL, w)
        | some unit => (.ok chnno, addChn w core chnno chns unit luck.node)

/-- `__free_chn` -/
def freeChn (w : World) (a : Nat) (chn : PitcherChn) : World :=
  { w with
    chns := w.chns.erase a
    chnBitmap := putChnno w.chnBitmap chn.chnno
    unit := Function.update w.unit chn.unit none
    chn := Function.update w.chn a none }

/-- `__del_chn_func` over the channels of a context: those that stay in its queue. -/
def delChns (chnno : Nat) : List Nat → World → Except Fault (List Nat × World)
  | [], w => .ok ([], w)
  | a :: rest, w => do
    let chn ← w.getChn a
    if chn.chnno ≠ chnno then
      let (kept, w) ← delChns chnno rest w
      .ok (a :: kept, w)
    else delChns chnno rest (freeChn w a chn)

def pitcherUnregisterChn (w : World) (chnno : Nat) : Except Fault (Ret × World) := do
  match ← findChn w chnno with
  | none => .ok (.E_NOT_FOUND, w)
  | some a =>
    let chn ← w.getChn a
    match (w.core chn.core).chns with
    | none => .error .assertion
    | some items =>
      let (kept, w) ← delChns chnno items w
      .ok (.OK, { w with core := Function.update w.core chn.core { w.core chn.core with chns := some kept } })

/-! ## Links of a unit -/

/-- What a `Unit`, a pointer to anything, points to. -/
inductive UnitPtr where
  | unit (a : Nat)
  | chn (a : Nat)
deriving DecidableEq, Repr

def pitcherSetUnitInput (w : World) (u : UnitPtr) (p : Nat) : Except Fault World :=
  match u with
  | .unit a => do
    let unit ← w.getUnit a
    .ok (w.setUnit a { unit with input := p })
  -- at the offset of `in` a channel has `ignore_pollerr` and `preferred_fourcc`
  | .chn a => do
    let chn ← w.getChn a
    let chn := { chn with ignorePollerr := p % 2 ^ 32, preferredFourcc := p / 2 ^ 32 % 2 ^ 32 }
    .ok { w with chn := Function.update w.chn a (some chn) }

def pitcherAddUnitOutput (w : World) (u p : Nat) : Except Fault (Ret × World) := do
  let unit ← w.getUnit u
  match (List.finRange 16).find? fun i => decide (unit.outs i = p) with
  | some _ => .ok (.OK, w)
  | none =>
    match (List.finRange 16).find? fun i => decide (unit.outs i = NULL) with
    | some i => .ok (.OK, w.setUnit u { unit with outs := Function.update unit.outs i p })
    | none => .ok (.E_FULL, w)

def pitcherRmUnitOutput (w : World) (u : UnitPtr) (p : Nat) : Except Fault World :=
  match u with
  | .unit a => do
    let unit ← w.getUnit a
    .ok (w.setUnit a { unit with outs := fun i => if unit.outs i = p then NULL else unit.outs i })
  -- a channel ends at the offset of `outs`; in the sixteen words behind it no unit
  -- has its links, for they lie further than that from where a unit begins
  | .chn a => do
    let _ ← w.getChn a
    .ok w

/-! ## Pipes -/

/-- Whether the allocations of a connection succeed: the pipe with its queue, and
the node in the queue of pipes. -/
structure PipeLuck where
  pipe : Bool := true
  node : Bool := true
deriving DecidableEq, Repr

/-- `pitcher_new_pipe` and the setters behind it. -/
def newPipe (w : World) (src dst : Nat) : World :=
  { w with pipe := Function.update w.pipe w.allocs (some { src, dst }), allocs := w.allocs + 1 }

def pitcherDelPipe (w : World) (p : Nat) : Except Fault World := do
  let pipe ← w.getPipe p
  .ok { w with puts := w.puts ++ pipe.queue, pipe := Function.update w.pipe p none }

/-- Whether the unit's input pipe has another source. -/
def otherSource (w : World) (unit : PitcherUnit) (src : Nat) : Except Fault Bool :=
  if unit.input = NULL then .ok false
  else do
    let pipe ← w.getPipe unit.input
    .ok (decide (pipe.src ≠ src))

def pitcherConnect (w : World) (src dst : Nat) (luck : PipeLuck) : Except Fault (Ret × World) := do
  match ← findChn w src, ← findChn w dst with
  | some s, some d =>
    let schn ← w.getChn s
    let dchn ← w.getChn d
    if schn.core ≠ dchn.core then .ok (.E_NOT_MATCH, w)
    else
      match (w.core schn.core).chns, (w.core schn.core).pipes with
      | some _, some pipes =>
        let unit ← w.getUnit dchn.unit
        if ← otherSource w unit s then .ok (.E_INVAL, w)
        else if !luck.pipe then .ok (.E_NO_MEMORY, w)
        else
          let pipe := w.allocs
          let w := newPipe w s d
          let w ← pitcherSetUnitInput w (.unit dchn.unit) pipe
          -- neither of the two results is looked at
          let (_, w) ← pitcherAddUnitOutput w schn.unit pipe
          let pipes := if luck.node then pipes ++ [pipe] else pipes
          .ok (.OK, { w with
            core := Function.update w.core schn.core { w.core schn.core with pipes := some pipes } })
      | _, _ => .ok (.E_INVAL, w)
  | _, _ => .ok (.E_INVAL, w)

/-- `__disconnect` over the pipes of a context: those that stay in its queue. -/
def disconnectPipes (src dst : Nat) : List Nat → World → Except Fault (List Nat × World)
  | [], w => .ok ([], w)
  | p :: rest, w => do
    let pipe ← w.getPipe p
    if pipe.src ≠ src ∨ pipe.dst ≠ dst then
      let (kept, w) ← disconnectPipes src dst rest w
      .ok (p :: kept, w)
    else
      -- the ends of a pipe are channels, not units
      let w ← pitcherSetUnitInput w (.chn pipe.dst) NULL
      let w ← pitcherRmUnitOutput w (.chn pipe.src) p
      let w ← pitcherDelPipe w p
      disconnectPipes src dst rest w

def pitcherDisconnect (w : World) (src dst : Nat) : Except Fault (Ret × World) := do
  match ← findChn w src, ← findChn w dst with
  | some s, some d =>
    let schn ← w.getChn s
    let dchn ← w.getChn d
    if schn.core ≠ dchn.core then .ok (.E_NOT_MATCH, w)
    else
      match (w.core schn.core).chns, (w.core schn.core).pipes with
      | some _, some pipes =>
        let (kept, w) ← disconnectPipes s d pipes w
        .ok (.OK, { w with
          core := Function.update w.core schn.core { w.core schn.core with pipes := some kept } })
      | _, _ => .ok (.E_INVAL, w)
  | _, _ => .ok (.E_INVAL, w)

/-! ## Pushing -/

/-- `__check_is_need_skip` -/
def checkIsNeedSkip (pipe : PitcherPipe) : Bool × PitcherPipe :=
  if pipe.numerator = 0 ∨ pipe.denominator = 0 then (false, pipe)
  else
    let skip := !decide (pipe.idx < pipe.denominator - pipe.numerator)
    (skip, { pipe with idx := (pipe.idx + 1) % pipe.denominator })

/-- `memory` says whether the queue gets a node; the destination is notified
either way. -/
def pitcherPipePushBack (w : World) (p : Nat) (buffer : Nat) (memory : Bool) : Except Fault World := do
  let pipe ← w.getPipe p
  let (skip, pipe) := checkIsNeedSkip pipe
  if skip then .ok (w.setPipe p pipe)
  else
    let pipe := if memory then { pipe with queue := pipe.queue ++ [buffer] } else pipe
    let w := w.setPipe p pipe
    .ok (if pipe.dst ≠ NULL then { w with notified := w.notified ++ [pipe.dst] } else w)

def pushBackOutputs (buffer : Nat) (memory : Fin 16 → Bool) (outs : Fin 16 → Nat) :
    List (Fin 16) → World → Except Fault World
  | [], w => .ok w
  | i :: rest, w =>
    if outs i = NULL then pushBackOutputs buffer memory outs rest w
    else do
      let w ← pitcherPipePushBack w (outs i) buffer (memory i)
      pushBackOutputs buffer memory outs rest w

def pitcherUnitPushBackOutput (w : World) (u : Nat) (buffer : Nat) (memory : Fin 16 → Bool) :
    Except Fault World := do
  let unit ← w.getUnit u
  pushBackOutputs buffer memory unit.outs (List.finRange 16) w

/-! ## Calls -/

inductive Call where
  | register (core : Nat) (desc : Option PitcherUnitDesc) (luck : Luck)
  | unregister (chnno : Nat)
  | connect (src dst : Nat) (luck : PipeLuck)
  | disconnect (src dst : Nat)
deriving DecidableEq, Repr

inductive Answer where
  | number (chnno : Nat)
  | ret (code : Ret)
deriving DecidableEq, Repr

def exec (w : World) : Call → Except Fault (Answer × World)
  | .register core desc luck =>
    match pitcherRegisterChn w core desc luck with
    | (.ok chnno, w) => .ok (.number chnno, w)
    | (.error code, w) => .ok (.ret code, w)
  | .unregister chnno => do
    let (code, w) ← pitcherUnregisterChn w chnno
    .ok (.ret code, w)
  | .connect src dst luck => do
    let (code, w) ← pitcherConnect w src dst luck
    .ok (.ret code, w)
  | .disconnect src dst => do
    let (code, w) ← pitcherDisconnect w src dst
    .ok (.ret code, w)

/-- A call and what it returns. -/
def Step (w : World) (event : Call × Answer) (w' : World) : Prop := exec w event.1 = .ok (event.2, w')

end ImxTest.Pitcher.Core
