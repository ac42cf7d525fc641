import ImxTest.Lib.Runs
import ImxTest.Vpu.BufQueue
import Mathlib.Data.Finset.Card

/-! The buffers of the display in the performance test: the decoder hands frames to the
driver, and a thread of its own takes them back. -/
namespace ImxTest.Vpu.Display
open Lib.Runs

/-- What the decoder was set up with. -/
structure Decode where
  nframes : Nat
  regfbcount : Int
  minfbcount : Int
  rotBufCount : Int
  postProcessing : Bool

def Decode.threshold (dec : Decode) : Int :=
  if dec.postProcessing then dec.rotBufCount - 1 else dec.regfbcount - dec.minfbcount

/-- Where `v4l_disp_loop_thread` stands. -/
inductive DispLoop where
  | again
  | timedwait
  | woken
  | dqbuf
  -- `queue_buf`
  | queueTest
  | queueStore
  | queueAdvance
  | count
  | post
  | stopped
deriving DecidableEq, Repr

/-- Where the decoder stands. -/
inductive Decoding where
  /-- In its own code, with what the last call has returned; `none` for -1. -/
  | caller (result : Option Nat)
  -- `v4l_put_data`
  | querybuf (index : Nat)
  | qbuf (index : Nat)
  | countQueued
  | stream
  | judge
  | postDequeue
  -- `v4l_get_buf`
  | timedwait
  | test
  | dequeueTest
  | dequeueRead
  | dequeueAdvance (ret : Nat)
  | countTaken (index : Option Nat)
deriving DecidableEq, Repr

structure State where
  loop : DispLoop := .again
  /-- The index in the thread's `struct v4l2_buffer`. -/
  buffer : Nat
  errorStatus : Bool := false
  decoding : Decoding := .caller none
  ncount : Nat := 0
  releasedQ : BufQueue
  queuedCount : Int := 0
  dequeuedCount : Int := 0
  avaiableDecodingFrame : Nat
  avaiableDequeueFrame : Nat := 0
  quitflag : Bool := false
  /-- The indices that the driver has queued. -/
  driver : Finset Nat := ∅
  /-- The indices that the decoder may fill and show. -/
  decoder : Finset Nat

/-- What `v4l_display_open` leaves; a negative count is refused by `sem_init`, and the
semaphore stays at zero. -/
def v4lDisplayOpen (dec : Decode) (list : Nat → Nat) (buffer : Nat) : State :=
  { buffer
    releasedQ := { list, head := 0, tail := 0 }
    avaiableDecodingFrame := (dec.regfbcount - dec.minfbcount).toNat
    decoder := Finset.range dec.nframes }

inductive Event where
  | quit
  | v4lPutData (index : Nat)
  | v4lGetBuf
  /-- The decoder's next step, with the answer of an ioctl or of a timed wait where it has one. -/
  | decoder (answer : Bool)
  /-- The thread's next step. -/
  | dispLoop (answer : Bool)
  /-- The thread's `VIDIOC_DQBUF`; `none` where it fails. -/
  | dqbuf (index : Option Nat)
deriving DecidableEq, Repr

def dispLoopStep (s : State) (answer : Bool) : Option State :=
  match s.loop with
  | .again => some { s with loop := if s.errorStatus || s.quitflag then .stopped else .timedwait }
  | .timedwait =>
    if answer then
      if s.avaiableDequeueFrame = 0 then none
      else some { s with avaiableDequeueFrame := s.avaiableDequeueFrame - 1, loop := .woken }
    -- `quitflag` stays set, so that the test behind the wait ends the thread
    else some { s with loop := if s.quitflag then .stopped else .timedwait }
  | .woken => some { s with loop := if s.quitflag then .stopped else .dqbuf }
  | .dqbuf => none
  | .queueTest => some { s with loop := if s.releasedQ.isFull then .count else .queueStore }
  | .queueStore => some { s with releasedQ := s.releasedQ.store s.buffer, loop := .queueAdvance }
  | .queueAdvance => some { s with releasedQ := s.releasedQ.advanceTail, loop := .count }
  | .count =>
    some { s with queuedCount := s.queuedCount - 1, dequeuedCount := s.dequeuedCount + 1, loop := .post }
  | .post => some { s with avaiableDecodingFrame := s.avaiableDecodingFrame + 1, loop := .again }
  | .stopped => none

def decoderStep (dec : Decode) (s : State) (answer : Bool) : Option State :=
  match s.decoding with
  | .caller _ => none
  | .querybuf index => some { s with decoding := if answer then .qbuf index else .caller none }
  | .qbuf index =>
    if answer then
      some { s with
        driver := insert index s.driver, decoder := s.decoder.erase index, decoding := .countQueued }
    else some { s with decoding := .caller none }
  | .countQueued => some { s with queuedCount := s.queuedCount + 1, decoding := .stream }
  | .stream =>
    -- `VIDIOC_G_FMT`, `VIDIOC_S_FMT` and `VIDIOC_STREAMON` with the second frame
    if s.ncount = 1 ∧ answer = false then some { s with decoding := .caller none }
    else some { s with ncount := s.ncount + 1, decoding := .judge }
  | .judge =>
    some { s with decoding := if dec.threshold < s.queuedCount then .postDequeue else .caller (some 0) }
  | .postDequeue =>
    some { s with avaiableDequeueFrame := s.avaiableDequeueFrame + 1, decoding := .caller (some 0) }
  | .timedwait =>
    if answer then
      if s.avaiableDecodingFrame = 0 then none
      else some { s with avaiableDecodingFrame := s.avaiableDecodingFrame - 1, decoding := .test }
    else some { s with decoding := if s.quitflag then .test else .timedwait }
  | .test => some { s with decoding := if 0 < s.dequeuedCount then .dequeueTest else .caller none }
  | .dequeueTest => some { s with decoding := if s.releasedQ.isEmpty then .countTaken none else .dequeueRead }
  | .dequeueRead => some { s with decoding := .dequeueAdvance (s.releasedQ.list s.releasedQ.head) }
  | .dequeueAdvance ret =>
    some { s with
      releasedQ := s.releasedQ.advanceHead, decoder := insert ret s.decoder, decoding := .countTaken (some ret) }
  | .countTaken index => some { s with dequeuedCount := s.dequeuedCount - 1, decoding := .caller index }

def step (dec : Decode) (s : State) : Event → Option State
  | .quit => some { s with quitflag := true }
  | .v4lPutData index =>
    match s.decoding with
    | .caller _ => some { s with decoding := .querybuf index }
    | _ => none
  | .v4lGetBuf =>
    match s.decoding with
    | .caller _ => some { s with decoding := .timedwait }
    | _ => none
  | .decoder answer => decoderStep dec s answer
  | .dispLoop answer => dispLoopStep s answer
  | .dqbuf index =>
    if s.loop = .dqbuf then
      match index with
      -- the thread goes on with the index that it had
      | none => some { s with errorStatus := true, loop := .queueTest }
      | some i => some { s with buffer := i, driver := s.driver.erase i, loop := .queueTest }
    else none

/-- The index that `VIDIOC_QBUF` is about to queue. -/
def Decoding.queueing : Decoding → Option Nat
  | .qbuf index => some index
  | _ => none

/-- `VIDIOC_DQBUF` gives queued indices only, and the decoder queues none but its own. -/
def Promised (s : State) : Event → State → Prop
  | .dqbuf index, _ => ∃ i ∈ s.driver, index = some i
  | .decoder true, _ => ∀ index ∈ s.decoding.queueing, index ∈ s.decoder
  | _, _ => True

instance : ∀ s e t, Decidable (Promised s e t)
  | s, .dqbuf index, _ => inferInstanceAs (Decidable (∃ i ∈ s.driver, index = some i))
  | s, .decoder true, _ => inferInstanceAs (Decidable (∀ index ∈ s.decoding.queueing, index ∈ s.decoder))
  | _, .decoder false, _ | _, .dispLoop _, _ | _, .quit, _ | _, .v4lPutData _, _ | _, .v4lGetBuf, _ =>
    inferInstanceAs (Decidable True)

/-- A run of both threads, interleaved in any way. -/
abbrev Runs (dec : Decode) : State → List Event → State → Prop :=
  Run (Only (fun s e t => step dec s e = some t) Promised)

/-! ## Where the indices are -/

inductive Place where
  | driver
  | releasedQ
  | decoder
  | dispLoop
deriving DecidableEq, Repr

/-- Who has which index. The thread has one in its hands from `VIDIOC_DQBUF` until the new
tail is stored. -/
structure Holdings where
  driver : Finset Nat
  releasedQ : List Nat
  decoder : Finset Nat
  dispLoop : Option Nat

def DispLoop.holds : DispLoop → Bool
  | .queueTest | .queueStore | .queueAdvance => true
  | _ => false

def State.holdings (s : State) : Holdings :=
  { driver := s.driver
    releasedQ := s.releasedQ.contents
    decoder := s.decoder
    dispLoop := if s.loop.holds then some s.buffer else none }

def Holdings.At (h : Holdings) (i : Nat) : Place → Prop
  | .driver => i ∈ h.driver
  | .releasedQ => i ∈ h.releasedQ
  | .decoder => i ∈ h.decoder
  | .dispLoop => h.dispLoop = some i

/-- What a step does to the ring of released indices. -/
def State.action (s : State) : Event → Option Action
  | .dispLoop _ => if s.loop = .queueAdvance then some (.put s.buffer) else none
  | .decoder _ =>
    match s.decoding with
    | .dequeueAdvance ret => some (.take ret)
    | _ => none
  | _ => none

/-- What holds in a state that a run reaches. -/
structure Conserved (dec : Decode) (s : State) : Prop where
  fifo : ∀ e t, step dec s e = some t → Promised s e t →
    FifoStep MAX_BUF_NUM s.releasedQ.contents (s.action e) t.releasedQ.contents
  accepts : s.loop = .queueTest → queueBuf s.releasedQ s.buffer ≠ none
  enough : s.decoding = .dequeueTest →
    s.dequeuedCount ≤ queueSize s.releasedQ ∧ dequeueBuf s.releasedQ ≠ none
  obtained : s.decoding ≠ .countTaken none
  places : ∀ i < dec.nframes, ∃! place, s.holdings.At i place

end ImxTest.Vpu.Display
