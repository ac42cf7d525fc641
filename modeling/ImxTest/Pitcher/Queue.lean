import ImxTest.Lib.Ring
import ImxTest.Lib.While
import ImxTest.Pitcher.Def

/-! The queue of pitcher/queue.c: a ring of nodes in use and a ring of at most
sixteen nodes kept for later. `memory` says whether an allocation succeeds. -/
namespace ImxTest.Pitcher.Queue

open Lib.Ring Lib.While

/-- The two heads of a queue and its nodes, numbered as they are allocated. -/
inductive Ptr where
  | queue | idles | node (id : Nat)
deriving DecidableEq, Repr

/-- `struct queue_t` and its nodes. -/
structure QueueT where
  links : Links Ptr
  item : Nat → UInt64
  idleNum : Int
  count : Int
  allocs : Nat
  frees : List Nat

/-- A pointer to a node that is none. -/
inductive Stray where
  | stray
deriving DecidableEq, Repr

def QUEUE_IDLE_MAX_THD : Int := 16

def allocNode (q : QueueT) (memory : Bool) : Option Nat × QueueT :=
  if memory then
    (some q.allocs,
      { q with
        links := init q.links (.node q.allocs)
        item := Function.update q.item q.allocs 0
        allocs := q.allocs + 1 })
  else (none, q)

def freeNode (q : QueueT) (node : Nat) : QueueT :=
  { q with links := delInit q.links (.node node), frees := q.frees ++ [node] }

def getIdleNode (q : QueueT) (memory : Bool) : Option Nat × QueueT :=
  match q.links.next .idles with
  | .node node =>
    (some node, { q with links := delInit q.links (.node node), idleNum := q.idleNum - 1 })
  | _ => allocNode q memory

def putIdleNode (q : QueueT) (node : Nat) : QueueT :=
  if q.idleNum < QUEUE_IDLE_MAX_THD then
    { q with links := addTail q.links (.node node) .idles, idleNum := q.idleNum + 1 }
  else freeNode q node

def removeQueueNode (q : QueueT) (node : Nat) : QueueT :=
  { q with links := delInit q.links (.node node), count := q.count - 1 }

def pushNodeToQueue (q : QueueT) (node : Nat) : QueueT :=
  { q with links := addTail q.links (.node node) .queue, count := q.count + 1 }

def popNodeFromQueue (q : QueueT) : Option Nat × QueueT :=
  match q.links.next .queue with
  | .node node => (some node, removeQueueNode q node)
  | _ => (none, q)

def pitcherInitQueue : QueueT :=
  { links := init (init ⟨id, id⟩ .queue) .idles
    item := fun _ => 0, idleNum := 0, count := 0, allocs := 0, frees := [] }

def pitcherQueuePushBack (q : QueueT) (item : UInt64) (memory : Bool) : Ret × QueueT :=
  match getIdleNode q memory with
  | (none, q) => (.E_NO_MEMORY, q)
  | (some node, q) => (.OK, pushNodeToQueue { q with item := Function.update q.item node item } node)

/-- The item is read from the node before the node is put away. -/
def pitcherQueuePop (q : QueueT) : Ret × Option UInt64 × QueueT :=
  match popNodeFromQueue q with
  | (none, q) => (.E_EMPTY, none, q)
  | (some node, q) => (.OK, some (q.item node), putIdleNode q node)

def pitcherQueueIsEmpty (q : QueueT) : Bool := isEmpty q.links .queue

def pitcherQueueCount (q : QueueT) : Int := q.count

/-! ## Callbacks -/

/-- What a callback does with the item it visits, in a state of its own: whether
it returns non-zero, and what it pushes to the queue meanwhile. -/
structure Reply (σ : Type) where
  delete : Bool
  pushes : List (UInt64 × Bool)
  state : σ

abbrev QueueCallback (σ : Type) := UInt64 → σ → Reply σ

/-- A callback that is a null pointer is not called. -/
def reply {σ : Type} (func : Option (QueueCallback σ)) (item : UInt64) (state : σ) : Reply σ :=
  match func with
  | none => { delete := false, pushes := [], state }
  | some f => f item state

def pushAll (q : QueueT) (pushes : List (UInt64 × Bool)) : QueueT :=
  pushes.foldl (fun q push => (pitcherQueuePushBack q push.1 push.2).2) q

/-- The variables of `list_for_each_entry_safe` over the queue; `visited` holds
the items the callback was called for. -/
structure Walk (σ : Type) where
  queue : QueueT
  pos : Ptr
  state : σ
  visited : List UInt64 := []

section walks
variable {σ : Type}

def Walk.start (q : QueueT) (state : σ) : Walk σ := { queue := q, pos := q.links.next .queue, state }

def enumerateTurn (func : QueueCallback σ) (w : Walk σ) : Except Stray (Turn (Walk σ) (Walk σ)) :=
  match w.pos with
  | .idles => .error .stray
  | .queue => .ok (.leave w)
  | .node node =>
    let tmp := w.queue.links.next (.node node)
    let item := w.queue.item node
    let answer := func item w.state
    let q := pushAll w.queue answer.pushes
    let q := if answer.delete then putIdleNode (removeQueueNode q node) node else q
    .ok (.again { queue := q, pos := tmp, state := answer.state, visited := w.visited ++ [item] })

/-- A node is taken out before the callback is called with its item. -/
def clearTurn (func : Option (QueueCallback σ)) (w : Walk σ) : Except Stray (Turn (Walk σ) (Walk σ)) :=
  match w.pos with
  | .idles => .error .stray
  | .queue => .ok (.leave w)
  | .node node =>
    let tmp := w.queue.links.next (.node node)
    let q := removeQueueNode w.queue node
    let item := q.item node
    let answer := reply func item w.state
    let q := putIdleNode (pushAll q answer.pushes) node
    .ok (.again { queue := q, pos := tmp, state := answer.state, visited := w.visited ++ [item] })

def findTurn (func : Option (QueueCallback σ)) (compare : UInt64 → UInt64 → Bool) (key : UInt64)
    (w : Walk σ) : Except Stray (Turn (Walk σ) (Ret × Walk σ)) :=
  match w.pos with
  | .idles => .error .stray
  | .queue => .ok (.leave (.E_NOT_FOUND, w))
  | .node node =>
    let tmp := w.queue.links.next (.node node)
    let item := w.queue.item node
    if compare item key then
      let answer := reply func item w.state
      let q := pushAll w.queue answer.pushes
      let q := if answer.delete then putIdleNode (removeQueueNode q node) node else q
      .ok (.leave (.OK, { queue := q, pos := tmp, state := answer.state, visited := w.visited ++ [item] }))
    else .ok (.again { w with pos := tmp })

/-! `fuel` bounds the turns of a loop that need not end: a callback may push an
item for each it visits. -/

def pitcherQueueEnumerate (fuel : Nat) (q : QueueT) (func : Option (QueueCallback σ)) (state : σ) :
    Option (Except Stray (Walk σ)) :=
  match func with
  | none => some (.ok (Walk.start q state))
  | some f => run (enumerateTurn f) fuel (Walk.start q state)

def pitcherQueueClear (fuel : Nat) (q : QueueT) (func : Option (QueueCallback σ)) (state : σ) :
    Option (Except Stray (Walk σ)) :=
  run (clearTurn func) fuel (Walk.start q state)

def pitcherQueueFind (fuel : Nat) (q : QueueT) (func : Option (QueueCallback σ))
    (compare : UInt64 → UInt64 → Bool) (key : UInt64) (state : σ) :
    Option (Except Stray (Ret × Walk σ)) :=
  run (findTurn func compare key) fuel (Walk.start q state)

/-- A call of the queue's functions. -/
inductive Op (σ : Type) where
  | pushBack (item : UInt64) (memory : Bool)
  | pop
  | clear (func : Option (QueueCallback σ)) (state : σ)
  | enumerate (func : Option (QueueCallback σ)) (state : σ)
  | find (func : Option (QueueCallback σ)) (compare : UInt64 → UInt64 → Bool) (key : UInt64) (state : σ)
  | isEmpty
  | count

/-- What a call returns, the items its callback was called for and the state the
callback left. -/
inductive Out (σ : Type) where
  | pushed (ret : Ret)
  | popped (ret : Ret) (item : Option UInt64)
  | walked (visited : List UInt64) (state : σ)
  | found (ret : Ret) (visited : List UInt64) (state : σ)
  | empty (flag : Bool)
  | number (count : Int)

def call (fuel : Nat) (q : QueueT) : Op σ → Option (Except Stray (Out σ × QueueT))
  | .pushBack item memory =>
    let result := pitcherQueuePushBack q item memory
    some (.ok (.pushed result.1, result.2))
  | .pop =>
    let result := pitcherQueuePop q
    some (.ok (.popped result.1 result.2.1, result.2.2))
  | .clear func state =>
    (pitcherQueueClear fuel q func state).map (Except.map fun w => (.walked w.visited w.state, w.queue))
  | .enumerate func state =>
    (pitcherQueueEnumerate fuel q func state).map
      (Except.map fun w => (.walked w.visited w.state, w.queue))
  | .find func compare key state =>
    (pitcherQueueFind fuel q func compare key state).map
      (Except.map fun result => (.found result.1 result.2.visited result.2.state, result.2.queue))
  | .isEmpty => some (.ok (.empty (pitcherQueueIsEmpty q), q))
  | .count => some (.ok (.number (pitcherQueueCount q), q))

end walks

/-- The first loop of `pitcher_destroy_queue`. -/
def drainTurn (w : QueueT × Ptr) : Except Stray (Turn (QueueT × Ptr) QueueT) :=
  match w.2 with
  | .idles => .error .stray
  | .queue => .ok (.leave w.1)
  | .node node =>
    .ok (.again (putIdleNode (removeQueueNode w.1 node) node, w.1.links.next (.node node)))

/-- The second loop. -/
def dropTurn (w : QueueT × Ptr) : Except Stray (Turn (QueueT × Ptr) QueueT) :=
  match w.2 with
  | .queue => .error .stray
  | .idles => .ok (.leave w.1)
  | .node node =>
    let q := { w.1 with links := delInit w.1.links (.node node), idleNum := w.1.idleNum - 1 }
    .ok (.again (freeNode q node, w.1.links.next (.node node)))

def pitcherDestroyQueue (fuel : Nat) (q : QueueT) : Option (Except Stray QueueT) :=
  match run drainTurn fuel (q, q.links.next .queue) with
  | none => none
  | some (.error e) => some (.error e)
  | some (.ok q) => run dropTurn fuel (q, q.links.next .idles)

end ImxTest.Pitcher.Queue
