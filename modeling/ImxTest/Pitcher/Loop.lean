import ImxTest.Lib.Runs
import Mathlib.Algebra.Order.Ring.Int

/-! The timers and the poll timeouts of pitcher/loop.c. A pass over one of the
two queues calls a function that may add to both. -/
namespace ImxTest.Pitcher.Loop
open Lib.Runs

def LOOP_TIMEOUT_DEFAULT : UInt32 := 1

def NSEC_PER_MSEC : UInt64 := 1000000

/-- The two queues of a loop: its timer tasks and its descriptors. -/
inductive Kind where
  | tasks | pools
deriving DecidableEq, Repr

/-- `struct pitcher_loop_node` -/
structure Node where
  key : Nat
  tv : UInt64
  timeout : UInt32
  times : Int
  /-- Where the countdown began and what it is for, and the clock readings since,
  the last one first. The code keeps none of them. -/
  began : UInt64
  span : UInt32
  readings : List UInt64

/-- A queue during a pass: what the pass is through with, what it will visit, and
what was added behind the last node it will visit. -/
structure Walk where
  visited : List Node := []
  todo : List Node := []
  late : List Node := []

def Walk.all (walk : Walk) : List Node := walk.visited ++ walk.todo ++ walk.late

/-- The next node of `list_for_each_entry_safe` is known before a node is visited,
so what is pushed while the last one is visited is not. -/
def Walk.push (walk : Walk) (node : Node) : Walk :=
  if walk.todo = [] then { walk with late := walk.late ++ [node] }
  else { walk with todo := walk.todo ++ [node] }

def Walk.start (walk : Walk) : Walk := { todo := walk.all }

inductive Phase where
  | idle
  | pass (kind : Kind)
  | func (kind : Kind) (node : Node)
  | events

/-- `struct pitcher_loop_t`, the fields of what was added, and the clock. -/
structure PitcherLoop where
  tv : UInt64 := 0
  timeout : UInt32 := LOOP_TIMEOUT_DEFAULT
  leftTime : UInt32 := 0
  walks : Kind → Walk := fun _ => {}
  /-- `task->interval` and `fd->timeout` as they were left. -/
  interval : Kind → Nat → UInt32 := fun _ _ => 0
  now : UInt64 := 0
  phase : Phase := .idle

def PitcherLoop.setWalk (loop : PitcherLoop) (kind : Kind) (walk : Walk) : PitcherLoop :=
  { loop with walks := fun k => if k = kind then walk else loop.walks k }

/-- What `__timer_func` and `__epoll_func` have in common up to the call of the
node's function: whether it is called, and what becomes of the node. -/
def elapse (tv : UInt64) (always : Bool) (interval : UInt32) (node : Node) : Bool × Node :=
  let delta := (tv - node.tv) / NSEC_PER_MSEC
  if always ∨ delta ≥ node.timeout.toUInt64 then
    (true, { node with tv, timeout := interval, began := tv, span := interval, readings := [tv] })
  else
    (false, { node with
      tv, timeout := node.timeout - delta.toUInt32, readings := tv :: node.readings })

def timerFunc (loop : PitcherLoop) (node : Node) : Bool × Node :=
  let interval := loop.interval .tasks node.key
  let (fires, node) := elapse loop.tv (interval = 0) interval node
  (fires, if fires ∧ node.times > 0 then { node with times := node.times - 1 } else node)

def epollFunc (loop : PitcherLoop) (node : Node) : Bool × Node :=
  elapse loop.tv false (loop.interval .pools node.key) node

def visitFunc (kind : Kind) : PitcherLoop → Node → Bool × Node :=
  match kind with
  | .tasks => timerFunc
  | .pools => epollFunc

/-- The rest of both functions; a timer that ran as often as it was to is
dropped. -/
def leave (loop : PitcherLoop) (kind : Kind) (node : Node) (isDel : Bool) : PitcherLoop :=
  if isDel ∨ (kind = .tasks ∧ node.times = 0) then loop
  else
    let walk := loop.walks kind
    let loop := loop.setWalk kind { walk with visited := walk.visited ++ [node] }
    if loop.leftTime > node.timeout then { loop with leftTime := node.timeout } else loop

/-- What is added, when, and whether there is a node for it and it is queued. -/
structure Add where
  key : Nat
  interval : UInt32
  times : Int
  tv : UInt64
  node : Bool
  queued : Bool

def Add.fresh (add : Add) (interval : UInt32) : Node :=
  { key := add.key, tv := add.tv, timeout := interval, times := add.times
    began := add.tv, span := interval, readings := [add.tv] }

/-- `pitcher_loop_add_task` and `pitcher_loop_add_poll_fd`, which sets the default
before it asks for a node. -/
def add (loop : PitcherLoop) (kind : Kind) (a : Add) : PitcherLoop :=
  let interval := if a.interval = 0 then LOOP_TIMEOUT_DEFAULT else a.interval
  let loop := { loop with now := a.tv }
  if kind = .tasks ∧ !a.node then loop
  else
    let loop :=
      { loop with
        interval := fun k key =>
          if k = kind ∧ key = a.key then interval else loop.interval k key }
    if !a.node ∨ !a.queued then loop
    else loop.setWalk kind ((loop.walks kind).push (a.fresh interval))

/-- `__del_task` and `__del_poll` over a queue. -/
def del (loop : PitcherLoop) (kind : Kind) (key : Nat) : PitcherLoop :=
  let walk := loop.walks kind
  loop.setWalk kind
    { visited := walk.visited.filter (·.key ≠ key)
      todo := walk.todo.filter (·.key ≠ key)
      late := walk.late.filter (·.key ≠ key) }

inductive Label where
  /-- `__pre_process` -/
  | tick (tv : UInt64)
  /-- `__timer_func` or `__epoll_func`, up to the call of the node's function -/
  | visit
  /-- The function returns. -/
  | ret (isDel : Bool)
  /-- A pass is over. -/
  | done
  | add (kind : Kind) (a : Add)
  | del (kind : Kind) (key : Nat)
  /-- The function of a descriptor returns, for what `epoll_wait` found. -/
  | event (key : Nat) (isDel : Bool)
  /-- `__post_process` -/
  | wait

/-- Where a node may be deleted: not the one whose function runs, nor the one that
is visited next. -/
def deletable (loop : PitcherLoop) (kind : Kind) (key : Nat) : Bool :=
  match loop.phase with
  | .pass _ => false
  | .func k node => k ≠ kind ∨ (node.key ≠ key ∧ (loop.walks k).todo.head?.all (·.key ≠ key))
  | _ => true

def calls : Phase → Bool
  | .pass _ => false
  | _ => true

def clock (loop : PitcherLoop) (tv : UInt64) : Prop := loop.now ≤ tv ∧ tv.toNat < 2 ^ 63

instance (loop : PitcherLoop) (tv : UInt64) : Decidable (clock loop tv) :=
  inferInstanceAs (Decidable (_ ∧ _))

def step (loop : PitcherLoop) : Label → Option PitcherLoop
  | .tick tv =>
    match loop.phase with
    | .idle =>
      if clock loop tv then
        let loop := { loop with tv, now := tv, leftTime := loop.timeout, phase := .pass .tasks }
        some (loop.setWalk .tasks (loop.walks .tasks).start)
      else none
    | _ => none
  | .visit =>
    match loop.phase with
    | .pass kind =>
      match (loop.walks kind).todo with
      | [] => none
      | node :: todo =>
        let (fires, node) := visitFunc kind loop node
        let loop := loop.setWalk kind { loop.walks kind with todo }
        some (if fires then { loop with phase := .func kind node } else leave loop kind node false)
    | _ => none
  | .ret isDel =>
    match loop.phase with
    | .func kind node => some (leave { loop with phase := .pass kind } kind node isDel)
    | _ => none
  | .done =>
    match loop.phase with
    | .pass kind =>
      if (loop.walks kind).todo ≠ [] then none
      else match kind with
        | .tasks =>
          some { loop.setWalk .pools (loop.walks .pools).start with phase := .pass .pools }
        | .pools => some { loop with phase := .events }
    | _ => none
  | .add kind a => if calls loop.phase ∧ clock loop a.tv then some (add loop kind a) else none
  | .del kind key => if deletable loop kind key then some (del loop kind key) else none
  | .event key isDel =>
    match loop.phase with
    | .events => some (if isDel then del loop .pools key else loop)
    | _ => none
  | .wait =>
    match loop.phase with
    | .events => some { loop with phase := .idle }
    | _ => none

def Step (s : PitcherLoop) (l : Label) (t : PitcherLoop) : Prop := step s l = some t

/-! ## What is known of a node -/

/-- The milliseconds between clock readings, the last one first, each gap cut to
whole ones. -/
def cuts : List UInt64 → Nat
  | new :: old :: rest => (new.toNat - old.toNat) / 1000000 + cuts (old :: rest)
  | _ => 0

/-- A node of a queue, or the one whose function runs. -/
def In (loop : PitcherLoop) (kind : Kind) (node : Node) : Prop :=
  node ∈ (loop.walks kind).all ∨ loop.phase = .func kind node

/-- What a countdown has come to: what is left of it and what has gone make up
all of it, and at least as much time has gone. -/
structure Counting (node : Node) : Prop where
  span : 0 < node.span.toNat
  left : node.timeout.toNat + cuts node.readings = node.span.toNat
  gone : node.began.toNat + cuts node.readings * 1000000 ≤ node.tv.toNat
  last : ∃ rest, node.readings = node.tv :: rest

/-- A node that is newer than the clock reading of the loop has not been visited. -/
structure Sound (loop : PitcherLoop) (kind : Kind) (node : Node) : Prop where
  interval : loop.interval kind node.key ≠ 0
  counting : Counting node
  fresh : loop.tv < node.tv → node.began = node.tv
  past : node.tv ≤ loop.now

structure Inv (loop : PitcherLoop) : Prop where
  tv : loop.tv ≤ loop.now
  range : loop.now.toNat < 2 ^ 63
  nodes : ∀ kind node, In loop kind node → Sound loop kind node

section Nodes
variable {new old : UInt64} {always : Bool} {interval : UInt32} {node : Node} {loop : PitcherLoop}
  {kind : Kind}

theorem delta_toNat (le : old ≤ new) :
    ((new - old) / NSEC_PER_MSEC).toNat = (new.toNat - old.toNat) / 1000000 := by
  rw [UInt64.toNat_div, UInt64.toNat_sub_of_le _ _ le]
  rfl

/-- The difference of a clock reading and a later one is as good as endless. -/
theorem delta_wraps (lt : new < old) (range : old.toNat < 2 ^ 63) :
    2 ^ 32 ≤ ((new - old) / NSEC_PER_MSEC).toNat := by
  have lt := UInt64.lt_iff_toNat_lt.mp lt
  rw [UInt64.toNat_div, UInt64.toNat_sub, Nat.mod_eq_of_lt (by omega)]
  change 2 ^ 32 ≤ _ / 1000000
  omega

/-- A node fires where its time is up, and where it is newer than the reading. -/
theorem elapse_fires (range : node.tv.toNat < 2 ^ 63) :
    (elapse new always interval node).1 = true ↔ always = true ∨ new < node.tv ∨
      node.timeout.toNat ≤ (new.toNat - node.tv.toNat) / 1000000 := by
  have small := node.timeout.toNat_lt
  have fires : (elapse new always interval node).1 = true ↔
      always = true ∨ node.timeout.toNat ≤ ((new - node.tv) / NSEC_PER_MSEC).toNat := by
    rw [elapse]
    split
    next due => simpa [UInt64.le_iff_toNat_le] using due
    next early => simpa [UInt64.le_iff_toNat_le] using early
  rw [fires]
  by_cases newer : new < node.tv
  · have wraps := delta_wraps newer range
    simp only [newer, true_or, or_true, iff_true]
    omega
  · rw [delta_toNat (UInt64.not_lt.mp newer)]
    simp only [newer, false_or]

theorem elapse_tv : (elapse new always interval node).2.tv = new := by
  rw [elapse]
  split <;> rfl

theorem elapse_key : (elapse new always interval node).2.key = node.key := by
  rw [elapse]
  split <;> rfl

theorem elapse_fired (fires : (elapse new always interval node).1 = true) :
    (elapse new always interval node).2.began = new ∧
      (elapse new always interval node).2.span = interval := by
  rw [elapse] at fires ⊢
  split at fires
  next due => simp only [if_pos due, and_self]
  · cases fires

theorem elapse_kept (waits : (elapse new always interval node).1 = false) :
    (elapse new always interval node).2.began = node.began ∧
      (elapse new always interval node).2.span = node.span ∧
      (elapse new always interval node).2.readings = new :: node.readings ∧
      (elapse new always interval node).2.timeout =
        node.timeout - ((new - node.tv) / NSEC_PER_MSEC).toUInt32 := by
  rw [elapse] at waits ⊢
  split at waits
  · cases waits
  next early => simp only [if_neg early, and_self]

theorem whole_gap {b c k n ms : Nat} (gone : b + c * ms ≤ k) (order : k ≤ n) :
    b + ((n - k) / ms + c) * ms ≤ n := by
  have whole := Nat.div_mul_le_self (n - k) ms
  rw [Nat.add_mul]
  omega

theorem elapse_counting (counting : Counting node) (range : node.tv.toNat < 2 ^ 63)
    (some_time : interval ≠ 0) : Counting (elapse new always interval node).2 := by
  cases fires : (elapse new always interval node).1 with
  | true =>
    rw [elapse] at fires ⊢
    split at fires
    next due =>
      rw [if_pos due]
      refine ⟨?_, Nat.add_zero _, ?_, ⟨[], rfl⟩⟩
      · exact Nat.pos_of_ne_zero fun zero => some_time (UInt32.toNat_inj.mp zero)
      · change new.toNat + 0 * 1000000 ≤ new.toNat
        omega
    · cases fires
  | false =>
    obtain ⟨began, span, readings, timeout⟩ := elapse_kept fires
    have early := (@elapse_fires new always interval node range).not.mp
      (by simp [fires])
    simp only [not_or, UInt64.not_lt, Nat.not_le] at early
    obtain ⟨-, ordered, early⟩ := early
    have order := UInt64.le_iff_toNat_le.mp ordered
    have delta := delta_toNat ordered
    have left : (elapse new always interval node).2.timeout.toNat =
        node.timeout.toNat - (new.toNat - node.tv.toNat) / 1000000 := by
      have small := node.timeout.toNat_lt
      have fits : (((new - node.tv) / NSEC_PER_MSEC).toUInt32).toNat =
          (new.toNat - node.tv.toNat) / 1000000 := by
        rw [UInt64.toNat_toUInt32, delta, Nat.mod_eq_of_lt (by omega)]
      rw [timeout, UInt32.toNat_sub_of_le _ _ (UInt32.le_iff_toNat_le.mpr (by omega)), fits]
    obtain ⟨rest, last⟩ := counting.last
    have cut : cuts (new :: node.readings) =
        (new.toNat - node.tv.toNat) / 1000000 + cuts node.readings := by
      rw [last, cuts]
    have all := counting.left
    have gone := counting.gone
    refine ⟨span ▸ counting.span, ?_, ?_, ⟨node.readings, ?_⟩⟩
    · rw [left, readings, cut, span]
      omega
    · rw [began, readings, cut, elapse_tv]
      exact whole_gap gone order
    · rw [readings, elapse_tv]

/-- What a visit makes of a node. -/
structure Visited (loop : PitcherLoop) (node : Node) (answer : Bool × Node) : Prop where
  key : answer.2.key = node.key
  tv : answer.2.tv = loop.tv
  counting : Counting answer.2
  fires : answer.1 = true ↔ loop.tv < node.tv ∨
    node.timeout.toNat ≤ (loop.tv.toNat - node.tv.toNat) / 1000000
  fired : answer.1 = true → answer.2.began = loop.tv
  kept : answer.1 = false → answer.2.began = node.began ∧ answer.2.span = node.span

theorem elapse_visited (counting : Counting node) (range : node.tv.toNat < 2 ^ 63)
    (some_time : interval ≠ 0) : Visited loop node (elapse loop.tv false interval node) where
  key := elapse_key
  tv := elapse_tv
  counting := elapse_counting counting range some_time
  fires := by simpa using @elapse_fires loop.tv false interval node range
  fired fires := (elapse_fired fires).1
  kept waits := ⟨(elapse_kept waits).1, (elapse_kept waits).2.1⟩

theorem Counting.ran (counting : Counting node) (times : Int) : Counting { node with times } :=
  ⟨counting.span, counting.left, counting.gone, counting.last⟩

theorem timerFunc_visited (counting : Counting node) (range : node.tv.toNat < 2 ^ 63)
    (some_time : loop.interval .tasks node.key ≠ 0) :
    Visited loop node (timerFunc loop node) := by
  have visited : Visited loop node (elapse loop.tv false (loop.interval .tasks node.key) node) :=
    elapse_visited counting range some_time
  rw [timerFunc, decide_eq_false some_time]
  constructor
  case fires => exact visited.fires
  all_goals simp only
  all_goals split
  case key.isTrue | key.isFalse => exact visited.key
  case tv.isTrue | tv.isFalse => exact visited.tv
  case counting.isTrue => exact visited.counting.ran _
  case counting.isFalse => exact visited.counting
  case fired.isTrue | fired.isFalse => exact visited.fired
  case kept.isTrue | kept.isFalse => exact visited.kept

theorem visitFunc_visited (sound : Sound loop kind node) (range : loop.now.toNat < 2 ^ 63) :
    Visited loop node (visitFunc kind loop node) := by
  have past := UInt64.le_iff_toNat_le.mp sound.past
  have small : node.tv.toNat < 2 ^ 63 := by omega
  cases kind with
  | tasks => exact timerFunc_visited sound.counting small sound.interval
  | pools => exact elapse_visited sound.counting small sound.interval

/-- A node that was just visited is sound. -/
theorem Visited.sound {answer : Bool × Node} (visited : Visited loop node answer)
    (some_time : loop.interval kind node.key ≠ 0) (tv : loop.tv ≤ loop.now) :
    Sound loop kind answer.2 where
  interval := visited.key.symm ▸ some_time
  counting := visited.counting
  fresh newer := absurd (visited.tv ▸ newer) (UInt64.lt_irrefl _)
  past := visited.tv.symm ▸ tv

end Nodes

/-! ## What a step keeps -/

section Steps
variable {s t : PitcherLoop} {l : Label} {kind k : Kind} {node : Node} {walk : Walk}

theorem Inv.of_nodes (inv : Inv s) (tv : t.tv = s.tv) (now : t.now = s.now)
    (interval : t.interval = s.interval)
    (nodes : ∀ kind node, In t kind node → In s kind node ∨ Sound s kind node) : Inv t where
  tv := tv.symm ▸ now.symm ▸ inv.tv
  range := now.symm ▸ inv.range
  nodes kind node mem := by
    have sound : Sound s kind node := (nodes kind node mem).elim (inv.nodes kind node) id
    exact ⟨interval.symm ▸ sound.interval, sound.counting, tv.symm ▸ sound.fresh,
      now.symm ▸ sound.past⟩

theorem mem_start {walk : Walk} : node ∈ walk.start.all ↔ node ∈ walk.all := by
  simp [Walk.start, Walk.all]

theorem mem_push {walk : Walk} {new : Node} :
    node ∈ (walk.push new).all ↔ node ∈ walk.all ∨ node = new := by
  rw [Walk.push]
  split
  · simp [Walk.all, or_assoc]
  · simp only [Walk.all, List.mem_append, List.mem_singleton]
    tauto

theorem in_setWalk (mem : In (s.setWalk kind walk) k node) :
    (k = kind ∧ node ∈ walk.all) ∨ In s k node := by
  rcases mem with mem | runs
  · by_cases same : k = kind
    · exact .inl ⟨same, by simpa [PitcherLoop.setWalk, same] using mem⟩
    · exact .inr (.inl (by simpa [PitcherLoop.setWalk, same] using mem))
  · exact .inr (.inr runs)

/-- A walk with no other nodes than the one it replaces. -/
theorem in_setWalk_sub (sub : ∀ node ∈ walk.all, node ∈ (s.walks kind).all)
    (mem : In (s.setWalk kind walk) k node) : In s k node := by
  rcases in_setWalk mem with ⟨rfl, inside⟩ | other
  · exact .inl (sub node inside)
  · exact other

theorem leave_frame {isDel : Bool} :
    (leave s kind node isDel).tv = s.tv ∧ (leave s kind node isDel).now = s.now ∧
      (leave s kind node isDel).interval = s.interval ∧
      (leave s kind node isDel).phase = s.phase := by
  rw [leave]
  split
  · exact ⟨rfl, rfl, rfl, rfl⟩
  · simp only
    split <;> exact ⟨rfl, rfl, rfl, rfl⟩

theorem in_leave {isDel : Bool} {other : Node} (mem : In (leave s kind node isDel) k other) :
    (k = kind ∧ other = node) ∨ In s k other := by
  rw [leave] at mem
  split at mem
  · exact .inr mem
  have left : In (s.setWalk kind { s.walks kind with visited := (s.walks kind).visited ++ [node] })
      k other := by
    simp only at mem
    split at mem <;> exact mem
  rcases in_setWalk left with ⟨same, mem⟩ | mem
  · simp only [Walk.all, List.mem_append, List.mem_singleton] at mem
    rcases mem with ((old | new) | old) | old
    · exact .inr (.inl (by simp [Walk.all, same, old]))
    · exact .inl ⟨same, new⟩
    · exact .inr (.inl (by simp [Walk.all, same, old]))
    · exact .inr (.inl (by simp [Walk.all, same, old]))
  · exact .inr mem

theorem visit_cases (taken : step s .visit = some t) :
    ∃ kind node todo, s.phase = .pass kind ∧ (s.walks kind).todo = node :: todo ∧
      t = if (visitFunc kind s node).1 then
          { s.setWalk kind { s.walks kind with todo } with
            phase := .func kind (visitFunc kind s node).2 }
        else leave (s.setWalk kind { s.walks kind with todo }) kind (visitFunc kind s node).2 false := by
  simp only [step] at taken
  split at taken
  next kind pass =>
    split at taken
    · cases taken
    next node todo front => exact ⟨kind, node, todo, pass, front, (Option.some.inj taken).symm⟩
  · cases taken

theorem visit_inv (taken : step s .visit = some t) (inv : Inv s) : Inv t := by
  obtain ⟨kind, node, todo, pass, front, rfl⟩ := visit_cases taken
  have sound := inv.nodes kind node (.inl (by simp [Walk.all, front]))
  have visited := (visitFunc_visited sound inv.range).sound sound.interval inv.tv
  have sub : ∀ n ∈ Walk.all { s.walks kind with todo }, n ∈ (s.walks kind).all := by
    intro n mem
    simp only [Walk.all, front, List.mem_append, List.mem_cons] at mem ⊢
    tauto
  split
  · refine inv.of_nodes rfl rfl rfl fun k n mem => ?_
    rcases mem with mem | runs
    · exact .inl (in_setWalk_sub sub (.inl mem))
    · cases runs
      exact .inr visited
  · obtain ⟨tv, now, interval, -⟩ := @leave_frame (s.setWalk kind { s.walks kind with todo }) kind
      (visitFunc kind s node).2 false
    refine inv.of_nodes tv now interval fun k n mem => ?_
    rcases in_leave mem with ⟨rfl, rfl⟩ | mem
    · exact .inr visited
    · exact .inl (in_setWalk_sub sub mem)

theorem tick_inv {tv : UInt64} (taken : step s (.tick tv) = some t) (inv : Inv s) : Inv t := by
  simp only [step] at taken
  split at taken
  · split at taken
    next ordered =>
      cases taken
      have later := UInt64.le_iff_toNat_le.mp ordered.1
      refine ⟨UInt64.le_refl tv, ordered.2, fun k n mem => ?_⟩
      have old : In s k n := by
        rcases mem with mem | runs
        · exact in_setWalk_sub (fun _ => mem_start.mp) (.inl mem)
        · cases runs
      have sound := inv.nodes k n old
      have before : n.tv ≤ tv := UInt64.le_trans sound.past ordered.1
      exact ⟨sound.interval, sound.counting, fun newer => absurd newer (UInt64.not_lt.mpr before),
        before⟩
    · cases taken
  · cases taken

theorem ret_inv {isDel : Bool} (taken : step s (.ret isDel) = some t) (inv : Inv s) : Inv t := by
  simp only [step] at taken
  split at taken
  next kind node runs =>
    cases taken
    obtain ⟨tv, now, interval, -⟩ := @leave_frame { s with phase := .pass kind } kind node isDel
    refine inv.of_nodes tv now interval fun k n mem => ?_
    rcases in_leave mem with ⟨rfl, rfl⟩ | inside | runs
    · exact .inl (.inr runs)
    · exact .inl (.inl inside)
    · cases runs
  · cases taken

theorem done_cases (taken : step s .done = some t) :
    ∃ kind, s.phase = .pass kind ∧ (s.walks kind).todo = [] ∧
      ((kind = .tasks ∧ t = { s.setWalk .pools (s.walks .pools).start with phase := .pass .pools }) ∨
        (kind = .pools ∧ t = { s with phase := .events })) := by
  simp only [step] at taken
  split at taken
  next kind pass =>
    split at taken
    · cases taken
    next none =>
      refine ⟨kind, pass, Decidable.not_not.mp none, ?_⟩
      cases kind with
      | tasks => exact .inl ⟨rfl, (Option.some.inj taken).symm⟩
      | pools => exact .inr ⟨rfl, (Option.some.inj taken).symm⟩
  · cases taken

theorem done_inv (taken : step s .done = some t) (inv : Inv s) : Inv t := by
  obtain ⟨kind, pass, -, ⟨-, rfl⟩ | ⟨-, rfl⟩⟩ := done_cases taken
  · refine inv.of_nodes rfl rfl rfl fun k n mem => .inl ?_
    rcases mem with mem | runs
    · exact in_setWalk_sub (fun _ => mem_start.mp) (.inl mem)
    · cases runs
  · refine inv.of_nodes rfl rfl rfl fun k n mem => .inl ?_
    rcases mem with mem | runs
    · exact .inl mem
    · cases runs

theorem del_inv {key : Nat} (inv : Inv s) : Inv (del s kind key) := by
  refine inv.of_nodes rfl rfl rfl fun k n mem => .inl (in_setWalk_sub ?_ mem)
  intro n mem
  simp only [Walk.all, List.mem_append, List.mem_filter] at mem ⊢
  tauto

/-- The interval of a node that is added is never zero. -/
theorem added_interval (interval : UInt32) :
    (if interval = 0 then LOOP_TIMEOUT_DEFAULT else interval) ≠ 0 := by
  split
  · decide
  · assumption

theorem fresh_counting (a : Add) {interval : UInt32} (some_time : interval ≠ 0) :
    Counting (a.fresh interval) where
  span := Nat.pos_of_ne_zero fun zero => some_time (UInt32.toNat_inj.mp zero)
  left := Nat.add_zero _
  gone := by
    change a.tv.toNat + 0 * 1000000 ≤ a.tv.toNat
    omega
  last := ⟨[], rfl⟩

theorem Inv.later {tv : UInt64} (inv : Inv s) (ordered : clock s tv) : Inv { s with now := tv } where
  tv := UInt64.le_trans inv.tv ordered.1
  range := ordered.2
  nodes k n mem := by
    have sound := inv.nodes k n mem
    exact ⟨sound.interval, sound.counting, sound.fresh, UInt64.le_trans sound.past ordered.1⟩

theorem Inv.set {interval : UInt32} {key : Nat} (inv : Inv s) (some_time : interval ≠ 0) :
    Inv { s with
      interval := fun k other => if k = kind ∧ other = key then interval else s.interval k other } where
  tv := inv.tv
  range := inv.range
  nodes k n mem := by
    have sound := inv.nodes k n mem
    refine ⟨?_, sound.counting, sound.fresh, sound.past⟩
    simp only
    split
    · exact some_time
    · exact sound.interval

theorem add_inv {a : Add} (ordered : clock s a.tv) (inv : Inv s) : Inv (add s kind a) := by
  have some_time := added_interval a.interval
  have before := inv.later ordered
  rw [add]
  generalize (if a.interval = 0 then LOOP_TIMEOUT_DEFAULT else a.interval) = interval at some_time ⊢
  simp only
  split
  · exact before
  have known := @Inv.set _ kind interval a.key before some_time
  split
  · exact known
  · refine known.of_nodes rfl rfl rfl fun k n mem => ?_
    rcases in_setWalk mem with ⟨rfl, inside⟩ | old
    · rcases mem_push.mp inside with old | rfl
      · exact .inl (.inl old)
      · refine .inr ⟨?_, fresh_counting a some_time, fun _ => rfl, UInt64.le_refl _⟩
        simpa [Add.fresh] using some_time
    · exact .inl old

theorem step_inv (taken : Step s l t) (inv : Inv s) : Inv t := by
  cases l with
  | tick tv => exact tick_inv taken inv
  | visit => exact visit_inv taken inv
  | ret isDel => exact ret_inv taken inv
  | done => exact done_inv taken inv
  | add kind a =>
    simp only [Step, step] at taken
    split at taken
    next allowed => exact Option.some.inj taken ▸ add_inv allowed.2 inv
    · cases taken
  | del kind key =>
    simp only [Step, step] at taken
    split at taken
    · exact Option.some.inj taken ▸ del_inv inv
    · cases taken
  | event key isDel =>
    simp only [Step, step] at taken
    split at taken
    · cases taken
      split
      · exact del_inv inv
      · exact inv
    · cases taken
  | wait =>
    simp only [Step, step] at taken
    split at taken
    · cases taken
      refine inv.of_nodes rfl rfl rfl fun k n mem => .inl ?_
      rcases mem with mem | runs
      · exact .inl mem
      · cases runs
    · cases taken

end Steps

end ImxTest.Pitcher.Loop
