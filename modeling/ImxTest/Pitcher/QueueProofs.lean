import ImxTest.Pitcher.Fifo
import Mathlib.Data.List.Basic
import Mathlib.Data.List.Perm.Basic

/-! A queue is a list of values: the nodes in use, the idle nodes, the nodes in
hand and the freed ones are all the nodes there are, each once. -/
namespace ImxTest.Pitcher.Queue

open Lib.Ring Lib.While

/-- Where the nodes of a queue are. -/
structure Owns (q : QueueT) (live idle hand : List Nat) : Prop where
  queue : Holds q.links .queue (live.map .node)
  idles : Holds q.links .idles (idle.map .node)
  apart : ∀ n ∈ hand, Alone q.links (.node n)
  nodes : (live ++ idle ++ hand ++ q.frees).Perm (List.range q.allocs)
  count : q.count = live.length
  idleNum : q.idleNum = idle.length
  bound : idle.length ≤ 16

variable {q : QueueT} {live idle hand : List Nat} {n : Nat}

theorem Owns.distinct (owns : Owns q live idle hand) : (live ++ idle ++ hand ++ q.frees).Nodup :=
  owns.nodes.nodup_iff.mpr List.nodup_range

theorem Owns.fresh (owns : Owns q live idle hand) : q.allocs ∉ live ++ idle ++ hand ++ q.frees := by
  intro mem
  have below := List.mem_range.mp (owns.nodes.mem_iff.mp mem)
  exact Nat.lt_irrefl _ below

theorem Owns.live_idle (owns : Owns q live idle hand) : ∀ m ∈ live, m ∉ idle := by
  have distinct := owns.distinct
  simp only [List.append_assoc] at distinct
  intro m left right
  exact List.disjoint_of_nodup_append distinct left (List.mem_append_left _ right)

theorem Owns.hand_apart (owns : Owns q live idle hand) (held : n ∈ hand) : n ∉ live ∧ n ∉ idle := by
  have distinct := owns.distinct
  rw [List.append_assoc] at distinct
  have apart := List.disjoint_of_nodup_append distinct
  constructor
  · exact fun mem => apart (List.mem_append_left idle mem) (List.mem_append_left q.frees held)
  · exact fun mem => apart (List.mem_append_right live mem) (List.mem_append_left q.frees held)

/-- A head and its nodes. -/
theorem mem_places {head p : Ptr} {nodes : List Nat} :
    p ∈ head :: nodes.map Ptr.node ↔ p = head ∨ ∃ m ∈ nodes, Ptr.node m = p := by
  simp only [List.mem_cons, List.mem_map]

theorem node_mem {head : Ptr} (other : Ptr.node n ≠ head) {nodes : List Nat} :
    Ptr.node n ∈ head :: nodes.map Ptr.node ↔ n ∈ nodes := by
  simp only [List.mem_cons, other, List.mem_map, Ptr.node.injEq, exists_eq_right, false_or]

theorem Owns.idles_apart (owns : Owns q live idle hand) :
    ∀ p ∈ Ptr.idles :: idle.map Ptr.node, p ∉ Ptr.queue :: live.map Ptr.node := by
  intro p one other
  rcases mem_places.mp one with rfl | ⟨m, left, rfl⟩
  · simp at other
  · exact owns.live_idle m ((node_mem (by simp)).mp other) left

theorem Owns.queue_apart (owns : Owns q live idle hand) :
    ∀ p ∈ Ptr.queue :: live.map Ptr.node, p ∉ Ptr.idles :: idle.map Ptr.node :=
  fun p one other => owns.idles_apart p other one

theorem Owns.away (owns : Owns q live idle hand) (held : n ∈ hand) :
    Ptr.node n ∉ Ptr.queue :: live.map Ptr.node ∧ Ptr.node n ∉ Ptr.idles :: idle.map Ptr.node := by
  obtain ⟨one, other⟩ := owns.hand_apart held
  exact ⟨mt (node_mem (by simp)).mp one, mt (node_mem (by simp)).mp other⟩

/-! ## The node operations -/

theorem init_owns : Owns pitcherInitQueue [] [] [] where
  queue := by
    apply (init_holds ⟨id, id⟩ Ptr.queue).frame
    · intro p mem
      exact (init_other (by simp_all)).1
    · intro p mem
      exact (init_other (by simp_all)).2
  idles := init_holds ..
  apart := nofun
  nodes := .refl _
  count := rfl
  idleNum := rfl
  bound := Nat.zero_le _

theorem allocNode_owns (owns : Owns q live idle hand) :
    Owns (allocNode q true).2 live idle (q.allocs :: hand) := by
  have fresh := owns.fresh
  have other {p : Ptr} (known : ∀ m, p = .node m → m ∈ live ++ idle ++ hand ++ q.frees) :
      p ≠ .node q.allocs := fun same => fresh (known _ same)
  have there {head : Ptr} {nodes : List Nat} (outside : head ≠ .node q.allocs)
      (sub : ∀ m ∈ nodes, m ∈ live ++ idle ++ hand ++ q.frees)
      (holds : Holds q.links head (nodes.map .node)) :
      Holds (init q.links (.node q.allocs)) head (nodes.map .node) := by
    have untouched : ∀ p ∈ head :: nodes.map Ptr.node, p ≠ .node q.allocs := by
      intro p mem
      rcases mem_places.mp mem with rfl | ⟨m, left, rfl⟩
      · exact outside
      · exact other fun m' same => Ptr.node.inj same ▸ sub m left
    exact holds.frame (fun p mem => (init_other (untouched p mem)).1)
      fun p mem => (init_other (untouched p mem)).2
  refine ⟨there (by simp) ?_ owns.queue, there (by simp) ?_ owns.idles, ?_, ?_, owns.count, owns.idleNum, owns.bound⟩
  · simp_all
  · simp_all
  · intro m mem
    rcases List.mem_cons.mp mem with rfl | held
    · exact init_alone ..
    · have known : Ptr.node m ≠ .node q.allocs := by
        apply other
        rintro m' ⟨⟩
        exact List.mem_append_left _ (List.mem_append_right _ held)
      obtain ⟨forward, back⟩ := init_other (l := q.links) known
      exact ⟨forward.trans (owns.apart m held).1, back.trans (owns.apart m held).2⟩
  · change (live ++ idle ++ q.allocs :: hand ++ q.frees).Perm (List.range (q.allocs + 1))
    have known (m : Nat) := List.perm_iff_count.mp owns.nodes m
    rw [List.range_succ, List.perm_iff_count]
    intro m
    simp only [List.count_append, List.count_cons, List.count_nil] at known ⊢
    have here := known m
    omega

theorem removeQueueNode_owns {after : List Nat} (owns : Owns q (live ++ n :: after) idle hand) :
    Owns (removeQueueNode q n) (live ++ after) idle (n :: hand) := by
  have listed : Holds q.links .queue (live.map Ptr.node ++ .node n :: after.map .node) := by
    simpa only [List.map_append, List.map_cons] using owns.queue
  refine ⟨?_, ?_, ?_, ?_, ?_, owns.idleNum, owns.bound⟩
  · rw [List.map_append]
    exact listed.delInit
  · apply owns.idles.delInit_apart listed
    simpa only [List.map_append, List.map_cons] using owns.idles_apart
  · intro m mem
    rcases List.mem_cons.mp mem with rfl | held
    · exact delInit_alone ..
    · apply (owns.apart m held).delInit listed
      simpa only [List.map_append, List.map_cons] using (owns.away held).1
  · refine List.Perm.trans ?_ owns.nodes
    change (live ++ after ++ idle ++ n :: hand ++ q.frees).Perm (live ++ n :: after ++ idle ++ hand ++ q.frees)
    rw [List.perm_iff_count]
    intro m
    simp only [List.count_append, List.count_cons]
    omega
  · simp only [removeQueueNode, owns.count, List.length_append, List.length_cons]
    omega

/-- The first idle node is taken in hand. -/
theorem takeIdle_owns (owns : Owns q live (n :: idle) hand) :
    Owns { q with links := delInit q.links (.node n), idleNum := q.idleNum - 1 } live idle (n :: hand) := by
  have listed : Holds q.links .idles ([] ++ Ptr.node n :: idle.map .node) := owns.idles
  refine ⟨?_, ?_, ?_, ?_, owns.count, ?_, ?_⟩
  · exact owns.queue.delInit_apart listed owns.queue_apart
  · exact listed.delInit
  · intro m mem
    rcases List.mem_cons.mp mem with rfl | held
    · exact delInit_alone ..
    · exact (owns.apart m held).delInit listed (owns.away held).2
  · refine List.Perm.trans ?_ owns.nodes
    change (live ++ idle ++ n :: hand ++ q.frees).Perm (live ++ n :: idle ++ hand ++ q.frees)
    rw [List.perm_iff_count]
    intro m
    simp only [List.count_append, List.count_cons]
    omega
  · simp only [owns.idleNum, List.length_cons]
    omega
  · exact Nat.le_of_succ_le owns.bound

/-- The nodes in hand are no entries of a list they are put at the end of. -/
theorem Owns.others (owns : Owns q live idle (n :: hand)) : n ∉ hand := by
  have distinct := owns.distinct
  rw [List.append_assoc, List.nodup_append] at distinct
  have held := distinct.2.1
  rw [List.cons_append, List.nodup_cons] at held
  exact fun mem => held.1 (List.mem_append_left _ mem)

theorem pushNodeToQueue_owns (owns : Owns q live idle (n :: hand)) :
    Owns (pushNodeToQueue q n) (live ++ [n]) idle hand := by
  obtain ⟨offQueue, offIdles⟩ := owns.away (List.mem_cons_self)
  refine ⟨?_, ?_, ?_, ?_, ?_, owns.idleNum, owns.bound⟩
  · rw [List.map_append]
    exact owns.queue.addTail offQueue
  · exact owns.idles.addTail_apart owns.queue owns.idles_apart offIdles
  · intro m held
    have differ : Ptr.node m ≠ .node n := by
      rintro ⟨⟩
      exact owns.others held
    exact (owns.apart m (List.mem_cons_of_mem n held)).addTail owns.queue
      (owns.away (List.mem_cons_of_mem n held)).1 differ
  · refine List.Perm.trans ?_ owns.nodes
    change (live ++ [n] ++ idle ++ hand ++ q.frees).Perm (live ++ idle ++ n :: hand ++ q.frees)
    rw [List.perm_iff_count]
    intro m
    simp only [List.count_append, List.count_cons, List.count_nil]
    omega
  · simp only [pushNodeToQueue, owns.count, List.length_append, List.length_singleton]
    rfl

theorem freeNode_owns (owns : Owns q live idle (n :: hand)) : Owns (freeNode q n) live idle hand := by
  have same : (freeNode q n).links = q.links := delInit_of_alone (owns.apart n List.mem_cons_self)
  refine ⟨same ▸ owns.queue, same ▸ owns.idles, ?_, ?_, owns.count, owns.idleNum, owns.bound⟩
  · exact fun m held => same ▸ owns.apart m (List.mem_cons_of_mem n held)
  · refine List.Perm.trans ?_ owns.nodes
    change (live ++ idle ++ hand ++ (q.frees ++ [n])).Perm (live ++ idle ++ n :: hand ++ q.frees)
    rw [List.perm_iff_count]
    intro m
    simp only [List.count_append, List.count_cons, List.count_nil]
    omega

/-- A node is kept for later, or freed when sixteen are kept already. -/
theorem putIdleNode_owns (owns : Owns q live idle (n :: hand)) :
    ∃ idle', Owns (putIdleNode q n) live idle' hand ∧ idle'.length = min 16 (idle.length + 1) := by
  have bound := owns.bound
  have counted := owns.idleNum
  unfold putIdleNode QUEUE_IDLE_MAX_THD
  by_cases room : q.idleNum < 16
  · rw [if_pos room]
    obtain ⟨offQueue, offIdles⟩ := owns.away (List.mem_cons_self)
    refine ⟨idle ++ [n], ⟨?_, ?_, ?_, ?_, owns.count, ?_, ?_⟩, ?_⟩
    · exact owns.queue.addTail_apart owns.idles owns.queue_apart offQueue
    · rw [List.map_append]
      exact owns.idles.addTail offIdles
    · intro m held
      have differ : Ptr.node m ≠ .node n := by
        rintro ⟨⟩
        exact owns.others held
      exact (owns.apart m (List.mem_cons_of_mem n held)).addTail owns.idles
        (owns.away (List.mem_cons_of_mem n held)).2 differ
    · refine List.Perm.trans ?_ owns.nodes
      change (live ++ (idle ++ [n]) ++ hand ++ q.frees).Perm (live ++ idle ++ n :: hand ++ q.frees)
      rw [List.perm_iff_count]
      intro m
      simp only [List.count_append, List.count_cons, List.count_nil]
      omega
    · simp only [counted, List.length_append, List.length_singleton]
      rfl
    · simp only [List.length_append, List.length_singleton]
      omega
    · simp only [List.length_append, List.length_singleton]
      omega
  · rw [if_neg room]
    refine ⟨idle, freeNode_owns owns, ?_⟩
    omega

@[simp] theorem putIdleNode_item (q : QueueT) (n : Nat) : (putIdleNode q n).item = q.item := by
  unfold putIdleNode
  split
  · rfl
  · rfl

@[simp] theorem removeQueueNode_item (q : QueueT) (n : Nat) : (removeQueueNode q n).item = q.item := rfl

/-- The place behind the nodes `done` of the queue. -/
def place : List Nat → Ptr
  | [] => .queue
  | n :: _ => .node n

theorem Owns.first (owns : Owns q live idle hand) : q.links.next .queue = place live := by
  cases live with
  | nil => exact owns.queue.path.1
  | cons n live => exact owns.queue.path.1

theorem Owns.following {done rest : List Nat} (owns : Owns q (done ++ n :: rest) idle hand) :
    q.links.next (.node n) = place rest := by
  have path := owns.queue.path
  rw [List.map_append, List.map_cons, path_append] at path
  cases rest with
  | nil => exact path.2.1
  | cons m rest => exact path.2.1

/-- A node is in hand when an idle one is kept or memory is left for a new one. -/
theorem getIdleNode_owns (memory : Bool) (owns : Owns q live idle hand) :
    (idle = [] ∧ memory = false ∧ getIdleNode q memory = (none, q)) ∨
    ∃ n idle', (0 < idle.length ∨ memory = true) ∧ (getIdleNode q memory).1 = some n ∧
      Owns (getIdleNode q memory).2 live idle' (n :: hand) ∧ idle'.length = idle.length - 1 ∧
      ∀ m, m ≠ q.allocs → (getIdleNode q memory).2.item m = q.item m := by
  cases idle with
  | cons n idle =>
    right
    have first : q.links.next .idles = .node n := owns.idles.path.1
    refine ⟨n, idle, .inl (Nat.succ_pos _), ?_, ?_, rfl, ?_⟩
    · simp only [getIdleNode, first]
    · simpa only [getIdleNode, first] using takeIdle_owns owns
    · intro m _
      simp only [getIdleNode, first]
  | nil =>
    have none_ : q.links.next .idles = .idles := owns.idles.path.1
    cases memory with
    | false => exact .inl ⟨rfl, rfl, by simp only [getIdleNode, none_, allocNode]; rfl⟩
    | true =>
      right
      have same : getIdleNode q true = allocNode q true := by simp only [getIdleNode, none_]
      rw [same]
      refine ⟨q.allocs, [], .inr rfl, rfl, allocNode_owns owns, rfl, ?_⟩
      exact fun m other => Function.update_of_ne other ..

/-! ## The values of the nodes in use -/

/-- A list of values stands for a queue. -/
def Represents (q : QueueT) (f : Fifo) : Prop :=
  ∃ live idle, Owns q live idle [] ∧ f.items = live.map q.item ∧ f.spare = idle.length

/-- A push adds at most one node behind those in use, and no other node's item
changes. -/
theorem pushBack_owns (owns : Owns q live idle hand) (item : UInt64) (memory : Bool) :
    ∃ fresh idle', Owns (pitcherQueuePushBack q item memory).2 (live ++ fresh) idle' hand ∧
      (pitcherQueuePushBack q item memory).1 = (Fifo.push ⟨[], idle.length⟩ item memory).1 ∧
      fresh.map (pitcherQueuePushBack q item memory).2.item =
        (Fifo.push ⟨[], idle.length⟩ item memory).2.items ∧
      idle'.length = (Fifo.push ⟨[], idle.length⟩ item memory).2.spare ∧
      ∀ m ∈ live ++ hand, (pitcherQueuePushBack q item memory).2.item m = q.item m := by
  rcases getIdleNode_owns memory owns with ⟨rfl, rfl, failed⟩ | found
  · have same : pitcherQueuePushBack q item false = (.E_NO_MEMORY, q) := by
      simp only [pitcherQueuePushBack, failed]
    rw [same]
    exact ⟨[], [], by rwa [List.append_nil], rfl, rfl, rfl, fun _ _ => rfl⟩
  · obtain ⟨n, idle', enough, node, taken, fewer, others⟩ := found
    generalize got : getIdleNode q memory = result at node taken others
    obtain ⟨first, q'⟩ := result
    obtain rfl : first = some n := node
    have same : pitcherQueuePushBack q item memory =
        (.OK, pushNodeToQueue { q' with item := Function.update q'.item n item } n) := by
      simp only [pitcherQueuePushBack, got]
    have spare : Fifo.push ⟨[], idle.length⟩ item memory = (.OK, ⟨[item], idle.length - 1⟩) := if_pos enough
    have written : Owns { q' with item := Function.update q'.item n item } live idle' (n :: hand) :=
      ⟨taken.queue, taken.idles, taken.apart, taken.nodes, taken.count, taken.idleNum, taken.bound⟩
    rw [same, spare]
    refine ⟨[n], idle', pushNodeToQueue_owns written, rfl, ?_, fewer, ?_⟩
    · simp only [pushNodeToQueue, List.map_cons, List.map_nil, Function.update_self]
    · intro m known
      have differ : m ≠ n := by
        rintro rfl
        rcases List.mem_append.mp known with inside | held
        · exact (taken.hand_apart List.mem_cons_self).1 inside
        · exact taken.others held
      have old : m ≠ q.allocs := by
        rintro rfl
        apply owns.fresh
        simp only [List.mem_append] at known ⊢
        tauto
      exact (Function.update_of_ne differ ..).trans (others m old)

theorem pushAll_owns (owns : Owns q live idle hand) (pushes : List (UInt64 × Bool)) :
    ∃ fresh idle', Owns (pushAll q pushes) (live ++ fresh) idle' hand ∧
      fresh.map (pushAll q pushes).item = (Fifo.pushAll ⟨[], idle.length⟩ pushes).items ∧
      idle'.length = (Fifo.pushAll ⟨[], idle.length⟩ pushes).spare ∧
      ∀ m ∈ live ++ hand, (pushAll q pushes).item m = q.item m := by
  induction pushes generalizing q live idle with
  | nil => exact ⟨[], idle, by rwa [List.append_nil], rfl, rfl, fun _ _ => rfl⟩
  | cons push pushes ih =>
    obtain ⟨fresh, idle', first, _, items, spare, same⟩ := pushBack_owns owns push.1 push.2
    obtain ⟨fresh', idle'', rest, items', spare', same'⟩ := ih first
    have step : pushAll q (push :: pushes) = pushAll (pitcherQueuePushBack q push.1 push.2).2 pushes := rfl
    have step' : Fifo.pushAll ⟨[], idle.length⟩ (push :: pushes) =
        Fifo.pushAll (Fifo.push ⟨[], idle.length⟩ push.1 push.2).2 pushes := rfl
    have split := Fifo.pushAll_items (Fifo.push ⟨[], idle.length⟩ push.1 push.2).2.items
      (Fifo.push ⟨[], idle.length⟩ push.1 push.2).2.spare pushes
    rw [step, step', split]
    refine ⟨fresh ++ fresh', idle'', by rwa [← List.append_assoc], ?_, ?_, ?_⟩
    · rw [List.map_append, items', spare, ← items]
      congr 1
      apply List.map_congr_left
      exact fun m mem => same' m (List.mem_append_left _ (List.mem_append_right _ mem))
    · rw [spare', spare]
    · intro m known
      refine (same' m ?_).trans (same m known)
      simp only [List.mem_append] at known ⊢
      tauto

theorem push_represents {f : Fifo} (rep : Represents q f) (item : UInt64) (memory : Bool) :
    (pitcherQueuePushBack q item memory).1 = (f.push item memory).1 ∧
      Represents (pitcherQueuePushBack q item memory).2 (f.push item memory).2 := by
  obtain ⟨live, idle, owns, items, spare⟩ := rep
  obtain ⟨fresh, idle', after, ret, items', spare', same⟩ := pushBack_owns owns item memory
  obtain ⟨values, left⟩ := f
  simp only at items spare
  subst items spare
  have whole := Fifo.push_items (live.map q.item) idle.length item memory
  refine ⟨?_, live ++ fresh, idle', after, ?_, ?_⟩
  · rw [ret]
    simp only [Fifo.push]
    split
    · rfl
    · rfl
  · have old : live.map q.item = live.map (pitcherQueuePushBack q item memory).2.item :=
      List.map_congr_left fun m mem => (same m (List.mem_append_left _ mem)).symm
    rw [whole, List.map_append, items', old]
  · rw [whole, spare']

theorem pop_represents {f : Fifo} (rep : Represents q f) :
    (pitcherQueuePop q).1 = f.pop.1 ∧ (pitcherQueuePop q).2.1 = f.pop.2.1 ∧
      Represents (pitcherQueuePop q).2.2 f.pop.2.2 := by
  obtain ⟨live, idle, owns, items, spare⟩ := rep
  cases live with
  | nil =>
    have first : q.links.next .queue = .queue := owns.first
    have stays : pitcherQueuePop q = (.E_EMPTY, none, q) := by
      simp only [pitcherQueuePop, popNodeFromQueue, first]
    have stays' : f.pop = (.E_EMPTY, none, f) := by simp only [Fifo.pop, items, List.map_nil]
    rw [stays, stays']
    exact ⟨rfl, rfl, [], idle, owns, items, spare⟩
  | cons n live =>
    have first : q.links.next .queue = .node n := owns.first
    have taken : pitcherQueuePop q =
        (.OK, some (q.item n), putIdleNode (removeQueueNode q n) n) := by
      simp only [pitcherQueuePop, popNodeFromQueue, first, removeQueueNode_item]
    have taken' : f.pop = (.OK, some (q.item n), ⟨live.map q.item, Fifo.release f.spare⟩) := by
      simp only [Fifo.pop, items, List.map_cons]
    have removed := @removeQueueNode_owns q [] idle [] n live owns
    obtain ⟨idle', after, more⟩ := putIdleNode_owns removed
    rw [taken, taken']
    refine ⟨rfl, rfl, live, idle', after, ?_, ?_⟩
    · simp only [putIdleNode_item, removeQueueNode_item]
    · simp only [Fifo.release, spare, more]

/-! ## Walks -/

section walks
variable {σ : Type}

/-- A walk over the nodes and a pass over their values: `done` is behind both. -/
inductive Tracks : Walk σ → Fifo.Pass σ → Prop where
  | nodes {q : QueueT} (done rest idle : List Nat) (owns : Owns q (done ++ rest) idle []) (state : σ)
      (visited : List UInt64) :
    Tracks { queue := q, pos := place rest, state, visited }
      { kept := done.map q.item, rest := rest.map q.item, spare := idle.length, state, visited }

theorem Tracks.start {f : Fifo} (rep : Represents q f) (state : σ) :
    Tracks (Walk.start q state) (Fifo.Pass.start f state) := by
  obtain ⟨live, idle, owns, items, spare⟩ := rep
  have begins := Tracks.nodes [] live idle owns state []
  rw [← owns.first, ← items, ← spare] at begins
  exact begins

theorem Tracks.represents {w : Walk σ} {p : Fifo.Pass σ} (tracks : Tracks w p) :
    Represents w.queue p.fifo := by
  cases tracks with
  | nodes done rest idle owns => exact ⟨done ++ rest, idle, owns, List.map_append.symm, rfl⟩

theorem Tracks.answers {w : Walk σ} {p : Fifo.Pass σ} (tracks : Tracks w p) :
    w.visited = p.visited ∧ w.state = p.state := by
  cases tracks
  exact ⟨rfl, rfl⟩

/-- Behind a visit the walk stands at the node it saw in front of the callback,
so nodes pushed by the callback of the last one are behind it. -/
theorem Tracks.further {kept rest fresh : List Nat} {value : Nat → UInt64} {state : σ}
    {visited : List UInt64} (owns : Owns q (kept ++ (rest ++ fresh)) idle []) (same : q.item = value) :
    Tracks { queue := q, pos := place rest, state, visited }
      { kept := if (rest.map value).isEmpty then kept.map value ++ fresh.map value else kept.map value
        rest := if (rest.map value).isEmpty then [] else rest.map value ++ fresh.map value
        spare := idle.length, state, visited } := by
  subst same
  cases rest with
  | nil =>
    have all : Owns q (kept ++ fresh ++ []) idle [] := by rwa [List.append_nil]
    have next := Tracks.nodes (kept ++ fresh) [] idle all state visited
    rw [List.map_append] at next
    exact next
  | cons n rest =>
    have next := Tracks.nodes kept (n :: rest ++ fresh) idle owns state visited
    rw [List.map_append] at next
    exact next

variable {done rest : List Nat}

/-- The callback is called, and then its node is taken out if it says so. -/
theorem visit_tracks (visited : List UInt64) (state : σ) (owns : Owns q (done ++ n :: rest) idle [])
    (answer : Reply σ) :
    Tracks
      { queue := if answer.delete then putIdleNode (removeQueueNode (pushAll q answer.pushes) n) n
          else pushAll q answer.pushes
        pos := place rest, state := answer.state, visited := visited ++ [q.item n] }
      (Fifo.Pass.visit ⟨done.map q.item, (n :: rest).map q.item, idle.length, state, visited⟩ (q.item n)
        (rest.map q.item) answer) := by
  obtain ⟨fresh, idle', pushed, items, spare, same⟩ := pushAll_owns owns answer.pushes
  have old {m : Nat} (known : m ∈ done ++ n :: rest) := same m (List.mem_append_left _ known)
  have behind : done.map q.item = done.map (pushAll q answer.pushes).item :=
    List.map_congr_left fun m mem => (old (List.mem_append_left _ mem)).symm
  have before : rest.map q.item = rest.map (pushAll q answer.pushes).item :=
    List.map_congr_left fun m mem =>
      (old (List.mem_append_right _ (List.mem_cons_of_mem n mem))).symm
  have here : q.item n = (pushAll q answer.pushes).item n :=
    (old (List.mem_append_right _ List.mem_cons_self)).symm
  simp only [Fifo.Pass.visit, ← items, ← spare, behind, before, here]
  cases answer.delete with
  | false =>
    have whole : Owns (pushAll q answer.pushes) (done ++ [n] ++ (rest ++ fresh)) idle' [] := by
      simpa only [List.append_assoc, List.cons_append, List.nil_append] using pushed
    simpa only [if_false, Bool.false_eq_true, List.map_append, List.map_cons, List.map_nil] using
      Tracks.further whole rfl
  | true =>
    rw [List.append_assoc, List.cons_append] at pushed
    obtain ⟨idle'', put, more⟩ := putIdleNode_owns (removeQueueNode_owns pushed)
    simp only [if_true, Fifo.release, ← more]
    exact Tracks.further put (putIdleNode_item ..)

/-- The node is taken out, and then the callback is called. -/
theorem take_tracks (visited : List UInt64) (state : σ) (owns : Owns q (done ++ n :: rest) idle []) (answer : Reply σ)
    (deleted : answer.delete = true) :
    Tracks
      { queue := putIdleNode (pushAll (removeQueueNode q n) answer.pushes) n
        pos := place rest, state := answer.state, visited := visited ++ [q.item n] }
      (Fifo.Pass.visit ⟨done.map q.item, (n :: rest).map q.item, idle.length, state, visited⟩ (q.item n)
        (rest.map q.item) answer) := by
  obtain ⟨fresh, idle', pushed, items, spare, same⟩ := pushAll_owns (removeQueueNode_owns owns) answer.pushes
  have old {m : Nat} (known : m ∈ done ++ rest) := same m (List.mem_append_left _ known)
  have behind : done.map q.item = done.map (pushAll (removeQueueNode q n) answer.pushes).item :=
    List.map_congr_left fun m mem => (old (List.mem_append_left _ mem)).symm
  have before : rest.map q.item = rest.map (pushAll (removeQueueNode q n) answer.pushes).item :=
    List.map_congr_left fun m mem => (old (List.mem_append_right _ mem)).symm
  rw [List.append_assoc] at pushed
  obtain ⟨idle'', put, more⟩ := putIdleNode_owns pushed
  simp only [Fifo.Pass.visit, ← items, ← spare, behind, before, deleted, if_true, Fifo.release, ← more]
  exact Tracks.further put (putIdleNode_item ..)

theorem enumerateTurn_tracks (func : QueueCallback σ) (w : Walk σ) (p : Fifo.Pass σ) (tracks : Tracks w p) :
    ∃ t t', enumerateTurn func w = .ok t ∧ Fifo.Pass.turn func p = .ok t' ∧
      Turn.Related Tracks Tracks t t' := by
  have whole := tracks
  obtain @⟨q, done, rest, idle, owns, state, visited⟩ := tracks
  cases rest with
  | nil => exact ⟨_, _, rfl, rfl, .leave whole⟩
  | cons n rest =>
    have visit := visit_tracks visited state owns (func (q.item n) state)
    rw [← owns.following] at visit
    exact ⟨_, _, rfl, rfl, .again visit⟩

theorem clearTurn_tracks (func : Option (QueueCallback σ)) (w : Walk σ) (p : Fifo.Pass σ)
    (tracks : Tracks w p) :
    ∃ t t', clearTurn func w = .ok t ∧ Fifo.Pass.turn (Fifo.taking func) p = .ok t' ∧
      Turn.Related Tracks Tracks t t' := by
  have whole := tracks
  obtain @⟨q, done, rest, idle, owns, state, visited⟩ := tracks
  cases rest with
  | nil => exact ⟨_, _, rfl, rfl, .leave whole⟩
  | cons n rest =>
    have visit := take_tracks visited state owns
      (Fifo.taking func (q.item n) state) rfl
    rw [← owns.following] at visit
    exact ⟨_, _, rfl, rfl, .again visit⟩

theorem findTurn_tracks (func : Option (QueueCallback σ)) (compare : UInt64 → UInt64 → Bool) (key : UInt64)
    (w : Walk σ) (p : Fifo.Pass σ) (tracks : Tracks w p) :
    ∃ t t', findTurn func compare key w = .ok t ∧ Fifo.Pass.findTurn func compare key p = .ok t' ∧
      Turn.Related Tracks (fun a b => a.1 = b.1 ∧ Tracks a.2 b.2) t t' := by
  have whole := tracks
  obtain @⟨q, done, rest, idle, owns, state, visited⟩ := tracks
  cases rest with
  | nil => exact ⟨_, _, rfl, rfl, .leave ⟨rfl, whole⟩⟩
  | cons n rest =>
    cases matched : compare (q.item n) key with
    | true =>
      have visit := visit_tracks visited state owns (reply func (q.item n) state)
      rw [← owns.following] at visit
      refine ⟨.leave (.OK, _), .leave (.OK, _), ?_, ?_, .leave ⟨rfl, visit⟩⟩
      · simp only [findTurn, place, matched, if_true]
      · simp only [Fifo.Pass.findTurn, List.map_cons, matched, if_true]
        rfl
    | false =>
      refine ⟨.again ⟨q, q.links.next (.node n), state, visited⟩,
        .again ⟨done.map q.item ++ [q.item n], rest.map q.item, idle.length, state, visited⟩, ?_, ?_, ?_⟩
      · simp [findTurn, place, matched]
      · simp [Fifo.Pass.findTurn, matched]
      · apply Turn.Related.again
        have all : Owns q (done ++ [n] ++ rest) idle [] := by
          simpa only [List.append_assoc, List.singleton_append] using owns
        have next := Tracks.nodes (done ++ [n]) rest idle all state visited
        rw [← owns.following, List.map_append] at next
        exact next

theorem enumerate_tracks {f : Fifo} (rep : Represents q f) (fuel : Nat) (func : Option (QueueCallback σ))
    (state : σ) :
    Related Tracks (pitcherQueueEnumerate fuel q func state) (f.enumerate fuel func state) := by
  cases func with
  | none => exact .ended (Tracks.start rep state)
  | some func => exact run_related (enumerateTurn_tracks func) fuel (Tracks.start rep state)

/-- Every call answers as the list of values does, and leaves it. -/
theorem call_represents (fuel : Nat) (q : QueueT) (f : Fifo) (op : Op σ) (rep : Represents q f) :
    Related (fun a b => a.1 = b.1 ∧ Represents a.2 b.2) (call fuel q op) (f.call fuel op) := by
  have walked (w : Walk σ) (p : Fifo.Pass σ) (tracks : Tracks w p) :
      Out.walked w.visited w.state = .walked p.visited p.state ∧ Represents w.queue p.fifo := by
    obtain ⟨visited, left⟩ := tracks.answers
    exact ⟨by rw [left, visited], tracks.represents⟩
  cases op with
  | pushBack item memory =>
    obtain ⟨ret, still⟩ := push_represents rep item memory
    exact .ended ⟨congrArg _ ret, still⟩
  | pop =>
    obtain ⟨ret, item, still⟩ := pop_represents rep
    exact .ended ⟨congrArg₂ _ ret item, still⟩
  | clear func state => exact (run_related (clearTurn_tracks func) fuel (Tracks.start rep state)).map walked
  | enumerate func state => exact (enumerate_tracks rep fuel func state).map walked
  | find func compare key state =>
    apply (run_related (findTurn_tracks func compare key) fuel (Tracks.start rep state)).map
    rintro ⟨ret, w⟩ ⟨ret', p⟩ ⟨rfl, tracks⟩
    obtain ⟨visited, left⟩ := tracks.answers
    exact ⟨congrArg₂ _ visited left, tracks.represents⟩
  | isEmpty =>
    have same : pitcherQueueIsEmpty q = f.items.isEmpty := by
      obtain ⟨live, idle, owns, items, _⟩ := rep
      simp only [pitcherQueueIsEmpty, owns.queue.isEmpty, items, List.isEmpty_map]
    exact .ended ⟨congrArg _ same, rep⟩
  | count =>
    have same : pitcherQueueCount q = f.items.length := by
      obtain ⟨live, idle, owns, items, _⟩ := rep
      simp only [pitcherQueueCount, owns.count, items, List.length_map]
    exact .ended ⟨congrArg _ same, rep⟩

end walks

/-! ## Destroying a queue -/

theorem drain_ends {w : QueueT × Ptr} (live idle : List Nat) (owns : Owns w.1 live idle [])
    (here : w.2 = place live) :
    ∃ q idle', Ends drainTurn w (.ok q) ∧ Owns q [] idle' [] ∧ q.allocs = w.1.allocs := by
  induction live generalizing w idle with
  | nil => exact ⟨w.1, idle, ends_leave (by simp only [drainTurn, here, place]), owns, rfl⟩
  | cons n live ih =>
    have removed := @removeQueueNode_owns w.1 [] idle [] n live owns
    have next : w.1.links.next (.node n) = place live := @Owns.following w.1 idle [] n [] live owns
    obtain ⟨idle', put, _⟩ := putIdleNode_owns removed
    obtain ⟨q, idle'', ended, none_, same⟩ :=
      ih (w := (putIdleNode (removeQueueNode w.1 n) n, place live)) idle' put rfl
    refine ⟨q, idle'', (ends_again ?_).mpr ended, none_, same.trans ?_⟩
    · simp only [drainTurn, here, place, next]
    · unfold putIdleNode
      split
      · rfl
      · rfl

theorem drop_ends {w : QueueT × Ptr} (idle : List Nat) (owns : Owns w.1 [] idle [])
    (here : w.2 = w.1.links.next .idles) :
    ∃ q, Ends dropTurn w (.ok q) ∧ q.frees.Perm (List.range q.allocs) ∧ q.allocs = w.1.allocs := by
  induction idle generalizing w with
  | nil =>
    have last : w.2 = .idles := here.trans owns.idles.path.1
    exact ⟨w.1, ends_leave (by simp only [dropTurn, last]), owns.nodes, rfl⟩
  | cons n idle ih =>
    have first : w.2 = .node n := here.trans owns.idles.path.1
    have freed := freeNode_owns (takeIdle_owns owns)
    generalize taken : freeNode { w.1 with links := delInit w.1.links (.node n), idleNum := w.1.idleNum - 1 } n = q
      at freed
    have next : w.1.links.next (.node n) = q.links.next .idles := by
      cases idle with
      | nil => exact owns.idles.path.2.2.1.trans freed.idles.path.1.symm
      | cons m idle => exact owns.idles.path.2.2.1.trans freed.idles.path.1.symm
    obtain ⟨last, ended, once, same⟩ := ih (w := (q, w.1.links.next (.node n))) freed next
    refine ⟨last, (ends_again ?_).mpr ended, once, same.trans ?_⟩
    · simp only [dropTurn, first, taken]
    · rw [← taken]
      rfl

/-- `pitcher_destroy_queue` ends, and by then every node allocated has been freed once. -/
theorem destroy_frees_all {live idle : List Nat} (owns : Owns q live idle []) :
    ∃ fuel last, pitcherDestroyQueue fuel q = some (.ok last) ∧
      last.frees.Perm (List.range last.allocs) ∧ last.allocs = q.allocs := by
  obtain ⟨mid, idle', ⟨fuel, drained⟩, left, same⟩ :=
    drain_ends (w := (q, q.links.next .queue)) live idle owns owns.first
  obtain ⟨last, ⟨fuel', dropped⟩, once, same'⟩ := drop_ends (w := (mid, mid.links.next .idles)) idle' left rfl
  refine ⟨fuel + fuel', last, ?_, once, same'.trans same⟩
  have more := run_more dropped fuel
  rw [Nat.add_comm] at more
  simp only [pitcherDestroyQueue, run_more drained fuel', more]

/-! ## Runs -/

theorem init_represents : Represents pitcherInitQueue {} := ⟨[], [], init_owns, rfl, rfl⟩

/-- Over any calls the queue answers as a list of values does. -/
theorem queue_refines_fifo {σ : Type} (fuel : Nat) (ops : List (Op σ)) :
    Related (fun a b => a.1 = b.1 ∧ Represents a.2 b.2) (calls (call fuel) ops pitcherInitQueue)
      (calls (Fifo.call fuel) ops {}) ∧
    ∀ outs q, calls (call fuel) ops pitcherInitQueue = some (.ok (outs, q)) →
      ∃ live idle : List Nat,
        Holds q.links .queue (live.map .node) ∧ Holds q.links .idles (idle.map .node) ∧
        (∀ n ∈ live, n ∉ idle) ∧ q.count = live.length ∧ q.idleNum = idle.length ∧ idle.length ≤ 16 ∧
        (∀ more (func : QueueCallback σ) state w,
          pitcherQueueEnumerate more q (some func) state = some (.ok w) →
          ∃ later, w.visited = live.map q.item ++ later) ∧
        ∃ enough last, pitcherDestroyQueue enough q = some (.ok last) ∧ last.allocs = q.allocs ∧
          last.frees.Perm (List.range q.allocs) := by
  have whole := calls_related (call_represents (σ := σ) fuel) ops init_represents
  refine ⟨whole, ?_⟩
  intro outs q ended
  rw [ended] at whole
  generalize calls (Fifo.call fuel) ops {} = answer at whole
  obtain _ | ⟨_, live, idle, owns, items, spare⟩ := whole
  refine ⟨live, idle, owns.queue, owns.idles, owns.live_idle, owns.count, owns.idleNum, owns.bound, ?_, ?_⟩
  · intro more func state w walked
    have tracks := enumerate_tracks ⟨live, idle, owns, items, spare⟩ more (some func) state
    rw [walked] at tracks
    generalize passed : Fifo.enumerate more _ (some func) state = answer at tracks
    obtain _ | tracked := tracks
    obtain ⟨later, visited⟩ := Fifo.visits_all passed
    exact ⟨later, by rw [tracked.answers.1, visited, items]⟩
  · obtain ⟨enough, last, ended, once, same⟩ := destroy_frees_all owns
    exact ⟨enough, last, ended, same, same ▸ once⟩

end ImxTest.Pitcher.Queue
