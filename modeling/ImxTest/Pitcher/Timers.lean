import ImxTest.Pitcher.Loop

/-! When the timers and the poll timeouts of a loop fire: never early, and not
late. -/
namespace ImxTest.Pitcher.Loop
open Lib.Runs

/-- The node that is visited next. -/
def PitcherLoop.next (loop : PitcherLoop) : Option (Kind × Node) :=
  match loop.phase with
  | .pass kind => (loop.walks kind).todo.head?.map (kind, ·)
  | _ => none

/-- At the clock reading of the loop all of a countdown has gone. -/
def Due (loop : PitcherLoop) (node : Node) : Prop :=
  node.began.toNat + node.span.toNat * 1000000 ≤ loop.tv.toNat

instance (loop : PitcherLoop) (node : Node) : Decidable (Due loop node) := Nat.decLe _ _

/-- A node that fires is due. -/
def NeverEarly (s : PitcherLoop) (l : Label) (_ : PitcherLoop) : Prop :=
  ∀ kind node, l = .visit → s.next = some (kind, node) → (visitFunc kind s node).1 = true → Due s node

/-- The countdown of a node that is visited did not begin behind the clock reading
of the loop. -/
def Sampled (s : PitcherLoop) (l : Label) (_ : PitcherLoop) : Prop :=
  ∀ kind node, l = .visit → s.next = some (kind, node) → node.began ≤ s.tv

/-- A node that is due fires, and none is due when a pass is over. -/
def NeverLate (s : PitcherLoop) (l : Label) (_ : PitcherLoop) : Prop :=
  (∀ kind node, l = .visit → s.next = some (kind, node) → Due s node →
    (visitFunc kind s node).1 = true) ∧
  ∀ kind, l = .done → s.phase = .pass kind → ∀ node ∈ (s.walks kind).all, ¬Due s node

/-- Of a countdown that is over the whole milliseconds between one tick and the
next make up all of it. -/
def Whole (s : PitcherLoop) (l : Label) (_ : PitcherLoop) : Prop :=
  ∀ kind node, l = .visit → s.next = some (kind, node) → Due s node →
    node.span.toNat ≤ cuts (s.tv :: node.readings)

section Firing
variable {s t : PitcherLoop} {l : Label} {kind : Kind} {node : Node} {now : UInt64} {ls : List Label}

theorem opened_inv (range : now.toNat < 2 ^ 63) : Inv { now } where
  tv := UInt64.zero_le
  range := range
  nodes k n mem := by
    rcases mem with mem | runs
    · cases mem
    · cases runs

theorem next_sound (inv : Inv s) (next : s.next = some (kind, node)) : Sound s kind node := by
  apply inv.nodes
  rw [PitcherLoop.next] at next
  split at next
  next k pass =>
    obtain ⟨first, front, same⟩ := Option.map_eq_some_iff.mp next
    cases same
    obtain ⟨todo, split⟩ := List.head?_eq_some_iff.mp front
    exact .inl (by simp [Walk.all, split])
  · cases next

/-- A node counts from a time that is not behind its last visit. -/
theorem Counting.began_le (counting : Counting node) : node.began.toNat ≤ node.tv.toNat :=
  Nat.le_trans (Nat.le_add_right ..) counting.gone

theorem Sound.fires (sound : Sound s kind node) (range : s.now.toNat < 2 ^ 63) :
    (visitFunc kind s node).1 = true ↔
      s.tv < node.began ∨ node.span.toNat ≤ cuts (s.tv :: node.readings) := by
  rw [(visitFunc_visited sound range).fires]
  have began := sound.counting.began_le
  have left := sound.counting.left
  obtain ⟨rest, last⟩ := sound.counting.last
  have cut : cuts (s.tv :: node.readings) =
      (s.tv.toNat - node.tv.toNat) / 1000000 + cuts node.readings := by
    rw [last, cuts]
  have newer : s.tv < node.tv ↔ s.tv < node.began := by
    constructor
    · exact fun newer => (sound.fresh newer).symm ▸ newer
    · exact fun newer => UInt64.lt_of_lt_of_le newer (UInt64.le_iff_toNat_le.mpr began)
  rw [newer, cut]
  refine or_congr_right ?_
  omega

theorem Sound.not_due (sound : Sound s kind node) (newer : s.tv ≤ node.began) : ¬Due s node := by
  have order := UInt64.le_iff_toNat_le.mp newer
  have span := sound.counting.span
  unfold Due
  omega

/-- Of a countdown at least the whole milliseconds between its ticks have gone. -/
theorem Sound.due (sound : Sound s kind node) (sampled : node.began ≤ s.tv)
    (whole : node.span.toNat ≤ cuts (s.tv :: node.readings)) : Due s node := by
  have order : node.tv.toNat ≤ s.tv.toNat := by
    apply UInt64.le_iff_toNat_le.mp (UInt64.not_lt.mp fun newer => ?_)
    exact absurd (sound.fresh newer ▸ newer) (UInt64.not_lt.mpr sampled)
  have gone := whole_gap sound.counting.gone order
  obtain ⟨rest, last⟩ := sound.counting.last
  rw [last, cuts, ← last] at whole
  exact Nat.le_trans (Nat.add_le_add_left (Nat.mul_le_mul_right _ whole) _) gone

theorem early_iff (inv : Inv s) : NeverEarly s l t ↔ Sampled s l t := by
  constructor
  · intro never kind node visits next
    have sound := next_sound inv next
    by_contra newer
    have newer := UInt64.not_le.mp newer
    have due := never kind node visits next ((sound.fires inv.range).mpr (.inl newer))
    exact sound.not_due (UInt64.le_of_lt newer) due
  · intro sampled kind node visits next fires
    have sound := next_sound inv next
    have known := sampled kind node visits next
    rcases (sound.fires inv.range).mp fires with newer | whole
    · exact absurd known (UInt64.not_le.mpr newer)
    · exact sound.due known whole

/-- In every run of a loop, whatever its functions add and whenever: no timer and
no poll timeout fires before its time, exactly if none is visited in the tick it
was added in, with a clock reading later than that of the tick. -/
theorem never_early_iff (range : now.toNat < 2 ^ 63) :
    Run (Only Step NeverEarly) { now } ls s ↔ Run (Only Step Sampled) { now } ls s :=
  Run.judged_iff Inv (fun _ _ _ inv _ => early_iff inv) (fun _ _ _ inv taken _ => step_inv taken inv)
    (opened_inv range)

/-! ## Late timers -/

/-- Of the nodes a pass is through with, or will not visit, none is due. -/
def Calm (s : PitcherLoop) (kind : Kind) : Prop :=
  ∀ node ∈ (s.walks kind).visited ++ (s.walks kind).late, ¬Due s node

structure Settled (s : PitcherLoop) : Prop where
  inv : Inv s
  pass : ∀ kind, s.phase = .pass kind → Calm s kind
  func : ∀ kind node, s.phase = .func kind node → Calm s kind ∧ ¬Due s node

theorem due_congr (tv : t.tv = s.tv) : Due t node ↔ Due s node := by rw [Due, Due, tv]

theorem calm_start {walk : Walk} : Calm (s.setWalk kind walk.start) kind := by
  simp [Calm, PitcherLoop.setWalk, Walk.start]

theorem calm_of_sub (calm : Calm s kind) (tv : t.tv = s.tv)
    (sub : ∀ node ∈ (t.walks kind).visited ++ (t.walks kind).late,
      node ∈ (s.walks kind).visited ++ (s.walks kind).late) : Calm t kind :=
  fun node mem => mt (due_congr tv).mp (calm node (sub node mem))

theorem calm_leave {isDel : Bool} (calm : Calm s kind) (early : ¬Due s node) :
    Calm (leave s kind node isDel) kind := by
  intro other mem
  rw [due_congr leave_frame.1]
  have listed : other ∈ (s.walks kind).visited ++ [node] ++ (s.walks kind).late := by
    simp only [leave] at mem
    split at mem
    · simp only [List.mem_append] at mem ⊢
      tauto
    · split at mem <;> simpa [PitcherLoop.setWalk] using mem
  simp only [List.mem_append, List.mem_singleton] at listed
  rcases listed with (old | rfl) | old
  · exact calm other (List.mem_append_left _ old)
  · exact early
  · exact calm other (List.mem_append_right _ old)

theorem late_iff (settled : Settled s) (taken : Step s l t) : NeverLate s l t ↔ Whole s l t := by
  constructor
  · intro never kind node visits next due
    have sound := next_sound settled.inv next
    have fires := (sound.fires settled.inv.range).mp (never.1 kind node visits next due)
    refine fires.resolve_left fun newer => ?_
    exact sound.not_due (UInt64.le_of_lt newer) due
  · intro whole
    refine ⟨?_, ?_⟩
    · intro kind node visits next due
      have sound := next_sound settled.inv next
      exact (sound.fires settled.inv.range).mpr (.inr (whole kind node visits next due))
    · rintro kind rfl pass node mem
      obtain ⟨k, same, past, -⟩ := done_cases taken
      cases pass.symm.trans same
      apply settled.pass kind pass
      simpa [Walk.all, past] using mem

theorem visit_settled (settled : Settled s) (taken : step s .visit = some t)
    (whole : Whole s .visit t) : Settled t := by
  have inv := visit_inv taken settled.inv
  obtain ⟨kind, node, todo, pass, front, rfl⟩ := visit_cases taken
  have next : s.next = some (kind, node) := by simp [PitcherLoop.next, pass, front]
  have sound := next_sound settled.inv next
  have visited := visitFunc_visited sound settled.inv.range
  have calm : Calm (s.setWalk kind { s.walks kind with todo }) kind :=
    calm_of_sub (settled.pass kind pass) rfl (by simp [PitcherLoop.setWalk])
  cases fires : (visitFunc kind s node).1 with
  | true =>
    rw [fires, if_pos rfl] at inv
    rw [if_pos rfl]
    refine ⟨inv, fun _ pass => (by cases pass), ?_⟩
    rintro _ _ ⟨⟩
    refine ⟨calm_of_sub calm rfl fun _ => id, ?_⟩
    have after := visited.sound sound.interval settled.inv.tv
    exact after.not_due (UInt64.le_of_eq (visited.fired fires).symm)
  | false =>
    rw [fires, if_neg Bool.false_ne_true] at inv
    rw [if_neg Bool.false_ne_true]
    have early : ¬Due s (visitFunc kind s node).2 := by
      intro due
      obtain ⟨began, span⟩ := visited.kept fires
      have due : Due s node := by rwa [Due, began, span] at due
      have waits := (sound.fires settled.inv.range).mpr (.inr (whole kind node rfl next due))
      exact Bool.false_ne_true (fires.symm.trans waits)
    have same := @leave_frame (s.setWalk kind { s.walks kind with todo }) kind
      (visitFunc kind s node).2 false
    refine ⟨inv, fun k still => ?_, fun _ _ runs => ?_⟩
    · cases (same.2.2.2.trans pass).symm.trans still
      exact calm_leave calm early
    · cases (same.2.2.2.trans pass).symm.trans runs

theorem ret_settled {isDel : Bool} (settled : Settled s) (taken : step s (.ret isDel) = some t) :
    Settled t := by
  have inv := ret_inv taken settled.inv
  simp only [step] at taken
  split at taken
  next kind node runs =>
    cases taken
    obtain ⟨calm, early⟩ := settled.func kind node runs
    have same := @leave_frame { s with phase := .pass kind } kind node isDel
    refine ⟨inv, fun k still => ?_, fun _ _ runs => ?_⟩
    · cases same.2.2.2.symm.trans still
      exact calm_leave calm early
    · cases same.2.2.2.symm.trans runs
  · cases taken

theorem done_settled (settled : Settled s) (taken : step s .done = some t) : Settled t := by
  have inv := done_inv taken settled.inv
  obtain ⟨kind, -, -, ⟨-, rfl⟩ | ⟨-, rfl⟩⟩ := done_cases taken
  · refine ⟨inv, fun k pass => ?_, fun _ _ runs => (by cases runs)⟩
    cases pass
    exact calm_start
  · exact ⟨inv, fun _ pass => (by cases pass), fun _ _ runs => (by cases runs)⟩

theorem tick_settled {tv : UInt64} (settled : Settled s) (taken : step s (.tick tv) = some t) :
    Settled t := by
  have inv := tick_inv taken settled.inv
  simp only [step] at taken
  split at taken
  · split at taken
    · cases taken
      refine ⟨inv, fun k pass => ?_, fun _ _ runs => (by cases runs)⟩
      cases pass
      exact calm_start
    · cases taken
  · cases taken

/-- A step that keeps the phase, the clock reading and what is not due. -/
theorem Settled.of_calm (settled : Settled s) (inv : Inv t) (tv : t.tv = s.tv)
    (phase : t.phase = s.phase) (calm : ∀ kind, Calm s kind → Calm t kind) : Settled t where
  inv := inv
  pass kind pass := calm kind (settled.pass kind (phase ▸ pass))
  func kind node runs := by
    obtain ⟨before, early⟩ := settled.func kind node (phase ▸ runs)
    exact ⟨calm kind before, mt (due_congr tv).mp early⟩

theorem del_settled {key : Nat} (settled : Settled s) : Settled (del s kind key) := by
  refine settled.of_calm (del_inv settled.inv) rfl rfl fun k calm => calm_of_sub calm rfl ?_
  intro node mem
  by_cases same : k = kind
  · simp only [del, PitcherLoop.setWalk, same, if_true, List.mem_append, List.mem_filter] at mem ⊢
    tauto
  · simpa [del, PitcherLoop.setWalk, same] using mem

theorem add_frame {a : Add} : (add s kind a).tv = s.tv ∧ (add s kind a).phase = s.phase ∧
    ∀ k, ∀ node ∈ ((add s kind a).walks k).visited ++ ((add s kind a).walks k).late,
      node ∈ (s.walks k).visited ++ (s.walks k).late ∨ node.began = a.tv := by
  rw [add]
  simp only
  split
  · exact ⟨rfl, rfl, fun _ _ mem => .inl mem⟩
  split
  · exact ⟨rfl, rfl, fun _ _ mem => .inl mem⟩
  refine ⟨rfl, rfl, fun k node mem => ?_⟩
  by_cases same : k = kind
  · simp only [PitcherLoop.setWalk, same, if_true, Walk.push] at mem ⊢
    split at mem
    · simp only [List.mem_append, List.mem_singleton] at mem ⊢
      rcases mem with old | old | rfl
      · exact .inl (.inl old)
      · exact .inl (.inr old)
      · exact .inr rfl
    · exact .inl mem
  · exact .inl (by simpa [PitcherLoop.setWalk, same] using mem)

theorem add_settled {a : Add} (settled : Settled s) (ordered : clock s a.tv) :
    Settled (add s kind a) := by
  have inv := @add_inv s kind a ordered settled.inv
  obtain ⟨tv, phase, nodes⟩ := @add_frame s kind a
  refine settled.of_calm inv tv phase fun k calm node mem => ?_
  rcases nodes k node mem with old | new
  · exact mt (due_congr tv).mp (calm node old)
  · have listed : node ∈ ((add s kind a).walks k).all := by
      simp only [Walk.all, List.mem_append] at mem ⊢
      tauto
    apply (inv.nodes k node (.inl listed)).not_due
    rw [new, tv]
    exact UInt64.le_trans settled.inv.tv ordered.1

theorem step_settled (settled : Settled s) (taken : Step s l t) (whole : Whole s l t) :
    Settled t := by
  cases l with
  | tick tv => exact tick_settled settled taken
  | visit => exact visit_settled settled taken whole
  | ret isDel => exact ret_settled settled taken
  | done => exact done_settled settled taken
  | add kind a =>
    simp only [Step, step] at taken
    split at taken
    next allowed => exact Option.some.inj taken ▸ add_settled settled allowed.2
    · cases taken
  | del kind key =>
    simp only [Step, step] at taken
    split at taken
    · exact Option.some.inj taken ▸ del_settled settled
    · cases taken
  | event key isDel =>
    simp only [Step, step] at taken
    split at taken
    · cases taken
      split
      · exact del_settled settled
      · exact settled
    · cases taken
  | wait =>
    have inv := step_inv taken settled.inv
    simp only [Step, step] at taken
    split at taken
    · cases taken
      exact ⟨inv, fun _ pass => (by cases pass), fun _ _ runs => (by cases runs)⟩
    · cases taken

/-- In every run of a loop, however close its ticks are: each timer and each poll
timeout fires at the first tick its time is up at, exactly if the milliseconds
that are left of its ticks when each is cut to whole ones make it up as well. -/
theorem never_late_iff (range : now.toNat < 2 ^ 63) :
    Run (Only Step NeverLate) { now } ls s ↔ Run (Only Step Whole) { now } ls s := by
  apply Run.judged_iff Settled (fun _ _ _ settled taken => late_iff settled taken)
    (fun _ _ _ settled taken whole => step_settled settled taken whole)
  exact ⟨opened_inv range, fun _ pass => (by cases pass), fun _ _ runs => (by cases runs)⟩

end Firing

/-! ## Runs -/

/-- A task whose function runs at five milliseconds and takes a nanosecond to add
a descriptor with the default timeout. -/
def starting : List Label :=
  [.add .tasks { key := 1, interval := 1, times := -1, tv := 0, node := true, queued := true },
   .tick 5000000, .visit,
   .add .pools { key := 2, interval := 0, times := 0, tv := 5000001, node := true, queued := true },
   .ret false, .done]

/-- The timeout fires in the same tick. -/
theorem starting_fires_early : ∃ s node, Run Step { now := 0 } starting s ∧
    s.next = some (.pools, node) ∧ (visitFunc .pools s node).1 = true ∧ ¬Due s node := by
  refine ⟨_, _, .next rfl (.next rfl (.next rfl (.next rfl (.next rfl (.next rfl (.stay _)))))), rfl,
    rfl, ?_⟩
  decide

theorem never_early_iff_going : ∃ s,
    Run (Only Step NeverEarly) { now := 0 } (starting.take 3) s := by
  refine ⟨_, (never_early_iff (by decide)).mpr
    (.next ⟨rfl, ?_⟩ (.next ⟨rfl, ?_⟩ (.next ⟨rfl, ?_⟩ (.stay _))))⟩
  · exact fun _ _ visits => (by cases visits)
  · exact fun _ _ visits => (by cases visits)
  · rintro _ _ - ⟨⟩
    decide

def turn (tv : UInt64) : List Label := [.tick tv, .visit, .done, .done, .wait]

/-- A task for two milliseconds, and ticks nine tenths of a millisecond apart. -/
def ticking : List Label :=
  .add .tasks { key := 1, interval := 2, times := -1, tv := 0, node := true, queued := true } ::
    (turn 900000 ++ turn 1800000 ++ [.tick 2700000])

/-- At the third of them it is due, and does not fire. -/
theorem ticking_is_late : ∃ s node, Run Step { now := 0 } ticking s ∧
    s.next = some (.tasks, node) ∧ (visitFunc .tasks s node).1 = false ∧ Due s node := by
  refine ⟨_, _, .next rfl (.next rfl (.next rfl (.next rfl (.next rfl (.next rfl (.next rfl
    (.next rfl (.next rfl (.next rfl (.next rfl (.next rfl (.stay _)))))))))))), rfl, rfl, ?_⟩
  decide

theorem never_late_iff_going : ∃ s,
    Run (Only Step NeverLate) { now := 0 } (starting.take 3) s := by
  refine ⟨_, (never_late_iff (by decide)).mpr
    (.next ⟨rfl, ?_⟩ (.next ⟨rfl, ?_⟩ (.next ⟨rfl, ?_⟩ (.stay _))))⟩
  · exact fun _ _ visits => (by cases visits)
  · exact fun _ _ visits => (by cases visits)
  · rintro _ _ - ⟨⟩ -
    decide

end ImxTest.Pitcher.Loop
