import ImxTest.Lib.Account
import ImxTest.Pitcher.Handover
import Mathlib.Algebra.Order.BigOperators.Group.List
import Mathlib.Algebra.Order.Group.Nat
import Mathlib.Data.Finset.Dedup
import Mathlib.Data.Finset.Max

/-! The end of a context in pitcher/core.c. When the callbacks have nothing left to push
and report the end, every sweep of the timer stops a channel, lets one begin to stop or
hands a buffer to an output file, so the sweeps come to an end and the loop with them. -/
namespace ImxTest.Pitcher.Schedule
open Lib.Runs Lib.Account Core

/-- Nothing is pushed or started, and the check of a channel reports the end. That of an
output file is left to itself. -/
def Ending : Event → Prop
  | .push .. | .start .. => False
  | .checked _ isEnd => isEnd = true
  | .timer | .poll _ | .proceed _ | .skip | .ofile _ | .ret => True

instance : DecidablePred Ending
  | .push .. | .start .. => .isFalse id
  | .checked _ isEnd => inferInstanceAs (Decidable (isEnd = true))
  | .timer | .poll _ | .proceed _ | .skip | .ofile _ | .ret => .isTrue trivial

def Event.sweep : Event → Nat
  | .timer => 1
  | _ => 0

def Event.polls : Event → Nat
  | .poll _ => 1
  | _ => 0

def sweeps (events : List Event) : Nat := total Event.sweep events

def polls (events : List Event) : Nat := total Event.polls events

/-- What is left to do for a channel. An output file takes one buffer a time. -/
def weight (ctx : Context) (chn : Nat → Chn) (c : Nat) : Nat :=
  match (chn c).state with
  | .STOPPED => 0
  | .STOPPING => 1
  | .ACTIVE => 2 + if ctx.ofile c then (chn c).input.length else 0

def rank (ctx : Context) (chn : Nat → Chn) : Nat := (ctx.chns.map (weight ctx chn)).sum

variable {ctx : Context} {m t : Machine} {event : Event} {c d : Nat}

section Weights
variable {chn now : Nat → Chn}

theorem weight_stopped : weight ctx chn c = 0 ↔ (chn c).state = .STOPPED := by
  unfold weight
  cases (chn c).state <;> simp

theorem weight_state (same : weight ctx now c = weight ctx chn c) :
    (now c).state = (chn c).state := by
  unfold weight at same
  cases after : (now c).state <;> cases before : (chn c).state <;>
    simp only [after, before] at same <;> first | rfl | omega

/-- Of channels whose weights do not grow, as long as the sum is the same, each is. -/
theorem weights_same (less : ∀ c, weight ctx now c ≤ weight ctx chn c)
    (same : rank ctx now = rank ctx chn) : ∀ c ∈ ctx.chns, weight ctx now c = weight ctx chn c := by
  by_contra differ
  push Not at differ
  obtain ⟨c, mem, other⟩ := differ
  have smaller : rank ctx now < rank ctx chn :=
    List.sum_lt_sum _ _ (fun c _ => less c) ⟨c, mem, lt_of_le_of_ne (less c) other⟩
  omega

theorem rank_le (less : ∀ c, weight ctx now c ≤ weight ctx chn c) : rank ctx now ≤ rank ctx chn :=
  List.sum_le_sum fun c _ => less c

theorem rank_stopped : rank ctx chn = 0 ↔ ∀ c ∈ ctx.chns, (chn c).state = .STOPPED := by
  simp only [rank, List.sum_eq_zero_iff, List.mem_map, forall_exists_index, and_imp,
    forall_apply_eq_imp_iff₂, weight_stopped]

theorem weight_update {x : Chn} (less : weight ctx (Function.update chn c x) c ≤ weight ctx chn c)
    (d : Nat) : weight ctx (Function.update chn c x) d ≤ weight ctx chn d := by
  by_cases here : d = c
  · rw [here]
    exact less
  · simp only [weight, Function.update_of_ne here, le_refl]

theorem weight_mono {x : Chn} (state : x.state = (chn c).state)
    (input : x.input.length ≤ (chn c).input.length) (d : Nat) :
    weight ctx (Function.update chn c x) d ≤ weight ctx chn d := by
  refine weight_update ?_ d
  simp only [weight, Function.update_self, state]
  split
  · exact le_refl _
  · exact le_refl _
  · split <;> omega

theorem pop_input {chn : Chn} : (pop chn).input = chn.input.tail := by
  unfold pop
  split
  next empty => rw [empty]; rfl
  next input => rw [input]; rfl

theorem weight_leave {isEnd : Bool} (active : (chn c).state = .ACTIVE) :
    weight ctx (leave chn c isEnd) c ≤ weight ctx chn c := by
  unfold leave
  split
  · simp only [weight, Function.update_self, active]
    omega
  · exact le_refl _

end Weights

/-! ## What the drain keeps -/

/-- A channel that is active has its unit enabled. -/
def Enabled (chn : Nat → Chn) : Prop := ∀ c, (chn c).state = .ACTIVE → (chn c).enable = true

section Enabled
variable {chn : Nat → Chn} (enabled : Enabled chn)
include enabled

theorem Enabled.update {x : Chn} (here : x.state = .ACTIVE → x.enable = true) :
    Enabled (Function.update chn c x) := by
  intro d
  by_cases same : d = c
  · rw [same, Function.update_self]
    exact here
  · rw [Function.update_of_ne same]
    exact enabled d

theorem Enabled.leave {isEnd : Bool} : Enabled (leave chn c isEnd) := by
  unfold Schedule.leave
  split
  · exact enabled.update (by simp)
  · exact enabled

theorem Enabled.startChn {ok : Bool} : Enabled (startChn ctx chn c ok) := by
  intro d
  rcases @startChn_at ctx chn c d ok with same | ⟨-, -, started⟩
  · rw [same]
    exact enabled d
  · rw [started]
    exact fun _ => rfl

theorem Enabled.startSinks {ok : Nat → Bool} : Enabled (startSinks ctx chn c ok) := by
  intro d
  rcases @startSinks_at ctx chn c ok d with same | ⟨-, -, started⟩
  · rw [same]
    exact enabled d
  · rw [started]
    exact fun _ => rfl

theorem Enabled.stopChn {ok : Bool} : Enabled (stopChn ctx chn c ok) := by
  unfold Schedule.stopChn
  split
  · exact enabled
  · exact enabled.update (by simp)

end Enabled

@[simp] theorem pop_enable {chn : Chn} : (pop chn).enable = chn.enable := by
  unfold pop
  split <;> rfl

theorem Enabled.step (enabled : Enabled m.chn) (taken : Taken ctx m event t) : Enabled t.chn := by
  cases taken with
  | stops => exact enabled.update (by simp)
  | notify chn running c buffer d => exact enabled.update (enabled d)
  | checked chn running c => exact enabled.update (by simpa using enabled c)
  | unready => exact enabled.leave
  | ofile chn running c =>
    refine enabled.update ?_
    simpa [ofileRun] using enabled c
  | disabled chn running c =>
    refine Enabled.leave (enabled.update ?_)
    exact enabled c
  | push chn running c => exact enabled.startSinks.update (enabled.startSinks c)
  | start => exact enabled.startChn
  | ret => exact enabled.leave
  | _ => exact enabled

/-- The machine between the callbacks of a drain. -/
structure Draining (ctx : Context) (m : Machine) : Prop where
  sound : Sound ctx m
  swept : Swept ctx m
  enabled : Enabled m.chn
  /-- No pipe is being filled. -/
  quiet : ∀ c buffer outs, .push c buffer outs ∉ m.stack

theorem Draining.step (draining : Draining ctx m) (taken : Taken ctx m event t) (ending : Ending event) :
    Draining ctx t where
  sound := draining.sound.step taken
  swept := draining.swept.step draining.sound taken
  enabled := draining.enabled.step taken
  quiet := by
    have quiet := draining.quiet
    cases taken with
    | push => cases ending
    | start => cases ending
    | timer => simp
    | poll => simp
    | notify chn running c buffer d outs => exact absurd List.mem_cons_self (quiet c buffer (d :: outs))
    | skip chn running c buffer d outs => exact absurd List.mem_cons_self (quiet c buffer (d :: outs))
    | _ =>
      intro c buffer outs mem
      exact quiet c buffer outs (List.mem_cons_of_mem _ (by simpa using mem))

/-- In a drain there is ever less to do for each channel. -/
theorem Draining.weight_le (draining : Draining ctx m) (taken : Taken ctx m event t)
    (ending : Ending event) (c : Nat) : weight ctx t.chn c ≤ weight ctx m.chn c := by
  have active : ∀ d f stack, m.stack = f :: stack → Acting d f → (m.chn d).state = .ACTIVE :=
    fun d f stack same acting => draining.sound.busy d (by simp [same, acting])
  cases taken with
  | stops chn running d => exact weight_update (by simp [weight]) c
  | notify chn running d buffer e outs =>
    exact absurd List.mem_cons_self (draining.quiet d buffer (e :: outs))
  | checked chn running d stack isEnd other =>
    exact weight_mono pop_state (by simp [pop_input]) c
  | unready chn running d stack =>
    by_cases here : c = d
    · rw [here]
      exact weight_leave (active d _ _ rfl .check)
    · simp only [weight, leave_at here, le_refl]
  | ofile chn running d =>
    refine weight_mono ?_ ?_ c
    · exact ofileRun_state
    · simp [ofileRun, pop_input]
  | disabled chn running d stack forceExit file off =>
    cases off.symm.trans (draining.enabled d (active d _ _ rfl .check))
  | push => cases ending
  | start => cases ending
  | ret chn running d stack =>
    by_cases here : c = d
    · rw [here]
      exact weight_leave (active d _ _ rfl (.body _))
    · simp only [weight, leave_at here, le_refl]
  | _ => exact le_refl _

/-! ## What a sweep does -/

/-- The next visit of the channel leaves less to do for it. -/
def Ready (ctx : Context) (chn : Nat → Chn) (c : Nat) : Prop :=
  (chn c).state = .ACTIVE ∧ (∀ s, ⟨s, c⟩ ∈ ctx.pipes → (chn s).state ≠ .ACTIVE) ∨
  (chn c).state = .STOPPING ∧ ∀ d, ⟨c, d⟩ ∈ ctx.pipes → (chn d).state = .STOPPED

/-- The sweep will still visit the channel, or its visit has got so far. -/
def Coming (c : Nat) : List Frame → Prop
  | [.timer rest _] => c ∈ rest
  | [.ran _ rest _] => c ∈ rest
  | [f, .ran d rest _] => c ∈ rest ∨ d = c ∧ (f = .run c ∨ f = .check c ∨ f = .body c true)
  | _ => False

/-- As long as not all channels are stopped one of them is ready: the least deep of
those that are active, or else the deepest of those that are stopping. -/
theorem exists_ready {chn : Nat → Chn} (mem : c ∈ ctx.chns) (alive : (chn c).state ≠ .STOPPED) :
    ∃ d ∈ ctx.chns, Ready ctx chn d := by
  obtain ⟨depth, deeper⟩ := ctx.deeper
  by_cases active : ∃ d ∈ ctx.chns, (chn d).state = .ACTIVE
  · obtain ⟨d, here, least⟩ := (ctx.chns.toFinset.filter fun d => (chn d).state = .ACTIVE).exists_min_image
      depth (by simpa [Finset.Nonempty] using active)
    simp only [Finset.mem_filter, List.mem_toFinset] at here least
    refine ⟨d, here.1, .inl ⟨here.2, fun s link other => ?_⟩⟩
    have above := least s ⟨(ctx.inside _ link).1, other⟩
    have below : depth s < depth d := deeper _ link
    omega
  · push Not at active
    have stopping : ∀ d ∈ ctx.chns, (chn d).state ≠ .STOPPED → (chn d).state = .STOPPING := by
      intro d mem alive
      cases state : (chn d).state with
      | STOPPED => exact absurd state alive
      | STOPPING => rfl
      | ACTIVE => exact absurd state (active d mem)
    obtain ⟨d, here, most⟩ := (ctx.chns.toFinset.filter fun d => (chn d).state ≠ .STOPPED).exists_max_image
      depth ⟨c, by simp [mem, alive]⟩
    simp only [Finset.mem_filter, List.mem_toFinset] at here most
    refine ⟨d, here.1, .inr ⟨stopping d here.1 here.2, fun e link => ?_⟩⟩
    by_contra other
    have below := most e ⟨(ctx.inside _ link).2, other⟩
    have above : depth d < depth e := deeper _ link
    omega

theorem Ready.alive {chn : Nat → Chn} (ready : Ready ctx chn c) : (chn c).state ≠ .STOPPED := by
  rcases ready with ⟨active, -⟩ | ⟨stopping, -⟩
  · simp [active]
  · simp [stopping]

/-- A channel that has still as much to do stays ready. -/
theorem Ready.same {chn now : Nat → Chn} (ready : Ready ctx chn c) (mem : c ∈ ctx.chns)
    (same : ∀ d ∈ ctx.chns, (now d).state = (chn d).state) : Ready ctx now c := by
  rcases ready with ⟨active, sources⟩ | ⟨stopping, sinks⟩
  · refine .inl ⟨(same c mem).trans active, fun s link => ?_⟩
    rw [same s (ctx.inside _ link).1]
    exact sources s link
  · refine .inr ⟨(same c mem).trans stopping, fun d link => ?_⟩
    rw [same d (ctx.inside _ link).2]
    exact sinks d link

theorem idle_source {chn : Nat → Chn} (empty : (chn c).input = [])
    (sources : ∀ s, ⟨s, c⟩ ∈ ctx.pipes → (chn s).state ≠ .ACTIVE) : isSourceEnd ctx chn c = true := by
  unfold isSourceEnd
  rw [if_neg (by simp [empty])]
  by_cases linked : ∃ s, ⟨s, c⟩ ∈ ctx.pipes
  · obtain ⟨s, link⟩ := linked
    rw [getSource_eq link]
    exact decide_eq_true (sources s link)
  · have none : getSource ctx c = none := by
      refine last_none.mpr ⟨rfl, ?_⟩
      rintro ⟨s, d⟩ mem rfl
      exact linked ⟨s, mem⟩
    rw [none]

/-- An output file that is ready and does not end has a buffer to take. -/
theorem ofile_waits {chn : Nat → Chn} {forceExit : Bool} (ready : Ready ctx chn c)
    (active : (chn c).state = .ACTIVE) (waits : ofileEnd ctx chn c forceExit = false) :
    (chn c).input ≠ [] := by
  intro empty
  rcases ready with ⟨-, sources⟩ | ⟨stopping, -⟩
  · simp [ofileEnd, idle_source empty sources] at waits
  · cases active.symm.trans stopping

theorem pop_less {chn : Nat → Chn} {fin : Bool} (file : ctx.ofile c = true)
    (active : (chn c).state = .ACTIVE) (some : (chn c).input ≠ []) :
    weight ctx (Function.update chn c (ofileRun { chn c with fin })) c < weight ctx chn c := by
  have long := List.length_pos_iff.mpr some
  simp [weight, ofileRun, active, file, pop_input]
  omega

theorem stopping_stops {chn : Nat → Chn} {running ok : Bool} {stack : List Frame}
    (stopping : (chn c).state = .STOPPING) (sinks : ∀ d, ⟨c, d⟩ ∈ ctx.pipes → (chn d).state = .STOPPED)
    (step : Step ctx ⟨chn, .run c :: stack, running⟩ (.proceed ok) t) : (t.chn c).state = .STOPPED := by
  simp only [Step, Schedule.step, proceed, stopping, processChnStopping, alive_none.mpr sinks,
    Option.some.injEq] at step
  rw [← step]
  simp

/-- The call of a visit is called by the sweep. -/
theorem Coming.visit {f : Frame} {stack : List Frame} (coming : Coming c (f :: stack))
    (called : Called ctx d stack) (quiet : ∀ c buffer outs, .push c buffer outs ∉ stack)
    (top : f = .run d ∨ Acting d f) :
    ∃ rest count, stack = [.ran d rest count] ∧
      (c ∈ rest ∨ d = c ∧ (f = .run c ∨ f = .check c ∨ f = .body c true)) := by
  cases called with
  | poll =>
    rcases top with rfl | acting
    · cases coming
    · cases acting <;> cases coming
  | sweep =>
    refine ⟨_, _, rfl, ?_⟩
    rcases top with rfl | acting
    · exact coming
    · cases acting <;> exact coming
  | notify buffer => exact absurd List.mem_cons_self (quiet _ buffer _)

/-- A visit of a channel that is ready and has as much to do as before is not over. -/
theorem Coming.step (coming : Coming c m.stack) (ready : Ready ctx m.chn c)
    (draining : Draining ctx m) (step : Step ctx m event t) (ending : Ending event)
    (same : weight ctx t.chn c = weight ctx m.chn c) : Coming c t.stack := by
  have taken := step_taken step
  have state := weight_state same
  have shape := draining.sound.shape
  have quiet : ∀ f stack, m.stack = f :: stack → ∀ c buffer outs, .push c buffer outs ∉ stack :=
    fun f stack top c buffer outs mem => draining.quiet c buffer outs (by simp [top, mem])
  have active : ∀ f stack, m.stack = f :: stack → Acting c f → (m.chn c).state = .ACTIVE :=
    fun f stack top acting => draining.sound.busy c (by simp [top, acting])
  cases taken with
  | timer => cases coming
  | poll => cases coming
  | swept chn running count stack ok =>
    cases stack with
    | nil => cases coming
    | cons f stack => cases (shape.timer_alone List.mem_cons_self).2
  | passed chn running d rest count stack ok stopped =>
    cases stack with
    | nil =>
      rcases List.mem_cons.mp coming with rfl | later
      · exact absurd stopped ready.alive
      · exact later
    | cons f stack => cases (shape.timer_alone List.mem_cons_self).2
  | visit chn running d rest count stack ok =>
    cases stack with
    | nil =>
      rcases List.mem_cons.mp coming with rfl | later
      · exact .inr ⟨rfl, .inl rfl⟩
      · exact .inl later
    | cons f stack => cases (shape.timer_alone List.mem_cons_self).2
  | counted chn running d rest count stack ok =>
    cases shape with
    | ran => exact coming
    | acting _ acting => cases acting
  | active chn running d stack ok active =>
    cases shape with
    | acting _ acting => cases acting
    | run called =>
      obtain ⟨rest, count, rfl, later | ⟨rfl, -⟩⟩ := coming.visit called (quiet _ _ rfl) (.inl rfl)
      · exact .inl later
      · exact .inr ⟨rfl, .inr (.inl rfl)⟩
  | still chn running d stack ok other =>
    cases shape with
    | acting _ acting => cases acting
    | run called =>
      obtain ⟨rest, count, rfl, later | ⟨rfl, -⟩⟩ := coming.visit called (quiet _ _ rfl) (.inl rfl)
      · exact later
      · rcases id ready with ⟨active, -⟩ | ⟨stopping, sinks⟩
        · exact absurd active other
        · have stopped : (chn d).state = .STOPPED := stopping_stops stopping sinks step
          exact absurd stopped ready.alive
  | stops chn running d stack ok stopping none =>
    cases shape with
    | acting _ acting => cases acting
    | run called =>
      obtain ⟨rest, count, rfl, later | ⟨rfl, -⟩⟩ := coming.visit called (quiet _ _ rfl) (.inl rfl)
      · exact later
      · simp [stopping] at state
  | pushed chn running d buffer => exact absurd List.mem_cons_self (draining.quiet d buffer [])
  | notify chn running d buffer e outs =>
    exact absurd List.mem_cons_self (draining.quiet d buffer (e :: outs))
  | skip chn running d buffer e outs =>
    exact absurd List.mem_cons_self (draining.quiet d buffer (e :: outs))
  | checked chn running d stack isEnd =>
    obtain ⟨rest, count, rfl, later | ⟨rfl, -⟩⟩ :=
      coming.visit (shape.called .check) (quiet _ _ rfl) (.inr .check)
    · exact .inl later
    · exact .inr ⟨rfl, .inr (.inr (by rw [show isEnd = true from ending]))⟩
  | unready chn running d stack ready' isEnd =>
    obtain ⟨rest, count, rfl, later | ⟨rfl, -⟩⟩ :=
      coming.visit (shape.called .check) (quiet _ _ rfl) (.inr .check)
    · exact later
    · have before : (chn d).state = .ACTIVE := active _ _ rfl .check
      simp [leave, show isEnd = true from ending, before] at state
  | ofile chn running d stack forceExit file =>
    obtain ⟨rest, count, rfl, later | ⟨rfl, -⟩⟩ :=
      coming.visit (shape.called .check) (quiet _ _ rfl) (.inr .check)
    · exact .inl later
    · have before : (chn d).state = .ACTIVE := active _ _ rfl .check
      have ends : ofileEnd ctx chn d forceExit = true := by
        by_contra open_
        exact absurd same (ne_of_lt (pop_less file before (ofile_waits ready before (by simpa using open_))))
      exact .inr ⟨rfl, .inr (.inr (by rw [ends]))⟩
  | disabled chn running d stack forceExit file off =>
    obtain ⟨rest, count, rfl, later | ⟨rfl, -⟩⟩ :=
      coming.visit (shape.called .check) (quiet _ _ rfl) (.inr .check)
    · exact later
    · cases off.symm.trans (draining.enabled _ (active _ _ rfl .check))
  | push => cases ending
  | start => cases ending
  | ret chn running d stack isEnd =>
    obtain ⟨rest, count, rfl, later | ⟨rfl, body⟩⟩ :=
      coming.visit (shape.called (.body _)) (quiet _ _ rfl) (.inr (.body _))
    · exact later
    · have ends : isEnd = true := by simpa using body
      have before : (chn d).state = .ACTIVE := active _ _ rfl (.body _)
      simp [leave, ends, before] at state

/-! ## How many sweeps there are -/

/-- The sweep has yet to do what every sweep does: to leave less to do or, when nothing
was left from the start, to stop the loop. -/
def Owes (ctx : Context) (m : Machine) : Prop :=
  (∃ c ∈ ctx.chns, Ready ctx m.chn c ∧ Coming c m.stack) ∨
  m.running = true ∧ (∀ c ∈ ctx.chns, (m.chn c).state = .STOPPED) ∧ ∃ rest, m.stack = [.timer rest 0]

def credit (ctx : Context) (m : Machine) : Nat := rank ctx m.chn + if m.running then 1 else 0

open Classical in
noncomputable def debt (ctx : Context) (m : Machine) : Nat := if Owes ctx m then 1 else 0

theorem debt_le : debt ctx m ≤ 1 := by
  unfold debt
  split <;> omega

theorem debt_of (owes : Owes ctx m) : debt ctx m = 1 := if_pos owes

/-- What is owed is there. -/
theorem debt_le_credit : debt ctx m ≤ credit ctx m := by
  by_cases owes : Owes ctx m
  · rw [debt_of owes]
    rcases owes with ⟨c, mem, ready, -⟩ | ⟨running, -⟩
    · have left : rank ctx m.chn ≠ 0 := fun none => ready.alive (rank_stopped.mp none c mem)
      unfold credit
      omega
    · simp [credit, running]
  · rw [debt, if_neg owes]
    exact Nat.zero_le _

theorem running_le (taken : Taken ctx m event t) (running : t.running = true) : m.running = true := by
  cases taken with
  | swept chn before count => exact (Bool.and_eq_true_iff.mp running).1
  | timer => rfl
  | _ => exact running

theorem Draining.credit_le (draining : Draining ctx m) (taken : Taken ctx m event t)
    (ending : Ending event) : credit ctx t ≤ credit ctx m := by
  have ranks := rank_le (draining.weight_le taken ending)
  have runs := running_le taken
  unfold credit
  cases after : t.running
  · simp only [Bool.false_eq_true, if_false]
    omega
  · simp only [runs after, if_true]
    omega

/-- A sweep that begins owes. -/
theorem owes_timer {chn : Nat → Chn} : Owes ctx ⟨chn, [.timer ctx.chns 0], true⟩ := by
  by_cases all : ∀ c ∈ ctx.chns, (chn c).state = .STOPPED
  · exact .inr ⟨rfl, all, _, rfl⟩
  · push Not at all
    obtain ⟨c, mem, alive⟩ := all
    obtain ⟨d, mem, ready⟩ := exists_ready mem alive
    exact .inl ⟨d, mem, ready, mem⟩

/-- A sweep that owes pays or still does. -/
theorem Owes.step (owes : Owes ctx m) (draining : Draining ctx m) (step : Step ctx m event t)
    (ending : Ending event) : credit ctx t < credit ctx m ∨ Owes ctx t := by
  have taken := step_taken step
  have less := draining.weight_le taken ending
  rcases owes with ⟨c, mem, ready, coming⟩ | ⟨running, all, rest, stack⟩
  · have ranks := rank_le less
    by_cases same : rank ctx t.chn = rank ctx m.chn
    · have weights := weights_same less same
      exact .inr (.inl ⟨c, mem, ready.same mem fun d inside => weight_state (weights d inside),
        coming.step ready draining step ending (weights c mem)⟩)
    · left
      have runs := running_le taken
      unfold credit
      cases after : t.running
      · simp only [Bool.false_eq_true, if_false]
        omega
      · simp only [runs after, if_true]
        omega
  · obtain ⟨chn, calls, runs⟩ := m
    dsimp only at running all stack
    subst running stack
    cases taken with
    | swept chn running count stack ok =>
      left
      simp [credit]
    | passed chn running c rest => exact .inr (.inr ⟨rfl, all, rest, rfl⟩)
    | visit chn running c rest count stack ok alive =>
      obtain ⟨seen, whole, -⟩ := draining.swept.timer (c :: rest) 0 List.mem_cons_self
      exact absurd (all c (by simp [whole])) alive
    | push => cases ending
    | start => cases ending

theorem debt_none (idle : m.stack = []) : debt ctx m = 0 := by
  refine if_neg ?_
  rintro (⟨c, -, -, coming⟩ | ⟨-, -, rest, stack⟩)
  · rw [idle] at coming
    cases coming
  · rw [idle] at stack
    cases stack

theorem balanced_sweeps : Balanced (Only (Step ctx) fun _ event _ => Ending event) (Draining ctx)
    Event.sweep (fun _ => 0) (credit ctx) (debt ctx) where
  kept draining step := draining.step (step_taken step.1) step.2
  paid := by
    rintro m event t draining ⟨step, ending⟩
    have taken := step_taken step
    have less := draining.credit_le taken ending
    by_cases timer : event = .timer
    · subst timer
      cases taken with
      | timer chn =>
        have before := @debt_none ctx ⟨chn, [], true⟩ rfl
        have after : debt ctx ⟨chn, [.timer ctx.chns 0], true⟩ = 1 := debt_of owes_timer
        simp only [Event.sweep]
        omega
    · have spent : event.sweep = 0 := by
        cases event with
        | timer => exact absurd rfl timer
        | _ => rfl
      by_cases owes : Owes ctx m
      · rcases owes.step draining step ending with paid | still
        · have one := @debt_le ctx m
          omega
        · have before := debt_of owes
          have after := debt_of still
          omega
      · have none : debt ctx m = 0 := if_neg owes
        omega

/-! ## How many steps there are -/

/-- The steps that a call has still to make, those of the calls it makes included. -/
def Frame.cost : Frame → Nat
  | .timer rest _ => 5 * rest.length + 1
  | .ran _ rest _ => 5 * rest.length + 2
  | .run _ => 3
  | .check _ => 2
  | .body .. => 1
  | .push .. => 0

def cost (m : Machine) : Nat := total Frame.cost m.stack

def Event.steps (ctx : Context) : Event → Nat
  | .timer => 5 * ctx.chns.length + 2
  | .poll _ => 4
  | _ => 0

theorem balanced_steps : Balanced (Only (Step ctx) fun _ event _ => Ending event) (Draining ctx)
    (fun _ => 1) (Event.steps ctx) cost fun _ => 0 where
  kept draining step := draining.step (step_taken step.1) step.2
  paid := by
    rintro m event t draining ⟨step, ending⟩
    cases step_taken step with
    | pushed chn running c buffer => exact absurd List.mem_cons_self (draining.quiet c buffer [])
    | notify chn running c buffer d outs =>
      exact absurd List.mem_cons_self (draining.quiet c buffer (d :: outs))
    | skip chn running c buffer d outs =>
      exact absurd List.mem_cons_self (draining.quiet c buffer (d :: outs))
    | push => cases ending
    | start => cases ending
    | _ =>
      simp only [cost, total_cons, total_nil, Frame.cost, Event.steps, List.length_cons]
      omega

/-- Whatever call is the innermost can go on, and the loop can sweep again. -/
theorem Draining.goes_on (draining : Draining ctx m) (left : m.running = true ∨ m.stack ≠ []) :
    ∃ event t, (∀ c, event ≠ .poll c) ∧ Ending event ∧ Step ctx m event t := by
  have some (event : Event) (other : ∀ c, event ≠ .poll c) (ending : Ending event)
      (goes : (Schedule.step ctx m event).isSome) :
      ∃ event t, (∀ c, event ≠ .poll c) ∧ Ending event ∧ Step ctx m event t :=
    ⟨event, _, other, ending, Option.eq_some_of_isSome goes⟩
  obtain ⟨chn, stack, running⟩ := m
  cases draining.sound.shape with
  | idle =>
    have running : running = true := by simpa using left
    exact some .timer nofun trivial (by simp [Schedule.step, running])
  | timer rest count =>
    refine some (.proceed true) nofun trivial ?_
    cases rest with
    | nil => rfl
    | cons c rest =>
      simp only [Schedule.step, proceed]
      split <;> rfl
  | ran => exact some (.proceed true) nofun trivial rfl
  | run =>
    refine some (.proceed true) nofun trivial ?_
    simp only [Schedule.step, proceed]
    split <;> rfl
  | @acting c f stack called acting =>
    cases acting with
    | body => exact some .ret nofun trivial rfl
    | check =>
      by_cases file : ctx.ofile c = true
      · refine some (.ofile false) nofun trivial ?_
        simp only [Schedule.step, file, Bool.not_true, Bool.false_eq_true, if_false]
        split <;> rfl
      · refine some (.checked true true) nofun rfl ?_
        simp only [Schedule.step, file, Bool.false_eq_true, if_false]
        split <;> rfl
  | push buffer => exact absurd List.mem_cons_self (draining.quiet _ buffer _)

/-! ## The whole drain -/

/-- When the loop has stopped all channels are. -/
structure Ended (ctx : Context) (m : Machine) : Prop where
  draining : Draining ctx m
  stopped : m.running = false → ∀ c ∈ ctx.chns, (m.chn c).state = .STOPPED

theorem Ended.step (ended : Ended ctx m) (taken : Taken ctx m event t) (ending : Ending event) :
    Ended ctx t where
  draining := ended.draining.step taken ending
  stopped := by
    intro after c mem
    have before : (m.chn c).state = .STOPPED := by
      cases running : m.running with
      | false => exact ended.stopped running c mem
      | true => exact ended.draining.swept.stopped taken running after c mem
    have less := ended.draining.weight_le taken ending c
    rw [weight_stopped.mpr before] at less
    exact weight_stopped.mp (Nat.le_zero.mp less)

theorem start_enabled {starts stops : Nat → Bool} : Enabled (pitcherStart ctx starts stops).chn := by
  have none : Enabled fun _ => {} := fun c active => nomatch active
  have started : Enabled (ctx.chns.foldl (fun chn c => startChn ctx chn c (starts c)) fun _ => {}) :=
    List.foldlRecOn _ _ none fun chn enabled c _ => Enabled.startChn enabled
  unfold pitcherStart
  dsimp only
  split
  · exact started
  · exact List.foldlRecOn _ _ started fun chn enabled c _ => Enabled.stopChn enabled

theorem total_steps (events : List Event) :
    total (Event.steps ctx) events =
      (5 * ctx.chns.length + 2) * sweeps events + 4 * polls events := by
  induction events with
  | nil => rfl
  | cons event events ih =>
    have head : event.steps ctx = (5 * ctx.chns.length + 2) * event.sweep + 4 * event.polls := by
      cases event <;> simp [Event.steps, Event.sweep, Event.polls]
    have swept : sweeps (event :: events) = event.sweep + sweeps events := total_cons ..
    have polled : Schedule.polls (event :: events) = event.polls + polls events := total_cons ..
    rw [total_cons, ih, head, swept, polled, Nat.mul_add, Nat.mul_add]
    omega

/-- From where the loop stands between two callbacks, in any run so far: when from there on
nothing is pushed or started and the checks report the end, each sweep but the last leaves less
to do, so the sweeps, and with them the steps, are bounded; until the loop stops there is
always a step that is not a poll callback, and when it has stopped every channel has. -/
theorem drains {starts stops : Nat → Bool} {events more : List Event}
    (run : Run (Step ctx) (pitcherStart ctx starts stops) events m) (idle : m.stack = [])
    (running : m.running = true) (drain : Run (Step ctx) m more t)
    (ending : ∀ event ∈ more, Ending event) :
    sweeps more ≤ rank ctx m.chn + 1 ∧
    more.length ≤ (5 * ctx.chns.length + 2) * sweeps more + 4 * polls more ∧
    (t.running = true ∨ t.stack ≠ [] →
      ∃ event u, (∀ c, event ≠ .poll c) ∧ Ending event ∧ Step ctx t event u) ∧
    (t.running = false → ∀ c ∈ ctx.chns, (t.chn c).state = .STOPPED) := by
  have enabled : Enabled m.chn := @Run.invariant _ _ _ _ _ _ (fun m => Enabled m.chn) run
    (fun _ _ _ enabled step => enabled.step (step_taken step)) start_enabled
  have draining : Draining ctx m :=
    ⟨(run_sound run).1, (run_sound run).2, enabled, by simp [idle]⟩
  have only := only_labels drain ending
  have swept := balanced_sweeps.run only draining
  have made := balanced_steps.run only draining
  have ended : Ended ctx t := by
    refine @Run.invariant _ _ _ _ _ _ (Ended ctx) only ?_ ⟨draining, by simp [running]⟩
    exact fun _ _ _ ended step => ended.step (step_taken step.1) step.2
  refine ⟨?_, ?_, ended.draining.goes_on, ended.stopped⟩
  · have none : debt ctx m = 0 := debt_none idle
    have covered := @debt_le_credit ctx t
    have all : credit ctx m = rank ctx m.chn + 1 := by simp [credit, running]
    have nothing : total (fun _ => 0) more = 0 := total_zero more
    unfold sweeps
    omega
  · have none : cost m = 0 := by simp [cost, idle]
    rw [total_one, total_steps, none] at made
    omega

/-- The source reports the end in the first sweep, so the rest is a drain. -/
theorem pair_drains : ∃ m, (threeSweeps ++ [Event.proceed true]).foldlM (step pair)
    (pitcherStart pair (fun _ => true) fun _ => true) = some m ∧ m.running = false ∧
      sweeps (threeSweeps ++ [Event.proceed true]) ≤ 5 ∧ ∀ c ∈ pair.chns, (m.chn c).state = .STOPPED := by
  have done : ((threeSweeps ++ [Event.proceed true]).foldlM (step pair)
    (pitcherStart pair (fun _ => true) fun _ => true)).map Machine.running = some false := rfl
  obtain ⟨m, run, stopped⟩ := Option.map_eq_some_iff.mp done
  have here : Run (Step pair) (pitcherStart pair (fun _ => true) fun _ => true) []
      (pitcherStart pair (fun _ => true) fun _ => true) := .stay _
  have facts := drains here rfl rfl (.of_foldlM run) (by decide)
  exact ⟨m, run, stopped, facts.1, facts.2.2.2 stopped⟩

end ImxTest.Pitcher.Schedule
