import ImxTest.Pitcher.Schedule

/-! When channels stop. Along a stack the channels whose callbacks are running lie
ever deeper in the forest, so that none of them is stopped by what runs above it. -/
namespace ImxTest.Pitcher.Schedule
open Lib.Runs Core

/-! ## What a step does -/

/-- The steps by the innermost call and what becomes of it. -/
inductive Taken (ctx : Context) : Machine → Event → Machine → Prop where
  | timer (chn) : Taken ctx ⟨chn, [], true⟩ .timer ⟨chn, [.timer ctx.chns 0], true⟩
  | poll (chn running c) : Taken ctx ⟨chn, [], running⟩ (.poll c) ⟨chn, [.run c], running⟩
  | swept (chn running count stack ok) :
    Taken ctx ⟨chn, .timer [] count :: stack, running⟩ (.proceed ok)
      ⟨chn, stack, running && decide (count ≠ 0)⟩
  | passed (chn running c rest count stack ok) : (chn c).state = .STOPPED →
    Taken ctx ⟨chn, .timer (c :: rest) count :: stack, running⟩ (.proceed ok)
      ⟨chn, .timer rest count :: stack, running⟩
  | visit (chn running c rest count stack ok) : (chn c).state ≠ .STOPPED →
    Taken ctx ⟨chn, .timer (c :: rest) count :: stack, running⟩ (.proceed ok)
      ⟨chn, .run c :: .ran c rest count :: stack, running⟩
  | counted (chn running c rest count stack ok) :
    Taken ctx ⟨chn, .ran c rest count :: stack, running⟩ (.proceed ok)
      ⟨chn, .timer rest (if (chn c).state = .STOPPED then count else count + 1) :: stack, running⟩
  | active (chn running c stack ok) : (chn c).state = .ACTIVE →
    Taken ctx ⟨chn, .run c :: stack, running⟩ (.proceed ok) ⟨chn, .check c :: stack, running⟩
  | still (chn running c stack ok) : (chn c).state ≠ .ACTIVE →
    Taken ctx ⟨chn, .run c :: stack, running⟩ (.proceed ok) ⟨chn, stack, running⟩
  | stops (chn running c stack ok) : (chn c).state = .STOPPING → getAliveSink ctx chn c = none →
    Taken ctx ⟨chn, .run c :: stack, running⟩ (.proceed ok)
      ⟨Function.update chn c { unitStop (chn c) (ok || ctx.ofile c) with state := .STOPPED },
        stack, running⟩
  | pushed (chn running c buffer stack ok) :
    Taken ctx ⟨chn, .push c buffer [] :: stack, running⟩ (.proceed ok) ⟨chn, stack, running⟩
  | notify (chn running c buffer d outs stack ok) :
    Taken ctx ⟨chn, .push c buffer (d :: outs) :: stack, running⟩ (.proceed ok)
      ⟨Function.update chn d { chn d with input := (chn d).input ++ [buffer] },
        .run d :: .push c buffer outs :: stack, running⟩
  | skip (chn running c buffer d outs stack) :
    Taken ctx ⟨chn, .push c buffer (d :: outs) :: stack, running⟩ .skip
      ⟨chn, .push c buffer outs :: stack, running⟩
  | checked (chn running c stack isEnd) : ctx.ofile c = false →
    Taken ctx ⟨chn, .check c :: stack, running⟩ (.checked true isEnd)
      ⟨Function.update chn c (pop (chn c)), .body c isEnd :: stack, running⟩
  | unready (chn running c stack ready isEnd) : ctx.ofile c = false →
    Taken ctx ⟨chn, .check c :: stack, running⟩ (.checked ready isEnd)
      ⟨leave chn c isEnd, stack, running⟩
  | ofile (chn running c stack forceExit) : ctx.ofile c = true →
    Taken ctx ⟨chn, .check c :: stack, running⟩ (.ofile forceExit)
      ⟨Function.update chn c (ofileRun { chn c with fin := ofileEnd ctx chn c forceExit }),
        .body c (ofileEnd ctx chn c forceExit) :: stack, running⟩
  | disabled (chn running c stack forceExit) : ctx.ofile c = true → (chn c).enable = false →
    Taken ctx ⟨chn, .check c :: stack, running⟩ (.ofile forceExit)
      ⟨leave (Function.update chn c { chn c with fin := ofileEnd ctx chn c forceExit }) c
        (ofileEnd ctx chn c forceExit), stack, running⟩
  | push (chn running c stack buffer ok) : caller stack = some c → ctx.ofile c = false →
    Taken ctx ⟨chn, stack, running⟩ (.push buffer ok)
      ⟨Function.update (startSinks ctx chn c ok) c { startSinks ctx chn c ok c with
          pushed := (startSinks ctx chn c ok c).pushed ++ [buffer] },
        .push c buffer (ctx.outs c) :: stack, running⟩
  | start (chn running c stack d ok) : caller stack = some c → ctx.ofile c = false →
    Taken ctx ⟨chn, stack, running⟩ (.start d ok) ⟨startChn ctx chn d ok, stack, running⟩
  | ret (chn running c stack isEnd) :
    Taken ctx ⟨chn, .body c isEnd :: stack, running⟩ .ret ⟨leave chn c isEnd, stack, running⟩

variable {ctx : Context} {m t : Machine} {event : Event}

theorem proceed_taken {ok : Bool} (step : proceed ctx m ok = some t) : Taken ctx m (.proceed ok) t := by
  obtain ⟨chn, stack, running⟩ := m
  unfold proceed at step
  split at step
  next count stack same =>
    cases same
    cases step
    exact .swept ..
  next c rest count stack same =>
    cases same
    split_ifs at step with stopped
    · cases step
      exact .passed _ _ _ _ _ _ _ stopped
    · cases step
      exact .visit _ _ _ _ _ _ _ stopped
  next c rest count stack same =>
    cases same
    cases step
    exact .counted ..
  next c stack same =>
    cases same
    split at step
    next active =>
      cases step
      exact .active _ _ _ _ _ active
    next stopping =>
      cases step
      unfold processChnStopping
      split
      next => exact .still _ _ _ _ _ fun active => by cases stopping.symm.trans active
      next none => exact .stops _ _ _ _ _ stopping none
    next stopped =>
      cases step
      exact .still _ _ _ _ _ fun active => by cases stopped.symm.trans active
  next c buffer stack same =>
    cases same
    cases step
    exact .pushed ..
  next c buffer d outs stack same =>
    cases same
    cases step
    exact .notify ..
  next => cases step

theorem step_taken (step : Step ctx m event t) : Taken ctx m event t := by
  obtain ⟨chn, stack, running⟩ := m
  unfold Step Schedule.step at step
  split at step
  next =>
    split_ifs at step with free
    obtain ⟨rfl, rfl⟩ := free
    cases step
    exact .timer _
  next c =>
    split_ifs at step with free
    cases free
    cases step
    exact .poll ..
  next ok => exact proceed_taken step
  next =>
    split at step
    next c buffer d outs stack same =>
      cases same
      cases step
      exact .skip ..
    next => cases step
  next ready isEnd =>
    split at step
    next c stack same =>
      cases same
      split_ifs at step with file runs
      · cases step
        obtain ⟨rfl, -⟩ := runs
        exact .checked _ _ _ _ _ (Bool.eq_false_iff.mpr file)
      · cases step
        exact .unready _ _ _ _ _ _ (Bool.eq_false_iff.mpr file)
    next => cases step
  next forceExit =>
    split at step
    next c stack same =>
      cases same
      split_ifs at step with file enable
      · cases step
        exact .ofile _ _ _ _ _ (by simpa using file)
      · cases step
        exact .disabled _ _ _ _ _ (by simpa using file) (Bool.eq_false_iff.mpr enable)
    next => cases step
  next buffer ok =>
    split at step
    next => cases step
    next c calls =>
      split_ifs at step with file
      cases step
      exact .push _ _ _ _ _ _ calls (Bool.eq_false_iff.mpr file)
  next d ok =>
    split at step
    next => cases step
    next c calls =>
      split_ifs at step with file
      cases step
      exact .start _ _ _ _ _ _ calls (Bool.eq_false_iff.mpr file)
  next =>
    split at step
    next c isEnd stack same =>
      cases same
      cases step
      exact .ret ..
    next => cases step

/-! ## The stack -/

/-- The call is of a callback of the channel. -/
inductive Acting (c : Nat) : Frame → Prop where
  | check : Acting c (.check c)
  | body (isEnd) : Acting c (.body c isEnd)

/-- `__process_chn_run` is called for a channel on top of these calls. -/
inductive Called (ctx : Context) : Nat → List Frame → Prop where
  | poll (c) : Called ctx c []
  | sweep (c rest count) : Called ctx c [.ran c rest count]
  | notify {s c outs f stack} (buffer) : Called ctx s stack → Acting s f →
    c :: outs <:+ ctx.outs s → Called ctx c (.push s buffer outs :: f :: stack)

/-- The stacks there are. -/
inductive Shape (ctx : Context) : List Frame → Prop where
  | idle : Shape ctx []
  | timer (rest count) : Shape ctx [.timer rest count]
  | ran (c rest count) : Shape ctx [.ran c rest count]
  | run {c stack} : Called ctx c stack → Shape ctx (.run c :: stack)
  | acting {c f stack} : Called ctx c stack → Acting c f → Shape ctx (f :: stack)
  | push {c outs f stack} (buffer) : Called ctx c stack → Acting c f →
    outs <:+ ctx.outs c → Shape ctx (.push c buffer outs :: f :: stack)

/-- A callback of the channel is running. -/
def Busy (c : Nat) (stack : List Frame) : Prop := ∃ f ∈ stack, Acting c f

section Stack
variable {c d : Nat} {f : Frame} {stack : List Frame}

theorem mem_outs (mem : d ∈ ctx.outs c) : ⟨c, d⟩ ∈ ctx.pipes := by
  obtain ⟨⟨src, dst⟩, found, rfl⟩ := List.mem_map.mp (List.mem_of_mem_take mem)
  obtain ⟨there, same⟩ := List.mem_filter.mp found
  obtain rfl : src = c := of_decide_eq_true same
  exact there

theorem Acting.same (acting : Acting c f) (other : Acting d f) : c = d := by
  cases acting <;> cases other <;> rfl

@[simp] theorem acting_check : Acting c (.check d) ↔ c = d :=
  ⟨fun acting => by cases acting; rfl, fun same => same ▸ .check⟩

@[simp] theorem acting_body {isEnd : Bool} : Acting c (.body d isEnd) ↔ c = d :=
  ⟨fun acting => by cases acting; rfl, fun same => same ▸ .body isEnd⟩

@[simp] theorem acting_timer {rest : List Nat} {count : Nat} : ¬ Acting c (.timer rest count) := nofun

@[simp] theorem acting_ran {rest : List Nat} {count : Nat} : ¬ Acting c (.ran d rest count) := nofun

@[simp] theorem acting_run : ¬ Acting c (.run d) := nofun

@[simp] theorem acting_push {buffer : Buffer} {outs : List Nat} : ¬ Acting c (.push d buffer outs) :=
  nofun

@[simp] theorem busy_nil : ¬ Busy c [] := by simp [Busy]

@[simp] theorem busy_cons : Busy c (f :: stack) ↔ Acting c f ∨ Busy c stack := by
  simp [Busy]

/-- The channels whose callbacks are running below a call are less deep. -/
theorem Called.deeper {depth : Nat → Nat} (deeper : ∀ pipe ∈ ctx.pipes, depth pipe.src < depth pipe.dst)
    (called : Called ctx c stack) (busy : Busy d stack) : depth d < depth c := by
  induction called with
  | poll => exact absurd busy busy_nil
  | sweep => simp at busy
  | @notify s c outs f stack buffer called acting left ih =>
    have link : ⟨s, c⟩ ∈ ctx.pipes := mem_outs (left.subset List.mem_cons_self)
    have below : depth s < depth c := deeper _ link
    rcases busy_cons.mp busy with push | busy
    · exact absurd push acting_push
    · rcases busy_cons.mp busy with here | busy
      · rwa [← acting.same here]
      · exact Nat.lt_trans (ih busy) below

theorem Called.free (called : Called ctx c stack) : ¬ Busy c stack := by
  intro busy
  obtain ⟨depth, deeper⟩ := ctx.deeper
  exact Nat.lt_irrefl _ (called.deeper deeper busy)

theorem Called.shape (called : Called ctx c stack) : Shape ctx stack := by
  cases called with
  | poll => exact .idle
  | sweep => exact .ran ..
  | notify buffer called acting left => exact .push buffer called acting ((List.suffix_cons ..).trans left)

theorem caller_acting (calls : caller stack = some c) : ∃ f rest, stack = f :: rest ∧ Acting c f := by
  unfold caller at calls
  split at calls
  · cases calls
    exact ⟨_, _, rfl, .check⟩
  · cases calls
    exact ⟨_, _, rfl, .body _⟩
  · cases calls

/-- A callback runs on top of the calls it was called from. -/
theorem Shape.called (shape : Shape ctx (f :: stack)) (acting : Acting c f) : Called ctx c stack := by
  cases shape with
  | timer => cases acting
  | ran => cases acting
  | run => cases acting
  | acting called other => exact acting.same other ▸ called
  | push => cases acting

theorem Shape.step (shape : Shape ctx m.stack) (taken : Taken ctx m event t) : Shape ctx t.stack := by
  cases taken with
  | timer => exact .timer ..
  | poll => exact .run (.poll _)
  | swept => cases shape with
    | timer => exact .idle
    | acting _ acting => cases acting
  | passed => cases shape with
    | timer => exact .timer ..
    | acting _ acting => cases acting
  | visit => cases shape with
    | timer => exact .run (.sweep ..)
    | acting _ acting => cases acting
  | counted => cases shape with
    | ran => exact .timer ..
    | acting _ acting => cases acting
  | active => cases shape with
    | run called => exact .acting called .check
    | acting _ acting => cases acting
  | still => cases shape with
    | run called => exact called.shape
    | acting _ acting => cases acting
  | stops => cases shape with
    | run called => exact called.shape
    | acting _ acting => cases acting
  | pushed => cases shape with
    | push _ called acting => exact .acting called acting
    | acting _ acting => cases acting
  | notify => cases shape with
    | push _ called acting left => exact .run (.notify _ called acting left)
    | acting _ acting => cases acting
  | skip => cases shape with
    | push _ called acting left => exact .push _ called acting ((List.suffix_cons ..).trans left)
    | acting _ acting => cases acting
  | checked => exact .acting (shape.called .check) (.body _)
  | unready => exact (shape.called .check).shape
  | ofile => exact .acting (shape.called .check) (.body _)
  | disabled => exact (shape.called .check).shape
  | push _ _ _ _ _ _ calls =>
    obtain ⟨f, rest, rfl, acting⟩ := caller_acting calls
    exact .push _ (shape.called acting) acting List.suffix_rfl
  | start => exact shape
  | ret => exact (shape.called (.body _)).shape

end Stack

/-! ## The states -/

section States
variable {chn : Nat → Chn} {c d : Nat}

theorem startChn_at {ok : Bool} : startChn ctx chn c ok d = chn d ∨
    c = d ∧ (chn d).state ≠ .ACTIVE ∧ startChn ctx chn c ok d = (chn d).started := by
  unfold startChn
  split_ifs with active started
  · exact .inl rfl
  · by_cases same : c = d
    · subst same
      exact .inr ⟨rfl, active, Function.update_self ..⟩
    · exact .inl (Function.update_of_ne (Ne.symm same) ..)
  · exact .inl rfl

/-- A push starts stopped sinks and does nothing else. -/
theorem startSinks_at {ok : Nat → Bool} (d : Nat) : startSinks ctx chn c ok d = chn d ∨
    ⟨c, d⟩ ∈ ctx.pipes ∧ (chn d).state = .STOPPED ∧
      startSinks ctx chn c ok d = (chn d).started := by
  unfold startSinks
  refine List.foldlRecOn (motive := fun now : Nat → Chn => now d = chn d ∨
    ⟨c, d⟩ ∈ ctx.pipes ∧ (chn d).state = .STOPPED ∧
      now d = (chn d).started) _ _ (.inl rfl) ?_
  rintro now kept ⟨src, dst⟩ mem
  split_ifs with sink
  · obtain ⟨rfl, stopped⟩ := sink
    rcases @startChn_at ctx now dst d (ok dst) with same | ⟨rfl, -, started⟩
    · rwa [same]
    · rcases kept with same | ⟨-, -, same⟩
      · rw [same] at stopped started
        exact .inr ⟨mem, stopped, started⟩
      · rw [same] at stopped
        cases stopped
  · exact kept

theorem leave_at {isEnd : Bool} (other : d ≠ c) : leave chn c isEnd d = chn d := by
  unfold leave
  split
  · exact Function.update_of_ne other ..
  · rfl

theorem leave_state {isEnd : Bool} (active : (chn c).state = .ACTIVE) :
    (leave chn c isEnd c).state ≠ .STOPPED := by
  unfold leave
  split
  · simp
  · rw [active]
    exact ChnState.noConfusion

@[simp] theorem pop_state {chn : Chn} : (pop chn).state = chn.state := by
  unfold pop
  split <;> rfl

@[simp] theorem ofileRun_state {chn : Chn} : (ofileRun chn).state = chn.state := pop_state

theorem update_state {x : Chn} (same : x.state = (chn c).state) (d : Nat) :
    (Function.update chn c x d).state = (chn d).state := by
  by_cases here : d = c
  · subst here
    rw [Function.update_self, same]
  · rw [Function.update_of_ne here]

theorem last_none {p : Link → Prop} [DecidablePred p] {g : Link → Nat} {pipes : List Link}
    {found : Option Nat} :
    pipes.foldl (fun found pipe => if p pipe then some (g pipe) else found) found = none ↔
      found = none ∧ ∀ pipe ∈ pipes, ¬ p pipe := by
  induction pipes generalizing found with
  | nil => simp
  | cons pipe pipes ih =>
    rw [List.foldl_cons, ih]
    by_cases here : p pipe
    · simp [here]
    · simp [here]

theorem alive_none : getAliveSink ctx chn c = none ↔
    ∀ d, ⟨c, d⟩ ∈ ctx.pipes → (chn d).state = .STOPPED := by
  unfold getAliveSink
  rw [last_none]
  constructor
  · rintro ⟨-, all⟩ d mem
    by_contra alive
    exact all ⟨c, d⟩ mem ⟨rfl, alive⟩
  · rintro all
    refine ⟨rfl, ?_⟩
    rintro ⟨src, d⟩ mem ⟨rfl, alive⟩
    exact alive (all d mem)

/-- What a step does to the state of a channel: a running callback starts it, its
own callback returns, or it is stopped. -/
theorem Taken.state (taken : Taken ctx m event t) (shape : Shape ctx m.stack) (d : Nat) :
    (t.chn d).state = (m.chn d).state ∨
    ((t.chn d).state = .ACTIVE ∧ (∃ c, caller m.stack = some c) ∧
      ((m.chn d).state = .STOPPED ∨ ∃ ok, event = .start d ok)) ∨
    Called ctx d t.stack ∧ (Busy d m.stack ∨
      (t.chn d).state = .STOPPED ∧ ∀ e, ⟨d, e⟩ ∈ ctx.pipes → (m.chn e).state = .STOPPED) := by
  cases taken with
  | stops chn running c stack ok stopping none =>
    by_cases here : d = c
    · subst here
      refine .inr (.inr ⟨?_, .inr ⟨by simp, alive_none.mp none⟩⟩)
      cases shape with
      | run called => exact called
      | acting _ acting => cases acting
    · exact .inl (congrArg Chn.state (Function.update_of_ne here ..))
  | notify =>
    refine .inl (update_state ?_ d)
    rfl
  | checked => exact .inl (update_state pop_state d)
  | unready chn running c stack =>
    by_cases here : d = c
    · subst here
      exact .inr (.inr ⟨shape.called .check, .inl (by simp)⟩)
    · exact .inl (congrArg Chn.state (leave_at here))
  | ofile =>
    refine .inl (update_state ?_ d)
    exact ofileRun_state
  | disabled chn running c stack =>
    by_cases here : d = c
    · subst here
      exact .inr (.inr ⟨shape.called .check, .inl (by simp)⟩)
    · exact .inl (by simp [leave_at here, Function.update_of_ne here])
  | push chn running c stack buffer ok calls =>
    have pushed := @update_state (startSinks ctx chn c ok) c { startSinks ctx chn c ok c with
      pushed := (startSinks ctx chn c ok c).pushed ++ [buffer] } rfl d
    rcases @startSinks_at ctx chn c ok d with same | ⟨-, stopped, started⟩
    · exact .inl (pushed.trans (congrArg Chn.state same))
    · exact .inr (.inl ⟨pushed.trans (congrArg Chn.state started), ⟨c, calls⟩, .inl stopped⟩)
  | start chn running c stack e ok calls =>
    rcases @startChn_at ctx chn e d ok with same | ⟨rfl, -, started⟩
    · exact .inl (congrArg Chn.state same)
    · exact .inr (.inl ⟨congrArg Chn.state started, ⟨c, calls⟩, .inr ⟨ok, rfl⟩⟩)
  | ret chn running c stack =>
    by_cases here : d = c
    · subst here
      exact .inr (.inr ⟨shape.called (.body _), .inl (by simp)⟩)
    · exact .inl (congrArg Chn.state (leave_at here))
  | _ => exact .inl rfl

end States

/-- The stack is as it should be, and the channels whose callbacks run are active. -/
structure Sound (ctx : Context) (m : Machine) : Prop where
  shape : Shape ctx m.stack
  busy : ∀ c, Busy c m.stack → (m.chn c).state = .ACTIVE

/-- A callback begins only for an active channel. -/
theorem Taken.busy (taken : Taken ctx m event t) {c : Nat} (busy : Busy c t.stack) :
    Busy c m.stack ∨ (t.chn c).state = .ACTIVE := by
  cases taken with
  | active chn running c' stack ok active =>
    rcases busy_cons.mp busy with acting | below
    · exact .inr (acting_check.mp acting ▸ active)
    · exact .inl (busy_cons.mpr (.inr below))
  | push => exact .inl (by simpa using busy)
  | start => exact .inl busy
  | timer => simp at busy
  | poll => simp at busy
  | _ => exact .inl (by simp at busy ⊢; tauto)

theorem Sound.step (sound : Sound ctx m) (taken : Taken ctx m event t) : Sound ctx t where
  shape := sound.shape.step taken
  busy c busy := by
    rcases taken.busy busy with before | active
    · have active := sound.busy c before
      rcases taken.state sound.shape c with same | ⟨started, -⟩ | ⟨called, -⟩
      · exact same.trans active
      · exact started
      · exact absurd busy called.free
    · exact active

/-! ## The sweep -/

theorem Called.outer {c d count : Nat} {rest : List Nat} {stack : List Frame} (called : Called ctx d stack)
    (mem : .ran c rest count ∈ stack) : d = c ∧ stack = [.ran c rest count] ∨ Busy c stack := by
  induction called with
  | poll => cases mem
  | sweep =>
    cases List.mem_singleton.mp mem
    exact .inl ⟨rfl, rfl⟩
  | @notify s _ _ f stack _ called acting _ ih =>
    have below : .ran c rest count ∈ stack := by
      rcases List.mem_cons.mp mem with same | mem
      · cases same
      · rcases List.mem_cons.mp mem with rfl | mem
        · cases acting
        · exact mem
    rcases ih below with ⟨rfl, -⟩ | busy
    · exact .inr (by simp [acting])
    · exact .inr (by simp [busy])

/-- Only a running callback starts a channel. -/
theorem Taken.wakes (taken : Taken ctx m event t) (sound : Sound ctx m) {d : Nat}
    (before : (m.chn d).state = .STOPPED) (after : (t.chn d).state ≠ .STOPPED) :
    ∃ c, caller m.stack = some c := by
  rcases taken.state sound.shape d with same | ⟨-, calls, -⟩ | ⟨-, busy | ⟨stopped, -⟩⟩
  · exact absurd (same.trans before) after
  · exact calls
  · cases before.symm.trans (sound.busy d busy)
  · exact absurd stopped after

/-- A channel stops behind its sinks. -/
theorem Taken.stopped (taken : Taken ctx m event t) (sound : Sound ctx m) {c : Nat}
    (before : (m.chn c).state = .STOPPING) (after : (t.chn c).state = .STOPPED) :
    ∀ d, ⟨c, d⟩ ∈ ctx.pipes → (m.chn d).state = .STOPPED := by
  rcases taken.state sound.shape c with same | ⟨active, -⟩ | ⟨-, busy | ⟨-, sinks⟩⟩
  · cases before.symm.trans (same.symm.trans after)
  · cases active.symm.trans after
  · cases before.symm.trans (sound.busy c busy)
  · exact sinks

/-- A callback that returns leaves its channel active or stopping. -/
theorem Taken.returns (taken : Taken ctx m event t) (sound : Sound ctx m) {c : Nat}
    (busy : Busy c m.stack) :
    Busy c t.stack ∨ Called ctx c t.stack ∧ (t.chn c).state ≠ .STOPPED := by
  have active := sound.busy c busy
  have shape := sound.shape
  cases taken with
  | unready chn running d stack =>
    rcases busy_cons.mp busy with acting | below
    · obtain rfl := acting_check.mp acting
      exact .inr ⟨shape.called .check, leave_state active⟩
    · exact .inl below
  | disabled chn running d stack =>
    rcases busy_cons.mp busy with acting | below
    · obtain rfl := acting_check.mp acting
      refine .inr ⟨shape.called .check, leave_state ?_⟩
      rwa [Function.update_self]
    · exact .inl below
  | ret chn running d stack =>
    rcases busy_cons.mp busy with acting | below
    · obtain rfl := acting_body.mp acting
      exact .inr ⟨shape.called (.body _), leave_state active⟩
    · exact .inl below
  | push => exact .inl (busy_cons.mpr (.inr busy))
  | start => exact .inl busy
  | active => exact .inl (busy_cons.mpr (.inr (by simpa using busy)))
  | timer => exact absurd busy busy_nil
  | poll => exact absurd busy busy_nil
  | _ => exact .inl (by simpa using busy)

/-- The channels that a sweep is through with are stopped as long as it has counted
none. While the callback of one runs, it may start others, but will be counted. -/
structure Swept (ctx : Context) (m : Machine) : Prop where
  timer : ∀ rest count, .timer rest count ∈ m.stack → ∃ seen, ctx.chns = seen ++ rest ∧
    (count = 0 → ∀ d ∈ seen, (m.chn d).state = .STOPPED)
  ran : ∀ c rest count, .ran c rest count ∈ m.stack → ∃ seen, ctx.chns = seen ++ c :: rest ∧
    (count = 0 → (∀ d ∈ seen, (m.chn d).state = .STOPPED) ∨ Busy c m.stack ∨
      m.stack = [.ran c rest count] ∧ (m.chn c).state ≠ .STOPPED)

theorem Called.no_timer {c count : Nat} {rest : List Nat} {stack : List Frame}
    (called : Called ctx c stack) : .timer rest count ∉ stack := by
  induction called with
  | poll => simp
  | sweep => simp
  | notify _ _ acting _ ih =>
    have other {f c} (acting : Acting c f) : Frame.timer rest count ≠ f := fun same => by
      subst same
      cases acting
    simp [other acting, ih]

/-- A sweep between two channels has been called by nothing. -/
theorem Shape.timer_alone {rest : List Nat} {count : Nat} {f : Frame} {stack : List Frame}
    (shape : Shape ctx (f :: stack)) (mem : .timer rest count ∈ f :: stack) :
    f = .timer rest count ∧ stack = [] := by
  cases shape with
  | timer =>
    cases List.mem_singleton.mp mem
    exact ⟨rfl, rfl⟩
  | ran => simp at mem
  | run called => exact absurd (by simpa using mem) called.no_timer
  | acting called acting =>
    rcases List.mem_cons.mp mem with rfl | below
    · cases acting
    · exact absurd below called.no_timer
  | push _ called acting =>
    rcases List.mem_cons.mp mem with same | mem
    · cases same
    · rcases List.mem_cons.mp mem with rfl | below
      · cases acting
      · exact absurd below called.no_timer

theorem Taken.ran_mem {c count : Nat} {rest : List Nat} (taken : Taken ctx m event t)
    (mem : .ran c rest count ∈ t.stack) :
    .ran c rest count ∈ m.stack ∨ .timer (c :: rest) count ∈ m.stack ∧ t.chn = m.chn := by
  cases taken with
  | visit =>
    simp only [List.mem_cons, reduceCtorEq, Frame.ran.injEq, false_or] at mem
    rcases mem with ⟨rfl, rfl, rfl⟩ | below
    · exact .inr ⟨List.mem_cons_self, rfl⟩
    · exact .inl (List.mem_cons_of_mem _ below)
  | counted => exact .inl (List.mem_cons_of_mem _ (by simpa using mem))
  | push => exact .inl (by simpa using mem)
  | start => exact .inl mem
  | timer => simp at mem
  | poll => simp at mem
  | _ => exact .inl (by simpa using mem)

theorem Swept.timer_step (swept : Swept ctx m) (shape : Shape ctx m.stack) (taken : Taken ctx m event t)
    (rest : List Nat) (count : Nat) (mem : .timer rest count ∈ t.stack) :
    ∃ seen, ctx.chns = seen ++ rest ∧ (count = 0 → ∀ d ∈ seen, (t.chn d).state = .STOPPED) := by
  cases taken with
  | timer =>
    cases List.mem_singleton.mp mem
    exact ⟨[], rfl, fun _ _ none => absurd none List.not_mem_nil⟩
  | passed chn running c rest' count' stack ok stopped =>
    obtain ⟨-, rfl⟩ := shape.timer_alone List.mem_cons_self
    cases List.mem_singleton.mp mem
    obtain ⟨seen, all, clean⟩ := swept.timer _ _ List.mem_cons_self
    refine ⟨seen ++ [c], by rw [all, List.append_assoc]; rfl, fun none d found => ?_⟩
    rcases List.mem_append.mp found with before | here
    · exact clean none d before
    · exact List.mem_singleton.mp here ▸ stopped
  | counted chn running c rest' count' stack ok =>
    cases shape with
    | acting _ acting => cases acting
    | ran =>
      cases List.mem_singleton.mp mem
      obtain ⟨seen, all, clean⟩ := swept.ran _ _ _ List.mem_cons_self
      refine ⟨seen ++ [c], by rw [all, List.append_assoc]; rfl, fun none d found => ?_⟩
      have stopped : (chn c).state = .STOPPED := by
        by_contra other
        rw [if_neg other] at none
        cases none
      rw [if_pos stopped] at none
      rcases clean none with clean | busy | ⟨-, other⟩
      · rcases List.mem_append.mp found with before | here
        · exact clean d before
        · exact List.mem_singleton.mp here ▸ stopped
      · simp at busy
      · exact absurd stopped other
  | poll => simp at mem
  | push _ _ _ _ _ _ calls =>
    obtain ⟨f, stack, rfl, acting⟩ := caller_acting calls
    obtain ⟨rfl, -⟩ := shape.timer_alone (by simpa using mem)
    cases acting
  | start _ _ _ _ _ _ calls =>
    obtain ⟨f, stack, rfl, acting⟩ := caller_acting calls
    obtain ⟨rfl, -⟩ := shape.timer_alone mem
    cases acting
  | swept =>
    obtain ⟨-, rfl⟩ := shape.timer_alone List.mem_cons_self
    cases mem
  | visit =>
    obtain ⟨-, rfl⟩ := shape.timer_alone List.mem_cons_self
    simp at mem
  | _ =>
    have below := shape.timer_alone (List.mem_cons_of_mem _ (by simpa using mem))
    cases below.1

theorem Swept.ran_step (swept : Swept ctx m) (sound : Sound ctx m) (taken : Taken ctx m event t)
    (c : Nat) (rest : List Nat) (count : Nat) (mem : .ran c rest count ∈ t.stack) :
    ∃ seen, ctx.chns = seen ++ c :: rest ∧
      (count = 0 → (∀ d ∈ seen, (t.chn d).state = .STOPPED) ∨ Busy c t.stack ∨
        t.stack = [.ran c rest count] ∧ (t.chn c).state ≠ .STOPPED) := by
  rcases taken.ran_mem mem with before | ⟨visit, same⟩
  · obtain ⟨seen, all, clean⟩ := swept.ran c rest count before
    refine ⟨seen, all, fun none => ?_⟩
    by_cases busy : Busy c m.stack
    · rcases taken.returns sound busy with still | ⟨called, alive⟩
      · exact .inr (.inl still)
      · rcases called.outer mem with ⟨-, alone⟩ | busy
        · exact .inr (.inr ⟨alone, alive⟩)
        · exact .inr (.inl busy)
    · rcases clean none with clean | busy' | ⟨alone, -⟩
      · left
        intro d found
        by_contra woken
        obtain ⟨e, calls⟩ := taken.wakes sound (clean d found) woken
        obtain ⟨f, stack, same, acting⟩ := caller_acting calls
        have called := (same ▸ sound.shape : Shape ctx (f :: stack)).called acting
        rw [same] at before busy
        have below : .ran c rest count ∈ stack := by
          rcases List.mem_cons.mp before with rfl | below
          · cases acting
          · exact below
        rcases called.outer below with ⟨rfl, -⟩ | below
        · exact busy (by simp [acting])
        · exact busy (by simp [below])
      · exact absurd busy' busy
      · obtain ⟨chn, stack, running⟩ := m
        obtain rfl : stack = [.ran c rest count] := alone
        cases taken with
        | counted => simp at mem
        | push _ _ _ _ _ _ calls => cases calls
        | start _ _ _ _ _ _ calls => cases calls
  · obtain ⟨seen, all, clean⟩ := swept.timer _ _ visit
    exact ⟨seen, all, fun none => .inl (same ▸ clean none)⟩

theorem Swept.step (swept : Swept ctx m) (sound : Sound ctx m) (taken : Taken ctx m event t) :
    Swept ctx t :=
  ⟨swept.timer_step sound.shape taken, swept.ran_step sound taken⟩

/-- When a sweep that has counted nothing ends, every channel is stopped. -/
theorem Swept.stopped (swept : Swept ctx m) (taken : Taken ctx m event t) (before : m.running = true)
    (after : t.running = false) : ∀ c ∈ ctx.chns, (m.chn c).state = .STOPPED := by
  cases taken with
  | swept chn running count stack ok =>
    obtain ⟨seen, all, stopped⟩ := swept.timer [] count List.mem_cons_self
    rw [List.append_nil] at all
    subst before
    have none : count = 0 := by simpa using after
    exact all ▸ stopped none
  | timer => cases after
  | _ => cases before.symm.trans after

section Runs
variable {starts stops : Nat → Bool} {events : List Event}

theorem start_sound : Sound ctx (pitcherStart ctx starts stops) ∧
    Swept ctx (pitcherStart ctx starts stops) := by
  have empty : (pitcherStart ctx starts stops).stack = [] := by
    unfold pitcherStart
    dsimp only
    split <;> rfl
  refine ⟨⟨empty ▸ .idle, fun c busy => ?_⟩, fun rest count mem => ?_, fun c rest count mem => ?_⟩
  · rw [empty] at busy
    exact absurd busy busy_nil
  · rw [empty] at mem
    cases mem
  · rw [empty] at mem
    cases mem

theorem run_sound (run : Run (Step ctx) (pitcherStart ctx starts stops) events m) :
    Sound ctx m ∧ Swept ctx m := by
  refine @Run.invariant _ _ _ _ _ _ (fun m => Sound ctx m ∧ Swept ctx m) run ?_ start_sound
  intro m event t ⟨sound, swept⟩ step
  have taken := step_taken step
  exact ⟨sound.step taken, swept.step sound taken⟩

/-- A source and an output file. -/
def pair : Context where
  chns := [1, 2]
  pipes := [⟨1, 2⟩]
  ofile := fun c => decide (c = 2)
  inside := by decide
  single := by decide
  deeper := ⟨id, by decide⟩

/-- The source ends at once, in the next sweep the file stops, in the third one the source. -/
def threeSweeps : List Event :=
  [.timer, .proceed true, .proceed true, .checked false true, .proceed true, .proceed true,
    .proceed true, .ofile false, .ret, .proceed true, .proceed true] ++
  .timer :: List.replicate 7 (.proceed true) ++ .timer :: List.replicate 4 (.proceed true)

/-- The loop is stopped when all channels are, and each of them behind its sinks. -/
theorem stops_in_order (run : Run (Step ctx) (pitcherStart ctx starts stops) events m)
    (step : Step ctx m event t) :
    (m.running = true → t.running = false → ∀ c ∈ ctx.chns, (m.chn c).state = .STOPPED) ∧
      ∀ c, (m.chn c).state = .STOPPING → (t.chn c).state = .STOPPED →
        ∀ d, ⟨c, d⟩ ∈ ctx.pipes → (m.chn d).state = .STOPPED := by
  obtain ⟨sound, swept⟩ := run_sound run
  have taken := step_taken step
  exact ⟨swept.stopped taken, fun c => taken.stopped sound⟩

theorem pair_stops : ∃ m, (threeSweeps.foldlM (step pair)
    (pitcherStart pair (fun _ => true) fun _ => true)) = some m ∧
      ∀ c ∈ pair.chns, (m.chn c).state = .STOPPED := by
  have done : ((threeSweeps ++ [Event.proceed true]).foldlM (step pair)
    (pitcherStart pair (fun _ => true) fun _ => true)).map Machine.running = some false := rfl
  rw [List.foldlM_append] at done
  obtain ⟨t, last, after⟩ := Option.map_eq_some_iff.mp done
  obtain ⟨m, before, last⟩ := Option.bind_eq_some_iff.mp last
  have running : (threeSweeps.foldlM (step pair)
    (pitcherStart pair (fun _ => true) fun _ => true)).map Machine.running = some true := rfl
  rw [before] at running
  obtain ⟨t', step, same⟩ := Option.bind_eq_some_iff.mp last
  cases same
  exact ⟨m, before, (stops_in_order (.of_foldlM before) step).1 (Option.some.inj running) after⟩

end Runs

end ImxTest.Pitcher.Schedule
