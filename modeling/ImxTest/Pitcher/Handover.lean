import ImxTest.Pitcher.Sweep
import Mathlib.Data.List.Nodup

/-! What becomes of the buffers that a channel pushes to an output file. -/
namespace ImxTest.Pitcher.Schedule
open Lib.Runs Core

/-- The buffers that `s` is pushing and that have not got to `o` yet. -/
def pending (s o : Nat) : List Frame → List Buffer
  | [] => []
  | .push c buffer outs :: stack =>
    if c = s ∧ o ∈ outs then buffer :: pending s o stack else pending s o stack
  | _ :: stack => pending s o stack

/-- The file is about to take what is in its pipe. -/
def Front (o : Nat) (stack : List Frame) : Prop :=
  ∃ rest, stack = .run o :: rest ∨ stack = .check o :: rest

theorem front_run {o c : Nat} {stack : List Frame} : Front o (.run c :: stack) ↔ o = c := by
  constructor
  · rintro ⟨rest, front | front⟩
    · cases front
      rfl
    · cases front
  · rintro rfl
    exact ⟨stack, .inl rfl⟩

theorem front_check {o c : Nat} {stack : List Frame} : Front o (.check c :: stack) ↔ o = c := by
  constructor
  · rintro ⟨rest, front | front⟩
    · cases front
    · cases front
      rfl
  · rintro rfl
    exact ⟨stack, .inr rfl⟩

theorem Front.acting {o c : Nat} {f : Frame} {stack : List Frame} (front : Front o (f :: stack))
    (acting : Acting c f) : c = o := by
  obtain ⟨rest, front | front⟩ := front
  · cases front
    cases acting
  · cases front
    exact acting_check.mp acting

def LastHanded (o : Nat) (m : Machine) : Prop := ∃ buffer ∈ (m.chn o).handed, buffer.last = true

/-- The sink that is next to get a buffer. -/
def getting : List Frame → Option Nat
  | .push _ _ (d :: _) :: _ => some d
  | _ => none

/-- Nothing is skipped or forced to stop, and nobody but its source starts the file. -/
def Calm (s o : Nat) (m : Machine) : Event → Prop
  | .skip => getting m.stack ≠ some o
  | .ofile forceExit => forceExit = false
  | .start c _ => c ≠ s ∧ c ≠ o
  | _ => True

/-- A push behind the last buffer does not find the file stopping. -/
def Spared (s o : Nat) (m : Machine) : Event → Prop
  | .push _ _ => caller m.stack = some s → LastHanded o m → (m.chn o).state ≠ .STOPPING
  | _ => True

instance {s o : Nat} {m : Machine} : {event : Event} → Decidable (Calm s o m event)
  | .skip => inferInstanceAs (Decidable (getting m.stack ≠ some o))
  | .ofile forceExit => inferInstanceAs (Decidable (forceExit = false))
  | .start c _ => inferInstanceAs (Decidable (c ≠ s ∧ c ≠ o))
  | .timer | .poll _ | .proceed _ | .checked .. | .push .. | .ret => .isTrue trivial

instance {o : Nat} {m : Machine} : Decidable (LastHanded o m) :=
  inferInstanceAs (Decidable (∃ buffer ∈ (m.chn o).handed, buffer.last = true))

instance {s o : Nat} {m : Machine} : {event : Event} → Decidable (Spared s o m event)
  | .push .. => inferInstanceAs
      (Decidable (caller m.stack = some s → LastHanded o m → (m.chn o).state ≠ .STOPPING))
  | .timer | .poll _ | .proceed _ | .skip | .checked .. | .ofile _ | .start .. | .ret => .isTrue trivial

/-- Everything pushed was handed over, is in the pipe or on its way. -/
structure Held (s o : Nat) (m : Machine) : Prop where
  kept : (m.chn s).pushed = (m.chn o).handed ++ (m.chn o).input ++ pending s o m.stack
  /-- A buffer is taken out of the pipe at once. -/
  fresh : (m.chn o).input = [] ∨
    (∃ buffer, (m.chn o).input = [buffer]) ∧ (m.chn o).state = .ACTIVE ∧ Front o m.stack
  armed : pending s o m.stack ≠ [] → (m.chn o).state = .ACTIVE
  enabled : (m.chn o).state = .ACTIVE → (m.chn o).enable = true
  /-- The file ends for a reason. -/
  reason : (m.chn o).state ≠ .STOPPED → (m.chn o).fin = true →
    (m.chn s).state ≠ .ACTIVE ∨ LastHanded o m
  behind : (m.chn s).state = .STOPPED → (m.chn o).state = .STOPPED
  ending : (m.chn o).state = .STOPPING ∨ .body o true ∈ m.stack → (m.chn o).fin = true

variable {ctx : Context} {m t : Machine} {event : Event} {s o c : Nat} {stack : List Frame}

/-! ## One pipe -/

section Pipe

theorem outs_nodup : (ctx.outs c).Nodup := by
  have all : ((ctx.pipes.filter (·.src = c)).map (·.dst)).Nodup :=
    ctx.single.sublist (List.filter_sublist.map _)
  exact all.sublist (List.take_sublist ..)

theorem single_src (first : ⟨s, o⟩ ∈ ctx.pipes) (second : ⟨c, o⟩ ∈ ctx.pipes) : c = s := by
  have same := List.inj_on_of_nodup_map ctx.single second first rfl
  exact congrArg Link.src same

theorem src_ne (link : ⟨s, o⟩ ∈ ctx.pipes) : s ≠ o := by
  rintro rfl
  obtain ⟨depth, deeper⟩ := ctx.deeper
  exact Nat.lt_irrefl _ (deeper _ link)

theorem last_some {p : Link → Prop} [DecidablePred p] {g : Link → Nat} {pipes : List Link}
    {found : Option Nat} {x : Nat} (only : ∀ pipe ∈ pipes, p pipe → g pipe = x)
    (known : (∃ pipe ∈ pipes, p pipe) ∨ found = some x) :
    pipes.foldl (fun found pipe => if p pipe then some (g pipe) else found) found = some x := by
  induction pipes generalizing found with
  | nil => simpa using known
  | cons pipe pipes ih =>
    have rest : ∀ pipe ∈ pipes, p pipe → g pipe = x := fun pipe mem =>
      only pipe (List.mem_cons_of_mem _ mem)
    rw [List.foldl_cons]
    by_cases here : p pipe
    · exact ih rest (.inr (by rw [if_pos here, only pipe List.mem_cons_self here]))
    · rw [if_neg here]
      refine ih rest (known.imp_left ?_)
      rintro ⟨other, mem, meets⟩
      rcases List.mem_cons.mp mem with rfl | mem
      · exact absurd meets here
      · exact ⟨other, mem, meets⟩

theorem getSource_eq (link : ⟨s, o⟩ ∈ ctx.pipes) : getSource ctx o = some s := by
  refine last_some ?_ (.inl ⟨_, link, rfl⟩)
  rintro ⟨src, dst⟩ mem rfl
  exact single_src link mem

/-- The source starts a file that is stopped. -/
theorem sink_started {chn : Nat → Chn} {ok : Nat → Bool} (link : ⟨s, o⟩ ∈ ctx.pipes)
    (file : ctx.ofile o = true) (stopped : (chn o).state = .STOPPED) :
    startSinks ctx chn s ok o = (chn o).started := by
  have fold : ∀ (pipes : List Link) (now : Nat → Chn),
      now o = (chn o).started ∨ now o = chn o ∧ ⟨s, o⟩ ∈ pipes →
      pipes.foldl (fun chn pipe =>
        if pipe.src = s ∧ (chn pipe.dst).state = .STOPPED then startChn ctx chn pipe.dst (ok pipe.dst)
        else chn) now o = (chn o).started := by
    intro pipes
    induction pipes with
    | nil =>
      rintro now (done | ⟨-, none⟩)
      · exact done
      · cases none
    | cons pipe pipes ih =>
      intro now state
      rw [List.foldl_cons]
      apply ih
      by_cases here : pipe = ⟨s, o⟩
      · subst here
        left
        rcases state with done | ⟨same, -⟩
        · rw [if_neg (by simp [done, Chn.started])]
          exact done
        · have open' : (now o).state ≠ .ACTIVE := by simp [same, stopped]
          rw [if_pos ⟨rfl, by rw [same, stopped]⟩, startChn, if_neg open', if_pos (by simp [file]),
            Function.update_self, same]
      · have rest : now o = (chn o).started ∨ now o = chn o ∧ ⟨s, o⟩ ∈ pipes := by
          refine state.imp_right (And.imp_right fun mem => ?_)
          exact (List.mem_cons.mp mem).resolve_left (Ne.symm here)
        split_ifs with sink
        · rcases @startChn_at ctx now pipe.dst o (ok pipe.dst) with same | ⟨same, -⟩
          · rwa [same]
          · exact absurd (by rw [← sink.1, ← same]) here
        · exact rest
  exact fold ctx.pipes chn (.inr ⟨rfl, link⟩)

theorem Called.no_pending (called : Called ctx c stack) (free : ¬ Busy s stack) :
    pending s o stack = [] := by
  induction called with
  | poll => rfl
  | sweep => rfl
  | @notify c d outs f stack buffer called acting left ih =>
    have other : c ≠ s := by
      rintro rfl
      exact free (by simp [acting])
    have below : pending s o (f :: stack) = pending s o stack := by cases acting <;> rfl
    rw [pending, if_neg fun both => other both.1, below]
    exact ih fun busy => free (by simp [busy])

/-- While the file is called, nothing is on its way to it. -/
theorem Called.none_pending (called : Called ctx o stack) (link : ⟨s, o⟩ ∈ ctx.pipes) :
    pending s o stack = [] := by
  cases called with
  | poll => rfl
  | sweep => rfl
  | @notify c _ outs f stack buffer called acting left =>
    obtain rfl : c = s := single_src link (mem_outs (left.subset List.mem_cons_self))
    have gone : o ∉ outs := (List.nodup_cons.mp (outs_nodup.sublist left.sublist)).1
    have below : pending c o (f :: stack) = pending c o stack := by cases acting <;> rfl
    rw [pending, if_neg fun both => gone both.2, below]
    exact called.no_pending called.free

end Pipe

/-! ## Steps -/

section Steps
variable {chn : Nat → Chn} {running : Bool}

@[simp] theorem unitStop_pushed {chn : Chn} {ok : Bool} : (unitStop chn ok).pushed = chn.pushed := by
  unfold unitStop
  split <;> rfl

@[simp] theorem pop_pushed {chn : Chn} : (pop chn).pushed = chn.pushed := by
  unfold pop
  split <;> rfl

theorem leave_pushed {isEnd : Bool} (d : Nat) : (leave chn c isEnd d).pushed = (chn d).pushed := by
  unfold leave
  split
  · by_cases here : d = c
    · subst here
      rw [Function.update_self]
    · rw [Function.update_of_ne here]
  · rfl

theorem update_pushed {x : Chn} (same : x.pushed = (chn c).pushed) (d : Nat) :
    (Function.update chn c x d).pushed = (chn d).pushed := by
  by_cases here : d = c
  · subst here
    rw [Function.update_self, same]
  · rw [Function.update_of_ne here]

theorem startSinks_pushed {ok : Nat → Bool} (d : Nat) :
    (startSinks ctx chn c ok d).pushed = (chn d).pushed := by
  rcases @startSinks_at ctx chn c ok d with same | ⟨-, -, started⟩
  · rw [same]
  · rw [started]
    rfl

theorem Taken.pushes (taken : Taken ctx m event t) (s : Nat) : (t.chn s).pushed = (m.chn s).pushed ∨
    ∃ buffer ok, event = .push buffer ok ∧ caller m.stack = some s ∧
      (t.chn s).pushed = (m.chn s).pushed ++ [buffer] := by
  cases taken with
  | stops => exact .inl (update_pushed (by simp) s)
  | notify =>
    refine .inl (update_pushed ?_ s)
    rfl
  | checked => exact .inl (update_pushed pop_pushed s)
  | unready => exact .inl (leave_pushed s)
  | ofile =>
    refine .inl (update_pushed ?_ s)
    exact pop_pushed
  | disabled =>
    refine .inl ((leave_pushed s).trans (update_pushed ?_ s))
    rfl
  | push chn running c stack buffer ok calls =>
    by_cases here : s = c
    · subst here
      refine .inr ⟨buffer, ok, rfl, calls, ?_⟩
      simp [startSinks_pushed]
    · exact .inl ((congrArg Chn.pushed (Function.update_of_ne here ..)).trans (startSinks_pushed s))
  | start chn running c stack d ok =>
    rcases @startChn_at ctx chn d s ok with same | ⟨-, -, started⟩
    · exact .inl (congrArg Chn.pushed same)
    · exact .inl (by simp [started, Chn.started])
  | ret => exact .inl (leave_pushed s)
  | _ => exact .inl rfl

/-- The source becomes active only again behind the file. -/
theorem Held.src_active (held : Held s o m) (sound : Sound ctx m) (taken : Taken ctx m event t)
    (calm : Calm s o m event) (active : (t.chn s).state = .ACTIVE) :
    (m.chn s).state = .ACTIVE ∨ (m.chn o).state = .STOPPED := by
  rcases taken.state sound.shape s with same | ⟨-, -, stopped | ⟨ok, rfl⟩⟩ | ⟨-, busy | ⟨stopped, -⟩⟩
  · exact .inl (same ▸ active)
  · exact .inr (held.behind stopped)
  · exact absurd rfl calm.1
  · exact .inl (sound.busy s busy)
  · cases active.symm.trans stopped

theorem Held.src_stopped (held : Held s o m) (sound : Sound ctx m) (taken : Taken ctx m event t)
    (link : ⟨s, o⟩ ∈ ctx.pipes) (stopped : (t.chn s).state = .STOPPED) : (m.chn o).state = .STOPPED := by
  rcases taken.state sound.shape s with same | ⟨active, -⟩ | ⟨called, busy | ⟨-, sinks⟩⟩
  · exact held.behind (same ▸ stopped)
  · cases active.symm.trans stopped
  · rcases taken.returns sound busy with busy | ⟨-, other⟩
    · exact absurd busy called.free
    · exact absurd stopped other
  · exact sinks o link

theorem Held.empty (held : Held s o m) (away : ¬ Front o m.stack) : (m.chn o).input = [] :=
  held.fresh.resolve_right fun front => away front.2.2

/-- A step that leaves the file and what is on its way alone. -/
theorem Held.still (held : Held s o m) (sound : Sound ctx m) (taken : Taken ctx m event t)
    (calm : Calm s o m event) (link : ⟨s, o⟩ ∈ ctx.pipes) (same : t.chn o = m.chn o)
    (pushed : (t.chn s).pushed = (m.chn s).pushed) (way : pending s o t.stack = pending s o m.stack)
    (body : .body o true ∈ t.stack → .body o true ∈ m.stack)
    (front : (m.chn o).input = [] ∨ (Front o m.stack → Front o t.stack)) : Held s o t where
  kept := by rw [pushed, same, way, held.kept]
  fresh := by
    rw [same]
    rcases held.fresh with empty | ⟨one, active, now⟩
    · exact .inl empty
    · rcases front with empty | front
      · exact .inl empty
      · exact .inr ⟨one, active, front now⟩
  armed on := by
    rw [same]
    exact held.armed (way ▸ on)
  enabled := by
    rw [same]
    exact held.enabled
  reason open' ends := by
    rw [same] at open' ends
    by_cases active : (t.chn s).state = .ACTIVE
    · rcases held.src_active sound taken calm active with before | stopped
      · rcases held.reason open' ends with other | ⟨buffer, mem, last⟩
        · exact absurd before other
        · exact .inr ⟨buffer, same ▸ mem, last⟩
      · exact absurd stopped open'
    · exact .inl active
  behind stopped := by
    rw [same]
    exact held.src_stopped sound taken link stopped
  ending ends := by
    rw [same] at ends ⊢
    exact held.ending (ends.imp_right body)

/-- The file is stopped. -/
theorem Held.stops {ok : Bool} (held : Held s o ⟨chn, .run o :: stack, running⟩)
    (link : ⟨s, o⟩ ∈ ctx.pipes) (file : ctx.ofile o = true) (stopping : (chn o).state = .STOPPING) :
    Held s o ⟨Function.update chn o { unitStop (chn o) (ok || ctx.ofile o) with state := .STOPPED },
      stack, running⟩ := by
  have idle : (chn o).state ≠ .ACTIVE := fun active => by cases stopping.symm.trans active
  have none : (chn o).input = [] := held.fresh.resolve_right fun front => idle front.2.1
  have free : pending s o stack = [] := by
    by_contra on
    exact idle (held.armed on)
  have src {x : Chn} : Function.update chn o x s = chn s := Function.update_of_ne (src_ne link) ..
  have kept : (chn s).pushed = (chn o).handed := by
    have kept : (chn s).pushed = (chn o).handed ++ (chn o).input ++ pending s o stack := held.kept
    rwa [none, free, List.append_nil, List.append_nil] at kept
  simp only [file, Bool.or_true, unitStop, if_true]
  constructor
  · simp [src, free, kept]
  · exact .inl (by simp)
  · intro on
    exact absurd free on
  · simp
  · simp
  · simp
  · rintro (again | mem)
    · simp at again
    · have ends : (chn o).fin = true := held.ending (.inr (List.mem_cons_of_mem _ mem))
      simpa using ends

/-- A buffer comes into the pipe. -/
theorem Held.notified {buffer : Buffer} {outs : List Nat}
    (held : Held s o ⟨chn, .push s buffer (o :: outs) :: stack, running⟩) (link : ⟨s, o⟩ ∈ ctx.pipes)
    (last : o ∉ outs) :
    Held s o ⟨Function.update chn o { chn o with input := (chn o).input ++ [buffer] },
      .run o :: .push s buffer outs :: stack, running⟩ := by
  have src {x : Chn} : Function.update chn o x s = chn s := Function.update_of_ne (src_ne link) ..
  have way : pending s o (.push s buffer (o :: outs) :: stack) = buffer :: pending s o stack := by
    simp [pending]
  have left : pending s o (.run o :: .push s buffer outs :: stack) = pending s o stack := by
    simp [pending, last]
  have active : (chn o).state = .ACTIVE := held.armed (by simp [way])
  have none : (chn o).input = [] := held.empty fun ⟨_, front⟩ => by simp at front
  constructor
  · have kept : (chn s).pushed = (chn o).handed ++ (chn o).input ++ _ := held.kept
    rw [way] at kept
    rw [left]
    simp [src, kept]
  · exact .inr ⟨⟨buffer, by simp [none]⟩, by simpa using active, _, .inl rfl⟩
  · intro
    simpa using active
  · intro
    simpa using held.enabled active
  · intro open' ends
    simp only [Function.update_self] at open' ends
    simpa [src, LastHanded] using held.reason open' ends
  · intro stopped
    simp only [src] at stopped
    simpa using held.behind stopped
  · intro ends
    simp only [Function.update_self, List.mem_cons, reduceCtorEq, false_or] at ends
    simpa using held.ending (ends.imp_right (List.mem_cons_of_mem _))

theorem ofileRun_pushed {chn : Chn} : (ofileRun chn).pushed = chn.pushed := pop_pushed

@[simp] theorem ofileRun_enable {chn : Chn} : (ofileRun chn).enable = chn.enable := by
  unfold ofileRun pop
  split <;> rfl

theorem source_end (link : ⟨s, o⟩ ∈ ctx.pipes) (ends : isSourceEnd ctx chn o = true) :
    (chn s).state ≠ .ACTIVE := by
  unfold isSourceEnd at ends
  rw [getSource_eq link] at ends
  split at ends
  · cases ends
  · exact of_decide_eq_true ends

/-- The file looks at its source and takes what is in the pipe. -/
theorem Held.takes (held : Held s o ⟨chn, .check o :: stack, running⟩) (link : ⟨s, o⟩ ∈ ctx.pipes)
    (active : (chn o).state = .ACTIVE) (free : pending s o stack = []) :
    Held s o ⟨Function.update chn o (ofileRun { chn o with fin := ofileEnd ctx chn o false }),
      .body o (ofileEnd ctx chn o false) :: stack, running⟩ := by
  have src {x : Chn} : Function.update chn o x s = chn s := Function.update_of_ne (src_ne link) ..
  have way : pending s o (.body o (ofileEnd ctx chn o false) :: stack) = [] := free
  have kept : (chn s).pushed = (chn o).handed ++ (chn o).input := by
    have kept : (chn s).pushed = (chn o).handed ++ (chn o).input ++ pending s o stack := held.kept
    rwa [free, List.append_nil] at kept
  have taken : (ofileRun { chn o with fin := ofileEnd ctx chn o false }).handed =
      (chn o).handed ++ (chn o).input ∧
      (ofileRun { chn o with fin := ofileEnd ctx chn o false }).input = [] := by
    rcases held.fresh with none | ⟨⟨buffer, one⟩, -⟩
    · have none : (chn o).input = [] := none
      simp [ofileRun, pop, none]
    · have one : (chn o).input = [buffer] := one
      simp [ofileRun, pop, one]
  have reason : ofileEnd ctx chn o false = true → (chn s).state ≠ .ACTIVE ∨
      ∃ buffer ∈ (chn o).handed, buffer.last = true := by
    intro ends
    rcases Bool.or_eq_true_iff.mp ends with before | gone
    · refine held.reason (fun stopped => ?_) (by simpa using before)
      cases active.symm.trans stopped
    · exact .inl (source_end link gone)
  constructor
  · simp [src, way, taken, kept]
  · exact .inl (by simp [taken])
  · intro on
    exact absurd way on
  · intro
    simpa using held.enabled active
  · intro _ ends
    simp only [Function.update_self, src, LastHanded, taken] at ends ⊢
    rcases Bool.or_eq_true_iff.mp ends with before | last
    · refine (reason before).imp_right ?_
      rintro ⟨buffer, mem, last⟩
      exact ⟨buffer, List.mem_append_left _ mem, last⟩
    · obtain ⟨buffer, head, last⟩ := (Option.any_eq_true ..).mp last
      exact .inr ⟨buffer, List.mem_append_right _ (List.mem_of_head? head), last⟩
  · intro stopped
    simp only [src] at stopped
    cases active.symm.trans (held.behind stopped)
  · rintro (stopping | mem)
    · simp [active] at stopping
    · have ends : ofileEnd ctx chn o false = true := by
        rcases List.mem_cons.mp mem with here | below
        · exact (Frame.body.inj here).2.symm
        · have before : (chn o).fin = true := held.ending (.inr (List.mem_cons_of_mem _ below))
          simp [ofileEnd, before]
      simp [ofileRun, ends]

/-- The file is written. -/
theorem Held.left {isEnd : Bool} (held : Held s o ⟨chn, .body o isEnd :: stack, running⟩)
    (link : ⟨s, o⟩ ∈ ctx.pipes) (active : (chn o).state = .ACTIVE) (free : pending s o stack = []) :
    Held s o ⟨leave chn o isEnd, stack, running⟩ := by
  have none : (chn o).input = [] := held.empty fun ⟨_, front⟩ => by simp at front
  have way : pending s o (.body o isEnd :: stack) = pending s o stack := rfl
  cases isEnd with
  | false =>
    constructor
    · exact held.kept
    · exact .inl none
    · exact held.armed
    · exact held.enabled
    · exact held.reason
    · exact held.behind
    · exact fun ends => held.ending (ends.imp_right (List.mem_cons_of_mem _))
  | true =>
    have src {x : Chn} : Function.update chn o x s = chn s := Function.update_of_ne (src_ne link) ..
    have ends : (chn o).fin = true := held.ending (.inr List.mem_cons_self)
    unfold leave
    rw [if_pos rfl]
    constructor
    · have kept : (chn s).pushed = (chn o).handed ++ (chn o).input ++ _ := held.kept
      simp [src, kept, way]
    · exact .inl (by simp [none])
    · intro on
      exact absurd free on
    · simp
    · intro _ _
      have reason := held.reason (fun stopped => by cases active.symm.trans stopped) ends
      simpa [src, LastHanded] using reason
    · intro stopped
      simp only [src] at stopped
      cases active.symm.trans (held.behind stopped)
    · intro
      simpa using ends

/-- The source pushes. -/
theorem Held.pushes {buffer : Buffer} {ok : Nat → Bool} {f : Frame}
    (held : Held s o ⟨chn, f :: stack, running⟩) (link : ⟨s, o⟩ ∈ ctx.pipes)
    (file : ctx.ofile o = true) (listed : o ∈ ctx.outs s) (acting : Acting s f)
    (active : (chn s).state = .ACTIVE) (free : pending s o stack = []) (quiet : ¬ Busy o (f :: stack))
    (spared : (chn o).state ≠ .STOPPING) :
    Held s o ⟨Function.update (startSinks ctx chn s ok) s { startSinks ctx chn s ok s with
        pushed := (startSinks ctx chn s ok s).pushed ++ [buffer] },
      .push s buffer (ctx.outs s) :: f :: stack, running⟩ := by
  have same : startSinks ctx chn s ok s = chn s :=
    (startSinks_at s).resolve_right fun started => src_ne started.1 rfl
  have src {x : Chn} : Function.update (startSinks ctx chn s ok) s x o = startSinks ctx chn s ok o :=
    Function.update_of_ne (src_ne link).symm ..
  have none : (chn o).input = [] := held.empty fun front => src_ne link (front.acting acting)
  have way : pending s o (.push s buffer (ctx.outs s) :: f :: stack) = [buffer] := by
    have below : pending s o (f :: stack) = pending s o stack := by cases acting <;> rfl
    rw [pending, if_pos ⟨rfl, listed⟩, below, free]
  have kept : (chn s).pushed = (chn o).handed := by
    have below : pending s o (f :: stack) = pending s o stack := by cases acting <;> rfl
    have kept : (chn s).pushed = (chn o).handed ++ (chn o).input ++ pending s o (f :: stack) := held.kept
    rwa [none, below, free, List.append_nil, List.append_nil] at kept
  have sink : startSinks ctx chn s ok o = (chn o).started ∨
      startSinks ctx chn s ok o = chn o ∧ (chn o).state = .ACTIVE := by
    cases state : (chn o).state with
    | STOPPED => exact .inl (sink_started link file state)
    | STOPPING => exact absurd state spared
    | ACTIVE =>
      refine .inr ⟨(startSinks_at o).resolve_right ?_, rfl⟩
      rintro ⟨-, stopped, -⟩
      cases state.symm.trans stopped
  constructor
  · rcases sink with started | ⟨still, -⟩
    · simp [way, src, same, started, Chn.started, none, kept]
    · simp [way, src, same, still, none, kept]
  · left
    rcases sink with started | ⟨still, -⟩
    · simp [src, started, Chn.started, none]
    · simp [src, still, none]
  · intro
    rcases sink with started | ⟨still, on⟩
    · simp [src, started, Chn.started]
    · simp [src, still, on]
  · intro
    rcases sink with started | ⟨still, on⟩
    · simp [src, started, Chn.started]
    · simpa [src, still] using held.enabled on
  · intro _ ends
    rcases sink with started | ⟨still, on⟩
    · simp [src, started, Chn.started] at ends
    · simp only [src, still] at ends
      have reason := held.reason (fun stopped => by cases on.symm.trans stopped) ends
      simpa [src, same, still, LastHanded] using reason
  · intro stopped
    simp only [Function.update_self, same] at stopped
    cases active.symm.trans stopped
  · rintro (stopping | mem)
    · rcases sink with started | ⟨still, on⟩
      · simp [src, started, Chn.started] at stopping
      · simp [src, still, on] at stopping
    · exact absurd ⟨_, by simpa using mem, .body true⟩ quiet

theorem Held.step (held : Held s o m) (sound : Sound ctx m) (taken : Taken ctx m event t)
    (calm : Calm s o m event) (spared : Spared s o m event) (file : ctx.ofile o = true)
    (listed : o ∈ ctx.outs s) : Held s o t := by
  have link : ⟨s, o⟩ ∈ ctx.pipes := mem_outs listed
  have shape := sound.shape
  have step := taken
  cases taken with
  | timer chn => exact held.still sound step calm link rfl rfl rfl (by simp) (.inl (held.empty nofun))
  | poll chn running c => exact held.still sound step calm link rfl rfl rfl (by simp) (.inl (held.empty nofun))
  | swept chn running count stack ok =>
    exact held.still sound step calm link rfl rfl rfl (List.mem_cons_of_mem _) (.inl (held.empty nofun))
  | passed chn running c rest count stack ok =>
    exact held.still sound step calm link rfl rfl rfl (by simp) (.inl (held.empty nofun))
  | visit chn running c rest count stack ok =>
    exact held.still sound step calm link rfl rfl rfl (by simp) (.inl (held.empty nofun))
  | counted chn running c rest count stack ok =>
    exact held.still sound step calm link rfl rfl rfl (by simp) (.inl (held.empty nofun))
  | active chn running c stack ok active =>
    exact held.still sound step calm link rfl rfl rfl (by simp)
      (.inr fun front => front_check.mpr (front_run.mp front))
  | still chn running c stack ok idle =>
    refine held.still sound step calm link rfl rfl rfl (List.mem_cons_of_mem _) (.inl ?_)
    refine held.fresh.resolve_right ?_
    rintro ⟨-, active, front⟩
    obtain rfl := front_run.mp front
    exact idle active
  | stops chn running c stack ok stopping =>
    by_cases here : c = o
    · subst here
      exact held.stops link file stopping
    · exact held.still sound step calm link (Function.update_of_ne (Ne.symm here) ..)
        (update_pushed (by simp) s) rfl (List.mem_cons_of_mem _)
        (.inl (held.empty fun front => here (front_run.mp front).symm))
  | pushed chn running c buffer stack ok =>
    exact held.still sound step calm link rfl rfl (by simp [pending]) (List.mem_cons_of_mem _)
      (.inl (held.empty nofun))
  | notify chn running c buffer d outs stack ok =>
    cases shape with
    | acting _ acting => cases acting
    | push _ called acting left =>
      by_cases here : d = o
      · subst here
        obtain rfl : c = s := single_src link (mem_outs (left.subset List.mem_cons_self))
        exact held.notified link (List.nodup_cons.mp (outs_nodup.sublist left.sublist)).1
      · refine held.still sound step calm link (Function.update_of_ne (Ne.symm here) ..)
          (update_pushed ?_ s) (by simp [pending, Ne.symm here]) (by simp) (.inl (held.empty nofun))
        rfl
  | skip chn running c buffer d outs stack =>
    have other : o ≠ d := fun same => calm (congrArg some same.symm)
    exact held.still sound step calm link rfl rfl (by simp [pending, other]) (by simp)
      (.inl (held.empty nofun))
  | checked chn running c stack isEnd foreign =>
    have other : o ≠ c := fun same => by simp [← same, file] at foreign
    exact held.still sound step calm link (Function.update_of_ne other ..)
      (update_pushed pop_pushed s) rfl (by simp [other])
      (.inl (held.empty fun front => other (front_check.mp front)))
  | unready chn running c stack ready isEnd foreign =>
    have other : o ≠ c := fun same => by simp [← same, file] at foreign
    exact held.still sound step calm link (leave_at other) (leave_pushed s) rfl
      (List.mem_cons_of_mem _) (.inl (held.empty fun front => other (front_check.mp front)))
  | ofile chn running c stack forceExit =>
    have called := shape.called .check
    by_cases other : o = c
    · subst other
      obtain rfl : forceExit = false := calm
      exact held.takes link (sound.busy o (by simp)) (called.none_pending link)
    · refine held.still sound step calm link (Function.update_of_ne other ..)
        (update_pushed ?_ s) rfl (by simp [other])
        (.inl (held.empty fun front => other (front_check.mp front)))
      exact ofileRun_pushed
  | disabled chn running c stack forceExit _ off =>
    have other : o ≠ c := by
      rintro rfl
      cases off.symm.trans (held.enabled (sound.busy o (by simp)))
    refine held.still sound step calm link ((leave_at other).trans (Function.update_of_ne other ..))
      ((leave_pushed s).trans (update_pushed ?_ s)) rfl (List.mem_cons_of_mem _)
      (.inl (held.empty fun front => other (front_check.mp front)))
    rfl
  | push chn running c stack buffer ok calls foreign =>
    obtain ⟨f, rest, rfl, acting⟩ := caller_acting calls
    have called := shape.called acting
    by_cases here : c = s
    · subst here
      have active := sound.busy c (by simp [acting])
      have quiet : ¬ Busy o (f :: rest) := by
        obtain ⟨depth, deeper⟩ := ctx.deeper
        intro busy
        rcases busy_cons.mp busy with same | below
        · exact src_ne link (acting.same same)
        · exact Nat.lt_asymm (deeper _ link) (called.deeper deeper below)
      refine held.pushes link file listed acting active (called.no_pending called.free) quiet ?_
      intro stopping
      rcases held.reason (fun stopped => by cases stopping.symm.trans stopped)
        (held.ending (.inl stopping)) with idle | last
      · exact idle active
      · exact spared calls last stopping
    · have other : o ≠ c := fun same => by simp [← same, file] at foreign
      have sink : startSinks ctx chn c ok o = chn o :=
        (startSinks_at o).resolve_right fun started => here (single_src link started.1)
      exact held.still sound step calm link ((Function.update_of_ne other ..).trans sink)
        ((congrArg Chn.pushed (Function.update_of_ne (Ne.symm here) ..)).trans (startSinks_pushed s))
        (by simp [pending, here]) (by simp)
        (.inl (held.empty fun front => other (front.acting acting).symm))
  | start chn running c stack d ok =>
    obtain ⟨src, sink⟩ := calm
    have same : startChn ctx chn d ok o = chn o :=
      startChn_at.resolve_right fun started => sink started.1
    have other : startChn ctx chn d ok s = chn s :=
      startChn_at.resolve_right fun started => src started.1
    exact held.still sound step ⟨src, sink⟩ link same (congrArg Chn.pushed other) rfl id (.inr id)
  | ret chn running c stack isEnd =>
    have called := shape.called (.body _)
    by_cases other : o = c
    · subst other
      exact held.left link (sound.busy o (by simp)) (called.none_pending link)
    · exact held.still sound step calm link (leave_at other) (leave_pushed s) rfl
        (List.mem_cons_of_mem _) (.inl (held.empty nofun))

end Steps

/-! ## Runs -/

section Start
variable {starts stops : Nat → Bool}

theorem started_at (d : Nat) : ctx.chns.foldl (fun chn c => startChn ctx chn c (starts c)) (fun _ => {}) d = {} ∨
    ctx.chns.foldl (fun chn c => startChn ctx chn c (starts c)) (fun _ => {}) d = Chn.started {} := by
  refine List.foldlRecOn (motive := fun chn : Nat → Chn => chn d = {} ∨ chn d = Chn.started {})
    _ _ (.inl rfl) fun chn kept c _ => ?_
  rcases @startChn_at ctx chn c d (starts c) with same | ⟨-, -, same⟩
  · rwa [same]
  · right
    rcases kept with before | before
    · rw [same, before]
    · rw [same, before]
      rfl

theorem stopChn_at {chn : Nat → Chn} {ok : Bool} (d : Nat) : stopChn ctx chn c ok d = chn d ∨
    d = c ∧ stopChn ctx chn c ok d = { unitStop (chn c) (ok || ctx.ofile c) with state := .STOPPED } := by
  unfold stopChn
  split
  · exact .inl rfl
  · by_cases here : d = c
    · subst here
      exact .inr ⟨rfl, Function.update_self ..⟩
    · exact .inl (Function.update_of_ne here ..)

theorem stopChn_self {chn : Nat → Chn} {ok : Bool} : (stopChn ctx chn c ok c).state = .STOPPED := by
  unfold stopChn
  split
  next stopped => exact stopped
  next => rw [Function.update_self]

theorem stopped_at {chn : Nat → Chn} {chns : List Nat} {d : Nat}
    (known : d ∈ chns ∨ (chn d).state = .STOPPED) :
    (chns.foldl (fun chn c => stopChn ctx chn c (stops c)) chn d).state = .STOPPED := by
  induction chns generalizing chn with
  | nil => exact known.resolve_left List.not_mem_nil
  | cons c chns ih =>
    apply ih
    rcases known with mem | stopped
    · rcases List.mem_cons.mp mem with rfl | mem
      · exact .inr stopChn_self
      · exact .inl mem
    · rcases @stopChn_at ctx c chn (stops c) d with same | ⟨rfl, same⟩
      · exact .inr ((congrArg Chn.state same).trans stopped)
      · exact .inr (congrArg Chn.state same)

/-- No channel has a buffer before the loop runs. -/
def Unused (chn : Chn) : Prop := chn.input = [] ∧ chn.pushed = [] ∧ chn.handed = []

theorem start_unused (d : Nat) : Unused ((pitcherStart ctx starts stops).chn d) := by
  have started : Unused (ctx.chns.foldl (fun chn c => startChn ctx chn c (starts c)) (fun _ => {}) d) := by
    rcases @started_at ctx starts d with same | same
    · rw [same]
      exact ⟨rfl, rfl, rfl⟩
    · rw [same]
      exact ⟨rfl, rfl, rfl⟩
  unfold pitcherStart
  dsimp only
  split
  · exact started
  · refine List.foldlRecOn (motive := fun chn : Nat → Chn => Unused (chn d)) _ _ started
      fun chn kept c _ => ?_
    rcases @stopChn_at ctx c chn (stops c) d with same | ⟨rfl, same⟩
    · exact same ▸ kept
    · rw [same]
      unfold unitStop
      split
      · exact ⟨rfl, kept.2⟩
      · exact kept

theorem start_states : (∀ c ∈ ctx.chns, (pitcherStart ctx starts stops).chn c = Chn.started {}) ∨
    ∀ c ∈ ctx.chns, ((pitcherStart ctx starts stops).chn c).state = .STOPPED := by
  unfold pitcherStart
  dsimp only
  split
  next all =>
    refine .inl fun c mem => (started_at c).resolve_left fun same => ?_
    have active := of_decide_eq_true (List.all_eq_true.mp all c mem)
    rw [same] at active
    cases active
  next => exact .inr fun c mem => stopped_at (.inl mem)

theorem start_held (link : ⟨s, o⟩ ∈ ctx.pipes) : Held s o (pitcherStart ctx starts stops) := by
  obtain ⟨src, sink⟩ := ctx.inside _ link
  have empty : (pitcherStart ctx starts stops).stack = [] := by
    unfold pitcherStart
    dsimp only
    split <;> rfl
  have unused := @start_unused ctx starts stops
  constructor
  · simp [empty, (unused s).2.1, (unused o).1, (unused o).2.2, pending]
  · exact .inl (unused o).1
  · simp [empty, pending]
  · rcases @start_states ctx starts stops with all | all
    · simp [all o sink, Chn.started]
    · simp [all o sink]
  · rcases @start_states ctx starts stops with all | all
    · simp [all o sink, Chn.started]
    · simp [all o sink]
  · rcases @start_states ctx starts stops with all | all
    · simp [all s src, Chn.started]
    · simp [all o sink]
  · rcases @start_states ctx starts stops with all | all
    · simp [all o sink, Chn.started, empty]
    · simp [all o sink, empty]

end Start

/-! ## Claims -/

/-- A step for which a condition is checked. -/
def checkedStep (ctx : Context) (P : Machine → Event → Prop) [∀ m event, Decidable (P m event)]
    (m : Machine) (event : Event) : Option Machine :=
  if P m event then step ctx m event else none

theorem checked_run {P : Machine → Event → Prop} [∀ m event, Decidable (P m event)]
    {events : List Event} (done : events.foldlM (checkedStep ctx P) m = some t) :
    Run (Only (Step ctx) fun m event _ => P m event) m events t := by
  refine (Run.of_foldlM done).mono fun m event t step => ?_
  unfold checkedStep at step
  split_ifs at step with holds
  exact ⟨step, holds⟩

/-- Both channels of `pair` start. -/
def pairStart : Machine := pitcherStart pair (fun _ => true) fun _ => true

/-- The source is visited and pushes a buffer, which the file takes. -/
def pushing (buffer : Buffer) (isEnd : Bool) : List Event :=
  [.timer, .proceed true, .proceed true, .checked true isEnd, .push buffer fun _ => true,
    .proceed true, .proceed true, .ofile false, .ret, .proceed true, .ret, .proceed true]

/-- The file is visited while it is active, and the sweep ends. -/
def fileVisit : List Event :=
  [.proceed true, .proceed true, .ofile false, .ret, .proceed true, .proceed true]

section Claims
variable {starts stops : Nat → Bool} {events : List Event}

/-- Only the last buffer that was pushed is flagged so. -/
def LastOnly (s : Nat) (m : Machine) : Prop := ∀ buffer ∈ (m.chn s).pushed.dropLast, buffer.last = false

/-- A step from a state with the flag on the last buffer only, if it leads to one. -/
theorem LastOnly.before (after : LastOnly s t) (taken : Taken ctx m event t) : LastOnly s m := by
  rcases taken.pushes s with same | ⟨buffer, ok, -, -, pushed⟩
  · intro buffer mem
    exact after buffer (same ▸ mem)
  · intro other mem
    refine after other ?_
    rw [pushed, List.dropLast_concat]
    exact List.dropLast_subset _ mem

theorem LastOnly.spared (after : LastOnly s t) (taken : Taken ctx m event t) (held : Held s o m) :
    Spared s o m event := by
  cases taken with
  | push chn running c stack buffer ok found =>
    rintro calls ⟨last, mem, flagged⟩
    obtain rfl : c = s := Option.some.inj (found.symm.trans calls)
    have kept : (chn c).pushed = (chn o).handed ++ (chn o).input ++ pending c o stack := held.kept
    have before := after last (by simpa [startSinks_pushed, kept] using .inl mem)
    cases flagged.symm.trans before
  | _ => trivial

/-- With the flag on the last buffer only, the file has been handed a first part of what
its source pushed, and all of it when both are stopped. -/
theorem delivered_in_order (file : ctx.ofile o = true) (listed : o ∈ ctx.outs s)
    (run : Run (Only (Step ctx) fun m event _ => Calm s o m event) (pitcherStart ctx starts stops) events m)
    (last : LastOnly s m) :
    (m.chn o).handed <+: (m.chn s).pushed ∧
      ((m.chn s).state = .STOPPED → (m.chn o).state = .STOPPED →
        (m.chn o).handed = (m.chn s).pushed) := by
  have inv : Sound ctx m ∧ (LastOnly s m → Held s o m) := by
    refine @Run.invariant _ _ _ _ _ _ (fun m => Sound ctx m ∧ (LastOnly s m → Held s o m)) run ?_
      ⟨start_sound.1, fun _ => start_held (mem_outs listed)⟩
    rintro m event t ⟨sound, held⟩ ⟨step, calm⟩
    have taken := step_taken step
    refine ⟨sound.step taken, fun after => ?_⟩
    have held := held (after.before taken)
    exact held.step sound taken calm (after.spared taken held) file listed
  have held := inv.2 last
  refine ⟨⟨_, by rw [held.kept, List.append_assoc]⟩, fun _ stopped => ?_⟩
  have idle : (m.chn o).state ≠ .ACTIVE := fun active => by cases stopped.symm.trans active
  have none : (m.chn o).input = [] := held.fresh.resolve_right fun front => idle front.2.1
  have free : pending s o m.stack = [] := by
    by_contra on
    exact idle (held.armed on)
  rw [held.kept, none, free, List.append_nil, List.append_nil]

theorem pair_delivers : ∃ m : Machine, (m.chn 1).pushed = [⟨1, false⟩, ⟨2, true⟩] ∧
    (m.chn 2).handed = (m.chn 1).pushed := by
  let events := pushing ⟨1, false⟩ false ++ fileVisit ++ pushing ⟨2, true⟩ true ++ fileVisit ++
    .timer :: List.replicate 7 (.proceed true) ++ .timer :: List.replicate 5 (.proceed true)
  have done : (events.foldlM (checkedStep pair (Calm 1 2)) pairStart).map
    (fun m : Machine => ((m.chn 1).pushed, (m.chn 1).state, (m.chn 2).state)) =
      some ([⟨1, false⟩, ⟨2, true⟩], .STOPPED, .STOPPED) := rfl
  obtain ⟨m, run, same⟩ := Option.map_eq_some_iff.mp done
  simp only [Prod.mk.injEq] at same
  obtain ⟨pushed, src, sink⟩ := same
  have last : LastOnly 1 m := by
    rw [LastOnly, pushed]
    decide
  exact ⟨m, pushed, (delivered_in_order rfl (by decide) (checked_run run) last).2 src sink⟩

end Claims

end ImxTest.Pitcher.Schedule
