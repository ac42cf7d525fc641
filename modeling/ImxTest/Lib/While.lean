import Mathlib.Order.Basic
import Mathlib.Order.Preorder.Finite
import Mathlib.Tactic.Common

/-! Loops that need not end. A turn leaves the loop with a result, fails, or
goes on from a new state. `run` makes at most `fuel` turns; `Ends` says that
some number of turns is enough. -/
namespace ImxTest.Lib.While

variable {ε σ ρ : Type}

inductive Turn (σ ρ : Type) where
  | leave (result : ρ)
  | again (state : σ)
deriving Repr

def run (turn : σ → Except ε (Turn σ ρ)) : (fuel : Nat) → σ → Option (Except ε ρ)
  | 0, _ => none
  | fuel + 1, s =>
    match turn s with
    | .error e => some (.error e)
    | .ok (.leave r) => some (.ok r)
    | .ok (.again t) => run turn fuel t

def Ends (turn : σ → Except ε (Turn σ ρ)) (s : σ) (outcome : Except ε ρ) : Prop :=
  ∃ fuel, run turn fuel s = some outcome

variable {turn : σ → Except ε (Turn σ ρ)} {s t : σ} {outcome : Except ε ρ}

theorem run_more {fuel : Nat} (enough : run turn fuel s = some outcome) (extra : Nat) :
    run turn (fuel + extra) s = some outcome := by
  induction fuel generalizing s with
  | zero => simp [run] at enough
  | succ fuel ih =>
    rw [Nat.succ_add]
    simp only [run] at enough ⊢
    cases next : turn s with
    | error e => simpa only [next] using enough
    | ok result =>
      cases result with
      | leave r => simpa only [next] using enough
      | again t =>
        simp only [next] at enough
        exact ih enough

theorem Ends.unique {first second : Except ε ρ} (one : Ends turn s first) (two : Ends turn s second) :
    first = second := by
  obtain ⟨m, one⟩ := one
  obtain ⟨n, two⟩ := two
  have left := run_more one n
  have right := run_more two m
  rw [Nat.add_comm] at right
  exact Option.some.inj (left.symm.trans right)

theorem ends_leave {r : ρ} (left : turn s = .ok (.leave r)) : Ends turn s (.ok r) :=
  ⟨1, by simp only [run, left]⟩

theorem ends_leave_iff {r : ρ} (left : turn s = .ok (.leave r)) : Ends turn s outcome ↔ outcome = .ok r :=
  ⟨fun ended => ended.unique (ends_leave left), fun same => same ▸ ends_leave left⟩

theorem ends_error {e : ε} (failed : turn s = .error e) : Ends turn s (.error e) :=
  ⟨1, by simp only [run, failed]⟩

theorem ends_error_iff {e : ε} (failed : turn s = .error e) : Ends turn s outcome ↔ outcome = .error e :=
  ⟨fun ended => ended.unique (ends_error failed), fun same => same ▸ ends_error failed⟩

theorem ends_again (next : turn s = .ok (.again t)) : Ends turn s outcome ↔ Ends turn t outcome := by
  constructor
  · rintro ⟨fuel, ended⟩
    cases fuel with
    | zero => simp [run] at ended
    | succ fuel =>
      simp only [run, next] at ended
      exact ⟨fuel, ended⟩
  · rintro ⟨fuel, ended⟩
    exact ⟨fuel + 1, by simp only [run, next, ended]⟩

/-- What every turn keeps holds of the state a loop leaves from. -/
theorem Ends.invariant {r : ρ} (ended : Ends turn s (.ok r)) (Inv : σ → Prop)
    (kept : ∀ s t, Inv s → turn s = .ok (.again t) → Inv t) (start : Inv s) :
    ∃ last, Inv last ∧ turn last = .ok (.leave r) := by
  obtain ⟨fuel, ended⟩ := ended
  induction fuel generalizing s with
  | zero => simp [run] at ended
  | succ fuel ih =>
    simp only [run] at ended
    cases next : turn s with
    | error e => simp [next] at ended
    | ok result =>
      cases result with
      | leave r' =>
        obtain rfl : r' = r := by simpa [next] using ended
        exact ⟨s, start, next⟩
      | again t =>
        simp only [next] at ended
        exact ih (kept s t start next) ended

/-- A loop ends when an invariant keeps its turns from failing and each lowers
a measure. -/
theorem exists_ends (Inv : σ → Prop) (measure : σ → Nat)
    (sound : ∀ s, Inv s → ∃ result, turn s = .ok result)
    (kept : ∀ s t, Inv s → turn s = .ok (.again t) → Inv t ∧ measure t < measure s)
    (start : Inv s) : ∃ last r, Inv last ∧ turn last = .ok (.leave r) ∧ Ends turn s (.ok r) := by
  induction hn : measure s using Nat.strongRecOn generalizing s with
  | ind n ih =>
    obtain ⟨result, next⟩ := sound s start
    cases result with
    | leave r => exact ⟨s, r, start, next, ends_leave next⟩
    | again t =>
      obtain ⟨still, lower⟩ := kept s t start next
      obtain ⟨last, r, inv, left, ended⟩ := ih (measure t) (by omega) still rfl
      exact ⟨last, r, inv, left, (ends_again next).mpr ended⟩

/-- The same from what a turn does: it leaves, or keeps the invariant and lowers the measure. -/
theorem exists_ends_of_turn (Inv : σ → Prop) (measure : σ → Nat)
    (turns : ∀ s, Inv s → (∃ r, turn s = .ok (.leave r)) ∨
      ∃ t, turn s = .ok (.again t) ∧ Inv t ∧ measure t < measure s)
    (start : Inv s) : ∃ last r, Inv last ∧ turn last = .ok (.leave r) ∧ Ends turn s (.ok r) := by
  refine exists_ends Inv measure (fun s inv => ?_) (fun s t inv again => ?_) start
  · rcases turns s inv with ⟨r, left⟩ | ⟨t, again, -⟩
    · exact ⟨_, left⟩
    · exact ⟨_, again⟩
  · rcases turns s inv with ⟨r, left⟩ | ⟨t', again', kept⟩
    · cases left.symm.trans again
    · obtain rfl : t' = t := by simpa using again'.symm.trans again
      exact kept

/-! ## Loops that come back -/

/-- The state after so many turns, if the loop still goes on. -/
def after (turn : σ → Except ε (Turn σ ρ)) : Nat → σ → Option σ
  | 0, s => some s
  | n + 1, s =>
    match turn s with
    | .ok (.again t) => after turn n t
    | _ => none

/-- The loop comes to a state twice. -/
def Circles (turn : σ → Except ε (Turn σ ρ)) (s : σ) : Prop :=
  ∃ m n t, m < n ∧ after turn m s = some t ∧ after turn n s = some t

theorem after_add (m n : Nat) : after turn (m + n) s = (after turn m s).bind (after turn n) := by
  induction m generalizing s with
  | zero => rw [Nat.zero_add]; rfl
  | succ m ih =>
    rw [Nat.succ_add]
    simp only [after]
    split
    · exact ih
    · rfl

theorem run_none_iff {fuel : Nat} : run turn fuel s = none ↔ (after turn fuel s).isSome := by
  induction fuel generalizing s with
  | zero => simp [run, after]
  | succ fuel ih =>
    simp only [run, after]
    cases turn s with
    | error e => simp
    | ok next =>
      cases next with
      | leave r => simp
      | again t => exact ih

/-- A loop that comes back goes round for ever. -/
theorem Circles.never (circles : Circles turn s) (outcome : Except ε ρ) : ¬ Ends turn s outcome := by
  obtain ⟨m, n, t, before, first, second⟩ := circles
  rintro ⟨fuel, ended⟩
  obtain ⟨k, positive, rfl⟩ : ∃ k, 0 < k ∧ n = m + k := ⟨n - m, by omega, by omega⟩
  have round : after turn k t = some t := by
    rw [after_add, first] at second
    exact second
  have rounds (i : Nat) : after turn (i * k) t = some t := by
    induction i with
    | zero => rw [Nat.zero_mul]; rfl
    | succ i ih => rw [Nat.succ_mul, after_add, ih]; exact round
  have going : run turn (m + fuel * k) s = none := by
    rw [run_none_iff, after_add, first, Option.bind_some, rounds]
    rfl
  obtain ⟨extra, more⟩ : ∃ extra, m + fuel * k = fuel + extra :=
    ⟨m + fuel * k - fuel, by have := Nat.le_mul_of_pos_right fuel positive; omega⟩
  rw [more, run_more ended] at going
  cases going

/-- Among finitely many states a loop ends or comes back. -/
theorem ends_or_circles {states : Set σ} (finite : states.Finite)
    (kept : ∀ s t, s ∈ states → turn s = .ok (.again t) → t ∈ states) (start : s ∈ states) :
    (∃ outcome, Ends turn s outcome) ∨ Circles turn s := by
  by_cases goes : ∀ n, (after turn n s).isSome
  · right
    have inside (n : Nat) : (after turn n s).get (goes n) ∈ states := by
      have all (n : Nat) : ∀ s ∈ states, ∀ t, after turn n s = some t → t ∈ states := by
        induction n with
        | zero =>
          intro s mem t same
          obtain rfl := Option.some.inj same
          exact mem
        | succ n ih =>
          intro s mem t same
          simp only [after] at same
          split at same
          case h_1 u next => exact ih u (kept s u mem next) t same
          case h_2 => cases same
      exact all n s start _ (Option.some_get (goes n)).symm
    obtain ⟨m, n, before, same⟩ := Set.Finite.exists_lt_map_eq_of_forall_mem inside finite
    refine ⟨m, n, _, before, (Option.some_get (goes m)).symm, ?_⟩
    rw [same]
    exact (Option.some_get (goes n)).symm
  · left
    obtain ⟨n, stopped⟩ := not_forall.mp goes
    obtain ⟨outcome, ended⟩ := Option.ne_none_iff_exists'.mp (mt run_none_iff.mp stopped)
    exact ⟨outcome, n, ended⟩

/-! ## Loops one after the other -/

section Sequence
variable {α τ : Type}

/-- What a program makes of enough fuel for its loops. -/
def Settles (x : Nat → ExceptT ε Option α) (v : Except ε α) : Prop := ∃ fuel, (x fuel).run = some v

/-- More fuel does not change what there is. -/
def Steady (x : Nat → ExceptT ε Option α) : Prop :=
  ∀ fuel extra v, (x fuel).run = some v → (x (fuel + extra)).run = some v

theorem steady_const (x : ExceptT ε Option α) : Steady fun _ => x := fun _ _ _ same => same

/-- The loop as a part of a program. -/
def loop (turn : σ → Except ε (Turn σ ρ)) (fuel : Nat) (s : σ) : ExceptT ε Option ρ := run turn fuel s

/-- Where a program comes to a result, its first part has. -/
theorem bind_ok {β : Type} {x : ExceptT ε Option α} {next : α → ExceptT ε Option β} {b : β}
    (ran : (x >>= next).run = some (.ok b)) : ∃ a, x.run = some (.ok a) ∧ (next a).run = some (.ok b) := by
  change Option.bind x.run _ = _ at ran
  cases first : x.run with
  | none => rw [first] at ran; cases ran
  | some outcome =>
    rw [first] at ran
    cases outcome with
    | error e => cases ran
    | ok a => exact ⟨a, rfl, ran⟩

variable {next : Nat → ρ → ExceptT ε Option τ}

theorem loop_bind_run (fuel : Nat) : (loop turn fuel s >>= next fuel).run =
    (run turn fuel s).bind fun
      | .ok r => (next fuel r).run
      | .error e => some (.error e) := by
  change Option.bind (run turn fuel s) _ = _
  rfl

theorem steady_loop (steady : ∀ r, Steady fun fuel => next fuel r) :
    Steady fun fuel => loop turn fuel s >>= next fuel := by
  intro fuel extra v same
  rw [loop_bind_run] at same ⊢
  cases ended : run turn fuel s with
  | none => rw [ended] at same; cases same
  | some result =>
    rw [ended] at same
    rw [run_more ended]
    cases result with
    | error e => exact same
    | ok r => exact steady r fuel extra v same

theorem settles_loop (steady : ∀ r, Steady fun fuel => next fuel r) {v : Except ε τ} :
    Settles (fun fuel => loop turn fuel s >>= next fuel) v ↔
      (∃ r, Ends turn s (.ok r) ∧ Settles (fun fuel => next fuel r) v) ∨
        ∃ e, Ends turn s (.error e) ∧ v = .error e := by
  constructor
  · rintro ⟨fuel, same⟩
    rw [loop_bind_run] at same
    cases ended : run turn fuel s with
    | none => rw [ended] at same; cases same
    | some result =>
      rw [ended] at same
      cases result with
      | error e => exact .inr ⟨e, ⟨fuel, ended⟩, (Option.some.inj same).symm⟩
      | ok r => exact .inl ⟨r, ⟨fuel, ended⟩, fuel, same⟩
  · rintro (⟨r, ⟨m, ended⟩, n, same⟩ | ⟨e, ⟨fuel, ended⟩, rfl⟩)
    · refine ⟨m + n, ?_⟩
      rw [loop_bind_run, run_more ended]
      rw [Nat.add_comm m n]
      exact steady r n m v same
    · refine ⟨fuel, ?_⟩
      rw [loop_bind_run, ended]
      rfl

/-- Behind a loop that is known to end. -/
theorem settles_ended (steady : ∀ r, Steady fun fuel => next fuel r) {r : ρ} (ended : Ends turn s (.ok r))
    {v : Except ε τ} : Settles (fun fuel => loop turn fuel s >>= next fuel) v ↔ Settles (fun fuel => next fuel r) v := by
  rw [settles_loop steady]
  constructor
  · rintro (⟨r', ended', settles⟩ | ⟨e, failed, -⟩)
    · obtain rfl := Except.ok.inj (ended.unique ended')
      exact settles
    · cases ended.unique failed
  · exact fun settles => .inl ⟨r, ended, settles⟩

/-- The result from some fuel on. -/
def Comes (x : Nat → ExceptT ε Option α) (v : Except ε α) : Prop :=
  ∃ turns, ∀ fuel, turns ≤ fuel → (x fuel).run = some v

theorem Comes.const {x : ExceptT ε Option α} {v : Except ε α} (ran : x.run = some v) : Comes (fun _ => x) v :=
  ⟨0, fun _ _ => ran⟩

theorem Comes.bind {β : Type} {x : Nat → ExceptT ε Option α} {next : Nat → α → ExceptT ε Option β} {a : α}
    {v : Except ε β} (first : Comes x (.ok a)) (second : Comes (fun fuel => next fuel a) v) :
    Comes (fun fuel => x fuel >>= next fuel) v := by
  obtain ⟨m, first⟩ := first
  obtain ⟨n, second⟩ := second
  refine ⟨max m n, fun fuel enough => ?_⟩
  change Option.bind (x fuel).run _ = _
  rw [first fuel (by omega)]
  exact second fuel (by omega)

/-- A turn of a recursion that takes one off its fuel. -/
theorem Comes.succ {x y : Nat → ExceptT ε Option α} {v : Except ε α} (same : ∀ fuel, x (fuel + 1) = y fuel)
    (rest : Comes y v) : Comes x v := by
  obtain ⟨n, rest⟩ := rest
  refine ⟨n + 1, fun fuel enough => ?_⟩
  obtain ⟨fuel, rfl⟩ : ∃ k, fuel = k + 1 := ⟨fuel - 1, by omega⟩
  rw [same, rest fuel (by omega)]

end Sequence

/-! ## Two loops in step -/

variable {σ' ρ' : Type}

/-- Both turns leave, or both go on. -/
inductive Turn.Related (R : σ → σ' → Prop) (Q : ρ → ρ' → Prop) : Turn σ ρ → Turn σ' ρ' → Prop where
  | leave {r r'} (result : Q r r') : Related R Q (.leave r) (.leave r')
  | again {s s'} (state : R s s') : Related R Q (.again s) (.again s')

/-- Both runs end, or neither does within its turns. -/
inductive Related (Q : ρ → ρ' → Prop) : Option (Except ε ρ) → Option (Except ε ρ') → Prop where
  | running : Related Q none none
  | ended {r r'} (result : Q r r') : Related Q (some (.ok r)) (some (.ok r'))

theorem run_related {R : σ → σ' → Prop} {Q : ρ → ρ' → Prop} {turn' : σ' → Except ε (Turn σ' ρ')}
    (step : ∀ s s', R s s' → ∃ t t', turn s = .ok t ∧ turn' s' = .ok t' ∧ Turn.Related R Q t t')
    (fuel : Nat) {s' : σ'} (related : R s s') : Related Q (run turn fuel s) (run turn' fuel s') := by
  induction fuel generalizing s s' with
  | zero => exact .running
  | succ fuel ih =>
    obtain ⟨t, t', first, second, both⟩ := step s s' related
    simp only [run, first, second]
    cases both with
    | leave result => exact .ended result
    | again state => exact ih state

theorem Related.map {τ τ' : Type} {Q : ρ → ρ' → Prop} {Q' : τ → τ' → Prop} {f : ρ → τ} {g : ρ' → τ'}
    {first : Option (Except ε ρ)} {second : Option (Except ε ρ')} (related : Related Q first second)
    (sent : ∀ r r', Q r r' → Q' (f r) (g r')) :
    Related Q' (first.map (Except.map f)) (second.map (Except.map g)) := by
  cases related with
  | running => exact .running
  | ended result => exact .ended (sent _ _ result)

/-! ## One call after another -/

variable {ο : Type}

/-- The answers of the calls, and the state behind the last of them. -/
def calls (call : σ → ο → Option (Except ε (ρ × σ))) : List ο → σ → Option (Except ε (List ρ × σ))
  | [], s => some (.ok ([], s))
  | op :: ops, s =>
    match call s op with
    | none => none
    | some (.error e) => some (.error e)
    | some (.ok (r, s)) => (calls call ops s).map (Except.map fun last => (r :: last.1, last.2))

theorem calls_related {R : σ → σ' → Prop} {call : σ → ο → Option (Except ε (ρ × σ))}
    {call' : σ' → ο → Option (Except ε (ρ × σ'))}
    (step : ∀ s s' op, R s s' → Related (fun a b => a.1 = b.1 ∧ R a.2 b.2) (call s op) (call' s' op))
    (ops : List ο) {s' : σ'} (related : R s s') :
    Related (fun a b => a.1 = b.1 ∧ R a.2 b.2) (calls call ops s) (calls call' ops s') := by
  induction ops generalizing s s' with
  | nil => exact .ended ⟨rfl, related⟩
  | cons op ops ih =>
    have first := step s s' op related
    simp only [calls]
    generalize call s op = answer at first
    generalize call' s' op = answer' at first
    cases first with
    | running => exact .running
    | ended result =>
      obtain ⟨same, still⟩ := result
      apply (ih still).map
      rintro last last' ⟨rest, inside⟩
      exact ⟨by rw [same, rest], inside⟩

end ImxTest.Lib.While
