import ImxTest.Lib.Reading

/-! When a reader never uses memory it does not have, whatever is in the file and in its new
variables. Where a strict reader finds that the file ends or that something is too large, there is
junk with which the reader faults, or goes on behind the end of the file. -/
namespace ImxTest.Lib.Reading

open Stream' (append_append_stream drop_append_stream drop_drop)

variable {α β σ : Type}

/-! ## Fuel -/

/-- A reader that has stopped for another reason than its fuel stops so with more. -/
def Steady (r : Nat → Reader α) : Prop :=
  ∀ fuel extra t, r fuel t ≠ .error .running → r (fuel + extra) t = r fuel t

theorem Steady.const (r : Reader α) : Steady fun _ => r := fun _ _ _ _ => rfl

theorem Steady.bind {r : Nat → Reader α} {next : Nat → α → Reader β} (first : Steady r)
    (later : ∀ a, Steady fun fuel => next fuel a) : Steady fun fuel => r fuel >>= next fuel := by
  intro fuel extra t stopped
  change (r fuel >>= next fuel) t ≠ _ at stopped
  change (r (fuel + extra) >>= next (fuel + extra)) t = (r fuel >>= next fuel) t
  have first_stopped : r fuel t ≠ .error .running := fun running => stopped (bind_error running _)
  have same := first fuel extra t first_stopped
  cases result : r fuel t with
  | error e => rw [bind_error result, bind_error (same.trans result)]
  | ok x =>
    rw [bind_ok result] at stopped ⊢
    rw [bind_ok (same.trans result)]
    exact later x.1 fuel extra x.2 stopped

theorem Steady.ite {c : Prop} [Decidable c] {r q : Nat → Reader α} (first : Steady r) (second : Steady q) :
    Steady fun fuel => if c then r fuel else q fuel := by
  by_cases holds : c
  · simpa only [if_pos holds] using first
  · simpa only [if_neg holds] using second

theorem Steady.more {r : Nat → Reader α} (steady : Steady r) {fuel : Nat} {t : Tape} {x : Except Stop (α × Tape)}
    (known : r fuel t = x) (stopped : x ≠ .error .running) (extra : Nat) : r (fuel + extra) t = x :=
  (steady fuel extra t (by rw [known]; exact stopped)).trans known

/-- What a steady reader comes to with some fuel is all that it can come to. -/
theorem Steady.or_running {r : Nat → Reader α} (steady : Steady r) {fuel : Nat} {t : Tape} {x : Except Stop (α × Tape)}
    (known : r fuel t = x) (stopped : x ≠ .error .running) (fuel' : Nat) :
    r fuel' t = x ∨ r fuel' t = .error .running := by
  by_cases running : r fuel' t = .error .running
  · exact .inr running
  · left
    rw [← steady fuel' fuel t running, Nat.add_comm]
    exact steady.more known stopped fuel'

/-! ## Faults -/

/-- With some junk and fuel the reader faults, or comes to a result behind the end of the file. -/
def Perils (r : Nat → Reader α) (left : List UInt8) : Prop := ∃ bytes fuel,
  (∀ junk, r fuel ⟨left, bytes ++ₛ junk⟩ = .error .fault) ∨
    ∃ a, ∀ junk, r fuel ⟨left, bytes ++ₛ junk⟩ = .error .fault ∨ r fuel ⟨left, bytes ++ₛ junk⟩ = .ok (a, ⟨[], junk⟩)

/-- What a reader does with bytes of which a strict one makes `result`. -/
structure GuardsAt (result : Except Miss (α × List UInt8)) (r : Nat → Reader α) (left : List UInt8) : Prop where
  found : ∀ a rest, result = .ok (a, rest) → rest.length ≤ left.length ∧
    ∃ k fuel, ∀ junk, r fuel ⟨left, junk⟩ = .ok (a, ⟨rest, junk.drop k⟩)
  wrong : result = .error .wrong → ∀ fuel junk,
    r fuel ⟨left, junk⟩ = .error .failed ∨ r fuel ⟨left, junk⟩ = .error .running
  perils : result = .error .ended ∨ result = .error .large → Perils r left

structure Guards (strict : Strict α) (r : Nat → Reader α) : Prop where
  steady : Steady r
  inside : ∀ left, GuardsAt (strict left) r left
  past : Perils r []

section Bind
variable {r : Nat → Reader α} {next : Nat → α → Reader β} {left : List UInt8}

theorem Perils.fault (bytes : List UInt8) (fuel : Nat)
    (fault : ∀ junk, r fuel ⟨left, bytes ++ₛ junk⟩ = .error .fault) : Perils r left := ⟨bytes, fuel, .inl fault⟩

/-- Either there is a result, or there are faults only. -/
theorem Perils.split (perils : Perils r left) : ∃ bytes fuel,
    (∀ junk, r fuel ⟨left, bytes ++ₛ junk⟩ = .error .fault) ∨
      ∃ a, (∃ t u, r fuel t = .ok (a, u)) ∧
        ∀ junk, r fuel ⟨left, bytes ++ₛ junk⟩ = .error .fault ∨ r fuel ⟨left, bytes ++ₛ junk⟩ = .ok (a, ⟨[], junk⟩) := by
  obtain ⟨bytes, fuel, fault | ⟨a, goes⟩⟩ := perils
  · exact ⟨bytes, fuel, .inl fault⟩
  · refine ⟨bytes, fuel, ?_⟩
    by_cases some_ : ∃ junk, r fuel ⟨left, bytes ++ₛ junk⟩ = .ok (a, ⟨[], junk⟩)
    · obtain ⟨junk, ok⟩ := some_
      exact .inr ⟨a, ⟨_, _, ok⟩, goes⟩
    · exact .inl fun junk => (goes junk).resolve_right fun ok => some_ ⟨junk, ok⟩

/-- Behind a result inside the file. -/
theorem Perils.after {a : α} {rest : List UInt8} {k fuel : Nat} (steady : Steady r) (later_steady : Steady fun fuel => next fuel a)
    (ok : ∀ junk, r fuel ⟨left, junk⟩ = .ok (a, ⟨rest, junk.drop k⟩)) (later : Perils (fun fuel => next fuel a) rest) :
    Perils (fun fuel => r fuel >>= next fuel) left := by
  obtain ⟨bytes, fuel', perils⟩ := later
  have run (junk : Stream' UInt8) : (r (fuel + fuel') >>= next (fuel + fuel'))
      ⟨left, (List.replicate k 0 ++ bytes) ++ₛ junk⟩ = next (fuel + fuel') a ⟨rest, bytes ++ₛ junk⟩ := by
    have here := ok ((List.replicate k 0 ++ bytes) ++ₛ junk)
    have dropped := drop_append_stream (List.replicate k (0 : UInt8)) (bytes ++ₛ junk)
    rw [List.length_replicate] at dropped
    rw [append_append_stream, dropped] at here
    rw [append_append_stream]
    exact bind_ok (steady.more here nofun fuel') _
  have more {x : Except Stop (β × Tape)} {t : Tape} (known : next fuel' a t = x) (stopped : x ≠ .error .running) :
      next (fuel + fuel') a t = x := by
    rw [Nat.add_comm]
    exact later_steady.more known stopped fuel
  refine ⟨List.replicate k 0 ++ bytes, fuel + fuel', ?_⟩
  rcases perils with fault | ⟨b, goes⟩
  · exact .inl fun junk => (run junk).trans (more (fault junk) nofun)
  · refine .inr ⟨b, fun junk => ?_⟩
    exact (goes junk).imp (fun fault => (run junk).trans (more fault nofun)) fun ok => (run junk).trans (more ok nofun)

theorem Perils.bind (steady : Steady r) (later_steady : ∀ a, Steady fun fuel => next fuel a) (first : Perils r left)
    (later : ∀ a, Perils (fun fuel => next fuel a) []) : Perils (fun fuel => r fuel >>= next fuel) left := by
  obtain ⟨bytes, fuel, fault | ⟨a, goes⟩⟩ := first
  · exact .fault bytes fuel fun junk => bind_error (fault junk) _
  · obtain ⟨more, fuel', perils⟩ := later a
    have run (junk : Stream' UInt8) : (r (fuel + fuel') >>= next (fuel + fuel')) ⟨left, (bytes ++ more) ++ₛ junk⟩ =
        .error .fault ∨ (r (fuel + fuel') >>= next (fuel + fuel')) ⟨left, (bytes ++ more) ++ₛ junk⟩ =
          next (fuel + fuel') a ⟨[], more ++ₛ junk⟩ := by
      rw [append_append_stream]
      refine (goes (more ++ₛ junk)).imp (fun fault => ?_) fun ok => ?_
      · exact bind_error (steady.more fault nofun fuel') _
      · exact bind_ok (steady.more ok nofun fuel') _
    have enough {x : Except Stop (β × Tape)} {t : Tape} (known : next fuel' a t = x) (stopped : x ≠ .error .running) :
        next (fuel + fuel') a t = x := by
      rw [Nat.add_comm]
      exact (later_steady a).more known stopped fuel
    refine ⟨bytes ++ more, fuel + fuel', ?_⟩
    rcases perils with fault | ⟨b, goes'⟩
    · exact .inl fun junk => (run junk).elim id fun same => same.trans (enough (fault junk) nofun)
    · refine .inr ⟨b, fun junk => ?_⟩
      rcases run junk with fault | same
      · exact .inl fault
      · exact (goes' junk).imp (fun fault => same.trans (enough fault nofun)) fun ok => same.trans (enough ok nofun)

theorem GuardsAt.of_ok {a : α} {rest : List UInt8} (k fuel : Nat) (shorter : rest.length ≤ left.length)
    (run : ∀ junk, r fuel ⟨left, junk⟩ = .ok (a, ⟨rest, junk.drop k⟩)) : GuardsAt (.ok (a, rest)) r left where
  found b tail ok := by
    obtain ⟨rfl, rfl⟩ := Prod.mk.inj (Except.ok.inj ok)
    exact ⟨shorter, k, fuel, run⟩
  wrong := nofun
  perils short := by rcases short with ended | large <;> cases ‹_›

theorem GuardsAt.of_wrong
    (run : ∀ fuel junk, r fuel ⟨left, junk⟩ = .error .failed ∨ r fuel ⟨left, junk⟩ = .error .running) :
    GuardsAt (.error .wrong) r left where
  found := nofun
  wrong _ := run
  perils short := by rcases short with ended | large <;> cases ‹_›

theorem GuardsAt.of_perils {e : Miss} (plain : e ≠ .wrong) (perils : Perils r left) : GuardsAt (.error e) r left where
  found := nofun
  wrong wrong := absurd (Except.error.inj wrong) plain
  perils _ := perils

/-- What follows a result of the strict reader. -/
theorem GuardsAt.bind_found {result : Except Miss (α × List UInt8)} {a : α} {rest : List UInt8}
    {after : Except Miss (β × List UInt8)} (steady : Steady r) (later_steady : Steady fun fuel => next fuel a)
    (first : GuardsAt result r left) (ok : result = .ok (a, rest)) (later : GuardsAt after (fun fuel => next fuel a) rest) :
    GuardsAt after (fun fuel => r fuel >>= next fuel) left := by
  obtain ⟨shorter, k, fuel, found⟩ := first.found a rest ok
  refine ⟨fun b tail ok => ?_, fun wrong fuel' junk => ?_, fun short => ?_⟩
  · obtain ⟨shorter', k', fuel', found'⟩ := later.found b tail ok
    refine ⟨shorter'.trans shorter, k + k', fuel + fuel', fun junk => ?_⟩
    rw [bind_ok (steady.more (found junk) nofun fuel'), Nat.add_comm fuel, ← drop_drop]
    exact later_steady.more (found' _) nofun fuel
  · rcases steady.or_running (found junk) nofun fuel' with ok | running
    · rw [bind_ok ok]
      exact later.wrong wrong fuel' _
    · exact .inr (bind_error running _)
  · exact .after steady later_steady found (later.perils short)

theorem GuardsAt.bind {strict : Strict α} {f : α → Strict β} (steady : Steady r)
    (later_steady : ∀ a, Steady fun fuel => next fuel a) (first : GuardsAt (strict left) r left)
    (later : ∀ a rest, strict left = .ok (a, rest) → GuardsAt (f a rest) (fun fuel => next fuel a) rest)
    (past : ∀ a, Perils (fun fuel => next fuel a) []) :
    GuardsAt ((strict >>= f) left) (fun fuel => r fuel >>= next fuel) left := by
  change GuardsAt (Except.bind (strict left) fun x => f x.1 x.2) _ left
  cases result : strict left with
  | ok x => exact first.bind_found steady (later_steady x.1) result (later x.1 x.2 result)
  | error e =>
    change GuardsAt (.error e) _ left
    rw [result] at first
    cases e with
    | wrong => exact .of_wrong fun fuel junk => (first.wrong rfl fuel junk).imp (bind_error · _) (bind_error · _)
    | ended => exact .of_perils nofun ((first.perils (.inl rfl)).bind steady later_steady past)
    | large => exact .of_perils nofun ((first.perils (.inr rfl)).bind steady later_steady past)

theorem Guards.bind {strict : Strict α} {f : α → Strict β} (first : Guards strict r)
    (later : ∀ a, Guards (f a) (fun fuel => next fuel a)) :
    Guards (strict >>= f) (fun fuel => r fuel >>= next fuel) where
  steady := first.steady.bind fun a => (later a).steady
  inside left := (first.inside left).bind first.steady (fun a => (later a).steady)
    (fun a rest _ => (later a).inside rest) fun a => (later a).past
  past := first.past.bind first.steady (fun a => (later a).steady) fun a => (later a).past

end Bind

theorem Guards.pure (a : α) : Guards (pure a) (fun _ => pure a) where
  steady := .const _
  inside _ := .of_ok 0 0 (le_refl _) fun _ => rfl
  past := ⟨[], 0, .inr ⟨a, fun _ => .inr rfl⟩⟩

theorem Perils.fresh {f : Nat → List UInt8 → Reader α} {tag left : List UInt8}
    (perils : Perils (fun fuel => f fuel tag) left) :
    Perils (fun fuel => fresh tag.length >>= f fuel) left := by
  obtain ⟨bytes, fuel, perils⟩ := perils
  have run (junk : Stream' UInt8) : (Reading.fresh tag.length >>= f fuel) ⟨left, (tag ++ bytes) ++ₛ junk⟩ =
      f fuel tag ⟨left, bytes ++ₛ junk⟩ := by
    rw [append_append_stream]
    exact bind_ok (fresh_bytes tag left (bytes ++ₛ junk)) _
  refine ⟨tag ++ bytes, fuel, ?_⟩
  simpa only [run] using perils

/-- Junk that the reader passes over first. -/
theorem GuardsAt.shift {result : Except Miss (α × List UInt8)} {r r' : Nat → Reader α} {left : List UInt8}
    (first : GuardsAt result r left) (n : Nat)
    (same : ∀ fuel junk, r' fuel ⟨left, junk⟩ = r fuel ⟨left, junk.drop n⟩) : GuardsAt result r' left := by
  refine ⟨fun a rest ok => ?_, fun wrong fuel junk => ?_, fun short => ?_⟩
  · obtain ⟨shorter, k, fuel, found⟩ := first.found a rest ok
    refine ⟨shorter, n + k, fuel, fun junk => ?_⟩
    rw [same, ← drop_drop]
    exact found _
  · rw [same]
    exact first.wrong wrong fuel _
  · obtain ⟨bytes, fuel, perils⟩ := first.perils short
    refine ⟨List.replicate n 0 ++ bytes, fuel, ?_⟩
    have run (junk : Stream' UInt8) : r' fuel ⟨left, (List.replicate n 0 ++ bytes) ++ₛ junk⟩ =
        r fuel ⟨left, bytes ++ₛ junk⟩ := by
      have dropped := drop_append_stream (List.replicate n (0 : UInt8)) (bytes ++ₛ junk)
      rw [List.length_replicate] at dropped
      rw [same, append_append_stream, dropped]
    simpa only [run] using perils

theorem Guards.ite {c : Prop} [Decidable c] {s t : Strict α} {r q : Nat → Reader α} (first : Guards s r)
    (second : Guards t q) : Guards (if c then s else t) (fun fuel => if c then r fuel else q fuel) := by
  by_cases holds : c
  · simpa only [if_pos holds] using first
  · simpa only [if_neg holds] using second

/-! ## Readers without a loop -/

/-- It needs no fuel. -/
def Quiet (r : Reader α) : Prop := ∀ t, r t ≠ .error .running

theorem Quiet.bind {r : Reader α} {f : α → Reader β} (first : Quiet r) (later : ∀ a, Quiet (f a)) : Quiet (r >>= f) := by
  intro t
  cases result : r t with
  | error e =>
    rw [bind_error result]
    exact fun running => first t (result.trans (congrArg Except.error (Except.error.inj running)))
  | ok x =>
    rw [bind_ok result]
    exact later x.1 x.2

theorem Quiet.pure (a : α) : Quiet (pure a : Reader α) := fun _ => nofun

theorem Quiet.readNew (n : Nat) : Quiet (readNew n) := fun t => by
  rw [readNew_run]
  nofun

theorem Quiet.expect (tag : List UInt8) : Quiet (expect tag) :=
  (Quiet.readNew _).bind fun bytes t => by
    split_ifs <;> nofun

theorem Stalls.fault {r : Reader α} (quiet : Quiet r) {t : Tape} (stalls : Stalls (r t)) : r t = .error .fault := by
  obtain ⟨e, plain, error⟩ := stalls
  cases e with
  | failed => exact absurd rfl plain
  | running => exact absurd error (quiet t)
  | fault => exact error

theorem Adrift.perils {r : Reader α} (quiet : Quiet r) {left : List UInt8} (adrift : Adrift (fun _ => r) left) :
    Perils (fun _ => r) left := by
  obtain ⟨bytes, a, goes⟩ := adrift
  exact ⟨bytes, 0, .inr ⟨a, fun junk => ((goes 0 junk).imp_right (Stalls.fault quiet)).symm⟩⟩

/-- Without a loop the two comparisons are one. -/
theorem Tracks.guards {strict : Strict α} {r : Reader α} (tracks : Tracks strict fun _ => r) (quiet : Quiet r) :
    Guards strict fun _ => r where
  steady := .const r
  inside left := by
    refine ⟨fun a rest ok => ?_, fun wrong _ junk => ?_, fun short => ?_⟩
    · obtain ⟨shorter, k, turns, found⟩ := (tracks.inside left).found a rest ok
      exact ⟨shorter, k, turns, fun junk => (found turns junk).resolve_right fun few => absurd few.1 (Nat.lt_irrefl _)⟩
    · obtain ⟨turns, failed⟩ := (tracks.inside left).wrong wrong
      exact .inl (failed turns (le_refl _) junk)
    · rcases short with ended | large
      · exact ((tracks.inside left).ended ended).perils quiet
      · exact .fault [] 0 fun junk => ((tracks.inside left).large large 0 _).fault quiet
  past := tracks.past.perils quiet

/-! ## Chunks -/

section Chunks
variable {done : σ → Bool} {handle : Nat → List UInt8 → σ → Reader σ} {handleS : List UInt8 → σ → Strict σ}

theorem steady_chunks (steady : ∀ tag s, Steady fun fuel => handle fuel tag s) (tag : List UInt8) (s : σ) :
    Steady fun fuel => chunks done handle fuel tag s := by
  intro fuel extra t stopped
  induction fuel generalizing tag s t with
  | zero => exact absurd rfl stopped
  | succ fuel ih =>
    change chunks done handle (fuel + 1) tag s t ≠ _ at stopped
    change chunks done handle (fuel + 1 + extra) tag s t = chunks done handle (fuel + 1) tag s t
    rw [Nat.succ_add]
    cases is_done : done s with
    | true => rw [chunks, chunks, if_pos is_done, if_pos is_done]
    | false =>
      rw [chunks_turn is_done] at stopped ⊢
      rw [chunks_turn is_done]
      generalize t.left.take tag.length ++ tag.drop t.left.length = tag' at stopped ⊢
      generalize { t with left := t.left.drop tag.length } = u at stopped ⊢
      have first_stopped : handle fuel tag' s u ≠ .error .running := fun running => stopped (bind_error running _)
      have same := steady tag' s fuel extra u first_stopped
      cases result : handle fuel tag' s u with
      | error e => rw [bind_error result, bind_error (same.trans result)]
      | ok x =>
        rw [bind_ok result] at stopped ⊢
        rw [bind_ok (same.trans result)]
        exact ih tag' x.1 x.2 stopped

/-- One turn of fuel is for the loop itself. -/
theorem GuardsAt.turn {result : Except Miss (σ × List UInt8)} {r r' : Nat → Reader σ} {left rest : List UInt8}
    (first : GuardsAt result r' rest) (shorter : rest.length ≤ left.length)
    (zero : ∀ junk, r 0 ⟨left, junk⟩ = .error .running)
    (succ : ∀ fuel junk, r (fuel + 1) ⟨left, junk⟩ = r' fuel ⟨rest, junk⟩) : GuardsAt result r left := by
  refine ⟨fun a tail ok => ?_, fun wrong fuel junk => ?_, fun short => ?_⟩
  · obtain ⟨shorter', k, fuel, found⟩ := first.found a tail ok
    refine ⟨shorter'.trans shorter, k, fuel + 1, fun junk => ?_⟩
    rw [succ]
    exact found junk
  · cases fuel with
    | zero => exact .inr (zero junk)
    | succ fuel =>
      rw [succ]
      exact first.wrong wrong fuel junk
  · obtain ⟨bytes, fuel, perils⟩ := first.perils short
    refine ⟨bytes, fuel + 1, ?_⟩
    simpa only [succ] using perils

/-- A chunk that the handling faults on behind the end of the file, with some junk. -/
def Drowns (handle : Nat → List UInt8 → σ → Reader σ) (tag : List UInt8) (s : σ) : Prop :=
  ∃ bytes, ∀ fuel junk, handle fuel tag s ⟨[], bytes ++ₛ junk⟩ = .error .fault

/-- The file has ended, and the tag stays what it is. -/
theorem Drowns.chunks {tag : List UInt8} {s : σ} (drowns : Drowns handle tag s) (not_done : done s = false) :
    ∃ bytes, ∀ fuel junk, chunks done handle (fuel + 1) tag s ⟨[], bytes ++ₛ junk⟩ = .error .fault := by
  obtain ⟨bytes, fault⟩ := drowns
  refine ⟨bytes, fun fuel junk => ?_⟩
  rw [chunks_turn not_done]
  simp only [List.take_nil, List.nil_append, List.length_nil, List.drop_zero, List.drop_nil]
  exact bind_error (fault fuel junk) _

theorem perils_done {s : σ} (is_done : done s = true) (tag : List UInt8) :
    Perils (fun fuel => chunks done handle fuel tag s) [] := by
  refine ⟨[], 1, .inr ⟨s, fun junk => .inr ?_⟩⟩
  change chunks done handle 1 tag s _ = _
  rw [chunks, if_pos is_done]
  rfl

variable (steady : ∀ tag s, Steady fun fuel => handle fuel tag s)

include steady

/-- A chunk that ends behind the end of the file, and is not the last one. -/
theorem fault_behind {s a : σ} {tag left bytes : List UInt8} {fuel : Nat} (not_done : done a = false)
    (goes : ∀ junk, handle fuel tag s ⟨left, bytes ++ₛ junk⟩ = .error .fault ∨
      handle fuel tag s ⟨left, bytes ++ₛ junk⟩ = .ok (a, ⟨[], junk⟩)) (drowns : Drowns handle tag a) :
    ∃ bytes fuel, ∀ junk,
      (handle fuel tag s >>= chunks done handle fuel tag) ⟨left, bytes ++ₛ junk⟩ = .error .fault := by
  obtain ⟨more, drowned⟩ := drowns.chunks not_done
  refine ⟨bytes ++ more, fuel + 1, fun junk => ?_⟩
  rw [append_append_stream]
  rcases goes (more ++ₛ junk) with fault | ok
  · exact bind_error ((steady tag s).more fault nofun 1) _
  · rw [bind_ok ((steady tag s).more ok nofun 1)]
    exact drowned fuel junk

/-- Where no chunk of this kind is the last one. -/
theorem Perils.chunks {s : σ} {tag left : List UInt8} (perils : Perils (fun fuel => handle fuel tag s) left)
    (on : ∀ fuel t s' t', handle fuel tag s t = .ok (s', t') → done s' = false ∧ Drowns handle tag s') :
    ∃ bytes fuel, ∀ junk,
      (handle fuel tag s >>= chunks done handle fuel tag) ⟨left, bytes ++ₛ junk⟩ = .error .fault := by
  obtain ⟨bytes, fuel, fault | ⟨a, ⟨t, u, ok⟩, goes⟩⟩ := perils.split
  · exact ⟨bytes, fuel, fun junk => bind_error (fault junk) _⟩
  · obtain ⟨not_done, drowns⟩ := on fuel t a u ok
    exact fault_behind steady not_done goes drowns

variable (past : ∀ tag s, Perils (fun fuel => handle fuel tag s) [])
  (once : ∀ fuel tag s t s' t', handle fuel tag s t = .ok (s', t') → Drowns handle tag s')

include past once

theorem perils_chunks {s : σ} {tag left : List UInt8} (not_done : done s = false) (short : left.length ≤ tag.length) :
    Perils (fun fuel => chunks done handle fuel tag s) left := by
  obtain ⟨bytes, fuel, perils⟩ := (past (left.take tag.length ++ tag.drop left.length) s).split
  have turn (fuel : Nat) (junk : Stream' UInt8) : chunks done handle (fuel + 1) tag s ⟨left, junk⟩ = _ :=
    chunks_turn not_done fuel tag ⟨left, junk⟩
  simp only [List.drop_of_length_le short] at turn
  generalize left.take tag.length ++ tag.drop left.length = tag' at perils turn
  rcases perils with fault | ⟨a, ⟨t, u, ok⟩, goes⟩
  · refine .fault bytes (fuel + 1) fun junk => ?_
    rw [turn]
    exact bind_error (fault junk) _
  · cases is_done : done a with
    | true =>
      refine ⟨bytes, fuel + 1 + 1, .inr ⟨a, fun junk => ?_⟩⟩
      change chunks done handle (fuel + 1 + 1) tag s _ = _ ∨ chunks done handle (fuel + 1 + 1) tag s _ = _
      rw [turn]
      rcases goes junk with fault | ok
      · exact .inl (bind_error ((steady tag' s).more fault nofun 1) _)
      · right
        rw [bind_ok ((steady tag' s).more ok nofun 1), chunks, if_pos is_done]
        rfl
    | false =>
      obtain ⟨bytes, fuel, fault⟩ := fault_behind steady is_done goes (once _ _ _ _ _ _ ok)
      refine .fault bytes (fuel + 1) fun junk => ?_
      rw [turn]
      exact fault junk

variable (guards : ∀ tag s, Guards (handleS tag s) (fun fuel => handle fuel tag s))

include guards

theorem guardsAt_chunks (bound : Nat) (s : σ) (tag left : List UInt8) (tag_length : tag.length = 4)
    (enough : left.length < bound) :
    GuardsAt (Strict.chunks done handleS bound s left) (fun fuel => chunks done handle fuel tag s) left := by
  induction bound generalizing s tag left with
  | zero => exact absurd enough (Nat.not_lt_zero _)
  | succ bound ih =>
    have zero (junk : Stream' UInt8) : chunks done handle 0 tag s ⟨left, junk⟩ = .error .running := rfl
    cases is_done : done s with
    | true =>
      rw [Strict.chunks, if_pos is_done]
      refine ((Guards.pure s).inside left).turn (le_refl _) zero fun fuel junk => ?_
      rw [chunks, if_pos is_done]
    | false =>
      by_cases long : 4 ≤ left.length
      · have rest_length : (left.drop 4).length < left.length := by
          rw [List.length_drop]
          omega
        have later : GuardsAt ((handleS (left.take 4) s >>= Strict.chunks done handleS bound) (left.drop 4))
            (fun fuel => handle fuel (left.take 4) s >>= chunks done handle fuel (left.take 4)) (left.drop 4) := by
          refine ((guards _ s).inside _).bind (steady _ s) (fun s' => steady_chunks steady _ s')
            (fun s' rest ok => ?_) fun s' => ?_
          · have shorter := (((guards _ s).inside _).found s' rest ok).1
            exact ih s' (left.take 4) rest (List.length_take_of_le long) (by omega)
          · cases is_done' : done s' with
            | true => exact perils_done is_done' _
            | false => exact perils_chunks steady past once is_done' (Nat.zero_le _)
        rw [Strict.chunks_long is_done long]
        refine later.turn rest_length.le zero fun fuel junk => ?_
        exact chunks_turn_long is_done tag_length long fuel junk
      · rw [Strict.chunks_short is_done long]
        exact .of_perils (by decide) (perils_chunks steady past once is_done (by omega))

/-- The variable of the tag is a new one. -/
theorem guards_freshChunks (s : σ) : Guards (Strict.allChunks done handleS s)
    (fun fuel => fresh 4 >>= fun tag => chunks done handle fuel tag s) := by
  have inside (left : List UInt8) : GuardsAt (Strict.allChunks done handleS s left)
      (fun fuel => chunks done handle fuel (List.replicate 4 0) s) left :=
    guardsAt_chunks steady past once guards (left.length + 1) s _ left List.length_replicate (Nat.lt_succ_self _)
  have fresh_perils {left : List UInt8}
      (perils : Perils (fun fuel => chunks done handle fuel (List.replicate 4 0) s) left) :
      Perils (fun fuel => fresh 4 >>= fun tag => chunks done handle fuel tag s) left :=
    perils.fresh (f := fun fuel tag => chunks done handle fuel tag s)
  refine ⟨(Steady.const (fresh 4)).bind fun tag => steady_chunks steady tag s, fun left => ?_, fresh_perils ?_⟩
  · by_cases long : done s = true ∨ 4 ≤ left.length
    · refine (inside left).shift 4 fun fuel junk => ?_
      change chunks done handle fuel (junk.take 4) s ⟨left, junk.drop 4⟩ = _
      cases fuel with
      | zero => rfl
      | succ fuel =>
        cases is_done : done s with
        | true => rw [chunks, chunks, if_pos is_done, if_pos is_done]
        | false =>
          have long := long.resolve_left (by rw [is_done]; exact Bool.false_ne_true)
          rw [chunks_turn_long is_done (Stream'.length_take 4 junk) long,
            chunks_turn_long is_done List.length_replicate long]
    · obtain ⟨not_done, short⟩ := not_or.mp long
      have strict : Strict.allChunks done handleS s left = .error .ended :=
        Strict.chunks_short (Bool.eq_false_of_not_eq_true not_done) short _
      rw [strict]
      exact .of_perils (by decide) (fresh_perils ((inside left).perils (.inl strict)))
  · cases is_done : done s with
    | true => exact perils_done is_done _
    | false => exact perils_chunks steady past once is_done (Nat.zero_le _)

end Chunks

/-! ## Checks -/

/-- The first reader is the second one, but for faults. -/
def Checks (r q : Reader α) : Prop := ∀ t, r t = q t ∨ r t = .error .fault

theorem Checks.refl (r : Reader α) : Checks r r := fun _ => .inl rfl

theorem Checks.bind {r q : Reader α} {f g : α → Reader β} (first : Checks r q) (later : ∀ a, Checks (f a) (g a)) :
    Checks (r >>= f) (q >>= g) := by
  intro t
  rcases first t with same | fault
  · cases result : q t with
    | error e => exact .inl ((bind_error (same.trans result) f).trans (bind_error result g).symm)
    | ok x =>
      rw [bind_ok (same.trans result), bind_ok result]
      exact later x.1 x.2
  · exact .inr (bind_error fault f)

theorem Checks.ite {c : Prop} [Decidable c] {r q r' q' : Reader α} (first : Checks r q) (second : Checks r' q') :
    Checks (if c then r else r') (if c then q else q') := by
  split_ifs
  · exact first
  · exact second

theorem Checks.chunks {done : σ → Bool} {handle handle' : Nat → List UInt8 → σ → Reader σ}
    (checks : ∀ fuel tag s, Checks (handle fuel tag s) (handle' fuel tag s)) (fuel : Nat) (tag : List UInt8) (s : σ) :
    Checks (chunks done handle fuel tag s) (chunks done handle' fuel tag s) := by
  induction fuel generalizing tag s with
  | zero => exact .refl _
  | succ fuel ih =>
    intro t
    cases is_done : done s with
    | true =>
      rw [Reading.chunks, Reading.chunks, if_pos is_done, if_pos is_done]
      exact .inl rfl
    | false =>
      rw [chunks_turn is_done, chunks_turn is_done]
      exact (checks fuel _ s).bind (fun s => ih _ s) _

end ImxTest.Lib.Reading
