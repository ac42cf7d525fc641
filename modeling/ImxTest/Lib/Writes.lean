import Mathlib.Logic.Function.Basic
import Mathlib.Tactic.Common

/-! Lists of writes to a memory, and memories that are gathered from others. -/
namespace ImxTest.Lib.Writes

variable {ι κ α : Type}

/-- Each cell that takes a value has it, the others are as they were. -/
def gather (takes : ι → Option κ) (value : κ → α) (old : ι → α) : ι → α :=
  fun c => ((takes c).map value).getD (old c)

/-- The writes are those that give each cell what it takes. -/
def Gathers (writes : List (ι × α)) (takes : ι → Option κ) (value : κ → α) : Prop :=
  ∀ c v, (c, v) ∈ writes ↔ ∃ s, takes c = some s ∧ v = value s

section Gather
variable {takes : ι → Option κ} {value : κ → α} {old : ι → α} {c : ι} {s : κ}

theorem gather_some (taken : takes c = some s) : gather takes value old c = value s := by
  simp [gather, taken]

theorem gather_none (free : takes c = none) : gather takes value old c = old c := by
  simp [gather, free]

/-- Gathered twice, the second time from where the first one has put it. -/
theorem gather_gather {μ β γ : Type} {first : κ → Option μ} {source : μ → β} {f : β → α} {g : α → γ}
    {between : κ → α} {last : ι → γ} {m : μ} (found : (takes c).bind first = some m) :
    gather takes (g ∘ gather first (f ∘ source) between) last c = g (f (source m)) := by
  obtain ⟨s, taken, beneath⟩ := Option.bind_eq_some_iff.mp found
  rw [gather_some taken, Function.comp_apply, gather_some beneath, Function.comp_apply]

end Gather

variable [DecidableEq ι] {mem other : ι → α} {first second : List (ι × α)} {takes : ι → Option κ}
  {value : κ → α} {c : ι}

/-- The writes are made one after the other. -/
def store (mem : ι → α) (writes : List (ι × α)) : ι → α :=
  writes.foldl (fun mem write => Function.update mem write.1 write.2) mem

theorem store_append : store mem (first ++ second) = store (store mem first) second :=
  List.foldl_append

theorem store_free (free : ∀ v, (c, v) ∉ first) : store mem first c = mem c := by
  induction first generalizing mem with
  | nil => rfl
  | cons write rest ih =>
    have later : ∀ v, (c, v) ∉ rest := fun v mem => free v (List.mem_cons_of_mem _ mem)
    have here : c ≠ write.1 := fun same => free write.2 (same ▸ List.mem_cons_self)
    have done := @ih (Function.update mem write.1 write.2) later
    rwa [Function.update_of_ne here] at done

/-- What a cell that is written had before does not count. -/
theorem store_congr (agree : mem c = other c ∨ ∃ v, (c, v) ∈ first) :
    store mem first c = store other first c := by
  induction first generalizing mem other with
  | nil => exact agree.resolve_right fun ⟨_, mem⟩ => by cases mem
  | cons write rest ih =>
    apply ih
    by_cases here : c = write.1
    · subst here
      exact .inl (by simp only [Function.update_self])
    · rcases agree with same | ⟨v, written⟩
      · exact .inl (by simpa only [Function.update_of_ne here] using same)
      · refine .inr ⟨v, (List.mem_cons.mp written).resolve_left fun same => ?_⟩
        exact here (congrArg Prod.fst same)

/-- Writes to cells that are written again behind them. -/
theorem store_covered (covers : ∀ c v, (c, v) ∈ first → ∃ w, (c, w) ∈ second) :
    store mem (first ++ second) = store mem second := by
  funext c
  rw [store_append]
  apply store_congr
  by_cases written : ∃ v, (c, v) ∈ first
  · exact .inr (covers c written.choose written.choose_spec)
  · exact .inl (store_free fun v mem => written ⟨v, mem⟩)

/-- Turn for turn the same. -/
theorem store_flatMap {turns : List κ} {body body' : κ → List (ι × α)}
    (same : ∀ turn ∈ turns, ∀ mem, store mem (body turn) = store mem (body' turn)) :
    store mem (turns.flatMap body) = store mem (turns.flatMap body') := by
  induction turns generalizing mem with
  | nil => rfl
  | cons turn rest ih =>
    rw [List.flatMap_cons, List.flatMap_cons, store_append, store_append,
      same turn List.mem_cons_self]
    exact ih fun turn mem => same turn (List.mem_cons_of_mem _ mem)

/-- Where every write to a cell writes the same. -/
theorem store_all {v : α} (written : (c, v) ∈ first) (all : ∀ w, (c, w) ∈ first → w = v) :
    store mem first c = v := by
  induction first generalizing mem with
  | nil => cases written
  | cons write rest ih =>
    by_cases later : (c, v) ∈ rest
    · exact ih later fun w mem => all w (List.mem_cons_of_mem _ mem)
    · have here : write = (c, v) := ((List.mem_cons.mp written).resolve_right later).symm
      have last : ∀ w, (c, w) ∉ rest := fun w mem =>
        later (all w (List.mem_cons_of_mem _ mem) ▸ mem)
      have done := @store_free _ _ _ (Function.update mem write.1 write.2) rest c last
      subst here
      rwa [Function.update_self] at done

/-- Where turns are made in an order, the last one that writes to a cell counts. -/
theorem store_last {turns : List κ} {body : κ → List (ι × α)} {before : κ → κ → Prop} {last : κ} {v : α}
    (sorted : turns.Pairwise before) (strict : ∀ t, before last t → ¬ before t last) (mem_turns : last ∈ turns)
    (others : ∀ t ∈ turns, (∃ w, (c, w) ∈ body t) → t = last ∨ before t last) (written : (c, v) ∈ body last)
    (all : ∀ w, (c, w) ∈ body last → w = v) : store mem (turns.flatMap body) c = v := by
  obtain ⟨pre, post, rfl⟩ := List.append_of_mem mem_turns
  rw [List.flatMap_append, List.flatMap_cons, store_append, store_append, store_free, store_all written all]
  intro w inside
  obtain ⟨t, later, here⟩ := List.mem_flatMap.mp inside
  have after : before last t := List.rel_of_pairwise_cons (List.pairwise_append.mp sorted).2.1 later
  rcases others t (List.mem_append_right _ (List.mem_cons_of_mem _ later)) ⟨w, here⟩ with rfl | earlier
  · exact strict t after after
  · exact strict t after earlier

theorem store_gathers (gathers : Gathers first takes value) :
    store mem first = gather takes value mem := by
  funext c
  cases taken : takes c with
  | none =>
    rw [gather_none taken]
    refine store_free fun v mem => ?_
    obtain ⟨s, found, -⟩ := (gathers c v).mp mem
    cases taken.symm.trans found
  | some s =>
    rw [gather_some taken]
    refine store_all ((gathers c _).mpr ⟨s, taken, rfl⟩) fun w mem => ?_
    obtain ⟨s', found, rfl⟩ := (gathers c w).mp mem
    cases taken.symm.trans found
    rfl

end ImxTest.Lib.Writes
