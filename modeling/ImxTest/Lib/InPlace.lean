import ImxTest.Lib.Writes
import Mathlib.Data.List.Nodup

/-! Loops that write into the memory they read from. No turn writes where a later one reads, so that
all of them work with what the memory held before the loop. -/
namespace ImxTest.Lib.InPlace

open Writes (store store_append store_free)

variable {ι κ α : Type}

/-- What a turn of the loop reads and writes, and what it makes of the values. -/
structure Pass (ι κ α : Type) where
  reads : κ → List ι
  writes : κ → List ι
  value : κ → List α → List α

theorem zip_flatMap {turns : List κ} {places : κ → List ι} {values : κ → List α}
    (lengths : ∀ turn ∈ turns, (values turn).length = (places turn).length) :
    (turns.flatMap fun turn => (places turn).zip (values turn)) = (turns.flatMap places).zip (turns.flatMap values) := by
  induction turns with
  | nil => rfl
  | cons turn turns ih =>
    rw [List.flatMap_cons, List.flatMap_cons, List.flatMap_cons, ih fun t inside => lengths t (List.mem_cons_of_mem _ inside),
      List.zip_append (lengths turn List.mem_cons_self).symm]

theorem flatMap_inj {turns : List κ} {f g : κ → List α} (lengths : ∀ turn ∈ turns, (f turn).length = (g turn).length)
    (same : turns.flatMap f = turns.flatMap g) : ∀ turn ∈ turns, f turn = g turn := by
  induction turns with
  | nil => nofun
  | cons turn turns ih =>
    rw [List.flatMap_cons, List.flatMap_cons] at same
    obtain ⟨here, later⟩ := List.append_inj same (lengths turn List.mem_cons_self)
    intro t inside
    rcases List.mem_cons.mp inside with rfl | inside
    · exact here
    · exact ih (fun t inside => lengths t (List.mem_cons_of_mem _ inside)) later t inside

variable [DecidableEq ι]

namespace Pass
variable (pass : Pass ι κ α)

/-- The values made from a memory, with the places for them. -/
def stores (mem : ι → α) (turn : κ) : List (ι × α) := (pass.writes turn).zip (pass.value turn ((pass.reads turn).map mem))

def run (turns : List κ) (mem : ι → α) : ι → α := turns.foldl (fun mem turn => store mem (pass.stores mem turn)) mem

/-- What a turn writes is read by no later one. -/
def Apart (turns : List κ) : Prop := turns.Pairwise fun turn later => ∀ c ∈ pass.writes turn, c ∉ pass.reads later

variable {pass} {turns : List κ} {mem : ι → α}

theorem run_eq (apart : pass.Apart turns) : pass.run turns mem = store mem (turns.flatMap (pass.stores mem)) := by
  induction turns generalizing mem with
  | nil => rfl
  | cons turn turns ih =>
    obtain ⟨here, later⟩ := List.pairwise_cons.mp apart
    have unread : ∀ t ∈ turns, pass.stores (store mem (pass.stores mem turn)) t = pass.stores mem t := by
      intro t inside
      unfold stores
      congr 2
      refine List.map_congr_left fun c read => store_free fun v stored => ?_
      exact here t inside c (List.of_mem_zip stored).1 read
    change pass.run turns (store mem (pass.stores mem turn)) = _
    rw [ih later, List.flatMap_cons, store_append, List.flatMap_congr unread]

theorem run_congr {pass' : Pass ι κ α} (same : ∀ turn ∈ turns, pass.reads turn = pass'.reads turn ∧
    pass.writes turn = pass'.writes turn ∧ pass.value turn = pass'.value turn) : pass.run turns mem = pass'.run turns mem := by
  induction turns generalizing mem with
  | nil => rfl
  | cons turn turns ih =>
    obtain ⟨reads, writes, value⟩ := same turn List.mem_cons_self
    have here : pass.stores mem turn = pass'.stores mem turn := by
      unfold stores
      rw [reads, writes, value]
    change pass.run turns (store mem (pass.stores mem turn)) = pass'.run turns (store mem (pass'.stores mem turn))
    rw [here, ih fun t inside => same t (List.mem_cons_of_mem _ inside)]

/-- What is not written stays. -/
theorem run_free {c : ι} (free : ∀ turn ∈ turns, c ∉ pass.writes turn) : pass.run turns mem c = mem c := by
  induction turns generalizing mem with
  | nil => rfl
  | cons turn turns ih =>
    have here : c ∉ pass.writes turn := free turn List.mem_cons_self
    refine (ih fun t inside => free t (List.mem_cons_of_mem _ inside)).trans ?_
    exact store_free fun v stored => here (List.of_mem_zip stored).1

end Pass

/-- Values at places that are all different. -/
theorem map_store_zip {mem : ι → α} {places : List ι} {values : List α} (nodup : places.Nodup)
    (length : values.length = places.length) : places.map (store mem (places.zip values)) = values := by
  induction places generalizing mem values with
  | nil => exact (List.eq_nil_of_length_eq_zero length).symm
  | cons place places ih =>
    obtain ⟨v, values, rfl⟩ := List.exists_cons_of_length_eq_add_one length
    obtain ⟨new, nodup⟩ := List.nodup_cons.mp nodup
    rw [List.map_cons, List.zip_cons_cons]
    congr 1
    · refine (store_free fun w stored => new (List.of_mem_zip stored).1).trans ?_
      exact Function.update_self ..
    · exact ih nodup (Nat.succ.inj length)

/-- Read in the order of the turns, the memory holds what they make of what was there before. -/
theorem Pass.run_result {pass : Pass ι κ α} {turns : List κ} {mem : ι → α} (apart : pass.Apart turns)
    (nodup : (turns.flatMap pass.writes).Nodup)
    (lengths : ∀ turn ∈ turns, (pass.value turn ((pass.reads turn).map mem)).length = (pass.writes turn).length) :
    (turns.flatMap pass.writes).map (pass.run turns mem) =
      turns.flatMap fun turn => pass.value turn ((pass.reads turn).map mem) := by
  have total : (turns.flatMap fun turn => pass.value turn ((pass.reads turn).map mem)).length =
      (turns.flatMap pass.writes).length := by
    rw [List.length_flatMap, List.length_flatMap, List.map_congr_left lengths]
  rw [run_eq apart]
  unfold stores
  rw [zip_flatMap lengths]
  exact map_store_zip nodup total

theorem Pass.run_at {pass : Pass ι κ α} {turns : List κ} {mem : ι → α} (apart : pass.Apart turns)
    (nodup : (turns.flatMap pass.writes).Nodup)
    (lengths : ∀ turn ∈ turns, (pass.value turn ((pass.reads turn).map mem)).length = (pass.writes turn).length)
    {turn : κ} (inside : turn ∈ turns) :
    (pass.writes turn).map (pass.run turns mem) = pass.value turn ((pass.reads turn).map mem) := by
  have all := run_result apart nodup lengths
  rw [List.map_flatMap] at all
  refine flatMap_inj (fun t inside => ?_) all turn inside
  rw [List.length_map, lengths t inside]

end ImxTest.Lib.InPlace
