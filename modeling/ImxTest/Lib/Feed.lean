import Mathlib.Data.List.Infix
import Mathlib.Tactic.Common

/-! A source that is visited again and again. A visit that finds it ready is a call,
and a call may hand out an item. -/
namespace ImxTest.Lib.Feed

variable {σ ι β : Type}

/-- What the visits hand out. -/
def outputs (visit : σ → ι → σ × Option β) (s : σ) : List ι → List β
  | [] => []
  | v :: vs => (visit s v).2.toList ++ outputs visit (visit s v).1 vs

/-- The source behind the visits. -/
def behind (visit : σ → ι → σ × Option β) (s : σ) : List ι → σ
  | [] => s
  | v :: vs => behind visit (visit s v).1 vs

/-- The calls among so many that are made before the source ends, if it does. -/
def made : (limit : Option Nat) → (calls : Nat) → Nat
  | none, calls => calls
  | some total, calls => min calls total

/-- `At m` is the source behind `m` calls: call `m` hands out `item m`, and behind
the last call the source rests. -/
structure Feeds (visit : σ → ι → σ × Option β) (ready : ι → Bool) (limit : Option Nat)
    (item : Nat → Option β) (At : Nat → σ → Prop) : Prop where
  wait : ∀ m s v, At m s → ready v = false → (visit s v).2 = none ∧ At m (visit s v).1
  call : ∀ m s v, At m s → ready v = true → (∀ total ∈ limit, m < total) →
    (visit s v).2 = item m ∧ At (m + 1) (visit s v).1
  rest : ∀ m s v, At m s → m ∈ limit → (visit s v).2 = none ∧ At m (visit s v).1

/-- The source hands out the items of the plan one after the other, and ends with
the call that hands out the last of them. -/
structure Emits (visit : σ → ι → σ × Option β) (ready : ι → Bool) (ended : σ → Prop) (s : σ)
    (plan : List β) : Prop where
  ends : ∃ calls, ∀ vs : List ι, calls ≤ vs.countP ready → ended (behind visit s vs)
  inOrder : ∀ vs : List ι, outputs visit s vs <+: plan
  whole : ∀ vs : List ι, ended (behind visit s vs) → outputs visit s vs = plan
  atOnce : ∀ vs : List ι, plan ≠ [] → outputs visit s vs = plan → ended (behind visit s vs)

theorem range_split {m n : Nat} (le : m ≤ n) : List.range n = List.range m ++ List.range' m (n - m) := by
  have parts := @List.range'_append_1 0 m (n - m)
  rw [Nat.zero_add, Nat.add_sub_cancel' le] at parts
  rw [List.range_eq_range', List.range_eq_range', parts]

section Feeds
variable {visit : σ → ι → σ × Option β} {ready : ι → Bool} {limit : Option Nat}
  {item : Nat → Option β} {At : Nat → σ → Prop} {s : σ}

/-- The visits from call `m` on. -/
theorem Feeds.run (feeds : Feeds visit ready limit item At) (vs : List ι) {m : Nat} (at_ : At m s)
    (below : ∀ total ∈ limit, m ≤ total) :
    outputs visit s vs =
        (List.range' m (made (limit.map (· - m)) (vs.countP ready))).filterMap item ∧
      At (m + made (limit.map (· - m)) (vs.countP ready)) (behind visit s vs) := by
  have none_left : made (limit.map (· - m)) 0 = 0 := by cases limit <;> simp [made]
  induction vs generalizing m s with
  | nil => simpa [outputs, behind, none_left] using at_
  | cons v vs ih =>
    simp only [outputs, behind, List.countP_cons]
    by_cases past : m ∈ limit
    · obtain ⟨nothing, still⟩ := feeds.rest m s v at_ past
      obtain ⟨out, last⟩ := ih still below none_left
      obtain rfl : limit = some m := past
      rw [nothing]
      simpa [made] using And.intro out last
    cases found : ready v with
    | false =>
      obtain ⟨nothing, still⟩ := feeds.wait m s v at_ found
      obtain ⟨out, last⟩ := ih still below none_left
      rw [nothing]
      simpa using And.intro out last
    | true =>
      have ahead : ∀ total ∈ limit, m < total := by
        intro total is
        rcases Nat.lt_or_ge m total with less | more
        · exact less
        · have same : m = total := Nat.le_antisymm (below total is) more
          exact absurd (same ▸ is) past
      obtain ⟨one, next⟩ := feeds.call m s v at_ found ahead
      have later : made (limit.map (· - (m + 1))) 0 = 0 := by cases limit <;> simp [made]
      obtain ⟨out, last⟩ := ih next ahead later
      have count : made (limit.map (· - m)) (vs.countP ready + 1) =
          made (limit.map (· - (m + 1))) (vs.countP ready) + 1 := by
        cases limit with
        | none => rfl
        | some total =>
          have := ahead total rfl
          simp only [Option.map_some, made]
          omega
      rw [one, out, if_pos rfl, count, List.range'_succ, List.filterMap_cons]
      refine ⟨?_, ?_⟩
      · cases item m <;> rfl
      · rwa [show m + (made (limit.map (· - (m + 1))) (vs.countP ready) + 1) =
          m + 1 + made (limit.map (· - (m + 1))) (vs.countP ready) by omega]

/-- The visits from the start on. -/
theorem Feeds.from_start (feeds : Feeds visit ready limit item At) (start : At 0 s) (vs : List ι) :
    outputs visit s vs = (List.range (made limit (vs.countP ready))).filterMap item ∧
      At (made limit (vs.countP ready)) (behind visit s vs) := by
  have run := feeds.run vs start fun _ _ => Nat.zero_le _
  have same : limit.map (· - 0) = limit := by cases limit <;> rfl
  rwa [same, Nat.zero_add, ← List.range_eq_range'] at run

variable {total : Nat} {ended : σ → Prop} {plan : List β}

/-- What a source with so many calls emits. -/
theorem Feeds.emits_iff (feeds : Feeds visit ready (some total) item At) (start : At 0 s)
    (ends : ∀ m s, m ≤ total → At m s → (ended s ↔ m = total)) (visits : ∃ v, ready v = true) :
    Emits visit ready ended s plan ↔
      plan = (List.range total).filterMap item ∧ (plan ≠ [] → (item (total - 1)).isSome) := by
  have calls (vs : List ι) : ended (behind visit s vs) ↔ total ≤ vs.countP ready := by
    have within : made (some total) (vs.countP ready) ≤ total := Nat.min_le_right _ _
    rw [ends _ _ within (feeds.from_start start vs).2, made]
    omega
  have out (vs : List ι) : outputs visit s vs =
      (List.range (min (vs.countP ready) total)).filterMap item := (feeds.from_start start vs).1
  obtain ⟨v, found⟩ := visits
  have ready_all (n : Nat) : (List.replicate n v).countP ready = n := by
    rw [List.countP_replicate, if_pos found]
  constructor
  · intro emits
    have all := emits.whole (List.replicate total v) ((calls _).mpr (by rw [ready_all]))
    rw [out, ready_all, Nat.min_self] at all
    refine ⟨all.symm, ?_⟩
    intro some_
    rw [Option.isSome_iff_ne_none]
    intro nothing
    -- Without an item the last call could be left out.
    have positive : total ≠ 0 := by
      rintro rfl
      rw [List.range_zero] at all
      exact some_ all.symm
    obtain ⟨less, rfl⟩ := Nat.exists_eq_succ_of_ne_zero positive
    have early : outputs visit s (List.replicate less v) = plan := by
      rw [out, ready_all, Nat.min_eq_left (Nat.le_succ less), ← all, List.range_succ,
        List.filterMap_append, List.filterMap_cons]
      rw [Nat.succ_sub_one] at nothing
      rw [nothing, List.filterMap_nil, List.append_nil]
    have past := (calls _).mp (emits.atOnce _ some_ early)
    rw [ready_all] at past
    omega
  · rintro ⟨rfl, last⟩
    refine ⟨⟨total, fun vs enough => (calls vs).mpr enough⟩, ?_, ?_, ?_⟩
    · intro vs
      rw [out, range_split (Nat.min_le_right (vs.countP ready) total), List.filterMap_append]
      exact List.prefix_append _ _
    · intro vs past
      rw [out, Nat.min_eq_right ((calls vs).mp past)]
    · intro vs some_ same
      rw [calls]
      by_contra early
      have less : vs.countP ready < total := Nat.lt_of_not_le early
      rw [out, Nat.min_eq_left (Nat.le_of_lt less)] at same
      obtain ⟨one, isOne⟩ := Option.isSome_iff_exists.mp (last some_)
      -- The last call adds an item to those of the calls before it.
      have shorter := congrArg List.length same
      obtain ⟨before, rfl⟩ := Nat.exists_eq_succ_of_ne_zero (Nat.ne_of_gt (Nat.zero_lt_of_lt less))
      rw [Nat.succ_sub_one] at isOne
      rw [List.range_succ, range_split (Nat.le_of_lt_succ less), List.filterMap_append,
        List.filterMap_append, List.filterMap_cons, isOne] at shorter
      simp only [List.length_append, List.length_cons] at shorter
      omega

end Feeds

/-! ## Rounds -/

/-- So many calls, or as many as a limit allows, if there is one. -/
def limited (limit calls : Nat) : Nat := if limit = 0 then calls else min limit calls

theorem limited_le {limit calls m : Nat} :
    limited limit calls ≤ m ↔ calls ≤ m ∨ (0 < limit ∧ limit ≤ m) := by
  unfold limited
  split <;> omega

/-- Counting goes on within a row, or to the start of the next one. -/
theorem next_place {m pass : Nat} (positive : 0 < pass) :
    (m % pass + 1 < pass ∧ (m + 1) % pass = m % pass + 1 ∧ (m + 1) / pass = m / pass) ∨
      (m % pass + 1 = pass ∧ (m + 1) % pass = 0 ∧ (m + 1) / pass = m / pass + 1) := by
  have split := Nat.div_add_mod m pass
  have below := Nat.mod_lt m positive
  have next : m + 1 = pass * (m / pass) + (m % pass + 1) := by omega
  rcases Nat.lt_or_ge (m % pass + 1) pass with less | more
  · refine .inl ⟨less, ?_⟩
    rw [next, Nat.mul_add_mod, Nat.mul_add_div positive, Nat.mod_eq_of_lt less, Nat.div_eq_of_lt less]
    exact ⟨rfl, rfl⟩
  · have full : m % pass + 1 = pass := by omega
    refine .inr ⟨full, ?_⟩
    rw [next, full, Nat.mul_add_mod, Nat.mul_add_div positive, Nat.mod_self, Nat.div_self positive]
    exact ⟨rfl, rfl⟩

theorem replicate_range (n r : Nat) :
    (List.replicate r (List.range n)).flatten = (List.range (n * r)).map (· % n) := by
  induction r with
  | zero => simp
  | succ r ih =>
    rw [List.replicate_succ', List.flatten_append, ih, Nat.mul_succ, List.range_add, List.map_append,
      List.map_map]
    congr 1
    rw [List.flatten_singleton]
    apply List.ext_getElem?
    intro k
    rw [List.getElem?_map]
    rcases Nat.lt_or_ge k n with less | more
    · rw [List.getElem?_range less, Option.map_some, Function.comp, Nat.mul_add_mod, Nat.mod_eq_of_lt less]
    · rw [List.getElem?_eq_none (by simpa using more), Option.map_none]

/-- Skipping among what is handed out is skipping calls. -/
theorem filterMap_skip (skip total : Nat) (item : Nat → β) :
    (List.range total).filterMap (fun j => if skip < j + 1 then some (item j) else none) =
      ((List.range total).map item).drop skip := by
  induction total with
  | zero => simp
  | succ total ih =>
    rw [List.range_succ, List.filterMap_append, ih, List.map_append]
    rcases Nat.lt_or_ge skip (total + 1) with less | more
    · rw [List.drop_append_of_le_length (by simpa using Nat.le_of_lt_succ less)]
      simp only [List.filterMap_cons, List.filterMap_nil, if_pos less, List.map_cons, List.map_nil]
    · rw [List.drop_eq_nil_of_le (by simp; omega), List.drop_eq_nil_of_le (by simp; omega)]
      simp only [List.filterMap_cons, List.filterMap_nil, if_neg (Nat.not_lt.mpr more), List.append_nil]

end ImxTest.Lib.Feed
