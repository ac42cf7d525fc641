import Mathlib.Tactic.Common

/-! Labelled runs of a step relation, and what holds along them. -/
namespace ImxTest.Lib.Runs

variable {S L : Type}

inductive Run (step : S → L → S → Prop) : S → List L → S → Prop where
  | stay (s) : Run step s [] s
  | next {s t u l ls} : step s l t → Run step t ls u → Run step s (l :: ls) u

/-- The steps with a property. -/
def Only (step P : S → L → S → Prop) (s : S) (l : L) (t : S) : Prop := step s l t ∧ P s l t

variable {step P Q : S → L → S → Prop} {s t u : S} {ls ms : List L}

theorem Run.trans (first : Run step s ls t) (second : Run step t ms u) : Run step s (ls ++ ms) u := by
  induction first with
  | stay => exact second
  | next head _ ih => exact .next head (ih second)

theorem Run.invariant {Inv : S → Prop} (run : Run step s ls t)
    (kept : ∀ s l t, Inv s → step s l t → Inv t) (start : Inv s) : Inv t := by
  induction run with
  | stay => exact start
  | next head _ ih => exact ih (kept _ _ _ start head)

theorem Run.mono {other : S → L → S → Prop} (run : Run step s ls t)
    (weaker : ∀ s l t, step s l t → other s l t) : Run other s ls t := by
  induction run with
  | stay => exact .stay _
  | next head _ ih => exact .next (weaker _ _ _ head) ih

/-- A run that is computed. -/
theorem Run.of_foldlM {f : S → L → Option S} (done : ls.foldlM f s = some t) :
    Run (fun s l t => f s l = some t) s ls t := by
  induction ls generalizing s with
  | nil =>
    cases done
    exact .stay _
  | cons l ls ih =>
    obtain ⟨next, head, rest⟩ := Option.bind_eq_some_iff.mp done
    exact .next head (ih rest)

/-- Under an invariant the steps of a run can be judged one at a time. -/
theorem Run.judged {Inv : S → Prop} (run : Run (Only step P) s ls t)
    (kept : ∀ s l t, Inv s → step s l t → P s l t → Q s l t ∧ Inv t) (start : Inv s) :
    Run (Only step Q) s ls t := by
  induction run with
  | stay s => exact .stay s
  | next head _ ih =>
    obtain ⟨holds, still⟩ := kept _ _ _ start head.1 head.2
    exact .next ⟨head.1, holds⟩ (ih still)

/-- Where one step meets `P` exactly when it meets `Q`, so does a whole run, if
the steps that do keep the invariant. -/
theorem Run.judged_iff (Inv : S → Prop)
    (same : ∀ s l t, Inv s → step s l t → (P s l t ↔ Q s l t))
    (kept : ∀ s l t, Inv s → step s l t → Q s l t → Inv t) (start : Inv s) :
    Run (Only step P) s ls t ↔ Run (Only step Q) s ls t := by
  constructor
  · intro run
    apply run.judged ?_ start
    intro s l t inv taken holds
    have meets := (same s l t inv taken).mp holds
    exact ⟨meets, kept s l t inv taken meets⟩
  · intro run
    apply run.judged ?_ start
    intro s l t inv taken holds
    exact ⟨(same s l t inv taken).mpr holds, kept s l t inv taken holds⟩

end ImxTest.Lib.Runs
