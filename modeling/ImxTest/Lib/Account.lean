import ImxTest.Lib.Runs

/-! Accounts of runs. A state has a credit and may be in debt, a step spends and earns;
what a run spends is bounded by the credit it starts with and what it earns. -/
namespace ImxTest.Lib.Account
open Runs

variable {S L : Type}

def total (f : L → Nat) : List L → Nat
  | [] => 0
  | l :: ls => f l + total f ls

@[simp] theorem total_nil (f : L → Nat) : total f [] = 0 := rfl

@[simp] theorem total_cons (f : L → Nat) (l : L) (ls : List L) :
    total f (l :: ls) = f l + total f ls := rfl

theorem total_zero (ls : List L) : total (fun _ => 0) ls = 0 := by
  induction ls with
  | nil => rfl
  | cons l ls ih => rw [total_cons, ih]

theorem total_one (ls : List L) : total (fun _ => 1) ls = ls.length := by
  induction ls with
  | nil => rfl
  | cons l ls ih => rw [total_cons, ih, List.length_cons, Nat.add_comm]

/-- Under the invariant no step spends what is not there. -/
structure Balanced (step : S → L → S → Prop) (Inv : S → Prop) (spent earned : L → Nat)
    (credit debt : S → Nat) : Prop where
  kept : ∀ {s l t}, Inv s → step s l t → Inv t
  paid : ∀ {s l t}, Inv s → step s l t →
    spent l + credit t + debt s ≤ credit s + debt t + earned l

variable {step : S → L → S → Prop} {Inv : S → Prop} {spent earned : L → Nat}
  {credit debt : S → Nat} {s t : S} {ls : List L}

theorem Balanced.run (balanced : Balanced step Inv spent earned credit debt) (run : Run step s ls t)
    (start : Inv s) :
    total spent ls + credit t + debt s ≤ credit s + debt t + total earned ls := by
  induction run with
  | stay => simp
  | next head _ ih =>
    have first := balanced.paid start head
    have rest := ih (balanced.kept start head)
    simp only [total_cons]
    omega

/-- The steps of a run all of whose labels have a property. -/
theorem only_labels {P : L → Prop} (run : Run step s ls t) (all : ∀ l ∈ ls, P l) :
    Run (Only step fun _ l _ => P l) s ls t := by
  induction run with
  | stay => exact .stay _
  | next head _ ih =>
    exact .next ⟨head, all _ List.mem_cons_self⟩ (ih fun l mem => all l (List.mem_cons_of_mem _ mem))

end ImxTest.Lib.Account
