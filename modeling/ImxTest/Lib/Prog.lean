import Mathlib.Tactic.Common

/-! Programs that change a state and may break off; a state is left behind in
either case. Their triples have a condition for each of the two. -/
namespace ImxTest.Lib

/-- Nothing as the value stands for a program that broke off. -/
def Prog (S α : Type) := S → Option α × S

namespace Prog
variable {S α β : Type}

instance : Monad (Prog S) where
  pure a := fun s => (some a, s)
  bind m f := fun s =>
    match m s with
    | (some a, t) => f a t
    | (none, t) => (none, t)

def stop : Prog S α := fun s => (none, s)

def get : Prog S S := fun s => (some s, s)

def modify (f : S → S) : Prog S Unit := fun s => (some (), f s)

/-- From a state with `P` the program gives a value and a state with `Q`, or
breaks off in one with `E`. -/
def Triple (P : S → Prop) (m : Prog S α) (Q : α → S → Prop) (E : S → Prop) : Prop :=
  ∀ s, P s →
    match m s with
    | (some a, t) => Q a t
    | (none, t) => E t

variable {P P' E E' : S → Prop} {Q Q' : α → S → Prop} {R : β → S → Prop} {m : Prog S α}
  {f : α → Prog S β}

theorem Triple.pure {a : α} (holds : ∀ s, P s → Q a s) : Triple P (pure a) Q E := holds

theorem Triple.stop (holds : ∀ s, P s → E s) : Triple P (stop : Prog S α) Q E := holds

theorem Triple.get {Q : S → S → Prop} (holds : ∀ s, P s → Q s s) : Triple P get Q E := holds

theorem Triple.modify {change : S → S} {Q : Unit → S → Prop} (holds : ∀ s, P s → Q () (change s)) :
    Triple P (modify change) Q E := holds

theorem Triple.bind (first : Triple P m Q E) (next : ∀ a, Triple (Q a) (f a) R E) :
    Triple P (m >>= f) R E := by
  intro s holds
  have done := first s holds
  simp only [Bind.bind]
  split at done
  next a t _ => exact next a t done
  next => exact done

theorem Triple.conseq (triple : Triple P m Q E) (pre : ∀ s, P' s → P s)
    (post : ∀ a s, Q a s → Q' a s) (broken : ∀ s, E s → E' s) : Triple P' m Q' E' := by
  intro s holds
  have done := triple s (pre s holds)
  split at done
  · exact post _ _ done
  · exact broken _ done

/-- What does not depend on the state is known throughout. -/
theorem Triple.known {fact : Prop} (triple : fact → Triple P m Q E) :
    Triple (fun s => P s ∧ fact) m Q E :=
  fun s holds => triple holds.2 s holds.1

/-- What a loop over a list keeps in each turn, it keeps. -/
theorem Triple.forM {ι : Type} {xs : List ι} {body : ι → Prog S Unit}
    (turn : ∀ x ∈ xs, Triple P (body x) (fun _ => P) E) : Triple P (xs.forM body) (fun _ => P) E := by
  induction xs with
  | nil => exact fun _ holds => holds
  | cons x xs ih =>
    refine Triple.bind (turn x List.mem_cons_self) fun _ => ?_
    exact ih fun y mem => turn y (List.mem_cons_of_mem x mem)

end Prog
end ImxTest.Lib
