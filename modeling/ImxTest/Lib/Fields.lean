import Mathlib.Tactic.Common

/-! Fields of a row of cells: each takes the cells from its first to its last, and is written as
a whole. -/
namespace ImxTest.Lib.Fields

structure Field where
  first : Nat
  last : Nat
  ordered : first ≤ last
deriving DecidableEq

namespace Field

def Has (f : Field) (k : Nat) : Prop := f.first ≤ k ∧ k ≤ f.last

instance (f : Field) (k : Nat) : Decidable (f.Has k) := inferInstanceAs (Decidable (_ ∧ _))

/-- They have no cell in common. -/
def Apart (f g : Field) : Prop := f.last < g.first ∨ g.last < f.first

instance (f g : Field) : Decidable (f.Apart g) := inferInstanceAs (Decidable (_ ∨ _))

theorem Apart.free {f g : Field} {k : Nat} (apart : f.Apart g) (has : f.Has k) : ¬g.Has k := by
  unfold Apart at apart
  unfold Has at has ⊢
  omega

theorem Apart.symm {f g : Field} (apart : f.Apart g) : g.Apart f := Or.symm apart

end Field

variable {α : Type}

/-- The cells of the field take the values, from the first one on. -/
def put (f : Field) (values cells : Nat → α) : Nat → α := fun k =>
  if f.Has k then values (k - f.first) else cells k

abbrev Write (α : Type) := Field × (Nat → α)

/-- The fields are written one after the other. -/
def puts (cells : Nat → α) (writes : List (Write α)) : Nat → α :=
  writes.foldl (fun cells write => put write.1 write.2 cells) cells

section Put
variable {f g : Field} {values other cells : Nat → α} {k : Nat}

theorem put_inside (has : f.Has k) : put f values cells k = values (k - f.first) := if_pos has

theorem put_outside (free : ¬f.Has k) : put f values cells k = cells k := if_neg free

theorem put_comm (apart : f.Apart g) :
    put g other (put f values cells) = put f values (put g other cells) := by
  funext k
  by_cases inside : f.Has k
  · rw [put_outside (apart.free inside), put_inside inside, put_inside inside]
  · rw [put_outside inside]
    by_cases beside : g.Has k
    · rw [put_inside beside, put_inside beside]
    · rw [put_outside beside, put_outside beside, put_outside inside]

end Put

section Puts
variable {cells : Nat → α} {writes after : List (Write α)} {write : Write α} {k : Nat}

theorem puts_cons : puts cells (write :: writes) = puts (put write.1 write.2 cells) writes := rfl

theorem puts_append : puts cells (writes ++ after) = puts (puts cells writes) after := List.foldl_append

theorem puts_free (free : ∀ write ∈ writes, ¬write.1.Has k) : puts cells writes k = cells k := by
  induction writes generalizing cells with
  | nil => rfl
  | cons write writes ih =>
    rw [puts_cons, ih fun later mem => free later (List.mem_cons_of_mem _ mem)]
    exact put_outside (free write List.mem_cons_self)

/-- The last one to write a field counts, when none behind it has a cell of the field. -/
theorem puts_last (apart : ∀ later ∈ after, write.1.Apart later.1) (has : write.1.Has k) :
    puts cells (writes ++ write :: after) k = write.2 (k - write.1.first) := by
  rw [puts_append, puts_cons, puts_free fun later mem => (apart later mem).free has]
  exact put_inside has

end Puts

end ImxTest.Lib.Fields
