import ImxTest.Lib.Copy
import Mathlib.Data.List.GetD

/-! A memory of a fixed size read past its end, where it goes on at its beginning. -/
namespace ImxTest.Lib.Wrap
open Copy

variable {β : Type}

/-- `n` cells from `pos` on, around the end of a memory of this size. -/
def load (size : Nat) (mem : Nat → β) (pos n : Nat) : List β := span (fun a => mem (a % size)) pos n

def store (mem : Nat → β) (pos : Nat) (bs : List β) : Nat → β :=
  fun a => if a < pos then mem a else bs.getD (a - pos) (mem a)

variable {size pos m n : Nat} {mem : Nat → β} {bs : List β}

@[simp] theorem load_length : (load size mem pos n).length = n := span_length

theorem load_straight (fits : pos + n ≤ size) : load size mem pos n = span mem pos n := by
  apply span_eq_iff.mpr
  intro k inside
  rw [Nat.mod_eq_of_lt (by omega)]

theorem load_wrapped (last : pos + m = size) (fits : n ≤ size) :
    load size mem pos (m + n) = span mem pos m ++ span mem 0 n := by
  rw [load, span_append]
  refine congrArg₂ _ (load_straight (Nat.le_of_eq last)) (span_eq_iff.mpr ?_)
  intro k inside
  rw [last, Nat.zero_add, Nat.add_mod_left, Nat.mod_eq_of_lt (by omega)]

theorem span_store : span (store mem pos bs) pos bs.length = bs := by
  apply List.ext_getElem (by simp)
  intro k _ inside
  apply Option.some.inj
  rw [← List.getElem?_eq_getElem, span_getElem? inside, store, if_neg (by omega),
    Nat.add_sub_cancel_left, List.getD_eq_getElem _ _ inside]

theorem span_store_apart {a : Nat} (apart : a + n ≤ pos ∨ pos + bs.length ≤ a) :
    span (store mem pos bs) a n = span mem a n := by
  apply span_eq_iff.mpr
  intro k inside
  rw [store]
  split
  · rfl
  · exact List.getD_eq_default _ _ (by omega)

theorem load_store (fits : pos + bs.length ≤ size) :
    load size (store mem pos bs) pos bs.length = bs :=
  (load_straight fits).trans span_store

/-- What is stored up to the end and from the beginning on is read in one piece. -/
theorem load_store_around {more : List β} (last : pos + bs.length = size)
    (fits : more.length ≤ pos) :
    load size (store (store mem pos bs) 0 more) pos (bs.length + more.length) = bs ++ more := by
  rw [load_wrapped last (by omega), span_store, span_store_apart (.inr (by omega)), span_store]

end ImxTest.Lib.Wrap
