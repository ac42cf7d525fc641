import Mathlib.Data.List.Nodup
import Mathlib.Tactic.Common

/-! Doubly linked rings through list heads in memory. A head that is in no list
points to itself. `Path` walks from one head to another, and a list is a path
from its head back to it. -/
namespace ImxTest.Lib.Ring

variable {P : Type} [DecidableEq P]

structure Links (P : Type) where
  next : P → P
  prev : P → P

/-- `INIT_LIST_HEAD` -/
def init (l : Links P) (p : P) : Links P :=
  { next := Function.update l.next p p, prev := Function.update l.prev p p }

/-- `__list_add` -/
def add (l : Links P) (new prev next : P) : Links P :=
  { next := Function.update (Function.update l.next new next) prev new
    prev := Function.update (Function.update l.prev next new) new prev }

def addTail (l : Links P) (new head : P) : Links P := add l new (l.prev head) head

/-- `__list_del` -/
def del (l : Links P) (prev next : P) : Links P :=
  { next := Function.update l.next prev next, prev := Function.update l.prev next prev }

def delInit (l : Links P) (entry : P) : Links P := init (del l (l.prev entry) (l.next entry)) entry

def isEmpty (l : Links P) (head : P) : Bool := decide (l.next head = head)

def Path (l : Links P) : P → List P → P → Prop
  | a, [], b => l.next a = b ∧ l.prev b = a
  | a, x :: xs, b => l.next a = x ∧ l.prev x = a ∧ Path l x xs b

/-- The list at `head` holds these entries. -/
structure Holds (l : Links P) (head : P) (xs : List P) : Prop where
  path : Path l head xs head
  nodup : (head :: xs).Nodup

/-- In no list. -/
def Alone (l : Links P) (p : P) : Prop := l.next p = p ∧ l.prev p = p

variable {l m : Links P} {a b n p head : P} {xs ys : List P}

omit [DecidableEq P] in
theorem path_append : Path l a (xs ++ n :: ys) b ↔ Path l a xs n ∧ Path l n ys b := by
  induction xs generalizing a with
  | nil => simp only [List.nil_append, Path, and_assoc]
  | cons x xs ih => simp only [List.cons_append, Path, ih, and_assoc]

omit [DecidableEq P] in
/-- A path depends on the links forward from it and back to it only. -/
theorem Path.frame (path : Path l a xs b) (forward : ∀ p ∈ a :: xs, m.next p = l.next p)
    (back : ∀ p ∈ xs ++ [b], m.prev p = l.prev p) : Path m a xs b := by
  induction xs generalizing a with
  | nil => exact ⟨(forward a List.mem_cons_self).trans path.1, (back b List.mem_cons_self).trans path.2⟩
  | cons x xs ih =>
    refine ⟨(forward a List.mem_cons_self).trans path.1, (back x List.mem_cons_self).trans path.2.1, ?_⟩
    apply ih path.2.2
    · exact fun p mem => forward p (List.mem_cons_of_mem a mem)
    · exact fun p mem => back p (List.mem_cons_of_mem x mem)

omit [DecidableEq P] in
/-- The last place in front of `b` is on the path. -/
theorem Path.prev_mem (path : Path l a xs b) : l.prev b ∈ a :: xs := by
  induction xs generalizing a with
  | nil => exact path.2 ▸ List.mem_cons_self
  | cons x xs ih => exact List.mem_cons_of_mem a (ih path.2.2)

omit [DecidableEq P] in
theorem Path.next_mem (path : Path l a xs b) : l.next a ∈ xs ++ [b] := by
  cases xs with
  | nil => exact path.1 ▸ List.mem_cons_self
  | cons x xs => exact path.1 ▸ List.mem_cons_self

omit [DecidableEq P] in
theorem Holds.frame (holds : Holds l head xs) (forward : ∀ p ∈ head :: xs, m.next p = l.next p)
    (back : ∀ p ∈ head :: xs, m.prev p = l.prev p) : Holds m head xs := by
  refine ⟨holds.path.frame forward fun p mem => back p ?_, holds.nodup⟩
  rcases List.mem_append.mp mem with inside | last
  · exact List.mem_cons_of_mem head inside
  · exact List.mem_singleton.mp last ▸ List.mem_cons_self

theorem Holds.isEmpty (holds : Holds l head xs) : isEmpty l head = xs.isEmpty := by
  cases xs with
  | nil => exact decide_eq_true holds.path.1
  | cons x xs =>
    have differ : x ≠ head := fun same => (List.nodup_cons.mp holds.nodup).1 (same ▸ List.mem_cons_self)
    exact decide_eq_false fun same => differ (holds.path.1.symm.trans same)

theorem init_holds (l : Links P) (head : P) : Holds (init l head) head [] :=
  ⟨⟨Function.update_self .., Function.update_self ..⟩, List.nodup_singleton head⟩

theorem init_alone (l : Links P) (p : P) : Alone (init l p) p :=
  ⟨Function.update_self .., Function.update_self ..⟩

/-- What `init` leaves as it was. -/
theorem init_other {q : P} (other : q ≠ p) : (init l p).next q = l.next q ∧ (init l p).prev q = l.prev q :=
  ⟨Function.update_of_ne other .., Function.update_of_ne other ..⟩

/-! ## Adding an entry -/

theorem add_next {q : P} (new_ : q ≠ n) (prev_ : q ≠ a) : (add l n a b).next q = l.next q := by
  simp only [add, Function.update_of_ne prev_, Function.update_of_ne new_]

theorem add_prev {q : P} (new_ : q ≠ n) (next_ : q ≠ b) : (add l n a b).prev q = l.prev q := by
  simp only [add, Function.update_of_ne new_, Function.update_of_ne next_]

/-- The path to the new entry, when the walk from `a` to `b` is cut in front of `b`. -/
theorem Path.add (path : Path l a xs b) (nodup : (a :: xs).Nodup) (away : b ∉ xs) (new : n ∉ a :: xs) :
    Path (add l n (l.prev b) b) a xs n := by
  induction xs generalizing a with
  | nil =>
    rw [path.2]
    exact ⟨Function.update_self .., Function.update_self ..⟩
  | cons x xs ih =>
    have last := path.2.2.prev_mem
    rw [List.nodup_cons] at nodup
    have here : a ≠ l.prev b := fun same => nodup.1 (same ▸ last)
    have fresh : a ≠ n := fun same => new (same ▸ List.mem_cons_self)
    have fresh' : x ≠ n := fun same => new (same ▸ List.mem_cons_of_mem a List.mem_cons_self)
    have short : x ≠ b := fun same => away (same ▸ List.mem_cons_self)
    refine ⟨(add_next fresh here).trans path.1, (add_prev fresh' short).trans path.2.1, ?_⟩
    apply ih path.2.2 nodup.2
    · exact fun mem => away (List.mem_cons_of_mem x mem)
    · exact fun mem => new (List.mem_cons_of_mem a mem)

theorem Holds.addTail (holds : Holds l head xs) (new : n ∉ head :: xs) :
    Holds (addTail l n head) head (xs ++ [n]) := by
  have away := (List.nodup_cons.mp holds.nodup).1
  have last := holds.path.prev_mem
  have differ : n ≠ l.prev head := fun same => new (same ▸ last)
  have outside : head ≠ n := fun same => new (same ▸ List.mem_cons_self)
  constructor
  · rw [path_append]
    refine ⟨holds.path.add holds.nodup away new, ?_, ?_⟩
    · simp only [Ring.addTail, Ring.add, Function.update_of_ne differ, Function.update_self]
    · simp only [Ring.addTail, Ring.add, Function.update_of_ne outside, Function.update_self]
  · rw [← List.cons_append, List.nodup_append]
    refine ⟨holds.nodup, List.nodup_singleton n, ?_⟩
    rintro p mem q single rfl
    exact new (List.mem_singleton.mp single ▸ mem)

/-- A list without the new entry and apart from the one added to stays as it is. -/
theorem Holds.addTail_apart {other : P} (holds : Holds l head xs) (listed : Holds l other ys)
    (apart : ∀ p ∈ head :: xs, p ∉ other :: ys) (new : n ∉ head :: xs) :
    Holds (Ring.addTail l n other) head xs := by
  have last := listed.path.prev_mem
  apply holds.frame
  · intro p mem
    apply add_next
    · exact fun same => new (same ▸ mem)
    · exact fun same => apart p mem (same ▸ last)
  · intro p mem
    apply add_prev
    · exact fun same => new (same ▸ mem)
    · exact fun same => apart p mem (same ▸ List.mem_cons_self)

theorem Alone.addTail {other : P} (alone : Alone l p) (listed : Holds l other ys)
    (apart : p ∉ other :: ys) (differ : p ≠ n) : Alone (Ring.addTail l n other) p := by
  have last := listed.path.prev_mem
  constructor
  · exact (add_next differ fun same => apart (same ▸ last)).trans alone.1
  · exact (add_prev differ fun same => apart (same ▸ List.mem_cons_self)).trans alone.2

/-! ## Taking an entry out -/

theorem delInit_next {q : P} (entry : q ≠ n) (before : q ≠ l.prev n) :
    (delInit l n).next q = l.next q :=
  (Function.update_of_ne entry ..).trans (Function.update_of_ne before ..)

theorem delInit_prev {q : P} (entry : q ≠ n) (after : q ≠ l.next n) :
    (delInit l n).prev q = l.prev q :=
  (Function.update_of_ne entry ..).trans (Function.update_of_ne after ..)

theorem delInit_alone (l : Links P) (n : P) : Alone (delInit l n) n := init_alone ..

theorem Path.delInit (before : Path l a xs n) (after : Path l n ys b)
    (nodup : (a :: xs ++ n :: ys).Nodup) (away : b ∉ xs ++ n :: ys) :
    Path (delInit l n) a (xs ++ ys) b := by
  induction xs generalizing a with
  | cons x xs ih =>
    have last := before.2.2.prev_mem
    simp only [List.cons_append, List.nodup_cons] at nodup
    have here : a ≠ l.prev n := by
      intro same
      exact nodup.1 (same ▸ List.mem_append_left (n :: ys) last)
    have entry : a ≠ n := by
      rintro rfl
      exact nodup.1 (List.mem_cons_of_mem x (List.mem_append_right xs List.mem_cons_self))
    have first : x ≠ n := by
      rintro rfl
      exact nodup.2.1 (List.mem_append_right xs List.mem_cons_self)
    have behind : x ≠ l.next n := by
      intro same
      rcases List.mem_append.mp after.next_mem with inside | end_
      · exact nodup.2.1 (same ▸ List.mem_append_right xs (List.mem_cons_of_mem n inside))
      · exact away (List.mem_singleton.mp end_ ▸ same ▸ List.mem_cons_self)
    refine ⟨(delInit_next entry here).trans before.1, (delInit_prev first behind).trans before.2.1, ?_⟩
    apply ih before.2.2
    · exact List.nodup_cons.mpr nodup.2
    · exact fun mem => away (List.mem_cons_of_mem x mem)
  | nil =>
    simp only [List.nil_append, List.cons_append, List.nodup_cons] at nodup away ⊢
    have entry : a ≠ n := by
      rintro rfl
      exact nodup.1 List.mem_cons_self
    have last : b ≠ n := by
      rintro rfl
      exact away List.mem_cons_self
    have prev : l.prev n = a := before.2
    cases ys with
    | nil =>
      constructor
      · simp only [Ring.delInit, Ring.init, Ring.del, prev, after.1, Function.update_of_ne entry,
          Function.update_self]
      · simp only [Ring.delInit, Ring.init, Ring.del, prev, after.1, Function.update_of_ne last,
          Function.update_self]
    | cons y ys =>
      have first : y ≠ n := by
        rintro rfl
        exact nodup.2.1 List.mem_cons_self
      have next : l.next n = y := after.1
      refine ⟨?_, ?_, ?_⟩
      · simp only [Ring.delInit, Ring.init, Ring.del, prev, next, Function.update_of_ne entry,
          Function.update_self]
      · simp only [Ring.delInit, Ring.init, Ring.del, prev, next, Function.update_of_ne first,
          Function.update_self]
      · apply after.2.2.frame
        · intro p mem
          apply delInit_next
          · rintro rfl
            exact nodup.2.1 mem
          · rw [prev]
            rintro rfl
            exact nodup.1 (List.mem_cons_of_mem n mem)
        · intro p mem
          rcases List.mem_append.mp mem with inside | end_
          · apply delInit_prev
            · rintro rfl
              exact nodup.2.1 (List.mem_cons_of_mem y inside)
            · rw [next]
              rintro rfl
              exact (List.nodup_cons.mp nodup.2.2).1 inside
          · obtain rfl := List.mem_singleton.mp end_
            apply delInit_prev last
            rw [next]
            rintro rfl
            exact away (List.mem_cons_of_mem n List.mem_cons_self)

theorem Holds.delInit (holds : Holds l head (xs ++ n :: ys)) : Holds (delInit l n) head (xs ++ ys) := by
  obtain ⟨before, after⟩ := path_append.mp holds.path
  have outside := (List.nodup_cons.mp holds.nodup).1
  constructor
  · exact before.delInit after (by rw [List.cons_append]; exact holds.nodup) outside
  · exact holds.nodup.sublist (((List.sublist_cons_self n ys).append_left xs).cons_cons head)

omit [DecidableEq P] in
/-- The neighbours of an entry are in its list. -/
theorem Holds.near (holds : Holds l head (xs ++ n :: ys)) :
    l.prev n ∈ head :: (xs ++ n :: ys) ∧ l.next n ∈ head :: (xs ++ n :: ys) := by
  obtain ⟨before, after⟩ := path_append.mp holds.path
  constructor
  · rcases List.mem_cons.mp before.prev_mem with first | inside
    · exact first ▸ List.mem_cons_self
    · exact List.mem_cons_of_mem head (List.mem_append_left _ inside)
  · rcases List.mem_append.mp after.next_mem with inside | last
    · exact List.mem_cons_of_mem head (List.mem_append_right xs (List.mem_cons_of_mem n inside))
    · exact List.mem_singleton.mp last ▸ List.mem_cons_self

theorem Holds.delInit_apart {other : P} {zs : List P} (holds : Holds l other zs)
    (listed : Holds l head (xs ++ n :: ys)) (apart : ∀ p ∈ other :: zs, p ∉ head :: (xs ++ n :: ys)) :
    Holds (Ring.delInit l n) other zs := by
  have inside : n ∈ head :: (xs ++ n :: ys) :=
    List.mem_cons_of_mem head (List.mem_append_right xs List.mem_cons_self)
  obtain ⟨before, after⟩ := listed.near
  apply holds.frame
  · intro p mem
    apply delInit_next
    · exact fun same => apart p mem (same ▸ inside)
    · exact fun same => apart p mem (same ▸ before)
  · intro p mem
    apply delInit_prev
    · exact fun same => apart p mem (same ▸ inside)
    · exact fun same => apart p mem (same ▸ after)

theorem Alone.delInit (alone : Alone l p) (listed : Holds l head (xs ++ n :: ys))
    (apart : p ∉ head :: (xs ++ n :: ys)) : Alone (Ring.delInit l n) p := by
  have inside : n ∈ head :: (xs ++ n :: ys) :=
    List.mem_cons_of_mem head (List.mem_append_right xs List.mem_cons_self)
  obtain ⟨before, after⟩ := listed.near
  constructor
  · apply (delInit_next ?_ ?_).trans alone.1
    · exact fun same => apart (same ▸ inside)
    · exact fun same => apart (same ▸ before)
  · apply (delInit_prev ?_ ?_).trans alone.2
    · exact fun same => apart (same ▸ inside)
    · exact fun same => apart (same ▸ after)

/-- Taking out what is in no list changes nothing. -/
theorem delInit_of_alone (alone : Alone l n) : delInit l n = l := by
  cases l with
  | mk next prev =>
    obtain ⟨forward, back⟩ := alone
    simp only at forward back
    simp only [delInit, init, del, forward, back, Function.update_idem]
    congr 1
    · exact (congrArg _ forward.symm).trans (Function.update_eq_self n next)
    · exact (congrArg _ back.symm).trans (Function.update_eq_self n prev)

end ImxTest.Lib.Ring
