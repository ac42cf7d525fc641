import ImxTest.Lib.SpareSlot

/-! The ring of buffer indices that the display and the decoder share. -/
namespace ImxTest.Vpu
open Lib

def MAX_BUF_NUM : Nat := 32

def QUEUE_SIZE : Nat := MAX_BUF_NUM + 1

structure BufQueue where
  list : Nat → Nat
  head : Nat
  tail : Nat

def queueSize (q : BufQueue) : Nat :=
  if q.head ≤ q.tail then q.tail - q.head else q.tail + QUEUE_SIZE - q.head

namespace BufQueue

def isFull (q : BufQueue) : Bool := (q.tail + 1) % QUEUE_SIZE == q.head

def isEmpty (q : BufQueue) : Bool := q.tail == q.head

def store (q : BufQueue) (idx : Nat) : BufQueue := { q with list := Function.update q.list q.tail idx }

def advanceTail (q : BufQueue) : BufQueue := { q with tail := (q.tail + 1) % QUEUE_SIZE }

def advanceHead (q : BufQueue) : BufQueue := { q with head := (q.head + 1) % QUEUE_SIZE }

end BufQueue

/-- `none` where it returns -1. -/
def queueBuf (q : BufQueue) (idx : Nat) : Option BufQueue :=
  if q.isFull then none else some (q.store idx).advanceTail

/-- `none` where it returns -1. -/
def dequeueBuf (q : BufQueue) : Option (Nat × BufQueue) :=
  if q.isEmpty then none else some (q.list q.head, q.advanceHead)

/-! ## What it is for -/

inductive Action where
  | put (idx : Nat)
  | take (idx : Nat)

/-- One step of a queue that holds at most `capacity` indices. -/
inductive FifoStep (capacity : Nat) : List Nat → Option Action → List Nat → Prop where
  | stay (xs) : FifoStep capacity xs none xs
  | put {xs} (idx) (room : xs.length < capacity) : FifoStep capacity xs (some (.put idx)) (xs ++ [idx])
  | take (idx xs) : FifoStep capacity (idx :: xs) (some (.take idx)) xs

namespace BufQueue

/-- The indices in the ring, oldest first. -/
def contents (q : BufQueue) : List Nat := SpareSlot.held QUEUE_SIZE q.list q.head q.tail

/-- Both positions are in the ring. -/
structure Sound (q : BufQueue) : Prop where
  front : q.head < QUEUE_SIZE
  back : q.tail < QUEUE_SIZE

variable {q : BufQueue} {idx : Nat}

theorem contents_length (q : BufQueue) : q.contents.length = queueSize q := SpareSlot.held_length

theorem Sound.store (sound : q.Sound) : (q.store idx).Sound := ⟨sound.front, sound.back⟩

theorem Sound.advanceTail (sound : q.Sound) : q.advanceTail.Sound :=
  ⟨sound.front, Nat.mod_lt _ (Nat.succ_pos _)⟩

theorem Sound.advanceHead (sound : q.Sound) : q.advanceHead.Sound :=
  ⟨Nat.mod_lt _ (Nat.succ_pos _), sound.back⟩

/-- What is stored at the tail is not in the queue yet. -/
theorem Sound.contents_store (sound : q.Sound) : (q.store idx).contents = q.contents :=
  SpareSlot.held_update sound.front sound.back

theorem Sound.isFull_iff (sound : q.Sound) : q.isFull = true ↔ q.contents.length = MAX_BUF_NUM := by
  rw [isFull, beq_iff_eq, SpareSlot.full_iff sound.front sound.back, contents, SpareSlot.held_length,
    QUEUE_SIZE, Nat.succ_inj]

theorem isEmpty_eq_false : q.isEmpty = false ↔ q.tail ≠ q.head := by
  rw [isEmpty, beq_eq_false_iff_ne]

theorem contents_of_isEmpty (empty : q.isEmpty = true) : q.contents = [] := by
  rw [isEmpty, beq_iff_eq] at empty
  apply List.eq_nil_of_length_eq_zero
  rw [contents, SpareSlot.held_length, empty, SpareSlot.used_self]

theorem Sound.contents_advanceTail (sound : q.Sound) (room : q.contents.length < MAX_BUF_NUM) :
    q.advanceTail.contents = q.contents ++ [q.list q.tail] := by
  rw [contents, SpareSlot.held_length] at room
  have put : SpareSlot.held QUEUE_SIZE (Function.update q.list q.tail (q.list q.tail)) q.head
      ((q.tail + 1) % QUEUE_SIZE) = q.contents ++ [q.list q.tail] :=
    SpareSlot.held_put sound.front sound.back (show _ < QUEUE_SIZE from Nat.succ_lt_succ room)
  rwa [Function.update_eq_self] at put

theorem Sound.contents_advanceHead (sound : q.Sound) (filled : q.isEmpty = false) :
    q.contents = q.list q.head :: q.advanceHead.contents :=
  SpareSlot.held_take sound.front sound.back (isEmpty_eq_false.mp filled)

end BufQueue

variable {q q' : BufQueue} {idx : Nat}

/-- Without another thread between, it is a queue of `MAX_BUF_NUM` indices. -/
theorem queueBuf_refines (sound : q.Sound) (put : queueBuf q idx = some q') :
    q'.Sound ∧ FifoStep MAX_BUF_NUM q.contents (some (.put idx)) q'.contents := by
  rw [queueBuf] at put
  split at put
  case isTrue => cases put
  case isFalse open_ =>
    cases put
    have less := SpareSlot.used_lt sound.front sound.back
    have room : q.contents.length < MAX_BUF_NUM := by
      rw [sound.isFull_iff, BufQueue.contents_length] at open_
      rw [BufQueue.contents_length]
      exact Nat.lt_of_le_of_ne (Nat.le_of_lt_succ less) open_
    refine ⟨sound.store.advanceTail, ?_⟩
    rw [sound.store.contents_advanceTail (by rwa [sound.contents_store]), sound.contents_store]
    simp only [BufQueue.store, Function.update_self]
    exact .put idx room

theorem queueBuf_refuses (sound : q.Sound) : queueBuf q idx = none ↔ q.contents.length = MAX_BUF_NUM := by
  rw [← sound.isFull_iff, queueBuf]
  split <;> simp_all

theorem dequeueBuf_refines (sound : q.Sound) (take : dequeueBuf q = some (idx, q')) :
    q'.Sound ∧ FifoStep MAX_BUF_NUM q.contents (some (.take idx)) q'.contents := by
  rw [dequeueBuf] at take
  split at take
  case isTrue => cases take
  case isFalse filled =>
    cases take
    refine ⟨sound.advanceHead, ?_⟩
    rw [sound.contents_advanceHead (Bool.eq_false_iff.mpr filled)]
    exact .take _ _

end ImxTest.Vpu
