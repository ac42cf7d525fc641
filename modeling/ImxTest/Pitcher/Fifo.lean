import ImxTest.Pitcher.Queue

/-! What a queue is for: a list of values, oldest first, and the number of values
that can be pushed without asking for memory. -/
namespace ImxTest.Pitcher.Queue

open Lib.While

structure Fifo where
  items : List UInt64 := []
  spare : Nat := 0

namespace Fifo

def push (f : Fifo) (item : UInt64) (memory : Bool) : Ret × Fifo :=
  if 0 < f.spare ∨ memory = true then (.OK, { items := f.items ++ [item], spare := f.spare - 1 })
  else (.E_NO_MEMORY, f)

def pushAll (f : Fifo) (pushes : List (UInt64 × Bool)) : Fifo :=
  pushes.foldl (fun f push => (f.push push.1 push.2).2) f

/-- The place of a removed value is kept for later, up to sixteen. -/
def release (spare : Nat) : Nat := min 16 (spare + 1)

def pop (f : Fifo) : Ret × Option UInt64 × Fifo :=
  match f.items with
  | [] => (.E_EMPTY, none, f)
  | item :: rest => (.OK, some item, { items := rest, spare := release f.spare })

variable {σ : Type}

/-- A pass over the values: those behind it and those still before it. -/
structure Pass (σ : Type) where
  kept : List UInt64 := []
  rest : List UInt64
  spare : Nat
  state : σ
  visited : List UInt64 := []

def Pass.start (f : Fifo) (state : σ) : Pass σ := { rest := f.items, spare := f.spare, state }

def Pass.fifo (p : Pass σ) : Fifo := { items := p.kept ++ p.rest, spare := p.spare }

/-- The first of the values left is visited, and `rest` is behind it. -/
def Pass.visit (p : Pass σ) (item : UInt64) (rest : List UInt64) (answer : Reply σ) : Pass σ :=
  let pushed := pushAll { spare := p.spare } answer.pushes
  let kept := if answer.delete then p.kept else p.kept ++ [item]
  { kept := if rest.isEmpty then kept ++ pushed.items else kept
    -- what is pushed while the last value is visited is not visited any more
    rest := if rest.isEmpty then [] else rest ++ pushed.items
    spare := if answer.delete then release pushed.spare else pushed.spare
    state := answer.state
    visited := p.visited ++ [item] }

def Pass.turn (func : QueueCallback σ) (p : Pass σ) : Except Stray (Turn (Pass σ) (Pass σ)) :=
  match p.rest with
  | [] => .ok (.leave p)
  | item :: rest => .ok (.again (p.visit item rest (func item p.state)))

def Pass.findTurn (func : Option (QueueCallback σ)) (compare : UInt64 → UInt64 → Bool) (key : UInt64)
    (p : Pass σ) : Except Stray (Turn (Pass σ) (Ret × Pass σ)) :=
  match p.rest with
  | [] => .ok (.leave (.E_NOT_FOUND, p))
  | item :: rest =>
    if compare item key then .ok (.leave (.OK, p.visit item rest (reply func item p.state)))
    else .ok (.again { p with kept := p.kept ++ [item], rest })

/-- Every value is taken out, whatever the callback returns. -/
def taking (func : Option (QueueCallback σ)) : QueueCallback σ :=
  fun item state => { reply func item state with delete := true }

def enumerate (fuel : Nat) (f : Fifo) (func : Option (QueueCallback σ)) (state : σ) :
    Option (Except Stray (Pass σ)) :=
  match func with
  | none => some (.ok (Pass.start f state))
  | some func => run (Pass.turn func) fuel (Pass.start f state)

def clear (fuel : Nat) (f : Fifo) (func : Option (QueueCallback σ)) (state : σ) :
    Option (Except Stray (Pass σ)) :=
  run (Pass.turn (taking func)) fuel (Pass.start f state)

def find (fuel : Nat) (f : Fifo) (func : Option (QueueCallback σ)) (compare : UInt64 → UInt64 → Bool)
    (key : UInt64) (state : σ) : Option (Except Stray (Ret × Pass σ)) :=
  run (Pass.findTurn func compare key) fuel (Pass.start f state)

def call (fuel : Nat) (f : Fifo) : Op σ → Option (Except Stray (Out σ × Fifo))
  | .pushBack item memory =>
    let result := f.push item memory
    some (.ok (.pushed result.1, result.2))
  | .pop =>
    let result := f.pop
    some (.ok (.popped result.1 result.2.1, result.2.2))
  | .clear func state =>
    (f.clear fuel func state).map (Except.map fun p => (.walked p.visited p.state, p.fifo))
  | .enumerate func state =>
    (f.enumerate fuel func state).map (Except.map fun p => (.walked p.visited p.state, p.fifo))
  | .find func compare key state =>
    (f.find fuel func compare key state).map
      (Except.map fun result => (.found result.1 result.2.visited result.2.state, result.2.fifo))
  | .isEmpty => some (.ok (.empty f.items.isEmpty, f))
  | .count => some (.ok (.number f.items.length, f))

/-! ## What a list of values promises -/

theorem push_items (items : List UInt64) (spare : Nat) (item : UInt64) (memory : Bool) :
    (push ⟨items, spare⟩ item memory).2 =
      ⟨items ++ (push ⟨[], spare⟩ item memory).2.items, (push ⟨[], spare⟩ item memory).2.spare⟩ := by
  unfold push
  split
  · rfl
  · rw [List.append_nil]

theorem pushAll_items (items : List UInt64) (spare : Nat) (pushes : List (UInt64 × Bool)) :
    pushAll ⟨items, spare⟩ pushes =
      ⟨items ++ (pushAll ⟨[], spare⟩ pushes).items, (pushAll ⟨[], spare⟩ pushes).spare⟩ := by
  induction pushes generalizing items spare with
  | nil => simp only [pushAll, List.foldl_nil, List.append_nil]
  | cons first pushes ih =>
    have one := push_items items spare first.1 first.2
    have step (f : Fifo) : pushAll f (first :: pushes) = pushAll (f.push first.1 first.2).2 pushes := rfl
    rw [step, step, one, ih]
    generalize (push ⟨[], spare⟩ first.1 first.2).2 = after
    cases after with
    | mk added left =>
      rw [ih added left, List.append_assoc]

/-- The values that were there when a pass begins are visited first, in order. -/
theorem visits_all {func : QueueCallback σ} {fuel : Nat} {f : Fifo} {state : σ} {last : Pass σ}
    (ended : run (Pass.turn func) fuel (Pass.start f state) = some (.ok last)) :
    ∃ later, last.visited = f.items ++ later := by
  have kept : ∀ p p' : Pass σ, (∃ later, p.visited ++ p.rest = f.items ++ later) →
      Pass.turn func p = .ok (.again p') → ∃ later, p'.visited ++ p'.rest = f.items ++ later := by
    rintro p p' ⟨later, known⟩ next
    unfold Pass.turn at next
    split at next
    · cases next
    · next item rest here =>
      obtain rfl : p.visit item rest (func item p.state) = p' := by simpa using next
      rw [here] at known
      cases rest with
      | nil =>
        refine ⟨later, ?_⟩
        simpa only [Pass.visit, List.isEmpty_nil, if_true, List.append_nil] using known
      | cons second rest =>
        refine ⟨later ++ (pushAll { spare := p.spare } (func item p.state).pushes).items, ?_⟩
        rw [← List.append_assoc, ← known]
        simp [Pass.visit]
  obtain ⟨end_, ⟨later, known⟩, left⟩ := Ends.invariant ⟨fuel, ended⟩
    (fun p => ∃ later, p.visited ++ p.rest = f.items ++ later) kept ⟨[], by simp [Pass.start]⟩
  unfold Pass.turn at left
  split at left
  · next none_ =>
    obtain rfl : end_ = last := by simpa using left
    rw [none_, List.append_nil] at known
    exact ⟨later, known⟩
  · cases left

end Fifo

end ImxTest.Pitcher.Queue
