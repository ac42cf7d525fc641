import Mathlib.Data.List.Basic
import Mathlib.Order.Lattice
import Mathlib.Tactic.Common

/-! Cutting a line at marks. A scan meets marks in increasing order, some of
them opening a frame. A piece is cut off when a second frame mark is met, and
the cut lies at the first mark after the frame mark the piece already has. The
automaton below decides as it reads; `cut_spans` gives the cuts in closed form. -/
namespace ImxTest.Lib.Cut

variable {α : Type}

structure Mark (α : Type) where
  pos : α
  frame : Bool
deriving DecidableEq, Repr

/-- What the scan remembers of the piece it is in: nothing begun, begun without
a frame mark, with a frame mark last read, or with a place to cut at. -/
inductive Phase (α : Type) where
  | idle
  | header (start : α)
  | framed (start : α)
  | closed (start stop : α)
deriving DecidableEq, Repr

/-- One mark: the next phase and the piece cut off, if any. -/
def Phase.next : Phase α → Mark α → Phase α × Option (α × α)
  | .idle, m => (if m.frame then .framed m.pos else .header m.pos, none)
  | .header a, m => (if m.frame then .framed a else .header a, none)
  | .framed a, m => if m.frame then (.framed m.pos, some (a, m.pos)) else (.closed a m.pos, none)
  | .closed a b, m => if m.frame then (.framed b, some (a, b)) else (.closed a b, none)

def Phase.finish (size : α) : Phase α → List (α × α)
  | .idle => []
  | .header a | .framed a | .closed a _ => [(a, size)]

/-- The pieces cut off while the marks are read, and the phase reached. -/
def advance : Phase α → List (Mark α) → Phase α × List (α × α)
  | p, [] => (p, [])
  | p, m :: ms =>
    ((advance (p.next m).1 ms).1, (p.next m).2.toList ++ (advance (p.next m).1 ms).2)

/-- All pieces, the rest up to `size` included. -/
def cutFrom (size : α) (p : Phase α) (ms : List (Mark α)) : List (α × α) :=
  (advance p ms).2 ++ (advance p ms).1.finish size

def cut (size : α) (ms : List (Mark α)) : List (α × α) := cutFrom size .idle ms

@[simp] theorem cutFrom_nil (size : α) (p : Phase α) : cutFrom size p [] = p.finish size := rfl

theorem cutFrom_cons (size : α) (p : Phase α) (m : Mark α) (ms : List (Mark α)) :
    cutFrom size p (m :: ms) = (p.next m).2.toList ++ cutFrom size (p.next m).1 ms := by
  simp only [cutFrom, advance, List.append_assoc]

/-- The successor of each frame mark that another frame mark follows. -/
def cutPoints : List (Mark α) → List α
  | m :: m' :: ms =>
    if m.frame && (m' :: ms).any Mark.frame then m'.pos :: cutPoints (m' :: ms)
    else cutPoints (m' :: ms)
  | _ => []

/-- The pieces between consecutive points. -/
def spans : α → List α → α → List (α × α)
  | a, [], b => [(a, b)]
  | a, c :: cs, b => (a, c) :: spans c cs b

@[simp] theorem spans_length (a b : α) (cs : List α) : (spans a cs b).length = cs.length + 1 := by
  induction cs generalizing a with
  | nil => rfl
  | cons c cs ih => simp only [spans, List.length_cons, ih]

/-- The cut points still to come right after a frame mark. -/
private def afterFrame : List (Mark α) → List α
  | [] => []
  | m :: ms => if (m :: ms).any Mark.frame then m.pos :: cutPoints (m :: ms) else []

theorem cutPoints_frameless {ms : List (Mark α)} (none : ms.any Mark.frame = false) :
    cutPoints ms = [] := by
  induction ms with
  | nil => rfl
  | cons m ms ih =>
    simp only [List.any_cons, Bool.or_eq_false_iff] at none
    cases ms with
    | nil => rfl
    | cons m' ms => simp only [cutPoints, none.1, Bool.false_and, Bool.false_eq_true, if_false, ih none.2]

private theorem cutPoints_frame {m : Mark α} (frame : m.frame = true) (ms : List (Mark α)) :
    cutPoints (m :: ms) = afterFrame ms := by
  cases ms with
  | nil => rfl
  | cons m' ms =>
    cases hs : (m' :: ms).any Mark.frame
    · simp only [cutPoints, afterFrame, frame, hs, Bool.and_false, Bool.false_eq_true, if_false,
        cutPoints_frameless hs]
    · simp only [cutPoints, afterFrame, frame, hs, Bool.and_self, if_true]

private theorem cutPoints_plain {m : Mark α} (plain : m.frame = false) (ms : List (Mark α)) :
    cutPoints (m :: ms) = cutPoints ms := by
  cases ms with
  | nil => rfl
  | cons m' ms => simp only [cutPoints, plain, Bool.false_and, Bool.false_eq_true, if_false]

private theorem afterFrame_any {m : Mark α} {ms : List (Mark α)}
    (more : (m :: ms).any Mark.frame = true) : afterFrame (m :: ms) = m.pos :: cutPoints (m :: ms) := by
  simp only [afterFrame, more, if_true]

/-- The automaton from any phase, in closed form. -/
private theorem cutFrom_spans (size a b : α) (ms : List (Mark α)) :
    cutFrom size (.header a) ms = spans a (cutPoints ms) size ∧
    cutFrom size (.framed a) ms = spans a (afterFrame ms) size ∧
    cutFrom size (.closed a b) ms =
      spans a (if ms.any Mark.frame then b :: cutPoints ms else []) size := by
  induction ms generalizing a b with
  | nil => exact ⟨rfl, rfl, rfl⟩
  | cons m ms ih =>
    cases h : m.frame
    · have any : (m :: ms).any Mark.frame = ms.any Mark.frame := by simp [h]
      simp only [cutFrom_cons, cutPoints_plain h, Phase.next, h, any, afterFrame, Bool.false_eq_true,
        if_false, Option.toList_none, List.nil_append]
      exact ⟨(ih a b).1, (ih a m.pos).2.2, (ih a b).2.2⟩
    · have any : (m :: ms).any Mark.frame = true := by simp [h]
      simp only [cutFrom_cons, afterFrame_any any, cutPoints_frame h, Phase.next, h, any, if_true,
        Option.toList_none, Option.toList_some, List.nil_append, List.singleton_append, spans]
      exact ⟨(ih a b).2.1, by rw [(ih m.pos b).2.1], by rw [(ih b b).2.1]⟩

theorem cut_spans (size : α) (m : Mark α) (ms : List (Mark α)) :
    cut size (m :: ms) = spans m.pos (cutPoints (m :: ms)) size := by
  cases h : m.frame
  · simp only [cut, cutFrom_cons, cutPoints_plain h, Phase.next, h, Bool.false_eq_true, if_false,
      Option.toList_none, List.nil_append]
    exact (cutFrom_spans size m.pos m.pos ms).1
  · simp only [cut, cutFrom_cons, cutPoints_frame h, Phase.next, h, if_true,
      Option.toList_none, List.nil_append]
    exact (cutFrom_spans size m.pos m.pos ms).2.1

@[simp] theorem cut_nil (size : α) : cut size [] = [] := rfl

theorem cutPoints_sublist (ms : List (Mark α)) :
    (cutPoints ms).Sublist (ms.tail.map Mark.pos) := by
  induction ms with
  | nil => exact .slnil
  | cons m ms ih =>
    cases ms with
    | nil => exact .slnil
    | cons m' ms =>
      simp only [cutPoints, List.tail_cons, List.map_cons] at ih ⊢
      split
      · exact ih.cons_cons _
      · exact ih.cons _

def frames (ms : List (Mark α)) : Nat := ms.countP Mark.frame

theorem cutPoints_length {ms : List (Mark α)} : (cutPoints ms).length = frames ms - 1 := by
  induction ms with
  | nil => rfl
  | cons m ms ih =>
    cases ms with
    | nil => cases h : m.frame <;> simp [cutPoints, frames, h]
    | cons m' ms =>
      have more : (m' :: ms).any Mark.frame = true ↔ 0 < frames (m' :: ms) := by
        simp [frames, List.countP_pos_iff]
      have count : frames (m :: m' :: ms) = frames (m' :: ms) + if m.frame then 1 else 0 := by
        simp only [frames, List.countP_cons]
      rw [cutPoints, count]
      cases h : m.frame <;> cases hs : (m' :: ms).any Mark.frame
      all_goals simp only [hs, Bool.false_eq_true, false_iff, true_iff] at more
      all_goals simp only [Bool.and_false, Bool.and_true, Bool.and_self,
        Bool.false_eq_true, if_false, if_true, List.length_cons, ih]
      all_goals omega

theorem cut_length (size : α) (m : Mark α) (ms : List (Mark α)) :
    (cut size (m :: ms)).length = max 1 (frames (m :: ms)) := by
  rw [cut_spans, spans_length, cutPoints_length]
  omega

private theorem frames_split {ms : List (Mark α)} {k : Nat} (less : k < frames ms) :
    ∃ first m after, ms = first ++ m :: after ∧ m.frame = true ∧ frames first = k := by
  induction ms generalizing k with
  | nil => simp [frames] at less
  | cons m ms ih =>
    cases h : m.frame
    · have count : frames (m :: ms) = frames ms := by simp [frames, h]
      obtain ⟨first, n, after, rfl, frame, here⟩ := ih (count ▸ less)
      exact ⟨m :: first, n, after, rfl, frame, by simpa [frames, h] using here⟩
    · cases k with
      | zero => exact ⟨[], m, ms, rfl, h, rfl⟩
      | succ k =>
        have count : frames (m :: ms) = frames ms + 1 := by simp [frames, h]
        obtain ⟨first, n, after, rfl, frame, here⟩ := ih (k := k) (by omega)
        exact ⟨m :: first, n, after, rfl, frame, by simpa [frames, h] using here⟩

section Order
variable [LinearOrder α]

/-- Non-empty pieces, each starting where the one before it ends. -/
def Tiles : α → List (α × α) → α → Prop
  | a, [], b => a = b
  | a, s :: rest, b => s.1 = a ∧ s.1 < s.2 ∧ Tiles s.2 rest b

/-- Marks in strictly increasing order before the end of the line. -/
def Ordered (size : α) (ms : List (Mark α)) : Prop :=
  ms.Pairwise (fun m n => m.pos < n.pos) ∧ ∀ m ∈ ms, m.pos < size

theorem Ordered.tail {size : α} {m : Mark α} {ms : List (Mark α)}
    (ordered : Ordered size (m :: ms)) : Ordered size ms :=
  ⟨ordered.1.of_cons, fun n mem => ordered.2 n (List.mem_cons_of_mem _ mem)⟩

theorem spans_tiles {a b : α} {cs : List α} (sorted : cs.Pairwise (· < ·))
    (above : ∀ c ∈ cs, a < c) (below : ∀ c ∈ cs, c < b) (proper : a < b) :
    Tiles a (spans a cs b) b := by
  induction cs generalizing a with
  | nil => exact ⟨rfl, proper, rfl⟩
  | cons c cs ih =>
    refine ⟨rfl, above c (by simp), ih sorted.of_cons ?_ ?_ (below c (by simp))⟩
    · exact fun d mem => List.rel_of_pairwise_cons sorted mem
    · exact fun d mem => below d (List.mem_cons_of_mem _ mem)

theorem cut_tiles {size : α} {m : Mark α} {ms : List (Mark α)}
    (ordered : Ordered size (m :: ms)) : Tiles m.pos (cut size (m :: ms)) size := by
  have sub := cutPoints_sublist (m :: ms)
  have mem : ∀ c ∈ cutPoints (m :: ms), ∃ n ∈ ms, n.pos = c := fun c hc => by
    simpa using sub.subset hc
  rw [cut_spans]
  apply spans_tiles
  · exact (List.pairwise_map.mpr ordered.1.of_cons).sublist sub
  · intro c hc
    obtain ⟨n, hn, rfl⟩ := mem c hc
    exact List.rel_of_pairwise_cons ordered.1 hn
  · intro c hc
    obtain ⟨n, hn, rfl⟩ := mem c hc
    exact ordered.2 n (List.mem_cons_of_mem _ hn)
  · exact ordered.2 m (by simp)

theorem cut_tiling {size : α} {ms : List (Mark α)} (ordered : Ordered size ms) :
    ∃ a, Tiles a (cut size ms) size := by
  cases ms with
  | nil => exact ⟨size, rfl⟩
  | cons m ms => exact ⟨m.pos, cut_tiles ordered⟩

theorem Tiles.le {a b : α} {ps : List (α × α)} (tiles : Tiles a ps b) : a ≤ b := by
  induction ps generalizing a with
  | nil => exact le_of_eq tiles
  | cons s ps ih => exact tiles.1 ▸ tiles.2.1.le.trans (ih tiles.2.2)

theorem Tiles.bounds {a b : α} {ps : List (α × α)} (tiles : Tiles a ps b)
    {s : α × α} (mem : s ∈ ps) : a ≤ s.1 ∧ s.1 < s.2 ∧ s.2 ≤ b := by
  induction ps generalizing a with
  | nil => contradiction
  | cons t ps ih =>
    rcases List.mem_cons.mp mem with rfl | mem
    · exact ⟨tiles.1.ge, tiles.2.1, tiles.2.2.le⟩
    · obtain ⟨low, proper, high⟩ := ih tiles.2.2 mem
      exact ⟨tiles.1 ▸ tiles.2.1.le.trans low, proper, high⟩

/-- Two pieces at different places of the list do not overlap. -/
theorem Tiles.joined {a b : α} {ps : List (α × α)} (tiles : Tiles a ps b)
    {k : Nat} {s t : α × α} (at_ : ps[k]? = some s) (next : ps[k + 1]? = some t) : s.2 = t.1 := by
  induction ps generalizing a k with
  | nil => simp at at_
  | cons p ps ih =>
    cases k with
    | succ k => exact ih tiles.2.2 at_ next
    | zero =>
      obtain rfl : p = s := Option.some.inj at_
      cases ps with
      | nil => simp at next
      | cons q ps =>
        obtain rfl : q = t := Option.some.inj next
        exact tiles.2.2.1.symm

theorem Tiles.disjoint {a b : α} {ps : List (α × α)} (tiles : Tiles a ps b)
    {i j : Nat} {s t : α × α} (hi : ps[i]? = some s) (hj : ps[j]? = some t) (less : i < j) :
    s.2 ≤ t.1 := by
  induction ps generalizing a i j with
  | nil => simp at hi
  | cons p ps ih =>
    cases j with
    | zero => omega
    | succ j =>
      rw [List.getElem?_cons_succ] at hj
      cases i with
      | zero =>
        cases Option.some.inj hi
        exact (tiles.2.2.bounds (List.mem_of_getElem? hj)).1
      | succ i => exact ih tiles.2.2 hi hj (by omega)

/-- A point inside two pieces puts both at the same place. -/
theorem Tiles.index_unique {a b : α} {ps : List (α × α)} (tiles : Tiles a ps b)
    {i j : Nat} {s t : α × α} (hi : ps[i]? = some s) (hj : ps[j]? = some t) {x : α}
    (inS : s.1 ≤ x ∧ x < s.2) (inT : t.1 ≤ x ∧ x < t.2) : i = j := by
  rcases Nat.lt_trichotomy i j with less | same | more
  · exact absurd (tiles.disjoint hi hj less) (not_le.mpr (inT.1.trans_lt inS.2))
  · exact same
  · exact absurd (tiles.disjoint hj hi more) (not_le.mpr (inS.1.trans_lt inT.2))

/-- Where the piece with a given frame mark ends. -/
def stopAfter (size : α) (after : List (Mark α)) : α :=
  if after.any Mark.frame then (after.head?.map Mark.pos).getD size else size

private theorem spans_frame {size a : α} {first after : List (Mark α)} {m : Mark α}
    (frame : m.frame = true) (ordered : Ordered size (first ++ m :: after))
    (below : ∀ n ∈ first ++ [m], a ≤ n.pos) :
    ∃ s, (spans a (cutPoints (first ++ m :: after)) size)[frames first]? = some s ∧
      s.1 ≤ m.pos ∧ m.pos < s.2 ∧ s.2 = stopAfter size after := by
  induction first generalizing a with
  | nil =>
    have bound := ordered.2 m (by simp)
    have start := below m (by simp)
    cases after with
    | nil => exact ⟨(a, size), rfl, start, bound, rfl⟩
    | cons n after =>
      cases h : (n :: after).any Mark.frame
      · refine ⟨(a, size), ?_, start, bound, by simp only [stopAfter, h]; rfl⟩
        simp only [List.nil_append, cutPoints_frame frame, afterFrame, h]
        rfl
      · refine ⟨(a, n.pos), ?_, start, ?_, by simp only [stopAfter, h]; rfl⟩
        · rw [List.nil_append, cutPoints_frame frame, afterFrame_any h]
          rfl
        · exact List.rel_of_pairwise_cons ordered.1 (by simp)
  | cons x first ih =>
    obtain ⟨n, rest, shape⟩ : ∃ n rest, first ++ m :: after = n :: rest := by
      cases first <;> exact ⟨_, _, rfl⟩
    have startsAt : ∀ k ∈ first ++ [m], n.pos ≤ k.pos := by
      have sorted := ordered.tail.1
      intro k mem
      have inside : k ∈ n :: rest := by
        rw [← shape]
        simp only [List.mem_append, List.mem_cons, List.not_mem_nil, or_false] at mem ⊢
        exact mem.imp_right .inl
      rw [List.append_eq, shape] at sorted
      rcases List.mem_cons.mp inside with rfl | inside
      · exact le_refl _
      · exact (List.rel_of_pairwise_cons sorted inside).le
    have more : (first ++ m :: after).any Mark.frame = true := by simp [frame]
    rw [List.cons_append]
    cases h : x.frame
    · have count : frames (x :: first) = frames first := by simp [frames, h]
      rw [cutPoints_plain h, count]
      exact ih ordered.tail fun k mem => below k (List.mem_cons_of_mem _ mem)
    · have count : frames (x :: first) = frames first + 1 := by simp [frames, h]
      have points : afterFrame (first ++ m :: after) =
          n.pos :: cutPoints (first ++ m :: after) := by
        rw [shape] at more ⊢
        exact afterFrame_any more
      rw [cutPoints_frame h, count, points]
      exact ih ordered.tail startsAt

/-- The k-th frame mark lies in the k-th piece, which ends at the next mark
when another frame mark follows and at the end of the line otherwise. -/
theorem cut_frame {size : α} {first after : List (Mark α)} {m : Mark α}
    (frame : m.frame = true) (ordered : Ordered size (first ++ m :: after)) :
    ∃ s, (cut size (first ++ m :: after))[frames first]? = some s ∧
      s.1 ≤ m.pos ∧ m.pos < s.2 ∧ s.2 = stopAfter size after := by
  obtain ⟨n, rest, shape⟩ : ∃ n rest, first ++ m :: after = n :: rest := by
    cases first <;> exact ⟨_, _, rfl⟩
  have closed : cut size (first ++ m :: after) =
      spans n.pos (cutPoints (first ++ m :: after)) size := by rw [shape, cut_spans]
  rw [closed]
  apply spans_frame frame ordered
  intro k mem
  have inside : k ∈ n :: rest := by
    rw [← shape]
    simp only [List.mem_append, List.mem_cons, List.not_mem_nil, or_false] at mem ⊢
    exact mem.imp_right .inl
  have sorted := ordered.1
  rw [shape] at sorted
  rcases List.mem_cons.mp inside with rfl | inside
  · exact le_refl _
  · exact (List.rel_of_pairwise_cons sorted inside).le

/-- A piece that is not the last holds one frame mark, and ends at the mark
read right after it. -/
theorem cut_single {size : α} {ms : List (Mark α)} (ordered : Ordered size ms)
    {k : Nat} {s : α × α} (piece : (cut size ms)[k]? = some s)
    (more : k + 1 < (cut size ms).length) :
    ∃ first m n after, ms = first ++ m :: n :: after ∧ m.frame = true ∧ frames first = k ∧
      (s.1 ≤ m.pos ∧ m.pos < s.2) ∧ s.2 = n.pos ∧
      ∀ x ∈ first ++ n :: after, x.frame = true → ¬ (s.1 ≤ x.pos ∧ x.pos < s.2) := by
  obtain ⟨_, tiles⟩ := cut_tiling ordered
  have total : k + 1 < frames ms := by
    cases ms with
    | nil => simp at more
    | cons m₀ rest =>
      rw [cut_length] at more
      omega
  obtain ⟨first, m, after, split, frame, here⟩ := frames_split (Nat.lt_of_succ_lt total)
  obtain ⟨t, found, low, high, stop⟩ := cut_frame frame (split ▸ ordered)
  rw [← split, here, piece] at found
  cases Option.some.inj found
  have count : frames ms = frames first + 1 + frames after := by
    simp [split, frames, frame]
    omega
  obtain ⟨n, tail, rfl⟩ : ∃ n tail, after = n :: tail := by
    cases after with
    | nil =>
      have : frames ([] : List (Mark α)) = 0 := rfl
      omega
    | cons n tail => exact ⟨n, tail, rfl⟩
  have followed : (n :: tail).any Mark.frame = true := by
    have : 0 < frames (n :: tail) := by omega
    simpa [frames, List.countP_pos_iff] using this
  refine ⟨first, m, n, tail, split, frame, here, ⟨low, high⟩, ?_, ?_⟩
  · simpa [stopAfter, followed] using stop
  · intro x mem xframe inside
    -- the mark would lie in the piece of its own rank and in this one
    have other : ∃ before behind, ms = before ++ x :: behind ∧ frames before ≠ k := by
      rcases List.mem_append.mp mem with left | right
      · obtain ⟨before, behind, rfl⟩ := List.append_of_mem left
        refine ⟨before, behind ++ m :: n :: tail, by simp [split], ?_⟩
        simp [frames, xframe] at here
        simp only [frames]
        omega
      · obtain ⟨before, behind, eq⟩ := List.append_of_mem right
        refine ⟨first ++ m :: before, behind, by simp [split, eq], ?_⟩
        have : frames (first ++ m :: before) = frames first + 1 + frames before := by
          simp [frames, frame]
          omega
        omega
    obtain ⟨before, behind, eq, rank⟩ := other
    obtain ⟨t, found, lowT, highT, -⟩ := cut_frame xframe (eq ▸ ordered)
    rw [← eq] at found
    exact rank (tiles.index_unique found piece ⟨lowT, highT⟩ inside)

end Order
end ImxTest.Lib.Cut
