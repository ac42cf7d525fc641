import ImxTest.Lib.Borders
import ImxTest.Lib.While
import ImxTest.Pitcher.Memory

/-! The search for a pattern in pitcher/parse.c. The counters are from -1 to a length, so that none
leaves an `int64_t`. -/
namespace ImxTest.Pitcher.Kmp
open Lib.Borders Lib.While

/-- An index into an array. -/
def read {α : Type} (xs : List α) (i : Int) : Except Outside α :=
  if 0 ≤ i then
    match xs[i.toNat]? with
    | some x => .ok x
    | none => .error .outside
  else .error .outside

def write (xs : List Int) (i v : Int) : Except Outside (List Int) :=
  if 0 ≤ i ∧ i < xs.length then .ok (xs.set i.toNat v) else .error .outside

/-- The first test of both loops: the second part is only made when the first fails. -/
def goesOn (xs p : List UInt8) (i j : Int) : Except Outside Bool :=
  if j = -1 then pure true
  else do
    let a ← read xs i
    let b ← read p j
    pure (a == b)

/-- The local variables of `get_kmp_next`. -/
structure Filling where
  k : Int
  j : Int
  next : List Int
deriving DecidableEq, Repr

def fillTurn (p : List UInt8) (size : Int) (s : Filling) : Except Outside (Turn Filling (List Int)) :=
  if s.j < size - 1 then do
    if ← goesOn p p s.j s.k then
      let next ← write s.next (s.j + 1) (s.k + 1)
      pure (.again ⟨s.k + 1, s.j + 1, next⟩)
    else
      let k ← read s.next s.k
      pure (.again { s with k })
  else pure (.leave s.next)

def getKmpNext (p : List UInt8) (next : List Int) (size : Int) (fuel : Nat) : ExceptT Outside Option (List Int) := do
  let next ← liftM (write next 0 (-1))
  loop (fillTurn p size) fuel ⟨-1, 0, next⟩

/-- The local variables of `kmp_search`. -/
structure Searching where
  i : Int
  j : Int
deriving DecidableEq, Repr

def searchTurn (text : List UInt8) (textLen : Int) (p : List UInt8) (pLen : Int) (next : List Int) (s : Searching) :
    Except Outside (Turn Searching Int) :=
  if s.i < textLen ∧ s.j < pLen then do
    if ← goesOn text p s.i s.j then pure (.again ⟨s.i + 1, s.j + 1⟩)
    else
      let j ← read next s.j
      pure (.again { s with j })
  else pure (.leave (if s.j = pLen then s.i - s.j else -1))

def kmpSearch (text : List UInt8) (textLen : Int) (p : List UInt8) (pLen : Int) (next : List Int) (fuel : Nat) :
    ExceptT Outside Option Int :=
  loop (searchTurn text textLen p pLen next) fuel ⟨0, 0⟩

/-! ## Accesses -/

section Accesses
variable {α : Type} {xs p : List UInt8} {next : List Int} {i j : Nat} {a b : UInt8} {v f : Int}

theorem read_some {xs : List α} {x : α} (there : xs[i]? = some x) : read xs i = .ok x := by
  unfold read
  rw [if_pos (Int.natCast_nonneg i), Int.toNat_natCast, there]

theorem write_inside (inside : i < next.length) : write next i v = .ok (next.set i v) := by
  unfold write
  rw [if_pos ⟨Int.natCast_nonneg i, by exact_mod_cast inside⟩, Int.toNat_natCast]

theorem goesOn_first {i : Int} : goesOn xs p i (-1) = .ok true := rfl

theorem goesOn_letters (first : xs[i]? = some a) (second : p[j]? = some b) : goesOn xs p i j = .ok (a == b) := by
  unfold goesOn
  rw [if_neg (by omega), read_some first, read_some second]
  rfl

/-- The first test, with a letter of the pattern or none. -/
theorem goesOn_cases {j : Int} (letter : xs[i]? = some a) (low : -1 ≤ j) (short : j < p.length) :
    (goesOn xs p i j = .ok true ∧ ∀ k : Nat, j = k → p[k]? = some a) ∨
      ∃ k : Nat, j = k ∧ goesOn xs p i j = .ok false ∧ p[k]? ≠ some a := by
  by_cases none_ : j = -1
  · rw [none_]
    exact .inl ⟨goesOn_first, fun k same => by omega⟩
  · obtain ⟨k, rfl⟩ : ∃ k : Nat, j = k := ⟨j.toNat, by omega⟩
    have there : p[k]? = some p[k] := List.getElem?_eq_getElem (by omega)
    have test := goesOn_letters letter there
    by_cases alike : a = p[k]
    · refine .inl ⟨by rw [test, ← alike, BEq.rfl], fun k' same => ?_⟩
      obtain rfl : k = k' := by omega
      rw [there, alike]
    · refine .inr ⟨k, rfl, by rw [test, beq_eq_false_iff_ne.mpr alike], fun same => ?_⟩
      rw [there] at same
      exact alike (Option.some.inj same).symm

end Accesses

/-! ## The table -/

section Table
variable {p : List UInt8} {next : List Int} {s t : Filling} {j : Nat}

/-- The entries are the longest borders of the beginnings of the pattern. -/
def Table (p : List UInt8) (table : List Int) : Prop := ∀ j < p.length, ∃ f, table[j]? = some f ∧ Failure p j f

/-- The entries up to `j` are there. -/
def Filled (p : List UInt8) (next : List Int) (j : Nat) : Prop :=
  ∀ i ≤ j, ∃ f, next[i]? = some f ∧ Failure p i f

/-- What holds at each test of the loop. -/
structure Fills (p : List UInt8) (s : Filling) (j : Nat) : Prop where
  at_ : s.j = j
  inside : j < p.length
  room : p.length ≤ s.next.length
  filled : Filled p s.next j
  below : s.k < j
  start : j = 0 → s.k = -1
  candidate : 0 < j → ∀ x, p[j]? = some x → Candidate p (p.take j).tail x s.k

theorem longest_nil (p : List UInt8) : Longest p [] 0 := ⟨matches_zero p [], fun _ here => here.le_length⟩

theorem tail_take {x : UInt8} (positive : 0 < j) (letter : p[j]? = some x) : (p.take (j + 1)).tail = (p.take j).tail ++ [x] := by
  have some_ : p.take j ≠ [] := by
    obtain ⟨inside, -⟩ := List.getElem?_eq_some_iff.mp letter
    rw [← List.length_pos_iff, List.length_take]
    omega
  rw [List.take_add_one, letter, Option.toList_some, List.tail_append_of_ne_nil some_]

/-- The letter goes on with the border. -/
theorem Fills.longest {x : UInt8} (fills : Fills p s j) (letter : p[j]? = some x)
    (next : ∀ k : Nat, s.k = k → p[k]? = some x) : Longest p (p.take (j + 1)).tail (s.k + 1).toNat := by
  rcases Nat.eq_zero_or_pos j with rfl | positive
  · have empty : (p.take (0 + 1)).tail = [] := by
      rw [List.take_add_one, letter]
      rfl
    rw [empty, fills.start rfl]
    exact longest_nil p
  · rw [tail_take positive letter]
    exact (fills.candidate positive x letter).hit next

theorem Filled.set {v : Int} (filled : Filled p next j) (inside : j + 1 < next.length) (failure : Failure p (j + 1) v) :
    Filled p (next.set (j + 1) v) (j + 1) := by
  intro i le
  rcases Nat.lt_or_eq_of_le le with less | rfl
  · obtain ⟨f, there, failure⟩ := filled i (Nat.le_of_lt_succ less)
    exact ⟨f, by rwa [List.getElem?_set_ne (Nat.ne_of_gt less)], failure⟩
  · exact ⟨v, List.getElem?_set_self inside, failure⟩

theorem Fills.low (fills : Fills p s j) : -1 ≤ s.k := by
  rcases Nat.eq_zero_or_pos j with zero | positive
  · exact (fills.start zero).ge
  · exact (fills.candidate positive _ (List.getElem?_eq_getElem fills.inside)).low

/-- One entry more. -/
theorem Fills.hit {x : UInt8} (fills : Fills p s j) (more : j + 1 < p.length) (letter : p[j]? = some x)
    (next : ∀ k : Nat, s.k = k → p[k]? = some x) :
    Fills p ⟨s.k + 1, s.j + 1, s.next.set (j + 1) (s.k + 1)⟩ (j + 1) := by
  have low := fills.low
  have below := fills.below
  have longest := fills.longest letter next
  have whole : ((s.k + 1).toNat : Int) = s.k + 1 := Int.toNat_of_nonneg (by omega)
  have room := fills.room
  constructor
  · rw [fills.at_]
    rfl
  · exact more
  · rwa [List.length_set]
  · exact fills.filled.set (by omega) (.inr ⟨_, Nat.succ_pos j, whole.symm, longest⟩)
  · dsimp only
    omega
  · nofun
  · intro _ x _
    exact whole ▸ longest.candidate x

/-- A shorter border. -/
theorem Fills.miss {x : UInt8} {k : Nat} {f : Int} (fills : Fills p s j) (same : s.k = k) (letter : p[j]? = some x)
    (other : p[k]? ≠ some x) (failure : Failure p k f) : Fills p { s with k := f } j := by
  have bounds := failure.bounds
  have below := fills.below
  refine ⟨fills.at_, fills.inside, fills.room, fills.filled, by dsimp only; omega, fun zero => ?_, fun positive y letter' => ?_⟩
  · have start := fills.start zero
    omega
  · obtain rfl := Option.some.inj (letter.symm.trans letter')
    have candidate := fills.candidate positive x letter
    rw [same] at candidate
    exact candidate.miss other failure

/-- A turn leaves with a whole table, or goes on with a longer or shorter border. -/
theorem Fills.turn (fills : Fills p s j) :
    (fillTurn p p.length s = .ok (.leave s.next) ∧ j + 1 = p.length) ∨
      ∃ t j', fillTurn p p.length s = .ok (.again t) ∧ Fills p t j' ∧ 2 * (j : Int) - s.k < 2 * j' - t.k := by
  have inside := fills.inside
  have at_ := fills.at_
  unfold fillTurn
  by_cases more : j + 1 < p.length
  · right
    rw [if_pos (by omega)]
    have letter := List.getElem?_eq_getElem inside
    have room := fills.room
    have below := fills.below
    have cases_ := goesOn_cases letter fills.low (show s.k < p.length by omega)
    rw [← at_] at cases_
    rcases cases_ with ⟨test, next⟩ | ⟨k, same, test, other⟩
    · refine ⟨_, j + 1, ?_, fills.hit more letter next, by dsimp only; omega⟩
      have stored := write_inside (v := s.k + 1) (show j + 1 < s.next.length by omega)
      rw [test, show s.j + 1 = ((j + 1 : Nat) : Int) by omega]
      change (write s.next ((j + 1 : Nat) : Int) (s.k + 1) >>= fun _ => _) = _
      rw [stored]
      rfl
    · obtain ⟨f, there, failure⟩ := fills.filled k (by omega)
      have bounds := failure.bounds
      refine ⟨_, j, ?_, fills.miss same letter other failure, by dsimp only; omega⟩
      rw [test]
      change (read s.next s.k >>= fun _ => _) = _
      rw [same, read_some there]
      rfl
  · left
    rw [if_neg (by omega)]
    exact ⟨rfl, by omega⟩

/-- The loop ends with the whole table. -/
theorem Fills.ends (fills : Fills p s j) : ∃ table, Ends (fillTurn p p.length) s (.ok table) ∧ Table p table := by
  have turns (s : Filling) : (∃ j, Fills p s j) → (∃ table, fillTurn p p.length s = .ok (.leave table)) ∨
      ∃ t, fillTurn p p.length s = .ok (.again t) ∧ (∃ j, Fills p t j) ∧
        (2 * (p.length - t.j) + t.k + 1).toNat < (2 * (p.length - s.j) + s.k + 1).toNat := by
    rintro ⟨j, fills⟩
    rcases fills.turn with ⟨left, -⟩ | ⟨t, j', again, fills', lower⟩
    · exact .inl ⟨_, left⟩
    · refine .inr ⟨t, again, ⟨j', fills'⟩, ?_⟩
      have low := fills.low
      have low' := fills'.low
      have inside := fills.inside
      have inside' := fills'.inside
      rw [fills.at_, fills'.at_]
      omega
  obtain ⟨last, table, ⟨j', fills'⟩, left, ended⟩ := exists_ends_of_turn _ _ turns ⟨j, fills⟩
  rcases fills'.turn with ⟨left', whole⟩ | ⟨t, j'', again, -⟩
  · obtain rfl : last.next = table := by simpa using left'.symm.trans left
    exact ⟨_, ended, fun i less => fills'.filled i (by omega)⟩
  · cases again.symm.trans left

theorem fills_start (some_ : p ≠ []) (room : p.length ≤ next.length) : Fills p ⟨-1, 0, next.set 0 (-1)⟩ 0 := by
  have positive := List.length_pos_iff.mpr some_
  refine ⟨rfl, positive, by rwa [List.length_set], fun i le => ?_, by dsimp only; omega, fun _ => rfl, fun less => ?_⟩
  · obtain rfl := Nat.le_zero.mp le
    exact ⟨-1, List.getElem?_set_self (by omega), .inl ⟨rfl, rfl⟩⟩
  · exact absurd less (Nat.lt_irrefl 0)

theorem settles_getKmpNext (some_ : p ≠ []) (room : p.length ≤ next.length) {v : Except Outside (List Int)} :
    Settles (getKmpNext p next p.length) v ↔ Ends (fillTurn p p.length) ⟨-1, 0, next.set 0 (-1)⟩ v := by
  have positive := List.length_pos_iff.mpr some_
  have stored : write next 0 (-1) = .ok (next.set 0 (-1)) := write_inside (i := 0) (by omega)
  unfold getKmpNext
  rw [stored]
  rfl

theorem getKmpNext_table (some_ : p ≠ []) (room : p.length ≤ next.length) :
    ∃ table, Settles (getKmpNext p next p.length) (.ok table) ∧ Table p table := by
  obtain ⟨table, ended, whole⟩ := (fills_start some_ room).ends
  exact ⟨table, (settles_getKmpNext some_ room).mpr ended, whole⟩

end Table

/-! ## The search -/

section Search
variable {text p : List UInt8} {next : List Int} {s t : Searching} {i : Nat}

/-- The pattern does not end so far. -/
def Missed (p text : List UInt8) (i : Nat) : Prop := ¬Matches p (text.take i) p.length

/-- What holds at each test of the loop. -/
structure Searches (text p : List UInt8) (s : Searching) (i : Nat) : Prop where
  at_ : s.i = i
  inside : i ≤ text.length
  low : -1 ≤ s.j
  short : s.j ≤ p.length
  here : ∀ k : Nat, s.j = k → Matches p (text.take i) k
  candidate : ∀ x, text[i]? = some x → Candidate p (text.take i) x s.j
  before : ∀ e < i, Missed p text e
  now : s.j < p.length → Missed p text i

theorem searches_start (some_ : p ≠ []) : Searches text p ⟨0, 0⟩ 0 := by
  have nothing : Longest p (text.take 0) 0 := longest_nil p
  refine ⟨rfl, Nat.zero_le _, by decide, Int.natCast_nonneg _, fun k same => ?_, fun x _ => nothing.candidate x, nofun,
    fun less whole => ?_⟩
  · obtain rfl : 0 = k := by dsimp only at same; omega
    exact nothing.1
  · have none_ := nothing.2 whole
    have positive := List.length_pos_iff.mpr some_
    omega

/-- One letter more. -/
theorem Searches.hit {x : UInt8} (searches : Searches text p s i) (letter : text[i]? = some x) (more : s.j < p.length)
    (next : ∀ k : Nat, s.j = k → p[k]? = some x) : Searches text p ⟨s.i + 1, s.j + 1⟩ (i + 1) := by
  have low := searches.low
  have grown : text.take (i + 1) = text.take i ++ [x] := by rw [List.take_add_one, letter, Option.toList_some]
  have longest := (searches.candidate x letter).hit next
  rw [← grown] at longest
  have whole : ((s.j + 1).toNat : Int) = s.j + 1 := Int.toNat_of_nonneg (by omega)
  constructor
  · dsimp only
    rw [searches.at_]
    rfl
  · exact (List.getElem?_eq_some_iff.mp letter).1
  · dsimp only
    omega
  · exact more
  · intro k same
    obtain rfl : (s.j + 1).toNat = k := by dsimp only at same; omega
    exact longest.1
  · intro y _
    exact whole ▸ longest.candidate y
  · intro e less
    rcases Nat.lt_or_eq_of_le (Nat.le_of_lt_succ less) with less | rfl
    · exact searches.before e less
    · exact searches.now more
  · intro short whole_
    have most := longest.2 whole_
    dsimp only at short
    omega

/-- A shorter beginning of the pattern. -/
theorem Searches.miss {x : UInt8} {k : Nat} {f : Int} (searches : Searches text p s i) (same : s.j = k)
    (letter : text[i]? = some x) (inside : k < p.length) (other : p[k]? ≠ some x) (failure : Failure p k f) :
    Searches text p { s with j := f } i := by
  have bounds := failure.bounds
  have now := searches.now (by omega)
  have candidate := searches.candidate x letter
  rw [same] at candidate
  have shorter := candidate.miss other failure
  refine ⟨searches.at_, searches.inside, bounds.1, by dsimp only; omega, shorter.here, fun y letter' => ?_, searches.before,
    fun _ => now⟩
  obtain rfl := Option.some.inj (letter.symm.trans letter')
  exact shorter

/-- The pattern has been found, or the text is at its end; or a turn is made. -/
theorem Searches.turn (searches : Searches text p s i) (table : Table p next) :
    ((s.j = p.length ∨ s.j < p.length ∧ i = text.length) ∧ searchTurn text text.length p p.length next s =
        .ok (.leave (if s.j = p.length then s.i - s.j else -1))) ∨
      ∃ t i', searchTurn text text.length p p.length next s = .ok (.again t) ∧ Searches text p t i' ∧
        2 * (i : Int) - s.j < 2 * i' - t.j := by
  have inside := searches.inside
  have at_ := searches.at_
  have short := searches.short
  unfold searchTurn
  by_cases more : i < text.length ∧ s.j < p.length
  · right
    rw [if_pos (by omega)]
    have letter := List.getElem?_eq_getElem more.1
    have cases_ := goesOn_cases letter searches.low more.2
    rw [← at_] at cases_
    rcases cases_ with ⟨test, next⟩ | ⟨k, same, test, other⟩
    · refine ⟨_, i + 1, ?_, searches.hit letter more.2 next, by dsimp only; omega⟩
      rw [test]
      rfl
    · obtain ⟨f, there, failure⟩ := table k (by omega)
      have bounds := failure.bounds
      refine ⟨_, i, ?_, searches.miss same letter (by omega) other failure, by dsimp only; omega⟩
      rw [test]
      change (read next s.j >>= fun _ => _) = _
      rw [same, read_some there]
      rfl
  · left
    rw [if_neg (by omega)]
    exact ⟨by omega, rfl⟩

/-- The least place of the pattern in the text, or -1. -/
def First (p text : List UInt8) (r : Int) : Prop :=
  (∃ k : Nat, r = k ∧ IsLeast {k | Occurs p text k} k) ∨ r = -1 ∧ ¬p <:+: text

/-- What the loop leaves with. -/
theorem Searches.first (searches : Searches text p s i) (some_ : p ≠ [])
    (stopped : s.j = p.length ∨ s.j < p.length ∧ i = text.length) :
    First p text (if s.j = p.length then s.i - s.j else -1) := by
  have at_ := searches.at_
  have inside := searches.inside
  rcases stopped with found | ⟨short, whole⟩
  · rw [if_pos found]
    have last := searches.here _ found
    have length := last.le_length
    rw [List.length_take, Nat.min_eq_left inside] at length
    refine .inl ⟨i - p.length, by omega, ?_, fun k occurs => ?_⟩
    · refine (occurs_iff (by omega)).mpr ?_
      rwa [Nat.sub_add_cancel length]
    · have room := occurs.inside some_
      by_contra less
      exact searches.before (k + p.length) (by omega) ((occurs_iff room).mp occurs)
  · rw [if_neg (by omega)]
    refine .inr ⟨rfl, fun somewhere => ?_⟩
    obtain ⟨k, occurs⟩ := exists_occurs.mpr somewhere
    have room := occurs.inside some_
    have ends := (occurs_iff room).mp occurs
    rcases Nat.lt_or_eq_of_le room with less | same
    · exact searches.before _ (by omega) ends
    · exact searches.now short (by rwa [same, ← whole] at ends)

/-- Every text is searched to a result. -/
theorem kmpSearch_first (some_ : p ≠ []) (text : List UInt8) (table : Table p next) :
    ∃ r, Settles (kmpSearch text text.length p p.length next) (.ok r) ∧ First p text r := by
  have turns (s : Searching) : (∃ i, Searches text p s i) →
      (∃ r, searchTurn text text.length p p.length next s = .ok (.leave r)) ∨
        ∃ t, searchTurn text text.length p p.length next s = .ok (.again t) ∧ (∃ i, Searches text p t i) ∧
          (2 * (text.length - t.i) + t.j + 1).toNat < (2 * (text.length - s.i) + s.j + 1).toNat := by
    rintro ⟨i, searches⟩
    rcases searches.turn table with ⟨-, left⟩ | ⟨t, i', again, searches', lower⟩
    · exact .inl ⟨_, left⟩
    · refine .inr ⟨t, again, ⟨i', searches'⟩, ?_⟩
      have low := searches.low
      have low' := searches'.low
      have inside := searches.inside
      have inside' := searches'.inside
      rw [searches.at_, searches'.at_]
      omega
  obtain ⟨last, r, ⟨i, searches⟩, left, ended⟩ := exists_ends_of_turn _ _ turns ⟨0, searches_start some_⟩
  rcases searches.turn table with ⟨stopped, left'⟩ | ⟨t, i', again, -⟩
  · have result := searches.first some_ stopped
    obtain rfl : (if last.j = p.length then last.i - last.j else -1) = r := by simpa using left'.symm.trans left
    exact ⟨_, ended, result⟩
  · cases again.symm.trans left

/-- The table of a pattern is made, and with it every text is searched: both loops end, no index is outside
its array, and the result is the least place of the pattern or -1. -/
theorem kmpSearch_finds (p text : List UInt8) (next : List Int) (some_ : p ≠ []) (room : p.length ≤ next.length) :
    (∃ table, Settles (getKmpNext p next p.length) (.ok table)) ∧
      ∀ outcome, Settles (getKmpNext p next p.length) outcome → ∃ table r, outcome = .ok table ∧
        Settles (kmpSearch text text.length p p.length table) (.ok r) ∧ First p text r := by
  obtain ⟨table, made, whole⟩ := getKmpNext_table some_ room
  refine ⟨⟨table, made⟩, fun outcome made' => ?_⟩
  have same := ((settles_getKmpNext some_ room).mp made').unique ((settles_getKmpNext some_ room).mp made)
  obtain ⟨r, found, first⟩ := kmpSearch_first some_ text whole
  exact ⟨table, r, same, found, first⟩

theorem kmpSearch_finds_repeated :
    (∃ table, Settles (getKmpNext [1, 1, 2] [0, 0, 0] 3) (.ok table)) ∧
      ∀ outcome, Settles (getKmpNext [1, 1, 2] [0, 0, 0] 3) outcome → ∃ table r, outcome = .ok table ∧
        Settles (kmpSearch [1, 1, 1, 2] 4 [1, 1, 2] 3 table) (.ok r) ∧ First [1, 1, 2] [1, 1, 1, 2] r :=
  kmpSearch_finds [1, 1, 2] [1, 1, 1, 2] [0, 0, 0] (by decide) (by decide)

end Search

end ImxTest.Pitcher.Kmp
