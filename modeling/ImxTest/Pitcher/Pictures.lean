import ImxTest.Pitcher.Elementary

/-! Streams of pictures, for callbacks that make a frame of the first slice of each
picture. The piece of that slice holds the picture when nothing behind it is kept
before its last slice. -/
namespace ImxTest.Pitcher.Elementary

open Lib.Cut Scan

section
variable {τ α : Type}

/-- The units in front of the first slice of a picture, that one, and the others. -/
structure PictureUnits (τ : Type) where
  front : List (CodedUnit τ)
  first : CodedUnit τ
  rest : List (CodedUnit τ)

def PictureUnits.units (g : PictureUnits τ) : List (CodedUnit τ) := g.front ++ g.first :: g.rest

def flatten (gs : List (PictureUnits τ)) : List (CodedUnit τ) := gs.flatMap PictureUnits.units

/-- What the stream has in front of the first slice of picture `k`. -/
def ahead (gs : List (PictureUnits τ)) (k : Nat) (g : PictureUnits τ) : List (CodedUnit τ) :=
  flatten (gs.take k) ++ g.front

def behind (gs : List (PictureUnits τ)) (k : Nat) (g : PictureUnits τ) : List (CodedUnit τ) :=
  g.rest ++ flatten (gs.drop (k + 1))

/-- The units of pictures numbered from `n` on. -/
def groups {P : Type} (parts : P → Nat → PictureUnits τ) : (n : Nat) → List P → List (PictureUnits τ)
  | _, [] => []
  | n, p :: ps => parts p n :: groups parts (n + 1) ps

theorem groups_getElem? {P : Type} (parts : P → Nat → PictureUnits τ) (n : Nat) (ps : List P) (k : Nat) :
    (groups parts n ps)[k]? = ps[k]?.map (parts · (n + k)) := by
  induction ps generalizing n k with
  | nil => rfl
  | cons p ps ih =>
    cases k with
    | zero => rfl
    | succ k =>
      rw [groups, List.getElem?_cons_succ, List.getElem?_cons_succ, ih, Nat.add_right_comm, Nat.add_assoc]

theorem groups_at {P : Type} {parts : P → Nat → PictureUnits τ} {ps : List P} {k : Nat} {p : P}
    (at_ : ps[k]? = some p) : (groups parts 0 ps)[k]? = some (parts p k) := by
  rw [groups_getElem?, at_, Nat.zero_add]
  rfl

theorem groups_find {P : Type} {parts : P → Nat → PictureUnits τ} {ps : List P} {k : Nat}
    {g : PictureUnits τ} (at_ : (groups parts 0 ps)[k]? = some g) :
    ∃ p, ps[k]? = some p ∧ g = parts p k := by
  rw [groups_getElem?, Option.map_eq_some_iff] at at_
  obtain ⟨p, found, rfl⟩ := at_
  exact ⟨p, found, by rw [Nat.zero_add]⟩

theorem flatten_split {gs : List (PictureUnits τ)} {k : Nat} {g : PictureUnits τ} (at_ : gs[k]? = some g) :
    flatten gs = flatten (gs.take k) ++ (g.units ++ flatten (gs.drop (k + 1))) := by
  obtain ⟨inside, rfl⟩ := List.getElem?_eq_some_iff.mp at_
  have split : gs = gs.take k ++ gs[k] :: gs.drop (k + 1) := by
    rw [← List.drop_eq_getElem_cons inside, List.take_append_drop]
  calc flatten gs = flatten (gs.take k ++ gs[k] :: gs.drop (k + 1)) := congrArg flatten split
    _ = _ := by simp only [flatten, List.flatMap_append, List.flatMap_cons]

theorem around_first {gs : List (PictureUnits τ)} {k : Nat} {g : PictureUnits τ} (at_ : gs[k]? = some g) :
    flatten gs = ahead gs k g ++ g.first :: behind gs k g := by
  rw [flatten_split at_]
  simp [ahead, behind, PictureUnits.units]

theorem mem_flatten {gs : List (PictureUnits τ)} {u : CodedUnit τ} (mem : u ∈ flatten gs) :
    ∃ (k : Nat) (g : PictureUnits τ), gs[k]? = some g ∧ u ∈ g.units := by
  obtain ⟨g, inside, unit⟩ := List.mem_flatMap.mp mem
  obtain ⟨k, at_⟩ := List.getElem?_of_mem inside
  exact ⟨k, g, at_, unit⟩

/-- The units of each picture bear its number, and its slices stand at its first
one and behind. -/
structure Numbered (picture : τ → Nat) (slice : τ → Bool) (gs : List (PictureUnits τ)) : Prop where
  number : ∀ k g, gs[k]? = some g → ∀ u ∈ g.units, picture u.tag = k
  front : ∀ g ∈ gs, ∀ u ∈ g.front, slice u.tag = false

variable {picture : τ → Nat} {slice : τ → Bool} {gs : List (PictureUnits τ)}

theorem Numbered.before (numbered : Numbered picture slice gs) {k : Nat} {u : CodedUnit τ}
    (mem : u ∈ flatten (gs.take k)) : picture u.tag < k := by
  obtain ⟨j, g, at_, unit⟩ := mem_flatten mem
  rw [List.getElem?_take] at at_
  split at at_
  case isTrue less => exact numbered.number j g at_ u unit ▸ less
  case isFalse => contradiction

theorem Numbered.later (numbered : Numbered picture slice gs) {k : Nat} {u : CodedUnit τ}
    (mem : u ∈ flatten (gs.drop (k + 1))) : k < picture u.tag := by
  obtain ⟨j, g, at_, unit⟩ := mem_flatten mem
  rw [List.getElem?_drop] at at_
  rw [numbered.number _ g at_ u unit]
  omega

theorem Numbered.inside (numbered : Numbered picture slice gs) {pos : Nat} {x : Placed τ}
    (mem : x ∈ layout pos (flatten gs)) : picture x.tag < gs.length := by
  obtain ⟨-, -, -, u, unit, same⟩ := layout_bounds mem
  obtain ⟨k, g, at_, inside⟩ := mem_flatten unit
  rw [← same, numbered.number k g at_ u inside]
  exact (List.getElem?_eq_some_iff.mp at_).1

/-- The slices from picture `k` on lie at its first one and behind. -/
theorem Numbered.slice_behind (numbered : Numbered picture slice gs) {pos k : Nat} {g : PictureUnits τ}
    (at_ : gs[k]? = some g) {x : Placed τ} (mem : x ∈ layout pos (flatten gs))
    (later : k ≤ picture x.tag) (slice_ : slice x.tag = true) :
    x ∈ layout (place pos (ahead gs k g)) (g.first :: behind gs k g) := by
  rw [around_first at_, layout_append, List.mem_append] at mem
  refine mem.resolve_left fun before => ?_
  obtain ⟨-, -, -, u, inside, same⟩ := layout_bounds before
  rcases List.mem_append.mp inside with earlier | front
  · have less := numbered.before earlier
    rw [same] at less
    omega
  · have plain := numbered.front g (List.mem_of_getElem? at_) u front
    rw [same, slice_] at plain
    contradiction

theorem Numbered.slice_place (numbered : Numbered picture slice gs) {pos k : Nat} {g : PictureUnits τ}
    (at_ : gs[k]? = some g) {x : Placed τ} (mem : x ∈ layout pos (flatten gs))
    (number : picture x.tag = k) (slice_ : slice x.tag = true) :
    x ∈ layout (place pos (ahead gs k g)) (g.first :: g.rest) := by
  have here := numbered.slice_behind at_ mem number.ge slice_
  rw [behind, ← List.cons_append, layout_append, List.mem_append] at here
  refine here.resolve_right fun later => ?_
  obtain ⟨-, -, -, u, inside, same⟩ := layout_bounds later
  have more := numbered.later inside
  rw [same] at more
  omega

variable {step : α → CodedUnit τ → ParserType × α} {a : α}

/-- Behind its first slice the picture has units that are not kept, its slices among
them, and then no slice. -/
def Compact (slice : τ → Bool) (step : α → CodedUnit τ → ParserType × α) (a : α)
    (gs : List (PictureUnits τ)) (k : Nat) (g : PictureUnits τ) : Prop :=
  ∃ body trailer, g.rest = body ++ trailer ∧ Quiet step (after step a (ahead gs k g ++ [g.first])) body ∧
    ∀ u ∈ trailer, slice u.tag = false

/-- The first slice of picture `k` is a frame, and `k` frames come before. -/
structure Leads (step : α → CodedUnit τ → ParserType × α) (a : α) (gs : List (PictureUnits τ)) (k : Nat)
    (g : PictureUnits τ) : Prop where
  frame : (step (after step a (ahead gs k g)) g.first).1 = .FRAME
  rank : (types step a (ahead gs k g)).count .FRAME = k

/-- The first pictures have one frame each. -/
theorem frames_of_single {k : Nat} (bound : k ≤ gs.length)
    (single : ∀ j h, j < k → gs[j]? = some h →
      (types step (after step a (flatten (gs.take j))) h.units).count .FRAME = 1) :
    (types step a (flatten (gs.take k))).count .FRAME = k := by
  induction k with
  | zero => rfl
  | succ k ih =>
    have next := single k gs[k] (Nat.lt_succ_self k) (List.getElem?_eq_getElem bound)
    rw [List.take_succ_eq_append_getElem bound, flatten, List.flatMap_append, ← flatten, types_append,
      List.count_append, ih (Nat.le_of_succ_le bound) fun j h less => single j h (Nat.lt_succ_of_lt less)]
    simpa using next

/-- Pictures with one frame each lead up to a picture without one in its front. -/
theorem rank_of_single {k : Nat} {g : PictureUnits τ} (at_ : gs[k]? = some g)
    (front : (types step (after step a (flatten (gs.take k))) g.front).count .FRAME = 0)
    (single : ∀ j h, j < k → gs[j]? = some h →
      (types step (after step a (flatten (gs.take j))) h.units).count .FRAME = 1) :
    (types step a (ahead gs k g)).count .FRAME = k := by
  have bound := (List.getElem?_eq_some_iff.mp at_).1
  rw [ahead, types_append, List.count_append, front, frames_of_single bound.le single, Nat.add_zero]

section Pieces
variable {sc : Scode} {virt : Nat → UInt8} {size : Nat} {lead : Bytes}

/-- The pieces cut at the codes of the stream. -/
abbrev pieces (sc : Scode) (virt : Nat → UInt8) (step : α → CodedUnit τ → ParserType × α) (a : α)
    (size : Nat) (lead : Bytes) (us : List (CodedUnit τ)) : List (Int × Int) :=
  cut (size : Int) ((codesBy sc virt step lead.length us a).map Code.mark)

/-- The piece of the first slice of a picture has the number of the picture. -/
theorem Leads.piece {k : Nat} {g : PictureUnits τ} (leads : Leads step a gs k g) (at_ : gs[k]? = some g)
    (standard : Standard sc) (file : File virt size lead (flatten gs))
    (ordered : Ordered (size : Int) ((codesBy sc virt step lead.length (flatten gs) a).map Code.mark)) :
    ∃ s, (pieces sc virt step a size lead (flatten gs))[k]? = some s ∧
      Around sc virt step lead.length (ahead gs k g) g.first (behind gs k g) a s := by
  have units := around_first at_
  rw [units] at file ordered
  obtain ⟨s, found, around⟩ := frame_piece standard leads.frame file.units file.closed
    (le_of_eq file.size.symm) ordered
  rw [frames_codesBy, leads.rank, ← units] at found
  exact ⟨s, found, around⟩

/-- The slices of a compact picture lie in the piece of its first one. -/
theorem Compact.inside {k : Nat} {g : PictureUnits τ} (compact : Compact slice step a gs k g)
    (numbered : Numbered picture slice gs) (at_ : gs[k]? = some g) {s : Int × Int} {pos : Nat}
    (around : Around sc virt step pos (ahead gs k g) g.first (behind gs k g) a s)
    {x : Placed τ} (mem : x ∈ layout pos (flatten gs)) (number : picture x.tag = k)
    (slice_ : slice x.tag = true) : s.1 ≤ x.start ∧ x.stop ≤ s.2 := by
  have inside := numbered.slice_place at_ mem number slice_
  have start := (layout_bounds inside).1
  have low := around.start
  obtain ⟨body, trailer, eq, quiet, plain⟩ := compact
  refine ⟨by omega, ?_⟩
  apply around.holds body (trailer ++ flatten (gs.drop (k + 1))) _ quiet
  · rw [eq, ← List.cons_append, layout_append, List.mem_append] at inside
    refine inside.resolve_right fun later => ?_
    obtain ⟨-, -, -, u, mem, same⟩ := layout_bounds later
    have none := plain u mem
    rw [same, slice_] at none
    contradiction
  · rw [behind, eq, List.append_assoc]

/-- A unit behind one that is kept lies past the piece, when a frame follows. -/
theorem kept_outside {k : Nat} {g : PictureUnits τ} (at_ : gs[k]? = some g) {s : Int × Int} {pos : Nat}
    (around : Around sc virt step pos (ahead gs k g) g.first (behind gs k g) a s)
    {quiet between trailer : List (CodedUnit τ)} {c u : CodedUnit τ}
    (rest : g.rest = quiet ++ c :: (between ++ u :: trailer))
    (kept : (step (after step a (ahead gs k g ++ g.first :: quiet)) c).1 ≠ .UNKNOWN)
    (framed : ∃ d ∈ codesBy sc virt step (place pos (ahead gs k g ++ [g.first])) (behind gs k g)
      (after step a (ahead gs k g ++ [g.first])), d.type = .FRAME) :
    ∃ x ∈ layout pos (flatten gs), x.tag = u.tag ∧ s.2 ≤ x.start := by
  let later := trailer ++ flatten (gs.drop (k + 1))
  let before := ahead gs k g ++ g.first :: (quiet ++ c :: between)
  have units : behind gs k g = quiet ++ c :: (between ++ u :: later) := by
    simp [behind, rest, later]
  have stop := around.stops quiet c (between ++ u :: later) units kept framed
  have whole : flatten gs = before ++ u :: later := by
    rw [around_first at_, units]
    simp [before]
  refine ⟨placed pos before u, mem_layout.mpr ⟨before, u, later, whole, rfl⟩, rfl, ?_⟩
  have order : place pos (ahead gs k g ++ g.first :: quiet) ≤ place pos before := by
    have split : before = (ahead gs k g ++ g.first :: quiet) ++ c :: between := by simp [before]
    rw [split, place_append pos (_ ++ _)]
    exact place_le _ _
  simp only [placed]
  omega

/-- With compact pictures up to number `limit`, a piece before meets the slices of
the picture of its number only. -/
theorem meets_own (numbered : Numbered picture slice gs) (standard : Standard sc)
    (file : File virt size lead (flatten gs))
    (ordered : Ordered (size : Int) ((codesBy sc virt step lead.length (flatten gs) a).map Code.mark))
    (limit : Nat) (leads : ∀ k g, gs[k]? = some g → k ≤ limit → Leads step a gs k g)
    (compact : ∀ k g, gs[k]? = some g → k < limit → Compact slice step a gs k g)
    {i : Nat} {r : Int × Int} (found : (pieces sc virt step a size lead (flatten gs))[i]? = some r)
    (before : i < limit) {x : Placed τ} (mem : x ∈ layout lead.length (flatten gs))
    (slice_ : slice x.tag = true) (low : r.1 < x.stop) (high : x.start < r.2) : picture x.tag = i := by
  obtain ⟨_, tiles⟩ := cut_tiling ordered
  have bound := numbered.inside mem
  by_cases within : picture x.tag < limit
  · have at_ := List.getElem?_eq_getElem bound
    obtain ⟨s, piece, around⟩ := (leads _ _ at_ within.le).piece at_ standard file ordered
    have inside := (compact _ _ at_ within).inside numbered at_ around mem rfl slice_
    rcases Nat.lt_trichotomy (picture x.tag) i with less | same | more
    · have := tiles.disjoint piece found less
      omega
    · exact same
    · have := tiles.disjoint found piece more
      omega
  · -- the piece that starts with picture `limit` lies in between
    have last : limit < gs.length := by omega
    have at_ := List.getElem?_eq_getElem last
    obtain ⟨s, piece, around⟩ := (leads _ _ at_ (le_refl limit)).piece at_ standard file ordered
    have := tiles.disjoint found piece before
    have start := (layout_bounds (numbered.slice_behind at_ mem (by omega) slice_)).1
    have := around.start
    omega

end Pieces

end

end ImxTest.Pitcher.Elementary
