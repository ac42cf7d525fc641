import ImxTest.Pitcher.Transfer
import ImxTest.Pitcher.Counting

/-! A frame in one plane that pitcher/v4l2.c splits over several: when the three
transfers make the same parts of it, and lose none. -/
namespace ImxTest.Pitcher
open Lib.Copy

/-! ## The shares of the planes -/

/-- The bytes that plane `k` gets of `used`. -/
def shareOf (size : Nat → Nat) (used k : Nat) : Nat := min (used - sizeBefore size k) (size k)

section Shares
variable {size : Nat → Nat} {used n : Nat}

theorem min_sizeBefore_succ :
    min used (sizeBefore size (n + 1)) = min used (sizeBefore size n) + shareOf size used n := by
  rw [sizeBefore_succ, shareOf]
  omega

theorem shares_sum : ((List.range n).map (shareOf size used)).sum = min used (sizeBefore size n) := by
  induction n with
  | zero => simp [sizeBefore]
  | succ n ih =>
    rw [List.range_succ, List.map_append, List.sum_append, ih, List.map_singleton, List.sum_singleton,
      min_sizeBefore_succ]

/-- The shares one after the other. -/
theorem shares_span {β : Type} (source : Nat → β) (base : Nat) :
    ((List.range n).flatMap fun k => span source (base + sizeBefore size k) (shareOf size used k)) =
      span source base (min used (sizeBefore size n)) := by
  induction n with
  | zero => rw [sizeBefore_zero, Nat.min_zero, span_zero, List.range_zero, List.flatMap_nil]
  | succ n ih =>
    rw [List.range_succ, List.flatMap_append, ih, List.flatMap_singleton, min_sizeBefore_succ, span_append]
    rcases Nat.lt_or_ge (sizeBefore size n) used with more | done
    · rw [Nat.min_eq_right (Nat.le_of_lt more)]
    · rw [shareOf, Nat.sub_eq_zero_of_le done, Nat.zero_min, span_zero, span_zero]

theorem sum_map_range_eq_iff {f g : Nat → Nat} (most : ∀ k < n, f k ≤ g k) :
    ((List.range n).map f).sum = ((List.range n).map g).sum ↔ ∀ k < n, f k = g k := by
  induction n with
  | zero => simp
  | succ n ih =>
    have last := most n (Nat.lt_succ_self n)
    have before := ih fun k below => most k (by omega)
    have less : ((List.range n).map f).sum ≤ ((List.range n).map g).sum := by
      rcases Nat.eq_zero_or_pos n with rfl | some_
      · exact Nat.le_refl _
      · exact Nat.le_trans (Nat.le_add_right _ _) (sum_le_sum_first some_ fun k below => most k (by omega))
    rw [List.range_succ, List.map_append, List.map_append, List.sum_append, List.sum_append, List.map_singleton,
      List.map_singleton, List.sum_singleton, List.sum_singleton]
    constructor
    · intro same k below
      rcases Nat.lt_succ_iff_lt_or_eq.mp below with earlier | rfl
      · exact before.mp (by omega) k earlier
      · omega
    · intro same
      rw [before.mpr fun k below => same k (by omega), same n (Nat.lt_succ_self n)]

theorem flatMap_range_inj {β : Type} {f g : Nat → List β} (long : ∀ k < n, (f k).length = (g k).length)
    (same : (List.range n).flatMap f = (List.range n).flatMap g) : ∀ k < n, f k = g k := by
  induction n with
  | zero => exact fun k below => absurd below (Nat.not_lt_zero k)
  | succ n ih =>
    rw [List.range_succ, List.flatMap_append, List.flatMap_append, List.flatMap_singleton,
      List.flatMap_singleton] at same
    obtain ⟨before, last⟩ := List.append_inj' same (long n (Nat.lt_succ_self n))
    intro k below
    rcases Nat.lt_succ_iff_lt_or_eq.mp below with earlier | rfl
    · exact ih (fun k below => long k (by omega)) before k earlier
    · exact last

theorem map_getD_range (planes : List BufRef) :
    (List.range planes.length).map (fun k => planes.getD k {}) = planes := by
  apply List.ext_getElem
  · rw [List.length_map, List.length_range]
  · intro k _ inside
    rw [List.getElem_map, List.getElem_range, List.getD_eq_getElem?_getD, List.getElem?_eq_getElem inside,
      Option.getD_some]

end Shares

/-! ## What the loop leaves in the planes -/

/-- The planes behind the data have no bytes from before. -/
def Rest (size : Nat → Nat) (used : Nat) (planes : List BufRef) : Prop :=
  ∀ k < planes.length, 0 < k → used ≤ sizeBefore size k → (planes.getD k {}).bytesused = 0

section Loop
variable {σ : Type} {set : σ → BufRef → Nat → Nat → σ × BufRef} {put : BufRef → Nat → Nat → BufRef}
  {size : Nat → Nat} {used : Nat}

theorem spread_plane (puts : ∀ s p total n, (set s p total n).2 = put p total n) (i : Nat) (s : σ)
    (ps : List BufRef) (k : Nat) :
    (spread set size used i (sizeBefore size i) s ps).2[k]? =
      ps[k]?.map fun p =>
        if k = 0 ∨ sizeBefore size (i + k) < used then
          put p (sizeBefore size (i + k)) (shareOf size used (i + k))
        else p := by
  induction ps generalizing i s k with
  | nil => rfl
  | cons p ps ih =>
    have next := sizeBefore_succ size i
    have part : min (used - sizeBefore size i) (size i) = shareOf size used i := rfl
    rw [spread]
    dsimp only
    rw [part]
    split
    case isTrue reached =>
      cases k with
      | zero => simp [puts]
      | succ k =>
        have most := sizeBefore_mono size (show i + 1 ≤ i + (k + 1) by omega)
        have behind : ¬(k + 1 = 0 ∨ sizeBefore size (i + (k + 1)) < used) := by
          unfold shareOf at reached
          omega
        simp only [List.getElem?_cons_succ, if_neg behind, Option.map_id']
    case isFalse further =>
      have whole : sizeBefore size i + shareOf size used i = sizeBefore size (i + 1) := by
        unfold shareOf at further ⊢
        omega
      rw [whole]
      cases k with
      | zero => simp [puts]
      | succ k =>
        rw [List.getElem?_cons_succ, List.getElem?_cons_succ, ih, show i + (k + 1) = i + 1 + k by omega]
        congr 1
        funext q
        cases k with
        | zero => rw [if_pos (.inl rfl), if_pos (.inr (by rw [Nat.add_zero]; omega))]
        | succ k => simp only [Nat.succ_ne_zero, false_or]

variable (puts : ∀ s p total n, (set s p total n).2 = put p total n)
  (counts : ∀ p total n, (put p total n).bytesused = n) {s : σ} {ps : List BufRef}
include puts

theorem spread_getD {k : Nat} (inside : k < ps.length) :
    (spread set size used 0 0 s ps).2.getD k {} =
      if k = 0 ∨ sizeBefore size k < used then put (ps.getD k {}) (sizeBefore size k) (shareOf size used k)
      else ps.getD k {} := by
  have plane := @spread_plane _ _ _ size used puts 0 s ps k
  rw [sizeBefore_zero, Nat.zero_add] at plane
  rw [List.getD_eq_getElem?_getD, plane, List.getElem?_eq_getElem inside, Option.map_some, Option.getD_some,
    List.getD_eq_getElem?_getD, List.getElem?_eq_getElem inside, Option.getD_some]

include counts

theorem shareOf_le_used {k : Nat} (inside : k < ps.length) :
    shareOf size used k ≤ ((spread set size used 0 0 s ps).2.getD k {}).bytesused := by
  rw [spread_getD puts inside]
  split
  · exact Nat.le_of_eq (counts _ _ _).symm
  case isFalse behind =>
    rw [shareOf, Nat.sub_eq_zero_of_le (by omega), Nat.zero_min]
    exact Nat.zero_le _

theorem spread_share_iff :
    (∀ k < ps.length, shareOf size used k = ((spread set size used 0 0 s ps).2.getD k {}).bytesused) ↔
      Rest size used ps := by
  apply forall₂_congr
  intro k inside
  rw [spread_getD puts inside]
  split
  case isTrue set_ =>
    rw [counts]
    constructor
    · intro _ later behind
      omega
    · exact fun _ => rfl
  case isFalse behind =>
    rw [not_or, Nat.not_lt] at behind
    rw [shareOf, Nat.sub_eq_zero_of_le behind.2, Nat.zero_min]
    constructor
    · exact fun none _ _ => none.symm
    · exact fun none => (none (Nat.pos_of_ne_zero behind.1) behind.2).symm

/-- The bytes that are counted are as many as there are, if none are left from before. -/
theorem spread_sum_iff :
    ((spread set size used 0 0 s ps).2.map (·.bytesused)).sum = min used (sizeBefore size ps.length) ↔
      Rest size used ps := by
  have planes := map_getD_range (spread set size used 0 0 s ps).2
  rw [spread_length] at planes
  rw [← planes, List.map_map, ← shares_sum, eq_comm]
  exact (sum_map_range_eq_iff fun k inside => shareOf_le_used puts counts inside).trans
    (spread_share_iff puts counts)

/-- What is read of the planes one after the other. -/
theorem spread_reads {β : Type} {read : BufRef → List β} {source : Nat → β} {base : Nat}
    (long : ∀ p, (read p).length = p.bytesused) (rest : Rest size used ps)
    (reads : ∀ k < ps.length, k = 0 ∨ sizeBefore size k < used →
      read (put (ps.getD k {}) (sizeBefore size k) (shareOf size used k)) =
        span source (base + sizeBefore size k) (shareOf size used k)) :
    (spread set size used 0 0 s ps).2.flatMap read = span source base (min used (sizeBefore size ps.length)) := by
  have planes := map_getD_range (spread set size used 0 0 s ps).2
  rw [spread_length] at planes
  rw [← planes, List.flatMap_map, ← shares_span]
  apply List.flatMap_congr
  intro k mem
  have inside := List.mem_range.mp mem
  by_cases set_ : k = 0 ∨ sizeBefore size k < used
  · rw [spread_getD puts inside, if_pos set_]
    exact reads k inside set_
  · rw [not_or, Nat.not_lt] at set_
    have share := (spread_share_iff (s := s) puts counts).mpr rest k inside
    have none : shareOf size used k = 0 := by
      rw [shareOf, Nat.sub_eq_zero_of_le set_.2, Nat.zero_min]
    rw [none, span_zero, List.eq_nil_iff_length_eq_zero, long, ← share, none]

end Loop

section Copies
variable {size : Nat → Nat} {used : Nat} {first : BufRef} {mem : Nat → UInt8}

/-- Each plane that is reached gets its share of the source. -/
theorem spread_copies {i : Nat} {ps : List BufRef} (planes : Planes size i ps)
    (source : ∀ q ∈ ps, Apart first.virt used q.virt q.size) {k : Nat} (inside : k < ps.length)
    (reached : k = 0 ∨ sizeBefore size (i + k) < used) :
    span (spread (copyPart first) size used i (sizeBefore size i) mem ps).1 (ps.getD k {}).virt
        (shareOf size used (i + k)) =
      span mem (first.virt + sizeBefore size (i + k)) (shareOf size used (i + k)) := by
  induction ps generalizing i mem k with
  | nil => exact absurd inside (Nat.not_lt_zero k)
  | cons p ps ih =>
    have next := sizeBefore_succ size i
    have head := planes.head
    have window := source p List.mem_cons_self
    have share : min (used - sizeBefore size i) (size i) = shareOf size used i := rfl
    have most : shareOf size used i ≤ size i := Nat.min_le_right _ _
    rw [spread]
    dsimp only
    rw [share]
    split
    case isTrue done =>
      cases k with
      | zero =>
        rw [List.getD_cons_zero, Nat.add_zero]
        exact span_copy
      | succ k =>
        have mono := sizeBefore_mono size (show i + 1 ≤ i + (k + 1) by omega)
        unfold shareOf at done
        omega
    case isFalse further =>
      have whole : sizeBefore size i + shareOf size used i = sizeBefore size (i + 1) := by
        unfold shareOf at further ⊢
        omega
      rw [whole]
      cases k with
      | zero =>
        simp only [List.getD_cons_zero, Nat.add_zero]
        rw [spread_copyPart_apart planes.tail (by omega)]
        · exact span_copy
        · intro q mem
          exact ((List.pairwise_cons.mp planes.own).1 q mem).part (by omega) (by omega)
      | succ k =>
        rw [List.length_cons] at inside
        have behind : k = 0 ∨ sizeBefore size (i + 1 + k) < used := by
          rw [show i + 1 + k = i + (k + 1) by omega]
          exact .inr (reached.resolve_left (Nat.succ_ne_zero k))
        rw [List.getD_cons_succ, show i + (k + 1) = i + 1 + k by omega,
          ih planes.tail (fun q mem => source q (List.mem_cons_of_mem p mem)) (by omega) behind]
        -- What this plane gets is not written over the rest of the source.
        have mono := sizeBefore_mono size (show i + 1 ≤ i + 1 + k by omega)
        have most' : shareOf size used (i + 1 + k) ≤ used - sizeBefore size (i + 1 + k) := Nat.min_le_left _ _
        apply span_copy_apart
        rcases Nat.lt_or_ge (sizeBefore size (i + 1 + k)) used with more | none
        · exact window.part (by omega) (by omega)
        · exact .inl (by omega)

end Copies

/-! ## One frame, three transfers -/

/-- `planes` have `n` bytes in all, which are these, and none more than it has room for. -/
structure SplitOf (dst : Buffer) (planes : List BufRef) (n : Nat) (found data : List UInt8) : Prop where
  sum : (planes.map (·.bytesused)).sum = n
  data : found = data
  room : ∀ k < dst.count, (planes.getD k {}).bytesused ≤ (dst.plane k).size

def Buffer.sizeOf (buf : Buffer) (k : Nat) : Nat := (buf.plane k).size

/-- All three transfers leave the first bytes of the frame in the planes, as many as there
is room for, and the same part of them in each plane. -/
def SplitsAlike (src dst : Buffer) : Prop :=
  ∀ splane dplane mem dma,
    let n := min (src.plane 0).bytesused (sizeBefore dst.sizeOf dst.count)
    let copied := transferOutputBufferMmap splane dplane mem src dst
    let pointed := transferOutputBufferUserptr src dst
    let shared := transferOutputBufferDmabuf src dst
    (copied.1 = .OK ∧
        SplitOf dst copied.2.2 n (stored copied.2.1 copied.2.2) (span mem (src.plane 0).virt n)) ∧
      (pointed.1 = .OK ∧
        SplitOf dst pointed.2 n (stored mem pointed.2) (span mem (src.plane 0).virt n)) ∧
      (shared.1 = .OK ∧
        SplitOf dst shared.2 n (exported dma true shared.2)
          (span (dma (src.plane 0).dmafd) (src.plane 0).offset n)) ∧
      copied.2.2.map (·.bytesused) = pointed.2.map (·.bytesused) ∧
      shared.2.map (·.bytesused) = pointed.2.map (·.bytesused)

/-- The rows of the picture lie in `src` one behind the other, as those of `dst` do, and
are the shares of its planes. -/
def PicturesAlike (src dst : Buffer) (sfmt dfmt : PixFmtInfo) : Prop :=
  dst.count = dfmt.numPlanes ∧ ∀ i < dst.count,
    copiedRows src sfmt dfmt i * (dfmt.planes i).line = shareOf dst.sizeOf (src.plane 0).bytesused i ∧
    copiedLine src sfmt dfmt i = (dfmt.planes i).line ∧
    ∀ j < copiedRows src sfmt dfmt i,
      src.rowAt sfmt i j = (src.plane 0).virt + sizeBefore dst.sizeOf i + j * (dfmt.planes i).line

/-- The sizes of the planes are found, and none of those behind the data has bytes left from
before. -/
def PlanesReady (src dst : Buffer) : Prop :=
  ((src.plane 0).bytesused = 0 ∨ ∀ k < dst.count, pitcherGetBufferPlaneSize dst k = dst.sizeOf k) ∧
    Rest dst.sizeOf (src.plane 0).bytesused dst.planes

/-- Besides, a frame in a DMA buffer starts where that does, and a picture that is copied
has its rows where they are taken from. -/
def Splittable (src dst : Buffer) : Prop :=
  PlanesReady src dst ∧ ((src.plane 0).bytesused = 0 ∨ (src.plane 0).offset = 0) ∧
    ∀ sfmt dfmt, src.format = some sfmt → dst.format = some dfmt → sfmt.format = dfmt.format →
      sfmt.untiled → ¬sfmt.format.compressed → PicturesAlike src dst sfmt dfmt

section Ready
variable {src dst : Buffer} {σ : Type} {set : σ → BufRef → Nat → Nat → σ × BufRef}
  {put : BufRef → Nat → Nat → BufRef}

/-- Where the sizes are not found they are taken for zero. -/
theorem plane_sizes_lost {fmt : PixFmtInfo} (known : dst.format = some fmt) (several : 1 < dst.count)
    (other : dst.count ≠ fmt.numPlanes) (k : Nat) : pitcherGetBufferPlaneSize dst k = 0 := by
  unfold pitcherGetBufferPlaneSize pitcherGetBufferPlane
  simp only [known, if_pos (show fmt.numPlanes ≤ k ∨ (dst.count ≠ 1 ∧ dst.count ≠ fmt.numPlanes) by omega)]

theorem plane_sizes (several : 1 < dst.count) :
    (∀ k < dst.count, pitcherGetBufferPlaneSize dst k = dst.sizeOf k) ∨ ∀ k, pitcherGetBufferPlaneSize dst k = 0 := by
  cases known : dst.format with
  | none =>
    left
    intro k inside
    unfold pitcherGetBufferPlaneSize pitcherGetBufferPlane
    simp only [known, List.getElem?_eq_getElem (show k < dst.planes.length from inside)]
    exact (congrArg BufRef.size (Buffer.plane_eq inside)).symm
  | some fmt =>
    by_cases each : dst.count = fmt.numPlanes
    · left
      intro k inside
      unfold pitcherGetBufferPlaneSize pitcherGetBufferPlane
      have place : ¬(fmt.numPlanes ≤ k ∨ (dst.count ≠ 1 ∧ dst.count ≠ fmt.numPlanes)) := by omega
      simp only [known, if_neg place, if_pos each,
        List.getElem?_eq_getElem (show k < dst.planes.length from inside)]
      exact (congrArg BufRef.size (Buffer.plane_eq inside)).symm
    · exact .inr (plane_sizes_lost known several each)

theorem total_pos (mapped : ∀ q ∈ dst.planes, 0 < q.size) (several : 1 < dst.count) :
    0 < sizeBefore dst.sizeOf dst.count := by
  have first : 0 < dst.sizeOf 0 := mapped _ (Buffer.plane_mem (by omega))
  have most := sizeBefore_mono dst.sizeOf (show 1 ≤ dst.count by omega)
  rw [sizeBefore_succ, sizeBefore_zero] at most
  omega

/-- Data is split by the sizes of the planes if those are found. -/
theorem PlanesReady.sizes (known : (src.plane 0).bytesused = 0 ∨
      ∀ k < dst.count, pitcherGetBufferPlaneSize dst k = dst.sizeOf k) :
    min (src.plane 0).bytesused (sizeBefore (pitcherGetBufferPlaneSize dst) dst.count) =
        min (src.plane 0).bytesused (sizeBefore dst.sizeOf dst.count) ∧
      (Rest (pitcherGetBufferPlaneSize dst) (src.plane 0).bytesused dst.planes ↔
        Rest dst.sizeOf (src.plane 0).bytesused dst.planes) ∧
      ∀ k < dst.count, shareOf (pitcherGetBufferPlaneSize dst) (src.plane 0).bytesused k =
        shareOf dst.sizeOf (src.plane 0).bytesused k := by
  rcases known with none | sizes
  · simp only [none, Nat.zero_min, shareOf, Nat.zero_sub, Rest, Nat.zero_le, implies_true, and_self]
  · have before : ∀ k ≤ dst.count, sizeBefore (pitcherGetBufferPlaneSize dst) k = sizeBefore dst.sizeOf k :=
      fun k most => sizeBefore_congr fun i below => sizes i (by omega)
    refine ⟨by rw [before _ (Nat.le_refl _)], ?_, ?_⟩
    · apply forall₂_congr
      intro k inside
      rw [before k (Nat.le_of_lt inside)]
    · intro k inside
      rw [shareOf, shareOf, before k (Nat.le_of_lt inside), sizes k inside]

variable (mapped : ∀ q ∈ dst.planes, 0 < q.size) (several : 1 < dst.count)
include mapped several

/-- As many bytes as there is room for, exactly if the planes are ready. -/
theorem split_sum_iff (puts : ∀ s p total n, (set s p total n).2 = put p total n)
    (counts : ∀ p total n, (put p total n).bytesused = n) (s : σ) :
    ((spread set (pitcherGetBufferPlaneSize dst) (src.plane 0).bytesused 0 0 s dst.planes).2.map
        (·.bytesused)).sum = min (src.plane 0).bytesused (sizeBefore dst.sizeOf dst.count) ↔
      PlanesReady src dst := by
  have sum := @spread_sum_iff σ set put (pitcherGetBufferPlaneSize dst) (src.plane 0).bytesused puts counts s
    dst.planes
  by_cases known : (src.plane 0).bytesused = 0 ∨
      ∀ k < dst.count, pitcherGetBufferPlaneSize dst k = dst.sizeOf k
  · obtain ⟨n, rest, -⟩ := PlanesReady.sizes known
    rw [← n, ← Buffer.count] at *
    rw [sum, rest, PlanesReady]
    exact (and_iff_right known).symm
  · obtain ⟨some_data, unknown⟩ := not_or.mp known
    have zero := (plane_sizes several).resolve_left unknown
    have none (n : Nat) : sizeBefore (pitcherGetBufferPlaneSize dst) n = 0 :=
      sizeBefore_blank (Nat.zero_le n) fun k _ _ => zero k
    have total := total_pos mapped several
    have lost := sum.mpr fun k inside later behind => by
      rw [none k] at behind
      omega
    rw [lost, ← Buffer.count, none]
    constructor
    · intro same
      omega
    · exact fun ready => absurd ready.1 known

/-- What the loop makes of planes that are ready. -/
theorem PlanesReady.split (ready : PlanesReady src dst)
    (puts : ∀ s p total n, (set s p total n).2 = put p total n)
    (counts : ∀ p total n, (put p total n).bytesused = n) (s : σ) {found data : List UInt8} (same : found = data) :
    SplitOf dst (spread set (pitcherGetBufferPlaneSize dst) (src.plane 0).bytesused 0 0 s dst.planes).2
      (min (src.plane 0).bytesused (sizeBefore dst.sizeOf dst.count)) found data where
  sum := (split_sum_iff mapped several puts counts s).mpr ready
  data := same
  room := by
    intro k inside
    have rest := (PlanesReady.sizes ready.1).2.1.mpr ready.2
    rw [← (spread_share_iff puts counts).mpr rest k inside]
    exact Nat.le_trans (Nat.min_le_right _ _) (plane_size_le several inside)

omit mapped several in
/-- Which bytes a plane gets does not depend on how it gets them. -/
theorem spread_same_parts {τ : Type} {set' : τ → BufRef → Nat → Nat → τ × BufRef} {put' : BufRef → Nat → Nat → BufRef}
    (puts : ∀ s p total n, (set s p total n).2 = put p total n)
    (counts : ∀ p total n, (put p total n).bytesused = n)
    (puts' : ∀ s p total n, (set' s p total n).2 = put' p total n)
    (counts' : ∀ p total n, (put' p total n).bytesused = n) (size : Nat → Nat) (used : Nat) (s : σ) (t : τ)
    (ps : List BufRef) :
    (spread set size used 0 0 s ps).2.map (·.bytesused) = (spread set' size used 0 0 t ps).2.map (·.bytesused) := by
  apply List.ext_getElem?
  intro k
  have plane := @spread_plane _ _ _ size used puts 0 s ps k
  have plane' := @spread_plane _ _ _ size used puts' 0 t ps k
  rw [sizeBefore_zero] at plane plane'
  rw [List.getElem?_map, List.getElem?_map, plane, plane', Option.map_map, Option.map_map]
  congr 1
  funext p
  dsimp only [Function.comp]
  split
  · rw [counts, counts']
  · rfl

end Ready

/-! ### The planes refer to the frame -/

section Refer
variable {src dst : Buffer} (one : src.count = 1) (several : 1 < dst.count)
include one several

theorem pointed_eq : transferOutputBufferUserptr src dst =
    (.OK, (spread (fun s p total n => (s, { p with virt := (src.plane 0).virt + total, bytesused := n }))
      (pitcherGetBufferPlaneSize dst) (src.plane 0).bytesused 0 0 () dst.planes).2) :=
  if_pos ⟨one, several⟩

theorem shared_eq : transferOutputBufferDmabuf src dst =
    (.OK, (spread (fun s p total n =>
        (s, { p with dmafd := (src.plane 0).dmafd, bytesused := n, offset := total }))
      (pitcherGetBufferPlaneSize dst) (src.plane 0).bytesused 0 0 () dst.planes).2) :=
  if_pos ⟨one, several⟩

variable (mapped : ∀ q ∈ dst.planes, 0 < q.size)
include mapped

theorem pointed_split_iff :
    (∀ mem, (transferOutputBufferUserptr src dst).1 = .OK ∧
        SplitOf dst (transferOutputBufferUserptr src dst).2
          (min (src.plane 0).bytesused (sizeBefore dst.sizeOf dst.count))
          (stored mem (transferOutputBufferUserptr src dst).2)
          (span mem (src.plane 0).virt (min (src.plane 0).bytesused (sizeBefore dst.sizeOf dst.count)))) ↔
      PlanesReady src dst := by
  have puts (s : Unit) (p : BufRef) (total n : Nat) :
    ((s, { p with virt := (src.plane 0).virt + total, bytesused := n }) : Unit × BufRef).2 =
      { p with virt := (src.plane 0).virt + total, bytesused := n } := rfl
  have counts (p : BufRef) (total n : Nat) :
    ({ p with virt := (src.plane 0).virt + total, bytesused := n } : BufRef).bytesused = n := rfl
  rw [pointed_eq one several]
  constructor
  · intro splits
    exact (split_sum_iff mapped several puts counts ()).mp (splits fun _ => 0).2.sum
  · intro ready mem
    obtain ⟨same, rest, -⟩ := PlanesReady.sizes ready.1
    refine ⟨rfl, ready.split mapped several puts counts () ?_⟩
    rw [← same]
    exact spread_reads puts counts (fun _ => span_length) (rest.mpr ready.2) fun k inside _ => rfl

theorem shared_split_iff :
    (∀ dma, (transferOutputBufferDmabuf src dst).1 = .OK ∧
        SplitOf dst (transferOutputBufferDmabuf src dst).2
          (min (src.plane 0).bytesused (sizeBefore dst.sizeOf dst.count))
          (exported dma true (transferOutputBufferDmabuf src dst).2)
          (span (dma (src.plane 0).dmafd) (src.plane 0).offset
            (min (src.plane 0).bytesused (sizeBefore dst.sizeOf dst.count)))) ↔
      PlanesReady src dst ∧ ((src.plane 0).bytesused = 0 ∨ (src.plane 0).offset = 0) := by
  have puts (s : Unit) (p : BufRef) (total n : Nat) :
    ((s, { p with dmafd := (src.plane 0).dmafd, bytesused := n, offset := total }) : Unit × BufRef).2 =
      { p with dmafd := (src.plane 0).dmafd, bytesused := n, offset := total } := rfl
  have counts (p : BufRef) (total n : Nat) :
    ({ p with dmafd := (src.plane 0).dmafd, bytesused := n, offset := total } : BufRef).bytesused = n := rfl
  have total := total_pos mapped several
  rw [shared_eq one several]
  have data (ready : PlanesReady src dst) (dma : Int → Nat → UInt8) := by
    obtain ⟨same, rest, -⟩ := PlanesReady.sizes ready.1
    have reads := @spread_reads _ _ _ _ _ puts counts () dst.planes _
      (fun p => span (dma p.dmafd) (if true then p.offset else 0) p.bytesused) (dma (src.plane 0).dmafd) 0
      (fun _ => span_length) (rest.mpr ready.2) fun k inside _ => by
        rw [Nat.zero_add]
        rfl
    rw [← Buffer.count, same] at reads
    exact reads
  constructor
  · intro splits
    have ready := (split_sum_iff mapped several puts counts ()).mp (splits fun _ _ => 0).2.sum
    refine ⟨ready, or_iff_not_imp_left.mpr fun some_data => ?_⟩
    apply (@offset_lost_iff (src.plane 0).dmafd _ (min (src.plane 0).bytesused (sizeBefore dst.sizeOf dst.count))
      (by omega)).mp
    intro dma
    exact (data ready dma).symm.trans (splits dma).2.data
  · rintro ⟨ready, start⟩ dma
    refine ⟨rfl, ready.split mapped several puts counts () ?_⟩
    rcases start with none | start
    · rw [none, Nat.zero_min, span_zero]
      have all := data ready dma
      rw [none, Nat.zero_min, span_zero] at all
      exact all
    · rw [start]
      exact data ready dma

end Refer

/-! ### The frame is copied -/

section Mapped
variable {src dst : Buffer} (one : src.count = 1) (several : 1 < dst.count)
  {splane dplane : BufRef} {mem : Nat → UInt8}
include one several

theorem copied_refused (refused : (pitcherCopyBufferData splane dplane mem src dst).1 ≠ .OK) :
    transferOutputBufferMmap splane dplane mem src dst =
      (.OK, spread (copyPart (src.plane 0)) (pitcherGetBufferPlaneSize dst) (src.plane 0).bytesused 0 0 mem
        dst.planes) := by
  unfold transferOutputBufferMmap
  split
  case h_1 made => exact absurd (congrArg Prod.fst made) refused
  case h_2 => exact if_pos ⟨one, several⟩

/-- Of a compressed frame without data nothing is copied, as in the loop. -/
theorem copied_empty {sfmt dfmt : PixFmtInfo} (sknown : src.format = some sfmt) (dknown : dst.format = some dfmt)
    (same : sfmt.format = dfmt.format) (plain : sfmt.untiled) (sfilled : sfmt.Filled)
    (compressed : sfmt.format.compressed) (none : (src.plane 0).bytesused = 0) :
    transferOutputBufferMmap splane dplane mem src dst =
      (.OK, spread (copyPart (src.plane 0)) (pitcherGetBufferPlaneSize dst) (src.plane 0).bytesused 0 0 mem
        dst.planes) := by
  have sfits : src.Fits sfmt := ⟨sfilled.numPlanes_pos, .inl one⟩
  obtain ⟨made, -⟩ := @copied_frame src dst sfmt dfmt splane dplane mem sknown dknown same plain compressed _ _
    (only_plane sknown sfilled compressed sfits splane).2 rfl
  rw [none, if_neg (Nat.not_lt_zero _), copy_nothing] at made
  obtain ⟨p, ps, planes⟩ : ∃ p ps, dst.planes = p :: ps :=
    List.exists_cons_of_length_pos (Nat.lt_trans Nat.one_pos several)
  unfold transferOutputBufferMmap
  rw [made, none, planes]
  simp only [spread, Nat.zero_sub, Nat.zero_min, Nat.zero_le, if_true, copyPart, copy_nothing]
  rfl

theorem PlanesReady.copied (layout : Layout src dst) (ready : PlanesReady src dst) :
    SplitOf dst
      (spread (copyPart (src.plane 0)) (pitcherGetBufferPlaneSize dst) (src.plane 0).bytesused 0 0 mem dst.planes).2
      (min (src.plane 0).bytesused (sizeBefore dst.sizeOf dst.count))
      (stored
        (spread (copyPart (src.plane 0)) (pitcherGetBufferPlaneSize dst) (src.plane 0).bytesused 0 0 mem dst.planes).1
        (spread (copyPart (src.plane 0)) (pitcherGetBufferPlaneSize dst) (src.plane 0).bytesused 0 0 mem dst.planes).2)
      (span mem (src.plane 0).virt (min (src.plane 0).bytesused (sizeBefore dst.sizeOf dst.count))) := by
  have puts (mem : Nat → UInt8) (p : BufRef) (total n : Nat) :
    (copyPart (src.plane 0) mem p total n).2 = { p with bytesused := n } := rfl
  have counts (p : BufRef) (_ n : Nat) : ({ p with bytesused := n } : BufRef).bytesused = n := rfl
  have alone : src.plane 0 ∈ src.planes := Buffer.plane_mem (by omega)
  have planes : Planes (pitcherGetBufferPlaneSize dst) 0 dst.planes := by
    refine ⟨?_, layout.own⟩
    intro k inside
    rw [Nat.zero_add]
    exact plane_size_le several inside
  have source : ∀ q ∈ dst.planes, Apart (src.plane 0).virt (src.plane 0).bytesused q.virt q.size := by
    intro q mem
    have used := layout.used _ alone
    exact (layout.others _ alone q mem).part (by omega) (by omega)
  obtain ⟨same, rest, -⟩ := PlanesReady.sizes ready.1
  apply ready.split layout.mapped several puts counts
  rw [← same]
  apply spread_reads puts counts (fun _ => span_length) (rest.mpr ready.2)
  intro k inside reached
  have copies := @spread_copies _ _ _ mem 0 dst.planes planes source k inside (by rwa [Nat.zero_add])
  rw [sizeBefore_zero, Nat.zero_add] at copies
  exact copies

end Mapped

/-! ### A picture is copied -/

section Pictures
variable {src dst : Buffer} {sfmt dfmt : PixFmtInfo}

theorem modify_first {planes : List BufRef} {i : Nat} (later : 0 < i) {f : BufRef → BufRef} :
    (planes.modify i f).getD 0 {} = planes.getD 0 {} := by
  obtain ⟨k, rfl⟩ := Nat.exists_eq_succ_of_ne_zero (Nat.ne_of_gt later)
  cases planes with
  | nil => rfl
  | cons p ps => rfl

/-- The first plane has its own rows only. -/
theorem copyPlanes_first (several : 1 < dst.count) {left i : Nat} (later : 0 < i) {splane dplane : BufRef}
    {mem : Nat → UInt8} {planes : List BufRef} (length : planes.length = dst.count) :
    (copyPlanes src dst sfmt dfmt left i splane dplane mem planes).2.getD 0 {} = planes.getD 0 {} := by
  induction left generalizing i splane dplane mem planes with
  | zero => rfl
  | succ left ih =>
    have counts (n : Nat) : (countBytes planes i n).length = dst.count ∧
        (countBytes planes i n).getD 0 {} = planes.getD 0 {} := by
      unfold countBytes
      split
      · exact ⟨by rw [List.length_modify, length], modify_first later⟩
      · exact ⟨by rw [List.length_modify, length], modify_first (by omega)⟩
    rw [copyPlanes, ih (Nat.succ_pos i) (counts _).1, (counts _).2]

theorem copyPlanes_used_first (several : 1 < dst.count) (some_ : 0 < sfmt.numPlanes) {splane dplane : BufRef}
    {mem : Nat → UInt8} :
    ((copyPlanes src dst sfmt dfmt sfmt.numPlanes 0 splane dplane mem dst.planes).2.getD 0 {}).bytesused =
      copiedRows src sfmt dfmt 0 * (dfmt.planes 0).line := by
  obtain ⟨n, numPlanes⟩ := Nat.exists_eq_succ_of_ne_zero (Nat.ne_of_gt some_)
  have inside : 0 < dst.planes.length := Nat.lt_trans Nat.one_pos several
  have length (n : Nat) : (countBytes dst.planes 0 n).length = dst.count := by
    rw [countBytes, if_pos inside, List.length_modify]
    rfl
  rw [numPlanes, copyPlanes, copyPlanes_first several Nat.one_pos (length _), List.getD_eq_getElem?_getD,
    countBytes_getElem? inside, List.getElem?_eq_getElem inside]
  rfl

variable (layout : Layout src dst) (one : src.count = 1) (several : 1 < dst.count)
  (copied : Copied src dst sfmt dfmt) (each : dst.count = dfmt.numPlanes)
include layout one several copied each

/-- The rows are written to memories of their own, if those have room for them. -/
theorem Copied.rows_apart (room : ∀ i < dst.count,
      copiedRows src sfmt dfmt i * (dfmt.planes i).line ≤ dst.sizeOf i)
    (source : ∀ i < dst.count, ∀ j < copiedRows src sfmt dfmt i,
      src.rowAt sfmt i j + copiedLine src sfmt dfmt i ≤ (src.plane 0).virt + (src.plane 0).size)
    (sfits : src.Fits sfmt) (planes : sfmt.numPlanes = dfmt.numPlanes) : RowsApart src dst sfmt dfmt := by
  have place (i : Nat) : (src.place sfmt i).1 = 0 ∧ dst.place dfmt i = (i, 0) := by
    rw [Buffer.place, Buffer.place, if_neg (by omega), if_pos each]
    exact ⟨rfl, rfl⟩
  have target {k l : Nat} (below : k < dst.count) (row : l < copiedRows src sfmt dfmt k) :
      (dst.place dfmt k).2 + l * (dfmt.planes k).line + copiedLine src sfmt dfmt k ≤
        (dst.plane (dst.place dfmt k).1).size := by
    have ends := copied.row_end (by omega) row
    have large : _ ≤ (dst.plane k).size := room k below
    rw [(place k).2]
    dsimp only
    omega
  constructor
  case narrow => exact fun i below => copied.line_le (by omega)
  case written =>
    intro i iBelow k kBelow less j jRow l lRow
    have lines (i : Nat) : copiedLine src sfmt dfmt i = dfmt.desc.lineOf i (min (src.shown sfmt).1 dfmt.width) := by
      rw [copiedLine, copied.desc]
    have iRoom := target (by omega : i < dst.count) jRow
    have kRoom := target (by omega : k < dst.count) lRow
    rw [copiedRows, copied.desc] at jRow
    rw [lines] at iRoom kRoom ⊢
    rw [lines]
    exact rows_written_apart layout.own copied.filled copied.plain (Nat.min_le_right _ _) (Nat.min_le_right _ _)
      (by omega) (by omega) less jRow iRoom kRoom
  case read =>
    intro i iBelow k kBelow j jRow l lRow
    have inside := source i (by omega) j jRow
    unfold Buffer.rowAt at inside
    rw [(place i).1] at inside
    exact rows_read_apart layout sfits copied.fits iBelow (by omega) (by rw [(place i).1]; omega)
      (target (by omega) lRow)

omit layout one several in
/-- What is counted in each plane. -/
theorem Copied.plane (planes : sfmt.numPlanes = dfmt.numPlanes) {splane dplane : BufRef} {mem : Nat → UInt8} {k : Nat}
    (inside : k < dst.count) :
    (copyPlanes src dst sfmt dfmt sfmt.numPlanes 0 splane dplane mem dst.planes).2.getD k {} =
      { dst.plane k with bytesused := copiedRows src sfmt dfmt k * (dfmt.planes k).line } := by
  rw [copyPlanes_planes, List.getD_eq_getElem?_getD, planes, counted_planes copied.fits.1 copied.fits.2,
    List.getElem?_eq_getElem inside, Option.map_some, Option.getD_some, Buffer.plane_eq inside, counted,
    if_pos (show dst.planes.length = dfmt.numPlanes from each)]

omit layout one several in
/-- The bytes of the planes after the copy. -/
theorem Copied.stored_planes (planes : sfmt.numPlanes = dfmt.numPlanes) {splane dplane : BufRef}
    {mem mem' : Nat → UInt8} :
    stored mem' (copyPlanes src dst sfmt dfmt sfmt.numPlanes 0 splane dplane mem dst.planes).2 =
      (List.range dst.count).flatMap fun k =>
        span mem' (dst.plane k).virt (copiedRows src sfmt dfmt k * (dfmt.planes k).line) := by
  have all := map_getD_range (copyPlanes src dst sfmt dfmt sfmt.numPlanes 0 splane dplane mem dst.planes).2
  rw [copyPlanes_length] at all
  rw [← all, stored, List.flatMap_map]
  apply List.flatMap_congr
  intro k here
  rw [copied.plane each planes (List.mem_range.mp here)]

variable (sknown : src.format = some sfmt) (dknown : dst.format = some dfmt) (sfits : src.Fits sfmt)
  (planes : sfmt.numPlanes = dfmt.numPlanes)
include sknown dknown sfits planes

/-- Rows that lie alike make the shares of the planes. -/
theorem Copied.split (alike : PicturesAlike src dst sfmt dfmt) {splane dplane : BufRef} {mem : Nat → UInt8} :
    SplitOf dst (copyPlanes src dst sfmt dfmt sfmt.numPlanes 0 splane dplane mem dst.planes).2
      (min (src.plane 0).bytesused (sizeBefore dst.sizeOf dst.count))
      (stored (copyPlanes src dst sfmt dfmt sfmt.numPlanes 0 splane dplane mem dst.planes).1
        (copyPlanes src dst sfmt dfmt sfmt.numPlanes 0 splane dplane mem dst.planes).2)
      (span mem (src.plane 0).virt (min (src.plane 0).bytesused (sizeBefore dst.sizeOf dst.count))) := by
  have alone : src.plane 0 ∈ src.planes := Buffer.plane_mem (by omega)
  have data := layout.used _ alone
  have room : ∀ i < dst.count, copiedRows src sfmt dfmt i * (dfmt.planes i).line ≤ dst.sizeOf i := by
    intro i below
    rw [(alike.2 i below).1]
    exact Nat.min_le_right _ _
  have apart : RowsApart src dst sfmt dfmt := by
    apply copied.rows_apart layout one several each room ?_ sfits planes
    intro i below j row
    obtain ⟨share, line, rows⟩ := alike.2 i below
    have ends := copied.row_end (by omega) row
    have part : shareOf dst.sizeOf (src.plane 0).bytesused i ≤
      (src.plane 0).bytesused - sizeBefore dst.sizeOf i := Nat.min_le_left _ _
    have long := copied.line_pos (show i < dfmt.numPlanes by omega)
    rw [rows j row]
    omega
  have whole := map_getD_range (copyPlanes src dst sfmt dfmt sfmt.numPlanes 0 splane dplane mem dst.planes).2
  rw [copyPlanes_length] at whole
  constructor
  case sum =>
    rw [← whole, List.map_map, ← shares_sum]
    congr 1
    apply List.map_congr_left
    intro k here
    have inside := List.mem_range.mp here
    rw [Function.comp, copied.plane each planes inside]
    exact (alike.2 k inside).1
  case data =>
    rw [copied.stored_planes each planes, ← shares_span]
    apply List.flatMap_congr
    intro k here
    have inside := List.mem_range.mp here
    obtain ⟨share, line, rows⟩ := alike.2 k inside
    rw [← share]
    apply span_rows
    intro j row
    have place : (dst.plane k).virt + j * (dfmt.planes k).line = dst.rowAt dfmt k j := by
      rw [Buffer.rowAt, Buffer.place, if_pos each]
      rfl
    rw [place, ← rows j row, ← line]
    exact copyPlanes_rows sfits copied.fits sknown dknown planes.symm (Nat.zero_add _) apart (Nat.zero_le k)
      (by omega) row
  case room =>
    intro k inside
    rw [copied.plane each planes inside]
    exact room k inside

omit layout one several sknown sfits in
/-- The byte behind the first row of a plane is not written. -/
theorem Copied.behind_first (memories : Memories dst) {splane dplane : BufRef} {mem : Nat → UInt8}
    (room : ∀ i < dst.count, copiedRows src sfmt dfmt i * (dfmt.planes i).line ≤ dst.sizeOf i) {i : Nat}
    (below : i < dst.count) (short : copiedLine src sfmt dfmt i < (dfmt.planes i).line) :
    span (copyPlanes src dst sfmt dfmt sfmt.numPlanes 0 splane dplane mem dst.planes).1
        ((dst.plane i).virt + copiedLine src sfmt dfmt i) 1 =
      span mem ((dst.plane i).virt + copiedLine src sfmt dfmt i) 1 := by
  apply copyPlanes_apart copied.fits dknown planes.symm (Nat.zero_add _)
  intro k _ kBelow l row
  have place : dst.rowAt dfmt k l = (dst.plane k).virt + l * (dfmt.planes k).line := by
    rw [Buffer.rowAt, Buffer.place, if_pos each]
    rfl
  have ends := copied.row_end (show k < dfmt.numPlanes by omega) row
  have least := Nat.mul_le_mul_right (dfmt.planes i).line (Nat.succ_le_of_lt (copied.rows_pos i))
  have large := room k (by omega)
  have own := room i below
  unfold Buffer.sizeOf at large own
  rw [place]
  by_cases here : i = k
  · subst here
    rcases Nat.eq_zero_or_pos l with rfl | later
    · exact .inr (.inr (.inr (by omega)))
    · have behind := Nat.mul_le_mul_right (dfmt.planes i).line (Nat.succ_le_of_lt later)
      exact .inr (.inr (.inl (by omega)))
  · exact (memories.apart below (by omega) here).part (by omega) (by omega)

/-- The shares of the planes come of rows that lie alike. -/
theorem Copied.alike (lines : sfmt.byLine) {splane dplane : BufRef}
    (shares : ∀ k < dst.count, copiedRows src sfmt dfmt k * (dfmt.planes k).line =
      shareOf dst.sizeOf (src.plane 0).bytesused k)
    (data : ∀ mem, stored (copyPlanes src dst sfmt dfmt sfmt.numPlanes 0 splane dplane mem dst.planes).1
        (copyPlanes src dst sfmt dfmt sfmt.numPlanes 0 splane dplane mem dst.planes).2 =
      span mem (src.plane 0).virt (min (src.plane 0).bytesused (sizeBefore dst.sizeOf dst.count))) :
    PicturesAlike src dst sfmt dfmt := by
  have alone : src.plane 0 ∈ src.planes := Buffer.plane_mem (by omega)
  have used := layout.used _ alone
  have room : ∀ i < dst.count, copiedRows src sfmt dfmt i * (dfmt.planes i).line ≤ dst.sizeOf i := by
    intro i below
    rw [shares i below]
    exact Nat.min_le_right _ _
  have first (i : Nat) : (src.place sfmt i).1 = 0 := by
    rw [Buffer.place, if_neg (by omega)]
  have place (k j : Nat) : (dst.plane k).virt + j * (dfmt.planes k).line = dst.rowAt dfmt k j := by
    rw [Buffer.rowAt, Buffer.place, if_pos each]
    rfl
  have apart : RowsApart src dst sfmt dfmt := by
    apply copied.rows_apart layout one several each room ?_ sfits planes
    intro i below j row
    have least := rowsOf_mono sfmt.desc i (Nat.min_le_left (src.shown sfmt).2 dfmt.height)
    have narrow : copiedLine src sfmt dfmt i ≤ _ :=
      lineOf_mono sfmt.desc i (Nat.min_le_left (src.shown sfmt).1 dfmt.width)
    have inside := layout.shown sfmt sknown lines sfits i (by omega) j (Nat.lt_of_lt_of_le row least)
    unfold Buffer.RowIn at inside
    rw [Buffer.rowAt]
    rw [first] at inside ⊢
    dsimp only at inside
    omega
  -- Plane for plane, byte for byte.
  have cell (mem : Nat → UInt8) {k x : Nat} (inside : k < dst.count)
      (byte : x < copiedRows src sfmt dfmt k * (dfmt.planes k).line) :
      (copyPlanes src dst sfmt dfmt sfmt.numPlanes 0 splane dplane mem dst.planes).1 ((dst.plane k).virt + x) =
        mem ((src.plane 0).virt + sizeBefore dst.sizeOf k + x) := by
    have same := data mem
    rw [copied.stored_planes each planes, ← shares_span] at same
    have part := flatMap_range_inj (fun k inside => by rw [span_length, span_length, shares k inside]) same k inside
    rw [← shares k inside] at part
    exact span_eq_iff.mp part x byte
  have start {i j : Nat} (below : i < dst.count) (row : j < copiedRows src sfmt dfmt i) :
      src.rowAt sfmt i j = (src.plane 0).virt + sizeBefore dst.sizeOf i + j * (dfmt.planes i).line := by
    have ends := copied.row_end (by omega) row
    apply @span_determined UInt8 _ _ _ 0 1 (by decide) (copied.line_pos (show i < dfmt.numPlanes by omega))
    intro mem
    rw [← @copyPlanes_rows _ _ _ _ _ _ _ splane dplane dst.planes sfits copied.fits sknown
      dknown planes.symm (Nat.zero_add _) apart _ _ (Nat.zero_le i) (by omega) row, ← place, span_eq_iff]
    intro x column
    rw [Nat.add_assoc, cell mem below (by omega), Nat.add_assoc _ _ x]
  refine ⟨each, ?_⟩
  intro i below
  refine ⟨shares i below, ?_, fun j row => start below row⟩
  -- The byte behind the first row is not written.
  apply Nat.le_antisymm (copied.line_le (by omega))
  by_contra short
  have rows := copied.rows_pos i
  have least := Nat.mul_le_mul_right (dfmt.planes i).line (Nat.succ_le_of_lt rows)
  have memories : Memories dst := ⟨layout.mapped, layout.own⟩
  have same := @span_determined UInt8 ((dst.plane i).virt + copiedLine src sfmt dfmt i)
    ((src.plane 0).virt + sizeBefore dst.sizeOf i + copiedLine src sfmt dfmt i) 1 0 1 (by decide) Nat.one_pos
    fun mem => by
      rw [← @Copied.behind_first src dst sfmt dfmt copied each dknown planes memories splane dplane mem room
        i below (Nat.lt_of_not_le short), span_eq_iff]
      intro x one
      obtain rfl : x = 0 := by omega
      exact cell mem below (by omega)
  have share := shares i below
  have others := layout.others _ alone _ (Buffer.plane_mem below)
  have mapped := layout.mapped _ (Buffer.plane_mem below)
  unfold shareOf at share
  unfold Apart at others
  omega

end Pictures

/-! ### All three -/

section All
variable {src dst : Buffer} {sfmt dfmt : PixFmtInfo}

/-- What the loop of the copy leaves is what the other loops leave. -/
theorem PlanesReady.copied_alike (layout : Layout src dst) (one : src.count = 1) (several : 1 < dst.count)
    (ready : PlanesReady src dst) {splane dplane : BufRef} {mem : Nat → UInt8}
    (made : transferOutputBufferMmap splane dplane mem src dst =
      (.OK, spread (copyPart (src.plane 0)) (pitcherGetBufferPlaneSize dst) (src.plane 0).bytesused 0 0 mem
        dst.planes)) :
    let n := min (src.plane 0).bytesused (sizeBefore dst.sizeOf dst.count)
    let copied := transferOutputBufferMmap splane dplane mem src dst
    (copied.1 = .OK ∧ SplitOf dst copied.2.2 n (stored copied.2.1 copied.2.2) (span mem (src.plane 0).virt n)) ∧
      copied.2.2.map (·.bytesused) = (transferOutputBufferUserptr src dst).2.map (·.bytesused) := by
  dsimp only
  rw [made, pointed_eq one several]
  refine ⟨⟨rfl, PlanesReady.copied one several layout ready⟩, ?_⟩
  exact @spread_same_parts _ _ (fun p _ n => { p with bytesused := n }) _ _
    (fun p total n => { p with virt := (src.plane 0).virt + total, bytesused := n })
    (fun _ _ _ _ => rfl) (fun _ _ _ => rfl) (fun _ _ _ _ => rfl) (fun _ _ _ => rfl) _ _ _ _ _

/-- The shares are what the planes get that refer to the frame. -/
theorem PlanesReady.pointed_share (one : src.count = 1) (several : 1 < dst.count) (ready : PlanesReady src dst)
    {k : Nat} (inside : k < dst.count) :
    ((transferOutputBufferUserptr src dst).2.getD k {}).bytesused =
      shareOf dst.sizeOf (src.plane 0).bytesused k := by
  obtain ⟨-, rest, shares⟩ := PlanesReady.sizes ready.1
  rw [pointed_eq one several, ← shares k inside]
  exact ((@spread_share_iff _ _ (fun p total n => { p with virt := (src.plane 0).virt + total, bytesused := n }) _ _
    (fun _ _ _ _ => rfl) fun _ _ _ => rfl).mpr (rest.mpr ready.2) k inside).symm

theorem map_bytesused_iff {ps qs : List BufRef} (length : ps.length = qs.length) :
    ps.map (·.bytesused) = qs.map (·.bytesused) ↔
      ∀ k < ps.length, (ps.getD k {}).bytesused = (qs.getD k {}).bytesused := by
  constructor
  · intro same k inside
    have cell := congrArg (·[k]?) same
    simp only [List.getElem?_map, List.getElem?_eq_getElem inside,
      List.getElem?_eq_getElem (length ▸ inside : k < qs.length), Option.map_some, Option.some.injEq] at cell
    rw [List.getD_eq_getElem?_getD, List.getD_eq_getElem?_getD, List.getElem?_eq_getElem inside,
      List.getElem?_eq_getElem (length ▸ inside : k < qs.length)]
    exact cell
  · intro same
    rw [← map_getD_range ps, ← map_getD_range qs, ← length, List.map_map, List.map_map]
    exact List.map_congr_left fun k here => same k (List.mem_range.mp here)

/-- What is known of a picture whose formats are filled in. -/
theorem copied_of_filled (several : 1 < dst.count) (each : dst.count = dfmt.numPlanes)
    (same : sfmt.format = dfmt.format) (plain : sfmt.untiled) (sfilled : sfmt.Filled) (dfilled : dfmt.Filled)
    (raw : ¬sfmt.format.compressed) :
    Copied src dst sfmt dfmt ∧ sfmt.byLine ∧ sfmt.numPlanes = dfmt.numPlanes := by
  have planes : sfmt.numPlanes = dfmt.numPlanes := by
    rw [sfilled.cases.1, dfilled.cases.1]
    exact congrArg (·.numPlanes) (congrArg pixFmtDescriptors same)
  have lines : ¬sfmt.blank := by
    intro blank
    have single : sfmt.numPlanes = 1 := by
      rw [sfilled.cases.1, PixFmtInfo.desc]
      rcases of_decide_eq_true blank with is | is <;> rw [is] <;> rfl
    omega
  refine ⟨.of_filled ⟨dfilled.numPlanes_pos, .inr each⟩ same plain sfilled dfilled raw lines, ?_, planes⟩
  rw [PixFmtInfo.blank, decide_eq_true_iff, not_or] at lines
  exact decide_eq_true ⟨by simpa using raw, lines.1, lines.2, plain⟩

/-- Planes whose sizes are not found are ready for nothing. -/
theorem PlanesReady.none_of_lost (ready : PlanesReady src dst) (mapped : ∀ q ∈ dst.planes, 0 < q.size)
    (several : 1 < dst.count) (dknown : dst.format = some dfmt) (other : dst.count ≠ dfmt.numPlanes) :
    (src.plane 0).bytesused = 0 := by
  refine ready.1.resolve_right fun sizes => ?_
  have first : 0 < dst.sizeOf 0 := mapped _ (Buffer.plane_mem (by omega))
  rw [← sizes 0 (by omega), plane_sizes_lost dknown several other] at first
  exact Nat.lt_irrefl _ first

theorem shared_parts (one : src.count = 1) (several : 1 < dst.count) :
    (transferOutputBufferDmabuf src dst).2.map (·.bytesused) =
      (transferOutputBufferUserptr src dst).2.map (·.bytesused) := by
  rw [pointed_eq one several, shared_eq one several]
  exact @spread_same_parts _ _
    (fun p total n => { p with dmafd := (src.plane 0).dmafd, bytesused := n, offset := total }) _ _
    (fun p total n => { p with virt := (src.plane 0).virt + total, bytesused := n })
    (fun _ _ _ _ => rfl) (fun _ _ _ => rfl) (fun _ _ _ _ => rfl) (fun _ _ _ => rfl) _ _ _ _ _

/-- The copied picture counts what the planes get that refer to the frame, if it counts the
shares. -/
theorem PlanesReady.picture_parts (ready : PlanesReady src dst) (one : src.count = 1) (several : 1 < dst.count)
    {splane dplane : BufRef} {mem : Nat → UInt8} :
    (copyPlanes src dst sfmt dfmt sfmt.numPlanes 0 splane dplane mem dst.planes).2.map (·.bytesused) =
        (transferOutputBufferUserptr src dst).2.map (·.bytesused) ↔
      ∀ k < dst.count,
        ((copyPlanes src dst sfmt dfmt sfmt.numPlanes 0 splane dplane mem dst.planes).2.getD k {}).bytesused =
          shareOf dst.sizeOf (src.plane 0).bytesused k := by
  have length : (copyPlanes src dst sfmt dfmt sfmt.numPlanes 0 splane dplane mem dst.planes).2.length =
      (transferOutputBufferUserptr src dst).2.length := by
    rw [copyPlanes_length, transferOutputBufferUserptr, referToPlanes_length]
    rfl
  rw [map_bytesused_iff length, copyPlanes_length]
  apply forall₂_congr
  intro k inside
  rw [ready.pointed_share one several inside]

/-- A picture is not copied for nothing: its first rows are counted. -/
theorem copied_first_pos (several : 1 < dst.count) (sfilled : sfmt.Filled) (dfilled : dfmt.Filled)
    {splane dplane : BufRef} {mem : Nat → UInt8} :
    0 < ((copyPlanes src dst sfmt dfmt sfmt.numPlanes 0 splane dplane mem dst.planes).2.getD 0 {}).bytesused := by
  have tall := (@shown_pos src sfmt sfilled).2
  have low := dfilled.sized.2
  have rows : 0 < copiedRows src sfmt dfmt 0 := rowsOf_pos _ (by omega) 0
  rw [copyPlanes_used_first several sfilled.numPlanes_pos]
  exact Nat.mul_pos rows (dfilled.line_pos dfilled.numPlanes_pos)

/-- Transfers that split alike have pictures that lie as they are split. -/
theorem SplitsAlike.pictures (splits : SplitsAlike src dst) (one : src.count = 1) (several : 1 < dst.count)
    (layout : Layout src dst) (ready : PlanesReady src dst) (sknown : src.format = some sfmt)
    (dknown : dst.format = some dfmt) (same : sfmt.format = dfmt.format) (plain : sfmt.untiled)
    (raw : ¬sfmt.format.compressed) (sfilled : sfmt.Filled) (dfilled : dfmt.Filled) :
    PicturesAlike src dst sfmt dfmt := by
  have made (mem : Nat → UInt8) := @mmap_raw src dst {} {} mem sfmt dfmt sknown dknown same plain raw
  have parts := (splits {} {} (fun _ => 0) fun _ _ => 0).2.2.2.1
  rw [made] at parts
  have shares := (ready.picture_parts one several).mp parts
  by_cases each : dst.count = dfmt.numPlanes
  · obtain ⟨copied, lines, planes⟩ := copied_of_filled several each same plain sfilled dfilled raw
    apply @Copied.alike _ _ _ _ layout one several copied each sknown dknown ⟨sfilled.numPlanes_pos, .inl one⟩ planes
      lines {} {}
    · intro k inside
      rw [← shares k inside, copied.plane each planes inside]
    · intro mem
      have data := (splits {} {} mem fun _ _ => 0).1.2.data
      rw [made] at data
      exact data
  · -- A picture without a place for its planes is counted all the same.
    have none := ready.none_of_lost layout.mapped several dknown each
    have some_ := @copied_first_pos src dst sfmt dfmt several sfilled dfilled {} {} fun _ => 0
    rw [shares 0 (by omega), none, shareOf, Nat.zero_sub, Nat.zero_min] at some_
    exact absurd some_ (Nat.lt_irrefl 0)

/-- The three transfers split a frame alike, and lose nothing of it, exactly if the planes
are ready, the frame starts where its DMA buffer does, and a picture lies as it is split. -/
theorem transfers_split_iff (src dst : Buffer) (one : src.count = 1) (several : 1 < dst.count)
    (layout : Layout src dst)
    (filled : ∀ fmt, src.format = some fmt ∨ dst.format = some fmt → fmt.Filled) :
    SplitsAlike src dst ↔ Splittable src dst := by
  constructor
  · intro splits
    have ready := (pointed_split_iff one several layout.mapped).mp fun mem =>
      (splits {} {} mem fun _ _ => 0).2.1
    have shared := (shared_split_iff one several layout.mapped).mp fun dma =>
      (splits {} {} (fun _ => 0) dma).2.2.1
    refine ⟨ready, shared.2, ?_⟩
    intro sfmt dfmt sknown dknown same plain raw
    exact SplitsAlike.pictures splits one several layout ready sknown dknown same plain raw
      (filled sfmt (.inl sknown)) (filled dfmt (.inr dknown))
  · rintro ⟨ready, start, pictures⟩ splane dplane mem dma
    have pointed := (pointed_split_iff one several layout.mapped).mpr ready mem
    have shared := (shared_split_iff one several layout.mapped).mpr ⟨ready, start⟩ dma
    by_cases ok : (pitcherCopyBufferData splane dplane mem src dst).1 = .OK
    case neg =>
      obtain ⟨copied, parts⟩ := ready.copied_alike layout one several (copied_refused one several ok)
      exact ⟨copied, pointed, shared, parts, shared_parts one several⟩
    case pos =>
      obtain ⟨sfmt, dfmt, sknown, dknown, same, plain⟩ := copied_formats ok
      have sfilled := filled sfmt (.inl sknown)
      have dfilled := filled dfmt (.inr dknown)
      by_cases compressed : sfmt.format.compressed
      · have other : dst.count ≠ dfmt.numPlanes := by
          intro each
          have alone := (compressed_one dfilled ⟨dfilled.numPlanes_pos, .inr each⟩ (same ▸ compressed)).1
          omega
        have none := ready.none_of_lost layout.mapped several dknown other
        obtain ⟨copied, parts⟩ := ready.copied_alike layout one several
          (copied_empty one several sknown dknown same plain sfilled compressed none)
        exact ⟨copied, pointed, shared, parts, shared_parts one several⟩
      · have alike := pictures sfmt dfmt sknown dknown same plain compressed
        obtain ⟨copied, lines, planes⟩ := copied_of_filled several alike.1 same plain sfilled dfilled compressed
        have split := @Copied.split _ _ _ _ layout one several copied alike.1 sknown dknown
          ⟨sfilled.numPlanes_pos, .inl one⟩ planes alike splane dplane mem
        have parts := (@PlanesReady.picture_parts src dst sfmt dfmt ready one several splane dplane mem).mpr fun k inside => by
          rw [copied.plane alike.1 planes inside]
          exact (alike.2 k inside).1
        have made := @mmap_raw src dst splane dplane mem sfmt dfmt sknown dknown same plain compressed
        dsimp only
        rw [made]
        exact ⟨⟨rfl, split⟩, pointed, shared, parts, shared_parts one several⟩

end All

/-- Six bytes in one plane, for two planes of four. -/
theorem transfers_split_two :
    SplitsAlike { planes := [{ virt := 4096, size := 16, bytesused := 6 }] }
      { planes := [{ virt := 8192, size := 4 }, { virt := 12288, size := 4 }] } := by
  refine (transfers_split_iff _ _ rfl (by decide) ⟨by decide, by decide, by decide, by decide, ?_, ?_⟩ ?_).mpr
    ⟨⟨.inr (by decide), by unfold Rest; decide⟩, .inr rfl, ?_⟩
  · rintro fmt (known | known) <;> cases known
  · exact fun fmt known => by cases known
  · rintro fmt (known | known) <;> cases known
  · exact fun sfmt dfmt known => by cases known

/-- Three bytes fit in the first plane, and the second one keeps those of an earlier frame. -/
theorem transfers_split_stale :
    ¬SplitsAlike { planes := [{ virt := 4096, size := 16, bytesused := 3 }] }
      { planes := [{ virt := 8192, size := 4, bytesused := 4 }, { virt := 12288, size := 4, bytesused := 4 }] } := by
  intro splits
  have sum := (splits {} {} (fun _ => 0) fun _ _ => 0).2.1.2.sum
  exact absurd sum (by decide)

end ImxTest.Pitcher
