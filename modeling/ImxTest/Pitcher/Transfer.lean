import ImxTest.Pitcher.PictureCopy

/-! The three ways in which pitcher/v4l2.c hands a frame to a buffer of the driver,
and when the frame arrives whole. -/
namespace ImxTest.Pitcher
open Lib.Copy

/-- `enum v4l2_memory` -/
inductive V4l2Memory where
  | MMAP | USERPTR | OVERLAY | DMABUF
deriving DecidableEq, Repr

section Functions
variable {σ : Type}

/-- The loop over the planes of `dst`, from `i` on, where the source has one plane
with `used` bytes; `total` of them are in the planes before. -/
def spread (set : σ → BufRef → (total bytesused : Nat) → σ × BufRef) (size : Nat → Nat) (used : Nat) :
    (i total : Nat) → σ → List BufRef → σ × List BufRef
  | _, _, s, [] => (s, [])
  | i, total, s, p :: ps =>
    let bytesused := min (used - total) (size i)
    let (s, p) := set s p total bytesused
    if used ≤ total + bytesused then (s, p :: ps)
    else
      let (s, ps) := spread set size used (i + 1) (total + bytesused) s ps
      (s, p :: ps)

/-- `__transfer_output_buffer_userptr` and `_dmabuf`, which differ in what they
write to a plane. -/
def referToPlanes (set : BufRef → (total bytesused : Nat) → BufRef) (src dst : Buffer) :
    Ret × List BufRef :=
  if src.count = 1 ∧ 1 < dst.count then
    (.OK, (spread (fun s p total n => (s, set p total n)) (pitcherGetBufferPlaneSize dst)
      (src.plane 0).bytesused 0 0 () dst.planes).2)
  else if src.count = dst.count then (.OK, src.planes)
  else (.E_INVAL, dst.planes)

def transferOutputBufferUserptr (src dst : Buffer) : Ret × List BufRef :=
  referToPlanes (fun p total n => { p with virt := (src.plane 0).virt + total, bytesused := n }) src dst

def transferOutputBufferDmabuf (src dst : Buffer) : Ret × List BufRef :=
  referToPlanes
    (fun p total n => { p with dmafd := (src.plane 0).dmafd, bytesused := n, offset := total }) src dst

/-- The loop over the planes where both buffers have as many. -/
def copyEach : (mem : Nat → UInt8) → (src dst : List BufRef) → Ret × (Nat → UInt8) × List BufRef
  | mem, s :: ss, d :: ds =>
    if d.size < s.bytesused then (.E_INVAL, mem, d :: ds)
    else
      let (ret, mem, ds) := copyEach (copy mem d.virt s.virt s.bytesused) ss ds
      (ret, mem, { d with bytesused := s.bytesused } :: ds)
  | mem, _, ds => (.OK, mem, ds)

/-- What the loop of `__transfer_output_buffer_mmap` does with a plane. -/
def copyPart (first : BufRef) (mem : Nat → UInt8) (p : BufRef) (total n : Nat) :
    (Nat → UInt8) × BufRef :=
  (copy mem p.virt (first.virt + total) n, { p with bytesused := n })

def transferOutputBufferMmap (splane dplane : BufRef) (mem : Nat → UInt8) (src dst : Buffer) :
    Ret × (Nat → UInt8) × List BufRef :=
  match pitcherCopyBufferData splane dplane mem src dst with
  | (.OK, mem, planes) => (.OK, mem, planes)
  | _ =>
    if src.count = 1 ∧ 1 < dst.count then
      (.OK, spread (copyPart (src.plane 0)) (pitcherGetBufferPlaneSize dst)
        (src.plane 0).bytesused 0 0 mem dst.planes)
    else if src.count = dst.count then copyEach mem src.planes dst.planes
    else (.E_INVAL, mem, dst.planes)

/-- The switch of `__run_v4l2_output`. -/
def transferOutputBuffer (memory : V4l2Memory) (splane dplane : BufRef) (mem : Nat → UInt8)
    (src dst : Buffer) : Ret × (Nat → UInt8) × List BufRef :=
  match memory with
  | .MMAP => transferOutputBufferMmap splane dplane mem src dst
  | .USERPTR => ((transferOutputBufferUserptr src dst).1, mem, (transferOutputBufferUserptr src dst).2)
  | .DMABUF => ((transferOutputBufferDmabuf src dst).1, mem, (transferOutputBufferDmabuf src dst).2)
  | .OVERLAY => (.E_NOT_SUPPORT, mem, dst.planes)

end Functions

/-! ## The data of a frame -/

/-- The bytes of some planes in memory. -/
def stored (mem : Nat → UInt8) (planes : List BufRef) : List UInt8 :=
  planes.flatMap fun p => span mem p.virt p.bytesused

/-- The bytes of some planes in the buffers of their file descriptors; the offset
is passed on with several planes only. -/
def exported (dma : Int → Nat → UInt8) (multiplanar : Bool) (planes : List BufRef) : List UInt8 :=
  planes.flatMap fun p => span (dma p.dmafd) (if multiplanar then p.offset else 0) p.bytesused

/-- `planes`, with `mem'`, have the data that `src` has in `mem`, and nothing else.
Where both buffers have a format, it says where the data lies. -/
def Carries (memory : V4l2Memory) (multiplanar : Bool) (mem mem' : Nat → UInt8)
    (dma : Int → Nat → UInt8) (src dst : Buffer) (planes : List BufRef) : Prop :=
  match memory with
  | .MMAP =>
    match src.format, dst.format with
    | some sfmt, some dfmt =>
      if sfmt.untiled then
        src.Fits sfmt ∧ dst.Fits dfmt ∧
          if sfmt.byLine then ShowsPicture mem mem' src dst planes sfmt dfmt
          else stored mem' planes = stored mem src.planes
      else stored mem' planes = stored mem src.planes
    | _, _ => stored mem' planes = stored mem src.planes
  | .DMABUF => exported dma multiplanar planes = exported dma true src.planes
  | _ => stored mem' planes = stored mem src.planes

/-- All planes of `dst` before plane `k`. -/
def sizeBefore (size : Nat → Nat) (k : Nat) : Nat := ((List.range k).map size).sum

/-- The planes have room for `used` bytes, and those that get none have none left. -/
def Spreads (size : Nat → Nat) (used : Nat) (planes : List BufRef) : Prop :=
  used ≤ sizeBefore size planes.length ∧
    ∀ k < planes.length, used ≤ sizeBefore size k → (planes.getD k {}).bytesused = 0

/-- The planes of `src` can be copied to those of `dst`. -/
def CopyableBytes (src dst : Buffer) : Prop :=
  (src.count = dst.count ∧ ∀ k < dst.count, (src.plane k).bytesused ≤ (dst.plane k).size) ∨
    src.count = 1 ∧ 1 < dst.count ∧
      Spreads (pitcherGetBufferPlaneSize dst) (src.plane 0).bytesused dst.planes

/-- The frame in `src` can be handed to `dst` whole. -/
def Transferable (memory : V4l2Memory) (multiplanar : Bool) (src dst : Buffer) : Prop :=
  let spreads := src.count = 1 ∧ 1 < dst.count ∧
    Spreads (pitcherGetBufferPlaneSize dst) (src.plane 0).bytesused dst.planes
  match memory with
  | .MMAP =>
    match src.format, dst.format with
    | some sfmt, some dfmt =>
      if sfmt.untiled then
        src.Fits sfmt ∧ dst.Fits dfmt ∧
          if sfmt.byLine then Copyable src dst sfmt dfmt
          else sfmt.format.compressed ∧ (src.plane 0).bytesused ≤ (dst.plane 0).size
      else CopyableBytes src dst
    | _, _ => CopyableBytes src dst
  | .USERPTR => src.count = dst.count ∨ spreads
  | .DMABUF =>
    (src.count = dst.count ∧ (multiplanar ∨ (src.plane 0).offset = 0)) ∨
      spreads ∧ (src.plane 0).offset = 0
  | .OVERLAY => False

/-! ## One plane handed to several -/

section Spread
variable {size : Nat → Nat} {used : Nat}

theorem sizeBefore_succ (size : Nat → Nat) (k : Nat) :
    sizeBefore size (k + 1) = sizeBefore size k + size k := by
  simp [sizeBefore, List.range_succ]

theorem sizeBefore_mono (size : Nat → Nat) {i k : Nat} (less : i ≤ k) :
    sizeBefore size i ≤ sizeBefore size k := by
  induction less with
  | refl => exact Nat.le_refl _
  | step _ ih =>
    rw [sizeBefore_succ]
    omega

/-- From plane `i` on; `used` reaches behind the planes before it. -/
def SpreadsFrom (size : Nat → Nat) (used i : Nat) (planes : List BufRef) : Prop :=
  used ≤ sizeBefore size (i + planes.length) ∧
    ∀ k < planes.length, used ≤ sizeBefore size (i + k) → (planes.getD k {}).bytesused = 0

theorem spreadsFrom_cons {i : Nat} {p : BufRef} {ps : List BufRef} (before : sizeBefore size i < used) :
    SpreadsFrom size used i (p :: ps) ↔
      if used ≤ sizeBefore size (i + 1) then ∀ q ∈ ps, q.bytesused = 0
      else SpreadsFrom size used (i + 1) ps := by
  have shift : ∀ k, i + (k + 1) = i + 1 + k := fun k => by omega
  have tail : SpreadsFrom size used i (p :: ps) ↔ SpreadsFrom size used (i + 1) ps := by
    unfold SpreadsFrom
    rw [List.length_cons, shift]
    apply and_congr_right
    intro _
    constructor
    · intro empty k inside reached
      have := empty (k + 1) (by omega)
      rw [shift, List.getD_cons_succ] at this
      exact this reached
    · intro empty k inside reached
      cases k with
      | zero => rw [Nat.add_zero] at reached; omega
      | succ k =>
        rw [shift] at reached
        rw [List.getD_cons_succ]
        exact empty k (by omega) reached
  rw [tail]
  split
  case isFalse => rfl
  case isTrue reached =>
    constructor
    · rintro ⟨_, empty⟩ q mem
      obtain ⟨k, inside, rfl⟩ := List.getElem_of_mem mem
      have := empty k inside (Nat.le_trans reached (sizeBefore_mono size (by omega)))
      rwa [List.getD_eq_getElem?_getD, List.getElem?_eq_getElem inside] at this
    · intro empty
      refine ⟨Nat.le_trans reached (sizeBefore_mono size (by omega)), ?_⟩
      intro k inside _
      rw [List.getD_eq_getElem?_getD, List.getElem?_eq_getElem inside]
      exact empty _ (List.getElem_mem inside)

theorem flatMap_nil_iff {β : Type} {read : BufRef → List β} (long : ∀ p, (read p).length = p.bytesused)
    (ps : List BufRef) : ps.flatMap read = [] ↔ ∀ p ∈ ps, p.bytesused = 0 := by
  rw [List.flatMap_eq_nil_iff]
  apply forall₂_congr
  intro p _
  rw [← long p, List.length_eq_zero_iff]

section Turn
variable {σ : Type} {set : σ → BufRef → Nat → Nat → σ × BufRef} {i : Nat} {s : σ} {p : BufRef}
  {ps : List BufRef}

theorem spread_last (before : sizeBefore size i < used) (reached : used ≤ sizeBefore size (i + 1)) :
    spread set size used i (sizeBefore size i) s (p :: ps) =
      ((set s p (sizeBefore size i) (used - sizeBefore size i)).1,
        (set s p (sizeBefore size i) (used - sizeBefore size i)).2 :: ps) := by
  have next := sizeBefore_succ size i
  have part : min (used - sizeBefore size i) (size i) = used - sizeBefore size i := by omega
  simp only [spread, part]
  rw [if_pos (by omega)]

theorem spread_next (further : sizeBefore size (i + 1) < used) :
    spread set size used i (sizeBefore size i) s (p :: ps) =
      ((spread set size used (i + 1) (sizeBefore size (i + 1))
          (set s p (sizeBefore size i) (size i)).1 ps).1,
        (set s p (sizeBefore size i) (size i)).2 ::
          (spread set size used (i + 1) (sizeBefore size (i + 1))
            (set s p (sizeBefore size i) (size i)).1 ps).2) := by
  have next := sizeBefore_succ size i
  have whole : min (used - sizeBefore size i) (size i) = size i := by omega
  simp only [spread, whole, next]
  rw [if_neg (by omega)]

end Turn

/-- What is read of the planes is what there was in the one. -/
theorem spread_read_iff {β : Type} {set : BufRef → Nat → Nat → BufRef} {read : BufRef → List β}
    {source : Nat → β} {base : Nat} (long : ∀ p, (read p).length = p.bytesused)
    (reads : ∀ p total n, read (set p total n) = span source (base + total) n)
    {i : Nat} {ps : List BufRef} (before : sizeBefore size i < used) :
    ((spread (fun s p total n => (s, set p total n)) size used i (sizeBefore size i) () ps).2.flatMap read =
        span source (base + sizeBefore size i) (used - sizeBefore size i)) ↔
      SpreadsFrom size used i ps := by
  induction ps generalizing i with
  | nil =>
    constructor
    · intro same
      have := congrArg List.length same
      rw [spread, List.flatMap_nil, List.length_nil, span_length] at this
      omega
    · rintro ⟨reached, _⟩
      rw [List.length_nil, Nat.add_zero] at reached
      omega
  | cons p ps ih =>
    rw [spreadsFrom_cons before]
    have next := sizeBefore_succ size i
    by_cases reached : used ≤ sizeBefore size (i + 1)
    · rw [if_pos reached, spread_last before reached]
      simp only [List.flatMap_cons]
      rw [reads, List.append_right_eq_self, flatMap_nil_iff long]
    · rw [if_neg reached, spread_next (by omega)]
      simp only [List.flatMap_cons]
      rw [reads, show used - sizeBefore size i = size i + (used - sizeBefore size (i + 1)) by omega,
        span_append, List.append_cancel_left_eq, Nat.add_assoc, ← next]
      exact ih (by omega)

/-! ### Copied -/

variable {first : BufRef} {mem : Nat → UInt8}

/-- Planes that lie apart, none smaller than it is said to be. -/
structure Planes (size : Nat → Nat) (i : Nat) (ps : List BufRef) : Prop where
  large : ∀ k < ps.length, size (i + k) ≤ (ps.getD k {}).size
  own : ps.Pairwise fun p q => Apart p.virt p.size q.virt q.size

theorem Planes.tail {i : Nat} {p : BufRef} {ps : List BufRef} (planes : Planes size i (p :: ps)) :
    Planes size (i + 1) ps where
  large := by
    intro k inside
    have := planes.large (k + 1) (by rw [List.length_cons]; omega)
    rwa [List.getD_cons_succ, show i + (k + 1) = i + 1 + k by omega] at this
  own := (List.pairwise_cons.mp planes.own).2

theorem Planes.head {i : Nat} {p : BufRef} {ps : List BufRef} (planes : Planes size i (p :: ps)) :
    size i ≤ p.size := planes.large 0 (by rw [List.length_cons]; omega)

theorem spread_copyPart_apart {i : Nat} {ps : List BufRef} (planes : Planes size i ps)
    (before : sizeBefore size i < used) {a m : Nat} (apart : ∀ q ∈ ps, Apart a m q.virt q.size) :
    span (spread (copyPart first) size used i (sizeBefore size i) mem ps).1 a m = span mem a m := by
  induction ps generalizing i mem with
  | nil => rfl
  | cons p ps ih =>
    have next := sizeBefore_succ size i
    have head := planes.head
    have window := apart p List.mem_cons_self
    by_cases reached : used ≤ sizeBefore size (i + 1)
    · rw [spread_last before reached]
      exact span_copy_apart (window.part (by omega) (by omega))
    · rw [spread_next (by omega)]
      rw [ih planes.tail (by omega) fun q mem => apart q (List.mem_cons_of_mem p mem)]
      exact span_copy_apart (window.part (by omega) (by omega))

theorem stored_cons (mem : Nat → UInt8) (p : BufRef) (ps : List BufRef) :
    stored mem (p :: ps) = span mem p.virt p.bytesused ++ stored mem ps := rfl

theorem stored_one (mem : Nat → UInt8) (p : BufRef) : stored mem [p] = span mem p.virt p.bytesused := by
  rw [stored, List.flatMap_cons, List.flatMap_nil, List.append_nil]

theorem stored_nil_iff (mem : Nat → UInt8) (ps : List BufRef) :
    stored mem ps = [] ↔ ∀ p ∈ ps, p.bytesused = 0 :=
  flatMap_nil_iff (fun _ => span_length) ps

theorem spread_copied_iff {i : Nat} {ps : List BufRef} (planes : Planes size i ps)
    (before : sizeBefore size i < used)
    (source : ∀ q ∈ ps, Apart first.virt used q.virt q.size) :
    (stored (spread (copyPart first) size used i (sizeBefore size i) mem ps).1
          (spread (copyPart first) size used i (sizeBefore size i) mem ps).2 =
        span mem (first.virt + sizeBefore size i) (used - sizeBefore size i)) ↔
      SpreadsFrom size used i ps := by
  induction ps generalizing i mem with
  | nil =>
    constructor
    · intro same
      have := congrArg List.length same
      rw [span_length] at this
      simp only [spread, stored, List.flatMap_nil, List.length_nil] at this
      omega
    · rintro ⟨reached, _⟩
      rw [List.length_nil, Nat.add_zero] at reached
      omega
  | cons p ps ih =>
    rw [spreadsFrom_cons before]
    have next := sizeBefore_succ size i
    have head := planes.head
    have window := source p List.mem_cons_self
    by_cases reached : used ≤ sizeBefore size (i + 1)
    · rw [if_pos reached, spread_last before reached]
      simp only [copyPart, stored_cons]
      rw [span_copy, List.append_right_eq_self, stored_nil_iff]
    · rw [if_neg reached, spread_next (by omega)]
      simp only [stored_cons]
      -- The planes behind this one leave its bytes alone, and it leaves the rest of the source.
      rw [spread_copyPart_apart planes.tail (by omega)]
      · have rest : span (copy mem p.virt (first.virt + sizeBefore size i) (size i))
              (first.virt + sizeBefore size (i + 1)) (used - sizeBefore size (i + 1)) =
            span mem (first.virt + sizeBefore size (i + 1)) (used - sizeBefore size (i + 1)) :=
          span_copy_apart (window.part (by omega) (by omega))
        rw [copyPart, span_copy,
          show used - sizeBefore size i = size i + (used - sizeBefore size (i + 1)) by omega,
          span_append, List.append_cancel_left_eq, Nat.add_assoc, ← next, ← rest]
        exact ih planes.tail (by omega) fun q mem => source q (List.mem_cons_of_mem p mem)
      · intro q mem
        have own := (List.pairwise_cons.mp planes.own).1 q mem
        simp only [copyPart]
        exact own.part (by omega) (by omega)

end Spread

/-! ## As many planes on both sides -/

section Each
variable {mem : Nat → UInt8} {ss ds : List BufRef}

theorem copyEach_apart {a m : Nat} (apart : ∀ q ∈ ds, Apart a m q.virt q.size) :
    span (copyEach mem ss ds).2.1 a m = span mem a m := by
  induction ss generalizing mem ds with
  | nil => rfl
  | cons s ss ih =>
    cases ds with
    | nil => rfl
    | cons d ds =>
      rw [copyEach]
      split
      case isTrue => rfl
      case isFalse large =>
        simp only
        rw [ih fun q mem => apart q (List.mem_cons_of_mem d mem)]
        exact span_copy_apart ((apart d List.mem_cons_self).part (by omega) (by omega))

theorem copyEach_ok_iff (length : ss.length = ds.length) :
    (copyEach mem ss ds).1 = .OK ↔
      ∀ k < ds.length, (ss.getD k {}).bytesused ≤ (ds.getD k {}).size := by
  induction ss generalizing mem ds with
  | nil =>
    rw [← length, List.length_nil]
    simp [copyEach]
  | cons s ss ih =>
    cases ds with
    | nil => contradiction
    | cons d ds =>
      rw [copyEach]
      split
      case isTrue small =>
        constructor
        · intro h
          contradiction
        · intro large
          have := large 0 (Nat.zero_lt_succ _)
          rw [List.getD_cons_zero, List.getD_cons_zero] at this
          omega
      case isFalse fits =>
        simp only [List.length_cons, Nat.add_right_cancel_iff] at length ⊢
        rw [ih length]
        constructor
        · intro large k inside
          cases k with
          | zero => exact Nat.le_of_not_lt fits
          | succ k => exact large k (by omega)
        · intro large k inside
          have := large (k + 1) (by omega)
          rwa [List.getD_cons_succ, List.getD_cons_succ] at this

theorem copyEach_stored (length : ss.length = ds.length) (ok : (copyEach mem ss ds).1 = .OK)
    (used : ∀ p ∈ ss, p.bytesused ≤ p.size)
    (own : ds.Pairwise fun p q => Apart p.virt p.size q.virt q.size)
    (others : ∀ p ∈ ss, ∀ q ∈ ds, Apart p.virt p.size q.virt q.size) :
    stored (copyEach mem ss ds).2.1 (copyEach mem ss ds).2.2 = stored mem ss := by
  induction ss generalizing mem ds with
  | nil =>
    rw [List.length_nil] at length
    rw [List.length_eq_zero_iff.mp length.symm]
    rfl
  | cons s ss ih =>
    cases ds with
    | nil => contradiction
    | cons d ds =>
      rw [copyEach] at ok ⊢
      split at ok
      case isTrue => contradiction
      case isFalse fits =>
        rw [if_neg fits]
        obtain ⟨apart, own⟩ := List.pairwise_cons.mp own
        simp only [List.length_cons, Nat.add_right_cancel_iff] at length
        simp only [stored_cons]
        rw [ih length ok (fun p mem => used p (List.mem_cons_of_mem s mem)) own
            fun p pMem q qMem => others p (List.mem_cons_of_mem s pMem) q (List.mem_cons_of_mem d qMem)]
        rw [copyEach_apart fun q mem => (apart q mem).part (by omega) (by omega), span_copy]
        congr 1
        -- The sources behind the first one are not written to.
        apply List.flatMap_congr
        intro p mem
        have fit := used p (List.mem_cons_of_mem s mem)
        exact span_copy_apart
          ((others p (List.mem_cons_of_mem s mem) d List.mem_cons_self).part (by omega) (by omega))

end Each

/-! ## When a frame arrives whole -/

section Whole
variable {src dst : Buffer} {splane dplane : BufRef} {mem : Nat → UInt8}

theorem plane_size_le (several : 1 < dst.count) {k : Nat} (inside : k < dst.count) :
    pitcherGetBufferPlaneSize dst k ≤ (dst.plane k).size := by
  have known : dst.planes[k]? = some (dst.plane k) := by
    rw [Buffer.plane_eq inside]
    exact List.getElem?_eq_getElem inside
  unfold pitcherGetBufferPlaneSize pitcherGetBufferPlane
  cases dst.format with
  | none => simp only [known, Nat.le_refl]
  | some fmt =>
    by_cases lost : fmt.numPlanes ≤ k ∨ (dst.count ≠ 1 ∧ dst.count ≠ fmt.numPlanes)
    · simp only [if_pos lost, Nat.zero_le]
    · have each : dst.count = fmt.numPlanes := by omega
      simp only [if_neg lost, if_pos each, known, Nat.le_refl]

theorem planes_of_one (one : src.count = 1) : src.planes = [src.plane 0] := by
  obtain ⟨p, same⟩ := List.length_eq_one_iff.mp one
  rw [Buffer.plane, same]
  rfl

theorem spreads_iff {size : Nat → Nat} {used : Nat} {planes : List BufRef} :
    SpreadsFrom size used 0 planes ↔ Spreads size used planes := by
  simp only [SpreadsFrom, Spreads, Nat.zero_add]

theorem sizeBefore_zero (size : Nat → Nat) : sizeBefore size 0 = 0 := rfl

/-- A range that is passed on without its offset. -/
theorem offset_lost_iff (fd : Int) {offset used : Nat} (some_data : used ≠ 0) :
    (∀ dma : Int → Nat → UInt8, span (dma fd) 0 used = span (dma fd) offset used) ↔ offset = 0 := by
  constructor
  · intro same
    exact (span_determined (show (0 : UInt8) ≠ 1 by decide) (Nat.pos_of_ne_zero some_data)
      fun mem => same fun _ => mem).symm
  · rintro rfl dma
    rfl

theorem userptr_iff (some_data : (src.plane 0).bytesused ≠ 0) :
    (∀ mem, (transferOutputBufferUserptr src dst).1 = .OK ∧
        stored mem (transferOutputBufferUserptr src dst).2 = stored mem src.planes) ↔
      src.count = dst.count ∨ src.count = 1 ∧ 1 < dst.count ∧
        Spreads (pitcherGetBufferPlaneSize dst) (src.plane 0).bytesused dst.planes := by
  unfold transferOutputBufferUserptr referToPlanes
  by_cases split : src.count = 1 ∧ 1 < dst.count
  · rw [if_pos split]
    have spreads := fun mem : Nat → UInt8 => @spread_read_iff (pitcherGetBufferPlaneSize dst)
      (src.plane 0).bytesused _
      (fun p total n => { p with virt := (src.plane 0).virt + total, bytesused := n })
      (fun p => span mem p.virt p.bytesused) mem (src.plane 0).virt (fun _ => span_length)
      (fun _ _ _ => rfl) 0 dst.planes (Nat.pos_of_ne_zero some_data)
    simp only [sizeBefore_zero, Nat.add_zero, Nat.sub_zero, spreads_iff] at spreads
    have whole : ∀ mem, stored mem src.planes = span mem (src.plane 0).virt (src.plane 0).bytesused := by
      intro mem
      rw [planes_of_one split.1, stored_one]
    simp only [whole, true_and]
    constructor
    · intro arrives
      exact .inr ⟨split.1, split.2, (spreads fun _ => 0).mp (arrives _)⟩
    · rintro (same | ⟨_, _, fits⟩) mem
      · omega
      · exact (spreads mem).mpr fits
  · rw [if_neg split]
    by_cases same : src.count = dst.count
    · rw [if_pos same]
      simp only [same, true_or, and_self, implies_true]
    · rw [if_neg same]
      simp only [reduceCtorEq, false_and, forall_const, same, false_or, false_iff]
      exact fun h => split ⟨h.1, h.2.1⟩

theorem dmabuf_iff {multiplanar : Bool} (some_data : (src.plane 0).bytesused ≠ 0)
    (single : multiplanar = false → dst.count = 1) :
    (∀ dma, (transferOutputBufferDmabuf src dst).1 = .OK ∧
        exported dma multiplanar (transferOutputBufferDmabuf src dst).2 = exported dma true src.planes) ↔
      (src.count = dst.count ∧ (multiplanar ∨ (src.plane 0).offset = 0)) ∨
        (src.count = 1 ∧ 1 < dst.count ∧
          Spreads (pitcherGetBufferPlaneSize dst) (src.plane 0).bytesused dst.planes) ∧
          (src.plane 0).offset = 0 := by
  have whole : ∀ dma, src.count = 1 → exported dma true src.planes =
      span (dma (src.plane 0).dmafd) (src.plane 0).offset (src.plane 0).bytesused := by
    intro dma one
    rw [planes_of_one one, exported, List.flatMap_cons, List.flatMap_nil, List.append_nil, if_pos rfl]
  unfold transferOutputBufferDmabuf referToPlanes
  by_cases split : src.count = 1 ∧ 1 < dst.count
  · rw [if_pos split]
    obtain rfl : multiplanar = true := by
      cases multiplanar
      · have := single rfl
        omega
      · rfl
    have spreads := fun dma : Int → Nat → UInt8 => @spread_read_iff (pitcherGetBufferPlaneSize dst)
      (src.plane 0).bytesused _
      (fun p total n => { p with dmafd := (src.plane 0).dmafd, bytesused := n, offset := total })
      (fun p => span (dma p.dmafd) (if true then p.offset else 0) p.bytesused)
      (dma (src.plane 0).dmafd) 0 (fun _ => span_length)
      (fun _ _ _ => by rw [Nat.zero_add]; rfl) 0 dst.planes (Nat.pos_of_ne_zero some_data)
    simp only [sizeBefore_zero, Nat.add_zero, Nat.sub_zero, spreads_iff] at spreads
    simp only [fun dma => whole dma split.1, true_and]
    simp only [exported]
    constructor
    · intro arrives
      -- Bytes that are all the same tell how many there are.
      have fits := (spreads fun _ _ => 0).mp
        ((arrives fun _ _ => 0).trans (span_eq_iff.mpr fun _ _ => rfl))
      refine .inr ⟨⟨split.1, split.2, fits⟩, (offset_lost_iff (src.plane 0).dmafd some_data).mp ?_⟩
      intro dma
      rw [← arrives dma]
      exact ((spreads dma).mpr fits).symm
    · rintro (same | ⟨⟨_, _, fits⟩, start⟩) dma
      · omega
      · rw [start]
        exact (spreads dma).mpr fits
  · rw [if_neg split]
    by_cases same : src.count = dst.count
    · rw [if_pos same]
      have several : ¬(dst.count = 1 ∧ 1 < dst.count ∧ Spreads (pitcherGetBufferPlaneSize dst)
          (src.plane 0).bytesused dst.planes) := by
        rintro ⟨one, more, _⟩
        omega
      simp only [same, true_and, several, false_and, or_false]
      cases multiplanar with
      | true => simp only [implies_true, true_or]
      | false =>
        have one := same.trans (single rfl)
        have passed : ∀ dma, exported dma false src.planes =
            span (dma (src.plane 0).dmafd) 0 (src.plane 0).bytesused := by
          intro dma
          rw [planes_of_one one, exported, List.flatMap_cons, List.flatMap_nil, List.append_nil]
          rfl
        simp only [Bool.false_eq_true, false_or, passed, fun dma => whole dma one]
        exact offset_lost_iff _ some_data
    · rw [if_neg same]
      simp only [reduceCtorEq, false_and, forall_const, same, false_or, false_iff]
      exact fun h => split ⟨h.1.1, h.1.2.1⟩

/-- Where no picture is copied, the planes are. -/
theorem mmap_bytes_iff (layout : Layout src dst) (some_data : (src.plane 0).bytesused ≠ 0)
    (refused : ∀ mem, (pitcherCopyBufferData splane dplane mem src dst).1 ≠ .OK) :
    (∀ mem, (transferOutputBufferMmap splane dplane mem src dst).1 = .OK ∧
        stored (transferOutputBufferMmap splane dplane mem src dst).2.1
          (transferOutputBufferMmap splane dplane mem src dst).2.2 = stored mem src.planes) ↔
      CopyableBytes src dst := by
  have other : ∀ mem, transferOutputBufferMmap splane dplane mem src dst =
      if src.count = 1 ∧ 1 < dst.count then
        (.OK, spread (copyPart (src.plane 0)) (pitcherGetBufferPlaneSize dst)
          (src.plane 0).bytesused 0 0 mem dst.planes)
      else if src.count = dst.count then copyEach mem src.planes dst.planes
      else (.E_INVAL, mem, dst.planes) := by
    intro mem
    have := refused mem
    unfold transferOutputBufferMmap
    split
    case h_1 ok => simp only [ok, ne_eq, not_true_eq_false] at this
    case h_2 => rfl
  simp only [other]
  by_cases split : src.count = 1 ∧ 1 < dst.count
  · have alone : src.plane 0 ∈ src.planes := Buffer.plane_mem (by omega)
    have planes : Planes (pitcherGetBufferPlaneSize dst) 0 dst.planes := by
      refine ⟨?_, layout.own⟩
      intro k inside
      rw [Nat.zero_add]
      exact plane_size_le split.2 inside
    have spreads := fun mem => @spread_copied_iff (pitcherGetBufferPlaneSize dst)
      (src.plane 0).bytesused (src.plane 0) mem 0 dst.planes planes (Nat.pos_of_ne_zero some_data)
      fun q mem => by
        have used := layout.used _ alone
        exact (layout.others _ alone q mem).part (by omega) (by omega)
    simp only [sizeBefore_zero, Nat.add_zero, Nat.sub_zero, spreads_iff] at spreads
    have whole : ∀ mem, stored mem src.planes = span mem (src.plane 0).virt (src.plane 0).bytesused := by
      intro mem
      rw [planes_of_one split.1, stored_one]
    simp only [if_pos split, whole, true_and]
    constructor
    · intro arrives
      exact .inr ⟨split.1, split.2, (spreads fun _ => 0).mp (arrives _)⟩
    · rintro (⟨same, _⟩ | ⟨_, _, fits⟩) mem
      · omega
      · exact (spreads mem).mpr fits
  · simp only [if_neg split]
    by_cases same : src.count = dst.count
    · simp only [if_pos same]
      have large : (∀ k < dst.count, (src.plane k).bytesused ≤ (dst.plane k).size) ↔
          CopyableBytes src dst := by
        constructor
        · exact fun fits => .inl ⟨same, fits⟩
        · rintro (⟨_, fits⟩ | ⟨one, more, _⟩)
          · exact fits
          · exact absurd ⟨one, more⟩ split
      rw [← large]
      constructor
      · intro arrives
        exact (copyEach_ok_iff same).mp (arrives fun _ => 0).1
      · intro fits mem
        have ok := (@copyEach_ok_iff mem _ _ same).mpr fits
        exact ⟨ok, copyEach_stored same ok layout.used layout.own layout.others⟩
    · simp only [if_neg same, reduceCtorEq, false_and, forall_const, false_iff]
      rintro (⟨equal, _⟩ | ⟨one, more, _⟩)
      · exact same equal
      · exact split ⟨one, more⟩

variable {sfmt dfmt : PixFmtInfo}

theorem mmap_compressed_iff (layout : Layout src dst) (sfits : src.Fits sfmt) (dfits : dst.Fits dfmt)
    (sknown : src.format = some sfmt) (dknown : dst.format = some dfmt)
    (same : sfmt.format = dfmt.format) (plain : sfmt.untiled) (compressed : sfmt.format.compressed) :
    (∀ mem, (transferOutputBufferMmap splane dplane mem src dst).1 = .OK ∧
        stored (transferOutputBufferMmap splane dplane mem src dst).2.1
          (transferOutputBufferMmap splane dplane mem src dst).2.2 = stored mem src.planes) ↔
      (src.plane 0).bytesused ≤ (dst.plane 0).size := by
  obtain ⟨sone, splanes⟩ := compressed_one (layout.source_filled sfits sknown) sfits compressed
  obtain ⟨done, dplanes⟩ := compressed_one (layout.target_filled dfits dknown) dfits (same ▸ compressed)
  have slist := planes_of_one sone
  have dlist := planes_of_one done
  obtain ⟨narrow, low⟩ := of_decide_eq_true plain
  have splane_eq : pitcherGetBufferPlane src 0 = some (src.plane 0) := by
    simp only [pitcherGetBufferPlane, sknown, sone, splanes]
    rw [slist]
    rfl
  have dplane_eq : pitcherGetBufferPlane dst 0 = some (dst.plane 0) := by
    simp only [pitcherGetBufferPlane, dknown, done, dplanes]
    rw [dlist]
    rfl
  have copied : ∀ mem, pitcherCopyBufferData splane dplane mem src dst =
      if (dst.plane 0).size < (src.plane 0).bytesused then (.E_INVAL, mem, dst.planes)
      else (.OK, copy mem (dst.plane 0).virt (src.plane 0).virt (src.plane 0).bytesused,
        dst.planes.modify 0 fun p => { p with bytesused := (src.plane 0).bytesused }) := by
    intro mem
    simp only [pitcherCopyBufferData, sknown, dknown, splane_eq, dplane_eq, Option.getD_some]
    rw [if_neg (by simp [same]), if_neg (by simp [narrow, low]), if_pos compressed]
  rcases Nat.lt_or_ge (dst.plane 0).size (src.plane 0).bytesused with small | large
  · constructor
    · intro arrives
      have ok := (arrives fun _ => 0).1
      unfold transferOutputBufferMmap at ok
      rw [copied, if_pos small] at ok
      simp only [sone, done, Nat.lt_irrefl, and_false, if_false, if_true] at ok
      rw [slist, dlist, copyEach, if_pos small] at ok
      contradiction
    · intro large
      omega
  · constructor
    · exact fun _ => large
    · intro _ mem
      unfold transferOutputBufferMmap
      rw [copied, if_neg (by omega), dlist, slist]
      refine ⟨rfl, ?_⟩
      show stored (copy mem (dst.plane 0).virt (src.plane 0).virt (src.plane 0).bytesused)
        [{ dst.plane 0 with bytesused := (src.plane 0).bytesused }] = _
      rw [stored_cons, stored_cons, span_copy]
      rfl

theorem mmap_raw (sknown : src.format = some sfmt) (dknown : dst.format = some dfmt)
    (same : sfmt.format = dfmt.format) (plain : sfmt.untiled) (raw : ¬sfmt.format.compressed) :
    transferOutputBufferMmap splane dplane mem src dst =
      (.OK, copyPlanes src dst sfmt dfmt sfmt.numPlanes 0 splane dplane mem dst.planes) := by
  obtain ⟨narrow, low⟩ := of_decide_eq_true plain
  unfold transferOutputBufferMmap pitcherCopyBufferData
  simp only [sknown, dknown]
  rw [if_neg (by simp [same]), if_neg (by simp [narrow, low]), if_neg raw]

/-- Of the formats without components no byte is copied. -/
theorem mmap_blank_lost (layout : Layout src dst) (sfits : src.Fits sfmt) (dfits : dst.Fits dfmt)
    (sknown : src.format = some sfmt) (dknown : dst.format = some dfmt)
    (same : sfmt.format = dfmt.format) (some_data : (src.plane 0).bytesused ≠ 0)
    (plain : sfmt.untiled) (raw : ¬sfmt.format.compressed) (blank : ¬sfmt.byLine) :
    ¬∀ mem, (transferOutputBufferMmap splane dplane mem src dst).1 = .OK ∧
        stored (transferOutputBufferMmap splane dplane mem src dst).2.1
          (transferOutputBufferMmap splane dplane mem src dst).2.2 = stored mem src.planes := by
  intro arrives
  have format : sfmt.format = .rfc ∨ sfmt.format = .rfcx := by
    by_contra other
    rw [not_or] at other
    exact blank (decide_eq_true ⟨Bool.eq_false_iff.mpr raw ▸ rfl, other.1, other.2, plain⟩)
  have desc : sfmt.desc = { numPlanes := 1 } := by
    unfold PixFmtInfo.desc
    rcases format with is | is <;> rw [is] <;> rfl
  have splanes : sfmt.numPlanes = 1 := by
    rw [(layout.source_filled sfits sknown).cases.1, desc]
  have dplanes : dfmt.numPlanes = 1 := by
    rw [(layout.target_filled dfits dknown).cases.1, PixFmtInfo.desc, ← same, ← PixFmtInfo.desc, desc]
  have sone : src.count = 1 := by
    have := sfits.2
    omega
  have done : dst.count = 1 := by
    have := dfits.2
    omega
  have no_line : ∀ w, sfmt.desc.lineOf 0 w = 0 := by
    intro w
    simp [desc, PixelFormatDesc.lineOf, align]
  have left : ∀ mem, ∃ n, transferOutputBufferMmap splane dplane mem src dst =
      (.OK, mem, [{ dst.plane 0 with bytesused := n }]) := by
    intro mem
    refine ⟨copiedRows src sfmt dfmt 0 * (dfmt.planes 0).line, ?_⟩
    rw [mmap_raw sknown dknown same plain raw, splanes]
    simp only [copyPlanes, no_line, copyRows_nothing]
    rw [planes_of_one done]
    rfl
  have start : (dst.plane 0).virt = (src.plane 0).virt := by
    apply @span_determined UInt8 _ _ _ 0 1 (by decide) (Nat.pos_of_ne_zero some_data)
    intro mem
    obtain ⟨n, made⟩ := left mem
    have stays := (arrives mem).2
    rw [made, planes_of_one sone, stored_one, stored_one] at stays
    have length := congrArg List.length stays
    rw [span_length, span_length] at length
    rwa [length] at stays
  have alone : src.plane 0 ∈ src.planes := Buffer.plane_mem (by omega)
  have target : dst.plane 0 ∈ dst.planes := Buffer.plane_mem (by omega)
  have apart := layout.others _ alone _ target
  have used := layout.used _ alone
  have mapped := layout.mapped _ target
  unfold Apart at apart
  omega

/-- A transfer succeeds, and what it leaves in the buffer is the frame, exactly
where the frame can be handed over whole. -/
theorem transfer_iff {memory : V4l2Memory} {multiplanar : Bool}
    (layout : memory = .MMAP → Layout src dst)
    (same : ∀ sfmt dfmt, src.format = some sfmt → dst.format = some dfmt → sfmt.format = dfmt.format)
    (some_data : (src.plane 0).bytesused ≠ 0) (single : multiplanar = false → dst.count = 1) :
    (∀ mem dma, (transferOutputBuffer memory splane dplane mem src dst).1 = .OK ∧
        Carries memory multiplanar mem (transferOutputBuffer memory splane dplane mem src dst).2.1 dma
          src dst (transferOutputBuffer memory splane dplane mem src dst).2.2) ↔
      Transferable memory multiplanar src dst := by
  cases memory with
  | OVERLAY =>
    simp only [transferOutputBuffer, reduceCtorEq, false_and, forall_const, Transferable]
  | USERPTR =>
    simp only [transferOutputBuffer, Carries, Transferable]
    rw [← userptr_iff some_data]
    exact forall_congr' fun mem => ⟨fun h => h fun _ _ => 0, fun h _ => h⟩
  | DMABUF =>
    simp only [transferOutputBuffer, Carries, Transferable]
    rw [← dmabuf_iff some_data single]
    exact ⟨fun h => h fun _ => 0, fun h _ => h⟩
  | MMAP =>
    have layout := layout rfl
    have no_dma : ∀ P : (Nat → UInt8) → Prop,
        (∀ mem, ∀ _ : Int → Nat → UInt8, P mem) ↔ ∀ mem, P mem :=
      fun P => forall_congr' fun mem => ⟨fun h => h fun _ _ => 0, fun h _ => h⟩
    simp only [transferOutputBuffer, Carries, Transferable]
    cases sknown : src.format with
    | none =>
      simp only
      rw [no_dma]
      apply mmap_bytes_iff layout some_data
      intro mem
      simp only [pitcherCopyBufferData, sknown, ne_eq, reduceCtorEq, not_false_eq_true]
    | some sfmt =>
      cases dknown : dst.format with
      | none =>
        simp only
        rw [no_dma]
        apply mmap_bytes_iff layout some_data
        intro mem
        simp only [pitcherCopyBufferData, sknown, dknown, ne_eq, reduceCtorEq, not_false_eq_true]
      | some dfmt =>
        have same := same sfmt dfmt sknown dknown
        by_cases plain : sfmt.untiled
        · simp only [if_pos plain]
          by_cases fits : src.Fits sfmt ∧ dst.Fits dfmt
          · obtain ⟨sfits, dfits⟩ := fits
            simp only [sfits, dfits, true_and]
            by_cases lines : sfmt.byLine
            · have raw : ¬sfmt.format.compressed := by
                have := (of_decide_eq_true lines).1
                simpa using this
              simp only [if_pos lines, mmap_raw sknown dknown same plain raw, true_and, no_dma]
              exact showsPicture_iff layout sfits dfits sknown dknown same lines
            · simp only [if_neg lines, no_dma]
              by_cases compressed : sfmt.format.compressed
              · simp only [compressed, true_and]
                exact mmap_compressed_iff layout sfits dfits sknown dknown same plain compressed
              · simp only [compressed, Bool.false_eq_true, false_and, iff_false]
                exact mmap_blank_lost layout sfits dfits sknown dknown same some_data plain compressed lines
          · constructor
            · intro arrives
              obtain ⟨_, sfits, dfits, _⟩ := arrives (fun _ => 0) fun _ _ => 0
              exact absurd ⟨sfits, dfits⟩ fits
            · rintro ⟨sfits, dfits, _⟩
              exact absurd ⟨sfits, dfits⟩ fits
        · simp only [if_neg plain, no_dma]
          apply mmap_bytes_iff layout some_data
          intro mem
          have tiled : sfmt.tileWs ≠ 0 ∨ sfmt.tileHs ≠ 0 := by
            by_contra flat
            rw [not_or, not_not, not_not] at flat
            exact plain (decide_eq_true flat)
          simp only [pitcherCopyBufferData, sknown, dknown]
          rw [if_neg (by simp [same]), if_pos tiled]
          exact fun h => by contradiction

end Whole

/-! ## The number of planes -/

section Length
variable {σ : Type}

theorem spread_length (set : σ → BufRef → Nat → Nat → σ × BufRef) (size : Nat → Nat)
    (used i total : Nat) (s : σ) (ps : List BufRef) :
    (spread set size used i total s ps).2.length = ps.length := by
  induction ps generalizing i total s with
  | nil => rfl
  | cons p ps ih =>
    simp only [spread]
    split
    · rfl
    · simp only [List.length_cons, ih]

theorem copyEach_length (mem : Nat → UInt8) (ss ds : List BufRef) :
    (copyEach mem ss ds).2.2.length = ds.length := by
  induction ss generalizing mem ds with
  | nil => rfl
  | cons s ss ih =>
    cases ds with
    | nil => rfl
    | cons d ds =>
      rw [copyEach]
      split
      · rfl
      · simp only [List.length_cons, ih]

theorem copyPlanes_length (src dst : Buffer) (sfmt dfmt : PixFmtInfo) (left i : Nat)
    (splane dplane : BufRef) (mem : Nat → UInt8) (planes : List BufRef) :
    (copyPlanes src dst sfmt dfmt left i splane dplane mem planes).2.length = planes.length := by
  induction left generalizing i splane dplane mem planes with
  | zero => rfl
  | succ left ih =>
    rw [copyPlanes, ih, countBytes]
    split <;> rw [List.length_modify]

theorem pitcherCopyBufferData_length (splane dplane : BufRef) (mem : Nat → UInt8) (src dst : Buffer) :
    (pitcherCopyBufferData splane dplane mem src dst).2.2.length = dst.count := by
  unfold pitcherCopyBufferData
  split
  · split
    · rfl
    split
    · rfl
    split
    · simp only
      split
      · rfl
      · exact List.length_modify ..
    · exact copyPlanes_length ..
  · rfl

theorem referToPlanes_length (set : BufRef → Nat → Nat → BufRef) (src dst : Buffer) :
    (referToPlanes set src dst).2.length = dst.count := by
  unfold referToPlanes
  split
  · exact spread_length ..
  · split
    case isTrue same => exact same
    case isFalse => rfl

/-- A transfer changes the planes, and not how many there are. -/
theorem transfer_length (memory : V4l2Memory) (splane dplane : BufRef) (mem : Nat → UInt8)
    (src dst : Buffer) :
    (transferOutputBuffer memory splane dplane mem src dst).2.2.length = dst.count := by
  cases memory with
  | OVERLAY => rfl
  | USERPTR => exact referToPlanes_length ..
  | DMABUF => exact referToPlanes_length ..
  | MMAP =>
    have copied := pitcherCopyBufferData_length splane dplane mem src dst
    simp only [transferOutputBuffer, transferOutputBufferMmap]
    split
    case h_1 made => rwa [made] at copied
    case h_2 =>
      split
      · exact spread_length ..
      · split
        · exact copyEach_length ..
        · rfl

end Length

end ImxTest.Pitcher
