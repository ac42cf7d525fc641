import ImxTest.Pitcher.V4l2

/-! The planes of a picture in a buffer that has one memory for all of them, as
`pitcher_get_buffer_plane` shows them, and the copy of dmanode.c, which relies on them. -/
namespace ImxTest.Pitcher

open Lib.Copy
open V4l2 (PITCHER_BUFFER_FLAG_LAST)

/-! ## The node that copies -/

namespace Dma

/-- Memory that the system gave: its file, the size of the file, and where it lies,
if that could be found out and mapped. -/
structure DmaMemory where
  dmafd : Nat
  size : Nat
  placed : Option (Nat × Nat)

/-- `pitcher_free_dma_buf` -/
def pitcherFreeDmaBuf (buf : BufRef) : BufRef :=
  if buf.dmafd < 0 then buf else { buf with dmafd := -1, phys := 0 }

/-- `pitcher_alloc_dma_buf`, where the first allocator that can gives `heap`. -/
def pitcherAllocDmaBuf (heap : Nat → Option DmaMemory) (buf : BufRef) : Ret × BufRef :=
  if buf.size = 0 then (.E_INVAL, buf)
  else
    match heap (align buf.size 4096) with
    | none => (.E_NO_MEMORY, buf)
    | some memory =>
      if memory.size = 0 then (.E_INVAL, { buf with dmafd := -1 })
      else
        match memory.placed with
        | none => (.E_INVAL, { buf with dmafd := -1 })
        | some (phys, virt) =>
          (.OK, { buf with dmafd := memory.dmafd, size := min memory.size buf.size, phys, virt })

/-- `pitcher_buffer_is_dma_buf` -/
def pitcherBufferIsDmaBuf (buf : Buffer) : Bool := buf.planes.all fun plane => 0 ≤ plane.dmafd

/-- `struct dmanode_test_t` -/
structure Node where
  ending : Bool := false
  frameCount : Nat := 0
  format : PixFmtInfo

/-- What a call leaves: the idle buffer that it took, the one that it pushed to the
output, and what it copied. -/
structure Call where
  ret : Ret
  node : Node
  idle : Option Buffer
  pushed : Option Buffer := none
  moves : List Move := []

/-- The copy of plane `i`. Where a buffer has no such plane, `splane` or `dplane` is
what is used of it. -/
def copyPlane (splane dplane : BufRef) (buffer dst : Buffer) (i : Nat) : Move :=
  let splane := (pitcherGetBufferPlane buffer i).getD splane
  let dplane := (pitcherGetBufferPlane dst i).getD dplane
  ⟨dplane.virt, splane.virt, splane.bytesused⟩

/-- The loop of `run_dmanode` and what follows it. -/
def copyBuffer (splane dplane : BufRef) (node : Node) (buffer dst : Buffer) (fmt : PixFmtInfo) : Call :=
  let moves := (List.range fmt.numPlanes).map (copyPlane splane dplane buffer dst)
  let bytesused := (moves.map (·.n)).sum % 2 ^ 64
  let dst := { dst with
    flags := buffer.flags
    planes := dst.planes.modify 0 fun plane => { plane with bytesused } }
  { ret := .OK, node, idle := some dst, pushed := some dst, moves }

/-- `run_dmanode`, where `idle` is the buffer that is idle. -/
def runDmanode (heap : Nat → Option DmaMemory) (splane dplane : BufRef) (node : Node) (idle : Option Buffer)
    (buffer : Buffer) : Call :=
  let node := if buffer.flags &&& PITCHER_BUFFER_FLAG_LAST ≠ 0 then { node with ending := true } else node
  let node :=
    if (buffer.plane 0).bytesused ≠ 0 then { node with frameCount := node.frameCount + 1 } else node
  if pitcherBufferIsDmaBuf buffer then { ret := .OK, node, idle, pushed := some buffer }
  else
    match idle with
    | none => { ret := .E_NOT_READY, node, idle := none }
    | some dst =>
      match dst.format with
      | some fmt => copyBuffer splane dplane node buffer dst fmt
      | none =>
        let fmt := buffer.format.getD node.format
        let plane := { pitcherFreeDmaBuf (dst.plane 0) with size := fmt.size }
        let (ret, plane) := pitcherAllocDmaBuf heap plane
        let planes := dst.planes.set 0 plane
        if ret ≠ .OK then { ret := .E_NO_MEMORY, node, idle := some { dst with planes, format := none } }
        else copyBuffer splane dplane node buffer { dst with planes, format := some fmt } fmt

end Dma

/-! ## The views -/

/-- What `pitcher_get_buffer_plane` shows of plane `i`. -/
def Buffer.view (buf : Buffer) (i : Nat) : BufRef := (pitcherGetBufferPlane buf i).getD {}

/-- `n` bytes from `a` on lie in the plane. -/
def Inside (plane : BufRef) (a n : Nat) : Prop := plane.virt ≤ a ∧ a + n ≤ plane.virt + plane.size

def PixFmtInfo.sizeOf (fmt : PixFmtInfo) (i : Nat) : Nat := (fmt.planes i).size

section View
variable {buf : Buffer} {fmt : PixFmtInfo} {i : Nat}

theorem Buffer.Fits.view (fits : buf.Fits fmt) (known : buf.format = some fmt) (below : i < fmt.numPlanes) :
    pitcherGetBufferPlane buf i = some (buf.view i) := by
  unfold Buffer.view pitcherGetBufferPlane
  simp only [known]
  rw [if_neg (by have := fits.2; omega)]
  split
  case isTrue each =>
    rw [List.getElem?_eq_getElem (show i < buf.planes.length by rw [← Buffer.count]; omega), Option.getD_some]
  case isFalse => rw [Option.getD_some]

theorem Buffer.Fits.view_virt (fits : buf.Fits fmt) (known : buf.format = some fmt)
    (below : i < fmt.numPlanes) : (buf.view i).virt = buf.rowAt fmt i 0 :=
  fits.plane known below {}

/-- The buffer has one memory for the planes of its picture. -/
structure OneMemory (buf : Buffer) (fmt : PixFmtInfo) : Prop where
  known : buf.format = some fmt
  single : buf.count = 1

/-- One plane is shown as it is; of several, each one has the size that the format says. -/
theorem OneMemory.view_eq (one : OneMemory buf fmt) (below : i < fmt.numPlanes) :
    pitcherGetBufferPlane buf i = some (buf.view i) ∧
      buf.view i =
        if fmt.numPlanes = 1 then buf.plane 0
        else
          let plane := (List.range i).foldl (nextPlane fmt) (buf.plane 0)
          { plane with
            bytesused := if i = 0 then fmt.sizeOf 0 else plane.bytesused
            size := fmt.sizeOf i } := by
  have fits : buf.Fits fmt := ⟨by omega, .inl one.single⟩
  refine ⟨fits.view one.known below, ?_⟩
  unfold Buffer.view pitcherGetBufferPlane
  simp only [one.known, one.single]
  rw [if_neg (by omega)]
  split
  case isTrue whole =>
    obtain rfl : i = 0 := by omega
    rw [if_pos whole.symm, Buffer.plane, List.getD_eq_getElem?_getD]
  case isFalse several =>
    have head : buf.planes.headD {} = buf.plane 0 := by
      unfold Buffer.plane
      cases buf.planes <;> rfl
    rw [if_neg (Ne.symm several), Option.getD_some, head]
    rfl

/-- What the count of the memory is, taken down plane by plane. -/
theorem foldl_nextPlane_bytesused {plane : BufRef} {n : Nat} (used : plane.bytesused = sizeBefore fmt.sizeOf n)
    (small : plane.bytesused < 2 ^ 64) (upTo : i ≤ n) :
    ((List.range i).foldl (nextPlane fmt) plane).bytesused =
      sizeBefore fmt.sizeOf n - sizeBefore fmt.sizeOf i := by
  induction i with
  | zero => exact used
  | succ i ih =>
    have before := ih (by omega)
    have next := sizeBefore_succ fmt.sizeOf i
    have bound := sizeBefore_mono fmt.sizeOf upTo
    have size : (fmt.planes i).size = fmt.sizeOf i := rfl
    rw [List.range_succ, List.foldl_append, List.foldl_cons, List.foldl_nil]
    simp only [nextPlane, before, size]
    split <;> omega

variable (one : OneMemory buf fmt) (used : (buf.plane 0).bytesused = sizeBefore fmt.sizeOf fmt.numPlanes)
  (small : (buf.plane 0).bytesused < 2 ^ 64)
include one

theorem OneMemory.view_virt (below : i < fmt.numPlanes) :
    (buf.view i).virt = (buf.plane 0).virt + sizeBefore fmt.sizeOf i := by
  rw [(one.view_eq below).2]
  split
  · obtain rfl : i = 0 := by omega
    rw [sizeBefore_zero, Nat.add_zero]
  · exact foldl_nextPlane_virt fmt _ i

theorem OneMemory.view_size (below : i < fmt.numPlanes) :
    (buf.view i).size = if fmt.numPlanes = 1 then (buf.plane 0).size else fmt.sizeOf i := by
  rw [(one.view_eq below).2]
  split <;> rfl

include used small

/-- Behind the first plane, a view counts the planes behind it as well. -/
theorem OneMemory.view_bytesused (below : i < fmt.numPlanes) :
    (buf.view i).bytesused =
      if i = 0 then fmt.sizeOf 0 else sizeBefore fmt.sizeOf fmt.numPlanes - sizeBefore fmt.sizeOf i := by
  rw [(one.view_eq below).2]
  split
  case isTrue whole =>
    obtain rfl : i = 0 := by omega
    rw [if_pos rfl, used, whole, sizeBefore_succ, sizeBefore_zero, Nat.zero_add]
  case isFalse =>
    split
    · rfl
    · exact foldl_nextPlane_bytesused used small (Nat.le_of_lt below)

end View

/-- The views are what the format says of the planes, one behind the other. -/
structure ViewsExact (buf : Buffer) (fmt : PixFmtInfo) : Prop where
  shown : ∀ i < fmt.numPlanes, pitcherGetBufferPlane buf i = some (buf.view i)
  consecutive : ∀ i < fmt.numPlanes,
    (buf.view i).virt = (buf.plane 0).virt + sizeBefore (fun k => (buf.view k).bytesused) i
  disjoint : ∀ k < fmt.numPlanes, ∀ i < k,
    (buf.view i).virt + (buf.view i).bytesused ≤ (buf.view k).virt
  own : ∀ i < fmt.numPlanes, (buf.view i).bytesused = fmt.sizeOf i
  total : sizeBefore (fun i => (buf.view i).bytesused) fmt.numPlanes = (buf.plane 0).bytesused

/-- No plane behind the second one has any bytes. -/
def TwoPlanes (fmt : PixFmtInfo) : Prop := ∀ k, 2 ≤ k → k < fmt.numPlanes → fmt.sizeOf k = 0

section Exact
variable {fmt : PixFmtInfo}

theorem sizeBefore_congr {f g : Nat → Nat} {n : Nat} (same : ∀ k < n, f k = g k) :
    sizeBefore f n = sizeBefore g n := by
  unfold sizeBefore
  rw [List.map_congr_left fun k mem => same k (List.mem_range.mp mem)]

theorem sizeBefore_blank {size : Nat → Nat} {a b : Nat} (upTo : a ≤ b)
    (blank : ∀ k, a ≤ k → k < b → size k = 0) : sizeBefore size b = sizeBefore size a := by
  induction upTo with
  | refl => rfl
  | step least ih =>
    rw [sizeBefore_succ, blank _ least (Nat.lt_succ_self _), Nat.add_zero,
      ih fun k behind below => blank k behind (Nat.lt_succ_of_lt below)]

/-- What is left of the count behind a plane but the first is the size of the plane. -/
theorem twoPlanes_iff : TwoPlanes fmt ↔ ∀ i < fmt.numPlanes, 0 < i →
    sizeBefore fmt.sizeOf fmt.numPlanes - sizeBefore fmt.sizeOf i ≤ fmt.sizeOf i := by
  constructor
  · intro two i below later
    have all := sizeBefore_blank (show i + 1 ≤ fmt.numPlanes from below) fun k least => two k (by omega)
    have own := sizeBefore_succ fmt.sizeOf i
    omega
  · intro left k later below
    have before := left (k - 1) (by omega) (by omega)
    have own := sizeBefore_succ fmt.sizeOf (k - 1)
    have next := sizeBefore_succ fmt.sizeOf k
    have bound := sizeBefore_mono fmt.sizeOf (show k + 1 ≤ fmt.numPlanes from below)
    rw [Nat.sub_add_cancel (by omega)] at own
    omega

section Source
variable {buf : Buffer} (one : OneMemory buf fmt)
  (used : (buf.plane 0).bytesused = sizeBefore fmt.sizeOf fmt.numPlanes)
  (small : (buf.plane 0).bytesused < 2 ^ 64)
include one used small

theorem OneMemory.own (two : TwoPlanes fmt) {i : Nat} (below : i < fmt.numPlanes) :
    (buf.view i).bytesused = fmt.sizeOf i := by
  rw [one.view_bytesused used small below]
  split
  case isTrue first => rw [first]
  case isFalse later =>
    have left := twoPlanes_iff.mp two i below (Nat.pos_of_ne_zero later)
    have own := sizeBefore_succ fmt.sizeOf i
    have bound := sizeBefore_mono fmt.sizeOf (show i + 1 ≤ fmt.numPlanes from below)
    omega

theorem OneMemory.exact_iff : ViewsExact buf fmt ↔ TwoPlanes fmt := by
  constructor
  · intro exact_
    rw [twoPlanes_iff]
    intro i below later
    have own := exact_.own i below
    rw [one.view_bytesused used small below, if_neg (by omega)] at own
    omega
  · intro two
    have own := fun i => @OneMemory.own _ _ one used small two i
    have before : ∀ i ≤ fmt.numPlanes,
        sizeBefore (fun k => (buf.view k).bytesused) i = sizeBefore fmt.sizeOf i :=
      fun i upTo => sizeBefore_congr fun k below => own k (by omega)
    constructor
    case shown => exact fun i below => (one.view_eq below).1
    case consecutive =>
      intro i below
      rw [one.view_virt below, before i (by omega)]
    case disjoint =>
      intro k below i less
      have next := sizeBefore_succ fmt.sizeOf i
      have bound := sizeBefore_mono fmt.sizeOf (show i + 1 ≤ k from less)
      rw [one.view_virt (by omega), one.view_virt below, own i (by omega)]
      omega
    case own => exact own
    case total => rw [before _ (Nat.le_refl _), used]

end Source

end Exact

/-! ## The copy -/

namespace Dma

/-- An idle buffer of the node: once it has a format, that is the format of the pictures
that come in, and its memory is large enough. -/
structure Idle (fmt : PixFmtInfo) (dst : Buffer) : Prop where
  single : dst.count = 1
  same : ∀ dfmt, dst.format = some dfmt → dfmt.numPlanes = fmt.numPlanes ∧
    (∀ i < fmt.numPlanes, dfmt.sizeOf i = fmt.sizeOf i) ∧ fmt.size ≤ (dst.plane 0).size

/-- A call writes to the planes of its buffer only, and reports `used` bytes with the
buffer that it pushes. -/
structure Met (call : Call) (used : Nat) : Prop where
  inside : ∀ dst, call.idle = some dst → ∀ (i : Nat) (move : Move), call.moves[i]? = some move →
    ∃ plane, pitcherGetBufferPlane dst i = some plane ∧ Inside plane move.dst move.n
  total : ∀ pushed, call.pushed = some pushed → (pushed.plane 0).bytesused = used

/-- Memory that is given is as large as was asked for. -/
def Gives (heap : Nat → Option DmaMemory) : Prop := ∀ n memory, heap n = some memory → n ≤ memory.size

section Copying
variable {heap : Nat → Option DmaMemory} {splane dplane : BufRef} {node : Node} {buf dst : Buffer}
  {fmt dfmt : PixFmtInfo}

theorem copyBuffer_move {i : Nat} {move : Move}
    (here : (copyBuffer splane dplane node buf dst dfmt).moves[i]? = some move) :
    i < dfmt.numPlanes ∧ move = copyPlane splane dplane buf dst i := by
  obtain ⟨k, at_, rfl⟩ := List.getElem?_map .. ▸ here |> Option.map_eq_some_iff.mp
  obtain ⟨below, rfl⟩ := List.getElem?_eq_some_iff.mp at_
  exact ⟨by simpa using below, by simp⟩

variable (one : OneMemory buf fmt)
  (used : (buf.plane 0).bytesused = sizeBefore fmt.sizeOf fmt.numPlanes)
  (small : (buf.plane 0).bytesused < 2 ^ 64)
  (target : OneMemory dst dfmt) (planes : dfmt.numPlanes = fmt.numPlanes)
  (sizes : ∀ i < fmt.numPlanes, dfmt.sizeOf i = fmt.sizeOf i)
  (room : fmt.numPlanes = 1 → fmt.sizeOf 0 ≤ (dst.plane 0).size)
include one used small target planes sizes room

/-- The copy keeps to the planes exactly where there are two of them at most. -/
theorem copyBuffer_met_iff :
    Met (copyBuffer splane dplane node buf dst dfmt) (buf.plane 0).bytesused ↔ TwoPlanes fmt := by
  have some_ : 0 < dst.planes.length := by
    rw [← Buffer.count, target.single]
    exact Nat.one_pos
  obtain ⟨left, idle, placed⟩ : ∃ left, (copyBuffer splane dplane node buf dst dfmt).idle = some left ∧
      OneMemory left dfmt ∧ (left.plane 0).virt = (dst.plane 0).virt ∧
      (left.plane 0).size = (dst.plane 0).size := by
    refine ⟨_, rfl, ⟨target.known, ?_⟩, ?_, ?_⟩
    · rw [← target.single]
      exact List.length_modify ..
    all_goals simp [Buffer.plane, List.getElem?_eq_getElem some_]
  obtain ⟨kept, virt, size⟩ := placed
  have moved {i : Nat} (below : i < fmt.numPlanes) : copyPlane splane dplane buf dst i =
      ⟨(left.view i).virt, (buf.view i).virt, (buf.view i).bytesused⟩ := by
    unfold copyPlane
    have inside : i < dfmt.numPlanes := planes ▸ below
    simp only [(one.view_eq below).1, (target.view_eq inside).1, Option.getD_some,
      target.view_virt inside, kept.view_virt inside, virt]
  constructor
  · intro met
    rw [twoPlanes_iff]
    intro i below later
    have here : (copyBuffer splane dplane node buf dst dfmt).moves[i]? =
        some (copyPlane splane dplane buf dst i) := by
      simp [copyBuffer, show i < dfmt.numPlanes by omega]
    obtain ⟨plane, shown, -, upTo⟩ := met.inside left idle i _ here
    obtain rfl : left.view i = plane := Option.some.inj ((kept.view_eq (by omega)).1.symm.trans shown)
    rw [moved below, kept.view_size (by omega), if_neg (by omega), sizes i below] at upTo
    rw [one.view_bytesused used small below, if_neg (by omega)] at upTo
    exact Nat.le_of_add_le_add_left upTo
  · intro two
    have own := fun i => @OneMemory.own _ _ one used small two i
    constructor
    · intro dst' same i move here
      obtain rfl : left = dst' := Option.some.inj (idle.symm.trans same)
      obtain ⟨below, rfl⟩ := copyBuffer_move here
      refine ⟨left.view i, (kept.view_eq below).1, ?_⟩
      rw [Inside, moved (by omega), kept.view_size below, own i (by omega)]
      refine ⟨Nat.le_refl _, Nat.add_le_add_left ?_ _⟩
      dsimp only
      split
      case isTrue whole =>
        obtain rfl : i = 0 := by omega
        rw [size]
        exact room (planes ▸ whole)
      case isFalse => exact Nat.le_of_eq (sizes i (by omega)).symm
    · intro pushed same
      have counts : ((List.range dfmt.numPlanes).map (copyPlane splane dplane buf dst)).map (·.n) =
          (List.range fmt.numPlanes).map fmt.sizeOf := by
        rw [planes, List.map_map]
        apply List.map_congr_left
        intro i mem
        rw [Function.comp_apply, moved (List.mem_range.mp mem), own i (List.mem_range.mp mem)]
      have total : (((List.range dfmt.numPlanes).map (copyPlane splane dplane buf dst)).map (·.n)).sum % 2 ^ 64 =
          (buf.plane 0).bytesused := by
        rw [counts, used]
        rw [used] at small
        exact Nat.mod_eq_of_lt small
      obtain rfl := Option.some.inj same
      simp [Buffer.plane, List.getElem?_eq_getElem some_] at total ⊢
      exact total

end Copying

theorem pitcherAllocDmaBuf_size {heap : Nat → Option DmaMemory} (gives : Gives heap) {buf : BufRef}
    (ok : (pitcherAllocDmaBuf heap buf).1 = .OK) : (pitcherAllocDmaBuf heap buf).2.size = buf.size := by
  unfold pitcherAllocDmaBuf at ok ⊢
  split at ok
  · cases ok
  case isFalse some_ =>
    rw [if_neg some_]
    cases given : heap (align buf.size 4096) with
    | none => simp [given] at ok
    | some memory =>
      rw [given] at ok
      dsimp only at ok ⊢
      split at ok
      · cases ok
      case isFalse long =>
        rw [if_neg long]
        cases placed : memory.placed with
        | none => simp [placed] at ok
        | some place =>
          have room := gives _ memory given
          have bound := le_align buf.size (show 0 < 4096 by decide)
          exact Nat.min_eq_right (Nat.le_trans bound room)

theorem Idle.left {fmt : PixFmtInfo} {dst : Buffer} (ready : Idle fmt dst) (flags : UInt32)
    (change : BufRef → BufRef) (kept : ∀ plane, (change plane).size = plane.size) :
    Idle fmt { dst with flags, planes := dst.planes.modify 0 change } where
  single := by
    rw [← ready.single]
    exact List.length_modify ..
  same := by
    intro dfmt shape
    obtain ⟨planes, sizes, room⟩ := ready.same dfmt shape
    have some_ : 0 < dst.planes.length := by
      rw [← Buffer.count, ready.single]
      exact Nat.one_pos
    refine ⟨planes, sizes, Nat.le_trans room (Nat.le_of_eq ?_)⟩
    simp [Buffer.plane, List.getElem?_eq_getElem some_, kept]

/-- A call copies nothing and pushes the buffer that came in or none, or it copies to an
idle buffer of the format. -/
theorem runDmanode_cases {heap : Nat → Option DmaMemory} (gives : Gives heap) (splane dplane : BufRef)
    (node : Node) {idle : Option Buffer} {buf : Buffer} {fmt : PixFmtInfo} (known : buf.format = some fmt)
    (ready : ∀ dst, idle = some dst → Idle fmt dst) :
    let call := runDmanode heap splane dplane node idle buf
    (call.moves = [] ∧ (∀ pushed, call.pushed = some pushed → pushed = buf) ∧
        ∀ dst, call.idle = some dst → Idle fmt dst) ∨
      ∃ node' dst dfmt, call = copyBuffer splane dplane node' buf dst dfmt ∧ dst.format = some dfmt ∧
        Idle fmt dst := by
  dsimp only
  unfold runDmanode
  dsimp only
  split
  · exact .inl ⟨rfl, fun pushed same => (Option.some.inj same).symm, ready⟩
  split
  · refine .inl ⟨rfl, ?_, ?_⟩
    · rintro pushed ⟨⟩
    · rintro dst ⟨⟩
  case h_2 dst =>
    have idle := ready dst rfl
    split
    case h_1 dfmt shape => exact .inr ⟨_, dst, dfmt, rfl, shape, idle⟩
    case h_2 =>
      have length (plane : BufRef) : (dst.planes.set 0 plane).length = 1 := by
        rw [List.length_set, ← Buffer.count, idle.single]
      rw [known, Option.getD_some]
      split
      · refine .inl ⟨rfl, ?_, ?_⟩
        · rintro pushed ⟨⟩
        · intro dst' same
          obtain rfl := Option.some.inj same
          refine ⟨length _, ?_⟩
          rintro dfmt ⟨⟩
      case isFalse ok =>
        refine .inr ⟨_, _, fmt, rfl, rfl, length _, ?_⟩
        rintro dfmt ⟨⟩
        refine ⟨rfl, fun _ _ => rfl, Nat.le_of_eq ?_⟩
        have size := pitcherAllocDmaBuf_size gives (not_not.mp ok)
        have here (plane : BufRef) : (dst.planes.set 0 plane).getD 0 {} = plane := by
          have some_ : 0 < dst.planes.length := by
            rw [← Buffer.count, idle.single]
            exact Nat.one_pos
          rw [List.getD_eq_getElem?_getD, List.getElem?_set_self some_, Option.getD_some]
        simp only [Buffer.plane] at size ⊢
        rw [here, size]

/-- The buffers of the node stay what they are for the pictures that come in. -/
theorem runDmanode_idle {heap : Nat → Option DmaMemory} (gives : Gives heap) (splane dplane : BufRef)
    (node : Node) {idle : Option Buffer} {buf : Buffer} {fmt : PixFmtInfo} (known : buf.format = some fmt)
    (ready : ∀ dst, idle = some dst → Idle fmt dst) {dst : Buffer}
    (left : (runDmanode heap splane dplane node idle buf).idle = some dst) : Idle fmt dst := by
  rcases runDmanode_cases gives splane dplane node known ready with
    ⟨-, -, kept⟩ | ⟨node', dst', dfmt, copies, -, idle⟩
  · exact kept dst left
  · rw [copies] at left
    obtain rfl := Option.some.inj left
    exact idle.left _ _ fun _ => rfl

end Dma

/-- The views are exact, and what the node copies with them is too, exactly where a
picture has no more than two planes. -/
theorem pitcherGetBufferPlane_exact_iff (buf : Buffer) (fmt : PixFmtInfo) (known : buf.format = some fmt)
    (single : buf.count = 1) (used : (buf.plane 0).bytesused = sizeBefore fmt.sizeOf fmt.numPlanes)
    (small : (buf.plane 0).bytesused < 2 ^ 64) (first : fmt.numPlanes = 1 → fmt.sizeOf 0 ≤ fmt.size) :
    (ViewsExact buf fmt ↔ TwoPlanes fmt) ∧
      ∀ heap, Dma.Gives heap → ∀ splane dplane node idle, (∀ dst, idle = some dst → Dma.Idle fmt dst) →
        let call := Dma.runDmanode heap splane dplane node idle buf
        (Dma.Met call (buf.plane 0).bytesused ↔ call.moves = [] ∨ TwoPlanes fmt) := by
  have one : OneMemory buf fmt := ⟨known, single⟩
  refine ⟨one.exact_iff used small, ?_⟩
  intro heap gives splane dplane node idle ready call
  rcases Dma.runDmanode_cases gives splane dplane node known ready with
    ⟨none_, pushed, -⟩ | ⟨node', dst, dfmt, copies, shape, idle⟩
  · refine iff_of_true ⟨?_, ?_⟩ (.inl none_)
    · intro dst _ i move here
      rw [none_] at here
      cases here
    · intro b same
      rw [pushed b same]
  · obtain ⟨planes, sizes, room⟩ := idle.same dfmt shape
    have met := @Dma.copyBuffer_met_iff splane dplane node' buf dst fmt dfmt one used small
      ⟨shape, idle.single⟩ planes sizes fun whole => Nat.le_trans (first whole) room
    rw [← copies] at met
    rw [met]
    constructor
    · exact .inr
    · rintro (none_ | two)
      · intro k later below
        have moves : call.moves.length = dfmt.numPlanes := by
          rw [show call = _ from copies]
          simp [Dma.copyBuffer]
        rw [none_, List.length_nil] at moves
        omega
      · exact two

/-- A picture in a buffer of one memory. -/
def memoryOf (virt : Nat) (fmt : PixFmtInfo) : Buffer where
  planes := [{ virt, size := fmt.size, bytesused := sizeBefore fmt.sizeOf fmt.numPlanes }]
  format := some fmt

/-- The two planes of a picture of 4x2 samples in NV12. -/
theorem pitcherGetBufferPlane_exact_nv12 :
    ∃ fmt, pitcherGetPixFmtInfo { format := .nv12, width := 4, height := 2 } 1 = some fmt ∧
      ViewsExact (memoryOf 4096 fmt) fmt := by
  refine ⟨_, rfl, (pitcherGetBufferPlane_exact_iff (memoryOf 4096 _) _ rfl rfl rfl ?_ ?_).1.mpr ?_⟩
  · decide
  · decide
  · intro k later below
    exact absurd (Nat.lt_of_le_of_lt later below) (by decide)

/-- Of the three planes of I420 the second one seems to have the bytes of the third as
well, and the node copies them to where the third one begins. -/
theorem pitcherGetBufferPlane_three :
    ∃ fmt, pitcherGetPixFmtInfo { format := .i420, width := 4, height := 2 } 1 = some fmt ∧
      ((memoryOf 4096 fmt).plane 0).bytesused = 12 ∧ fmt.sizeOf 1 = 2 ∧
      ((memoryOf 4096 fmt).view 1).bytesused = 4 ∧ ¬ ViewsExact (memoryOf 4096 fmt) fmt ∧
      Dma.Idle fmt (memoryOf 8192 fmt) ∧
      ¬ Dma.Met (Dma.runDmanode (fun _ => none) {} {} { format := fmt } (some (memoryOf 8192 fmt))
        (memoryOf 4096 fmt)) 12 := by
  refine ⟨_, rfl, rfl, rfl, rfl, ?_, ⟨rfl, ?_⟩, ?_⟩
  · intro exact_
    exact absurd (exact_.own 1 (by decide)) (by decide)
  · rintro dfmt ⟨⟩
    exact ⟨rfl, fun _ _ => rfl, Nat.le_refl _⟩
  · intro met
    exact absurd (met.total _ rfl) (by decide)

end ImxTest.Pitcher
