import ImxTest.Lib.Loops
import ImxTest.Patgen.Convert

/-! What the loops of the conversion leave in the buffers: each works with the pixels that were there
before it, although it writes over them. -/
namespace ImxTest.Patgen
open Lib.BitString Lib.InPlace Lib.Loops Lib.Words

/-! ## Pixels in bytes -/

theorem littleEndian_length (n v : Nat) : (littleEndian n v).length = n := by
  rw [littleEndian, List.length_reverse, bytesOf_length]

theorem pixelOf_littleEndian (pixel : UInt32) : pixelOf (littleEndian 4 pixel.toNat) = pixel := by
  rw [pixelOf, littleEndian, List.reverse_reverse, word_bytesOf (by simpa using pixel.toNat_lt)]
  exact UInt32.ofNat_toNat

theorem littleEndian_pixelOf {bytes : List UInt8} (length : bytes.length = 4) : littleEndian 4 (pixelOf bytes).toNat = bytes := by
  have length' : bytes.reverse.length = 4 := by rw [List.length_reverse, length]
  have small := word_lt bytes.reverse
  rw [length'] at small
  have back := bytesOf_word bytes.reverse
  rw [length'] at back
  rw [littleEndian, pixelOf, UInt32.toNat_ofNat_of_lt' small, back, List.reverse_reverse]

section Bytes
variable {plane : Plane} {i : Int} {n : Nat} {mem mem' : Memory} {c : Plane × Int}

theorem bytesFrom_length : (bytesFrom plane i n).length = n := by rw [bytesFrom, List.length_map, List.length_range]

theorem mem_bytesFrom : c ∈ bytesFrom plane i n ↔ c.1 = plane ∧ i ≤ c.2 ∧ c.2 < i + n := by
  obtain ⟨p, j⟩ := c
  simp only [bytesFrom, List.mem_map, List.mem_range, Prod.mk.injEq]
  constructor
  · rintro ⟨k, low, rfl, rfl⟩
    exact ⟨rfl, by omega, by omega⟩
  · rintro ⟨rfl, low, high⟩
    exact ⟨(j - i).toNat, by omega, rfl, by omega⟩

theorem bytesFrom_holds (inside : c ∈ bytesFrom plane i n) (low : 0 ≤ i) (room : i + n ≤ mem.size plane) : mem.Holds c := by
  obtain ⟨same, first, last⟩ := mem_bytesFrom.mp inside
  unfold Memory.Holds
  rw [same]
  omega

/-- The pixels that the buffer holds. -/
def Shows (mem : Memory) (n : Nat) (pixel : Nat → UInt32) : Prop :=
  ∀ i < n, pixelOf ((pixelAt i).map mem.cells) = pixel i

theorem withPixels_shows (mem : Memory) (pixels : Pixels) (n : Nat) :
    Shows (mem.withPixels pixels) n fun i => pixels.cells i := by
  intro i _
  have bytes : (pixelAt i).map (mem.withPixels pixels).cells = littleEndian 4 (pixels.cells i).toNat := by
    apply List.ext_getElem
    · rw [List.length_map, pixelAt, bytesFrom_length, littleEndian_length]
    · intro k inside _
      rw [List.length_map, pixelAt, bytesFrom_length] at inside
      have quotient : (4 * (i : Int) + k) / 4 = i := by omega
      have rest : ((4 * (i : Int) + k) % 4).toNat = k := by omega
      simp only [pixelAt, bytesFrom, List.map_map, List.getElem_map, List.getElem_range, Function.comp_apply,
        Memory.withPixels, if_true, quotient, rest]
      rw [List.getD_eq_getElem?_getD, List.getElem?_eq_getElem, Option.getD_some]
  rw [bytes, pixelOf_littleEndian]

end Bytes

/-! ## Loops -/

section Go
variable {κ : Type} {pass pass' : Pass (Plane × Int) κ UInt8} {turns : List κ} {mem mem' : Memory}

theorem go_ok (ok : go pass turns mem = .ok mem') :
    (∀ turn ∈ turns, ∀ c ∈ pass.reads turn ++ pass.writes turn, mem.Holds c) ∧ mem'.size = mem.size := by
  unfold go at ok
  split_ifs at ok with held
  obtain rfl := Except.ok.inj ok
  exact ⟨held, rfl⟩

theorem go_holds (held : ∀ turn ∈ turns, ∀ c ∈ pass.reads turn ++ pass.writes turn, mem.Holds c) :
    go pass turns mem = .ok { mem with cells := pass.run turns mem.cells } := if_pos held

theorem go_congr (same : ∀ turn ∈ turns, pass.reads turn = pass'.reads turn ∧ pass.writes turn = pass'.writes turn ∧
    pass.value turn = pass'.value turn) : go pass turns mem = go pass' turns mem := by
  have held : (∀ turn ∈ turns, ∀ c ∈ pass.reads turn ++ pass.writes turn, mem.Holds c) ↔
      ∀ turn ∈ turns, ∀ c ∈ pass'.reads turn ++ pass'.writes turn, mem.Holds c :=
    forall₂_congr fun turn inside => by rw [(same turn inside).1, (same turn inside).2.1]
  unfold go
  rw [Pass.run_congr same]
  by_cases all : ∀ turn ∈ turns, ∀ c ∈ pass.reads turn ++ pass.writes turn, mem.Holds c
  · rw [if_pos all, if_pos (held.mp all)]
  · rw [if_neg all, if_neg fun all' => all (held.mpr all')]

end Go

/-! ## One pixel after the other -/

/-- Each pixel becomes `unit` bytes, one behind the other. -/
def linearPass (unit : Nat) (f : UInt32 → List UInt8) : Pass (Plane × Int) Nat UInt8 where
  reads i := pixelAt i
  writes i := bytesFrom .rgb (unit * i) unit
  value _ bytes := f (pixelOf bytes)

theorem stuckPass_linear (o : Output) : stuckPass o = linearPass 4 fun p => littleEndian 4 (o.stuck p).toNat := rfl

theorem bgr565Pass_linear : bgr565Pass = linearPass 2 fun p => littleEndian 2 (bitmapBgraToBgr565 p) := rfl

theorem bpcPass_linear (o : Output) :
    bpcPass o = linearPass 4 fun p => littleEndian 4 (bitmapBgraToBpc p o.bpc).toNat := rfl

section Linear
variable {unit n : Nat} {f : UInt32 → List UInt8} {mem mem' : Memory} {pixel : Nat → UInt32}

theorem bytesFrom_range (plane : Plane) (n unit : Nat) : ((List.range n).flatMap fun i => bytesFrom plane (unit * i : Nat) unit) =
    (List.range (n * unit)).map fun k : Nat => (plane, (k : Int)) := by
  rw [range_mul, List.map_flatMap]
  refine List.flatMap_congr fun i _ => ?_
  rw [List.map_map, bytesFrom]
  refine List.map_congr_left fun k _ => ?_
  rw [Function.comp_apply, Nat.mul_comm i]
  push_cast
  rfl

theorem nodup_bytes (plane : Plane) (n : Nat) : ((List.range n).map fun k : Nat => (plane, (k : Int))).Nodup :=
  List.nodup_range.map fun _ _ same => Int.ofNat.inj (Prod.mk.inj same).2

/-- Where a pixel is written, no later one is read. -/
theorem linear_apart (narrow : unit ≤ 4) : (linearPass unit f).Apart (List.range n) := by
  refine List.pairwise_lt_range.imp fun {i j} before c written read => ?_
  obtain ⟨-, -, high⟩ := mem_bytesFrom.mp written
  obtain ⟨-, low, -⟩ := mem_bytesFrom.mp read
  have first : unit * (i + 1) ≤ 4 * j := Nat.mul_le_mul narrow before
  rw [Nat.mul_succ] at first
  have cast : ((unit * i + unit : Nat) : Int) ≤ (4 * j : Nat) := by exact_mod_cast first
  push_cast at cast
  omega

theorem go_linear (narrow : unit ≤ 4) (lengths : ∀ p, (f p).length = unit) (room : 4 * n ≤ mem.size .rgb)
    (shows : Shows mem n pixel) : ∃ mem', go (linearPass unit f) (List.range n) mem = .ok mem' ∧
      mem'.size = mem.size ∧ ∀ i < n, (bytesFrom .rgb (unit * i : Nat) unit).map mem'.cells = f (pixel i) := by
  have held : ∀ i ∈ List.range n, ∀ c ∈ (linearPass unit f).reads i ++ (linearPass unit f).writes i, mem.Holds c := by
    intro i inside c mem_c
    have low := List.mem_range.mp inside
    rcases List.mem_append.mp mem_c with read | written
    · exact bytesFrom_holds read (by omega) (by omega)
    · have least : 0 ≤ (unit : Int) * i := by exact_mod_cast Nat.zero_le (unit * i)
      have inside' : unit * i + unit ≤ 4 * n := by
        rw [← Nat.mul_succ]
        exact Nat.mul_le_mul narrow low
      have cast : ((unit * i + unit : Nat) : Int) ≤ (4 * n : Nat) := by exact_mod_cast inside'
      push_cast at cast
      exact bytesFrom_holds written least (by omega)
  have nodup : ((List.range n).flatMap (linearPass unit f).writes).Nodup := by
    have all := nodup_bytes .rgb (n * unit)
    rw [← bytesFrom_range] at all
    exact_mod_cast all
  refine ⟨_, go_holds held, rfl, fun i low => ?_⟩
  have result := @Pass.run_at _ _ _ _ _ _ mem.cells (linear_apart narrow) nodup
    (fun t _ => (lengths _).trans bytesFrom_length.symm) i (List.mem_range.mpr low)
  rw [← shows i low]
  exact_mod_cast result

/-- All the bytes, one behind the other. -/
theorem linear_bytes {bytes : Nat → List UInt8}
    (written : ∀ i < n, (bytesFrom .rgb (unit * i : Nat) unit).map mem.cells = bytes i) :
    ((List.range (n * unit)).map fun k : Nat => mem.cells (.rgb, k)) = (List.range n).flatMap bytes := by
  have all := congrArg (List.map mem.cells) (bytesFrom_range .rgb n unit)
  rw [List.map_map] at all
  refine all.symm.trans ?_
  rw [List.map_flatMap]
  exact List.flatMap_congr fun i inside => written i (List.mem_range.mp inside)

end Linear

/-! ## The other loops -/

section Loops
variable {n : Nat} {o : Output} {mem : Memory} {pixel : Nat → UInt32}

theorem yuvPass_linear {unit : Nat} (small : unit * n ≤ 2 ^ 31) : go (yuvPass o unit) (List.range n) mem =
    go (linearPass unit fun p => [(o.yuva p).y, (o.yuva p).u, (o.yuva p).v, (o.yuva p).a].take unit) (List.range n) mem := by
  refine go_congr fun i inside => ⟨rfl, ?_, rfl⟩
  refine List.map_congr_left fun k low => ?_
  have below : unit * i + unit ≤ unit * n := by
    rw [← Nat.mul_succ]
    exact Nat.mul_le_mul_left _ (List.mem_range.mp inside)
  have k_lt := List.mem_range.mp low
  have whole : int (unit * i) = (unit * i : Nat) := by
    rw [← Nat.cast_mul]
    exact int_natCast (by omega)
  rw [whole, ← Nat.cast_add, int_natCast (by omega)]
  push_cast
  rfl

theorem yuyv_apart (n : Nat) : (yuyvPass o).Apart (List.range n) := by
  refine List.pairwise_lt_range.imp fun {i j} before c written read => ?_
  obtain ⟨-, -, high⟩ := mem_bytesFrom.mp written
  rcases List.mem_append.mp read with first | second
  · obtain ⟨-, low, -⟩ := mem_bytesFrom.mp first
    omega
  · obtain ⟨-, low, -⟩ := mem_bytesFrom.mp second
    omega

/-- Two pixels become four bytes. -/
theorem go_yuyv (room : 8 * n ≤ mem.size .rgb) (shows : Shows mem (2 * n) pixel) :
    ∃ mem', go (yuyvPass o) (List.range n) mem = .ok mem' ∧ mem'.size = mem.size ∧
      ∀ t < n, (bytesFrom .rgb (4 * t : Nat) 4).map mem'.cells = [(o.yuva (pixel (2 * t))).y, (o.yuva (pixel (2 * t))).u,
        (o.yuva (pixel (2 * t + 1))).y, (o.yuva (pixel (2 * t))).v] := by
  have nodup : ((List.range n).flatMap (yuyvPass o).writes).Nodup := by
    have all := nodup_bytes .rgb (n * 4)
    rw [← bytesFrom_range] at all
    exact_mod_cast all
  have held : ∀ t ∈ List.range n, ∀ c ∈ (yuyvPass o).reads t ++ (yuyvPass o).writes t, mem.Holds c := by
    intro t inside c mem_c
    have low := List.mem_range.mp inside
    rcases List.mem_append.mp mem_c with read | written
    · rcases List.mem_append.mp read with first | second
      · exact bytesFrom_holds first (by omega) (by omega)
      · exact bytesFrom_holds second (by omega) (by omega)
    · exact bytesFrom_holds written (by omega) (by omega)
  refine ⟨_, go_holds held, rfl, fun t low => ?_⟩
  have result := @Pass.run_at _ _ _ _ _ _ mem.cells (yuyv_apart n) nodup
    (fun t _ => bytesFrom_length.symm) t (List.mem_range.mpr low)
  have first := shows (2 * t) (by omega)
  have second := shows (2 * t + 1) (by omega)
  push_cast at first second
  have taken : (((yuyvPass o).reads t).map mem.cells).take 4 = (pixelAt (2 * (t : Int))).map mem.cells := by
    change ((pixelAt _ ++ pixelAt _).map _).take 4 = _
    rw [List.map_append]
    exact List.take_left' (by rw [List.length_map, pixelAt, bytesFrom_length])
  have dropped : (((yuyvPass o).reads t).map mem.cells).drop 4 = (pixelAt (2 * (t : Int) + 1)).map mem.cells := by
    change ((pixelAt _ ++ pixelAt _).map _).drop 4 = _
    rw [List.map_append]
    exact List.drop_left' (by rw [List.length_map, pixelAt, bytesFrom_length])
  refine Eq.trans ?_ (result.trans ?_)
  · exact_mod_cast rfl
  · change [_, _, _, _] = _
    rw [taken, dropped, first, second]

/-- Every pixel is there in each plane. -/
theorem go_planar (rgb : 4 * n ≤ mem.size .rgb) (luma : n ≤ mem.size .luma) (chroma : 2 * n ≤ mem.size .chroma)
    (alpha : n ≤ mem.size .alpha) (shows : Shows mem n pixel) :
    ∃ mem', go (planarPass o n) (List.range n) mem = .ok mem' ∧ mem'.size = mem.size ∧
      ∀ i < n, mem'.cells (.luma, i) = (o.yuva (pixel i)).y ∧ mem'.cells (.chroma, i) = (o.yuva (pixel i)).u ∧
        mem'.cells (.chroma, n + i) = (o.yuva (pixel i)).v := by
  have apart : (planarPass o n).Apart (List.range n) := by
    refine List.pairwise_lt_range.imp fun {i j} before c written read => ?_
    obtain ⟨plane, -, -⟩ := mem_bytesFrom.mp read
    simp only [planarPass, List.mem_cons, List.not_mem_nil, or_false] at written
    rcases written with rfl | rfl | rfl | rfl <;> cases plane
  have nodup : ((List.range n).flatMap (planarPass o n).writes).Nodup := by
    refine List.nodup_flatMap.mpr ⟨fun i inside => ?_, List.nodup_range.imp_of_mem fun {i j} inside inside' other => ?_⟩
    · have low := List.mem_range.mp inside
      simp [planarPass]
      omega
    · have low := List.mem_range.mp inside
      have low' := List.mem_range.mp inside'
      intro c first second
      simp only [planarPass, List.mem_cons, List.not_mem_nil, or_false] at first second
      rcases first with rfl | rfl | rfl | rfl <;> simp only [Prod.mk.injEq, reduceCtorEq, false_and, true_and, false_or,
        or_false] at second <;> omega
  have held : ∀ i ∈ List.range n, ∀ c ∈ (planarPass o n).reads i ++ (planarPass o n).writes i, mem.Holds c := by
    intro i inside c mem_c
    have low := List.mem_range.mp inside
    rcases List.mem_append.mp mem_c with read | written
    · exact bytesFrom_holds read (by omega) (by omega)
    · simp only [planarPass, List.mem_cons, List.not_mem_nil, or_false] at written
      unfold Memory.Holds
      rcases written with rfl | rfl | rfl | rfl <;> dsimp only <;> omega
  refine ⟨_, go_holds held, rfl, fun i low => ?_⟩
  have result := @Pass.run_at _ _ _ _ _ _ mem.cells apart nodup (fun t _ => rfl) i (List.mem_range.mpr low)
  have value : (planarPass o n).value i (((planarPass o n).reads i).map mem.cells) =
      [(o.yuva (pixel i)).y, (o.yuva (pixel i)).u, (o.yuva (pixel i)).v, (o.yuva (pixel i)).a] := by
    rw [← shows i low]
    rfl
  rw [value] at result
  simp only [planarPass, List.map_cons, List.map_nil, List.cons.injEq] at result
  exact ⟨result.1, result.2.1, result.2.2.1⟩

end Loops

/-! ## Chroma that moves down -/

section Subsample
variable {places : List Int} {mem : Memory}

theorem zipIdx_before (places : List Int) : places.zipIdx.Pairwise fun first later => first.2 < later.2 := by
  apply List.pairwise_map.mp
  rw [List.zipIdx_map_snd]
  exact List.pairwise_lt_range'

theorem subsample_writes (small : places.length < 2 ^ 31) : places.zipIdx.flatMap subsamplePass.writes =
    (List.range places.length).map fun k : Nat => (.chroma, (k : Int)) := by
  have indexes : places.zipIdx.map Prod.snd = List.range places.length := by
    rw [List.zipIdx_map_snd, List.range_eq_range']
  calc places.zipIdx.flatMap subsamplePass.writes
      = places.zipIdx.map fun turn => (.chroma, int turn.2) := List.map_eq_flatMap.symm
    _ = (List.range places.length).map fun k : Nat => (.chroma, int k) := by rw [← indexes, List.map_map]; rfl
    _ = (List.range places.length).map fun k : Nat => (.chroma, (k : Int)) :=
        List.map_congr_left fun k inside => by rw [int_natCast ((List.mem_range.mp inside).trans small)]

/-- No sample comes from below the place it goes to, so that each one still is what it was. -/
theorem go_subsample (small : places.length < 2 ^ 31)
    (room : ∀ j ∈ places, j < mem.size .chroma) (down : ∀ turn ∈ places.zipIdx, (turn.2 : Int) ≤ turn.1) :
    ∃ mem', go subsamplePass places.zipIdx mem = .ok mem' ∧ mem'.size = mem.size ∧
      (∀ i, mem'.cells (.luma, i) = mem.cells (.luma, i)) ∧
      (List.range places.length).map (fun k : Nat => mem'.cells (.chroma, k)) =
        places.map fun j => mem.cells (.chroma, j) := by
  have turn_down {turn : Int × Nat} (inside : turn ∈ places.zipIdx) :
      (turn.2 : Int) ≤ turn.1 ∧ turn.1 < mem.size .chroma ∧ turn.2 < 2 ^ 31 := by
    exact ⟨down turn inside, room _ (List.fst_mem_of_mem_zipIdx inside), (List.mem_zipIdx' inside).1.trans small⟩
  have apart : subsamplePass.Apart places.zipIdx := by
    refine (zipIdx_before places).imp_of_mem fun {first later} inside inside' before c written read => ?_
    have bounds := turn_down inside
    have bounds' := turn_down inside'
    simp only [subsamplePass, List.mem_singleton] at written read
    rw [written, Prod.mk.injEq, int_natCast bounds.2.2] at read
    omega
  have nodup : (places.zipIdx.flatMap subsamplePass.writes).Nodup := by
    rw [subsample_writes small]
    exact nodup_bytes .chroma places.length
  have held : ∀ turn ∈ places.zipIdx, ∀ c ∈ subsamplePass.reads turn ++ subsamplePass.writes turn, mem.Holds c := by
    intro turn inside c mem_c
    have bounds := turn_down inside
    simp only [subsamplePass, List.singleton_append, List.mem_cons, List.not_mem_nil, or_false] at mem_c
    unfold Memory.Holds
    rcases mem_c with rfl | rfl
    · dsimp only
      omega
    · dsimp only
      rw [int_natCast bounds.2.2]
      omega
  refine ⟨_, go_holds held, rfl, fun i => ?_, ?_⟩
  · refine Pass.run_free fun turn _ written => ?_
    simp [subsamplePass] at written
  · have result := @Pass.run_result _ _ _ _ subsamplePass _ mem.cells apart nodup fun _ _ => rfl
    rw [subsample_writes small, List.map_map] at result
    refine result.trans ?_
    calc places.zipIdx.flatMap (fun turn => [mem.cells (.chroma, turn.1)])
        = places.zipIdx.map fun turn => mem.cells (.chroma, turn.1) := List.map_eq_flatMap.symm
      _ = (places.zipIdx.map Prod.fst).map fun j => mem.cells (.chroma, j) := by rw [List.map_map]; rfl
      _ = places.map fun j => mem.cells (.chroma, j) := by rw [List.zipIdx_map_fst]

end Subsample

end ImxTest.Patgen
