import ImxTest.Dsd.Play
import ImxTest.Lib.Loops
import ImxTest.Lib.Words

/-! The functions that interleave a block of either kind of file for the stream. -/
namespace ImxTest.Dsd

open Lib Reading Words Loops

/-! ## The functions -/

/-- A byte from one array to the other, where both are large enough. -/
def copyByte (src dest : List UInt8) (move : Int × Int) : Except Stop (List UInt8) :=
  if 0 ≤ move.1 ∧ move.1 < dest.length ∧ 0 ≤ move.2 ∧ move.2 < src.length then
    .ok (dest.set move.1.toNat (src.getD move.2.toNat 0))
  else .error .fault

def copyBytes (moves : List (Int × Int)) (dest src : List UInt8) : Except Stop (List UInt8) :=
  moves.foldlM (copyByte src) dest

/-- The offsets are unsigned numbers that are taken for ints; the bytes of a sample are copied in
one piece. -/
def dsfMoves (channels bytes : Nat) : List (Int × Int) :=
  loops (DSF_BLOCK_SIZE / bytes) channels bytes fun i c j =>
    (int (channels * bytes * i + c * bytes : Nat) + j, int (c * DSF_BLOCK_SIZE + i * bytes : Nat) + j)

def dffMoves (channels bytes : Nat) : List (Int × Int) :=
  loops (DSF_BLOCK_SIZE / bytes) channels bytes fun i c j =>
    (uint (channels * bytes * i + c * bytes + j : Nat), uint (channels * bytes * i + c + j * channels : Nat))

section Interleave
variable {F : Type} (physicalWidth : F → Nat)

def interleaveDsfBlock (dest src : List UInt8) (channels : UInt32) (format : F) : Except Stop (List UInt8) :=
  let bytes := physicalWidth format / 8
  if bytes = 0 then .error .fault else copyBytes (dsfMoves channels.toNat bytes) dest src

def interleaveDffBlock (dest src : List UInt8) (channels : UInt32) (format : F) : Except Stop (List UInt8) :=
  let bytes := physicalWidth format / 8
  if bytes = 0 then .error .fault else copyBytes (dffMoves channels.toNat bytes) dest src

end Interleave

/-! ## Moves in order -/

section Order
variable {moves : List (Nat × Nat)} {src : List UInt8}

def casted (move : Nat × Nat) : Int × Int := (move.1, move.2)

/-- Moves to one place after the other. -/
theorem copyBytes_order (front rest : List UInt8) (order : moves.map Prod.fst = List.range' front.length moves.length)
    (inside : ∀ m ∈ moves, m.2 < src.length) (room : moves.length ≤ rest.length) :
    copyBytes (moves.map casted) (front ++ rest) src =
      .ok (front ++ moves.map (fun m => src.getD m.2 0) ++ rest.drop moves.length) := by
  induction moves generalizing front rest with
  | nil => simp [copyBytes, pure, Except.pure]
  | cons m moves ih =>
    obtain ⟨old, rest, rfl⟩ := List.exists_cons_of_length_pos (l := rest) (by rw [List.length_cons] at room; omega)
    rw [List.map_cons, List.length_cons, List.range'_succ] at order
    obtain ⟨here, order⟩ := List.cons.inj order
    have src_inside := inside m List.mem_cons_self
    have step : copyByte src (front ++ old :: rest) (casted m) = .ok (front ++ src.getD m.2 0 :: rest) := by
      unfold copyByte casted
      rw [if_pos ⟨by omega, by simp only [List.length_append, List.length_cons]; omega, by omega, by omega⟩]
      simp only [here, Int.toNat_natCast, List.set_append_right _ _ (le_refl _), Nat.sub_self, List.set_cons_zero]
    have next := ih (front ++ [src.getD m.2 0]) rest (by rw [List.length_append]; exact order)
      (fun m' mem => inside m' (List.mem_cons_of_mem m mem)) (by simp only [List.length_cons] at room; omega)
    rw [List.append_assoc, List.singleton_append] at next
    rw [List.map_cons, copyBytes, List.foldlM_cons, step]
    refine next.trans ?_
    simp only [List.append_assoc, List.map_cons, List.cons_append, List.nil_append, List.length_cons, List.drop_succ_cons]

theorem map_getD_range (src : List UInt8) : (List.range src.length).map (src.getD · 0) = src := by
  apply List.ext_getElem
  · rw [List.length_map, List.length_range]
  · intro i first second
    rw [List.getElem_map, List.getElem_range, List.getD_eq_getElem?_getD, List.getElem?_eq_getElem second, Option.getD_some]

end Order

/-! ## Permutations -/

/-- Every byte of the destination is written once, and every byte of the source is taken once. -/
structure Permutes (moves : List (Int × Int)) (interleave : List UInt8 → List UInt8 → Except Stop (List UInt8))
    (n : Nat) : Prop where
  covers : (moves.map Prod.fst).Perm ((List.range n).map Nat.cast)
  takes : (moves.map Prod.snd).Perm ((List.range n).map Nat.cast)
  bytes : ∀ dest src : List UInt8, dest.length = n → src.length = n → ∃ out, interleave dest src = .ok out ∧ out.Perm src

section Permutes
variable {moves : List (Nat × Nat)} {n : Nat}

theorem copyBytes_permuted (order : moves.map Prod.fst = List.range n) (takes : (moves.map Prod.snd).Perm (List.range n))
    {dest src : List UInt8} (dest_length : dest.length = n) (src_length : src.length = n) :
    copyBytes (moves.map casted) dest src = .ok (moves.map fun m => src.getD m.2 0) := by
  have length : moves.length = n := by
    rw [← List.length_map (f := Prod.fst), order, List.length_range]
  have inside (m : Nat × Nat) (mem : m ∈ moves) : m.2 < src.length := by
    rw [src_length]
    exact List.mem_range.mp (takes.mem_iff.mp (List.mem_map_of_mem mem))
  have copied := copyBytes_order [] dest (by rw [order, length, List.range_eq_range']; rfl) inside
    (by omega)
  rw [List.nil_append, List.nil_append, List.drop_of_length_le (by omega), List.append_nil] at copied
  exact copied

theorem permutes_of_order {interleave : List UInt8 → List UInt8 → Except Stop (List UInt8)}
    (order : moves.map Prod.fst = List.range n) (takes : (moves.map Prod.snd).Perm (List.range n))
    (copies : ∀ dest src, interleave dest src = copyBytes (moves.map casted) dest src) :
    Permutes (moves.map casted) interleave n where
  covers := by
    rw [List.map_map, ← order, List.map_map]
    exact .refl _
  takes := by
    have cast := takes.map (Nat.cast : Nat → Int)
    rw [List.map_map] at cast ⊢
    exact cast
  bytes dest src dest_length src_length := by
    have taken := takes.map fun k => src.getD k 0
    rw [← src_length, map_getD_range, List.map_map] at taken
    exact ⟨_, (copies dest src).trans (copyBytes_permuted order takes dest_length src_length), taken⟩

end Permutes

/-! ## The indices -/

section Indices
variable {channels bytes groups : Nat}

/-- The moves of either function where nothing wraps. -/
def dsfPlain (channels bytes groups : Nat) : List (Nat × Nat) := loops groups channels bytes fun i c j =>
  (i * (channels * bytes) + (c * bytes + j), c * (groups * bytes) + (i * bytes + j))

def dffPlain (channels bytes groups : Nat) : List (Nat × Nat) := loops groups channels bytes fun i c j =>
  (i * (channels * bytes) + (c * bytes + j), i * (bytes * channels) + (j * channels + c))

variable (channels bytes groups) in
theorem dsfPlain_order : (dsfPlain channels bytes groups).map Prod.fst = List.range (channels * (groups * bytes)) ∧
    ((dsfPlain channels bytes groups).map Prod.snd).Perm (List.range (channels * (groups * bytes))) := by
  have total : channels * (groups * bytes) = groups * (channels * bytes) := by ring
  constructor
  · rw [total, dsfPlain, map_loops, ← loops_range]
  · rw [dsfPlain, map_loops, ← loops_range]
    exact loops_swap_outer

variable (channels bytes groups) in
theorem dffPlain_order : (dffPlain channels bytes groups).map Prod.fst = List.range (channels * (groups * bytes)) ∧
    ((dffPlain channels bytes groups).map Prod.snd).Perm (List.range (channels * (groups * bytes))) := by
  have total : channels * (groups * bytes) = groups * (channels * bytes) := by ring
  have total' : channels * (groups * bytes) = groups * (bytes * channels) := by ring
  constructor
  · rw [total, dffPlain, map_loops, ← loops_range]
  · rw [total', dffPlain, map_loops, ← loops_range]
    exact loops_swap_inner

variable (divides : bytes ∣ DSF_BLOCK_SIZE)

include divides in
theorem bytes_pos : 0 < bytes := Nat.pos_of_dvd_of_pos divides (by decide)

theorem lt_of_mem {total : Nat} {f : Nat → Nat → Nat → Nat} (order : (loops groups channels bytes f).Perm (List.range total))
    {i c j : Nat} (i_lt : i < groups) (c_lt : c < channels) (j_lt : j < bytes) : f i c j < total :=
  List.mem_range.mp (order.mem_iff.mp (mem_loops.mpr ⟨i, i_lt, c, c_lt, j, j_lt, rfl⟩))

include divides in
theorem dsfMoves_plain (small : channels * DSF_BLOCK_SIZE ≤ 2 ^ 31) :
    dsfMoves channels bytes = (dsfPlain channels bytes (DSF_BLOCK_SIZE / bytes)).map casted := by
  have whole := Nat.div_mul_cancel divides
  obtain ⟨order, takes⟩ := dsfPlain_order channels bytes (DSF_BLOCK_SIZE / bytes)
  rw [whole, dsfPlain, map_loops] at order takes
  rw [dsfPlain, map_loops, dsfMoves]
  refine loops_congr fun i i_lt c c_lt j j_lt => ?_
  have dst_lt := lt_of_mem (.of_eq order) i_lt c_lt j_lt
  have src_lt := lt_of_mem takes i_lt c_lt j_lt
  have dst : channels * bytes * i + c * bytes + j = i * (channels * bytes) + (c * bytes + j) := by ring
  have src : c * DSF_BLOCK_SIZE + i * bytes + j = c * (DSF_BLOCK_SIZE / bytes * bytes) + (i * bytes + j) := by
    rw [whole]
    ring
  rw [casted, ← dst, ← src, int_natCast (by omega), int_natCast (by omega)]
  rfl

include divides in
theorem dffMoves_plain (small : channels * DSF_BLOCK_SIZE ≤ 2 ^ 32) :
    dffMoves channels bytes = (dffPlain channels bytes (DSF_BLOCK_SIZE / bytes)).map casted := by
  have whole := Nat.div_mul_cancel divides
  obtain ⟨order, takes⟩ := dffPlain_order channels bytes (DSF_BLOCK_SIZE / bytes)
  rw [whole, dffPlain, map_loops] at order takes
  rw [dffPlain, map_loops, dffMoves]
  refine loops_congr fun i i_lt c c_lt j j_lt => ?_
  have dst_lt := lt_of_mem (.of_eq order) i_lt c_lt j_lt
  have src_lt := lt_of_mem takes i_lt c_lt j_lt
  have dst : channels * bytes * i + c * bytes + j = i * (channels * bytes) + (c * bytes + j) := by ring
  have src : channels * bytes * i + c + j * channels = i * (bytes * channels) + (j * channels + c) := by ring
  rw [casted, ← dst, ← src, uint_natCast (by omega), uint_natCast (by omega)]

include divides in
/-- From 2 ^ 31 bytes on there is an offset below zero. -/
theorem dsfMoves_below (large : 2 ^ 31 < channels * DSF_BLOCK_SIZE) : -2 ^ 31 ∈ (dsfMoves channels bytes).map Prod.fst := by
  have whole := Nat.div_mul_cancel divides
  have positive := bytes_pos divides
  have some_channels : 0 < channels := Nat.pos_of_ne_zero fun none => by simp [none] at large
  obtain ⟨sample, samples⟩ : bytes ∣ 2 ^ 31 := divides.trans (by decide)
  have below : sample < DSF_BLOCK_SIZE / bytes * channels := by
    refine Nat.lt_of_mul_lt_mul_left (a := bytes) ?_
    rw [← samples, ← Nat.mul_assoc, Nat.mul_comm bytes, whole, Nat.mul_comm]
    exact large
  have at_ : channels * bytes * (sample / channels) + sample % channels * bytes = 2 ^ 31 := by
    have parts := Nat.div_add_mod sample channels
    calc channels * bytes * (sample / channels) + sample % channels * bytes
        = bytes * (channels * (sample / channels) + sample % channels) := by ring
      _ = 2 ^ 31 := by rw [parts, samples]
  have wrapped : int ((2 ^ 31 : Nat) : Int) + (0 : Nat) = -2 ^ 31 := by
    obtain ⟨k, same⟩ := exists_int ((2 ^ 31 : Nat) : Int)
    have inside := int_bounds ((2 ^ 31 : Nat) : Int)
    omega
  rw [dsfMoves, map_loops, mem_loops]
  refine ⟨sample / channels, ?_, sample % channels, Nat.mod_lt _ some_channels, 0, positive, ?_⟩
  · exact Nat.div_lt_of_lt_mul (by rw [Nat.mul_comm]; exact below)
  · rw [at_]
    exact wrapped

end Indices

/-! ## Both functions -/

/-- The block of a DSDIFF file is the interleaving, byte by byte, of the blocks of a DSF file. -/
def Interleaved (channels : Nat) (dsf dff : List UInt8) : Prop :=
  ∀ k < DSF_BLOCK_SIZE, ∀ c < channels, dff.getD (k * channels + c) 0 = dsf.getD (c * DSF_BLOCK_SIZE + k) 0

/-- Each function permutes a block, and blocks with the same bytes come to the same. -/
structure Agree {F : Type} (physicalWidth : F → Nat) (channels : UInt32) (format : F) : Prop where
  dsf : Permutes (dsfMoves channels.toNat (physicalWidth format / 8))
    (interleaveDsfBlock physicalWidth · · channels format) (channels.toNat * DSF_BLOCK_SIZE)
  dff : Permutes (dffMoves channels.toNat (physicalWidth format / 8))
    (interleaveDffBlock physicalWidth · · channels format) (channels.toNat * DSF_BLOCK_SIZE)
  same : ∀ dest dsf dff : List UInt8, dest.length = channels.toNat * DSF_BLOCK_SIZE →
    dsf.length = channels.toNat * DSF_BLOCK_SIZE → dff.length = channels.toNat * DSF_BLOCK_SIZE →
    Interleaved channels.toNat dsf dff → interleaveDsfBlock physicalWidth dest dsf channels format =
      interleaveDffBlock physicalWidth dest dff channels format

section Agree
variable {F : Type} {physicalWidth : F → Nat} {format : F} {channels : UInt32}

theorem agree_of_small (divides : physicalWidth format / 8 ∣ DSF_BLOCK_SIZE)
    (small : channels.toNat * DSF_BLOCK_SIZE ≤ 2 ^ 31) : Agree physicalWidth channels format := by
  have whole := Nat.div_mul_cancel divides
  have positive := bytes_pos divides
  have dsf_plain := dsfMoves_plain divides small
  have dff_plain := dffMoves_plain divides (small.trans (by decide))
  have dsf_copies (dest src : List UInt8) : interleaveDsfBlock physicalWidth dest src channels format =
      copyBytes ((dsfPlain channels.toNat (physicalWidth format / 8) (DSF_BLOCK_SIZE / (physicalWidth format / 8))).map
        casted) dest src := by
    rw [← dsf_plain]
    exact if_neg positive.ne'
  have dff_copies (dest src : List UInt8) : interleaveDffBlock physicalWidth dest src channels format =
      copyBytes ((dffPlain channels.toNat (physicalWidth format / 8) (DSF_BLOCK_SIZE / (physicalWidth format / 8))).map
        casted) dest src := by
    rw [← dff_plain]
    exact if_neg positive.ne'
  obtain ⟨dsf_order, dsf_takes⟩ := dsfPlain_order channels.toNat (physicalWidth format / 8)
    (DSF_BLOCK_SIZE / (physicalWidth format / 8))
  obtain ⟨dff_order, dff_takes⟩ := dffPlain_order channels.toNat (physicalWidth format / 8)
    (DSF_BLOCK_SIZE / (physicalWidth format / 8))
  rw [whole] at dsf_order dsf_takes dff_order dff_takes
  refine ⟨dsf_plain ▸ permutes_of_order dsf_order dsf_takes dsf_copies,
    dff_plain ▸ permutes_of_order dff_order dff_takes dff_copies, ?_⟩
  intro dest dsf dff dest_length dsf_length dff_length interleaved
  rw [dsf_copies, dff_copies, copyBytes_permuted dsf_order dsf_takes dest_length dsf_length,
    copyBytes_permuted dff_order dff_takes dest_length dff_length, dsfPlain, dffPlain, map_loops, map_loops]
  refine congrArg Except.ok (loops_congr fun i i_lt c c_lt j j_lt => ?_)
  have k_lt : i * (physicalWidth format / 8) + j < DSF_BLOCK_SIZE := by
    calc i * (physicalWidth format / 8) + j < i * (physicalWidth format / 8) + physicalWidth format / 8 := by omega
      _ = (i + 1) * (physicalWidth format / 8) := by ring
      _ ≤ DSF_BLOCK_SIZE / (physicalWidth format / 8) * (physicalWidth format / 8) := Nat.mul_le_mul_right _ i_lt
      _ = DSF_BLOCK_SIZE := whole
  have same := interleaved (i * (physicalWidth format / 8) + j) k_lt c c_lt
  have index : i * (physicalWidth format / 8 * channels.toNat) + (j * channels.toNat + c) =
      (i * (physicalWidth format / 8) + j) * channels.toNat + c := by ring
  rw [whole, index, same]

end Agree

/-- Both functions do what they are for exactly when the offsets into a block are ints. -/
theorem agree_iff {F : Type} (physicalWidth : F → Nat) (format : F) (channels : UInt32)
    (divides : physicalWidth format / 8 ∣ DSF_BLOCK_SIZE) :
    Agree physicalWidth channels format ↔ channels.toNat * DSF_BLOCK_SIZE ≤ 2 ^ 31 := by
  constructor
  · intro agree
    by_contra large
    have below := dsfMoves_below divides (Nat.not_le.mp large)
    obtain ⟨k, -, same⟩ := List.mem_map.mp (agree.dsf.covers.mem_iff.mp below)
    omega
  · exact agree_of_small divides

theorem agree_stereo : Agree (id : Nat → Nat) 2 32 := (agree_iff id 32 2 (by decide)).mpr (by decide)

/-- The first channel count with an offset of 2 ^ 31. -/
theorem not_agree_many : ¬ Agree (id : Nat → Nat) 524289 32 := by
  intro agree
  have below : -2 ^ 31 ∈ (dsfMoves 524289 4).map Prod.fst := dsfMoves_below (by decide) (by decide)
  obtain ⟨k, -, same⟩ := List.mem_map.mp (agree.dsf.covers.mem_iff.mp below)
  omega

end ImxTest.Dsd
