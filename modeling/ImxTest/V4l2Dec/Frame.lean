import ImxTest.V4l2Dec.Fill

/-! Frames of mxc_v4l2_vpu_test/mxc_vpu_dec.c: luma, and behind it chroma; of an interlaced frame
first one field and then the other, until the lines are sorted. -/
namespace ImxTest.V4l2Dec
open Lib.Words Lib.Writes

/-- Lines that are copied in turn from `top` on and from `bottom` on. -/
def interLines (src : Memory) (dst top bottom width lines : Nat) : List (Int × UInt8) :=
  (List.range lines).flatMap fun i => (List.range width).map fun k =>
    (((dst + i * width + k : Nat) : Int), src ((if i % 2 = 1 then bottom else top) + i / 2 * width + k : Nat))

def convertInter2Prog4Nv12 (cap : Nat) (buffer : Memory) (width height lumaSize chromaSize : Nat) : Option Memory :=
  let total := uint (lumaSize + chromaSize)
  -- a block of its own, which nothing is read behind
  let src : Memory := fun c => if 0 ≤ c ∧ c < total then buffer c else 0
  if cap < total then none
  else
    write cap buffer ((List.range lumaSize).map (fun c : Nat => ((c : Int), 0)) ++
      (interLines src 0 0 (lumaSize / 2) width height ++
        interLines src lumaSize lumaSize (lumaSize + chromaSize / 2) width (height / 2)))

/-- What `ReadYUVFrame_FSL_8b` and `ReadYUVFrame_FSL_10b` have in common: `call lines src dst` reads
so many lines of tiles. The addresses of the bottom field are not used. -/
def readYuvFrameFsl (call : (lines : Nat) → (src : Memory) → (dst : Nat) → Memory → Option Memory)
    (cap ratio nPicWidth nPicHeight : Nat) (nBaseAddr : Nat → Memory) (pDstBuffer : Memory) (bInterlaced : Bool) :
    Option Memory := do
  let area := uint (nPicWidth * nPicHeight)
  let chroLines := nPicHeight / 2
  if bInterlaced then
    let half := uint (area / 2 * ratio : Nat)
    let mem ← call (nPicHeight / 2) (nBaseAddr 0) 0 pDstBuffer
    let mem ← call (nPicHeight / 2) (nBaseAddr 0) half mem
    let mem ← call (chroLines / 2) (nBaseAddr 1) (half + half) mem
    let mem ← call (chroLines / 2) (nBaseAddr 1) (half + half + uint (area / 4 * ratio : Nat)) mem
    convertInter2Prog4Nv12 cap mem (uint (nPicWidth * ratio)) nPicHeight (uint (area * ratio)) (uint (area / 2 * ratio : Nat))
  else do
    let mem ← call nPicHeight (nBaseAddr 0) 0 pDstBuffer
    call chroLines (nBaseAddr 1) (uint (area * ratio)) mem

section Lines
variable {src mem : Memory} {dst top bottom width lines i k : Nat}

theorem mem_interLines {c : Int} {v : UInt8} : (c, v) ∈ interLines src dst top bottom width lines ↔
    ∃ i < lines, ∃ k < width, c = (dst + i * width + k : Nat) ∧
      v = src ((if i % 2 = 1 then bottom else top) + i / 2 * width + k : Nat) := by
  simp only [interLines, List.mem_flatMap, List.mem_map, List.mem_range, Prod.mk.injEq]
  constructor
  · rintro ⟨i, line, k, col, rfl, rfl⟩
    exact ⟨i, line, k, col, rfl, rfl⟩
  · rintro ⟨i, line, k, col, rfl, rfl⟩
    exact ⟨i, line, k, col, rfl, rfl⟩

/-- Nothing is written outside of the lines. -/
theorem interLines_inside {c : Int} {v : UInt8} (written : (c, v) ∈ interLines src dst top bottom width lines) :
    dst ≤ c ∧ c < (dst + lines * width : Nat) := by
  obtain ⟨i, line, k, col, rfl, -⟩ := mem_interLines.mp written
  have order := Nat.mul_le_mul_right width (Nat.succ_le_of_lt line)
  rw [Nat.succ_mul] at order
  omega

theorem store_interLines (line : i < lines) (col : k < width) :
    store mem (interLines src dst top bottom width lines) (dst + i * width + k : Nat) =
      src ((if i % 2 = 1 then bottom else top) + i / 2 * width + k : Nat) := by
  refine store_all (mem_interLines.mpr ⟨i, line, k, col, rfl, rfl⟩) fun w written => ?_
  obtain ⟨i', -, k', col', same, rfl⟩ := mem_interLines.mp written
  have places : i * width + k = i' * width + k' := by omega
  have rows : i = i' := by
    have quotient := congrArg (· / width) places
    simpa [Nat.mul_comm _ width, Nat.mul_add_div (Nat.zero_lt_of_lt col), Nat.div_eq_of_lt col, Nat.div_eq_of_lt col']
      using quotient
  subst rows
  rw [Nat.add_left_cancel places]

end Lines

/-- The lines of two fields in turn. -/
def weave (top bottom : Nat → Nat → Nat) (x y : Nat) : Nat := if y % 2 = 1 then bottom x (y / 2) else top x (y / 2)

section Convert
variable {cap ratio width half : Nat} {buffer : Memory}

/-- The lines of the fields stand in turn, in luma and in chroma. -/
theorem exists_lines (even : 2 ∣ half) (room : width * (3 * half) ≤ cap) (small : cap < 2 ^ 32) :
    ∃ out, convertInter2Prog4Nv12 cap buffer width (2 * half) (width * (2 * half)) (width * half) = some out ∧
      (∀ i < 2 * half, ∀ k < width,
        out (i * width + k : Nat) = buffer ((if i % 2 = 1 then width * half else 0) + i / 2 * width + k : Nat)) ∧
      ∀ i < half, ∀ k < width, out (width * (2 * half) + i * width + k : Nat) =
        buffer (width * (2 * half) + (if i % 2 = 1 then width * (half / 2) else 0) + i / 2 * width + k : Nat) := by
  have sizes : width * (2 * half) + width * half = width * (3 * half) := by ring
  have luma_half : width * (2 * half) / 2 = width * half := by
    rw [Nat.mul_left_comm, Nat.mul_div_cancel_left _ (by decide)]
  have chroma_half : width * half / 2 = width * (half / 2) := Nat.mul_div_assoc _ even
  have field (n i k : Nat) (line : i < 2 * n) (col : k < width) : i / 2 * width + k < width * n := by
    have order := Nat.mul_le_mul_right width (show i / 2 + 1 ≤ n by omega)
    rw [Nat.succ_mul, Nat.mul_comm n] at order
    omega
  have total : uint ((width * (2 * half) : Nat) + (width * half : Nat)) = width * (3 * half) := by
    rw [← Nat.cast_add, sizes]
    exact uint_natCast (Nat.lt_of_le_of_lt room small)
  simp only [convertInter2Prog4Nv12, total, luma_half, chroma_half, Nat.mul_div_cancel_left half (show 0 < 2 by decide),
    if_neg (Nat.not_lt.mpr room)]
  unfold write
  rw [if_pos]
  · refine ⟨_, rfl, fun i line k col => ?_, fun i line k col => ?_⟩
    · rw [store_append, store_append, store_free, ← Nat.zero_add (i * width + k), ← Nat.add_assoc,
        store_interLines line col, if_pos]
      · have inner := field half i k line col
        split <;> omega
      · intro v written
        have low := (interLines_inside written).1
        have order := Nat.mul_le_mul_right width (Nat.succ_le_of_lt line)
        rw [Nat.succ_mul, Nat.mul_comm (2 * half)] at order
        omega
    · obtain ⟨quarter, rfl⟩ := even
      rw [Nat.mul_div_cancel_left quarter (by decide), store_append, store_append, store_interLines line col, if_pos]
      · split <;> rfl
      · have inner := field quarter i k line col
        have parts : width * (2 * quarter) = width * quarter + width * quarter := by ring
        split <;> omega
  · rintro ⟨c, v⟩ written
    dsimp only
    rcases List.mem_append.mp written with cleared | copied
    · obtain ⟨c, below, same⟩ := List.mem_map.mp cleared
      rw [List.mem_range] at below
      cases same
      omega
    · rcases List.mem_append.mp copied with luma | chroma
      · have inside := interLines_inside luma
        rw [Nat.mul_comm (2 * half)] at inside
        omega
      · have inside := interLines_inside chroma
        rw [Nat.mul_comm half] at inside
        omega

/-- What the fields show stands in the lines in turn. -/
theorem exists_convert {top bottom topChroma bottomChroma : Nat → Nat → Nat} (even : 2 ∣ half)
    (room : width * ratio * (3 * half) ≤ cap) (small : cap < 2 ^ 32) (luma : Shows buffer 0 ratio width half top)
    (luma' : Shows buffer (width * ratio * half) ratio width half bottom)
    (chroma : Shows buffer (width * ratio * (2 * half)) ratio width (half / 2) topChroma)
    (chroma' : Shows buffer (width * ratio * (2 * half) + width * ratio * (half / 2)) ratio width (half / 2) bottomChroma) :
    ∃ out, convertInter2Prog4Nv12 cap buffer (width * ratio) (2 * half) (width * ratio * (2 * half)) (width * ratio * half)
        = some out ∧
      Shows out 0 ratio width (2 * half) (weave top bottom) ∧
      Shows out (width * ratio * (2 * half)) ratio width half (weave topChroma bottomChroma) := by
  obtain ⟨out, converted, luma_line, chroma_line⟩ := @exists_lines cap (width * ratio) half buffer even room small
  have byte {x b : Nat} (col : x < width) (below : b < ratio) : x * ratio + b < width * ratio := by
    have order := Nat.mul_le_mul_right ratio (Nat.succ_le_of_lt col)
    rw [Nat.succ_mul] at order
    omega
  have split_byte (base x y b : Nat) : base + (y * width + x) * ratio + b = base + y * (width * ratio) + (x * ratio + b) := by
    ring
  refine ⟨out, converted, fun x col y line b below => ?_, fun x col y line b below => ?_⟩
  · rw [split_byte, Nat.zero_add, luma_line y line _ (byte col below), ← split_byte]
    unfold weave
    split
    · exact luma' x col (y / 2) (by omega) b below
    · exact luma x col (y / 2) (by omega) b below
  · rw [split_byte, chroma_line y line _ (byte col below), ← split_byte]
    unfold weave
    split
    · exact chroma' x col (y / 2) (by omega) b below
    · exact chroma x col (y / 2) (by omega) b below

end Convert

/-- Whatever the buffer holds, the call lays the visible samples of its source. -/
def Reads (call : (lines : Nat) → (src : Memory) → (dst : Nat) → Memory → Option Memory) (src : Memory)
    (base reach ratio width lines : Nat) (sample : Nat → Nat → Nat) : Prop :=
  ∀ mem, ∃ mem', call lines src base mem = some mem' ∧ Lays mem mem' base reach ratio width lines sample

section Frame
variable {call : (lines : Nat) → (src : Memory) → (dst : Nat) → Memory → Option Memory}
  {cap ratio width height half reach reach' : Nat} {nBaseAddr : Nat → Memory} {dst : Memory}
  {luma chroma : Nat → Nat → Nat}

theorem progressive_eq_some_iff {out : Memory} :
    readYuvFrameFsl call cap ratio width height nBaseAddr dst false = some out ↔
      ∃ mem, call height (nBaseAddr 0) 0 dst = some mem ∧
        call (height / 2) (nBaseAddr 1) (uint (uint (width * height) * ratio)) mem = some out := by
  simp only [readYuvFrameFsl, Bool.false_eq_true, if_false, Option.bind_eq_bind, Option.bind_eq_some_iff]

theorem exists_progressive (some_byte : 0 < ratio) (small : width * height * ratio < 2 ^ 32)
    (reads : Reads call (nBaseAddr 0) 0 reach ratio width height luma)
    (reads' : Reads call (nBaseAddr 1) (width * height * ratio) reach' ratio width (height / 2) chroma) :
    ∃ out, readYuvFrameFsl call cap ratio width height nBaseAddr dst false = some out ∧
      Shows out 0 ratio width height luma ∧ Shows out (width * height * ratio) ratio width (height / 2) chroma := by
  obtain ⟨mem, read, lays⟩ := reads dst
  obtain ⟨out, read', lays'⟩ := reads' mem
  have area : uint ((width : Int) * height) = width * height := by
    rw [← Nat.cast_mul]
    exact uint_natCast (Nat.lt_of_le_of_lt (Nat.le_mul_of_pos_right _ some_byte) small)
  have bytes : uint ((width * height : Nat) * (ratio : Int)) = width * height * ratio := by
    rw [← Nat.cast_mul]
    exact uint_natCast small
  refine ⟨out, ?_, lays'.keeps lays.shows (by omega), lays'.shows⟩
  simp only [readYuvFrameFsl, Bool.false_eq_true, if_false, area, bytes, read, Option.bind_eq_bind, Option.bind_some, read']

theorem exists_interlaced (even : 2 ∣ half) (some_line : 0 < half) (some_byte : 0 < ratio) (small : cap < 2 ^ 32)
    (room : width * ratio * (3 * half) ≤ cap) {first second third fourth : Nat}
    (reads : Reads call (nBaseAddr 0) 0 first ratio width half luma)
    (reads' : Reads call (nBaseAddr 0) (width * ratio * half) second ratio width half luma)
    (reads_chroma : Reads call (nBaseAddr 1) (width * ratio * (2 * half)) third ratio width (half / 2) chroma)
    (reads_chroma' : Reads call (nBaseAddr 1) (width * ratio * (2 * half) + width * ratio * (half / 2)) fourth ratio width
      (half / 2) chroma) :
    ∃ out, readYuvFrameFsl call cap ratio width (2 * half) nBaseAddr dst true = some out ∧
      Shows out 0 ratio width (2 * half) (weave luma luma) ∧
      Shows out (width * ratio * (2 * half)) ratio width half (weave chroma chroma) := by
  obtain ⟨mem₁, read₁, lays₁⟩ := reads dst
  obtain ⟨mem₂, read₂, lays₂⟩ := reads' mem₁
  obtain ⟨mem₃, read₃, lays₃⟩ := reads_chroma mem₂
  obtain ⟨mem₄, read₄, lays₄⟩ := reads_chroma' mem₃
  have line_bytes (n : Nat) : width * n * ratio = width * ratio * n := Nat.mul_right_comm ..
  have whole : width * ratio * (2 * half) ≤ cap := Nat.le_trans (Nat.mul_le_mul_left _ (by omega)) room
  have single : width * (2 * half) ≤ cap :=
    Nat.le_trans (Nat.mul_le_mul_right _ (Nat.le_mul_of_pos_right width some_byte)) whole
  have parts : width * ratio * (2 * half) = width * ratio * half + width * ratio * half := by ring
  have front := lays₂.keeps lays₁.shows (by rw [line_bytes]; omega)
  have front := lays₃.keeps front (by rw [line_bytes]; omega)
  have front := lays₄.keeps front (by rw [line_bytes]; omega)
  have behind := lays₃.keeps lays₂.shows (by rw [line_bytes]; omega)
  have behind := lays₄.keeps behind (by rw [line_bytes]; omega)
  have front_chroma := lays₄.keeps lays₃.shows (by rw [line_bytes])
  obtain ⟨out, converted, shown⟩ := exists_convert even room small front behind front_chroma lays₄.shows
  refine ⟨out, ?_, shown⟩
  have area : uint ((width : Int) * (2 * half : Nat)) = width * (2 * half) := by
    rw [← Nat.cast_mul]
    exact uint_natCast (Nat.lt_of_le_of_lt single small)
  have bytes : uint ((width * (2 * half) : Nat) * (ratio : Int)) = width * ratio * (2 * half) := by
    rw [← Nat.cast_mul, line_bytes]
    exact uint_natCast (Nat.lt_of_le_of_lt whole small)
  have field : uint (width * (2 * half) / 2 * ratio : Nat) = width * ratio * half := by
    rw [Nat.mul_left_comm, Nat.mul_div_cancel_left _ (by decide), line_bytes]
    exact uint_natCast (by omega)
  have field_chroma : uint (width * (2 * half) / 4 * ratio : Nat) = width * ratio * (half / 2) := by
    obtain ⟨quarter, rfl⟩ := even
    have four : width * (2 * (2 * quarter)) = 4 * (width * quarter) := by ring
    rw [four, Nat.mul_div_cancel_left _ (by decide), Nat.mul_div_cancel_left _ (by decide), line_bytes]
    exact uint_natCast (by
      have order := Nat.mul_le_mul_left (width * ratio) (show quarter ≤ 2 * (2 * quarter) by omega)
      omega)
  have line : uint ((width : Int) * ratio) = width * ratio := by
    rw [← Nat.cast_mul]
    refine uint_natCast (Nat.lt_of_le_of_lt (Nat.le_trans (Nat.le_mul_of_pos_right _ ?_) whole) small)
    omega
  simp only [readYuvFrameFsl, if_true, area, bytes, field, field_chroma, line, ← parts,
    Nat.mul_div_cancel_left half (show 0 < 2 by decide), Option.bind_eq_bind, read₁, read₂, read₃, read₄, Option.bind_some,
    converted]

/-- Even lines are those of the top field, odd lines those of the bottom field. -/
def Interlaced (read : (nBaseAddr : Nat → Memory) → (pDstBuffer : Memory) → (bInterlaced : Bool) → Option Memory)
    (ratio width height : Nat) (sample : Memory → Nat → Nat → Nat) (nBaseAddr : Nat → Memory) (dst : Memory) : Prop :=
  ∃ out, read nBaseAddr dst true = some out ∧
    Shows out 0 ratio width height (weave (sample (nBaseAddr 0)) (sample (nBaseAddr 2))) ∧
    Shows out (width * height * ratio) ratio width (height / 2) (weave (sample (nBaseAddr 1)) (sample (nBaseAddr 3)))

/-- The fields show the same. -/
def SameFields (width height : Nat) (sample : Memory → Nat → Nat → Nat) (nBaseAddr : Nat → Memory) : Prop :=
  ∀ x < width, (∀ y < height / 2, sample (nBaseAddr 0) x y = sample (nBaseAddr 2) x y) ∧
    ∀ y < height / 4, sample (nBaseAddr 1) x y = sample (nBaseAddr 3) x y

/-- The addresses of the bottom field do not matter. -/
theorem interlaced_bottom {other : Nat → Memory} (luma : nBaseAddr 0 = other 0) (chroma : nBaseAddr 1 = other 1) :
    readYuvFrameFsl call cap ratio width height nBaseAddr dst true =
      readYuvFrameFsl call cap ratio width height other dst true := by
  simp only [readYuvFrameFsl, if_true, luma, chroma]

/-- So no size of a picture is right, whatever the fields are. -/
theorem not_interlaced {sample : Memory → Nat → Nat → Nat} {a b : Memory} (some_byte : 0 < ratio) (some_col : 0 < width)
    (some_line : 0 < height) (unread : ∀ src dst mem, call 0 src dst mem = some mem)
    (differ : UInt8.ofNat (sample a 0 0) ≠ .ofNat (sample b 0 0)) :
    ¬ ∀ nBaseAddr dst, Interlaced (readYuvFrameFsl call cap ratio width height) ratio width height sample nBaseAddr dst := by
  intro right
  rcases Nat.lt_or_ge height 2 with single | two
  · have one : height = 1 := by omega
    subst one
    obtain ⟨out, run, luma, -⟩ := right (fun _ => a) fun _ => 0
    obtain ⟨out', run', luma', -⟩ := right (fun _ => b) fun _ => 0
    simp only [readYuvFrameFsl, if_true, Nat.reduceDiv, unread, Option.bind_eq_bind, Option.bind_some] at run run'
    cases run.symm.trans run'
    have first := luma 0 some_col 0 Nat.one_pos 0 some_byte
    rw [luma' 0 some_col 0 Nat.one_pos 0 some_byte] at first
    simp only [weave, Nat.zero_mod, Nat.zero_div, pow_zero, Nat.div_one, Nat.zero_ne_one, if_false] at first
    exact differ first.symm
  · obtain ⟨out, run, luma, -⟩ := right (fun k => if k = 2 then a else fun _ => 0) fun _ => 0
    obtain ⟨out', run', luma', -⟩ := right (fun k => if k = 2 then b else fun _ => 0) fun _ => 0
    cases run.symm.trans ((interlaced_bottom rfl rfl).trans run')
    have first := luma 0 some_col 1 two 0 some_byte
    rw [luma' 0 some_col 1 two 0 some_byte] at first
    simp only [weave, Nat.one_mod, Nat.reduceDiv, pow_zero, Nat.div_one, if_true] at first
    exact differ first.symm

/-- An empty picture is as it was. -/
theorem interlaced_empty {sample : Memory → Nat → Nat → Nat} (empty : width = 0 ∨ height = 0)
    (unread : ∀ lines, width = 0 ∨ lines = 0 → ∀ src dst mem, call lines src dst mem = some mem) :
    Interlaced (readYuvFrameFsl call cap ratio width height) ratio width height sample nBaseAddr dst := by
  have area : uint ((width : Int) * height) = 0 := by
    rcases empty with rfl | rfl <;> simp [uint]
  have field := unread (height / 2) (by omega)
  have field' := unread (height / 2 / 2) (by omega)
  have zero : uint 0 = 0 := uint_natCast (n := 0) (by decide)
  refine ⟨dst, ?_, fun x col y line => by omega, fun x col y line => by omega⟩
  simp only [readYuvFrameFsl, if_true, area, field, field', Option.bind_eq_bind, Option.bind_some, Nat.zero_div,
    Nat.zero_mul, Nat.cast_zero, Int.zero_mul, zero]
  have unwritten (src : Memory) (first lines : Nat) (none : width = 0 ∨ lines = 0) :
      interLines src first first first (uint ((width : Int) * ratio)) lines = [] := by
    rcases none with rfl | rfl
    · simp [interLines, zero]
    · rfl
  simp [convertInter2Prog4Nv12, write, store, zero, unwritten _ 0 height empty, unwritten _ 0 (height / 2) (by omega)]

/-- Whatever the fields are, an empty picture is right, and no other size is. -/
theorem interlaced_sizes {sample : Memory → Nat → Nat → Nat} {a b : Memory} (some_byte : 0 < ratio)
    (unread : ∀ lines, width = 0 ∨ lines = 0 → ∀ src dst mem, call lines src dst mem = some mem)
    (differ : UInt8.ofNat (sample a 0 0) ≠ .ofNat (sample b 0 0)) :
    (∀ nBaseAddr dst, Interlaced (readYuvFrameFsl call cap ratio width height) ratio width height sample nBaseAddr dst) ↔
      width = 0 ∨ height = 0 := by
  refine ⟨fun right => ?_, fun empty nBaseAddr dst => interlaced_empty empty unread⟩
  by_contra some_sample
  exact not_interlaced some_byte (by omega) (by omega) (unread 0 (.inr rfl)) differ right

/-- Where the top field comes out twice, the picture is right as far as the bottom field is the same. -/
theorem interlaced_iff_same {sample : Memory → Nat → Nat → Nat} (even : 2 ∣ half)
    (bytes : ∀ src x y, sample src x y < 256 ^ ratio)
    (twice : ∃ out, readYuvFrameFsl call cap ratio width (2 * half) nBaseAddr dst true = some out ∧
      Shows out 0 ratio width (2 * half) (weave (sample (nBaseAddr 0)) (sample (nBaseAddr 0))) ∧
      Shows out (width * (2 * half) * ratio) ratio width half (weave (sample (nBaseAddr 1)) (sample (nBaseAddr 1)))) :
    Interlaced (readYuvFrameFsl call cap ratio width (2 * half)) ratio width (2 * half) sample nBaseAddr dst ↔
      SameFields width (2 * half) sample nBaseAddr := by
  obtain ⟨out, run, luma, chroma⟩ := twice
  have lines : 2 * half / 2 = half := by omega
  have lines' : 2 * half / 4 = half / 2 := by omega
  have small (top bottom : Memory) (x y : Nat) : weave (sample top) (sample bottom) x y < 256 ^ ratio := by
    unfold weave
    split <;> exact bytes ..
  have odd (top bottom : Memory) (x y : Nat) : weave (sample top) (sample bottom) x (2 * y + 1) = sample bottom x y := by
    unfold weave
    rw [if_pos (by omega), show (2 * y + 1) / 2 = y by omega]
  unfold Interlaced SameFields
  rw [lines, lines']
  constructor
  · rintro ⟨out', run', luma', chroma'⟩
    cases run.symm.trans run'
    refine fun x col => ⟨fun y line => ?_, fun y line => ?_⟩
    · have same := luma.unique luma' (small _ _) (small _ _) col (show 2 * y + 1 < 2 * half by omega)
      rwa [odd, odd] at same
    · have same := chroma.unique chroma' (small _ _) (small _ _) col (show 2 * y + 1 < half by omega)
      rwa [odd, odd] at same
  · intro same
    refine ⟨out, run, luma.congr fun x col y line => ?_, chroma.congr fun x col y line => ?_⟩
    · unfold weave
      rw [(same x col).1 (y / 2) (by omega)]
    · unfold weave
      rw [(same x col).2 (y / 2) (by omega)]

end Frame

end ImxTest.V4l2Dec
