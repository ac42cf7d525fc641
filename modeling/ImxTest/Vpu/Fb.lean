import ImxTest.Lib.Copy
import ImxTest.Lib.Words
import Mathlib.Tactic.Ring

/-! The tiled frame buffers of mxc_vpu_test/fb.c: where their areas lie, and how the addresses
of these are packed. -/
namespace ImxTest.Vpu.Fb
open Lib.Copy Lib.Words

def SZ_4K : Nat := 4096

inductive Format where
  | MODE420
  | MODE422
  | MODE224
  | MODE444
  | MODE400
deriving DecidableEq, Repr

inductive MapType where
  | TILED_FRAME_MB_RASTER_MAP
  | TILED_FIELD_MB_RASTER_MAP
deriving DecidableEq, Repr

/-- `& ~(align - 1)` -/
def pageMask (v : BitVec 32) : BitVec 32 := v &&& ~~~BitVec.ofNat 32 (SZ_4K - 1)

/-- `(size + align - 1) & ~(align - 1)`, of an `int`. -/
def alignSize (size : Int) : Int := (pageMask (BitVec.ofInt 32 (size + SZ_4K - 1))).toInt

/-- The same of a `Uint32`. -/
def alignBase (base : Nat) : Nat := (pageMask (BitVec.ofNat 32 (base + SZ_4K - 1))).toNat

structure Sizes where
  lumaTop : Int
  chromaTop : Int
  lumaBot : Int
  chromaBot : Int

structure Bases where
  lumTop : Nat
  chrTop : Nat
  lumBot : Nat
  chrBot : Nat
deriving DecidableEq, Repr

/-- The three words of a frame buffer's addresses. -/
structure Words where
  y : Nat
  cb : Nat
  cr : Nat
deriving DecidableEq, Repr

def tiledSizes (divX divY strideY height : Int) : MapType → Sizes
  | .TILED_FRAME_MB_RASTER_MAP =>
    { lumaTop := alignSize (int (strideY * height))
      chromaTop := alignSize (int ((int (strideY.tdiv divX * height)).tdiv divY * 2))
      lumaBot := 0
      chromaBot := 0 }
  | .TILED_FIELD_MB_RASTER_MAP =>
    let luma := alignSize ((int (strideY * height)).tdiv 2)
    let chroma := alignSize ((int (strideY.tdiv divX * height)).tdiv divY)
    { lumaTop := luma, chromaTop := chroma, lumaBot := luma, chromaBot := chroma }

def tiledBases (start : Nat) (sizes : Sizes) (map : MapType) : Bases :=
  let lumTop := alignBase start
  let chrTop := uint (lumTop + sizes.lumaTop)
  match map with
  | .TILED_FRAME_MB_RASTER_MAP => { lumTop, chrTop, lumBot := 0, chrBot := 0 }
  | .TILED_FIELD_MB_RASTER_MAP =>
    let lumBot := uint (chrTop + sizes.chromaTop)
    { lumTop, chrTop, lumBot, chrBot := uint (lumBot + sizes.lumaBot) }

/-- The numbers of the pages that the areas begin with. -/
def Bases.pages (bases : Bases) : Bases where
  lumTop := bases.lumTop >>> 12
  chrTop := bases.chrTop >>> 12
  lumBot := bases.lumBot >>> 12
  chrBot := bases.chrBot >>> 12

def packWords (pages : Bases) : Words where
  y := uint (pages.lumTop <<< 12 + pages.chrTop >>> 8 : Nat)
  cb := uint (pages.chrTop <<< 24 + pages.lumBot <<< 4 + pages.chrBot >>> 16 : Nat)
  cr := uint (pages.chrBot <<< 16 : Nat)

/-- The words that `tiled_framebuf_base` puts into `fb`. -/
def tiledFramebufBase (frameBase : Nat) (strideY height : Int) (map : MapType) : Words :=
  packWords (tiledBases frameBase (tiledSizes 2 2 strideY height map) map).pages

structure FrameBuf where
  addr : Words
  strideY : Int
  strideC : Int
  mvColBuf : Nat
  size : Int
  phyAddr : Nat

def divX : Format → Nat
  | .MODE420 | .MODE422 => 2
  | _ => 1

def divY : Format → Nat
  | .MODE420 | .MODE224 => 2
  | _ => 1

/-- `desc.size`, with the size of the motion vectors where there are any. -/
def descSize (sizes : Sizes) (mv : Option Int) : Int :=
  let size := int (sizes.lumaTop + sizes.chromaTop + sizes.lumaBot + sizes.chromaBot + (SZ_4K - 1))
  match mv with
  | none => size
  | some mv => int (size + mv)

/-- `phyMem` is the address that `IOGetPhyMem` finds, `virtMem` whether `IOGetVirtMem` succeeds. -/
def tiledFramebufAlloc (phyMem : Option Nat) (virtMem : Bool) (fb : FrameBuf) (format : Format)
    (strideY height : Int) (mvCol : Bool) (map : MapType) : Option FrameBuf :=
  let sizes := tiledSizes (divX format) (divY format) strideY height map
  let mv := (int (strideY.tdiv (divX format) * height)).tdiv (divY format)
  match phyMem, virtMem with
  | some phyAddr, true =>
    let bases := tiledBases phyAddr sizes map
    some
      { addr := packWords bases.pages
        strideY
        strideC := strideY.tdiv (divX format)
        mvColBuf :=
          if mvCol then
            match map with
            | .TILED_FRAME_MB_RASTER_MAP => uint (bases.chrTop + sizes.chromaTop)
            | .TILED_FIELD_MB_RASTER_MAP => uint (bases.chrBot + sizes.chromaBot)
          else fb.mvColBuf
        size := descSize sizes (if mvCol then some mv else none)
        phyAddr }
  | _, _ => none

/-! ## What the areas are -/

/-- Whole pages for so many bytes. -/
def wholePages (bytes : Nat) : Nat := (bytes + (SZ_4K - 1)) / SZ_4K * SZ_4K

section Areas
variable (format : Format) (strideY height : Nat) (mvCol : Bool) (map : MapType)

def mvBytes : Nat := strideY / divX format * height / divY format

def lumaBytes : Nat :=
  match map with
  | .TILED_FRAME_MB_RASTER_MAP => strideY * height
  | .TILED_FIELD_MB_RASTER_MAP => strideY * height / 2

def chromaBytes : Nat :=
  match map with
  | .TILED_FRAME_MB_RASTER_MAP => mvBytes format strideY height * 2
  | .TILED_FIELD_MB_RASTER_MAP => mvBytes format strideY height

/-- The areas of a buffer, each by its start and its length. -/
def areas (bases : Bases) (mvColBuf : Nat) : List (Nat × Nat) :=
  let luma := wholePages (lumaBytes strideY height map)
  let chroma := wholePages (chromaBytes format strideY height map)
  let mv := if mvCol then [(mvColBuf, mvBytes format strideY height)] else []
  match map with
  | .TILED_FRAME_MB_RASTER_MAP => (bases.lumTop, luma) :: (bases.chrTop, chroma) :: mv
  | .TILED_FIELD_MB_RASTER_MAP =>
    (bases.lumTop, luma) :: (bases.chrTop, chroma) :: (bases.lumBot, luma) :: (bases.chrBot, chroma) :: mv

def areasBytes : Nat := ((areas format strideY height mvCol map ⟨0, 0, 0, 0⟩ 0).map Prod.snd).sum

/-- The bytes that the areas need, wherever in a page the buffer begins. -/
def bufferBytes : Nat := areasBytes format strideY height mvCol map + (SZ_4K - 1)

end Areas

/-- The field of a word from one bit down to another. -/
def bits (word high low : Nat) : Nat := word / 2 ^ low % 2 ^ (high - low + 1)

/-- The page numbers by the bit positions that the source documents. -/
def Words.read (w : Words) : Bases where
  lumTop := bits w.y 31 12
  chrTop := bits w.y 11 0 * 2 ^ 8 + bits w.cb 31 24
  lumBot := bits w.cb 23 4
  chrBot := bits w.cb 3 0 * 2 ^ 16 + bits w.cr 31 16

/-! ## Packing -/

theorem pack_read {bases : Bases} (lumTop : bases.lumTop < 2 ^ 32) (chrTop : bases.chrTop < 2 ^ 32)
    (lumBot : bases.lumBot < 2 ^ 32) (chrBot : bases.chrBot < 2 ^ 32) :
    (packWords bases.pages).read = bases.pages := by
  have below (n : Nat) (small : n < 2 ^ 32) : n / 2 ^ 12 < 2 ^ 20 := by omega
  have first := below _ lumTop
  have second := below _ chrTop
  have third := below _ lumBot
  have fourth := below _ chrBot
  simp only [Bases.pages, packWords, Words.read, bits, Nat.shiftRight_eq_div_pow, Nat.shiftLeft_eq, Bases.mk.injEq,
    uint_mod]
  generalize bases.lumTop / 2 ^ 12 = a at *
  generalize bases.chrTop / 2 ^ 12 = b at *
  generalize bases.lumBot / 2 ^ 12 = c at *
  generalize bases.chrBot / 2 ^ 12 = d at *
  clear lumTop chrTop lumBot chrBot below
  refine ⟨?_, ?_, ?_, ?_⟩ <;> omega

/-! ## Rounding -/

theorem pageMask_toNat (v : BitVec 32) : (pageMask v).toNat = v.toNat / SZ_4K * SZ_4K := by
  have mask : ∀ i : Fin 32, (BitVec.ofNat 32 (SZ_4K - 1)).getLsbD i = decide (i.val < 12) := by decide
  have shifted : pageMask v = (v >>> 12) <<< 12 := by
    ext i inside
    have bit := mask ⟨i, inside⟩
    rw [BitVec.getLsbD_eq_getElem inside] at bit
    simp only [pageMask, BitVec.getElem_and, BitVec.getElem_not, bit, BitVec.getElem_shiftLeft]
    by_cases low : i < 12
    · simp [low]
    · simp only [low, decide_false, Bool.not_false, Bool.and_true, BitVec.getElem_ushiftRight,
        Nat.add_sub_cancel' (Nat.le_of_not_lt low)]
      exact (BitVec.getLsbD_eq_getElem inside).symm
  rw [shifted, BitVec.toNat_shiftLeft, BitVec.toNat_ushiftRight, Nat.shiftRight_eq_div_pow, Nat.shiftLeft_eq,
    Nat.mod_eq_of_lt]
  · rfl
  · have bound := v.isLt
    omega

theorem alignBase_eq {base : Nat} (low : base + SZ_4K ≤ 2 ^ 32) : alignBase base = wholePages base := by
  unfold SZ_4K at low
  unfold alignBase wholePages
  rw [pageMask_toNat, BitVec.toNat_ofNat, Nat.add_sub_assoc (by decide), Nat.mod_eq_of_lt (by unfold SZ_4K; omega)]

theorem exists_alignSize (size : Int) :
    ∃ k : Int, alignSize size = (size + (SZ_4K - 1)) / SZ_4K * SZ_4K + k * 2 ^ 32 := by
  have masked := pageMask_toNat (BitVec.ofInt 32 (size + SZ_4K - 1))
  rw [BitVec.toNat_ofInt] at masked
  have parts := Int.bmod_add_bdiv (pageMask (BitVec.ofInt 32 (size + SZ_4K - 1))).toNat (2 ^ 32)
  unfold alignSize
  rw [BitVec.toInt_eq_toNat_bmod]
  generalize Int.bmod _ _ = word at parts ⊢
  generalize Int.bdiv _ _ = turns at parts
  rw [masked] at parts
  unfold SZ_4K at *
  refine ⟨-turns - (size + 4095) / 2 ^ 32, ?_⟩
  omega

/-- Only the number in 32 bits counts. -/
theorem alignSize_word {size : Int} {n : Nat} (same : ∃ k : Int, size = n + k * 2 ^ 32) :
    ∃ k : Int, alignSize size = wholePages n + k * 2 ^ 32 := by
  obtain ⟨turns, rfl⟩ := same
  obtain ⟨k, aligned⟩ := exists_alignSize (n + turns * 2 ^ 32)
  refine ⟨k + turns, ?_⟩
  unfold wholePages
  unfold SZ_4K at *
  omega

/-! ## The layout -/

section Layout
variable {format : Format} {s h base : Nat} {mvCol : Bool} {map : MapType}

/-- `int` holds the luma bytes of a frame, or only their number in 32 bits is used. -/
def Counts (s h : Nat) (map : MapType) : Prop := map = .TILED_FRAME_MB_RASTER_MAP ∨ s * h < 2 ^ 31

instance : Decidable (Counts s h map) := inferInstanceAs (Decidable (_ ∨ _))

theorem le_wholePages (bytes : Nat) : bytes ≤ wholePages bytes := by
  unfold wholePages SZ_4K
  omega

theorem divX_cases (format : Format) : divX format = 1 ∨ divX format = 2 := by
  cases format <;> decide

theorem divY_cases (format : Format) : divY format = 1 ∨ divY format = 2 := by
  cases format <;> decide

theorem areasBytes_frame : areasBytes format s h mvCol .TILED_FRAME_MB_RASTER_MAP =
    wholePages (s * h) + wholePages (mvBytes format s h * 2) + if mvCol then mvBytes format s h else 0 := by
  unfold areasBytes areas
  cases mvCol <;> simp [lumaBytes, chromaBytes, Nat.add_assoc]

theorem areasBytes_field : areasBytes format s h mvCol .TILED_FIELD_MB_RASTER_MAP =
    2 * wholePages (s * h / 2) + 2 * wholePages (mvBytes format s h) + if mvCol then mvBytes format s h else 0 := by
  unfold areasBytes areas
  cases mvCol <;> simp [lumaBytes, chromaBytes] <;> ring

theorem areasBytes_grown : areasBytes format s h mvCol map =
    areasBytes format s h false map + if mvCol then mvBytes format s h else 0 := by
  cases map with
  | TILED_FRAME_MB_RASTER_MAP => simp [areasBytes_frame]
  | TILED_FIELD_MB_RASTER_MAP => simp [areasBytes_field]

/-- The chroma lines of a buffer that ends in 32 bits are counted by an `int`. -/
theorem chroma_small (ends : base + bufferBytes format s h mvCol map < 2 ^ 32) : s / divX format * h < 2 ^ 31 := by
  have columns : s / divX format * h = s * h ∨ 2 * (s / divX format * h) ≤ s * h := by
    rcases divX_cases format with one | two
    · rw [one, Nat.div_one]
      exact .inl rfl
    · rw [two, ← Nat.mul_assoc]
      exact .inr (Nat.mul_le_mul_right h (Nat.mul_div_le s 2))
  have rows : s / divX format * h ≤ 2 * mvBytes format s h + 1 := by
    unfold mvBytes
    rcases divY_cases format with one | two
    · rw [one]
      omega
    · rw [two]
      omega
  have luma := le_wholePages (s * h)
  have lumaField := le_wholePages (s * h / 2)
  have chroma := le_wholePages (mvBytes format s h * 2)
  have chromaField := le_wholePages (mvBytes format s h)
  unfold bufferBytes SZ_4K at ends
  cases map with
  | TILED_FRAME_MB_RASTER_MAP =>
    rw [areasBytes_frame] at ends
    omega
  | TILED_FIELD_MB_RASTER_MAP =>
    rw [areasBytes_field] at ends
    omega

theorem mvBytes_eq (small : s / divX format * h < 2 ^ 31) :
    (int ((s : Int).tdiv (divX format) * h)).tdiv (divY format) = mvBytes format s h := by
  have columns : (s : Int).tdiv (divX format) * h = (s / divX format * h : Nat) := by
    rw [Int.tdiv_eq_ediv_of_nonneg (by omega)]
    push_cast
    rfl
  rw [columns, int_natCast small, Int.tdiv_eq_ediv_of_nonneg (by omega)]
  rfl

/-- The sizes are those of whole pages, as words. -/
structure Rounded (format : Format) (s h : Nat) (map : MapType) (sizes : Sizes) : Prop where
  luma : ∃ k : Int, sizes.lumaTop = wholePages (lumaBytes s h map) + k * 2 ^ 32
  chroma : ∃ k : Int, sizes.chromaTop = wholePages (chromaBytes format s h map) + k * 2 ^ 32

theorem tiledSizes_rounded (counts : Counts s h map) (small : s / divX format * h < 2 ^ 31) :
    Rounded format s h map (tiledSizes (divX format) (divY format) s h map) := by
  unfold tiledSizes
  cases map with
  | TILED_FRAME_MB_RASTER_MAP =>
    refine ⟨alignSize_word ?_, alignSize_word ?_⟩
    · obtain ⟨k, word⟩ := exists_int (s * h)
      exact ⟨k, by rw [word]; rfl⟩
    · rw [mvBytes_eq small]
      obtain ⟨k, word⟩ := exists_int (mvBytes format s h * 2)
      exact ⟨k, by rw [word]; rfl⟩
  | TILED_FIELD_MB_RASTER_MAP =>
    have counted : s * h < 2 ^ 31 := counts.resolve_left (by decide)
    refine ⟨alignSize_word ⟨0, ?_⟩, alignSize_word ⟨0, ?_⟩⟩
    · rw [← Int.natCast_mul, int_natCast counted, Int.tdiv_eq_ediv_of_nonneg (by omega)]
      simp [lumaBytes]
    · rw [mvBytes_eq small]
      simp [chromaBytes]

/-- Where the areas are to lie. -/
def expectedBases (format : Format) (s h : Nat) (map : MapType) (base : Nat) : Bases :=
  let luma := wholePages (lumaBytes s h map)
  let chroma := wholePages (chromaBytes format s h map)
  let start := wholePages base
  match map with
  | .TILED_FRAME_MB_RASTER_MAP => ⟨start, start + luma, 0, 0⟩
  | .TILED_FIELD_MB_RASTER_MAP => ⟨start, start + luma, start + luma + chroma, start + luma + chroma + luma⟩

theorem areas_end (ends : base + bufferBytes format s h mvCol map < 2 ^ 32) :
    base + SZ_4K ≤ 2 ^ 32 ∧ wholePages base + areasBytes format s h mvCol map < 2 ^ 32 := by
  have rounded : wholePages base ≤ base + (SZ_4K - 1) := Nat.div_mul_le_self ..
  unfold bufferBytes at ends
  unfold SZ_4K at *
  omega

theorem tiledBases_eq (counts : Counts s h map) (ends : base + bufferBytes format s h mvCol map < 2 ^ 32) :
    tiledBases base (tiledSizes (divX format) (divY format) s h map) map = expectedBases format s h map base := by
  obtain ⟨low, below⟩ := areas_end ends
  have rounded := tiledSizes_rounded counts (chroma_small ends)
  unfold tiledBases expectedBases
  rw [alignBase_eq low]
  cases map with
  | TILED_FRAME_MB_RASTER_MAP =>
    rw [areasBytes_frame] at below
    have chrTop : wholePages base + wholePages (s * h) < 2 ^ 32 := by omega
    obtain ⟨k, luma⟩ := rounded.luma
    exact congrArg (Bases.mk _ · 0 0) (uint_add luma chrTop)
  | TILED_FIELD_MB_RASTER_MAP =>
    rw [areasBytes_field] at below
    have chrBot : wholePages base + wholePages (s * h / 2) + wholePages (mvBytes format s h) +
      wholePages (s * h / 2) < 2 ^ 32 := by omega
    have lumBot : wholePages base + wholePages (s * h / 2) + wholePages (mvBytes format s h) < 2 ^ 32 := by omega
    have chrTop : wholePages base + wholePages (s * h / 2) < 2 ^ 32 := by omega
    obtain ⟨⟨k, luma⟩, l, chroma⟩ := rounded
    have luma' : (tiledSizes (divX format) (divY format) s h .TILED_FIELD_MB_RASTER_MAP).lumaBot = _ := luma
    simp only [lumaBytes, chromaBytes] at luma luma' chroma ⊢
    rw [uint_add luma chrTop, uint_add chroma lumBot, uint_add luma' chrBot]

theorem descSize_eq (counts : Counts s h map) (ends : base + bufferBytes format s h mvCol map < 2 ^ 32) :
    uint (descSize (tiledSizes (divX format) (divY format) s h map)
      (if mvCol then some (mvBytes format s h) else none)) = bufferBytes format s h mvCol map := by
  have small : bufferBytes format s h mvCol map < 2 ^ 32 := by omega
  obtain ⟨⟨k, luma⟩, l, chroma⟩ := tiledSizes_rounded counts (chroma_small ends)
  have total : ∃ m : Int, (tiledSizes (divX format) (divY format) s h map).lumaTop +
      (tiledSizes (divX format) (divY format) s h map).chromaTop +
      (tiledSizes (divX format) (divY format) s h map).lumaBot +
      (tiledSizes (divX format) (divY format) s h map).chromaBot = areasBytes format s h false map + m * 2 ^ 32 := by
    cases map with
    | TILED_FRAME_MB_RASTER_MAP =>
      refine ⟨k + l, ?_⟩
      rw [luma, chroma, areasBytes_frame]
      simp only [tiledSizes, lumaBytes, chromaBytes]
      push_cast
      ring
    | TILED_FIELD_MB_RASTER_MAP =>
      have luma' : (tiledSizes (divX format) (divY format) s h .TILED_FIELD_MB_RASTER_MAP).lumaBot = _ := luma
      have chroma' : (tiledSizes (divX format) (divY format) s h .TILED_FIELD_MB_RASTER_MAP).chromaBot = _ := chroma
      refine ⟨2 * k + 2 * l, ?_⟩
      rw [luma, chroma, luma', chroma', areasBytes_field]
      simp only [lumaBytes, chromaBytes]
      push_cast
      ring
  obtain ⟨m, total⟩ := total
  have grown := @areasBytes_grown format s h mvCol map
  unfold descSize bufferBytes at *
  rw [total]
  cases mvCol with
  | false =>
    rw [if_neg Bool.false_ne_true]
    dsimp only
    rw [uint_int]
    refine uint_turns (k := m) ?_ small
    push_cast [SZ_4K]
    ring
  | true =>
    rw [if_pos rfl] at grown ⊢
    rw [grown] at small ⊢
    dsimp only
    rw [uint_int, uint_int_add]
    refine uint_turns (k := m) ?_ small
    push_cast [SZ_4K]
    ring

/-- What is said of a buffer that is laid out right. -/
structure LaidOut (format : Format) (s h : Nat) (mvCol : Bool) (map : MapType) (base : Nat) (fb : FrameBuf)
    (bases : Bases) : Prop where
  aligned : ∀ area ∈ areas format s h false map bases 0, SZ_4K ∣ area.1
  apart : (areas format s h mvCol map bases fb.mvColBuf).Pairwise fun a b => Apart a.1 a.2 b.1 b.2
  inside : ∀ area ∈ areas format s h mvCol map bases fb.mvColBuf,
    area.2 = 0 ∨ base ≤ area.1 ∧ area.1 + area.2 ≤ base + uint fb.size
  read : fb.addr.read = bases.pages
  same : format = .MODE420 → tiledFramebufBase base s h map = fb.addr

/-- The motion vectors lie behind the other areas. -/
theorem mvColBuf_eq {fb fb' : FrameBuf} (counts : Counts s h map)
    (ends : base + bufferBytes format s h true map < 2 ^ 32)
    (allocated : tiledFramebufAlloc (some base) true fb format s h true map = some fb') :
    fb'.mvColBuf = wholePages base + areasBytes format s h false map := by
  have below : wholePages base + areasBytes format s h false map < 2 ^ 32 := by
    have all := (areas_end ends).2
    rw [areasBytes_grown, if_pos rfl] at all
    omega
  have bases := tiledBases_eq counts ends
  have rounded := tiledSizes_rounded counts (chroma_small ends)
  unfold tiledFramebufAlloc at allocated
  obtain rfl := Option.some.inj allocated
  dsimp only
  rw [if_pos rfl, bases]
  cases map with
  | TILED_FRAME_MB_RASTER_MAP =>
    have sum : wholePages base + wholePages (s * h) + wholePages (mvBytes format s h * 2) =
        wholePages base + areasBytes format s h false .TILED_FRAME_MB_RASTER_MAP := by
      rw [areasBytes_frame]
      simp
      ring
    rw [← sum] at below ⊢
    obtain ⟨k, chroma⟩ := rounded.chroma
    exact uint_add chroma below
  | TILED_FIELD_MB_RASTER_MAP =>
    have sum : wholePages base + wholePages (s * h / 2) + wholePages (mvBytes format s h) + wholePages (s * h / 2) +
        wholePages (mvBytes format s h) =
        wholePages base + areasBytes format s h false .TILED_FIELD_MB_RASTER_MAP := by
      rw [areasBytes_field]
      simp
      ring
    rw [← sum] at below ⊢
    obtain ⟨k, chroma⟩ := rounded.chroma
    have chroma' : (tiledSizes (divX format) (divY format) s h .TILED_FIELD_MB_RASTER_MAP).chromaBot = _ := chroma
    exact uint_add chroma' below

theorem bases_small (sizes : Sizes) : (tiledBases base sizes map).lumTop < 2 ^ 32 ∧
    (tiledBases base sizes map).chrTop < 2 ^ 32 ∧ (tiledBases base sizes map).lumBot < 2 ^ 32 ∧
    (tiledBases base sizes map).chrBot < 2 ^ 32 := by
  cases map with
  | TILED_FRAME_MB_RASTER_MAP => exact ⟨BitVec.isLt _, uint_lt _, Nat.two_pow_pos 32, Nat.two_pow_pos 32⟩
  | TILED_FIELD_MB_RASTER_MAP => exact ⟨BitVec.isLt _, uint_lt _, uint_lt _, uint_lt _⟩

/-- The areas lie one behind the other from the first page of the buffer on. -/
theorem expected_laid {fb : FrameBuf} (ends : base + bufferBytes format s h mvCol map < 2 ^ 32)
    (size : uint fb.size = bufferBytes format s h mvCol map)
    (mv : mvCol = true → fb.mvColBuf = wholePages base + areasBytes format s h false map) :
    (∀ area ∈ areas format s h false map (expectedBases format s h map base) 0, SZ_4K ∣ area.1) ∧
      ((areas format s h mvCol map (expectedBases format s h map base) fb.mvColBuf).Pairwise
        fun a b => Apart a.1 a.2 b.1 b.2) ∧
      ∀ area ∈ areas format s h mvCol map (expectedBases format s h map base) fb.mvColBuf,
        area.2 = 0 ∨ base ≤ area.1 ∧ area.1 + area.2 ≤ base + uint fb.size := by
  have start : base ≤ wholePages base ∧ wholePages base + areasBytes format s h mvCol map ≤
      base + bufferBytes format s h mvCol map := by
    have rounded : wholePages base ≤ base + (SZ_4K - 1) := Nat.div_mul_le_self ..
    exact ⟨le_wholePages base, by unfold bufferBytes; omega⟩
  have pages (n : Nat) : SZ_4K ∣ wholePages n := Nat.dvd_mul_left ..
  rw [areasBytes_grown] at start
  rw [size]
  unfold areas expectedBases
  cases map with
  | TILED_FRAME_MB_RASTER_MAP =>
    rw [areasBytes_frame] at start mv
    simp only [lumaBytes, chromaBytes] at *
    refine ⟨by simp [pages, Nat.dvd_add], ?_⟩
    cases mvCol with
    | false => simp [Apart]; simp at start; omega
    | true => simp [Apart]; simp at start mv; omega
  | TILED_FIELD_MB_RASTER_MAP =>
    rw [areasBytes_field] at start mv
    simp only [lumaBytes, chromaBytes] at *
    have chrTop := Nat.dvd_add (pages base) (pages (s * h / 2))
    have lumBot := Nat.dvd_add chrTop (pages (mvBytes format s h))
    have chrBot := Nat.dvd_add lumBot (pages (s * h / 2))
    refine ⟨by simp [pages, chrTop, lumBot, chrBot], ?_⟩
    cases mvCol with
    | false => simp [Apart]; simp at start; omega
    | true => simp [Apart]; simp at start mv; omega

/-! ### Field maps of more luma bytes than `int` holds -/

theorem half_overflown {n : Nat} (beyond : 2 ^ 31 ≤ n) (small : n < 2 ^ 32) :
    ∃ half : Nat, n / 2 ≤ half ∧ half ≤ n / 2 + 1 ∧ (int n).tdiv 2 = half - 2 ^ 31 := by
  obtain ⟨k, word⟩ := exists_int n
  have bounds := int_bounds n
  have turned : int n = -((2 ^ 32 - n : Nat) : Int) := by omega
  refine ⟨2 ^ 31 - (2 ^ 32 - n) / 2, by omega, by omega, ?_⟩
  rw [turned, Int.neg_tdiv, Int.tdiv_eq_ediv_of_nonneg (by omega)]
  omega

/-- The luma size is wrong by half of the address space. -/
theorem luma_overflown {n : Nat} (beyond : 2 ^ 31 ≤ n) (small : n < 2 ^ 32) :
    ∃ luma : Nat, wholePages (n / 2) ≤ luma ∧ luma ≤ wholePages (n / 2) + SZ_4K ∧
      ∃ k : Int, alignSize ((int n).tdiv 2) = luma - 2 ^ 31 + k * 2 ^ 32 := by
  obtain ⟨half, least, most, halved⟩ := half_overflown beyond small
  obtain ⟨k, aligned⟩ := exists_alignSize (half - 2 ^ 31)
  rw [halved]
  refine ⟨wholePages half, ?_, ?_, k, ?_⟩
  all_goals
    unfold wholePages
    unfold SZ_4K at *
    omega

/-- A third of the luma bytes are at least as many as one chroma plane has before it is halved. -/
theorem third_le_columns (wide : 2 ≤ s) : s * h ≤ 3 * (s / divX format * h) := by
  have columns : s ≤ 3 * (s / divX format) := by
    rcases divX_cases format with one | two
    · rw [one]
      omega
    · rw [two]
      omega
  rw [← Nat.mul_assoc]
  exact Nat.mul_le_mul_right h columns

theorem lumBot_word (luma chroma : Int) : uint (uint (base + luma) + chroma) = uint (base + luma + chroma) := by
  obtain ⟨k, word⟩ := exists_uint (base + luma)
  obtain ⟨l, word'⟩ := exists_uint (uint (base + luma) + chroma)
  obtain ⟨m, word''⟩ := exists_uint (base + luma + chroma)
  have bound := uint_lt (uint (base + luma) + chroma)
  have bound' := uint_lt (base + luma + chroma)
  omega

theorem chroma_rounded (small : s / divX format * h < 2 ^ 31) :
    ∃ k : Int, (tiledSizes (divX format) (divY format) s h .TILED_FIELD_MB_RASTER_MAP).chromaTop =
      wholePages (mvBytes format s h) + k * 2 ^ 32 := by
  refine alignSize_word ⟨0, ?_⟩
  rw [mvBytes_eq small]
  simp

/-- The numbers of a bottom luma area that begins half of the address space too late. -/
theorem late_outside {base start luma luma' chroma mv lumBot bytes : Nat} {turns grown : Int}
    (first : base ≤ start ∧ start ≤ base + 4095) (half : 2 ^ 30 ≤ luma) (near : luma ≤ luma' ∧ luma' ≤ luma + 4096)
    (many : 2 ^ 28 ≤ chroma ∧ mv ≤ chroma) (ends : base + (2 * luma + 2 * chroma + mv + 4095) < 2 ^ 32)
    (word : (lumBot : Int) = start + luma' + chroma - 2 ^ 31 + turns * 2 ^ 32) (wordBelow : lumBot < 2 ^ 32)
    (total : (bytes : Int) = 2 * luma' + 2 * chroma + mv + 4095 + grown * 2 ^ 32) (totalBelow : bytes < 2 ^ 32) :
    ¬ (Apart start luma lumBot luma ∧ base ≤ lumBot ∧ lumBot + luma ≤ base + bytes) := by
  rintro ⟨apart, above, below⟩
  unfold Apart at apart
  have turned : turns = 0 ∨ turns = 1 ∨ turns = -1 := by omega
  have wrapped : grown = 0 ∨ grown = -1 := by omega
  rcases turned with rfl | rfl | rfl <;> rcases wrapped with rfl | rfl <;> omega

/-- So much luma has many motion vectors. -/
theorem mvBytes_many (high : h < 2 ^ 31) (beyond : 2 ^ 31 ≤ s * h) : 2 ^ 28 ≤ mvBytes format s h := by
  have two : 2 ≤ s := by
    by_contra one
    have : s * h ≤ 1 * h := Nat.mul_le_mul_right h (by omega)
    omega
  have third := @third_le_columns format s h two
  unfold mvBytes
  rcases divY_cases format with one | two
  · rw [one]
    omega
  · rw [two]
    omega

/-- The turns of the luma words and of the chroma words are turns of the size. -/
theorem descSize_turned {sizes : Sizes} {luma chroma mv : Nat} {k l : Int} (lumaTop : sizes.lumaTop = luma - 2 ^ 31 + k * 2 ^ 32)
    (lumaBot : sizes.lumaBot = luma - 2 ^ 31 + k * 2 ^ 32) (chromaTop : sizes.chromaTop = chroma + l * 2 ^ 32)
    (chromaBot : sizes.chromaBot = chroma + l * 2 ^ 32) :
    uint (descSize sizes (if mvCol then some (mv : Int) else none)) =
      uint (2 * luma + 2 * chroma + (if mvCol then mv else 0 : Nat) + 4095) := by
  unfold descSize
  rw [lumaTop, chromaTop, lumaBot, chromaBot]
  cases mvCol with
  | false =>
    rw [if_neg Bool.false_ne_true, if_neg Bool.false_ne_true]
    dsimp only
    rw [uint_int]
    refine uint_congr (k := 2 * k + 2 * l - 1) ?_
    push_cast [SZ_4K]
    ring
  | true =>
    rw [if_pos rfl, if_pos rfl]
    dsimp only
    rw [uint_int, uint_int_add]
    refine uint_congr (k := 2 * k + 2 * l - 1) ?_
    push_cast [SZ_4K]
    ring

/-- The bottom luma area begins half of the address space too late. -/
theorem lumBot_outside (high : h < 2 ^ 31)
    (ends : base + bufferBytes format s h mvCol .TILED_FIELD_MB_RASTER_MAP < 2 ^ 32) (beyond : 2 ^ 31 ≤ s * h) :
    let sizes := tiledSizes (divX format) (divY format) s h .TILED_FIELD_MB_RASTER_MAP
    ¬ (Apart (wholePages base) (wholePages (s * h / 2)) (tiledBases base sizes .TILED_FIELD_MB_RASTER_MAP).lumBot
        (wholePages (s * h / 2)) ∧
      base ≤ (tiledBases base sizes .TILED_FIELD_MB_RASTER_MAP).lumBot ∧
      (tiledBases base sizes .TILED_FIELD_MB_RASTER_MAP).lumBot + wholePages (s * h / 2) ≤
        base + uint (descSize sizes (if mvCol then some (mvBytes format s h : Int) else none))) := by
  have small := chroma_small ends
  have start : base ≤ wholePages base ∧ wholePages base ≤ base + (SZ_4K - 1) :=
    ⟨le_wholePages base, Nat.div_mul_le_self ..⟩
  have low := (areas_end ends).1
  have many := @mvBytes_many format s h high beyond
  have vectors := le_wholePages (mvBytes format s h)
  have lumaPages := le_wholePages (s * h / 2)
  have page : SZ_4K - 1 = 4095 := rfl
  unfold bufferBytes at ends
  rw [areasBytes_field, page] at ends
  rw [page] at start
  have below : s * h < 2 ^ 32 := by omega
  obtain ⟨luma, least, most, k, lumaWord⟩ := luma_overflown beyond below
  obtain ⟨l, chromaWord⟩ := @chroma_rounded format s h small
  intro sizes
  have lumaTop : sizes.lumaTop = luma - 2 ^ 31 + k * 2 ^ 32 := by
    rw [← lumaWord]
    simp [sizes, tiledSizes]
  have lumaBot : sizes.lumaBot = luma - 2 ^ 31 + k * 2 ^ 32 := lumaTop
  have chromaTop : sizes.chromaTop = wholePages (mvBytes format s h) + l * 2 ^ 32 := chromaWord
  have chromaBot : sizes.chromaBot = wholePages (mvBytes format s h) + l * 2 ^ 32 := chromaWord
  have bottom : (tiledBases base sizes .TILED_FIELD_MB_RASTER_MAP).lumBot =
      uint (wholePages base + sizes.lumaTop + sizes.chromaTop) := by
    rw [← alignBase_eq low, ← lumBot_word]
    rfl
  have size := @descSize_turned mvCol sizes luma (wholePages (mvBytes format s h)) (mvBytes format s h) k l lumaTop lumaBot
    chromaTop chromaBot
  rw [bottom, size, lumaTop, chromaTop]
  obtain ⟨m, word⟩ := exists_uint (wholePages base + (luma - 2 ^ 31 + k * 2 ^ 32) +
    (wholePages (mvBytes format s h) + l * 2 ^ 32))
  obtain ⟨n, total⟩ := exists_uint (2 * luma + 2 * wholePages (mvBytes format s h) +
    (if mvCol then mvBytes format s h else 0 : Nat) + 4095)
  have turned : (wholePages base + (luma - 2 ^ 31 + k * 2 ^ 32) +
      (wholePages (mvBytes format s h) + l * 2 ^ 32) + m * 2 ^ 32 : Int) =
      wholePages base + luma + wholePages (mvBytes format s h) - 2 ^ 31 + (k + l + m) * 2 ^ 32 := by
    ring
  refine late_outside start (by omega) ⟨least, most⟩ ⟨many.trans vectors, ?_⟩ ends (word.trans turned) (uint_lt _)
    total (uint_lt _)
  cases mvCol
  · exact Nat.zero_le _
  · exact vectors

theorem laidOut_of_counts {fb fb' : FrameBuf} (counts : Counts s h map)
    (ends : base + bufferBytes format s h mvCol map < 2 ^ 32)
    (allocated : tiledFramebufAlloc (some base) true fb format s h mvCol map = some fb') :
    LaidOut format s h mvCol map base fb' (tiledBases base (tiledSizes (divX format) (divY format) s h map) map) := by
  obtain ⟨lumTop, chrTop, lumBot, chrBot⟩ :=
    @bases_small base map (tiledSizes (divX format) (divY format) s h map)
  have vectors : mvCol = true → fb'.mvColBuf = wholePages base + areasBytes format s h false map := by
    rintro rfl
    exact mvColBuf_eq counts ends allocated
  obtain rfl := Option.some.inj allocated
  have size := descSize_eq counts ends
  rw [← mvBytes_eq (chroma_small ends)] at size
  obtain ⟨aligned, apart, inside⟩ := expected_laid ends size vectors
  rw [← tiledBases_eq counts ends] at aligned apart inside
  refine ⟨aligned, apart, inside, pack_read lumTop chrTop lumBot chrBot, ?_⟩
  rintro rfl
  rfl

/-- Where `int` does not hold the luma bytes of a field map, an area lies in the wrong place. -/
theorem counts_of_laidOut {fb fb' : FrameBuf} (high : h < 2 ^ 31)
    (ends : base + bufferBytes format s h mvCol map < 2 ^ 32)
    (allocated : tiledFramebufAlloc (some base) true fb format s h mvCol map = some fb')
    (laid : LaidOut format s h mvCol map base fb'
      (tiledBases base (tiledSizes (divX format) (divY format) s h map) map)) : Counts s h map := by
  cases map with
  | TILED_FRAME_MB_RASTER_MAP => exact .inl rfl
  | TILED_FIELD_MB_RASTER_MAP =>
    refine .inr (Nat.lt_of_not_le fun beyond => lumBot_outside high ends beyond ?_)
    obtain rfl := Option.some.inj allocated
    have start := alignBase_eq (areas_end ends).1
    have filled : wholePages (s * h / 2) ≠ 0 := by
      have pages := le_wholePages (s * h / 2)
      omega
    obtain ⟨inside, -⟩ := (List.forall_mem_cons.mp (List.forall_mem_cons.mp (List.forall_mem_cons.mp laid.inside).2).2)
    have apart := (List.pairwise_cons.mp laid.apart).1 _ (List.mem_cons_of_mem _ (List.mem_cons_self ..))
    rw [mvBytes_eq (chroma_small ends)] at inside
    refine ⟨?_, ?_⟩
    · rw [← start]
      exact apart
    · exact inside.resolve_left filled

end Layout

/-- The areas that `tiled_framebuf_alloc` lays out in a buffer that ends in 32 bits. -/
theorem tiledFramebufAlloc_laid_iff {format : Format} {s h base : Nat} {mvCol : Bool} {map : MapType} {fb : FrameBuf}
    (high : h < 2 ^ 31) (ends : base + bufferBytes format s h mvCol map < 2 ^ 32) :
    (∃ fb', tiledFramebufAlloc (some base) true fb format s h mvCol map = some fb' ∧
      LaidOut format s h mvCol map base fb'
        (tiledBases base (tiledSizes (divX format) (divY format) s h map) map)) ↔
      Counts s h map := by
  constructor
  · rintro ⟨fb', allocated, laid⟩
    exact counts_of_laidOut high ends allocated laid
  · intro counts
    exact ⟨_, rfl, laidOut_of_counts counts ends rfl⟩

/-- A frame of 1920x1088 pixels, its fields apart. -/
theorem tiledFramebufAlloc_laid_1080 :
    Counts 1920 1088 .TILED_FIELD_MB_RASTER_MAP ∧
      ∃ fb', tiledFramebufAlloc (some 0x10000800) true ⟨⟨0, 0, 0⟩, 0, 0, 0, 0, 0⟩ .MODE420 (1920 : Nat) (1088 : Nat)
          true .TILED_FIELD_MB_RASTER_MAP = some fb' ∧
        LaidOut .MODE420 1920 1088 true .TILED_FIELD_MB_RASTER_MAP 0x10000800 fb'
          (tiledBases 0x10000800 (tiledSizes (divX .MODE420) (divY .MODE420) (1920 : Nat) (1088 : Nat)
            .TILED_FIELD_MB_RASTER_MAP) .TILED_FIELD_MB_RASTER_MAP) :=
  ⟨by decide, (tiledFramebufAlloc_laid_iff (by decide) (by decide)).mpr (by decide)⟩

/-- Two fields of a gigabyte of luma each. -/
theorem tiledFramebufAlloc_field_misplaced :
    0 + bufferBytes .MODE420 65536 32768 false .TILED_FIELD_MB_RASTER_MAP < 2 ^ 32 ∧
      ¬ ∃ fb', tiledFramebufAlloc (some 0) true ⟨⟨0, 0, 0⟩, 0, 0, 0, 0, 0⟩ .MODE420 (65536 : Nat) (32768 : Nat)
          false .TILED_FIELD_MB_RASTER_MAP = some fb' ∧
        LaidOut .MODE420 65536 32768 false .TILED_FIELD_MB_RASTER_MAP 0 fb'
          (tiledBases 0 (tiledSizes (divX .MODE420) (divY .MODE420) (65536 : Nat) (32768 : Nat)
            .TILED_FIELD_MB_RASTER_MAP) .TILED_FIELD_MB_RASTER_MAP) := by
  refine ⟨by decide, ?_⟩
  rintro ⟨fb', allocated, laid⟩
  have counts := counts_of_laidOut (by decide) (by decide) allocated laid
  exact absurd counts (by decide)

end ImxTest.Vpu.Fb
