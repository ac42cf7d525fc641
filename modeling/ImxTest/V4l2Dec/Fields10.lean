import ImxTest.Lib.BitString
import ImxTest.V4l2Dec.Tiles8

/-! The three algorithms of `__ReadYUVFrame_FSL_10b` in mxc_v4l2_vpu_test/mxc_vpu_dec.c, which
read samples of ten bits out of tiles. Memory that is asked for is given. -/
namespace ImxTest.V4l2Dec
open Lib.BitString Lib.Strips Lib.Words Lib.Writes

/-- ALGORITHM_10BIT. -/
inductive Algorithm10bit where
  | one
  | two
  | three
deriving DecidableEq, Repr

/-- Ten bits of two bytes, from bit `bitLoc` of the first one on; their upper eight for an output
of eight. -/
def sample10 (bitCnt : Nat) (bitLoc : Int) (firstByte secondByte : UInt8) : Nat :=
  let byte16 := firstByte.toNat <<< 8 ||| secondByte.toNat
  if bitCnt = 8 then (byte16 >>> (8 - bitLoc).toNat) % 256 else (byte16 >>> (6 - bitLoc).toNat) &&& 0x3ff

/-! ## Algorithm 1 -/

/-- What a strip of tiles puts into `row_buf`, whose rows are `stride` bytes apart. -/
def rowLoads (srcAddr : Memory) (stride hCnt vNum : Nat) : List (Int × UInt8) :=
  let vBaseOffset := uint (stride * 128 * vNum : Nat)
  (List.range hCnt).flatMap fun hNum =>
    let curAddr := int (hNum * (8 * 128) : Nat) + vBaseOffset
    (List.range 128).flatMap fun i => (List.range 8).map fun j =>
      (((i * stride + (8 * hNum + j) : Nat) : Int), srcAddr (curAddr + (8 * i + j : Nat)))

/-- What is written of the rows. -/
def rowSamples (rowBuf : Memory) (width stride bitCnt vNum : Nat) : List (Int × Nat) :=
  (List.range 128).flatMap fun k =>
    let lineBase := int ((128 * vNum + k) * width : Nat)
    (List.range width).map fun pix =>
      let bitPos := int (10 * pix : Nat)
      let byteLoc := (k * stride : Nat) + bitPos.tdiv 8
      (int (lineBase + pix), sample10 bitCnt (bitPos.tmod 8) (rowBuf byteLoc) (rowBuf (byteLoc + 1)))

/-- The tiles of a strip go to `row_buf`, and its rows to the output. -/
def readStrip (cap : Nat) (srcAddr : Memory) (width stride hCnt bitCnt dst : Nat) (bufs : Memory × Memory) (vNum : Nat) :
    Option (Memory × Memory) := do
  let rowBuf ← write (uint (128 * stride)) bufs.1 (rowLoads srcAddr stride hCnt vNum)
  let mem ← fill cap bufs.2 dst (bitCnt / 8) (rowSamples rowBuf width stride bitCnt vNum)
  return (rowBuf, mem)

/-- `row_buf` is as `malloc` gives it at first, and then as the last strip has left it. -/
def readFsl10b1 (cap : Nat) (rowBuf srcAddr : Memory) (width stride hCnt vCnt bitCnt dst : Nat) (mem : Memory) :
    Option Memory :=
  ((List.range vCnt).foldlM (readStrip cap srcAddr width stride hCnt bitCnt dst) (rowBuf, mem)).map Prod.snd

/-! ## Algorithm 2 -/

def fslSamples10b2 (srcAddr : Memory) (width stride vCnt bitCnt : Nat) : List (Int × Nat) :=
  -- the count of tiles that the caller has is not used
  let hCnt := uint (width + 7) / 8
  (List.range vCnt).flatMap fun vNum => (List.range hCnt).flatMap fun hNum => (List.range 128).flatMap fun i =>
    (List.range 8).map fun j =>
      let dx := int (8 * hNum + j : Nat)
      let dy := int (vNum * 128 + i : Nat)
      let sx := (int (dx * 10)).tdiv 8
      let jInSrc := sx.tmod 8
      let firstBytePos := int (dy.tdiv 128 * (stride * 128 : Nat) + sx.tdiv 8 * (8 * 128) + dy.tmod 128 * 8 + jInSrc)
      let secondBytePos := if jInSrc ≠ 7 then int (firstBytePos + 1) else int (firstBytePos + (8 * 127 + 1))
      let bitLoc := (int (dx * 10)).tmod 8
      (int (dy * width + dx), sample10 bitCnt bitLoc (srcAddr firstBytePos) (srcAddr secondBytePos))

/-! ## Algorithm 3 -/

/-- The inner loop, from byte `j` of a row of a tile on. -/
def tileSamples (psrc : Int → UInt8) (bitCnt j : Nat) (bitPos pdst : Int) : List (Int × Nat) :=
  if j < 8 then
    let secondByte := if j ≠ 7 then psrc (j + 1) else psrc (8 * 128)
    let bitLoc := bitPos.tmod 8
    (pdst, sample10 bitCnt bitLoc (psrc j) secondByte) ::
      tileSamples psrc bitCnt (if bitLoc = 6 then j + 2 else j + 1) (int (bitPos + 10)) (pdst + 1)
  else []
termination_by 8 - j
decreasing_by split <;> omega

def fslSamples10b3 (srcAddr : Memory) (width stride hCnt vCnt bitCnt : Nat) : List (Int × Nat) :=
  (List.range vCnt).flatMap fun vNum => (List.range hCnt).flatMap fun hNum =>
    let sx := int (hNum * 8 : Nat)
    let sy := int (vNum * 128 : Nat)
    let dx := (int (sx * 8 + 9)).tdiv 10
    let dy := sy
    let startPos := if (int (sx * 8)).tmod 10 = 2 then 1 else 0
    (List.range 128).flatMap fun i : Nat =>
      let psrc := uint (sy * stride + hNum * (8 * 128) + i * 8)
      tileSamples (fun j => srcAddr (psrc + j)) bitCnt startPos (int (10 * dx)) (uint (dy * width + i * width + dx))

/-- `__ReadYUVFrame_FSL_10b`. -/
def readFsl10b (algorithm : Algorithm10bit) (cap : Nat) (rowBuf srcAddr : Memory)
    (width stride hCnt vCnt bitCnt dst : Nat) (mem : Memory) : Option Memory :=
  match algorithm with
  | .one => readFsl10b1 cap rowBuf srcAddr width stride hCnt vCnt bitCnt dst mem
  | .two => fill cap mem dst (bitCnt / 8) (fslSamples10b2 srcAddr width stride vCnt bitCnt)
  | .three => fill cap mem dst (bitCnt / 8) (fslSamples10b3 srcAddr width stride hCnt vCnt bitCnt)

/-- A call of `ReadYUVFrame_FSL_10b` for so many lines. -/
def tiles10 (algorithm : Algorithm10bit) (rowBuf : Memory) (cap width stride bitCnt lines : Nat) (src : Memory) (dst : Nat)
    (mem : Memory) : Option Memory :=
  let hCnt := (uint (width * 10) / 8 + 7) / 8
  let vCnt := uint (lines + 127) / 128
  readFsl10b algorithm cap rowBuf src width stride hCnt vCnt bitCnt dst mem

/-! ## Fields -/

/-- The number of the ten bits from bit `10 * x` of line `y` on, most significant first. -/
def field10 (src : Memory) (stride x y : Nat) : Nat :=
  value (((ofBytes ((List.range (10 * x / 8 + 2)).map fun c => src (tileOffset stride c y))).drop (10 * x)).take 10)

/-- What is shown of a field. -/
def shown10 (bitCnt : Nat) (src : Memory) (stride x y : Nat) : Nat :=
  if bitCnt = 8 then field10 src stride x y / 4 else field10 src stride x y

section Field
variable {src : Memory} {stride bitCnt x y : Nat} {b₀ b₁ : UInt8}

/-- A field is in two bytes. -/
theorem field10_eq : field10 src stride x y =
    ((src (tileOffset stride (10 * x / 8) y)).toNat * 256 + (src (tileOffset stride (10 * x / 8 + 1) y)).toNat) /
      2 ^ (6 - 10 * x % 8) % 1024 := by
  have small₀ := (src (tileOffset stride (10 * x / 8) y)).toNat_lt
  have small₁ := (src (tileOffset stride (10 * x / 8 + 1) y)).toNat_lt
  have widths : 16 = 10 * x % 8 + (10 + (6 - 10 * x % 8)) := by omega
  unfold field10
  rw [List.range_add, List.map_append, ofBytes_append, show List.range 2 = [0, 1] from rfl]
  simp only [List.map_cons, List.map_nil, ofBytes_cons, ofBytes_nil, List.append_nil, Nat.add_zero]
  generalize (src (tileOffset stride (10 * x / 8) y)).toNat = first at *
  generalize (src (tileOffset stride (10 * x / 8 + 1) y)).toNat = second at *
  have both : bitsOf 8 first ++ bitsOf 8 second = bitsOf 16 (first * 256 + second) := by
    rw [show (16 : Nat) = 8 + 8 from rfl, bitsOf_append, ← bitsOf_mod (Nat.le_refl 8) (first * 256 + second)]
    congr 2 <;> omega
  rw [both]
  generalize first * 256 + second = word
  rw [List.drop_append, List.drop_eq_nil_of_le (by rw [ofBytes_length, List.length_map, List.length_range]; omega),
    ofBytes_length, List.length_map, List.length_range, List.nil_append,
    show 10 * x - 8 * (10 * x / 8) = 10 * x % 8 by omega, widths, bitsOf_append, List.drop_left' (bitsOf_length ..), bitsOf_append, List.take_left' (bitsOf_length ..), value_bitsOf]
  rfl

theorem sample10_eq : sample10 bitCnt (10 * x % 8 : Nat) b₀ b₁ =
    if bitCnt = 8 then (b₀.toNat * 256 + b₁.toNat) / 2 ^ (6 - 10 * x % 8) % 1024 / 4
    else (b₀.toNat * 256 + b₁.toNat) / 2 ^ (6 - 10 * x % 8) % 1024 := by
  have small := b₁.toNat_lt
  have even : 10 * x % 8 ≤ 6 := by omega
  have word : b₀.toNat <<< 8 ||| b₁.toNat = b₀.toNat * 256 + b₁.toNat := by
    rw [← Nat.shiftLeft_add_eq_or_of_lt small, Nat.shiftLeft_eq]
  have eight : ((8 : Int) - (10 * x % 8 : Nat)).toNat = 6 - 10 * x % 8 + 2 := by omega
  have sixteen : ((6 : Int) - (10 * x % 8 : Nat)).toNat = 6 - 10 * x % 8 := by omega
  simp only [sample10, word, eight, sixteen, Nat.shiftRight_eq_div_pow]
  split
  · rw [pow_add, ← Nat.div_div_eq_div_mul]
    omega
  · exact Nat.and_two_pow_sub_one_eq_mod _ 10

/-- The byte of a line that has the last bit of a field that is shown. -/
def lastByte (bitCnt x : Nat) : Nat := if bitCnt = 8 then (10 * x + 7) / 8 else (10 * x + 9) / 8

/-- The bytes that a field is in make what is shown. -/
theorem sample10_shown {stride : Nat} (first : b₀ = src (tileOffset stride (10 * x / 8) y))
    (second : 10 * x / 8 < lastByte bitCnt x → b₁ = src (tileOffset stride (10 * x / 8 + 1) y)) :
    sample10 bitCnt (10 * x % 8 : Nat) b₀ b₁ = shown10 bitCnt src stride x y := by
  rw [sample10_eq, shown10, field10_eq, ← first]
  by_cases taken : 10 * x / 8 < lastByte bitCnt x
  · rw [second taken]
  · unfold lastByte at taken
    have eight : bitCnt = 8 := by
      by_contra sixteen
      rw [if_neg sixteen] at taken
      omega
    rw [if_pos eight] at taken
    have small₁ := b₁.toNat_lt
    have small₁' := (src (tileOffset stride (10 * x / 8 + 1) y)).toNat_lt
    rw [if_pos eight, if_pos eight, show 10 * x % 8 = 0 by omega]
    omega

/-- A byte that is taken counts. -/
theorem sample10_second (taken : 10 * x / 8 < lastByte bitCnt x) : sample10 bitCnt (10 * x % 8 : Nat) b₀ 255 ≠
    sample10 bitCnt (10 * x % 8 : Nat) b₀ 0 := by
  have small := b₀.toNat_lt
  have cases : 10 * x % 8 = 0 ∨ 10 * x % 8 = 2 ∨ 10 * x % 8 = 4 ∨ 10 * x % 8 = 6 := by omega
  rw [sample10_eq, sample10_eq, show (255 : UInt8).toNat = 255 from rfl, show (0 : UInt8).toNat = 0 from rfl]
  unfold lastByte at taken
  by_cases eight : bitCnt = 8
  · rw [if_pos eight] at taken
    rw [if_pos eight, if_pos eight]
    rcases cases with r | r | r | r <;> rw [r] <;> omega
  · rw [if_neg eight, if_neg eight]
    rcases cases with r | r | r | r <;> rw [r] <;> omega

theorem sample10_first : sample10 bitCnt (10 * x % 8 : Nat) 255 0 ≠ 0 := by
  have cases : 10 * x % 8 = 0 ∨ 10 * x % 8 = 2 ∨ 10 * x % 8 = 4 ∨ 10 * x % 8 = 6 := by omega
  rw [sample10_eq]
  rcases cases with r | r | r | r <;> rw [r] <;> split <;> decide

theorem sample10_zero : sample10 bitCnt (10 * x % 8 : Nat) 0 0 = 0 := by
  rw [sample10_eq]
  simp

theorem sample10_lt (depth : bitCnt = 8 ∨ bitCnt = 16) : sample10 bitCnt (10 * x % 8 : Nat) b₀ b₁ < 256 ^ (bitCnt / 8) := by
  rw [sample10_eq]
  rcases depth with rfl | rfl
  · rw [if_pos rfl]
    omega
  · rw [if_neg (by decide)]
    omega

end Field

end ImxTest.V4l2Dec
