import ImxTest.Pitcher.BitFields
import ImxTest.Pitcher.Detile

/-! Whether the converters of pictures with pairs of chroma bring every pair. -/
namespace ImxTest.Pitcher.Convert

open Pitcher.Tiles
open Lib.Writes Lib.Copy

/-- Where component `k` of a pair lies, in a plane of pairs and in a plane of its own. -/
def pairAt (k y x : Nat) : Cell := (1, y, 2 * x + k)

def planeAt (k y x : Nat) : Cell := (1 + k, y, x)

/-- Both components of every pair arrive, each through `f`. -/
def Complete (w h : Nat) (writes : Picture → Writes) (f : UInt16 → UInt16)
    (origin place : (k y x : Nat) → Cell) : Prop :=
  ∀ samples old : Samples, ∀ y < halfUp h, ∀ x < halfUp w, ∀ k < 2,
    store old (writes { width := w, height := h, samples }) (place k y x) = f (samples (origin k y x))

/-- No pair is half behind the last sample of a line. -/
def WholePairs (w h : Nat) : Prop := h = 0 ∨ w % 2 = 0

section Samples
variable {w h : Nat} {f : UInt16 → UInt16} {writes : Picture → Writes}

theorem halfUp_pos (some_ : h ≠ 0) : 0 < halfUp h := by
  unfold halfUp
  omega

/-- The last line of chroma ends where one of luma does. -/
theorem complete_iff (gathers : ∀ samples old, store old (writes { width := w, height := h, samples }) =
    gather (takesPlanes w h) (f ∘ samples) old) : Complete w h writes f pairAt pairAt ↔ WholePairs w h := by
  constructor
  · intro complete
    by_contra broken
    obtain ⟨tall, odd⟩ := not_or.mp broken
    have half : w / 2 < halfUp w := by
      unfold halfUp
      omega
    have free : takesPlanes w h (pairAt 1 0 (w / 2)) = none := if_neg fun inside => by
      have := inside.2
      omega
    have last := complete (fun _ => 0) (fun _ => f 0 + 1) 0 (halfUp_pos tall) (w / 2) half 1 (by decide)
    rw [gathers, gather_none free] at last
    exact absurd last (by simp)
  · intro whole samples old y low x inside k two
    have tall : h ≠ 0 := by
      rintro rfl
      exact Nat.not_lt_zero y low
    have even := whole.resolve_left tall
    have column : 2 * x + k < w := by
      unfold halfUp at inside
      omega
    have taken : takesPlanes w h (pairAt k y x) = some (pairAt k y x) := if_pos ⟨low, column⟩
    rw [gathers, gather_some taken, Function.comp_apply]

theorem copyPlanes_complete : Complete w h (copyPlanes f) f pairAt pairAt ↔ WholePairs w h :=
  complete_iff fun _ _ => store_gathers copyPlanes_gathers

theorem packNv12_10le_complete : Complete w h swcPackNv12_10le (· >>> 6) pairAt pairAt ↔ WholePairs w h :=
  complete_iff fun _ _ => packNv12_10le_store.trans (store_gathers copyPlanes_gathers)

theorem unpackI420_complete : Complete w h (unpackI420 f) f planeAt pairAt := by
  intro samples old y low x inside k two
  have column : 2 * x + k < halfUp w * 2 := by omega
  have taken : takesPairs w h (pairAt k y x) = some (planeAt k y x) := by
    rw [pairAt, planeAt, takesPairs, if_pos ⟨low, column⟩]
    rcases (show k = 0 ∨ k = 1 by omega) with rfl | rfl
    · rw [if_pos (by omega), Nat.add_zero, Nat.mul_div_cancel_left x (by decide)]
    · rw [if_neg (by omega), Nat.mul_add_div (by decide)]
      rfl
  rw [store_gathers unpackI420_gathers, gather_some taken, Function.comp_apply]

theorem packI420_complete : Complete w h (packI420 f) f pairAt planeAt := by
  intro samples old y low x inside k two
  have taken : takesPlanar w h (planeAt k y x) = some (pairAt k y x) := by
    rw [pairAt, Nat.mul_comm 2]
    rcases (show k = 0 ∨ k = 1 by omega) with rfl | rfl
    · exact if_pos ⟨low, inside⟩
    · exact if_pos ⟨low, inside⟩
  rw [store_gathers packI420_gathers, gather_some taken, Function.comp_apply]

end Samples

/-! ## Tiles -/

/-- A picture of tiles that is no picture of fields, and one with room for its pairs. -/
structure TileFrame (src dst : Buffer) (sfmt dfmt : PixFmtInfo) : Prop where
  progressive : sfmt.interlaced = false
  source : Source src sfmt (frameLines sfmt) fun i => (sfmt.planes i).size
  sizes : ∀ i < 2, (sfmt.planes i).size ≤ (src.view i).size
  target : Target dst dfmt (halfUp sfmt.width * 2) (frameLines sfmt)
  apart : Separate src dst

/-- Both components of every pair arrive in a frame. -/
def TilePairs (splane dplane : BufRef) (src dst : Buffer) (sfmt dfmt : PixFmtInfo) : Prop :=
  ∀ mem : Nat → UInt8, ∀ y < halfUp sfmt.height, ∀ x < halfUp sfmt.width, ∀ k < 2,
    runMoves mem (swcUnpackTiledNv12 splane dplane src dst sfmt dfmt) (lineAt dst dfmt 1 (2 * x + k) y) =
      mem (tileAt src sfmt 1 0 (2 * x + k) y)

section Tiles
variable {src dst : Buffer} {sfmt dfmt : PixFmtInfo} {splane dplane : BufRef} (frame : TileFrame src dst sfmt dfmt)
include frame

theorem TileFrame.narrow : Target dst dfmt sfmt.width (frameLines sfmt) := by
  have wide : sfmt.width ≤ halfUp sfmt.width * 2 := by
    unfold halfUp
    omega
  have target := frame.target
  exact { target with wide := fun i below => Nat.le_trans wide (target.wide i below) }

theorem TilePairs.whole (pairs : TilePairs splane dplane src dst sfmt dfmt) : WholePairs sfmt.width sfmt.height := by
  by_contra broken
  obtain ⟨tall, odd⟩ := not_or.mp broken
  have half : sfmt.width / 2 < halfUp sfmt.width := by
    unfold halfUp
    omega
  have last : 2 * (sfmt.width / 2) + 1 = sfmt.width := by omega
  have upTo : sfmt.width < halfUp sfmt.width * 2 := by omega
  have line : 0 < frameLines sfmt 1 := halfUp_pos tall
  have columns := frame.source.wide 1 (by decide)
  have read := frame.source.tileAt_inside (show 1 < 2 by decide) 0 (show sfmt.width < _ by omega) line
  have size := frame.sizes 1 (by decide)
  have written := frame.target.lineAt_lt (show 1 < 2 by decide) upTo line
  have others := frame.apart.others 1 (by decide) 1 (by decide)
  have free : ∀ move ∈ swcUnpackTiledNv12 splane dplane src dst sfmt dfmt, ∀ s,
      ¬ move.Brings (lineAt dst dfmt 1 sfmt.width 0) s := by
    intro move found s brought
    obtain ⟨i, below, y, row, x, column, same, -⟩ :=
      (brings_frame frame.progressive frame.source frame.narrow splane dplane _ s).mp ⟨move, found, brought⟩
    have beyond : sfmt.width = x :=
      (frame.target.lineAt_unique frame.apart (by decide) below upTo (Nat.lt_trans column upTo) line row same).2.2
    omega
  have other : tileAt src sfmt 1 0 sfmt.width 0 ≠ lineAt dst dfmt 1 sfmt.width 0 := by
    unfold Apart at others
    omega
  have kept := pairs (fun c => if c = lineAt dst dfmt 1 sfmt.width 0 then 1 else 0) 0 (halfUp_pos tall)
    (sfmt.width / 2) half 1 (by decide)
  rw [last, runMoves_free free, if_pos rfl, if_neg other] at kept
  exact absurd kept (by decide)

theorem tilePairs_iff : TilePairs splane dplane src dst sfmt dfmt ↔ WholePairs sfmt.width sfmt.height := by
  constructor
  · exact TilePairs.whole frame
  · intro whole mem y low x inside k two
    have tall : sfmt.height ≠ 0 := by
      intro none_
      rw [none_] at low
      exact Nat.not_lt_zero y low
    have even := whole.resolve_left tall
    have column : 2 * x + k < sfmt.width := by
      unfold halfUp at inside
      omega
    refine runMoves_lines frame.narrow frame.apart ?_
      (brings_frame frame.progressive frame.source frame.narrow splane dplane) mem (by decide) low column
    intro i below y row x column
    have read := frame.source.tileAt_lt below 0 column row
    have size := frame.sizes i below
    omega

end Tiles

/-- Lines of pairs are cut off behind as many samples as a line of luma has; planes of one
component each are not. -/
theorem chroma_pairs_iff (w h : Nat) :
    (Complete w h swcCopyNv12 id pairAt pairAt ↔ WholePairs w h) ∧
    (Complete w h swcCopyP0xx id pairAt pairAt ↔ WholePairs w h) ∧
    (Complete w h swcUnpackNv12_10le (· <<< 6) pairAt pairAt ↔ WholePairs w h) ∧
    (Complete w h swcPackNv12_10le (· >>> 6) pairAt pairAt ↔ WholePairs w h) ∧
    (ChromaRead w h ↔ RowsCounted w h) ∧
    (∀ (splane dplane : BufRef) (src dst : Buffer) (sfmt dfmt : PixFmtInfo), TileFrame src dst sfmt dfmt →
      (TilePairs splane dplane src dst sfmt dfmt ↔ WholePairs sfmt.width sfmt.height)) ∧
    Complete w h swcUnpackI420 id planeAt pairAt ∧ Complete w h swcPackI420 id pairAt planeAt :=
  ⟨copyPlanes_complete, copyPlanes_complete, copyPlanes_complete, packNv12_10le_complete,
    ⟨ChromaRead.counted, fun counted _ _ _ low _ inside => counted.shown ⟨low, inside⟩⟩,
    fun _ _ _ _ _ _ frame => tilePairs_iff frame, unpackI420_complete, packI420_complete⟩

/-- A picture of tiles with 12x4 samples. -/
theorem chroma_pairs_tiles :
    ∃ sfmt dfmt, Word.pitcherGetPixFmtInfo { format := .nv12_8l128, width := 12, height := 4 } 8 = some sfmt ∧
      Word.pitcherGetPixFmtInfo { format := .nv12, width := 12, height := 4 } 8 = some dfmt ∧
      TilePairs {} {} (memoryOf 4096 sfmt) (memoryOf 65536 dfmt) sfmt dfmt := by
  refine ⟨_, _, rfl, rfl, ?_⟩
  obtain ⟨-, -, -, -, -, tiles, -, -⟩ := chroma_pairs_iff 12 4
  exact (tiles {} {} (memoryOf 4096 _) (memoryOf 65536 _) _ _
    ⟨rfl, ⟨rfl, ⟨by decide, .inl rfl⟩, rfl, rfl, rfl, by decide, by decide, by decide⟩, by decide,
      ⟨rfl, ⟨by decide, .inl rfl⟩, by decide, by decide, by decide, by decide⟩, ⟨by decide, by decide⟩⟩).mpr
    (.inr rfl)

/-- Of a picture of one sample the second component is not copied. -/
theorem chroma_pairs_odd : ¬ Complete 1 1 swcCopyNv12 id pairAt pairAt := by
  intro complete
  exact absurd (complete (fun _ => 0) (fun _ => 1) 0 (by decide) 0 (by decide) 1 (by decide)) (by decide)

end ImxTest.Pitcher.Convert
