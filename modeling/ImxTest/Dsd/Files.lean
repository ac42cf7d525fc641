import ImxTest.Dsd.Play
import ImxTest.Dsd.Walk

/-! Well-formed files and what is played of them. -/
namespace ImxTest.Dsd

open Lib Reading BitString

/-- A number of `n` bytes, the most significant one first or last. -/
def encode (be : Bool) (n v : Nat) : List UInt8 := if be then bytesOf n v else (bytesOf n v).reverse

@[simp] theorem encode_length (be : Bool) (n v : Nat) : (encode be n v).length = n := by
  cases be <;> simp [encode]

theorem number_encode (be : Bool) {n v : Nat} (fits : v < 2 ^ (8 * n)) : number be (encode be n v) = v := by
  cases be <;> simp [encode, number, word_bytesOf fits]

theorem passes_number (be : Bool) {n v : Nat} (fits : v < 2 ^ (8 * n)) :
    Passes (readNumber be n) (encode be n v) v := by
  intro rest junk
  obtain ⟨junk', read⟩ := passes_readNew (encode_length be n v) rest junk
  refine ⟨junk', (bind_ok read _).trans ?_⟩
  rw [number_encode be fits]
  rfl

theorem passes_u32 (be : Bool) (v : UInt32) : Passes (readU32 be) (encode be 4 v.toNat) v.toNat := by
  rw [readU32_eq]
  exact passes_number be v.toNat_lt

theorem passes_u64 (be : Bool) {v : Nat} (fits : v < 2 ^ 64) : Passes (readU64 be) (encode be 8 v) v := by
  rw [readU64_eq]
  exact passes_number be fits

/-! ## DSF -/

/-- A DSF file, with the metadata that may follow the data. -/
structure DsfFile where
  fileSize : UInt64
  metadataPtr : UInt64
  formatVersion : UInt32
  formatId : UInt32
  channelType : UInt32
  channelNum : UInt32
  samplingFreq : UInt32
  bitsPerSample : UInt32
  sampleCount : UInt64
  data : List UInt8
  metadata : List UInt8
  fits : data.length + 12 < 2 ^ 64

namespace DsfFile

def header (file : DsfFile) : List UInt8 :=
  ascii "DSD " ++ (encode false 8 28 ++ (encode false 8 file.fileSize.toNat ++
  (encode false 8 file.metadataPtr.toNat ++ (ascii "fmt " ++ (encode false 8 52 ++
  (encode false 4 file.formatVersion.toNat ++ (encode false 4 file.formatId.toNat ++
  (encode false 4 file.channelType.toNat ++ (encode false 4 file.channelNum.toNat ++
  (encode false 4 file.samplingFreq.toNat ++ (encode false 4 file.bitsPerSample.toNat ++
  (encode false 8 file.sampleCount.toNat ++ (encode false 4 DSF_BLOCK_SIZE ++ (encode false 4 0 ++
  (ascii "data" ++ encode false 8 (file.data.length + 12))))))))))))))))

def bytes (file : DsfFile) : List UInt8 := file.header ++ (file.data ++ file.metadata)

def params (file : DsfFile) : DsdParams where
  samplingFreq := file.samplingFreq.toNat
  bitsPerSample := file.bitsPerSample.toNat
  channelNum := file.channelNum.toNat
  dsdChunkSize := file.data.length + 12

end DsfFile

theorem passes_dsf (file : DsfFile) : Passes readDsfFile file.header file.params := by
  have block : Passes (readU32 false) (encode false 4 DSF_BLOCK_SIZE) DSF_BLOCK_SIZE := by
    rw [readU32_eq]
    exact passes_number false (by unfold DSF_BLOCK_SIZE; omega)
  have reserved : Passes (readU32 false) (encode false 4 0) 0 := passes_u32 false 0
  have size : Passes (readU64 false) (encode false 8 (file.data.length + 12)) (file.data.length + 12) :=
    passes_u64 false file.fits
  have head : Passes (readU64 false) (encode false 8 28) 28 := passes_u64 false (by omega)
  have fmt : Passes (readU64 false) (encode false 8 52) 52 := passes_u64 false (by omega)
  have dsd : Passes (readNew 4) (ascii "DSD ") (ascii "DSD ") := passes_readNew (by decide)
  have fmt_tag : Passes (readNew 4) (ascii "fmt ") (ascii "fmt ") := passes_readNew (by decide)
  have data_tag : Passes (readNew 4) (ascii "data") (ascii "data") := passes_readNew (by decide)
  unfold readDsfFile DsfFile.header
  refine dsd.bind <| head.bind <| (passes_u64 false file.fileSize.toNat_lt).bind <|
    (passes_u64 false file.metadataPtr.toNat_lt).bind <| fmt_tag.bind <| fmt.bind <|
    (passes_u32 false file.formatVersion).bind <| (passes_u32 false file.formatId).bind <|
    (passes_u32 false file.channelType).bind <| (passes_u32 false file.channelNum).bind <|
    (passes_u32 false file.samplingFreq).bind <| (passes_u32 false file.bitsPerSample).bind <|
    (passes_u64 false file.sampleCount.toNat_lt).bind <| block.bind ?_
  rw [if_neg (by simp)]
  refine reserved.bind <| data_tag.bind ?_
  intro rest junk
  obtain ⟨junk', read⟩ := size rest junk
  exact ⟨junk', (bind_ok read _).trans rfl⟩

/-- The blocks for the interleave function are the data of the file and nothing else. -/
def DsfFile.Plays (sys : System) (file : DsfFile) : Prop := ∀ junk, ∃ blocks t,
  playDsf sys ⟨file.bytes, junk⟩ = .ok (blocks, t) ∧
    Cuts (file.channelNum.toNat * DSF_BLOCK_SIZE) file.data blocks

/-- Nothing follows the data; a block is an int above zero, two of them have room, and it is
of all the channels unless there is no data. -/
def DsfFile.Playable (sys : System) (file : DsfFile) : Prop :=
  file.metadata = [] ∧ 0 < blockSize file.channelNum.toNat ∧
    2 * blockSize file.channelNum.toNat ≤ sys.stack ∧
    (file.data = [] ∨ file.channelNum.toNat * DSF_BLOCK_SIZE < 2 ^ 32)

theorem DsfFile.take_data (file : DsfFile) :
    (file.data ++ file.metadata).take (file.data.length + 12) = file.data ↔ file.metadata = [] := by
  rw [List.take_append, List.take_of_length_le (Nat.le_add_right _ _), Nat.add_sub_cancel_left]
  simp

theorem dsf_plays_iff (sys : System) (file : DsfFile) : file.Plays sys ↔ file.Playable sys := by
  have run (junk : Stream' UInt8) : ∃ junk', playDsf sys ⟨file.bytes, junk⟩ =
      play sys file.params ⟨file.data ++ file.metadata, junk'⟩ := by
    obtain ⟨junk', read⟩ := passes_dsf file (file.data ++ file.metadata) junk
    exact ⟨junk', bind_ok read _⟩
  have some_left : file.params.dsdChunkSize ≠ 0 := Nat.succ_ne_zero _
  constructor
  · intro plays
    obtain ⟨junk', same⟩ := run (Stream'.const 0)
    have played := plays (Stream'.const 0)
    rw [same] at played
    obtain ⟨exact_data, -, room, wide⟩ := (play_iff sys file.params _ file.data).mp played
    obtain ⟨positive, fits⟩ := room.resolve_left some_left
    exact ⟨file.take_data.mp exact_data, positive, fits, wide⟩
  · rintro ⟨no_more, positive, fits, wide⟩ junk
    obtain ⟨junk', same⟩ := run junk
    rw [same]
    exact (play_iff sys file.params _ file.data).mpr
      ⟨file.take_data.mpr no_more, bytesPerFrame_pos positive, .inr ⟨positive, fits⟩, wide⟩

end ImxTest.Dsd
