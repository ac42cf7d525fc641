import ImxTest.Asrc.Chunks

/-! Which well-formed WAV files the parser accepts. -/
namespace ImxTest.Asrc

open Lib While BitString

/-! ## Well-formed files -/

/-- A byte of padding behind an odd number of bytes. -/
def padded (body : List UInt8) (pad : UInt8) : List UInt8 := if body.length % 2 = 0 then body else body ++ [pad]

/-- A chunk that is neither the format nor the data. -/
structure WavChunk where
  id : List UInt8
  body : List UInt8
  pad : UInt8
  id_length : id.length = 4
  other : id ≠ fmt ∧ id ≠ data

def WavChunk.bytes (c : WavChunk) : List UInt8 := c.id ++ (littleEndian 4 c.body.length ++ padded c.body c.pad)

def chunkBytes (chunks : List WavChunk) : List UInt8 := chunks.flatMap WavChunk.bytes

/-- What is in a file. -/
structure WavParts where
  before : List WavChunk
  channels : Nat
  sampleRate : Nat
  bits : Nat
  between : List WavChunk
  samples : List UInt8
  pad : UInt8
  after : List WavChunk

namespace WavParts
variable (w : WavParts)

/-- Every sample in whole bytes. -/
def blockAlign : Nat := w.channels * ((w.bits + 7) / 8)

def formatBody : List UInt8 :=
  littleEndian 2 1 ++ (littleEndian 2 w.channels ++ (littleEndian 4 w.sampleRate ++
    (littleEndian 4 (w.sampleRate * w.blockAlign : Nat) ++ (littleEndian 2 w.blockAlign ++ littleEndian 2 w.bits))))

def formatChunk : List UInt8 := fmt ++ (littleEndian 4 16 ++ w.formatBody)

def dataChunk : List UInt8 := data ++ (littleEndian 4 w.samples.length ++ padded w.samples w.pad)

def WAVE : List UInt8 := [0x57, 0x41, 0x56, 0x45]

def form : List UInt8 :=
  WAVE ++ (chunkBytes w.before ++ (w.formatChunk ++ (chunkBytes w.between ++ (w.dataChunk ++ chunkBytes w.after))))

def bytes : List UInt8 := RIFF ++ (littleEndian 4 w.form.length ++ w.form)

def formatStart : Nat := 12 + (chunkBytes w.before).length

def dataTag : Nat := w.formatStart + 24 + (chunkBytes w.between).length

def dataStart : Nat := w.dataTag + 8

end WavParts

/-- A file whose numbers fit in their fields. -/
structure WavFile extends WavParts where
  channels_pos : 0 < channels
  bits_pos : 0 < bits
  blockAlign_lt : toWavParts.blockAlign < 2 ^ 16
  bits_lt : bits < 2 ^ 16
  byteRate_lt : sampleRate * toWavParts.blockAlign < 2 ^ 32
  form_lt : toWavParts.form.length < 2 ^ 32

/-- Widths of a sample that the parser has a format for. -/
def Supported (bits : Nat) : Prop := bits = 8 ∨ bits = 16 ∨ bits = 20 ∨ bits = 24 ∨ bits = 32

/-! ## From chunk to chunk -/

/-- The searches skip the chunk as it is. -/
def WavChunk.Even (c : WavChunk) : Prop := c.body.length % 2 = 0 ∧ c.body.length < 2 ^ 31

instance (c : WavChunk) : Decidable c.Even := inferInstanceAs (Decidable (_ ∧ _))

section Leads
variable (file tag : List UInt8) (target : Nat)

/-- Every chunk is skipped as it is, or the search goes astray behind the first one that is not
and comes to the tag all the same. -/
def Leads : List WavChunk → (pos : Nat) → (size last : List UInt8) → Prop
  | [], _, size, last => last = size
  | c :: chunks, pos, _, last =>
    let size := littleEndian 4 c.body.length
    if c.Even then Leads chunks (pos + c.bytes.length) size last
    else
      let next := fseek (pos + 8) (signed size)
      next + 4 ≤ file.length ∧ Hops file tag next size target last

variable {file tag target} {pos : Nat} {size last : List UInt8}

theorem padded_even {body : List UInt8} {pad : UInt8} (even : body.length % 2 = 0) : padded body pad = body :=
  if_pos even

theorem WavChunk.Even.length {c : WavChunk} (even : c.Even) : c.bytes.length = 8 + c.body.length := by
  rw [WavChunk.bytes, padded_even even.1, List.length_append, List.length_append, c.id_length, littleEndian_length]
  omega

theorem hop_chunk {c : WavChunk} {rest front : List UInt8} (at_ : file = front ++ (c.bytes ++ rest))
    (start : pos = front.length) (size_length : size.length = 4) :
    hop file pos size =
      (fseek (pos + 8) (signed (littleEndian 4 c.body.length)), littleEndian 4 c.body.length) := by
  have field : bytesAt file (pos + 4) 4 = littleEndian 4 c.body.length := by
    refine bytesAt_mid (front ++ c.id) (padded c.body c.pad ++ rest) ?_ ?_ ?_
    · simp only [at_, WavChunk.bytes, List.append_assoc]
    · rw [List.length_append, c.id_length, start]
    · rw [littleEndian_length]
  have inside : pos + 4 + size.length ≤ file.length := by
    have length := congrArg List.length field
    rw [bytesAt_length, littleEndian_length] at length
    omega
  simp only [hop, fread_whole inside, size_length, field]

theorem leads_odd {c : WavChunk} {chunks : List WavChunk} (odd : ¬ c.Even) :
    Leads file tag target (c :: chunks) pos size last ↔
      fseek (pos + 8) (signed (littleEndian 4 c.body.length)) + 4 ≤ file.length ∧
        Hops file tag (fseek (pos + 8) (signed (littleEndian 4 c.body.length))) (littleEndian 4 c.body.length) target last := by
  simp only [Leads, if_neg odd]

/-- A search over chunks comes to the tag behind them when they lead there. -/
theorem hops_chunks {chunks : List WavChunk} {front rest : List UInt8} (tag_length : tag.length = 4)
    (other : ∀ c ∈ chunks, c.id ≠ tag) (at_ : file = front ++ (chunkBytes chunks ++ (tag ++ rest)))
    (start : pos = front.length) (end_ : target = pos + (chunkBytes chunks).length) (size_length : size.length = 4) :
    Hops file tag pos size target last ↔ Leads file tag target chunks pos size last := by
  induction chunks generalizing front pos size with
  | nil =>
    have here : bytesAt file pos 4 = tag := bytesAt_mid _ _ at_ start tag_length.symm
    obtain rfl : target = pos := end_
    constructor
    · intro hops
      cases hops with
      | here => rfl
      | on other' => exact absurd here other'
    · rintro rfl
      exact .here here
  | cons c chunks ih =>
    have at_c : file = front ++ (c.bytes ++ (chunkBytes chunks ++ (tag ++ rest))) := by
      rw [at_, chunkBytes, List.flatMap_cons, List.append_assoc]
      rfl
    have id : bytesAt file pos 4 = c.id := by
      refine bytesAt_mid _ (littleEndian 4 c.body.length ++ padded c.body c.pad ++
        (chunkBytes chunks ++ (tag ++ rest))) ?_ start c.id_length.symm
      simp only [at_c, WavChunk.bytes, List.append_assoc]
    have unlike : bytesAt file pos 4 ≠ tag := id ▸ other c List.mem_cons_self
    have hopped := hop_chunk at_c start size_length
    have step : Hops file tag pos size target last ↔
        (hop file pos size).1 + 4 ≤ file.length ∧ Hops file tag (hop file pos size).1 (hop file pos size).2 target last := by
      constructor
      · intro hops
        cases hops with
        | here found => exact absurd found unlike
        | on _ inside rest => exact ⟨inside, rest⟩
      · exact fun ⟨inside, rest⟩ => .on unlike inside rest
    rw [step, hopped]
    by_cases even : c.Even
    · have length := even.length
      have next : fseek (pos + 8) (signed (littleEndian 4 c.body.length)) = pos + c.bytes.length := by
        rw [(signed_size _ (by have := even.2; omega)).mpr even.2, fseek, if_pos (by omega)]
        omega
      have inside : pos + c.bytes.length + 4 ≤ file.length := by
        rw [at_c]
        simp only [List.length_append, tag_length]
        omega
      have total : (chunkBytes (c :: chunks)).length = c.bytes.length + (chunkBytes chunks).length := by
        rw [chunkBytes, List.flatMap_cons, List.length_append]
        rfl
      have at_next : file = (front ++ c.bytes) ++ (chunkBytes chunks ++ (tag ++ rest)) := by
        rw [at_c, List.append_assoc]
      have start_next : pos + c.bytes.length = (front ++ c.bytes).length := by rw [List.length_append, start]
      have rest := ih (fun d mem => other d (List.mem_cons_of_mem c mem)) at_next start_next (by omega)
        (littleEndian_length 4 c.body.length)
      simp only [Leads, if_pos even, next, inside, true_and, rest]
    · exact (leads_odd even).symm

/-- Even chunks lead to what is behind them. -/
theorem leads_even {chunks : List WavChunk} (even : ∀ c ∈ chunks, c.Even) :
    ∃ last, Leads file tag target chunks pos size last := by
  induction chunks generalizing pos size with
  | nil => exact ⟨size, rfl⟩
  | cons c chunks ih =>
    obtain ⟨last, leads⟩ := @ih (pos + c.bytes.length) (littleEndian 4 c.body.length)
      fun d mem => even d (List.mem_cons_of_mem c mem)
    exact ⟨last, by rw [Leads, if_pos (even c List.mem_cons_self)]; exact leads⟩

end Leads

/-! ## Acceptance -/

/-- Where the stream is when the header of the data chunk has been read. -/
def streamEnd (file inputDataLen : List UInt8) (c : Cursor) : Nat :=
  let pos := fseek (fread file c.pos inputDataLen).2 (-8)
  pos + (bytesAt file pos 8).length

/-- The parser finds the format and the data, leaves the stream at the first byte of the data and
sets the length of the data; it takes the file if it has a format for the samples. -/
def Accepts (w : WavFile) (l : Locals) (info : AudioInfo) : Prop :=
  ∃ riff format found r h info', Finds w.bytes RIFF (startRiff w.bytes l) riff ∧
    Finds w.bytes fmt (readRiff w.bytes riff).2 format ∧ format.pos = w.formatStart + 4 ∧
    Finds w.bytes data (readFmt w.bytes l.formatSize format).2.2 found ∧ found.pos = w.dataTag + 4 ∧
    streamEnd w.bytes info.inputDataLen found = w.dataStart ∧
    Settles (headerParser w.bytes l info) (.ok (r, h, info')) ∧ signed info'.inputDataLen = w.samples.length ∧
    (Supported w.bits → r = 1)

/-- The sizes lead from the first chunk to the format and from there to the data. -/
def WavFile.LeadsOn (w : WavFile) (size : List UInt8) : Prop :=
  ∃ last last', Leads w.bytes fmt w.formatStart w.before 12 size last ∧
    Leads w.bytes data w.dataTag w.between (w.formatStart + 24) last last'

namespace WavFile
variable (w : WavFile)

theorem formatBody_length : w.formatBody.length = 16 := by
  simp only [WavParts.formatBody, List.length_append, littleEndian_length]

theorem formatChunk_length : w.formatChunk.length = 24 := by
  rw [WavParts.formatChunk, List.length_append, List.length_append, littleEndian_length, formatBody_length]
  rfl

/-- What is in front of the chunks. -/
def front : List UInt8 := RIFF ++ (littleEndian 4 w.form.length ++ WavParts.WAVE)

theorem front_length : w.front.length = 12 := by
  rw [front, List.length_append, List.length_append, littleEndian_length]
  rfl

theorem bytes_before : w.bytes = w.front ++ (chunkBytes w.before ++ (w.formatChunk ++
    (chunkBytes w.between ++ (w.dataChunk ++ chunkBytes w.after)))) := by
  simp only [WavParts.bytes, WavParts.form, front, List.append_assoc]

theorem bytes_length : 16 ≤ w.bytes.length ∧ w.formatStart + 32 ≤ w.bytes.length ∧
    w.dataStart + w.samples.length ≤ w.bytes.length := by
  have short : w.samples.length ≤ (padded w.samples w.pad).length := by
    unfold padded
    split_ifs
    · exact le_refl _
    · rw [List.length_append]
      omega
  have data_length : data.length = 4 := rfl
  simp only [bytes_before, List.length_append, front_length, formatChunk_length, WavParts.dataChunk,
    littleEndian_length, WavParts.formatStart, WavParts.dataStart, WavParts.dataTag, data_length]
  omega

theorem samples_lt : w.samples.length < 2 ^ 32 := by
  have inside := w.bytes_length.2.2
  have small := w.form_lt
  have length : w.bytes.length = 8 + w.form.length := by
    rw [WavParts.bytes, List.length_append, List.length_append, littleEndian_length]
    have riff_length : RIFF.length = 4 := rfl
    omega
  have start : 12 ≤ w.dataStart := by
    unfold WavParts.dataStart WavParts.dataTag WavParts.formatStart
    omega
  omega

end WavFile

/-! ### The searches -/

section Parser
variable {w : WavFile} {l : Locals} {info : AudioInfo} {found : Cursor} {last : List UInt8}

theorem finds_riff (w : WavFile) (l : Locals) :
    Finds w.bytes RIFF (startRiff w.bytes l) (tagCursor w.bytes 0 l.chunkSize) := by
  have inside := w.bytes_length.1
  have start : startRiff w.bytes l = tagCursor w.bytes 0 l.chunkSize := read_tag _ (by omega) l.chunkId_length
  have found : bytesAt w.bytes 0 4 = RIFF := bytesAt_mid [] _ rfl rfl rfl
  rw [start]
  exact (Hops.here found).finds (by omega)

theorem readRiff_tag (w : WavFile) (size : List UInt8) : readRiff w.bytes (tagCursor w.bytes 0 size) =
    (bytesAt w.bytes 0 12, tagCursor w.bytes 12 size) := by
  have inside := w.bytes_length.1
  have got : (bytesAt w.bytes 0 12).length = 12 := by
    rw [bytesAt_length]
    omega
  have tag_there : 0 + 4 ≤ w.bytes.length := by omega
  have next_there : 0 + (bytesAt w.bytes 0 12).length + 4 ≤ w.bytes.length := by omega
  have next := read_tag size next_there (tagCursor_id size tag_there)
  rw [got] at next
  rw [← next, ← got]
  rfl

theorem finds_fmt_iff (l : Locals) : Finds w.bytes fmt (tagCursor w.bytes 12 l.chunkSize) found ∧
    found.pos = w.formatStart + 4 ↔ ∃ last, Leads w.bytes fmt w.formatStart w.before 12 l.chunkSize last ∧
      found = tagCursor w.bytes w.formatStart last := by
  have inside := w.bytes_length.1
  have at_ : w.bytes = w.front ++ (chunkBytes w.before ++ (fmt ++ (littleEndian 4 16 ++ w.formatBody ++
      (chunkBytes w.between ++ (w.dataChunk ++ chunkBytes w.after))))) := by
    simp only [w.bytes_before, WavParts.formatChunk, List.append_assoc]
  have hops (last : List UInt8) : Hops w.bytes fmt 12 l.chunkSize w.formatStart last ↔
      Leads w.bytes fmt w.formatStart w.before 12 l.chunkSize last :=
    hops_chunks rfl (fun c _ => c.other.1) at_ w.front_length.symm rfl l.chunkSize_length
  rw [finds_iff (by omega)]
  constructor
  · rintro ⟨⟨target, last, there, rfl⟩, at_⟩
    obtain rfl : target = w.formatStart := Nat.add_right_cancel at_
    exact ⟨last, (hops last).mp there, rfl⟩
  · rintro ⟨last, leads, rfl⟩
    exact ⟨⟨w.formatStart, last, (hops last).mpr leads, rfl⟩, rfl⟩

theorem readFmt_tag (w : WavFile) {formatSize : List UInt8} (length : formatSize.length = 4) (last : List UInt8) :
    readFmt w.bytes formatSize (tagCursor w.bytes w.formatStart last) =
      (16, w.formatChunk, tagCursor w.bytes (w.formatStart + 24) last) := by
  have inside := w.bytes_length.2.1
  have size : bytesAt w.bytes (w.formatStart + 4) 4 = littleEndian 4 16 := by
    refine bytesAt_mid (w.front ++ (chunkBytes w.before ++ fmt))
      (w.formatBody ++ (chunkBytes w.between ++ (w.dataChunk ++ chunkBytes w.after))) ?_ ?_ rfl
    · simp only [w.bytes_before, WavParts.formatChunk, List.append_assoc]
    · simp only [List.length_append, w.front_length, WavParts.formatStart, Nat.add_assoc]
      rfl
  have chunk : bytesAt w.bytes w.formatStart 24 = w.formatChunk := by
    refine bytesAt_mid (w.front ++ chunkBytes w.before)
      (chunkBytes w.between ++ (w.dataChunk ++ chunkBytes w.after)) ?_ ?_ w.formatChunk_length.symm
    · simp only [w.bytes_before, List.append_assoc]
    · rw [List.length_append, w.front_length]
      rfl
  have first : fread w.bytes (tagCursor w.bytes w.formatStart last).pos formatSize =
      (littleEndian 4 16, w.formatStart + 8) := by
    change fread w.bytes (w.formatStart + 4) formatSize = _
    rw [fread_whole (by omega), length, size]
  have sixteen : signed (littleEndian 4 16) = 16 := by decide
  have back : fseek (w.formatStart + 8) (-8) = w.formatStart := by
    rw [fseek, if_pos (by omega)]
    omega
  have count : sizeT (16 + 8) = 24 := by decide
  have tag_there : w.formatStart + 4 ≤ w.bytes.length := by omega
  have next_there : w.formatStart + 24 + 4 ≤ w.bytes.length := by omega
  have next := read_tag last next_there (tagCursor_id last tag_there)
  unfold readFmt
  rw [first]
  simp only [sixteen, back, count, chunk, w.formatChunk_length]
  rw [← next]
  rfl

theorem finds_data_iff (last : List UInt8) (length : last.length = 4) :
    Finds w.bytes data (tagCursor w.bytes (w.formatStart + 24) last) found ∧ found.pos = w.dataTag + 4 ↔
      ∃ last', Leads w.bytes data w.dataTag w.between (w.formatStart + 24) last last' ∧
        found = tagCursor w.bytes w.dataTag last' := by
  have inside := w.bytes_length.2.1
  have at_ : w.bytes = (w.front ++ (chunkBytes w.before ++ w.formatChunk)) ++ (chunkBytes w.between ++ (data ++
      (littleEndian 4 w.samples.length ++ padded w.samples w.pad ++ chunkBytes w.after))) := by
    simp only [w.bytes_before, WavParts.dataChunk, List.append_assoc]
  have start : w.formatStart + 24 = (w.front ++ (chunkBytes w.before ++ w.formatChunk)).length := by
    simp only [List.length_append, w.front_length, w.formatChunk_length, WavParts.formatStart]
    omega
  have hops (last' : List UInt8) : Hops w.bytes data (w.formatStart + 24) last w.dataTag last' ↔
      Leads w.bytes data w.dataTag w.between (w.formatStart + 24) last last' :=
    hops_chunks rfl (fun c _ => c.other.2) at_ start rfl length
  rw [finds_iff (by omega)]
  constructor
  · rintro ⟨⟨target, last', there, rfl⟩, at_⟩
    obtain rfl : target = w.dataTag := Nat.add_right_cancel at_
    exact ⟨last', (hops last').mp there, rfl⟩
  · rintro ⟨last', leads, rfl⟩
    exact ⟨⟨w.dataTag, last', (hops last').mpr leads, rfl⟩, rfl⟩

theorem readData_tag (w : WavFile) {old : List UInt8} (length : old.length = 4) (last : List UInt8) :
    readData w.bytes old (tagCursor w.bytes w.dataTag last) =
      (littleEndian 4 w.samples.length, bytesAt w.bytes w.dataTag 8) ∧
    streamEnd w.bytes old (tagCursor w.bytes w.dataTag last) = w.dataStart := by
  have inside : w.dataTag + 8 ≤ w.bytes.length := (Nat.le_add_right _ _).trans w.bytes_length.2.2
  have size : bytesAt w.bytes (w.dataTag + 4) 4 = littleEndian 4 w.samples.length := by
    refine bytesAt_mid (w.front ++ (chunkBytes w.before ++ (w.formatChunk ++ (chunkBytes w.between ++ data))))
      (padded w.samples w.pad ++ chunkBytes w.after) ?_ ?_ rfl
    · simp only [w.bytes_before, WavParts.dataChunk, List.append_assoc]
    · simp only [List.length_append, w.front_length, w.formatChunk_length, WavParts.dataTag, WavParts.formatStart,
        Nat.add_assoc]
      rfl
  have first : fread w.bytes (tagCursor w.bytes w.dataTag last).pos old =
      (littleEndian 4 w.samples.length, w.dataTag + 8) := by
    change fread w.bytes (w.dataTag + 4) old = _
    rw [fread_whole (by omega), length, size]
  have back : fseek (w.dataTag + 8) (-8) = w.dataTag := by
    rw [fseek, if_pos (by omega)]
    omega
  have whole : (bytesAt w.bytes w.dataTag 8).length = 8 := by
    rw [bytesAt_length]
    omega
  constructor
  · unfold readData
    rw [first]
    simp only [back]
  · unfold streamEnd
    rw [first]
    simp only [back, whole]
    rfl

end Parser

/-! ### The format -/

section Format
variable {w : WavFile} {info : AudioInfo}

theorem channels_lt (w : WavFile) : w.channels < 2 ^ 16 := by
  have width : 1 ≤ (w.bits + 7) / 8 := by
    have := w.bits_pos
    omega
  exact (Nat.le_mul_of_pos_right _ width).trans_lt w.blockAlign_lt

variable (info) in
/-- What the parser takes from the format chunk behind the first twelve bytes. -/
theorem readFormat_chunk {front rest bytes : List UInt8} (length : front.length = 12)
    (at_ : bytes = front ++ (w.formatChunk ++ rest)) : (info.readFormat bytes).inAudioformat = 1 ∧
      (info.readFormat bytes).channel = signed (littleEndian 2 w.channels) ∧
      (info.readFormat bytes).inBlockalign = w.blockAlign ∧ (info.readFormat bytes).inFrameBits = w.bits := by
  have format : bytesAt bytes (12 + 8) 2 = littleEndian 2 1 := by
    refine bytesAt_mid (front ++ (fmt ++ littleEndian 4 16)) (littleEndian 2 w.channels ++
      (littleEndian 4 w.sampleRate ++ (littleEndian 4 (w.sampleRate * w.blockAlign : Nat) ++
        (littleEndian 2 w.blockAlign ++ (littleEndian 2 w.bits ++ rest))))) ?_ ?_ rfl
    · simp only [at_, WavParts.formatChunk, WavParts.formatBody, List.append_assoc]
    · simp only [List.length_append, littleEndian_length, length]
      rfl
  have channels : bytesAt bytes (12 + 8 + 2) 2 = littleEndian 2 w.channels := by
    refine bytesAt_mid (front ++ (fmt ++ (littleEndian 4 16 ++ littleEndian 2 1)))
      (littleEndian 4 w.sampleRate ++ (littleEndian 4 (w.sampleRate * w.blockAlign : Nat) ++
        (littleEndian 2 w.blockAlign ++ (littleEndian 2 w.bits ++ rest)))) ?_ ?_ rfl
    · simp only [at_, WavParts.formatChunk, WavParts.formatBody, List.append_assoc]
    · simp only [List.length_append, littleEndian_length, length]
      rfl
  have align : bytesAt bytes (12 + 8 + 2 + 2 + 4 + 4) 2 = littleEndian 2 w.blockAlign := by
    refine bytesAt_mid (front ++ (fmt ++ (littleEndian 4 16 ++ (littleEndian 2 1 ++ (littleEndian 2 w.channels ++
      (littleEndian 4 w.sampleRate ++ littleEndian 4 (w.sampleRate * w.blockAlign : Nat)))))))
      (littleEndian 2 w.bits ++ rest) ?_ ?_ rfl
    · simp only [at_, WavParts.formatChunk, WavParts.formatBody, List.append_assoc]
    · simp only [List.length_append, littleEndian_length, length]
      rfl
  have bits : bytesAt bytes (12 + 8 + 2 + 2 + 4 + 4 + 2) 2 = littleEndian 2 w.bits := by
    refine bytesAt_mid (front ++ (fmt ++ (littleEndian 4 16 ++ (littleEndian 2 1 ++ (littleEndian 2 w.channels ++
      (littleEndian 4 w.sampleRate ++ (littleEndian 4 (w.sampleRate * w.blockAlign : Nat) ++
        littleEndian 2 w.blockAlign)))))))
      rest ?_ ?_ rfl
    · simp only [at_, WavParts.formatChunk, WavParts.formatBody, List.append_assoc]
    · simp only [List.length_append, littleEndian_length, length]
      rfl
  refine ⟨?_, congrArg signed channels, ?_, ?_⟩
  · exact (congrArg signed format).trans (by decide)
  · exact (congrArg unsigned align).trans (unsigned_littleEndian w.blockAlign_lt)
  · exact (congrArg unsigned bits).trans (unsigned_littleEndian w.bits_lt)

/-- The parser has a format for samples in whole bytes. -/
theorem format?_isSome (pcm : info.inAudioformat = 1) (channel : info.channel = signed (littleEndian 2 w.channels))
    (align : info.inBlockalign = w.blockAlign) (bits : info.inFrameBits = w.bits) (supported : Supported w.bits) :
    info.withSlot.format?.isSome := by
  have slot (three : (w.bits + 7) / 8 = 3) : info.withSlot.inSlotwidth = 24 := by
    have small := w.blockAlign_lt
    have positive := w.channels_pos
    rw [WavParts.blockAlign, three] at small
    have channels : info.channel = w.channels := by
      rw [channel, signed_littleEndian, Int.bmod_def, if_pos (by omega)]
      omega
    change (Int.tdiv (8 * info.inBlockalign : Nat) info.channel % 2 ^ 16).toNat = 24
    have quotient : ((8 * w.blockAlign : Nat) : Int) = 24 * w.channels := by
      rw [WavParts.blockAlign, three]
      omega
    rw [align, channels, quotient, Int.mul_tdiv_cancel _ (by omega)]
    rfl
  have width : info.withSlot.inFrameBits = w.bits := bits
  have pcm : info.withSlot.inAudioformat = 1 := pcm
  unfold AudioInfo.format?
  rw [width]
  rcases supported with eight | sixteen | twenty | twentyFour | thirtyTwo
  · rw [eight]
    rfl
  · rw [sixteen]
    rfl
  · rw [twenty]
    simp only [slot (by omega), if_true, Option.isSome_some]
  · rw [twentyFour]
    simp only [slot (by omega), if_true, Option.isSome_some]
  · rw [thirtyTwo]
    simp only [pcm, if_true]
    decide

end Format

/-! ### The whole parser -/

section Whole
variable {w : WavFile} {l : Locals} {info : AudioInfo} {last last' : List UInt8}

variable (last') in
/-- What is behind the search for the data. -/
theorem finish_data (info : AudioInfo) (length : info.inputDataLen.length = 4) (h : Header) {front rest : List UInt8}
    (front_length : front.length = 12) (at_ : h.bytes = front ++ (w.formatChunk ++ rest)) :
    ∃ r h' info', finish w.bytes 16 h (info.readFormat h.bytes) (tagCursor w.bytes w.dataTag last') =
      .ok (r, h', info') ∧ info'.inputDataLen = littleEndian 4 w.samples.length ∧ (Supported w.bits → r = 1) := by
  obtain ⟨pcm, channel, align, bits⟩ := readFormat_chunk info front_length at_
  have old : (info.readFormat h.bytes).inputDataLen.length = 4 := length
  generalize info.readFormat h.bytes = format at *
  have read := (readData_tag w old last').1
  have inside := w.bytes_length.2.2
  have dataHeader : (bytesAt w.bytes w.dataTag 8).length = 8 := by
    rw [bytesAt_length]
    unfold WavParts.dataStart at inside
    omega
  have data_fits : Header.Fits (16 + 20) (bytesAt w.bytes w.dataTag 8).length := ⟨by decide, by rw [dataHeader]; decide⟩
  obtain ⟨h₁, first, -⟩ := put_fits h _ data_fits
  obtain ⟨h₂, second, -⟩ := put_fixed h₁ 24 4 format.outputSampleRate (by decide) (by decide)
  have second : h₁.put 24 (littleEndian 4 format.outputSampleRate) = .ok h₂ := second
  have some_channels : format.channel ≠ 0 := by
    have positive := w.channels_pos
    have small := channels_lt w
    rw [channel, signed_littleEndian, Int.bmod_def]
    split_ifs <;> omega
  have isSome := format?_isSome pcm channel align bits
  unfold finish
  simp only [read, first, second, bind, Except.bind, if_neg some_channels]
  split
  case h_1 => exact ⟨_, _, _, rfl, rfl, fun _ => rfl⟩
  case h_2 missing =>
    refine ⟨_, _, _, rfl, rfl, fun supported => ?_⟩
    have missing : format.withSlot.format? = none := missing
    have some_ := isSome supported
    rw [missing] at some_
    cases some_

/-- Where the chunks lead, there is one result. -/
theorem headerParser_leads (info : AudioInfo) (length : info.inputDataLen.length = 4)
    (leads : Leads w.bytes fmt w.formatStart w.before 12 l.chunkSize last)
    (leads' : Leads w.bytes data w.dataTag w.between (w.formatStart + 24) last last') (last_length : last.length = 4) :
    ∃ r h info', (∀ v, Settles (headerParser w.bytes l info) v ↔ v = .ok (r, h, info')) ∧
      info'.inputDataLen = littleEndian 4 w.samples.length ∧ (Supported w.bits → r = 1) := by
  have format_found := (finds_fmt_iff l).mpr ⟨last, leads, rfl⟩
  have data_found := (finds_data_iff last last_length).mpr ⟨last', leads', rfl⟩
  have inside := w.bytes_length
  have got : (bytesAt w.bytes 0 12).length = 12 := by
    rw [bytesAt_length]
    omega
  have riff_fits : Header.Fits 0 (bytesAt w.bytes 0 12).length := ⟨by decide, by rw [got]; decide⟩
  have format_fits : Header.Fits 12 w.formatChunk.length := ⟨by decide, by rw [w.formatChunk_length]; decide⟩
  obtain ⟨h₀, first, bytes₀⟩ := put_fits Header.empty _ riff_fits
  obtain ⟨h₁, second, bytes₁⟩ := put_fits h₀ _ format_fits
  have front_length : (h₀.bytes.take 12).length = 12 := by
    rw [List.length_take, h₀.length_eq]
    rfl
  have at_ : h₁.bytes = h₀.bytes.take 12 ++ (w.formatChunk ++ h₀.bytes.drop (12 + w.formatChunk.length)) := by
    rw [bytes₁, overlay, List.append_assoc]
    rfl
  obtain ⟨r, h, info', finished, len, taken⟩ := finish_data last' info length h₁ front_length at_
  refine ⟨r, h, info', fun v => ?_, len, taken⟩
  have riff := settles_ended (steady_afterRiff w.bytes info l) (finds_riff w l) (v := v)
  refine riff.trans ?_
  simp only [readRiff_tag, first]
  have format := settles_ended (v := v) (steady_found (pure (-1, h₀, info))
    (fun c fuel => ExceptT.mk (some (h₀.put 12 (readFmt w.bytes l.formatSize c).2.1)) >>= fun h =>
      parseData w.bytes (readFmt w.bytes l.formatSize c).1 h (info.readFormat h.bytes)
        (readFmt w.bytes l.formatSize c).2.2 fuel)
    fun c => steady_lift fun h => steady_parseData _ h _) format_found.1
  refine format.trans ?_
  simp only [readFmt_tag w l.formatSize_length, second]
  have data_ := settles_ended (v := v) (steady_found (pure (-1, h₁, info.readFormat h₁.bytes))
    (fun c _ => ExceptT.mk (some (finish w.bytes 16 h₁ (info.readFormat h₁.bytes) c)))
    fun c => steady_const _) data_found.1
  refine data_.trans ?_
  simp only [finished]
  constructor
  · rintro ⟨fuel, same⟩
    exact (Option.some.inj same).symm
  · rintro rfl
    exact ⟨0, rfl⟩

theorem tagCursor_valid {file : List UInt8} {pos : Nat} (inside : pos + 4 ≤ file.length) (length : last.length = 4) :
    (tagCursor file pos last).Valid := ⟨tagCursor_id last inside, length⟩

theorem leads_length (leads : Leads w.bytes fmt w.formatStart w.before 12 l.chunkSize last) : last.length = 4 := by
  have inside := w.bytes_length.1
  have found := ((finds_fmt_iff l).mpr ⟨last, leads, rfl⟩).1
  exact (finds_valid (tagCursor_valid (by omega) l.chunkSize_length) found).2

/-- A file that is accepted leads to the format and the data. -/
theorem Accepts.leads (accepts : Accepts w l info) : w.LeadsOn l.chunkSize := by
  obtain ⟨riff, format, found, -, -, -, riff_found, format_found, format_at, data_found, data_at, -⟩ := accepts
  obtain rfl := Option.some.inj (Except.ok.inj (riff_found.unique (finds_riff w l)))
  rw [readRiff_tag] at format_found
  obtain ⟨last, leads, rfl⟩ := (finds_fmt_iff l).mp ⟨format_found, format_at⟩
  rw [readFmt_tag w l.formatSize_length] at data_found
  obtain ⟨last', leads', -⟩ := (finds_data_iff last (leads_length leads)).mp ⟨data_found, data_at⟩
  exact ⟨last, last', leads, leads'⟩

theorem leadsOn_even {size : List UInt8} (before : ∀ c ∈ w.before, c.Even) (between : ∀ c ∈ w.between, c.Even) :
    w.LeadsOn size := by
  obtain ⟨last, leads⟩ : ∃ last, Leads w.bytes fmt w.formatStart w.before 12 size last := leads_even before
  obtain ⟨last', leads'⟩ : ∃ last', Leads w.bytes data w.dataTag w.between (w.formatStart + 24) last last' :=
    leads_even between
  exact ⟨last, last', leads, leads'⟩

end Whole

/-- A file is accepted exactly when its chunks lead to the format and the data and the size of the
data is not taken for a negative number. -/
theorem accepts_iff (w : WavFile) (l : Locals) (info : AudioInfo) (length : info.inputDataLen.length = 4) :
    Accepts w l info ↔ w.LeadsOn l.chunkSize ∧ w.samples.length < 2 ^ 31 := by
  constructor
  · intro accepts
    obtain ⟨last, last', leads, leads'⟩ := accepts.leads
    obtain ⟨_, _, _, settles, len, -⟩ := headerParser_leads info length leads leads' (leads_length leads)
    obtain ⟨-, -, -, r, h, info', -, -, -, -, -, -, settled, same, -⟩ := accepts
    obtain ⟨-, -, rfl⟩ : r = _ ∧ h = _ ∧ info' = _ := by simpa using (settles _).mp settled
    rw [len] at same
    exact ⟨⟨last, last', leads, leads'⟩, (signed_size _ w.samples_lt).mp same⟩
  · rintro ⟨⟨last, last', leads, leads'⟩, small⟩
    have last_length := leads_length leads
    obtain ⟨r, h, info', settles, len, taken⟩ := headerParser_leads info length leads leads' last_length
    have format_found := (finds_fmt_iff l).mpr ⟨last, leads, rfl⟩
    have data_found := (finds_data_iff last last_length).mpr ⟨last', leads', rfl⟩
    refine ⟨_, _, _, r, h, info', finds_riff w l, ?_, format_found.2, ?_, data_found.2, ?_,
      (settles _).mpr rfl, ?_, taken⟩
    · rw [readRiff_tag]
      exact format_found.1
    · rw [readFmt_tag w l.formatSize_length]
      exact data_found.1
    · exact (readData_tag w length last').2
    · rw [len]
      exact (signed_size _ w.samples_lt).mpr small

/-- A file with one chunk in front of the format, and four bytes of samples. -/
def listFile (body : List UInt8) (short : body.length < 8) : WavFile where
  before := [⟨[0x4c, 0x49, 0x53, 0x54], body, 0, rfl, by decide, by decide⟩]
  channels := 1
  sampleRate := 8000
  bits := 16
  between := []
  samples := [1, 2, 3, 4]
  pad := 0
  after := []
  channels_pos := by decide
  bits_pos := by decide
  blockAlign_lt := by simp [WavParts.blockAlign]
  bits_lt := by decide
  byteRate_lt := by simp [WavParts.blockAlign]
  form_lt := by
    simp only [WavParts.form, WavParts.formatChunk, WavParts.formatBody, WavParts.dataChunk, chunkBytes,
      WavChunk.bytes, List.flatMap_cons, List.flatMap_nil, List.length_append, littleEndian_length, padded]
    split_ifs <;> simp [fmt, data, WavParts.WAVE] <;> omega

def noLocals : Locals := ⟨[0, 0, 0, 0], [0, 0, 0, 0], [0, 0, 0, 0], rfl, rfl, rfl⟩

theorem accepts_even : Accepts (listFile [1, 2] (by decide)) noLocals {} :=
  (accepts_iff _ noLocals {} rfl).mpr
    ⟨leadsOn_even (by simp [listFile, WavChunk.Even]) (by simp [listFile]), by decide⟩

/-- The size is taken from behind the tag of the format, and the file has ended there. -/
theorem not_accepts_odd : ¬ Accepts (listFile [1] (by decide)) noLocals {} := by
  intro accepts
  obtain ⟨last, last', leads, -⟩ := accepts.leads
  have odd : ¬ WavChunk.Even ⟨[0x4c, 0x49, 0x53, 0x54], [1], 0, rfl, by decide, by decide⟩ := fun even => by
    simp [WavChunk.Even] at even
  obtain ⟨-, astray⟩ := (leads_odd odd).mp leads
  have at_ : fseek (12 + 8) (signed (littleEndian 4 ([1] : List UInt8).length)) = 21 := by decide +kernel
  rw [at_] at astray
  have other : bytesAt (listFile [1] (by decide)).bytes 21 4 ≠ fmt := by decide +kernel
  have beyond : ¬ (hop (listFile [1] (by decide)).bytes 21 (littleEndian 4 1)).1 + 4 ≤
      (listFile [1] (by decide)).bytes.length := by decide +kernel
  exact astray.here_or_inside.elim other beyond

end ImxTest.Asrc
