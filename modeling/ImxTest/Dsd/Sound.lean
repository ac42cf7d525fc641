import ImxTest.Dsd.Device
import ImxTest.Dsd.Forms
import ImxTest.Lib.While

/-! What the device takes of a file: the audio that is in the file, as the frames of the stream. -/
namespace ImxTest.Dsd

open Lib Reading Loops While

/-! ## Writing -/

section Write
variable {δ : Type} {pcm : Pcm δ} {bytesPerFrame : Nat}

theorem pcmWrite_played {fuel : Nat} {s t : Stream δ} {data : List UInt8} {count : Nat}
    (length : data.length = count * bytesPerFrame)
    (ended : (pcmWrite pcm bytesPerFrame fuel s data count).run = some (.ok t)) : t.played = s.played ++ data := by
  induction fuel generalizing s data count with
  | zero => cases ended
  | succ fuel ih =>
    rw [pcmWrite] at ended
    split_ifs at ended with none_left
    · obtain rfl : s = t := Except.ok.inj (Option.some.inj ended)
      rw [none_left, Nat.zero_mul, List.length_eq_zero_iff] at length
      rw [length, List.append_nil]
    · cases answer : pcm.writei s.dev data count with
      | mk d written =>
        rw [answer] at ended
        cases written with
        | frames n =>
          have rest := ih (by rw [List.length_drop, length, Nat.sub_mul]) ended
          rw [rest, List.append_assoc, List.take_append_drop]
        | EAGAIN => exact ih (s := ⟨pcm.wait d, s.played⟩) length ended
        | EPIPE =>
          obtain ⟨d', -, ended⟩ := bind_ok ended
          exact ih (s := ⟨d', s.played⟩) length ended
        | ESTRPIPE =>
          obtain ⟨d', -, ended⟩ := bind_ok ended
          exact ih (s := ⟨d', s.played⟩) length ended
        | error => cases ended

/-- A device that takes what it is given in time: an answer of no frames lowers the rank, and what
the player does about it works and does not raise it. -/
structure Serves (pcm : Pcm δ) (rank : δ → Nat) : Prop where
  takes : ∀ d data count, 0 < count →
    (∃ n, (pcm.writei d data count).2 = .frames (n + 1)) ∨ rank (pcm.writei d data count).1 < rank d
  works : ∀ d data count, (pcm.writei d data count).2 ≠ .error
  waits : ∀ d, rank (pcm.wait d) ≤ rank d
  recovers : ∀ d data count, (pcm.writei d data count).2 = .EPIPE →
    ∃ d', xrun pcm (pcm.writei d data count).1 = .ok d' ∧ rank d' ≤ rank (pcm.writei d data count).1
  resumes : ∀ d, match pcm.resume d with
    | (d', .EAGAIN) => rank d' < rank d
    | (d', .ok) => rank d' ≤ rank d
    | (d', .error) => (pcm.prepare d').2 = true ∧ rank (pcm.prepare d').1 ≤ rank d

variable {rank : δ → Nat} (serves : Serves pcm rank)
include serves

theorem Serves.suspend (d : δ) : ∃ d', rank d' ≤ rank d ∧ Comes (fun fuel => suspend pcm fuel d) (.ok d') := by
  induction high : rank d using Nat.strong_induction_on generalizing d with
  | _ n ih =>
    have resumed := serves.resumes d
    cases answer : pcm.resume d with
    | mk d₁ state =>
      rw [answer] at resumed
      cases state with
      | EAGAIN =>
        obtain ⟨d', lower, comes⟩ := ih _ (high ▸ resumed) d₁ rfl
        refine ⟨d', by omega, comes.succ fun fuel => ?_⟩
        rw [Dsd.suspend, answer]
      | ok =>
        refine ⟨d₁, high ▸ resumed, (Comes.const rfl).succ fun fuel => ?_⟩
        rw [Dsd.suspend, answer]
        rfl
      | error =>
        obtain ⟨prepared, lower⟩ := resumed
        refine ⟨(pcm.prepare d₁).1, high ▸ lower, (Comes.const rfl).succ fun fuel => ?_⟩
        rw [Dsd.suspend, answer]
        simp only [prepared]
        rfl

theorem Serves.pcmWrite (s : Stream δ) (data : List UInt8) (count : Nat) :
    ∃ t, Comes (fun fuel => pcmWrite pcm bytesPerFrame fuel s data count) (.ok t) := by
  -- what is left to write comes first, then the rank of the device
  induction count using Nat.strong_induction_on generalizing s data with
  | _ count more =>
    induction high : rank s.dev using Nat.strong_induction_on generalizing s with
    | _ n ih =>
      by_cases none_left : count = 0
      · refine ⟨s, (Comes.const rfl).succ fun fuel => ?_⟩
        rw [Dsd.pcmWrite, if_pos none_left]
        rfl
      · have takes := serves.takes s.dev data count (Nat.pos_of_ne_zero none_left)
        have works := serves.works s.dev data count
        have recovers := serves.recovers s.dev data count
        cases answer : pcm.writei s.dev data count with
        | mk d written =>
          rw [answer] at takes works recovers
          cases written with
          | frames k =>
            cases k with
            | zero =>
              have lower : rank d < n := high ▸ takes.resolve_left fun ⟨_, same⟩ => by cases same
              have waited := serves.waits d
              obtain ⟨t, comes⟩ := ih (rank (pcm.wait d)) (by omega) ⟨pcm.wait d, s.played⟩ rfl
              refine ⟨t, comes.succ fun fuel => ?_⟩
              rw [Dsd.pcmWrite, if_neg none_left, answer]
              simp only [if_pos (Nat.pos_of_ne_zero none_left), Nat.zero_mul, List.take_zero, List.append_nil,
                List.drop_zero, Nat.sub_zero]
            | succ k =>
              obtain ⟨t, comes⟩ := more (count - (k + 1)) (by omega)
                ⟨if k + 1 < count then pcm.wait d else d, s.played ++ data.take ((k + 1) * bytesPerFrame)⟩
                (data.drop ((k + 1) * bytesPerFrame))
              refine ⟨t, comes.succ fun fuel => ?_⟩
              rw [Dsd.pcmWrite, if_neg none_left, answer]
          | EAGAIN =>
            have lower : rank d < n := high ▸ takes.resolve_left fun ⟨_, same⟩ => by cases same
            have waited := serves.waits d
            obtain ⟨t, comes⟩ := ih (rank (pcm.wait d)) (by omega) ⟨pcm.wait d, s.played⟩ rfl
            refine ⟨t, comes.succ fun fuel => ?_⟩
            rw [Dsd.pcmWrite, if_neg none_left, answer]
          | EPIPE =>
            have lower : rank d < n := high ▸ takes.resolve_left fun ⟨_, same⟩ => by cases same
            obtain ⟨d', recovered, kept⟩ := recovers rfl
            obtain ⟨t, comes⟩ := ih (rank d') (by simp only at kept; omega) ⟨d', s.played⟩ rfl
            refine ⟨t, comes.succ fun fuel => ?_⟩
            rw [Dsd.pcmWrite, if_neg none_left, answer]
            simp only at recovered
            simp only [recovered]
            rfl
          | ESTRPIPE =>
            have lower : rank d < n := high ▸ takes.resolve_left fun ⟨_, same⟩ => by cases same
            obtain ⟨d', kept, suspended⟩ := serves.suspend d
            obtain ⟨t, comes⟩ := ih (rank d') (by omega) ⟨d', s.played⟩ rfl
            have both : Comes (fun fuel => Dsd.suspend pcm fuel d >>= fun d' =>
                Dsd.pcmWrite pcm bytesPerFrame fuel ⟨d', s.played⟩ data count) (.ok t) := suspended.bind comes
            refine ⟨t, both.succ fun fuel => ?_⟩
            rw [Dsd.pcmWrite, if_neg none_left, answer]
          | error => exact absurd rfl works

end Write

/-! ## The loop -/

section Player
variable {δ : Type} {pcm : Pcm δ} {interleave : Interleave} {params : DsdParams} {dest : List UInt8}
  {out : List UInt8 → List UInt8} {blocks : List Block}

/-- What the interleave function makes of the blocks. -/
def Interleaves (interleave : Interleave) (params : DsdParams) (dest : List UInt8) (out : List UInt8 → List UInt8)
    (blocks : List Block) : Prop :=
  ∀ b ∈ blocks, interleave dest (b.buffer params.bitsPerSample) (UInt32.ofNat params.channelNum) =
    .ok (out (b.buffer params.bitsPerSample)) ∧
      (out (b.buffer params.bitsPerSample)).length = frameCount params * bytesPerFrame params.channelNum

theorem writeBlocks_played {fuel : Nat} {s t : Stream δ} (interleaves : Interleaves interleave params dest out blocks)
    (ended : (writeBlocks pcm interleave params dest fuel blocks s).run = some (.ok t)) :
    t.played = s.played ++ (blocks.map (Block.buffer params.bitsPerSample)).flatMap out := by
  induction blocks generalizing s with
  | nil =>
    obtain rfl : s = t := Except.ok.inj (Option.some.inj ended)
    exact (List.append_nil _).symm
  | cons b blocks ih =>
    obtain ⟨⟨same, length⟩, behind⟩ := List.forall_mem_cons.mp interleaves
    rw [writeBlocks, same] at ended
    obtain ⟨interleaved, here, ended⟩ := bind_ok ended
    obtain rfl := Except.ok.inj (Option.some.inj here)
    obtain ⟨u, written, ended⟩ := bind_ok ended
    rw [ih behind ended, pcmWrite_played length written, List.map_cons, List.flatMap_cons, List.append_assoc]

theorem Serves.writeBlocks {rank : δ → Nat} (serves : Serves pcm rank) (s : Stream δ)
    (interleaves : Interleaves interleave params dest out blocks) :
    ∃ t, Comes (fun fuel => writeBlocks pcm interleave params dest fuel blocks s) (.ok t) := by
  induction blocks generalizing s with
  | nil => exact ⟨s, .const rfl⟩
  | cons b blocks ih =>
    obtain ⟨⟨same, -⟩, behind⟩ := List.forall_mem_cons.mp interleaves
    obtain ⟨u, written⟩ := @Serves.pcmWrite _ _ (bytesPerFrame params.channelNum) _ serves s
      (out (b.buffer params.bitsPerSample)) (frameCount params)
    obtain ⟨t, rest⟩ := ih u behind
    have both : Comes (fun fuel => Dsd.pcmWrite pcm (bytesPerFrame params.channelNum) fuel s
        (out (b.buffer params.bitsPerSample)) (frameCount params) >>= fun u =>
          Dsd.writeBlocks pcm interleave params dest fuel blocks u) (.ok t) := written.bind rest
    refine ⟨t, ?_⟩
    simp only [Dsd.writeBlocks, same]
    exact both

/-- The frames that are missing to a whole period. -/
def missing (writesize chunkSize : Nat) : Nat := (chunkSize - writesize % chunkSize) % chunkSize

theorem writeRest_played {fuel writesize chunkSize : Nat} {s t : Stream δ}
    (ended : (writeRest pcm params writesize chunkSize fuel s).run = some (.ok t)) :
    t.played = s.played ++ List.replicate (missing writesize chunkSize * bytesPerFrame params.channelNum) 0 := by
  unfold writeRest at ended
  split_ifs at ended with none_in part
  · cases ended
  · have rest : missing writesize chunkSize = chunkSize - writesize % chunkSize :=
      Nat.mod_eq_of_lt (by omega)
    rw [rest]
    exact pcmWrite_played List.length_replicate ended
  · obtain rfl : s = t := Except.ok.inj (Option.some.inj ended)
    have rest : missing writesize chunkSize = 0 := by
      rw [missing, not_not.mp part, Nat.sub_zero, Nat.mod_self]
    rw [rest, Nat.zero_mul]
    exact (List.append_nil _).symm

theorem Serves.writeRest {rank : δ → Nat} (serves : Serves pcm rank) (s : Stream δ) (writesize : Nat) {chunkSize : Nat}
    (some_in : chunkSize ≠ 0) :
    ∃ t, Comes (fun fuel => writeRest pcm params writesize chunkSize fuel s) (.ok t) := by
  unfold Dsd.writeRest
  by_cases part : writesize % chunkSize ≠ 0
  · simp only [if_neg some_in, if_pos part]
    exact serves.pcmWrite ..
  · simp only [if_neg some_in, if_neg part]
    exact ⟨s, .const rfl⟩

end Player

/-! ## The program -/

section Run
variable {δ : Type} {pcm : Pcm δ} {sys : System} {parser : FileParser} {params : DsdParams}
  {openStream : (rate channels : Nat) → Except Stop (δ × Nat)} {dest : List UInt8} {t u v : Tape}
  {out : List UInt8 → List UInt8} {blocks : List Block}

/-- The reader gets to the data in so many turns. -/
def Finds (parser : FileParser) (t : Tape) (params : DsdParams) (u : Tape) : Prop :=
  ∃ turns, ∀ fuel, parser.readFile fuel t = .ok (params, u) ∨ fuel < turns ∧ Stalls (parser.readFile fuel t)

/-- A program that ends has given the device the stream and nothing else, and with a device that
serves it ends. -/
structure Sounds (pcm : Pcm δ) (openStream : (rate channels : Nat) → Except Stop (δ × Nat)) (rate channels : Nat)
    (program : (fuel : Nat) → ExceptT Stop Option (Stream δ)) (stream : (period : Nat) → List UInt8) : Prop where
  hears : ∀ {fuel s}, (program fuel).run = some (.ok s) →
    ∃ d period, openStream rate channels = .ok (d, period) ∧ s.played = stream period
  ends : ∀ {rank : δ → Nat} {d period}, Serves pcm rank → openStream rate channels = .ok (d, period) →
    period ≠ 0 → (pcm.prepare d).2 = true → ∃ s, Comes program (.ok s)

theorem sounds_of_blocks (finds : Finds parser t params u) (played : play sys params u = .ok (blocks, v))
    (interleaves : Interleaves parser.interleave params dest out blocks) :
    Sounds pcm openStream (params.samplingFreq / formatWidth) params.channelNum
      (fun fuel => player pcm sys parser openStream dest fuel t)
      fun period => (blocks.map (Block.buffer params.bitsPerSample)).flatMap out ++
        List.replicate (missing (blocks.length * frameCount params) period * bytesPerFrame params.channelNum) 0 := by
  obtain ⟨turns, found⟩ := finds
  constructor
  · intro fuel s ended
    unfold player at ended
    obtain ⟨⟨params', u'⟩, read, ended⟩ := bind_ok ended
    have read := Option.some.inj read
    rcases found fuel with here | ⟨-, e, -, failed⟩
    · obtain ⟨rfl, rfl⟩ := Prod.mk.inj (Except.ok.inj (here.symm.trans read))
      obtain ⟨⟨d, period⟩, opened, ended⟩ := bind_ok ended
      refine ⟨d, period, Option.some.inj opened, ?_⟩
      simp only at ended
      split_ifs at ended
      · cases ended
      obtain ⟨-, -, ended⟩ := bind_ok ended
      obtain ⟨⟨blocks', v'⟩, same, ended⟩ := bind_ok ended
      obtain ⟨rfl, -⟩ := Prod.mk.inj (Except.ok.inj (played.symm.trans (Option.some.inj same)))
      obtain ⟨w, written, ended⟩ := bind_ok ended
      rw [writeRest_played ended, writeBlocks_played interleaves written]
      rfl
    · cases failed.symm.trans read
  · intro rank d period serves opened some_in prepared
    obtain ⟨w, written⟩ := serves.writeBlocks ⟨(pcm.prepare d).1, []⟩ interleaves
    obtain ⟨s, rest⟩ := @Serves.writeRest _ _ params _ serves w (blocks.length * frameCount params) _ some_in
    have both : Comes (fun fuel => writeBlocks pcm parser.interleave params dest fuel blocks ⟨(pcm.prepare d).1, []⟩ >>=
        fun w => writeRest pcm params (blocks.length * frameCount params) period fuel w) (.ok s) := written.bind rest
    obtain ⟨m, both⟩ := both
    refine ⟨s, max turns m, fun fuel enough => ?_⟩
    have read : parser.readFile fuel t = .ok (params, u) := (found fuel).resolve_right fun few => by omega
    have go {α β : Type} (a : α) (next : α → ExceptT Stop Option β) : ExceptT.mk (some (.ok a)) >>= next = next a := rfl
    simp only [player, read, go, opened, prepared, Bool.not_true, Bool.false_eq_true, if_false, played]
    exact both fuel (by omega)

end Run

/-! ## Audio -/

/-- Bits of sound, a byte of eight at a time for each channel. -/
structure Audio where
  channels : Nat
  length : Nat
  byte : (channel k : Nat) → UInt8

namespace Audio
variable (audio : Audio)

/-- Each byte the other way round. -/
def reversed : Audio := { audio with byte c k := bitReverse (audio.byte c k) }

/-- There is silence behind the end. -/
def sample (c k : Nat) : UInt8 := if k < audio.length then audio.byte c k else 0

def blocks : Nat := (audio.length + (DSF_BLOCK_SIZE - 1)) / DSF_BLOCK_SIZE

/-- The data of a DSF file: blocks of one channel after the other, the last ones filled with zeros. -/
def dsf : List UInt8 :=
  loops audio.blocks audio.channels DSF_BLOCK_SIZE fun b c k => audio.sample c (b * DSF_BLOCK_SIZE + k)

/-- The data of a DSDIFF file: a byte of one channel after the other. -/
def dff : List UInt8 :=
  (List.range audio.length).flatMap fun k => (List.range audio.channels).map fun c => audio.byte c k

/-- The bytes of a sample of one channel. -/
def sampleBytes : Nat := formatWidth / 8

def frames : List UInt8 :=
  loops (audio.blocks * (DSF_BLOCK_SIZE / sampleBytes)) audio.channels sampleBytes fun f c j =>
    audio.sample c (f * sampleBytes + j)

/-- What is heard of it, up to a whole period. -/
def stream (period : Nat) : List UInt8 :=
  audio.frames ++ List.replicate
    (missing (audio.blocks * (DSF_BLOCK_SIZE / sampleBytes)) period * (audio.channels * sampleBytes)) 0

end Audio

theorem bitReverse_bitReverse (x : UInt8) : bitReverse (bitReverse x) = x := by
  have all : ∀ n : Fin (2 ^ 8), bitReverse (bitReverse ⟨⟨n⟩⟩) = ⟨⟨n⟩⟩ := by decide +kernel
  exact all x.toFin

theorem bitReverse_zero : bitReverse 0 = 0 := by decide

/-! ## Blocks of one size -/

section Blocks
variable {size : Nat} {data : List UInt8} {blocks : List Block}

theorem Cuts.tail {b : Block} (cuts : Cuts size data (b :: blocks)) : Cuts size (blocks.flatMap Block.read) blocks where
  whole c mem := cuts.whole c (List.mem_cons_of_mem b mem)
  filled c mem := cuts.filled c (List.mem_cons_of_mem b mem)
  padded c mem := by
    cases blocks with
    | nil => cases mem
    | cons d blocks => exact cuts.padded c (List.mem_cons_of_mem b mem)
  data := rfl

/-- There are no more blocks than the data needs. -/
theorem Cuts.count (cuts : Cuts size data blocks) (positive : 0 < size) :
    data.length ≤ blocks.length * size ∧ blocks.length * size < data.length + size := by
  induction blocks generalizing data with
  | nil =>
    obtain rfl := cuts.data
    simp [positive]
  | cons b blocks ih =>
    have rest := ih cuts.tail
    have whole := cuts.whole b List.mem_cons_self
    have filled := List.length_pos_iff.mpr (cuts.filled b List.mem_cons_self)
    have length : data.length = b.read.length + (blocks.flatMap Block.read).length := by
      rw [← cuts.data, List.flatMap_cons, List.length_append]
    rw [List.length_cons, Nat.succ_mul]
    cases blocks with
    | nil =>
      simp only [List.flatMap_nil, List.length_nil, Nat.zero_mul] at length ⊢
      omega
    | cons c blocks =>
      have full : b.padding = 0 := cuts.padded b List.mem_cons_self
      omega

/-- What a function makes of blocks, a byte of its buffer at a time. -/
theorem Cuts.taken {bits g m n : Nat} {src : Nat → Nat → Nat → Nat} (cuts : Cuts size data blocks)
    (inside : ∀ i < g, ∀ c < m, ∀ j < n, src i c j < size) :
    (blocks.map (Block.buffer bits)).flatMap (fun buffer => loops g m n fun i c j => buffer.getD (src i c j) 0) =
      (List.range blocks.length).flatMap fun b => loops g m n fun i c j =>
        (if bits = 8 then bitReverse else id) (data.getD (b * size + src i c j) 0) := by
  obtain ⟨zeros, flat⟩ := cuts.buffers bits
  have sizes : ∀ p ∈ blocks.map (Block.buffer bits), p.length = size := by
    intro p mem
    obtain ⟨b, inside, rfl⟩ := List.mem_map.mp mem
    rw [Block.buffer, List.length_map, List.length_append, List.length_replicate]
    exact cuts.whole b inside
  have silent : (if bits = 8 then bitReverse else id) 0 = 0 := by
    split_ifs
    · exact bitReverse_zero
    · rfl
  have byte (k : Nat) : (blocks.map (Block.buffer bits)).flatten.getD k 0 =
      (if bits = 8 then bitReverse else id) (data.getD k 0) := by
    rw [← List.flatMap_def, flat, List.getD_eq_getElem?_getD, List.getElem?_map, List.getD_eq_getElem?_getD]
    rcases Nat.lt_or_ge k data.length with within | behind
    · rw [List.getElem?_append_left within, List.getElem?_eq_getElem within]
      rfl
    · rw [List.getElem?_append_right behind, List.getElem?_eq_none behind, List.getElem?_replicate]
      split_ifs <;> simp_all
  rw [pieces_eq sizes, List.flatMap_map, List.length_map]
  refine List.flatMap_congr fun b _ => loops_congr fun i i_lt c c_lt j j_lt => ?_
  rw [← byte, List.getD_eq_getElem?_getD, List.getElem?_take_of_lt (inside i i_lt c c_lt j j_lt), List.getElem?_drop,
    List.getD_eq_getElem?_getD]

end Blocks

/-! ## The frames of either kind of data -/

namespace Audio
variable (audio : Audio)

/-- As it is in a file whose bytes are to be reversed, or are not. -/
def stored (bits : Nat) : Audio := if bits = 8 then audio.reversed else audio

@[simp] theorem stored_channels (bits : Nat) : (audio.stored bits).channels = audio.channels := by
  unfold stored
  split_ifs <;> rfl

@[simp] theorem stored_length (bits : Nat) : (audio.stored bits).length = audio.length := by
  unfold stored
  split_ifs <;> rfl

@[simp] theorem stored_blocks (bits : Nat) : (audio.stored bits).blocks = audio.blocks := by
  rw [blocks, stored_length, blocks]

theorem sample_stored (bits c k : Nat) :
    (if bits = 8 then bitReverse else id) ((audio.stored bits).sample c k) = audio.sample c k := by
  unfold stored
  split_ifs
  · unfold sample reversed
    simp only
    split_ifs
    · exact bitReverse_bitReverse _
    · exact bitReverse_zero
  · rfl

theorem dsf_getD {b c k : Nat} (b_lt : b < audio.blocks) (c_lt : c < audio.channels) (k_lt : k < DSF_BLOCK_SIZE) :
    audio.dsf.getD (b * (audio.channels * DSF_BLOCK_SIZE) + (c * DSF_BLOCK_SIZE + k)) 0 =
      audio.sample c (b * DSF_BLOCK_SIZE + k) := loops_getD b_lt c_lt k_lt 0

theorem dff_loops : audio.dff = loops 1 audio.length audio.channels fun _ k c => audio.byte c k := by
  simp [dff, loops]

theorem dff_length : audio.dff.length = audio.length * audio.channels := by
  rw [dff_loops, length_loops, Nat.one_mul]

theorem dff_getD {c k : Nat} (c_lt : c < audio.channels) :
    audio.dff.getD (k * audio.channels + c) 0 = audio.sample c k := by
  unfold sample
  split_ifs with inside
  · have here := loops_getD (f := fun _ k c => audio.byte c k) Nat.one_pos inside c_lt 0
    rw [Nat.zero_mul, Nat.zero_add] at here
    rw [dff_loops, here]
  · have behind : audio.dff.length ≤ k * audio.channels + c := by
      rw [dff_length]
      exact (Nat.mul_le_mul_right _ (Nat.not_lt.mp inside)).trans (Nat.le_add_right _ _)
    rw [List.getD_eq_getElem?_getD, List.getElem?_eq_none behind]
    rfl

end Audio

theorem sampleBytes_divides : Audio.sampleBytes ∣ DSF_BLOCK_SIZE := by decide

section Frames
variable {audio : Audio} {bits : Nat} {blocks : List Block} (some_channels : 0 < audio.channels)

include some_channels in
theorem dsf_frames (cuts : Cuts (audio.channels * DSF_BLOCK_SIZE) (audio.stored bits).dsf blocks) :
    blocks.length = audio.blocks ∧ (blocks.map (Block.buffer bits)).flatMap (fun buffer =>
      (dsfPlain audio.channels Audio.sampleBytes (DSF_BLOCK_SIZE / Audio.sampleBytes)).map fun m => buffer.getD m.2 0) =
        audio.frames := by
  have size_pos : 0 < audio.channels * DSF_BLOCK_SIZE := Nat.mul_pos some_channels (by decide)
  have count : blocks.length = audio.blocks := by
    have bounds := cuts.count size_pos
    have length : (audio.stored bits).dsf.length = audio.blocks * (audio.channels * DSF_BLOCK_SIZE) := by
      rw [Audio.dsf, length_loops, Audio.stored_blocks, Audio.stored_channels]
    rw [length] at bounds
    refine le_antisymm (Nat.lt_succ_iff.mp (Nat.lt_of_mul_lt_mul_right (a := audio.channels * DSF_BLOCK_SIZE) ?_))
      (Nat.le_of_mul_le_mul_right bounds.1 size_pos)
    rw [Nat.succ_mul]
    exact bounds.2
  refine ⟨count, ?_⟩
  have whole := Nat.div_mul_cancel sampleBytes_divides
  simp only [dsfPlain, map_loops, whole]
  rw [cuts.taken, count, Audio.frames, loops_split]
  · refine List.flatMap_congr fun b mem => loops_congr fun i i_lt c c_lt j j_lt => ?_
    have inside := inner_lt i_lt j_lt
    rw [whole] at inside
    have here := (audio.stored bits).dsf_getD (by rw [Audio.stored_blocks]; exact List.mem_range.mp mem)
      (by rw [Audio.stored_channels]; exact c_lt) inside
    rw [Audio.stored_channels] at here
    have place : b * DSF_BLOCK_SIZE + (i * Audio.sampleBytes + j) =
        (b * (DSF_BLOCK_SIZE / Audio.sampleBytes) + i) * Audio.sampleBytes + j := by
      rw [Nat.add_mul, Nat.mul_assoc, whole, Nat.add_assoc]
    rw [here, Audio.sample_stored, place]
  · intro i i_lt c c_lt j j_lt
    have inside := inner_lt i_lt j_lt
    rw [whole] at inside
    exact inner_lt c_lt inside

include some_channels in
theorem dff_frames (cuts : Cuts (audio.channels * DSF_BLOCK_SIZE) (audio.stored bits).dff blocks) :
    blocks.length = audio.blocks ∧ (blocks.map (Block.buffer bits)).flatMap (fun buffer =>
      (dffPlain audio.channels Audio.sampleBytes (DSF_BLOCK_SIZE / Audio.sampleBytes)).map fun m => buffer.getD m.2 0) =
        audio.frames := by
  have size_pos : 0 < audio.channels * DSF_BLOCK_SIZE := Nat.mul_pos some_channels (by decide)
  have count : blocks.length = audio.blocks := by
    have bounds := cuts.count size_pos
    rw [Audio.dff_length, Audio.stored_length, Audio.stored_channels,
      show blocks.length * (audio.channels * DSF_BLOCK_SIZE) = blocks.length * DSF_BLOCK_SIZE * audio.channels by ring,
      show audio.length * audio.channels + audio.channels * DSF_BLOCK_SIZE =
        (audio.length + DSF_BLOCK_SIZE) * audio.channels by ring] at bounds
    have enough := Nat.le_of_mul_le_mul_right bounds.1 some_channels
    have few := Nat.lt_of_mul_lt_mul_right bounds.2
    unfold Audio.blocks
    unfold DSF_BLOCK_SIZE at enough few ⊢
    omega
  refine ⟨count, ?_⟩
  have whole := Nat.div_mul_cancel sampleBytes_divides
  simp only [dffPlain, map_loops]
  rw [cuts.taken, count, Audio.frames, loops_split]
  · refine List.flatMap_congr fun b _ => loops_congr fun i i_lt c c_lt j j_lt => ?_
    have here := (audio.stored bits).dff_getD (by rw [Audio.stored_channels]; exact c_lt)
      (k := (b * (DSF_BLOCK_SIZE / Audio.sampleBytes) + i) * Audio.sampleBytes + j)
    rw [Audio.stored_channels] at here
    have place : b * (audio.channels * DSF_BLOCK_SIZE) + (i * (Audio.sampleBytes * audio.channels) +
        (j * audio.channels + c)) =
          ((b * (DSF_BLOCK_SIZE / Audio.sampleBytes) + i) * Audio.sampleBytes + j) * audio.channels + c := by
      have block : b * (audio.channels * DSF_BLOCK_SIZE) =
          b * (DSF_BLOCK_SIZE / Audio.sampleBytes) * Audio.sampleBytes * audio.channels := by
        rw [Nat.mul_assoc b, whole]
        ring
      rw [block]
      ring
    rw [place, here, Audio.sample_stored]
  · intro i i_lt c c_lt j j_lt
    have inside := inner_lt i_lt (inner_lt j_lt c_lt)
    have total : DSF_BLOCK_SIZE / Audio.sampleBytes * (Audio.sampleBytes * audio.channels) =
        audio.channels * DSF_BLOCK_SIZE := by
      rw [← Nat.mul_assoc, whole, Nat.mul_comm]
    rwa [total] at inside

end Frames

/-! ## Both kinds of files -/

section Files
variable {δ : Type} {pcm : Pcm δ} {sys : System} {openStream : (rate channels : Nat) → Except Stop (δ × Nat)}
  {dest : List UInt8} {audio : Audio}

theorem frame_sizes {params : DsdParams} (positive : 0 < params.channelNum)
    (small : params.channelNum * DSF_BLOCK_SIZE < 2 ^ 31) :
    bytesPerFrame params.channelNum = params.channelNum * Audio.sampleBytes ∧
      frameCount params = DSF_BLOCK_SIZE / Audio.sampleBytes := by
  have size : blockSize params.channelNum = (params.channelNum * DSF_BLOCK_SIZE : Nat) := by
    unfold blockSize
    rw [Int.bmod_def]
    unfold DSF_BLOCK_SIZE at small ⊢
    split_ifs <;> omega
  have frame : bytesPerFrame params.channelNum = params.channelNum * Audio.sampleBytes := by
    unfold bytesPerFrame formatWidth Audio.sampleBytes
    unfold DSF_BLOCK_SIZE at small
    unfold formatWidth
    omega
  have whole := Nat.div_mul_cancel sampleBytes_divides
  have parts : params.channelNum * DSF_BLOCK_SIZE =
      DSF_BLOCK_SIZE / Audio.sampleBytes * (params.channelNum * Audio.sampleBytes) := by
    calc params.channelNum * DSF_BLOCK_SIZE
        = params.channelNum * (DSF_BLOCK_SIZE / Audio.sampleBytes * Audio.sampleBytes) := by rw [whole]
      _ = DSF_BLOCK_SIZE / Audio.sampleBytes * (params.channelNum * Audio.sampleBytes) := by ring
  refine ⟨frame, ?_⟩
  rw [frameCount, size, frame, Int.toNat_natCast, parts]
  exact Nat.mul_div_cancel _ (Nat.mul_pos positive (by decide))

/-- A file whose blocks are moved into the frames of the audio. -/
theorem sounds_of_moves {parser : FileParser} {t u v : Tape} {params : DsdParams} {blocks : List Block} {data : List UInt8}
    {moves : List (Nat × Nat)} (finds : Finds parser t params u) (played : play sys params u = .ok (blocks, v))
    (cuts : Cuts (params.channelNum * DSF_BLOCK_SIZE) data blocks) (channels : params.channelNum = audio.channels)
    (some_channels : 0 < audio.channels) (small : blocks = [] ∨ audio.channels * DSF_BLOCK_SIZE < 2 ^ 31)
    (order : moves.map Prod.fst = List.range (audio.channels * DSF_BLOCK_SIZE))
    (takes : (moves.map Prod.snd).Perm (List.range (audio.channels * DSF_BLOCK_SIZE)))
    (copies : audio.channels * DSF_BLOCK_SIZE < 2 ^ 31 → ∀ src,
      parser.interleave dest src (UInt32.ofNat audio.channels) = copyBytes (moves.map casted) dest src)
    (dest_length : dest.length = audio.channels * DSF_BLOCK_SIZE)
    (frames : blocks.length = audio.blocks ∧ (blocks.map (Block.buffer params.bitsPerSample)).flatMap
      (fun buffer => moves.map fun m => buffer.getD m.2 0) = audio.frames) :
    Sounds pcm openStream (params.samplingFreq / formatWidth) audio.channels
      (fun fuel => player pcm sys parser openStream dest fuel t) audio.stream := by
  have interleaves : Interleaves parser.interleave params dest (fun buffer => moves.map fun m => buffer.getD m.2 0)
      blocks := by
    intro b mem
    have within := small.resolve_left (List.ne_nil_of_mem mem)
    obtain ⟨frame, count⟩ := @frame_sizes params (by omega) (by rw [channels]; exact within)
    have length : (b.buffer params.bitsPerSample).length = audio.channels * DSF_BLOCK_SIZE := by
      rw [Block.buffer, List.length_map, List.length_append, List.length_replicate, cuts.whole b mem, channels]
    refine ⟨?_, ?_⟩
    · rw [channels, copies within]
      exact copyBytes_permuted order takes dest_length length
    · have moved := congrArg List.length order
      rw [List.length_map, List.length_range] at moved
      rw [List.length_map, moved, count, frame, channels]
      have whole := Nat.div_mul_cancel sampleBytes_divides
      calc audio.channels * DSF_BLOCK_SIZE
          = audio.channels * (DSF_BLOCK_SIZE / Audio.sampleBytes * Audio.sampleBytes) := by rw [whole]
        _ = DSF_BLOCK_SIZE / Audio.sampleBytes * (audio.channels * Audio.sampleBytes) := by ring
  have sounds : Sounds pcm openStream _ _ _ _ := sounds_of_blocks finds played interleaves
  have same : (fun period => (blocks.map (Block.buffer params.bitsPerSample)).flatMap
      (fun buffer => moves.map fun m => buffer.getD m.2 0) ++
        List.replicate (missing (blocks.length * frameCount params) period * bytesPerFrame params.channelNum) 0) =
      audio.stream := by
    funext period
    rw [Audio.stream, frames.2, ← frames.1]
    rcases small with rfl | within
    · simp [missing]
    · obtain ⟨frame, count⟩ := @frame_sizes params (by omega) (by rw [channels]; exact within)
      rw [frame, count, channels]
  rw [same, channels] at sounds
  exact sounds

section Copies
variable {channels : Nat} (within : channels * DSF_BLOCK_SIZE < 2 ^ 31)
include within

theorem channels_word : (UInt32.ofNat channels).toNat = channels := by
  refine UInt32.toNat_ofNat_of_lt' ?_
  unfold DSF_BLOCK_SIZE at within
  unfold UInt32.size
  omega

theorem dsf_copies (dest src : List UInt8) : dsfParser.interleave dest src (UInt32.ofNat channels) =
    copyBytes ((dsfPlain channels Audio.sampleBytes (DSF_BLOCK_SIZE / Audio.sampleBytes)).map casted) dest src := by
  rw [← dsfMoves_plain sampleBytes_divides within.le]
  unfold dsfParser interleaveDsfBlock
  simp only [channels_word within]
  rfl

theorem dff_copies (sys : System) (dest src : List UInt8) : (dffParser sys).interleave dest src (UInt32.ofNat channels) =
    copyBytes ((dffPlain channels Audio.sampleBytes (DSF_BLOCK_SIZE / Audio.sampleBytes)).map casted) dest src := by
  rw [← dffMoves_plain sampleBytes_divides (within.le.trans (by decide))]
  unfold dffParser interleaveDffBlock
  simp only [channels_word within]
  rfl

end Copies

/-- The data is that of the audio, with the bytes the other way round where the program reverses them. -/
structure DsfFile.Holds (file : DsfFile) (audio : Audio) : Prop where
  channels : file.channelNum.toNat = audio.channels
  data : file.data = (audio.stored file.bitsPerSample.toNat).dsf

structure DffFile.Holds (file : DffFile) (audio : Audio) : Prop where
  channels : file.channelNum.toNat = audio.channels
  data : file.data = (audio.stored 8).dff

variable (pcm openStream) in
theorem DsfFile.sounds {file : DsfFile} (playable : file.Playable sys) (holds : file.Holds audio)
    (dest_length : dest.length = audio.channels * DSF_BLOCK_SIZE) (junk : Stream' UInt8) :
    Sounds pcm openStream (file.samplingFreq.toNat / formatWidth) audio.channels
      (fun fuel => player pcm sys dsfParser openStream dest fuel ⟨file.bytes, junk⟩) audio.stream := by
  obtain ⟨no_more, positive, fits, wide⟩ := playable
  obtain ⟨channels, data⟩ := holds
  obtain ⟨junk', read⟩ := passes_dsf file (file.data ++ file.metadata) junk
  have some_channels : 0 < audio.channels := by
    rw [← channels]
    refine Nat.pos_of_ne_zero fun none => ?_
    rw [none] at positive
    exact absurd positive (by decide)
  obtain ⟨blocks, v, played, cuts⟩ := (play_iff sys file.params ⟨file.data ++ file.metadata, junk'⟩ file.data).mpr
    ⟨file.take_data.mpr no_more, bytesPerFrame_pos positive, .inr ⟨positive, fits⟩, wide⟩
  have small : blocks = [] ∨ audio.channels * DSF_BLOCK_SIZE < 2 ^ 31 := by
    rcases wide with none | wide
    · rw [none] at cuts
      exact .inl cuts.empty
    · have size := blockSize_exact positive wide
      have stack_lt := sys.stack_lt
      rw [channels] at size fits
      exact .inr (by omega)
  obtain ⟨order, takes⟩ := dsfPlain_order audio.channels Audio.sampleBytes (DSF_BLOCK_SIZE / Audio.sampleBytes)
  rw [Nat.div_mul_cancel sampleBytes_divides] at order takes
  refine sounds_of_moves ⟨0, fun fuel => .inl read⟩ played cuts channels some_channels small order takes ?_ dest_length ?_
  · exact fun within src => dsf_copies within dest src
  · have cuts : Cuts (audio.channels * DSF_BLOCK_SIZE) (audio.stored file.bitsPerSample.toNat).dsf blocks := by
      rw [← channels, ← data]
      exact cuts
    exact dsf_frames some_channels cuts

variable (pcm openStream) in
theorem DffFile.sounds {file : DffFile} (playable : file.Playable sys) (holds : file.Holds audio)
    (dest_length : dest.length = audio.channels * DSF_BLOCK_SIZE) (junk : Stream' UInt8) :
    Sounds pcm openStream (file.samplingFreq.toNat / formatWidth) audio.channels
      (fun fuel => player pcm sys (dffParser sys) openStream dest fuel ⟨file.bytes, junk⟩) audio.stream := by
  obtain ⟨readable, channels_ne, room⟩ := playable
  obtain ⟨channels, data⟩ := holds
  have small := file.channelNum.toNat_lt
  have some_channels : 0 < audio.channels := by
    rw [← channels]
    refine Nat.pos_of_ne_zero fun none => channels_ne ?_
    rw [← UInt16.toNat_inj]
    exact none
  obtain ⟨size, frame⟩ := blockSize_word small
  have tracks : TracksAt (Walk.form sys file.bytes) (fun fuel => readDffForm sys fuel) file.bytes :=
    tracks_form.inside file.bytes
  have walk : Walk.form sys file.bytes = .ok (file.form, file.data ++ file.metadata) := by
    rw [file.walk, if_pos ⟨readable.before, readable.props, readable.after⟩]
  obtain ⟨-, k, turns, found⟩ := tracks.found _ _ walk
  have finds : Finds (dffParser sys) ⟨file.bytes, junk⟩ file.params ⟨file.data ++ file.metadata, junk.drop k⟩ :=
    ⟨turns, fun fuel => (found fuel junk).imp (fun read => bind_ok read _) fun ⟨few, stalls⟩ =>
      ⟨few, bind_stalls stalls _⟩⟩
  have wide : file.params.channelNum * DSF_BLOCK_SIZE < 2 ^ 32 := by
    change file.channelNum.toNat * DSF_BLOCK_SIZE < 2 ^ 32
    unfold DSF_BLOCK_SIZE
    omega
  have blocks_fit (room : 2 * (file.channelNum.toNat * DSF_BLOCK_SIZE) ≤ sys.stack) :
      0 < blockSize file.params.channelNum ∧ 2 * blockSize file.params.channelNum ≤ sys.stack := by
    change 0 < blockSize file.channelNum.toNat ∧ 2 * blockSize file.channelNum.toNat ≤ sys.stack
    rw [size]
    unfold DSF_BLOCK_SIZE at room ⊢
    omega
  obtain ⟨blocks, v, played, cuts⟩ := (play_iff sys file.params ⟨file.data ++ file.metadata, junk.drop k⟩ file.data).mpr
    ⟨List.take_left, frame.mpr (by omega), room.imp List.length_eq_zero_iff.mpr fun room => blocks_fit room, .inr wide⟩
  have within : audio.channels * DSF_BLOCK_SIZE < 2 ^ 31 := by
    rw [← channels]
    unfold DSF_BLOCK_SIZE
    omega
  obtain ⟨order, takes⟩ := dffPlain_order audio.channels Audio.sampleBytes (DSF_BLOCK_SIZE / Audio.sampleBytes)
  rw [Nat.div_mul_cancel sampleBytes_divides] at order takes
  refine sounds_of_moves finds played cuts channels some_channels (.inr within) order takes ?_ dest_length ?_
  · exact fun within src => dff_copies within sys dest src
  · have cuts : Cuts (audio.channels * DSF_BLOCK_SIZE) (audio.stored 8).dff blocks := by
      rw [← channels, ← data]
      exact cuts
    exact dff_frames some_channels cuts

end Files

/-- Of either kind of file the device hears the audio that is in it, whatever the arrays of the program and
its new variables hold. -/
theorem files_sound {δ : Type} (pcm : Pcm δ) (sys : System) (openStream : (rate channels : Nat) → Except Stop (δ × Nat))
    (audio : Audio) (dest : List UInt8) (dest_length : dest.length = audio.channels * DSF_BLOCK_SIZE)
    (junk : Stream' UInt8) :
    (∀ file : DsfFile, file.Playable sys → file.Holds audio →
      Sounds pcm openStream (file.samplingFreq.toNat / formatWidth) audio.channels
        (fun fuel => player pcm sys dsfParser openStream dest fuel ⟨file.bytes, junk⟩) audio.stream) ∧
    ∀ file : DffFile, file.Playable sys → file.Holds audio →
      Sounds pcm openStream (file.samplingFreq.toNat / formatWidth) audio.channels
        (fun fuel => player pcm sys (dffParser sys) openStream dest fuel ⟨file.bytes, junk⟩) audio.stream :=
  ⟨fun _ playable holds => DsfFile.sounds pcm openStream playable holds dest_length junk,
    fun _ playable holds => DffFile.sounds pcm openStream playable holds dest_length junk⟩

/-- Nothing is taken at first; then there is an underrun or no room before each hundred frames. -/
def stubborn : Pcm Nat where
  writei
    | 0, _, count => (3, .frames (min count 100))
    | 1, _, _ => (0, .EPIPE)
    | n + 2, _, _ => (n + 1, .EAGAIN)
  wait n := n
  status n := (n, some true)
  prepare n := (n, true)
  resume n := (n, .ok)
  most {d data count n} taken := by
    match d with
    | 0 =>
      obtain rfl := Written.frames.inj taken
      exact Nat.min_le_left ..
    | 1 => cases taken
    | _ + 2 => cases taken

theorem stubborn_serves : Serves stubborn id where
  takes d data count some := by
    match d with
    | 0 => exact .inl ⟨min count 100 - 1, congrArg Written.frames (by omega)⟩
    | 1 => exact .inr Nat.one_pos
    | n + 2 => exact .inr (Nat.lt_succ_self (n + 1))
  works d data count := by
    match d with
    | 0 => nofun
    | 1 => nofun
    | _ + 2 => nofun
  waits _ := le_refl _
  recovers d data count _ := ⟨_, rfl, le_refl _⟩
  resumes _ := le_refl _

def click : Audio where
  channels := 2
  length := 1
  byte c _ := if c = 0 then 0x80 else 0x11

def clickDsf : DsfFile where
  fileSize := 8284
  metadataPtr := 0
  formatVersion := 1
  formatId := 0
  channelType := 2
  channelNum := 2
  samplingFreq := 2822400
  bitsPerSample := 1
  sampleCount := 8
  data := click.dsf
  metadata := []
  fits := by
    rw [Audio.dsf, length_loops]
    decide

def clickDff : DffFile where
  formSize := 118
  version := 0x01050000
  before := []
  propSize := 62
  props := [.fs 2822400, .chnl 2 (ascii "SLFTSRGT") rfl, .compr 0 [0] (.inr rfl)]
  after := []
  data := [0x01, 0x88]
  metadata := []
  samplingFreq := 2822400
  channelNum := 2
  one_fs := rfl
  one_chnl := rfl
  one_compr := rfl
  fits := by decide

theorem click_sounds : ∃ s t : Stream Nat,
    Comes (fun fuel => player stubborn ⟨8 * 2 ^ 20, by decide, 2 ^ 63 - 1, by decide⟩ dsfParser (fun _ _ => .ok (0, 1000))
      (List.replicate 8192 0) fuel ⟨clickDsf.bytes, Stream'.const 0⟩) (.ok s) ∧
    Comes (fun fuel => player stubborn ⟨8 * 2 ^ 20, by decide, 2 ^ 63 - 1, by decide⟩
      (dffParser ⟨8 * 2 ^ 20, by decide, 2 ^ 63 - 1, by decide⟩) (fun _ _ => .ok (0, 1000))
      (List.replicate 8192 0) fuel ⟨clickDff.bytes, Stream'.const 0⟩) (.ok t) ∧
    s.played = click.stream 1000 ∧ t.played = click.stream 1000 := by
  obtain ⟨dsf, dff⟩ := files_sound stubborn ⟨8 * 2 ^ 20, by decide, 2 ^ 63 - 1, by decide⟩ (fun _ _ => .ok (0, 1000))
    click (List.replicate 8192 0) List.length_replicate (Stream'.const 0)
  have plain : click.stored clickDsf.bitsPerSample.toNat = click := if_neg (by decide)
  have dsf := dsf clickDsf ⟨rfl, by decide, by decide, .inr (by decide)⟩ ⟨rfl, by rw [plain, clickDsf]⟩
  have dff := dff clickDff ⟨⟨nofun, by decide, nofun⟩, by decide, .inr (by decide)⟩ ⟨rfl, by decide⟩
  obtain ⟨s, first⟩ := dsf.ends stubborn_serves rfl (by decide) rfl
  obtain ⟨t, second⟩ := dff.ends stubborn_serves rfl (by decide) rfl
  obtain ⟨m, ended⟩ := id first
  obtain ⟨n, ended'⟩ := id second
  obtain ⟨d, period, opened, played⟩ := dsf.hears (ended m (le_refl m))
  obtain ⟨d', period', opened', played'⟩ := dff.hears (ended' n (le_refl n))
  obtain ⟨-, rfl⟩ := Prod.mk.inj (Except.ok.inj opened)
  obtain ⟨-, rfl⟩ := Prod.mk.inj (Except.ok.inj opened')
  exact ⟨s, t, first, second, played, played'⟩

end ImxTest.Dsd
