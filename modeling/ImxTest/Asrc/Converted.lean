import ImxTest.Asrc.Output
import ImxTest.Asrc.Rescale

/-! What the ASRC test leaves in its output file: behind a header of the new rate and format the
bytes that the driver gave for the converted input, and a WAV file that its own parser takes. -/
namespace ImxTest.Asrc

open Lib While Words BitString

/-! ## The loop -/

section Play
variable {δ : Type} {driver : Driver δ} {buffer : List UInt8} {dma room : Nat}

/-- All the driver gives for some blocks. -/
def Driver.feed (driver : Driver δ) (room : Nat) : List (List UInt8) → δ → Option (List UInt8 × δ)
  | [], d => some ([], d)
  | block :: blocks, d =>
    match driver.convert block room d with
    | none => none
    | some (out, d) => (driver.feed room blocks d).map fun (outs, d) => (out.val ++ outs, d)

/-- The block of a turn: the next one of the buffer while the input is not at its end. -/
def blockAt (buffer : List UInt8) (dma : Nat) (len : Int) (k : Nat) : List UInt8 :=
  if (k * dma : Nat) < len then bytesAt buffer (k * dma) dma else List.replicate dma 0

def inputBlocks (buffer : List UInt8) (dma : Nat) (len : Int) (n : Nat) : List (List UInt8) :=
  (List.range n).map (blockAt buffer dma len)

theorem feed_append {block : List UInt8} {outs : List UInt8} {fed : List (List UInt8)} {d d' d'' : δ}
    {out : { out : List UInt8 // out.length ≤ room }} (before : driver.feed room fed d = some (outs, d'))
    (last : driver.convert block room d' = some (out, d'')) :
    driver.feed room (fed ++ [block]) d = some (outs ++ out.val, d'') := by
  induction fed generalizing d outs with
  | nil =>
    obtain ⟨rfl, rfl⟩ : [] = outs ∧ d = d' := by simpa [Driver.feed] using before
    simp [Driver.feed, last]
  | cons first fed ih =>
    rw [Driver.feed] at before
    rw [List.cons_append, Driver.feed]
    cases converted : driver.convert first room d with
    | none => rw [converted] at before; cases before
    | some given =>
      obtain ⟨out', d₁⟩ := given
      rw [converted] at before
      obtain ⟨⟨outs', d₂⟩, rest, same⟩ := Option.map_eq_some_iff.mp before
      obtain ⟨rfl, rfl⟩ : out'.val ++ outs' = outs ∧ d₂ = d' := by simpa using same
      simp only [ih rest, Option.map_some, List.append_assoc]

theorem inputBlocks_succ (buffer : List UInt8) (dma : Nat) (len : Int) (n : Nat) :
    inputBlocks buffer dma len (n + 1) = inputBlocks buffer dma len n ++ [blockAt buffer dma len n] := by
  rw [inputBlocks, List.range_succ, List.map_append]
  rfl

/-- Where the loop is after so many turns that went on. -/
structure Fed (driver : Driver δ) (buffer : List UInt8) (dma room : Nat) (start p : Playing δ) (n : Nat)
    (outs : List UInt8) : Prop where
  fed : driver.feed room (inputBlocks buffer dma start.inputDataLen n) start.device = some (outs, p.device)
  inside : ∀ k < n, (k * dma : Nat) < start.inputDataLen → k * dma + dma ≤ buffer.length
  on : 0 < p.inputDataLen → p.inputP = n * dma ∧ p.inputDataLen = start.inputDataLen - (n * dma : Nat)
  behind : p.inputDataLen ≤ 0 → start.inputDataLen ≤ (n * dma : Nat)
  short : outs.length ≤ uint start.outputDataLen
  left : uint p.outputDataLen = uint start.outputDataLen - outs.length
  left_lt : p.outputDataLen < 2 ^ 31
  used : p.outputUsed = int (start.outputUsed + outs.length)
  dst : p.dst = start.dst ++ outs

variable {start p : Playing δ} {n : Nat} {outs : List UInt8}

theorem fed_start (small : start.outputDataLen < 2 ^ 31) (used : start.outputUsed = 0) (first : start.inputP = 0) :
    Fed driver buffer dma room start start 0 [] where
  fed := rfl
  inside k lt := absurd lt (Nat.not_lt_zero k)
  on _ := ⟨by rw [first, Nat.zero_mul], by rw [Nat.zero_mul, Nat.cast_zero, Int.sub_zero]⟩
  behind none_ := by rwa [Nat.zero_mul, Nat.cast_zero]
  short := Nat.zero_le _
  left := rfl
  left_lt := small
  used := by rw [used]; exact (int_eq (by decide) (by decide)).symm
  dst := (List.append_nil _).symm

/-- The block of a turn is the next one. -/
theorem Fed.nextBlock (fed : Fed driver buffer dma room start p n outs) {block : List UInt8}
    (taken : nextBlock buffer dma p = .ok block) : block = blockAt buffer dma start.inputDataLen n ∧
      ((n * dma : Nat) < start.inputDataLen → n * dma + dma ≤ buffer.length) := by
  unfold Asrc.nextBlock at taken
  unfold blockAt
  by_cases more : 0 < p.inputDataLen
  · obtain ⟨at_, left⟩ := fed.on more
    rw [if_pos more] at taken
    split_ifs at taken with inside
    obtain rfl := Except.ok.inj taken
    rw [at_] at inside ⊢
    exact ⟨(if_pos (by omega)).symm, fun _ => inside⟩
  · have behind := fed.behind (by omega)
    rw [if_neg more] at taken
    obtain rfl := Except.ok.inj taken
    exact ⟨(if_neg (by omega)).symm, fun before => absurd behind (by omega)⟩

theorem Fed.takeBlock (fed : Fed driver buffer dma room start p n outs) :
    (0 < (takeBlock dma p).inputDataLen → (takeBlock dma p).inputP = (n + 1) * dma ∧
      (takeBlock dma p).inputDataLen = start.inputDataLen - ((n + 1) * dma : Nat)) ∧
    ((takeBlock dma p).inputDataLen ≤ 0 → start.inputDataLen ≤ ((n + 1) * dma : Nat)) := by
  have next : (n + 1) * dma = n * dma + dma := Nat.succ_mul n dma
  unfold Asrc.takeBlock
  by_cases more : 0 < p.inputDataLen
  · obtain ⟨at_, left⟩ := fed.on more
    rw [if_pos more]
    dsimp only
    split_ifs with whole
    · exact ⟨fun _ => ⟨by omega, by omega⟩, fun none_ => absurd none_ (by omega)⟩
    · exact ⟨fun some_ => absurd some_ (by omega), fun _ => by omega⟩
  · have behind := fed.behind (by omega)
    rw [if_neg more]
    exact ⟨fun some_ => absurd some_ more, fun _ => by omega⟩

/-- What `takeBlock` leaves alone. -/
theorem takeBlock_rest (dma : Nat) (p : Playing δ) : (takeBlock dma p).device = p.device ∧
    (takeBlock dma p).outputDataLen = p.outputDataLen ∧ (takeBlock dma p).outputUsed = p.outputUsed ∧
    (takeBlock dma p).dst = p.dst := by
  unfold takeBlock
  split_ifs <;> exact ⟨rfl, rfl, rfl, rfl⟩

/-- What a turn can do. -/
theorem playTurn_cases {turn : Turn (Playing δ) (Int × Playing δ)}
    (ran : playTurn driver buffer dma room p = .ok turn) : ∃ block, nextBlock buffer dma p = .ok block ∧
      (turn = .leave (-1, takeBlock dma p) ∨ ∃ out device, driver.convert block room p.device = some (out, device) ∧
        (out.val.length < uint p.outputDataLen ∧ turn = .again { takeBlock dma p with
            device
            outputDataLen := int (p.outputDataLen - out.val.length)
            outputUsed := int (p.outputUsed + out.val.length)
            dst := p.dst ++ out.val } ∨
          uint p.outputDataLen ≤ out.val.length ∧ 0 ≤ p.outputDataLen ∧ turn = .leave (0, { takeBlock dma p with
            device
            outputDataLen := 0
            outputUsed := int (p.outputUsed + p.outputDataLen)
            dst := p.dst ++ out.val.take p.outputDataLen.toNat }))) := by
  obtain ⟨device_eq, len_eq, used_eq, dst_eq⟩ := takeBlock_rest dma p
  unfold playTurn at ran
  cases taken : nextBlock buffer dma p with
  | error e => rw [taken] at ran; cases ran
  | ok block =>
    refine ⟨block, rfl, ?_⟩
    simp only [taken, bind, Except.bind, device_eq, len_eq, used_eq, dst_eq] at ran
    cases converted : driver.convert block room p.device with
    | none =>
      rw [converted] at ran
      exact .inl (Except.ok.inj ran).symm
    | some given =>
      obtain ⟨out, device⟩ := given
      simp only [converted] at ran
      refine .inr ⟨out, device, rfl, ?_⟩
      split_ifs at ran with less positive
      · exact .inl ⟨less, (Except.ok.inj ran).symm⟩
      · exact .inr ⟨Nat.not_lt.mp less, positive, (Except.ok.inj ran).symm⟩

/-- A turn that goes on. -/
theorem Fed.again {q : Playing δ} (fed : Fed driver buffer dma room start p n outs)
    (ran : playTurn driver buffer dma room p = .ok (.again q)) :
    ∃ outs', Fed driver buffer dma room start q (n + 1) outs' := by
  obtain ⟨block, taken, left | ⟨out, device, converted, ⟨less, same⟩ | ⟨-, -, left⟩⟩⟩ := playTurn_cases ran
  · cases left
  · obtain rfl := Turn.again.inj same
    obtain ⟨rfl, inside⟩ := fed.nextBlock taken
    obtain ⟨on, behind⟩ := fed.takeBlock
    have left := fed.left
    have short := fed.short
    have total : (outs ++ out.val).length = outs.length + out.val.length := List.length_append
    have next : uint (int (p.outputDataLen - out.val.length)) = uint p.outputDataLen - out.val.length := by
      obtain ⟨k, same⟩ := exists_uint p.outputDataLen
      have lt := uint_lt p.outputDataLen
      rw [uint_int]
      exact uint_turns (k := -k) (by omega) (by omega)
    refine ⟨outs ++ out.val, ?_, fun k lt before => ?_, on, behind, by omega, ?_, (int_bounds _).2, ?_, ?_⟩
    · rw [inputBlocks_succ]
      exact feed_append fed.fed converted
    · rcases Nat.lt_succ_iff_lt_or_eq.mp lt with lt | rfl
      · exact fed.inside k lt before
      · exact inside before
    · change uint (int (p.outputDataLen - out.val.length)) = _
      omega
    · change int (p.outputUsed + out.val.length) = _
      rw [fed.used, int_int_add, total, Nat.cast_add, Int.add_assoc]
    · change p.dst ++ out.val = _
      rw [fed.dst, List.append_assoc]
  · cases left

/-- The turn behind which the loop has ended well. -/
theorem Fed.leave {q : Playing δ} {err : Int} (fed : Fed driver buffer dma room start p n outs)
    (ran : playTurn driver buffer dma room p = .ok (.leave (err, q))) (well : 0 ≤ err) :
    ∃ outs', driver.feed room (inputBlocks buffer dma start.inputDataLen (n + 1)) start.device = some (outs', q.device) ∧
      (∀ k < n + 1, (k * dma : Nat) < start.inputDataLen → k * dma + dma ≤ buffer.length) ∧
      uint start.outputDataLen ≤ outs'.length ∧
      q.outputUsed = int (start.outputUsed + uint start.outputDataLen) ∧
      q.dst = start.dst ++ outs'.take (uint start.outputDataLen) := by
  obtain ⟨block, taken, left | ⟨out, device, converted, ⟨-, again⟩ | ⟨enough, positive, same⟩⟩⟩ := playTurn_cases ran
  · obtain ⟨rfl, -⟩ : err = -1 ∧ q = _ := by simpa using left
    exact absurd well (by decide)
  · cases again
  · obtain ⟨-, rfl⟩ : err = 0 ∧ q = _ := by simpa using same
    obtain ⟨rfl, inside⟩ := fed.nextBlock taken
    have left := fed.left
    have short := fed.short
    have small := fed.left_lt
    have rest : p.outputDataLen = (uint p.outputDataLen : Nat) := by
      have word := uint_natCast (n := p.outputDataLen.toNat) (by omega)
      rw [Int.toNat_of_nonneg positive] at word
      omega
    refine ⟨outs ++ out.val, ?_, fun k lt before => ?_, ?_, ?_, ?_⟩
    · rw [inputBlocks_succ]
      exact feed_append fed.fed converted
    · rcases Nat.lt_succ_iff_lt_or_eq.mp lt with lt | rfl
      · exact fed.inside k lt before
      · exact inside before
    · rw [List.length_append]
      omega
    · change int (p.outputUsed + p.outputDataLen) = _
      rw [fed.used, int_int_add, Int.add_assoc]
      congr 2
      omega
    · change p.dst ++ out.val.take p.outputDataLen.toNat = _
      rw [fed.dst, List.append_assoc, List.take_append, List.take_of_length_le short]
      congr 3
      omega

/-- The loop writes what the driver gives for the input in blocks and zeros behind it, as much as
is announced. -/
theorem play_ends {device : δ} {len outputDataLen err : Int} {dst : List UInt8} {fuel : Nat}
    (ran : (loop (playTurn driver buffer dma room) fuel ⟨device, 0, len, outputDataLen, 0, dst⟩).run =
      some (.ok (err, p))) (well : 0 ≤ err) (small : outputDataLen < 2 ^ 31) :
    ∃ n outs, driver.feed room (inputBlocks buffer dma len n) device = some (outs, p.device) ∧
      (∀ k < n, (k * dma : Nat) < len → k * dma + dma ≤ buffer.length) ∧ uint outputDataLen ≤ outs.length ∧
      p.outputUsed = int (uint outputDataLen) ∧ p.dst = dst ++ outs.take (uint outputDataLen) := by
  obtain ⟨last, ⟨n, outs, fed⟩, left⟩ := Ends.invariant ⟨fuel, ran⟩
    (fun p => ∃ n outs, Fed driver buffer dma room ⟨device, 0, len, outputDataLen, 0, dst⟩ p n outs)
    (fun p q ⟨n, outs, fed⟩ again => ⟨n + 1, fed.again again⟩) ⟨0, [], fed_start small rfl rfl⟩
  obtain ⟨outs', fed', inside, enough, used, dst_eq⟩ := fed.leave left well
  exact ⟨n + 1, outs', fed', inside, enough, by rw [used, Int.zero_add], dst_eq⟩

end Play

end ImxTest.Asrc
