import ImxTest.Pitcher.Bitstream
import ImxTest.Pitcher.Memory

/-! The reads of pitcher/bitstream.c in terms of the bits not yet read. A parsing
function runs to its end exactly when these bits can be read as it asks. -/
namespace ImxTest.Pitcher

open Lib.BitString

namespace BitstreamBuf

/-- The bits not yet read. -/
def rest (bs : BitstreamBuf) : List Bool :=
  bitsOf bs.numHeldBits bs.heldBits ++ ofBytes (bs.buf.drop bs.bufRdptr)

/-- The held bits are the last ones of the bytes loaded, and the counter counts
the others. -/
structure Valid (bs : BitstreamBuf) : Prop where
  held : bs.numHeldBits < 8
  byte : bs.heldBits < 2 ^ 8
  pointer : bs.bufRdptr ≤ bs.buf.length
  loaded : bs.numHeldBits ≤ 8 * bs.bufRdptr
  count : bs.numBitsRead = (8 * bs.bufRdptr - bs.numHeldBits) % 2 ^ 32

theorem valid_init (buf : List UInt8) : (bsInit buf).Valid :=
  ⟨Nat.zero_lt_succ 7, Nat.zero_lt_succ 255, Nat.zero_le _, le_refl 0, rfl⟩

theorem rest_init (buf : List UInt8) : (bsInit buf).rest = ofBytes buf := rfl

theorem rest_length (bs : BitstreamBuf) :
    bs.rest.length = bs.numHeldBits + 8 * (bs.buf.length - bs.bufRdptr) := by
  simp only [rest, List.length_append, bitsOf_length, ofBytes_length, List.length_drop]

end BitstreamBuf

theorem clearByte_mod {v n : Nat} (byte : v < 2 ^ 8) (small : n < 8) : clearByte v n = v % 2 ^ n := by
  have all : ∀ (v : Fin 256) (n : Fin 8), clearByte v.1 n.1 = v.1 % 2 ^ n.1 := by decide +kernel
  exact all ⟨v, byte⟩ ⟨n, small⟩

private theorem or_add {x y : Nat} (i : Nat) (multiple : 2 ^ i ∣ x) (small : y < 2 ^ i) :
    x ||| y = x + y := by
  obtain ⟨a, rfl⟩ := multiple
  rw [Nat.two_pow_add_eq_or_of_lt small]

theorem loadAligned_word {buf : List UInt8} {rdptr k : Nat} (small : k < 4)
    (inside : rdptr + k < buf.length) :
    loadAligned buf rdptr k = word ((buf.drop rdptr).take (k + 1)) := by
  have bytes : ∀ j, buf.getD (rdptr + j) 0 = (buf.drop rdptr).getD j 0 := by
    intro j
    simp only [List.getD_eq_getElem?_getD, List.getElem?_drop]
  have long : k < (buf.drop rdptr).length := by
    rw [List.length_drop]
    omega
  simp only [loadAligned, bytes]
  generalize buf.drop rdptr = tail at long
  match k, small, tail, long with
  | 0, _, a :: _, _ => simp [word]
  | 1, _, a :: b :: _, _ =>
    have hb := b.toNat_lt
    simp only [word, List.getD_cons_zero, List.getD_cons_succ, List.take_succ_cons, List.take_zero,
      List.foldl_cons, List.foldl_nil, Nat.shiftLeft_eq]
    rw [or_add 8 (Dvd.intro_left _ rfl) hb]
    omega
  | 2, _, a :: b :: c :: _, _ =>
    have hb := b.toNat_lt
    have hc := c.toNat_lt
    have high : a.toNat * 2 ^ 16 ||| b.toNat * 2 ^ 8 = a.toNat * 2 ^ 16 + b.toNat * 2 ^ 8 :=
      or_add 16 (Dvd.intro_left _ rfl) (by omega)
    simp only [word, List.getD_cons_zero, List.getD_cons_succ, List.take_succ_cons, List.take_zero,
      List.foldl_cons, List.foldl_nil, Nat.shiftLeft_eq]
    rw [high, or_add 8 (by omega) hc]
    omega
  | 3, _, a :: b :: c :: d :: _, _ =>
    have hb := b.toNat_lt
    have hc := c.toNat_lt
    have hd := d.toNat_lt
    have high : a.toNat * 2 ^ 24 ||| b.toNat * 2 ^ 16 = a.toNat * 2 ^ 24 + b.toNat * 2 ^ 16 :=
      or_add 24 (Dvd.intro_left _ rfl) (by omega)
    have middle : a.toNat * 2 ^ 24 + b.toNat * 2 ^ 16 ||| c.toNat * 2 ^ 8 =
        a.toNat * 2 ^ 24 + b.toNat * 2 ^ 16 + c.toNat * 2 ^ 8 := or_add 16 (by omega) (by omega)
    simp only [word, List.getD_cons_zero, List.getD_cons_succ, List.take_succ_cons, List.take_zero,
      List.foldl_cons, List.foldl_nil, Nat.shiftLeft_eq]
    rw [high, middle, or_add 8 (by omega) hd]
    omega

/-- The faults a stream leads to by its bits. -/
def Fault.Trip : Fault → Prop
  | .assertion | .shift => True
  | .stalePointer | .unending => False

/-- What a read that returns has done. -/
structure Read (bs : BitstreamBuf) (n : Nat) (result : Except Fault (Nat × BitstreamBuf)) : Prop where
  ok : ∃ bs', result = .ok (value (bs.rest.take n), bs') ∧ bs'.Valid ∧ bs'.rest = bs.rest.drop n ∧
    bs'.buf = bs.buf

theorem bsRead_held {bs : BitstreamBuf} (valid : bs.Valid) {n : Nat} (held : n ≤ bs.numHeldBits) :
    Read bs n (bsRead bs n) := by
  have small := valid.held
  have loaded := valid.loaded
  have count := valid.count
  have word : ¬ 32 < n := by omega
  have split : bs.numHeldBits = n + (bs.numHeldBits - n) := by omega
  have rest : bs.rest = bitsOf n (bs.heldBits / 2 ^ (bs.numHeldBits - n)) ++
      (bitsOf (bs.numHeldBits - n) bs.heldBits ++ ofBytes (bs.buf.drop bs.bufRdptr)) := by
    rw [BitstreamBuf.rest, ← List.append_assoc, ← bitsOf_append, ← split]
  have byte : bs.heldBits / 2 ^ (bs.numHeldBits - n) < 2 ^ 8 :=
    (Nat.div_le_self _ _).trans_lt valid.byte
  let after : BitstreamBuf :=
    { bs with
      numHeldBits := bs.numHeldBits - n
      numBitsRead := (bs.numBitsRead + n) % 2 ^ 32 }
  refine ⟨after, ?_, ?_, ?_, rfl⟩
  · simp only [bsRead, word, held, if_false, if_true]
    rw [rest, List.take_left' (bitsOf_length ..), value_bitsOf, Nat.shiftRight_eq_div_pow,
      clearByte_mod byte (by omega)]
  · constructor <;> simp only [after]
    · omega
    · exact valid.byte
    · exact valid.pointer
    · omega
    · omega
  · rw [rest, List.drop_left' (bitsOf_length ..)]
    rfl

/-- A read across the held bits loads just the bytes it needs. -/
theorem bsRead_load {bs : BitstreamBuf} (valid : bs.Valid) {n : Nat} (past : bs.numHeldBits < n)
    (word : n ≤ 32) (aligned : n = 32 → bs.numHeldBits ≠ 0) (fits : n ≤ bs.rest.length) :
    Read bs n (bsRead bs n) := by
  obtain ⟨num, rfl⟩ : ∃ num, n = bs.numHeldBits + num := ⟨n - bs.numHeldBits, by omega⟩
  rw [BitstreamBuf.rest_length] at fits
  have held := valid.held
  have loaded := valid.loaded
  have count := valid.count
  have narrow : num < 32 := by omega
  let k := (num - 1) / 8
  let spare := 8 * (k + 1) - num
  have spareEq : (32 - num) % 8 = spare := by simp only [spare, k]; omega
  have inside : bs.bufRdptr + k < bs.buf.length := by simp only [k]; omega
  have cover : 8 * (k + 1) = num + spare := by simp only [spare, k]; omega
  let bytes := (bs.buf.drop bs.bufRdptr).take (k + 1)
  let loadedWord := Lib.BitString.word bytes
  have length : bytes.length = k + 1 := by
    simp only [bytes, List.length_take, List.length_drop]
    omega
  have load : loadAligned bs.buf bs.bufRdptr k = loadedWord :=
    loadAligned_word (by simp only [k]; omega) inside
  have later : bs.buf.drop bs.bufRdptr = bytes ++ bs.buf.drop (bs.bufRdptr + k + 1) := by
    rw [Nat.add_assoc, ← List.drop_drop, List.take_append_drop]
  let front := bitsOf bs.numHeldBits bs.heldBits ++ bitsOf num (loadedWord / 2 ^ spare)
  have rest : bs.rest = front ++
      (bitsOf spare loadedWord ++ ofBytes (bs.buf.drop (bs.bufRdptr + k + 1))) := by
    rw [BitstreamBuf.rest, later, ofBytes_append, ofBytes_word bytes, length, cover, bitsOf_append]
    simp only [front, List.append_assoc, loadedWord]
  have frontLength : front.length = bs.numHeldBits + num := by simp [front]
  let after : BitstreamBuf :=
    { bs with
      bufRdptr := bs.bufRdptr + k + 1
      numHeldBits := spare
      heldBits := loadedWord % 2 ^ 8
      numBitsRead := (bs.numBitsRead + (bs.numHeldBits + num)) % 2 ^ 32 }
  refine ⟨after, ?_, ?_, ?_, rfl⟩
  · have small : ¬ 32 < bs.numHeldBits + num := by omega
    have more : ¬ bs.numHeldBits + num ≤ bs.numHeldBits := by omega
    have shift : (num - 1) >>> 3 = k := Nat.shiftRight_eq_div_pow ..
    have enough : ¬ bs.buf.length ≤ bs.bufRdptr + k := by omega
    simp only [bsRead, small, more, if_false, Nat.add_sub_cancel_left, Nat.not_le.mpr narrow, shift,
      enough, load, spareEq, clearByte_mod valid.byte held]
    have below : loadedWord / 2 ^ spare < 2 ^ num := by
      rw [Nat.div_lt_iff_lt_mul (Nat.two_pow_pos spare), ← pow_add, ← cover, ← length]
      exact word_lt bytes
    have high : bs.heldBits % 2 ^ bs.numHeldBits * 2 ^ num < 2 ^ 32 := by
      calc bs.heldBits % 2 ^ bs.numHeldBits * 2 ^ num
          < 2 ^ bs.numHeldBits * 2 ^ num :=
            Nat.mul_lt_mul_of_pos_right (Nat.mod_lt _ (Nat.two_pow_pos _)) (Nat.two_pow_pos num)
        _ = 2 ^ (bs.numHeldBits + num) := (pow_add ..).symm
        _ ≤ 2 ^ 32 := Nat.pow_le_pow_right (by decide) word
    have digits : value (bs.rest.take (bs.numHeldBits + num)) =
        bs.heldBits % 2 ^ bs.numHeldBits * 2 ^ num + loadedWord / 2 ^ spare := by
      rw [rest, List.take_left' frontLength, value_append, value_bitsOf, value_bitsOf, bitsOf_length,
        Nat.mod_eq_of_lt below]
    rw [digits, Nat.shiftLeft_eq, Nat.mod_eq_of_lt high, Nat.shiftRight_eq_div_pow,
      or_add num (Dvd.intro_left _ rfl) below]
  · have := Nat.mod_lt loadedWord (show 0 < 2 ^ 8 by decide)
    constructor <;> simp only [after]
    · omega
    · exact this
    · omega
    · omega
    · omega
  · rw [rest, List.drop_left' frontLength]
    simp only [after, BitstreamBuf.rest, bitsOf_mod (show spare ≤ 8 by omega)]

theorem bsRead_ok {bs : BitstreamBuf} (valid : bs.Valid) {n : Nat} (word : n ≤ 32)
    (aligned : n = 32 → bs.numHeldBits ≠ 0) (fits : n ≤ bs.rest.length) :
    Read bs n (bsRead bs n) := by
  by_cases held : n ≤ bs.numHeldBits
  · exact bsRead_held valid held
  · exact bsRead_load valid (by omega) word aligned fits

theorem bsRead_error {bs : BitstreamBuf} (valid : bs.Valid) {n : Nat}
    (bad : 32 < n ∨ n = 32 ∧ bs.numHeldBits = 0 ∨ bs.rest.length < n) :
    ∃ fault, bsRead bs n = .error fault ∧ fault.Trip := by
  have held := valid.held
  have pointer := valid.pointer
  have length := bs.rest_length
  unfold bsRead
  by_cases wide : 32 < n
  · exact ⟨.assertion, by simp only [wide, if_true], trivial⟩
  · have past : ¬ n ≤ bs.numHeldBits := by omega
    simp only [wide, past, if_false]
    by_cases shift : 32 ≤ n - bs.numHeldBits
    · exact ⟨.shift, by simp only [shift, if_true], trivial⟩
    · have short : bs.buf.length ≤ bs.bufRdptr + (n - bs.numHeldBits - 1) >>> 3 := by
        rw [Nat.shiftRight_eq_div_pow]
        omega
      exact ⟨.assertion, by simp only [shift, short, if_true, if_false], trivial⟩

/-- The bits not yet read end with whole bytes, so their number tells whether
bits are held. -/
theorem aligned_iff {bs : BitstreamBuf} (valid : bs.Valid) :
    8 ∣ bs.rest.length ↔ bs.numHeldBits = 0 := by
  have held := valid.held
  rw [bs.rest_length]
  constructor
  · intro h
    omega
  · intro h
    omega

/-- A computation on the stream does what is expected of its unread bits. It
faults where nothing is expected, and ends in any case. -/
def Follows {α : Type} (bs : BitstreamBuf) (result : Except Fault (α × BitstreamBuf)) :
    Option (α × List Bool) → Prop
  | some (a, rest) => ∃ bs', result = .ok (a, bs') ∧ bs'.Valid ∧ bs'.rest = rest ∧ bs'.buf = bs.buf
  | none => ∃ fault, result = .error fault ∧ fault.Trip

/-- `bs_read` on the unread bits. -/
def readBits (n : Nat) (bits : List Bool) : Option (Nat × List Bool) :=
  if 32 < n ∨ n = 32 ∧ 8 ∣ bits.length then none else take n bits

theorem bsRead_follows {bs : BitstreamBuf} (valid : bs.Valid) (n : Nat) :
    Follows bs (bsRead bs n) (readBits n bs.rest) := by
  unfold readBits
  by_cases refused : 32 < n ∨ n = 32 ∧ 8 ∣ bs.rest.length
  · rw [if_pos refused]
    rw [aligned_iff valid] at refused
    exact bsRead_error valid (by omega)
  · rw [if_neg refused, take]
    rw [aligned_iff valid] at refused
    by_cases fits : n ≤ bs.rest.length
    · rw [if_pos fits]
      obtain ⟨bs', done⟩ := bsRead_ok valid (n := n) (by omega) (by omega) fits
      exact ⟨bs', done⟩
    · rw [if_neg fits]
      exact bsRead_error valid (by omega)

/-- A computation followed by another. -/
theorem Follows.bind {α β : Type} {bs : BitstreamBuf} {first : Except Fault (α × BitstreamBuf)}
    {expected : Option (α × List Bool)} (follows : Follows bs first expected)
    (next : α → BitstreamBuf → Except Fault (β × BitstreamBuf))
    (rest : α → List Bool → Option (β × List Bool))
    (continues : ∀ a bs', bs'.Valid → bs'.buf = bs.buf → Follows bs' (next a bs') (rest a bs'.rest)) :
    Follows bs (first >>= fun r => next r.1 r.2) (expected >>= fun r => rest r.1 r.2) := by
  cases expected with
  | none =>
    obtain ⟨fault, rfl, ends⟩ := follows
    exact ⟨fault, rfl, ends⟩
  | some pair =>
    obtain ⟨a, bits⟩ := pair
    obtain ⟨bs', rfl, valid, rfl, same⟩ := follows
    have later := continues a bs' valid same
    simp only [Bind.bind, Except.bind, Option.bind]
    cases result : rest a bs'.rest with
    | none =>
      rw [result] at later
      exact later
    | some pair =>
      rw [result] at later
      obtain ⟨bs'', run, valid'', bits'', same''⟩ := later
      exact ⟨bs'', run, valid'', bits'', same''.trans same⟩

theorem take_one (bits : List Bool) :
    readBits 1 bits = match bits with
      | [] => none
      | b :: rest => some (b.toNat, rest) := by
  cases bits with
  | nil => rfl
  | cons b rest => simp [readBits, take, value]

/-- The loop reads zeros up to the first one, and has rounds enough to see them all. -/
theorem bsReadZeros_follows {bs : BitstreamBuf} (valid : bs.Valid) {fuel : Nat}
    (enough : bs.rest.length < fuel) :
    Follows bs (bsReadZeros fuel bs)
      ((leadingZeros bs.rest).map fun (zeros, rest) => (zeros + 1, rest)) := by
  induction fuel generalizing bs with
  | zero => omega
  | succ fuel ih =>
    have read := bsRead_follows valid 1
    rw [take_one] at read
    cases bits : bs.rest with
    | nil =>
      rw [bits] at read
      obtain ⟨fault, error, ends⟩ := read
      exact ⟨fault, by simp only [bsReadZeros, error, bind, Except.bind], ends⟩
    | cons b rest =>
      rw [bits] at read enough
      obtain ⟨bs', run, valid', rest', same⟩ := read
      cases b
      · have later := ih valid' (by rw [rest']; simpa using enough)
        rw [rest'] at later
        cases found : leadingZeros rest with
        | none =>
          rw [found] at later
          obtain ⟨fault, error, ends⟩ := later
          simp only [leadingZeros, found, Option.map_none]
          exact ⟨fault, by simp [bsReadZeros, run, bind, Except.bind, error], ends⟩
        | some pair =>
          obtain ⟨zeros, tail⟩ := pair
          rw [found] at later
          obtain ⟨bs'', run', valid'', rest'', same'⟩ := later
          simp only [leadingZeros, found, Option.map_some]
          exact ⟨bs'', by simp [bsReadZeros, run, bind, Except.bind, run'], valid'', rest'',
            same'.trans same⟩
      · exact ⟨bs', by simp [bsReadZeros, run, bind, Except.bind], valid', rest', same⟩

theorem take_lt {n v : Nat} {bits rest : List Bool} (read : take n bits = some (v, rest)) :
    v < 2 ^ n := by
  unfold take at read
  split at read
  case isTrue fits =>
    obtain ⟨rfl, -⟩ : value (bits.take n) = v ∧ bits.drop n = rest := by simpa using read
    have bound := value_lt (bits.take n)
    rwa [List.length_take_of_le fits] at bound
  case isFalse => contradiction

/-- An Exp-Golomb code read by its two halves: the zeros, and as many bits. -/
theorem golomb_halves {α : Type} (bits : List Bool) {f : Nat → Nat → α} {g : Nat → α}
    (agree : ∀ length v, length < 32 → v < 2 ^ length → f length v = g (2 ^ length + v)) :
    ((((leadingZeros bits).map fun (zeros, rest) => (zeros + 1, rest)) >>= fun r =>
      readBits r.1 r.2 >>= fun s => if 32 ≤ r.1 then none else some (f r.1 s.1, s.2)) :
        Option (α × List Bool)) =
      (golomb 31 (false :: bits)).map fun (v, rest) => (g v, rest) := by
  simp only [golomb, leadingZeros, bind, Option.bind]
  cases leadingZeros bits with
  | none => rfl
  | some pair =>
    obtain ⟨zeros, rest⟩ := pair
    simp only [Option.map_some]
    by_cases large : 31 < zeros + 1
    · simp only [large, if_true, show 32 ≤ zeros + 1 from large, Option.map_none]
      cases readBits (zeros + 1) rest <;> rfl
    · have small : ¬ (32 < zeros + 1 ∨ zeros + 1 = 32 ∧ 8 ∣ rest.length) := by omega
      simp only [large, if_false, show ¬ 32 ≤ zeros + 1 from large, readBits, small]
      cases digits : take (zeros + 1) rest with
      | none => rfl
      | some pair =>
        simp only [Option.map_some, agree _ _ (Nat.not_lt.mp large |> Nat.lt_succ_of_le) (take_lt digits)]

theorem rounds_enough {bs : BitstreamBuf} (valid : bs.Valid) : bs.rest.length < bs.rounds := by
  have held := valid.held
  rw [bs.rest_length, BitstreamBuf.rounds]
  omega

/-- The common part of `bs_read_uvlc` and `bs_read_svlc`. -/
theorem bsReadGolomb_follows {α : Type} {bs : BitstreamBuf} (valid : bs.Valid)
    {f : Nat → Nat → α} {g : Nat → α}
    (agree : ∀ length v, length < 32 → v < 2 ^ length → f length v = g (2 ^ length + v)) :
    Follows bs
      (bsRead bs 1 >>= fun r => if r.1 = 0 then
          bsReadZeros r.2.rounds r.2 >>= fun s => bsRead s.2 s.1 >>= fun t =>
            if 32 ≤ s.1 then .error .shift else .ok (f s.1 t.1, t.2)
        else .ok (g 1, r.2))
      ((golomb 31 bs.rest).map fun (v, rest) => (g v, rest)) := by
  have read := bsRead_follows valid 1
  rw [take_one] at read
  cases bits : bs.rest with
  | nil =>
    rw [bits] at read
    obtain ⟨fault, error, ends⟩ := read
    exact ⟨fault, by simp only [error, bind, Except.bind], ends⟩
  | cons b rest =>
    rw [bits] at read
    obtain ⟨bs', run, valid', rfl, same⟩ := read
    cases b
    · have zeros := bsReadZeros_follows valid' (rounds_enough valid')
      have both := zeros.bind
        (fun length s => bsRead s length >>= fun t =>
          if 32 ≤ length then .error .shift else .ok (f length t.1, t.2))
        (fun length bits => readBits length bits >>= fun t =>
          if 32 ≤ length then none else some (f length t.1, t.2)) <| by
        intro length s valid'' same''
        refine (bsRead_follows valid'' length).bind
          (fun v t => if 32 ≤ length then .error .shift else .ok (f length v, t))
          (fun v bits => if 32 ≤ length then none else some (f length v, bits)) ?_
        intro v t valid''' same'''
        split
        · exact ⟨.shift, rfl, trivial⟩
        · exact ⟨t, rfl, valid''', rfl, rfl⟩
      rw [golomb_halves bs'.rest agree] at both
      simp only [run, bind, Except.bind, Bool.toNat_false, if_true] at both ⊢
      cases expected : (golomb 31 (false :: bs'.rest)).map fun (v, rest) => (g v, rest) with
      | none =>
        rw [expected] at both
        exact both
      | some pair =>
        rw [expected] at both
        obtain ⟨bs'', ran, valid'', rest'', same''⟩ := both
        exact ⟨bs'', ran, valid'', rest'', same''.trans same⟩
    · have one : golomb 31 (true :: bs'.rest) = some (1, bs'.rest) := by
        simp [golomb, leadingZeros, take, value]
      rw [one]
      exact ⟨bs', by simp [run, bind, Except.bind], valid', rfl, same⟩

/-- ue(v). -/
def unsigned (bits : List Bool) : Option (Nat × List Bool) :=
  (golomb 31 bits).map fun (v, rest) => (v - 1, rest)

/-- se(v), the numbers from one on counting 0, 1, -1, 2, -2 and so on. -/
def signed (bits : List Bool) : Option (Int × List Bool) :=
  (golomb 31 bits).map fun (v, rest) => (if v % 2 = 1 then -(v / 2 : Nat) else (v / 2 : Nat), rest)

theorem bsReadUvlc_follows {bs : BitstreamBuf} (valid : bs.Valid) :
    Follows bs (bsReadUvlc bs) (unsigned bs.rest) := by
  refine bsReadGolomb_follows valid (f := fun length v => (v + (1 <<< length - 1)) % 2 ^ 32)
    (g := fun v => v - 1) fun length v small below => ?_
  have high : 2 ^ length ≤ 2 ^ 31 := Nat.pow_le_pow_right (by decide) (by omega)
  have positive := Nat.two_pow_pos length
  have bound : v + (2 ^ length - 1) < 2 ^ 32 := by omega
  simp only [Nat.one_shiftLeft]
  rw [Nat.mod_eq_of_lt bound]
  omega

theorem bsReadSvlc_follows {bs : BitstreamBuf} (valid : bs.Valid) :
    Follows bs (bsReadSvlc bs) (signed bs.rest) := by
  refine bsReadGolomb_follows valid
    (f := fun length v => let bits := (v + 1 <<< length) % 2 ^ 32
      (if bits &&& 1 = 1 then -(bits >>> 1 : Nat) else (bits >>> 1 : Nat) : Int))
    (g := fun v => if v % 2 = 1 then -(v / 2 : Nat) else (v / 2 : Nat)) fun length v small below => ?_
  have high : 2 ^ length ≤ 2 ^ 31 := Nat.pow_le_pow_right (by decide) (by omega)
  have bound : v + 2 ^ length < 2 ^ 32 := by omega
  have same : (v + 1 <<< length) % 2 ^ 32 = 2 ^ length + v := by
    rw [Nat.one_shiftLeft, Nat.mod_eq_of_lt bound, Nat.add_comm]
  simp only [same, Nat.and_one_is_mod, Nat.shiftRight_one]

/-! ## Emulation prevention -/

/-- The bytes without the byte 3 behind two zeros. -/
def unescape : List UInt8 → List UInt8
  | a :: b :: c :: rest =>
    if a = 0 ∧ b = 0 ∧ c = 3 then a :: b :: unescape rest else a :: unescape (b :: c :: rest)
  | bytes => bytes

/-- Whether the search for such a byte comes to have just two bytes left. -/
def looksPast : List UInt8 → Bool
  | a :: b :: c :: rest =>
    if a = 0 ∧ b = 0 ∧ c = 3 then looksPast rest else looksPast (b :: c :: rest)
  | bytes => bytes.length == 2

theorem next24Bits_three (virt : Nat → UInt8) (p : Nat) :
    next24Bits virt p = 0x000003 ↔ virt p = 0 ∧ virt (p + 1) = 0 ∧ virt (p + 2) = 3 := by
  have h1 := (virt (p + 1)).toNat_lt
  have h2 := (virt (p + 2)).toNat_lt
  have high : (virt p).toNat <<< 16 ||| (virt (p + 1)).toNat <<< 8 =
      (virt p).toNat * 2 ^ 16 + (virt (p + 1)).toNat * 2 ^ 8 := by
    rw [Nat.shiftLeft_eq, Nat.shiftLeft_eq]
    exact or_add 16 (Dvd.intro_left _ rfl) (by omega)
  have bytes : next24Bits virt p =
      (virt p).toNat * 2 ^ 16 + (virt (p + 1)).toNat * 2 ^ 8 + (virt (p + 2)).toNat := by
    rw [next24Bits, high, or_add 8 (by omega) h2]
  rw [bytes, ← UInt8.toNat_inj, ← UInt8.toNat_inj, ← UInt8.toNat_inj]
  change _ ↔ _ = 0 ∧ _ = 0 ∧ _ = 3
  constructor
  · intro h
    omega
  · intro h
    omega

/-- The loop with `m` bytes left writes them without emulation prevention bytes.
It looks at them, and at the byte behind them when two of them are left. -/
theorem nalRemoveEmulBytesLoop_spec (virt : Nat → UInt8) {nalSize fuel i m : Nat} (ps : Nat)
    (left : i + m = nalSize) (enough : m ≤ fuel) :
    nalRemoveEmulBytesLoop virt nalSize 1 0x000003 fuel i ps =
      ⟨unescape (bytesAt virt ps m),
        if m = 0 then 0 else ps + m + (looksPast (bytesAt virt ps m)).toNat⟩ := by
  induction fuel generalizing i m ps with
  | zero =>
    obtain rfl : m = 0 := by omega
    rfl
  | succ fuel ih =>
    match m, left, enough with
    | 0, left, _ =>
      have done : ¬ i < nalSize := by omega
      simp [nalRemoveEmulBytesLoop, done, unescape]
    | 1, left, _ =>
      have more : i < nalSize := by omega
      have last : ¬ i + 1 < nalSize := by omega
      have next := ih (i := i + 1) (m := 0) (ps + 1) (by omega) (by omega)
      simp [nalRemoveEmulBytesLoop, more, last, next, unescape, looksPast, bytesAt_succ, Unescaped.push]
    | 2, left, enough =>
      have more : i < nalSize := by omega
      have pair : i + 1 < nalSize := by omega
      have next := ih (i := i + 1) (m := 1) (ps + 1) (by omega) (by omega)
      have past : ¬ i + 3 < nalSize := by omega
      have done : nalRemoveEmulBytesLoop virt nalSize 1 3 fuel (i + 3) (ps + 3) = {} := by
        cases fuel <;> simp [nalRemoveEmulBytesLoop, past]
      simp only [nalRemoveEmulBytesLoop, more, pair, if_true, next, done]
      split <;> simp [unescape, looksPast, bytesAt_succ, Unescaped.push]
    | m + 3, left, enough =>
      have more : i < nalSize := by omega
      have pair : i + 1 < nalSize := by omega
      have skip := ih (i := i + 3) (m := m) (ps + 3) (by omega) (by omega)
      have next := ih (i := i + 1) (m := m + 2) (ps + 1) (by omega) (by omega)
      simp only [nalRemoveEmulBytesLoop, more, pair, if_true, next24Bits_three, skip, next]
      simp only [bytesAt_succ, unescape, looksPast, Nat.add_assoc, Nat.reduceAdd]
      split
      · cases m with
        | zero => simp [Unescaped.push, looksPast]
        | succ m =>
          simp [Unescaped.push]
          omega
      · simp [Unescaped.push]
        omega

theorem nalRemoveEmulBytes_spec (virt : Nat → UInt8) (p : Nat) {n : Nat} (some_ : 0 < n) :
    nalRemoveEmulBytes virt p n 1 0x000003 =
      ⟨unescape (bytesAt virt (p + 1) (n - 1)),
        if n = 1 then 0 else p + n + (looksPast (bytesAt virt (p + 1) (n - 1))).toNat⟩ := by
  rw [nalRemoveEmulBytes, Int.toNat_natCast,
    nalRemoveEmulBytesLoop_spec virt (p + 1) (m := n - 1) (by omega) (by omega)]
  have one : n - 1 = 0 ↔ n = 1 := by omega
  simp only [one]
  congr 2
  omega

theorem unescape_length (bytes : List UInt8) : (unescape bytes).length ≤ bytes.length := by
  fun_induction unescape bytes with
  | case1 a b c rest escaped ih => simpa using ih.trans (Nat.le_succ _)
  | case2 a b c rest plain ih => simpa using ih
  | case3 bytes => exact le_refl _

/-- Bytes behind others do not change what is made of these. -/
theorem unescape_prefix (bytes more : List UInt8) :
    ∃ tail, unescape (bytes ++ more) = unescape bytes ++ tail := by
  fun_induction unescape bytes with
  | case1 a b c rest escaped ih =>
    obtain ⟨tail, eq⟩ := ih
    exact ⟨tail, by simp [unescape, escaped, eq]⟩
  | case2 a b c rest plain ih =>
    obtain ⟨tail, eq⟩ := ih
    refine ⟨tail, ?_⟩
    rw [List.cons_append, List.cons_append] at eq
    simp only [List.cons_append, unescape, plain, if_false, eq]
  | case3 bytes short =>
    match bytes, short with
    | [], _ => exact ⟨unescape more, rfl⟩
    | [a], _ =>
      match more with
      | [] => exact ⟨[], rfl⟩
      | [b] => exact ⟨[b], rfl⟩
      | b :: c :: rest =>
        by_cases escaped : a = 0 ∧ b = 0 ∧ c = 3
        · exact ⟨b :: unescape rest, by simp [unescape, escaped]⟩
        · exact ⟨unescape (b :: c :: rest), by simp [unescape, escaped]⟩
    | [a, b], _ =>
      match more with
      | [] => exact ⟨[], rfl⟩
      | c :: rest =>
        by_cases escaped : a = 0 ∧ b = 0 ∧ c = 3
        · exact ⟨unescape rest, by simp [unescape, escaped]⟩
        · cases rest with
          | nil => exact ⟨[c], by simp [unescape, escaped]⟩
          | cons d rest =>
            by_cases later : b = 0 ∧ c = 0 ∧ d = 3
            · exact ⟨c :: unescape rest, by simp [unescape, later]⟩
            · exact ⟨unescape (c :: d :: rest), by simp [unescape, escaped, later]⟩
    | a :: b :: c :: rest, short => exact absurd rfl (short a b c rest)

/-! ## Parsing functions -/

theorem readBits_extend {n v : Nat} {bits rest : List Bool} (read : readBits n bits = some (v, rest))
    (bytes : List UInt8) : readBits n (bits ++ ofBytes bytes) = some (v, rest ++ ofBytes bytes) := by
  have aligned : 8 ∣ (bits ++ ofBytes bytes).length ↔ 8 ∣ bits.length := by
    rw [List.length_append, ofBytes_length, Nat.dvd_add_left (Nat.dvd_mul_right 8 _)]
  unfold readBits at read ⊢
  simp only [aligned]
  split at read
  case isTrue => contradiction
  case isFalse accepted => rw [if_neg accepted, take_extend read]

namespace Reads
variable {α β : Type}

/-- What a parsing function makes of some bits, and the bits it leaves. -/
def bits : Reads α → List Bool → Option (α × List Bool)
  | ret a, bs => some (a, bs)
  | fail _, _ => none
  | code length next, bs =>
    if length = 0 then none else readBits length bs >>= fun r => (next r.1).bits r.2
  | flag next, bs => readBits 1 bs >>= fun r => (next r.1).bits r.2
  | uvlc next, bs => unsigned bs >>= fun r => (next r.1).bits r.2
  | svlc next, bs => signed bs >>= fun r => (next r.1).bits r.2

/-- A parsing function that fails by an assertion or a shift at most. -/
def Ends : Reads α → Prop
  | ret _ => True
  | fail fault => fault.Trip
  | code _ next => ∀ v, (next v).Ends
  | flag next => ∀ v, (next v).Ends
  | uvlc next => ∀ v, (next v).Ends
  | svlc next => ∀ v, (next v).Ends

theorem run_follows (reads : Reads α) (ends : reads.Ends) {bs : BitstreamBuf} (valid : bs.Valid) :
    Follows bs (reads.run bs) (reads.bits bs.rest) := by
  induction reads generalizing bs with
  | ret a => exact ⟨bs, rfl, valid, rfl, rfl⟩
  | fail fault => exact ⟨fault, rfl, ends⟩
  | code length next ih =>
    simp only [run, bits, bsReadCode]
    split
    case isTrue => exact ⟨.assertion, rfl, trivial⟩
    case isFalse =>
      exact (bsRead_follows valid length).bind (fun v bs => (next v).run bs)
        (fun v bits => (next v).bits bits) fun v bs' valid' _ => ih v (ends v) valid'
  | flag next ih =>
    exact (bsRead_follows valid 1).bind (fun v bs => (next v).run bs)
      (fun v bits => (next v).bits bits) fun v bs' valid' _ => ih v (ends v) valid'
  | uvlc next ih =>
    exact (bsReadUvlc_follows valid).bind (fun v bs => (next v).run bs)
      (fun v bits => (next v).bits bits) fun v bs' valid' _ => ih v (ends v) valid'
  | svlc next ih =>
    exact (bsReadSvlc_follows valid).bind (fun v bs => (next v).run bs)
      (fun v bits => (next v).bits bits) fun v bs' valid' _ => ih v (ends v) valid'

theorem bits_bind (reads : Reads α) (f : α → Reads β) (bs : List Bool) :
    (reads >>= f).bits bs = reads.bits bs >>= fun r => (f r.1).bits r.2 := by
  change (reads.bind f).bits bs = _
  induction reads generalizing bs with
  | ret a => rfl
  | fail fault => rfl
  | code length next ih =>
    simp only [Reads.bind, bits, ih]
    split
    · rfl
    · exact (Option.bind_assoc ..).symm
  | flag next ih =>
    simp only [Reads.bind, bits, ih]
    exact (Option.bind_assoc ..).symm
  | uvlc next ih =>
    simp only [Reads.bind, bits, ih]
    exact (Option.bind_assoc ..).symm
  | svlc next ih =>
    simp only [Reads.bind, bits, ih]
    exact (Option.bind_assoc ..).symm

theorem Ends.bind {reads : Reads α} {f : α → Reads β} (first : reads.Ends) (later : ∀ a, (f a).Ends) :
    (reads >>= f).Ends := by
  change (reads.bind f).Ends
  induction reads with
  | ret a => exact later a
  | fail fault => exact first
  | code length next ih => exact fun v => ih v (first v)
  | flag next ih => exact fun v => ih v (first v)
  | uvlc next ih => exact fun v => ih v (first v)
  | svlc next ih => exact fun v => ih v (first v)

/-- Two steps of an extension: the first read, then the rest. -/
private theorem bind_extend {γ : Type} {f : List Bool → Option (γ × List Bool)}
    {next : γ → List Bool → Option (α × List Bool)} {bs rest more : List Bool} {a : α}
    (first : ∀ v rest, f bs = some (v, rest) → f (bs ++ more) = some (v, rest ++ more))
    (later : ∀ v bs rest, next v bs = some (a, rest) → next v (bs ++ more) = some (a, rest ++ more))
    (done : (f bs >>= fun r => next r.1 r.2) = some (a, rest)) :
    (f (bs ++ more) >>= fun r => next r.1 r.2) = some (a, rest ++ more) := by
  cases step : f bs with
  | none => simp [step] at done
  | some pair =>
    obtain ⟨v, middle⟩ := pair
    rw [step] at done
    rw [first v middle step]
    exact later v middle rest done

/-- Bytes behind those it needs do not matter to a parsing function. -/
theorem bits_extend {reads : Reads α} {bs rest : List Bool} {a : α}
    (read : reads.bits bs = some (a, rest)) (bytes : List UInt8) :
    reads.bits (bs ++ ofBytes bytes) = some (a, rest ++ ofBytes bytes) := by
  induction reads generalizing bs rest with
  | ret b =>
    obtain ⟨rfl, rfl⟩ : b = a ∧ bs = rest := by simpa [bits] using read
    rfl
  | fail fault => contradiction
  | code length next ih =>
    simp only [bits] at read ⊢
    split at read
    case isTrue => contradiction
    case isFalse nonzero =>
      rw [if_neg nonzero]
      exact bind_extend (fun v rest h => readBits_extend h bytes) (fun v bs rest h => ih v h) read
  | flag next ih =>
    exact bind_extend (fun v rest h => readBits_extend h bytes) (fun v bs rest h => ih v h) read
  | uvlc next ih =>
    refine bind_extend (f := unsigned) (fun v rest h => ?_) (fun v bs rest h => ih v h) read
    unfold unsigned at h ⊢
    obtain ⟨⟨w, tail⟩, found, eq⟩ := Option.map_eq_some_iff.mp h
    obtain ⟨rfl, rfl⟩ := Prod.mk.inj eq
    rw [golomb_extend found]
    rfl
  | svlc next ih =>
    refine bind_extend (f := signed) (fun v rest h => ?_) (fun v bs rest h => ih v h) read
    unfold signed at h ⊢
    obtain ⟨⟨w, tail⟩, found, eq⟩ := Option.map_eq_some_iff.mp h
    obtain ⟨rfl, rfl⟩ := Prod.mk.inj eq
    rw [golomb_extend found]
    rfl

end Reads

end ImxTest.Pitcher
