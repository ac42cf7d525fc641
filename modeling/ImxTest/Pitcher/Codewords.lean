import ImxTest.Pitcher.BitstreamProofs

/-! What is written to a bit string comes back from the readers of
pitcher/bitstream.c: numbers of some widths, Exp-Golomb codes, and bytes behind
emulation prevention. -/
namespace ImxTest.Pitcher

open Lib.BitString

/-! ## Numbers of some widths -/

/-- One call of `bs_read` after another. -/
def bsReadAll : List Nat → BitstreamBuf → Except Fault (List Nat × BitstreamBuf)
  | [], bs => .ok ([], bs)
  | w :: ws, bs => do
    let (v, bs) ← bsRead bs w
    let (vs, bs) ← bsReadAll ws bs
    .ok (v :: vs, bs)

/-- The numbers in a bit string that is cut by some widths. -/
def fields : List Nat → List Bool → List Nat
  | [], _ => []
  | w :: ws, bits => value (bits.take w) :: fields ws (bits.drop w)

/-- Where `left` bits are left that end with whole bytes, no word is read from the
beginning of a byte. -/
def NoAlignedWord (left : Nat) (ws : List Nat) : Prop :=
  ∀ before after, ws = before ++ 32 :: after → ¬ 8 ∣ left - before.sum

theorem NoAlignedWord.tail {left w : Nat} {ws : List Nat} (none : NoAlignedWord left (w :: ws)) :
    NoAlignedWord (left - w) ws := by
  rintro before after rfl
  have later := none (w :: before) after rfl
  rwa [List.sum_cons, Nat.sub_add_eq] at later

section Widths
variable {bs : BitstreamBuf} {ws : List Nat}

theorem bsReadAll_fields (valid : bs.Valid) (widths : ∀ w ∈ ws, w ≤ 32) (fits : ws.sum ≤ bs.rest.length)
    (none : NoAlignedWord bs.rest.length ws) :
    ∃ bs', bsReadAll ws bs = .ok (fields ws bs.rest, bs') ∧ bs'.Valid ∧
      bs'.rest = bs.rest.drop ws.sum ∧ bs'.buf = bs.buf := by
  induction ws generalizing bs with
  | nil => exact ⟨bs, rfl, valid, rfl, rfl⟩
  | cons w ws ih =>
    rw [List.sum_cons] at fits
    have word : w ≤ 32 := widths w List.mem_cons_self
    have aligned : w = 32 → bs.numHeldBits ≠ 0 := by
      rintro rfl here
      exact none [] ws rfl ((aligned_iff valid).mpr here)
    obtain ⟨mid, read, valid', rest, same⟩ := (bsRead_ok valid word aligned (by omega)).ok
    have left : mid.rest.length = bs.rest.length - w := by rw [rest, List.length_drop]
    obtain ⟨bs', later, valid'', rest', same'⟩ := ih valid'
      (fun v mem => widths v (List.mem_cons_of_mem w mem)) (by omega) (left ▸ none.tail)
    refine ⟨bs', ?_, valid'', ?_, same'.trans same⟩
    · simp only [bsReadAll, read, later, bind, Except.bind, fields, rest]
    · rw [rest', rest, List.drop_drop, List.sum_cons]

/-- A word at the beginning of a byte is not read. -/
theorem noAlignedWord_of_ok (valid : bs.Valid) {result : List Nat × BitstreamBuf}
    (read : bsReadAll ws bs = .ok result) : NoAlignedWord bs.rest.length ws := by
  induction ws generalizing bs result with
  | nil =>
    intro before after split
    simp at split
  | cons w ws ih =>
    have follows := bsRead_follows valid w
    cases first : readBits w bs.rest with
    | none =>
      rw [first] at follows
      obtain ⟨fault, error, -⟩ := follows
      simp [bsReadAll, error, bind, Except.bind] at read
    | some pair =>
      obtain ⟨v, rest⟩ := pair
      rw [first] at follows
      obtain ⟨mid, head, valid', rfl, -⟩ := follows
      have plain : ¬ (w = 32 ∧ 8 ∣ bs.rest.length) := by
        intro word
        simp [readBits, word] at first
      have left : mid.rest.length = bs.rest.length - w := by
        unfold readBits take at first
        split_ifs at first
        rw [← (Prod.mk.inj (Option.some.inj first)).2, List.length_drop]
      cases tail : bsReadAll ws mid with
      | error fault => simp [bsReadAll, head, tail, bind, Except.bind] at read
      | ok pair =>
        have later := ih valid' tail
        rw [left] at later
        intro before after split
        cases before with
        | nil =>
          obtain ⟨rfl, rfl⟩ := List.cons.inj split
          exact fun divides => plain ⟨rfl, divides⟩
        | cons b before =>
          obtain ⟨rfl, rfl⟩ := List.cons.inj split
          rw [List.sum_cons, Nat.sub_add_eq]
          exact later before after rfl

end Widths

/-- The counter of a stream from its start on. -/
theorem numBitsRead_eq {bs : BitstreamBuf} (valid : bs.Valid) {n : Nat}
    (rest : bs.rest.length + n = 8 * bs.buf.length) : bs.numBitsRead = n % 2 ^ 32 := by
  have pointer := valid.pointer
  have loaded := valid.loaded
  rw [bs.rest_length] at rest
  rw [valid.count]
  congr 1
  omega

/-- The reads give the numbers of the bit string, and the counter their bits. -/
def ReadsFields (buf : List UInt8) (ws : List Nat) : Prop :=
  ∃ bs, bsReadAll ws (bsInit buf) = .ok (fields ws (ofBytes buf), bs) ∧ bs.numBitsRead = ws.sum

/-- Reads within the buffer give its numbers as long as none of 32 bits begins with a
byte, which shifts by the width of the operand, and the counter does not overflow. -/
theorem bsRead_fields_iff {buf : List UInt8} {ws : List Nat} (widths : ∀ w ∈ ws, 1 ≤ w ∧ w ≤ 32)
    (fits : ws.sum ≤ 8 * buf.length) :
    ReadsFields buf ws ↔
      (∀ before after, ws = before ++ 32 :: after → ¬ 8 ∣ before.sum) ∧ ws.sum < 2 ^ 32 := by
  have length : (bsInit buf).rest.length = 8 * buf.length := ofBytes_length buf
  have plain : NoAlignedWord (bsInit buf).rest.length ws ↔
      ∀ before after, ws = before ++ 32 :: after → ¬ 8 ∣ before.sum := by
    unfold NoAlignedWord
    rw [length]
    refine forall₂_congr fun before after => forall_congr' fun split => not_congr ?_
    have part : before.sum ≤ ws.sum := by
      rw [split, List.sum_append]
      omega
    omega
  constructor
  · rintro ⟨bs, read, count⟩
    have none := noAlignedWord_of_ok (BitstreamBuf.valid_init buf) read
    obtain ⟨bs', read', valid, rest, same⟩ := bsReadAll_fields (BitstreamBuf.valid_init buf)
      (fun w mem => (widths w mem).2) (by omega) none
    obtain rfl : bs = bs' := (Prod.mk.inj (Except.ok.inj (read.symm.trans read'))).2
    have wraps := numBitsRead_eq (n := ws.sum) valid (by
      rw [rest, List.length_drop, same, length]
      exact Nat.sub_add_cancel fits)
    refine ⟨plain.mp none, ?_⟩
    rw [← count, wraps]
    exact Nat.mod_lt _ (by decide)
  · rintro ⟨unaligned, bounded⟩
    obtain ⟨bs, read, valid, rest, same⟩ := bsReadAll_fields (BitstreamBuf.valid_init buf)
      (fun w mem => (widths w mem).2) (by omega) (plain.mpr unaligned)
    refine ⟨bs, read, ?_⟩
    rw [numBitsRead_eq (n := ws.sum) valid, Nat.mod_eq_of_lt bounded]
    rw [rest, List.length_drop, same, length]
    exact Nat.sub_add_cancel fits

theorem bsRead_fields_unaligned : ReadsFields [0xA5, 0x3C, 0x0F, 0xF0, 0x99] [1, 32, 3] := by
  refine (bsRead_fields_iff (by decide) (by decide)).mpr ⟨?_, by decide⟩
  intro before after split
  match before with
  | [] => simp at split
  | [a] =>
    obtain ⟨rfl, -⟩ := List.cons.inj split
    decide
  | [a, b] => simp at split
  | a :: b :: c :: before => simp at split

theorem bsRead_aligned_word : ¬ ReadsFields [0, 0, 0, 1] [32] := by
  rintro ⟨bs, read, -⟩
  cases read

/-! ## Exp-Golomb codes -/

/-- A value written as ue(v) or se(v). -/
inductive Codeword where
  | unsigned (v : Nat)
  | signed (s : Int)
deriving DecidableEq, Repr

namespace Codeword

/-- The values there are codes of at most 31 zeros for. -/
def Legal : Codeword → Prop
  | unsigned v => v < 2 ^ 32 - 1
  | signed s => s.natAbs < 2 ^ 31

instance : (e : Codeword) → Decidable e.Legal
  | unsigned v => inferInstanceAs (Decidable (v < 2 ^ 32 - 1))
  | signed s => inferInstanceAs (Decidable (s.natAbs < 2 ^ 31))

/-- The number whose code stands for the value: one more than its place in the order
0, 1, 2 and so on, or 0, 1, -1, 2, -2 and so on. -/
def codeNum : Codeword → Nat
  | unsigned v => v + 1
  | signed s => if 0 < s then 2 * s.natAbs else 2 * s.natAbs + 1

def word (e : Codeword) : List Bool := golombWord e.codeNum

def zeros (e : Codeword) : Nat := (e.word.takeWhile (!·)).length

/-- The next element of the same kind. -/
def read : Codeword → BitstreamBuf → Except Fault (Codeword × BitstreamBuf)
  | unsigned _, bs => (bsReadUvlc bs).map fun (v, bs) => (unsigned v, bs)
  | signed _, bs => (bsReadSvlc bs).map fun (s, bs) => (signed s, bs)

/-- Elements of the kinds of some others. -/
def readAll : List Codeword → BitstreamBuf → Except Fault (List Codeword × BitstreamBuf)
  | [], bs => .ok ([], bs)
  | e :: es, bs => do
    let (e, bs) ← e.read bs
    let (es, bs) ← readAll es bs
    .ok (e :: es, bs)

theorem word_length (e : Codeword) : e.word.length = 2 * e.zeros + 1 := by
  rw [zeros, word, golombWord_zeros, golombWord_length]

theorem golomb_codeNum {e : Codeword} (legal : e.Legal) (rest : List Bool) :
    golomb 31 (e.word ++ rest) = some (e.codeNum, rest) := by
  have bound : e.codeNum ≠ 0 ∧ e.codeNum < 2 ^ 32 := by
    cases e with
    | unsigned v =>
      simp only [codeNum, Legal] at legal ⊢
      omega
    | signed s =>
      simp only [codeNum, Legal] at legal ⊢
      split_ifs
      · omega
      · omega
  exact golomb_word bound.1 (Nat.le_of_lt_succ ((Nat.log2_lt bound.1).mpr bound.2)) rest

variable {bs : BitstreamBuf} {rest : List Bool}

/-- Reading a code gives its value, and takes just the code. -/
theorem read_word {e : Codeword} (legal : e.Legal) (valid : bs.Valid) (here : bs.rest = e.word ++ rest) :
    ∃ bs', e.read bs = .ok (e, bs') ∧ bs'.Valid ∧ bs'.rest = rest ∧ bs'.buf = bs.buf := by
  have code := golomb_codeNum legal rest
  cases e with
  | unsigned v =>
    have follows := bsReadUvlc_follows valid
    rw [here, Pitcher.unsigned, code] at follows
    obtain ⟨bs', read, done⟩ := follows
    exact ⟨bs', by simp [Codeword.read, read, Except.map, codeNum], done⟩
  | signed s =>
    have follows := bsReadSvlc_follows valid
    rw [here, Pitcher.signed, code] at follows
    obtain ⟨bs', read, done⟩ := follows
    refine ⟨bs', ?_, done⟩
    have back : (if (signed s).codeNum % 2 = 1 then -(((signed s).codeNum / 2 : Nat) : Int)
        else (((signed s).codeNum / 2 : Nat) : Int)) = s := by
      simp only [codeNum]
      split_ifs <;> omega
    simp only [Codeword.read, read, Except.map, back]

theorem readAll_words {es : List Codeword} (legal : ∀ e ∈ es, e.Legal) (valid : bs.Valid)
    (here : bs.rest = es.flatMap word ++ rest) :
    ∃ bs', readAll es bs = .ok (es, bs') ∧ bs'.Valid ∧ bs'.rest = rest ∧ bs'.buf = bs.buf := by
  induction es generalizing bs with
  | nil => exact ⟨bs, rfl, valid, here, rfl⟩
  | cons e es ih =>
    rw [List.flatMap_cons, List.append_assoc] at here
    obtain ⟨mid, first, valid', rest', same⟩ := read_word (legal e List.mem_cons_self) valid here
    obtain ⟨bs', later, valid'', rest'', same'⟩ :=
      ih (fun f mem => legal f (List.mem_cons_of_mem e mem)) valid' rest'
    exact ⟨bs', by simp only [readAll, first, later, bind, Except.bind], valid'', rest'', same'.trans same⟩

theorem words_length (es : List Codeword) :
    (es.flatMap word).length = (es.map fun e => 2 * e.zeros + 1).sum := by
  rw [List.length_flatMap]
  exact congrArg List.sum (List.map_congr_left fun e _ => e.word_length)

/-- Behind any bits that were read, codes are read as their values and the counter
counts the bits they have. -/
theorem codes_read {buf : List UInt8} {lead rest : List Bool} {ws vs : List Nat} {es : List Codeword}
    {bs : BitstreamBuf} (legal : ∀ e ∈ es, e.Legal)
    (holds : ofBytes buf = lead ++ (es.flatMap word ++ rest)) (widths : ∀ w ∈ ws, w ≤ 32)
    (skipped : ws.sum = lead.length) (at_ : bsReadAll ws (bsInit buf) = .ok (vs, bs)) :
    ∃ bs', readAll es bs = .ok (es, bs') ∧ bs'.rest = rest ∧
      bs'.numBitsRead = (bs.numBitsRead + (es.map fun e => 2 * e.zeros + 1).sum) % 2 ^ 32 := by
  have total : (bsInit buf).rest.length = 8 * buf.length := ofBytes_length buf
  have length := congrArg List.length holds
  rw [ofBytes_length, List.length_append, List.length_append, words_length] at length
  obtain ⟨mid, read, valid, left, same⟩ := bsReadAll_fields (BitstreamBuf.valid_init buf) widths
    (by omega) (noAlignedWord_of_ok (BitstreamBuf.valid_init buf) at_)
  obtain rfl : bs = mid := (Prod.mk.inj (Except.ok.inj (at_.symm.trans read))).2
  have here : bs.rest = es.flatMap word ++ rest := by
    rw [left, BitstreamBuf.rest_init, holds, skipped, List.drop_left]
  obtain ⟨bs', codes, valid', rest', same'⟩ := readAll_words legal valid here
  refine ⟨bs', codes, rest', ?_⟩
  have before := numBitsRead_eq (n := lead.length) valid (by
    rw [here, same, List.length_append, words_length]
    change _ = 8 * buf.length
    omega)
  rw [before, Nat.mod_add_mod]
  refine numBitsRead_eq valid' ?_
  rw [rest', same', same]
  change _ = 8 * buf.length
  omega

/-- Three codes behind three bits, and two bits behind them. -/
theorem codes_read_three : ∃ bs', readAll [.unsigned 3, .signed (-2), .unsigned 0]
    { buf := [0xA4, 0x2C], bufRdptr := 1, numHeldBits := 5, heldBits := 0xA4, numBitsRead := 3 } =
      .ok ([.unsigned 3, .signed (-2), .unsigned 0], bs') ∧ bs'.numBitsRead = 14 := by
  obtain ⟨bs', codes, -, count⟩ := @codes_read [0xA4, 0x2C] [true, false, true] [false, false] [3] [5]
    [.unsigned 3, .signed (-2), .unsigned 0] _ (by decide) (by decide +kernel) (by decide) rfl rfl
  exact ⟨bs', codes, count.trans (by decide +kernel)⟩

end Codeword

/-! ## Emulation prevention -/

/-- The bytes with a byte 3 behind each two zeros in front of a byte up to 3; `zeros`
of the bytes before are zeros. -/
def escapeFrom : (zeros : Nat) → List UInt8 → List UInt8
  | _, [] => []
  | zeros, b :: rest =>
    if 2 ≤ zeros ∧ b ≤ 3 then 3 :: b :: escapeFrom (if b = 0 then 1 else 0) rest
    else b :: escapeFrom (if b = 0 then zeros + 1 else 0) rest

def escape (rbsp : List UInt8) : List UInt8 := escapeFrom 0 rbsp

theorem unescape_cons {b : UInt8} (nonzero : b ≠ 0) (bytes : List UInt8) :
    unescape (b :: bytes) = b :: unescape bytes := by
  match bytes with
  | [] => rfl
  | [c] => rfl
  | c :: d :: rest => simp [unescape, nonzero]

theorem unescape_zero_cons {b : UInt8} (nonzero : b ≠ 0) (bytes : List UInt8) :
    unescape (0 :: b :: bytes) = 0 :: b :: unescape bytes := by
  match bytes with
  | [] => rfl
  | c :: rest => rw [unescape, if_neg (by simp [nonzero]), unescape_cons nonzero]

/-- The induction is on the bytes; up to two zeros may come before them. -/
theorem unescape_escapeFrom (zeros : Nat) (few : zeros ≤ 2) (bytes : List UInt8) :
    unescape (List.replicate zeros 0 ++ escapeFrom zeros bytes) = List.replicate zeros 0 ++ bytes := by
  induction bytes generalizing zeros with
  | nil =>
    match zeros, few with
    | 0, _ => rfl
    | 1, _ => rfl
    | 2, _ => rfl
  | cons b bytes ih =>
    have plain : unescape (escapeFrom 0 bytes) = bytes := ih 0 (by omega)
    have one : unescape (0 :: escapeFrom 1 bytes) = 0 :: bytes := ih 1 (by omega)
    have two : unescape (0 :: 0 :: escapeFrom 2 bytes) = 0 :: 0 :: bytes := ih 2 (by omega)
    match zeros, few with
    | 0, _ =>
      by_cases zero : b = 0
      · subst zero
        exact one
      · simp [escapeFrom, zero, unescape_cons, plain]
    | 1, _ =>
      by_cases zero : b = 0
      · subst zero
        exact two
      · simp [escapeFrom, zero, unescape_zero_cons, plain]
    | 2, _ =>
      by_cases small : b ≤ 3
      · by_cases zero : b = 0
        · subst zero
          simp [escapeFrom, unescape, one]
        · simp [escapeFrom, small, zero, unescape, unescape_cons, plain]
      · have zero : b ≠ 0 := by
          rintro rfl
          exact small (by decide)
        have three : b ≠ 3 := by
          rintro rfl
          exact small (by decide)
        have first : ∀ rest, unescape (0 :: 0 :: b :: rest) = 0 :: unescape (0 :: b :: rest) := by
          intro rest
          rw [unescape, if_neg (by simp [three])]
        simp [escapeFrom, small, zero, first, unescape_zero_cons, plain]

theorem unescape_escape (rbsp : List UInt8) : unescape (escape rbsp) = rbsp :=
  unescape_escapeFrom 0 (by omega) rbsp

/-- What is made of a unit fits in as many bytes as it has behind its header and is
the same whatever follows it in memory; of a unit with emulation prevention it is
what that was made from. -/
theorem nalRemoveEmulBytes_undoes (virt : Nat → UInt8) (p : Nat) {n : Nat} (some_ : 0 < n) :
    (nalRemoveEmulBytes virt p n 1 0x000003).rbsp.length ≤ n - 1 ∧
    (∀ virt' : Nat → UInt8, (∀ i, p ≤ i → i < p + n → virt' i = virt i) →
      (nalRemoveEmulBytes virt' p n 1 0x000003).rbsp = (nalRemoveEmulBytes virt p n 1 0x000003).rbsp) ∧
    ∀ header rbsp, bytesAt virt p n = header :: escape rbsp →
      (nalRemoveEmulBytes virt p n 1 0x000003).rbsp = rbsp := by
  obtain ⟨m, rfl⟩ : ∃ m, n = m + 1 := ⟨n - 1, by omega⟩
  rw [nalRemoveEmulBytes_spec virt p some_, Nat.add_sub_cancel]
  refine ⟨?_, ?_, ?_⟩
  · exact (unescape_length _).trans (bytesAt_length ..).le
  · intro virt' same
    rw [nalRemoveEmulBytes_spec virt' p some_, Nat.add_sub_cancel]
    have bytes : bytesAt virt' (p + 1) m = bytesAt virt (p + 1) m := by
      refine List.map_congr_left fun i mem => same i ?_ ?_
      · have := List.mem_range'_1.mp mem
        omega
      · have := List.mem_range'_1.mp mem
        omega
    exact congrArg unescape bytes
  · intro header rbsp holds
    rw [bytesAt_succ] at holds
    exact (congrArg unescape (List.cons.inj holds).2).trans (unescape_escape rbsp)

/-- Zeros that run on behind the bytes that were put in. -/
def escapedNal : List UInt8 := [0x67, 0, 0, 3, 0, 0, 3, 1]

theorem nalRemoveEmulBytes_zeros :
    (nalRemoveEmulBytes (fun i => escapedNal.getD i 0) 0 8 1 0x000003).rbsp = [0, 0, 0, 0, 1] :=
  (nalRemoveEmulBytes_undoes (fun i => escapedNal.getD i 0) 0 (n := 8) (by decide)).2.2 0x67
    [0, 0, 0, 0, 1] (by decide)

end ImxTest.Pitcher
