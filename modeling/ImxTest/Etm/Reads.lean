import ImxTest.Etm.Decoder

/-! What the decoder makes of bytes, wherever they come from. -/
namespace ImxTest.Etm
open Lib Overlay While

/-- The state without where its bytes come from. -/
def State.from (s : State) (source : Source) : State := { s with source }

/-- The bytes take the program from one state to another with this value; what is behind them stays. -/
def Reads {α : Type} (cfg : Config) (bytes : List Byte) (m : Decode α) (a : α) (s t : State) : Prop :=
  ∀ source rest, Yields cfg source (bytes ++ rest) →
    ∃ source', m (s.from source) = (some a, t.from source') ∧ Yields cfg source' rest

section Rules
variable {α β : Type} {cfg : Config} {bytes more : List Byte} {m : Decode α} {f : α → Decode β} {a : α} {b : β}
  {s t u : State}

theorem Reads.pure : Reads cfg [] (pure a : Decode α) a s s := fun source _ yields => ⟨source, rfl, yields⟩

theorem Reads.bind (first : Reads cfg bytes m a s t) (second : Reads cfg more (f a) b t u) :
    Reads cfg (bytes ++ more) (m >>= f) b s u := by
  intro source rest yields
  rw [List.append_assoc] at yields
  obtain ⟨middle, ran, yields⟩ := first source _ yields
  obtain ⟨last, ran', yields⟩ := second middle rest yields
  refine ⟨last, ?_, yields⟩
  simp only [Bind.bind, ran]
  exact ran'

/-- Nothing is read at first. -/
theorem Reads.step (first : Reads cfg [] m a s t) (second : Reads cfg bytes (f a) b t u) :
    Reads cfg bytes (m >>= f) b s u := first.bind second

/-- Nothing is read at last. -/
theorem Reads.last (first : Reads cfg bytes m a s t) (second : Reads cfg [] (f a) b t u) :
    Reads cfg bytes (m >>= f) b s u := by
  have both := first.bind second
  rwa [List.append_nil] at both

theorem Reads.get {f : State → Decode β} (next : ∀ source, Reads cfg bytes (f (s.from source)) b s t) :
    Reads cfg bytes (Prog.get >>= f) b s t := fun source rest yields => next source source rest yields

theorem Reads.modify {change : State → State} (same : ∀ source, change (s.from source) = t.from source) :
    Reads cfg [] (Prog.modify change) () s t := fun source _ yields => ⟨source, congrArg (some (), ·) (same source), yields⟩

theorem Reads.emit {line : State → Line} {l : Line} (same : ∀ source, line (s.from source) = l) :
    Reads cfg [] (emit line) () s { s with out := s.out ++ [l] } :=
  Reads.modify fun source => congrArg (fun l => State.from { s with out := s.out ++ [l] } source) (same source)

/-- A byte in a trace that is in sync. -/
theorem Reads.getByte {ch : Byte} (synced : 0 < s.sync) : Reads cfg [ch] (getByte cfg) ch s { s with data := ch } := by
  intro source rest yields
  obtain ⟨next, given⟩ : ∃ next, getchar cfg source = (some ch, next) := ⟨_, Prod.ext yields.1 rfl⟩
  have after := yields.2
  rw [given] at after
  refine ⟨next, ?_, after⟩
  have free : ¬(ch = 0 ∧ s.sync ≤ 0) := fun both => absurd both.2 (by omega)
  have given : getchar cfg (s.from source).source = (some ch, next) := given
  unfold Etm.getByte
  rw [given]
  exact congrArg (fun sync => (some ch, { s with source := next, data := ch, sync })) (if_neg free)

theorem Reads.times {n : Nat} {m : Decode Unit} {f : State → State} (turn : ∀ s, Reads cfg [] m () s (f s)) :
    Reads cfg [] (times n m) () s (f^[n] s) := by
  induction n generalizing s with
  | zero => exact .pure
  | succ n ih => exact (turn s).step ih

theorem Reads.ite {p : Prop} [Decidable p] {m' : Decode α} (yes : p → Reads cfg bytes m a s t)
    (no : ¬p → Reads cfg bytes m' a s t) : Reads cfg bytes (if p then m else m') a s t := by
  split
  · exact yes ‹_›
  · exact no ‹_›

end Rules

/-! ## Numbers in pieces -/

section Pieces
variable {w : Nat}

/-- Seven bits of a number, from the `s`-th on, and whether more are to come. -/
def piece (more : Bool) (x : BitVec w) (s : Nat) : Byte := BitVec.ofBool more ++ x.extractLsb' s 7

/-- So many pieces behind which there are more. -/
def heads (x : BitVec w) : (k : Nat) → (s : Nat) → List Byte
  | 0, _ => []
  | k + 1, s => piece true x s :: heads x k (s + 7)

/-- `k + 1` pieces. -/
def pieces (x : BitVec w) (k s : Nat) : List Byte := heads x k s ++ [piece false x (s + 7 * k)]

/-- From `n` on the numbers are alike, so that the bits below tell one from the other. -/
def Alike (n : Nat) (x old : BitVec w) : Prop := ∀ i < w, n ≤ i → x.getLsbD i = old.getLsbD i

instance (n : Nat) (x old : BitVec w) : Decidable (Alike n x old) :=
  Nat.decidableBallLT w fun i _ => n ≤ i → x.getLsbD i = old.getLsbD i

variable {cfg : Config} {x old value : BitVec w} {more : Bool} {s t n k left : Nat} {mask : Nat → BitVec w} {st u : State}

theorem piece_top : (piece more x s &&& 0x80 = 0) ↔ more = false := by
  unfold piece
  generalize x.extractLsb' s 7 = v
  revert v more
  decide

theorem piece_bit (i : Nat) (inside : i < 7) : ((piece more x s).setWidth w).getLsbD i = (decide (i < w) && x.getLsbD (s + i)) := by
  rw [BitVec.getLsbD_setWidth, piece, BitVec.getLsbD_append, if_pos (by simpa using inside), BitVec.getLsbD_extractLsb']
  simp [inside]

/-- The mask of seven bits. -/
def seven (w : Nat) : BitVec w := .ofNat w (2 ^ 7 - 1)

theorem put_piece : put (seven w) s ((piece more x s).setWidth w) (mix s x old) = mix (s + 7) x old := by
  apply put_mix
  · intro i inside from_
    rw [seven, getLsbD_ones]
    have shorter : i - s < w := by omega
    simp only [shorter, true_and]
    exact decide_eq_decide.mpr (by omega)
  · intro i inside from_ within
    rw [piece_bit (i - s) (by omega), Nat.add_sub_cancel' from_]
    simp [show i - s < w by omega]

/-- The loop of seven bits at a time goes on with a piece behind which there are more. -/
theorem septets_more {tail : List Byte} (synced : 0 < st.sync) (whole : mask left = seven w)
    (rest : Reads cfg tail (septets cfg mask left (s + 7) (mix (s + 7) x old)) value
      { st with data := piece true x s } u) :
    Reads cfg (piece true x s :: tail) (septets cfg mask (left + 1) s (mix s x old)) value st u := by
  change Reads cfg ([piece true x s] ++ tail) _ _ _ _
  refine Reads.bind (.getByte synced) ?_
  dsimp only
  rwa [whole, put_piece, if_neg (by rw [piece_top]; decide)]

theorem septets_heads {tail : List Byte} (synced : 0 < st.sync)
    (masks : ∀ j, left ≤ j → j < left + k → mask j = seven w) (rest : ∀ d, Reads cfg tail
      (septets cfg mask left (s + 7 * k) (mix (s + 7 * k) x old)) value { st with data := d } u) :
    Reads cfg (heads x k s ++ tail) (septets cfg mask (left + k) s (mix s x old)) value st u := by
  induction k generalizing s st with
  | zero => exact rest st.data
  | succ k ih =>
      rw [Nat.mul_succ, Nat.add_comm (7 * k), ← Nat.add_assoc] at rest
      refine septets_more synced (masks (left + k) (by omega) (by omega)) ?_
      exact ih synced (fun j low high => masks j low (by omega)) rest

/-- A number in pieces is read as it is, whatever it is put upon. -/
theorem septets_pieces {most : Nat} (synced : 0 < st.sync) (few : k < most)
    (masks : ∀ j, most ≤ j + k + 1 → j < most → mask j = seven w) (alike : Alike (s + 7 * (k + 1)) x old) :
    Reads cfg (pieces x k s) (septets cfg mask most s (mix s x old)) x st
      { st with data := piece false x (s + 7 * k) } := by
  obtain ⟨left, rfl⟩ := Nat.exists_eq_add_of_lt few
  rw [Nat.add_comm k, Nat.add_right_comm] at masks ⊢
  refine septets_heads synced (fun j low high => masks j (by omega) (by omega)) fun d => ?_
  refine Reads.last (.getByte synced) ?_
  rw [masks left (by omega) (by omega), put_piece, if_pos (by rw [piece_top]), Nat.add_assoc, ← Nat.mul_succ, mix_eq alike]
  exact .pure

/-- So many bytes of a number, the lowest first. -/
def wordBytes (x : Word) : (left : Nat) → (shift : Nat) → List Byte
  | 0, _ => []
  | left + 1, shift => x.extractLsb' shift 8 :: wordBytes x left (shift + 8)

theorem word_step {x : Word} : mix s x 0 ||| (x.extractLsb' s 8).setWidth 32 <<< s = mix (s + 8) x 0 := by
  apply BitVec.eq_of_getLsbD_eq
  intro i inside
  rw [BitVec.getLsbD_or, getLsbD_mix inside, getLsbD_mix inside, BitVec.getLsbD_shiftLeft, BitVec.getLsbD_setWidth,
    BitVec.getLsbD_extractLsb']
  by_cases below : i < s
  · simp [below, show i < s + 8 by omega]
  · simp only [below, if_false, inside, decide_true, Bool.true_and, show i - s < 32 by omega,
      show s + (i - s) = i by omega]
    by_cases within : i < s + 8
    · simp [within, show i - s < 8 by omega]
    · simp [within, show ¬i - s < 8 by omega]

theorem word_bytes (cfg : Config) {x : Word} (left s : Nat) (synced : 0 < st.sync) (alike : Alike (s + 8 * left) x 0) :
    ∃ d, Reads cfg (wordBytes x left s) (word cfg left s (mix s x 0)) x st { st with data := d } := by
  induction left generalizing s st with
  | zero =>
      refine ⟨st.data, ?_⟩
      rw [mix_eq (n := s) alike]
      exact .pure
  | succ left ih =>
      obtain ⟨d, reads⟩ := @ih { st with data := x.extractLsb' s 8 } (s + 8) synced
        (by rwa [Nat.add_assoc, Nat.add_comm 8, ← Nat.mul_succ])
      refine ⟨d, ?_⟩
      change Reads cfg ([x.extractLsb' s 8] ++ wordBytes x left (s + 8)) _ _ _ _
      refine Reads.bind (.getByte synced) ?_
      rwa [word_step]

theorem word_reads (cfg : Config) {x : Word} (left : Nat) (synced : 0 < st.sync) (alike : Alike (8 * left) x 0) :
    ∃ d, Reads cfg (wordBytes x left 0) (word cfg left 0 0) x st { st with data := d } := by
  obtain ⟨d, reads⟩ := word_bytes cfg left 0 synced (by rwa [Nat.zero_add])
  rw [mix_zero] at reads
  exact ⟨d, reads⟩

end Pieces

end ImxTest.Etm
