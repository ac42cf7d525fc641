import Mathlib.Data.Stream.Init
import Mathlib.Order.MinMax
import Mathlib.Tactic.Common

/-! Reading a file that may end. A read past the end leaves what the variable held
before, which can be anything in a new one: a tape has the bytes left of the file and
behind them the junk that new variables hold. A reader is compared with a strict one,
which stops where the file ends. -/
namespace ImxTest.Lib.Reading

open Stream' (append_append_stream drop_append_stream drop_drop length_take take_append_of_le_length
  take_add)

structure Tape where
  left : List UInt8
  junk : Stream' UInt8

/-- How a reader stops without a result. -/
inductive Stop where
  /-- It returns an error. -/
  | failed
  /-- A loop of it has not ended within its turns. -/
  | running
  /-- It uses memory it does not have, or divides by zero. -/
  | fault
deriving DecidableEq, Repr

abbrev Reader (α : Type) := StateT Tape (Except Stop) α

/-- Why a strict reader stops: the bytes are wrong, the file ends, or there is more than
memory has room for. -/
inductive Miss where
  | wrong | ended | large
deriving DecidableEq, Repr

abbrev Strict (α : Type) := StateT (List UInt8) (Except Miss) α

variable {α β σ : Type}

/-! ## Readers -/

/-- As many bytes as the variable has. -/
def readInto (old : List UInt8) : Reader (List UInt8) := fun t =>
  .ok (t.left.take old.length ++ old.drop t.left.length, { t with left := t.left.drop old.length })

/-- A new variable. -/
def fresh (n : Nat) : Reader (List UInt8) := fun t => .ok (t.junk.take n, { t with junk := t.junk.drop n })

def readNew (n : Nat) : Reader (List UInt8) := fresh n >>= readInto

def expect (tag : List UInt8) : Reader Unit := do
  let bytes ← readNew tag.length
  if bytes = tag then pure () else throw .failed

/-- Chunks, each behind a tag, until all that is needed is there. The variable of the tag
keeps what it has where the file ends. -/
def chunks (done : σ → Bool) (handle : Nat → List UInt8 → σ → Reader σ) :
    (fuel : Nat) → List UInt8 → σ → Reader σ
  | 0, _, _ => throw .running
  | fuel + 1, tag, s =>
    if done s then pure s
    else do
      let tag ← readInto tag
      let s ← handle fuel tag s
      chunks done handle fuel tag s

namespace Strict

def take (n : Nat) : Strict (List UInt8) := fun left =>
  if n ≤ left.length then .ok (left.take n, left.drop n) else .error .ended

/-- What there is of the bytes tells whether they can be the tag. -/
def expect (tag : List UInt8) : Strict Unit := fun left =>
  if tag <+: left then .ok ((), left.drop tag.length)
  else if left <+: tag then .error .ended
  else .error .wrong

theorem bind_ok {r : Strict α} {left rest : List UInt8} {a : α} (ok : r left = .ok (a, rest))
    (f : α → Strict β) : (r >>= f) left = f a rest := by
  change Except.bind (r left) (fun x => f x.1 x.2) = _
  rw [ok]
  rfl

theorem bind_error {r : Strict α} {left : List UInt8} {e : Miss} (error : r left = .error e)
    (f : α → Strict β) : (r >>= f) left = .error e := by
  change Except.bind (r left) (fun x => f x.1 x.2) = _
  rw [error]
  rfl

theorem take_long {n : Nat} {left : List UInt8} (long : n ≤ left.length) :
    take n left = .ok (left.take n, left.drop n) := if_pos long

/-- `bound` is more than the chunks there can be. -/
def chunks (done : σ → Bool) (handle : List UInt8 → σ → Strict σ) : (bound : Nat) → σ → Strict σ
  | 0, _ => throw .ended
  | bound + 1, s =>
    if done s then pure s
    else do
      let tag ← take 4
      let s ← handle tag s
      chunks done handle bound s

/-- All the chunks there are. -/
def allChunks (done : σ → Bool) (handle : List UInt8 → σ → Strict σ) (s : σ) : Strict σ := fun left =>
  chunks done handle (left.length + 1) s left

end Strict

/-! ## Tracking -/

/-- No result and no error either. -/
def Stalls (r : Except Stop β) : Prop := ∃ e, e ≠ .failed ∧ r = .error e

/-- The result, unless the reader stalls. -/
def Goes (r : Except Stop β) (x : β) : Prop := r = .ok x ∨ Stalls r

/-- With some junk the reader gets over the end of the file without an error. -/
def Adrift (real : Nat → Reader α) (left : List UInt8) : Prop :=
  ∃ bytes a, ∀ fuel junk, Goes (real fuel ⟨left, bytes ++ₛ junk⟩) (a, ⟨[], junk⟩)

/-- What a reader does with bytes of which a strict one makes `result`. -/
structure TracksAt (result : Except Miss (α × List UInt8)) (real : Nat → Reader α)
    (left : List UInt8) : Prop where
  found : ∀ a rest, result = .ok (a, rest) → rest.length ≤ left.length ∧ ∃ k turns, ∀ fuel junk,
    real fuel ⟨left, junk⟩ = .ok (a, ⟨rest, junk.drop k⟩) ∨
      fuel < turns ∧ Stalls (real fuel ⟨left, junk⟩)
  wrong : result = .error .wrong → ∃ turns, ∀ fuel, turns ≤ fuel → ∀ junk,
    real fuel ⟨left, junk⟩ = .error .failed
  ended : result = .error .ended → Adrift real left
  large : result = .error .large → ∀ fuel junk, Stalls (real fuel ⟨left, junk⟩)

/-- The reader finds what the strict one finds and fails where that finds bytes wrong;
where the file ends, it may go on. -/
structure Tracks (strict : Strict α) (real : Nat → Reader α) : Prop where
  inside : ∀ left, TracksAt (strict left) real left
  past : Adrift real []

section Bind
variable {real : Nat → Reader α} {next : Nat → α → Reader β} {left : List UInt8}

theorem bind_run (r : Reader α) (f : α → Reader β) (t : Tape) :
    (r >>= f) t = Except.bind (r t) fun x => f x.1 x.2 := rfl

theorem bind_ok {r : Reader α} {t u : Tape} {a : α} (ok : r t = .ok (a, u)) (f : α → Reader β) :
    (r >>= f) t = f a u := by
  rw [bind_run, ok]
  rfl

theorem bind_error {r : Reader α} {t : Tape} {e : Stop} (error : r t = .error e) (f : α → Reader β) :
    (r >>= f) t = .error e := by
  rw [bind_run, error]
  rfl

theorem bind_stalls {r : Reader α} {t : Tape} (stalls : Stalls (r t)) (f : α → Reader β) :
    Stalls ((r >>= f) t) := by
  obtain ⟨e, plain, error⟩ := stalls
  exact ⟨e, plain, bind_error error f⟩

theorem bind_inv {r : Reader α} {f : α → Reader β} {t u : Tape} {b : β} (ok : (r >>= f) t = .ok (b, u)) :
    ∃ a v, r t = .ok (a, v) ∧ f a v = .ok (b, u) := by
  rw [bind_run] at ok
  cases first : r t with
  | error e =>
    rw [first] at ok
    cases ok
  | ok x =>
    rw [first] at ok
    exact ⟨x.1, x.2, rfl, ok⟩

theorem bind_goes {r : Reader α} {f : α → Reader β} {t u : Tape} {a : α} {x : β × Tape}
    (first : Goes (r t) (a, u)) (later : Goes (f a u) x) : Goes ((r >>= f) t) x := by
  rcases first with ok | stalls
  · rwa [bind_ok ok]
  · exact .inr (bind_stalls stalls f)

theorem Adrift.after {rest : List UInt8} {a : α} (bytes : List UInt8)
    (goes : ∀ fuel junk, Goes (real fuel ⟨left, bytes ++ₛ junk⟩) (a, ⟨rest, junk⟩))
    (later : Adrift (fun fuel => next fuel a) rest) : Adrift (fun fuel => real fuel >>= next fuel) left := by
  obtain ⟨more, b, goes'⟩ := later
  refine ⟨bytes ++ more, b, fun fuel junk => ?_⟩
  rw [append_append_stream]
  exact bind_goes (goes fuel _) (goes' fuel junk)

theorem Adrift.bind (first : Adrift real left) (later : ∀ a, Adrift (fun fuel => next fuel a) []) :
    Adrift (fun fuel => real fuel >>= next fuel) left := by
  obtain ⟨bytes, a, goes⟩ := first
  exact .after bytes goes (later a)

theorem TracksAt.of_ok {a : α} {rest : List UInt8} (k : Nat) (shorter : rest.length ≤ left.length)
    (run : ∀ fuel junk, real fuel ⟨left, junk⟩ = .ok (a, ⟨rest, junk.drop k⟩)) :
    TracksAt (.ok (a, rest)) real left where
  found b tail ok := by
    obtain ⟨rfl, rfl⟩ := Prod.mk.inj (Except.ok.inj ok)
    exact ⟨shorter, k, 0, fun fuel junk => .inl (run fuel junk)⟩
  wrong := nofun
  ended := nofun
  large := nofun

theorem TracksAt.of_wrong (run : ∀ fuel junk, real fuel ⟨left, junk⟩ = .error .failed) :
    TracksAt (.error .wrong) real left where
  found := nofun
  wrong _ := ⟨0, fun fuel _ => run fuel⟩
  ended := nofun
  large := nofun

theorem TracksAt.of_ended (adrift : Adrift real left) : TracksAt (.error .ended) real left where
  found := nofun
  wrong := nofun
  ended _ := adrift
  large := nofun

theorem TracksAt.of_large (run : ∀ fuel junk, Stalls (real fuel ⟨left, junk⟩)) :
    TracksAt (.error .large) real left where
  found := nofun
  wrong := nofun
  ended := nofun
  large _ := run

/-- Junk that the reader passes over first. -/
theorem TracksAt.shift {result : Except Miss (α × List UInt8)} {real' : Nat → Reader α}
    (first : TracksAt result real left) (n : Nat)
    (same : ∀ fuel junk, real' fuel ⟨left, junk⟩ = real fuel ⟨left, junk.drop n⟩) :
    TracksAt result real' left := by
  refine ⟨fun a rest ok => ?_, fun wrong => ?_, fun ended => ?_, fun large fuel junk => ?_⟩
  · obtain ⟨shorter, k, turns, found⟩ := first.found a rest ok
    refine ⟨shorter, n + k, turns, fun fuel junk => ?_⟩
    rw [same, ← drop_drop]
    exact found fuel (junk.drop n)
  · obtain ⟨turns, failed⟩ := first.wrong wrong
    refine ⟨turns, fun fuel enough junk => ?_⟩
    rw [same]
    exact failed fuel enough _
  · obtain ⟨bytes, a, goes⟩ := first.ended ended
    refine ⟨List.replicate n 0 ++ bytes, a, fun fuel junk => ?_⟩
    have dropped := drop_append_stream (List.replicate n (0 : UInt8)) (bytes ++ₛ junk)
    rw [List.length_replicate] at dropped
    rw [same, append_append_stream, dropped]
    exact goes fuel junk
  · rw [same]
    exact first.large large fuel _

/-- What follows a result of the strict reader. -/
theorem TracksAt.bind_found {result : Except Miss (α × List UInt8)} {a : α} {rest : List UInt8}
    {after : Except Miss (β × List UInt8)} (first : TracksAt result real left)
    (ok : result = .ok (a, rest)) (later : TracksAt after (fun fuel => next fuel a) rest) :
    TracksAt after (fun fuel => real fuel >>= next fuel) left := by
  obtain ⟨shorter, k, turns, found⟩ := first.found a rest ok
  refine ⟨fun b tail ok => ?_, fun wrong => ?_, fun ended => ?_, fun large fuel junk => ?_⟩
  · obtain ⟨shorter', k', turns', found'⟩ := later.found b tail ok
    refine ⟨shorter'.trans shorter, k + k', max turns turns', fun fuel junk => ?_⟩
    rcases found fuel junk with ok | ⟨few, stalls⟩
    · rw [bind_ok ok, ← drop_drop]
      rcases found' fuel (junk.drop k) with ok' | ⟨few, stalls⟩
      · exact .inl ok'
      · exact .inr ⟨lt_max_of_lt_right few, stalls⟩
    · exact .inr ⟨lt_max_of_lt_left few, bind_stalls stalls _⟩
  · obtain ⟨turns', failed⟩ := later.wrong wrong
    refine ⟨max turns turns', fun fuel enough junk => ?_⟩
    rcases found fuel junk with ok | ⟨few, -⟩
    · rw [bind_ok ok]
      exact failed fuel (le_of_max_le_right enough) _
    · exact absurd (le_of_max_le_left enough) (Nat.not_le.mpr few)
  · refine .after (List.replicate k 0) (fun fuel junk => ?_) (later.ended ended)
    have dropped := drop_append_stream (List.replicate k (0 : UInt8)) junk
    rw [List.length_replicate] at dropped
    rcases found fuel (List.replicate k 0 ++ₛ junk) with ok | ⟨-, stalls⟩
    · rw [dropped] at ok
      exact .inl ok
    · exact .inr stalls
  · rcases found fuel junk with ok | ⟨-, stalls⟩
    · rw [bind_ok ok]
      exact later.large large fuel _
    · exact bind_stalls stalls _

theorem TracksAt.bind {strict : Strict α} {f : α → Strict β} (first : TracksAt (strict left) real left)
    (later : ∀ a rest, strict left = .ok (a, rest) → TracksAt (f a rest) (fun fuel => next fuel a) rest)
    (past : ∀ a, Adrift (fun fuel => next fuel a) []) :
    TracksAt ((strict >>= f) left) (fun fuel => real fuel >>= next fuel) left := by
  change TracksAt (Except.bind (strict left) fun r => f r.1 r.2) _ left
  cases result : strict left with
  | ok r => exact first.bind_found result (later r.1 r.2 result)
  | error e =>
    change TracksAt (.error e) _ left
    rw [result] at first
    cases e with
    | wrong =>
      obtain ⟨turns, failed⟩ := first.wrong rfl
      exact ⟨nofun, fun _ => ⟨turns, fun fuel enough junk => bind_error (failed fuel enough junk) _⟩,
        nofun, nofun⟩
    | ended => exact .of_ended ((first.ended rfl).bind past)
    | large => exact .of_large fun fuel junk => bind_stalls (first.large rfl fuel junk) _

theorem Tracks.bind {strict : Strict α} {f : α → Strict β} (first : Tracks strict real)
    (later : ∀ a, Tracks (f a) (fun fuel => next fuel a)) :
    Tracks (strict >>= f) (fun fuel => real fuel >>= next fuel) where
  inside left := (first.inside left).bind (fun a rest _ => (later a).inside rest) fun a => (later a).past
  past := first.past.bind fun a => (later a).past

end Bind

theorem Tracks.pure (a : α) : Tracks (pure a) (fun _ => pure a) where
  inside _ := .of_ok 0 (le_refl _) fun _ _ => rfl
  past := ⟨[], a, fun _ _ => .inl rfl⟩

theorem Tracks.ite {c : Prop} [Decidable c] {s t : Strict α} {r q : Nat → Reader α} (first : Tracks s r)
    (second : Tracks t q) : Tracks (if c then s else t) (fun fuel => if c then r fuel else q fuel) := by
  by_cases holds : c
  · simpa only [if_pos holds] using first
  · simpa only [if_neg holds] using second

/-! ## Reads -/

theorem fresh_bytes (bytes left : List UInt8) (junk : Stream' UInt8) :
    fresh bytes.length ⟨left, bytes ++ₛ junk⟩ = .ok (bytes, ⟨left, junk⟩) := by
  rw [fresh, take_append_of_le_length (h := Nat.le_refl _), List.take_length, drop_append_stream]

theorem readNew_run (n : Nat) (left : List UInt8) (junk : Stream' UInt8) :
    readNew n ⟨left, junk⟩ = .ok (left.take n ++ (junk.take n).drop left.length,
      ⟨left.drop n, junk.drop n⟩) := by
  change Except.ok (left.take (junk.take n).length ++ _, _) = _
  rw [length_take]

/-- A new variable that held the right junk is as if the file went on. -/
theorem readNew_short {n : Nat} {left bytes : List UInt8} (short : left.length ≤ n)
    (length : bytes.length = n) (junk : Stream' UInt8) :
    readNew n ⟨left, bytes ++ₛ junk⟩ = .ok (left ++ bytes.drop left.length, ⟨[], junk⟩) := by
  subst length
  rw [readNew_run, List.take_of_length_le short, List.drop_of_length_le short,
    take_append_of_le_length (h := Nat.le_refl _), List.take_length, drop_append_stream]

theorem readNew_long {n : Nat} {left : List UInt8} (long : n ≤ left.length) (junk : Stream' UInt8) :
    readNew n ⟨left, junk⟩ = .ok (left.take n, ⟨left.drop n, junk.drop n⟩) := by
  rw [readNew_run, List.drop_of_length_le (by rwa [length_take]), List.append_nil]

/-- Two variables read one after the other are one. -/
theorem readNew_append (m n : Nat) :
    readNew (m + n) = readNew m >>= fun xs => readNew n >>= fun ys => pure (xs ++ ys) := by
  funext ⟨left, junk⟩
  rw [readNew_run, bind_ok (readNew_run m left junk), bind_ok (readNew_run n _ _)]
  change _ = Except.ok (_, _)
  rw [List.drop_drop, drop_drop, List.take_add, List.length_drop, take_add, List.drop_append, length_take]
  rcases Nat.le_total m left.length with long | short
  · rw [List.drop_of_length_le (i := left.length) (by rwa [length_take])]
    simp only [List.append_nil, List.nil_append, List.append_assoc]
  · rw [Nat.sub_eq_zero_of_le short, List.drop_of_length_le short]
    simp only [List.take_nil, List.append_nil, List.drop_zero, List.append_assoc, List.nil_append]

theorem tracks_readNew (n : Nat) : Tracks (Strict.take n) (fun _ => readNew n) where
  inside left := by
    unfold Strict.take
    split_ifs with long
    · refine .of_ok n ?_ fun _ => readNew_long long
      rw [List.length_drop]
      exact Nat.sub_le ..
    · exact .of_ended ⟨List.replicate n 0, _, fun _ junk => .inl
        (readNew_short (Nat.le_of_not_le long) List.length_replicate junk)⟩
  past := ⟨List.replicate n 0, _, fun _ junk => .inl
    (readNew_short (Nat.zero_le n) List.length_replicate junk)⟩

theorem expect_run {tag left : List UInt8} {u : Tape} {junk : Stream' UInt8} {bytes : List UInt8}
    (read : readNew tag.length ⟨left, junk⟩ = .ok (bytes, u)) :
    expect tag ⟨left, junk⟩ = if bytes = tag then .ok ((), u) else .error .failed := by
  unfold expect
  rw [bind_ok read]
  split_ifs <;> rfl

theorem expect_short {tag left : List UInt8} (part : left <+: tag) (junk : Stream' UInt8) :
    expect tag ⟨left, tag ++ₛ junk⟩ = .ok ((), ⟨[], junk⟩) := by
  have whole : left ++ tag.drop left.length = tag := by
    obtain ⟨more, rfl⟩ := part
    rw [List.drop_left]
  rw [expect_run (readNew_short part.length_le rfl junk), if_pos whole]

theorem tracks_expect (tag : List UInt8) : Tracks (Strict.expect tag) (fun _ => expect tag) where
  inside left := by
    unfold Strict.expect
    split_ifs with here part
    · obtain ⟨more, rfl⟩ := here
      refine .of_ok tag.length (by simp) fun _ junk => ?_
      rw [expect_run (readNew_long (by simp) junk), List.take_left, if_pos rfl]
    · exact .of_ended ⟨tag, (), fun _ junk => .inl (expect_short part junk)⟩
    · refine .of_wrong fun _ junk => ?_
      rw [expect_run (readNew_run tag.length left junk), if_neg]
      intro same
      rcases Nat.le_total tag.length left.length with long | short
      · rw [List.drop_of_length_le (by rwa [length_take]), List.append_nil] at same
        exact here (same ▸ List.take_prefix _ _)
      · rw [List.take_of_length_le short] at same
        exact part ⟨_, same⟩
  past := ⟨tag, (), fun _ junk => .inl (expect_short List.nil_prefix junk)⟩

/-! ## Files that go on -/

/-- The reader reads these bytes and no more. -/
def Passes (r : Reader α) (bytes : List UInt8) (a : α) : Prop :=
  ∀ rest junk, ∃ junk', r ⟨bytes ++ rest, junk⟩ = .ok (a, ⟨rest, junk'⟩)

theorem Passes.bind {r : Reader α} {f : α → Reader β} {xs ys : List UInt8} {a : α} {b : β}
    (first : Passes r xs a) (later : Passes (f a) ys b) : Passes (r >>= f) (xs ++ ys) b := by
  intro rest junk
  rw [List.append_assoc]
  obtain ⟨junk', read⟩ := first (ys ++ rest) junk
  obtain ⟨junk'', read'⟩ := later rest junk'
  exact ⟨junk'', (bind_ok read f).trans read'⟩

theorem Passes.pure (a : α) : Passes (pure a) [] a := fun _ junk => ⟨junk, rfl⟩

theorem passes_readNew {n : Nat} {bytes : List UInt8} (length : bytes.length = n) :
    Passes (readNew n) bytes bytes := by
  intro rest junk
  refine ⟨junk.drop n, ?_⟩
  subst length
  rw [readNew_long (by simp) junk, List.take_left, List.drop_left]

/-- The strict reader reads these bytes and no more. -/
def Strict.Passes (r : Strict α) (bytes : List UInt8) (a : α) : Prop :=
  ∀ rest, r (bytes ++ rest) = .ok (a, rest)

theorem Strict.Passes.bind {r : Strict α} {f : α → Strict β} {xs ys : List UInt8} {a : α} {b : β}
    (first : Strict.Passes r xs a) (later : Strict.Passes (f a) ys b) : Strict.Passes (r >>= f) (xs ++ ys) b := by
  intro rest
  rw [List.append_assoc, bind_ok (first (ys ++ rest)) f]
  exact later rest

theorem Strict.Passes.map {r : Strict α} {bytes : List UInt8} {a : α} (passes : Strict.Passes r bytes a)
    (f : α → β) : Strict.Passes (r >>= fun a => pure (f a)) bytes (f a) := fun rest =>
  bind_ok (passes rest) _

theorem Strict.passes_take {n : Nat} {bytes : List UInt8} (length : bytes.length = n) :
    Strict.Passes (Strict.take n) bytes bytes := by
  intro rest
  subst length
  rw [take_long (by simp), List.take_left, List.drop_left]

theorem Strict.passes_expect (tag : List UInt8) : Strict.Passes (Strict.expect tag) tag () := by
  intro rest
  rw [expect, if_pos (List.prefix_append tag rest), List.drop_left]

/-! ## Chunks -/

section Chunks
variable {done : σ → Bool} {handle : Nat → List UInt8 → σ → Reader σ} {handleS : List UInt8 → σ → Strict σ}

theorem chunks_done {s : σ} (is_done : done s = true) (fuel : Nat) (tag : List UInt8) (t : Tape) :
    Goes (chunks done handle fuel tag s t) (s, t) := by
  cases fuel with
  | zero => exact .inr ⟨.running, nofun, rfl⟩
  | succ fuel =>
    rw [chunks, if_pos is_done]
    exact .inl rfl

theorem chunks_turn {s : σ} (not_done : done s = false) (fuel : Nat) (tag : List UInt8) (t : Tape) :
    chunks done handle (fuel + 1) tag s t =
      (handle fuel (t.left.take tag.length ++ tag.drop t.left.length) s >>=
        chunks done handle fuel (t.left.take tag.length ++ tag.drop t.left.length))
        { t with left := t.left.drop tag.length } := by
  rw [chunks, if_neg (by rw [not_done]; exact Bool.false_ne_true)]
  rfl

theorem chunks_turn_long {s : σ} {tag left : List UInt8} (not_done : done s = false)
    (tag_length : tag.length = 4) (long : 4 ≤ left.length) (fuel : Nat) (junk : Stream' UInt8) :
    chunks done handle (fuel + 1) tag s ⟨left, junk⟩ =
      (handle fuel (left.take 4) s >>= chunks done handle fuel (left.take 4)) ⟨left.drop 4, junk⟩ := by
  rw [chunks_turn not_done]
  simp only [tag_length, List.drop_of_length_le (tag_length.le.trans long), List.append_nil]

theorem Strict.chunks_short {s : σ} {left : List UInt8} (not_done : done s = false)
    (short : ¬ 4 ≤ left.length) (bound : Nat) : Strict.chunks done handleS bound s left = .error .ended := by
  cases bound with
  | zero => rfl
  | succ bound =>
    rw [Strict.chunks, if_neg (by rw [not_done]; exact Bool.false_ne_true)]
    exact bind_error (if_neg short) _

theorem Strict.chunks_long {s : σ} {left : List UInt8} (not_done : done s = false)
    (long : 4 ≤ left.length) (bound : Nat) : Strict.chunks done handleS (bound + 1) s left =
      (handleS (left.take 4) s >>= Strict.chunks done handleS bound) (left.drop 4) := by
  rw [Strict.chunks, if_neg (by rw [not_done]; exact Bool.false_ne_true)]
  exact bind_ok (take_long long) _

section Bound
variable (shrinks : ∀ tag s left a rest, handleS tag s left = .ok (a, rest) → rest.length ≤ left.length)
include shrinks

/-- It is the same with any bound that is large enough. -/
theorem Strict.chunks_bound (m n : Nat) (s : σ) (left : List UInt8) (enough : left.length < m)
    (enough' : left.length < n) :
    Strict.chunks done handleS m s left = Strict.chunks done handleS n s left := by
  induction m generalizing n s left with
  | zero => exact absurd enough (Nat.not_lt_zero _)
  | succ m ih =>
    cases n with
    | zero => exact absurd enough' (Nat.not_lt_zero _)
    | succ n =>
      cases is_done : done s with
      | true => rw [Strict.chunks, Strict.chunks, if_pos is_done, if_pos is_done]
      | false =>
        by_cases long : 4 ≤ left.length
        · rw [Strict.chunks_long is_done long, Strict.chunks_long is_done long]
          cases result : handleS (left.take 4) s (left.drop 4) with
          | error e => rw [bind_error result, bind_error result]
          | ok x =>
            have shorter := shrinks _ _ _ _ _ result
            rw [List.length_drop] at shorter
            rw [bind_ok result, bind_ok result]
            exact ih n x.1 x.2 (by omega) (by omega)
        · rw [Strict.chunks_short is_done long, Strict.chunks_short is_done long]

/-- A chunk that is there as a whole. -/
theorem Strict.allChunks_tag {s : σ} {tag body : List UInt8} (not_done : done s = false)
    (tag_length : tag.length = 4) : Strict.allChunks done handleS s (tag ++ body) =
      (handleS tag s >>= Strict.allChunks done handleS) body := by
  have long : (tag ++ body).length = body.length + 4 := by
    rw [List.length_append, tag_length, Nat.add_comm]
  have taken : (tag ++ body).take 4 = tag := by rw [← tag_length, List.take_left]
  have dropped : (tag ++ body).drop 4 = body := by rw [← tag_length, List.drop_left]
  rw [Strict.allChunks, Strict.chunks_long not_done (by omega), long, taken, dropped]
  cases result : handleS tag s body with
  | error e => rw [bind_error result, bind_error result]
  | ok x =>
    have shorter := shrinks _ _ _ _ _ result
    rw [bind_ok result, bind_ok result]
    exact Strict.chunks_bound shrinks _ _ x.1 x.2 (by omega) (Nat.lt_succ_self _)

end Bound

theorem Strict.allChunks_done {s : σ} (is_done : done s = true) (left : List UInt8) :
    Strict.allChunks done handleS s left = .ok (s, left) := by
  rw [Strict.allChunks, Strict.chunks, if_pos is_done]
  rfl

/-- A chunk that the handling leaves out, whatever is read for it past the end. -/
def Stuck (handle : Nat → List UInt8 → σ → Reader σ) (tag : List UInt8) (s : σ) : Prop :=
  ∀ fuel junk, ∃ junk', Goes (handle fuel tag s ⟨[], junk⟩) (s, ⟨[], junk'⟩)

/-- The file has ended, and the tag stays what it is. -/
theorem chunks_stuck {tag : List UInt8} {s : σ} (not_done : done s = false)
    (stuck : Stuck handle tag s) (fuel : Nat) (junk : Stream' UInt8) :
    Stalls (chunks done handle fuel tag s ⟨[], junk⟩) := by
  induction fuel generalizing junk with
  | zero => exact ⟨.running, nofun, rfl⟩
  | succ fuel ih =>
    rw [chunks_turn not_done]
    simp only [List.take_nil, List.nil_append, List.length_nil, List.drop_zero, List.drop_nil]
    obtain ⟨junk', ok | stalls⟩ := stuck fuel junk
    · rw [bind_ok ok]
      exact ih junk'
    · exact bind_stalls stalls _

/-- One turn of fuel is for the loop itself. -/
theorem TracksAt.turn {result : Except Miss (σ × List UInt8)} {real real' : Nat → Reader σ}
    {left rest : List UInt8} (first : TracksAt result real' rest) (shorter : rest.length ≤ left.length)
    (zero : ∀ junk, Stalls (real 0 ⟨left, junk⟩))
    (succ : ∀ fuel junk, real (fuel + 1) ⟨left, junk⟩ = real' fuel ⟨rest, junk⟩) :
    TracksAt result real left := by
  refine ⟨fun a tail ok => ?_, fun wrong => ?_, fun ended => ?_, fun large fuel junk => ?_⟩
  · obtain ⟨shorter', k, turns, found⟩ := first.found a tail ok
    refine ⟨shorter'.trans shorter, k, turns + 1, fun fuel junk => ?_⟩
    cases fuel with
    | zero => exact .inr ⟨Nat.succ_pos _, zero junk⟩
    | succ fuel =>
      rw [succ]
      exact (found fuel junk).imp_right (And.imp_left Nat.succ_lt_succ)
  · obtain ⟨turns, failed⟩ := first.wrong wrong
    refine ⟨turns + 1, fun fuel enough junk => ?_⟩
    obtain ⟨fuel, rfl⟩ := Nat.exists_eq_add_of_le' (Nat.le_of_add_left_le enough)
    rw [succ]
    exact failed fuel (Nat.le_of_succ_le_succ enough) junk
  · obtain ⟨bytes, a, goes⟩ := first.ended ended
    refine ⟨bytes, a, fun fuel junk => ?_⟩
    cases fuel with
    | zero => exact .inr (zero _)
    | succ fuel =>
      rw [succ]
      exact goes fuel junk
  · cases fuel with
    | zero => exact zero junk
    | succ fuel =>
      rw [succ]
      exact first.large large fuel junk

variable (past : ∀ tag s, Adrift (fun fuel => handle fuel tag s) [])
  (once : ∀ fuel tag s t s' t', handle fuel tag s t = .ok (s', t') → Stuck handle tag s')

include past once

theorem chunks_adrift {s : σ} {tag left : List UInt8} (not_done : done s = false)
    (short : left.length ≤ tag.length) : Adrift (fun fuel => chunks done handle fuel tag s) left := by
  obtain ⟨bytes, s', goes⟩ := past (left.take tag.length ++ tag.drop left.length) s
  refine ⟨bytes, s', fun fuel junk => ?_⟩
  cases fuel with
  | zero => exact .inr ⟨.running, nofun, rfl⟩
  | succ fuel =>
    change Goes (chunks done handle (fuel + 1) tag s _) _
    rw [chunks_turn not_done]
    simp only [List.drop_of_length_le short]
    rcases goes fuel junk with ok | stalls
    · rw [bind_ok ok]
      cases is_done : done s' with
      | true => exact chunks_done is_done fuel _ _
      | false => exact .inr (chunks_stuck is_done (once _ _ _ _ _ _ ok) fuel junk)
    · exact .inr (bind_stalls stalls _)

variable (tracks : ∀ tag s, Tracks (handleS tag s) (fun fuel => handle fuel tag s))

include tracks

theorem tracksAt_chunks (bound : Nat) (s : σ) (tag left : List UInt8) (tag_length : tag.length = 4)
    (enough : left.length < bound) :
    TracksAt (Strict.chunks done handleS bound s left) (fun fuel => chunks done handle fuel tag s) left := by
  induction bound generalizing s tag left with
  | zero => exact absurd enough (Nat.not_lt_zero _)
  | succ bound ih =>
    have zero (junk : Stream' UInt8) : Stalls (chunks done handle 0 tag s ⟨left, junk⟩) :=
      ⟨.running, nofun, rfl⟩
    cases is_done : done s with
    | true =>
      rw [Strict.chunks, if_pos is_done]
      refine ((Tracks.pure s).inside left).turn (le_refl _) zero fun fuel junk => ?_
      rw [chunks, if_pos is_done]
    | false =>
      by_cases long : 4 ≤ left.length
      · have rest_length : (left.drop 4).length < left.length := by
          rw [List.length_drop]
          omega
        have later : TracksAt ((handleS (left.take 4) s >>= Strict.chunks done handleS bound) (left.drop 4))
            (fun fuel => handle fuel (left.take 4) s >>= chunks done handle fuel (left.take 4))
            (left.drop 4) := by
          refine ((tracks _ s).inside _).bind (fun s' rest ok => ?_) fun s' => ?_
          · have shorter := (((tracks _ s).inside _).found s' rest ok).1
            exact ih s' (left.take 4) rest (List.length_take_of_le long) (by omega)
          · cases is_done' : done s' with
            | true => exact ⟨[], s', fun fuel junk => chunks_done is_done' fuel _ _⟩
            | false => exact chunks_adrift past once is_done' (Nat.zero_le _)
        rw [Strict.chunks_long is_done long]
        refine later.turn rest_length.le zero fun fuel junk => ?_
        exact chunks_turn_long is_done tag_length long fuel junk
      · rw [Strict.chunks_short is_done long]
        exact .of_ended (chunks_adrift past once is_done (by omega))

theorem tracks_chunks (s : σ) (tag : List UInt8) (tag_length : tag.length = 4) :
    Tracks (Strict.allChunks done handleS s) (fun fuel => chunks done handle fuel tag s) where
  inside left := tracksAt_chunks past once tracks (left.length + 1) s tag left tag_length (Nat.lt_succ_self _)
  past := by
    cases is_done : done s with
    | true => exact ⟨[], s, fun fuel junk => chunks_done is_done fuel _ _⟩
    | false => exact chunks_adrift past once is_done (Nat.zero_le _)

/-- The variable of the tag is a new one. -/
theorem tracks_freshChunks (s : σ) : Tracks (Strict.allChunks done handleS s)
    (fun fuel => fresh 4 >>= fun tag => chunks done handle fuel tag s) := by
  have zeros : Tracks (Strict.allChunks done handleS s)
      (fun fuel => chunks done handle fuel (List.replicate 4 0) s) :=
    tracks_chunks past once tracks s _ List.length_replicate
  have adrift {left : List UInt8}
      (short : Adrift (fun fuel => chunks done handle fuel (List.replicate 4 0) s) left) :
      Adrift (fun fuel => fresh 4 >>= fun tag => chunks done handle fuel tag s) left :=
    .after (List.replicate 4 0) (fun _ junk => .inl (fresh_bytes (List.replicate 4 0) left junk)) short
  refine ⟨fun left => ?_, adrift zeros.past⟩
  have same (long : done s = true ∨ 4 ≤ left.length) (fuel : Nat) (junk : Stream' UInt8) :
      (fresh 4 >>= fun tag => chunks done handle fuel tag s) ⟨left, junk⟩ =
        chunks done handle fuel (List.replicate 4 0) s ⟨left, junk.drop 4⟩ := by
    change chunks done handle fuel (junk.take 4) s ⟨left, junk.drop 4⟩ = _
    cases fuel with
    | zero => rfl
    | succ fuel =>
      cases is_done : done s with
      | true => rw [chunks, chunks, if_pos is_done, if_pos is_done]
      | false =>
        have long := long.resolve_left (by rw [is_done]; exact Bool.false_ne_true)
        rw [chunks_turn_long is_done (length_take 4 junk) long,
          chunks_turn_long is_done List.length_replicate long]
  by_cases long : done s = true ∨ 4 ≤ left.length
  · exact (zeros.inside left).shift 4 (same long)
  · obtain ⟨not_done, short⟩ := not_or.mp long
    have strict : Strict.allChunks done handleS s left = .error .ended :=
      Strict.chunks_short (Bool.eq_false_of_not_eq_true not_done) short _
    rw [strict]
    exact .of_ended (adrift ((zeros.inside left).ended strict))

end Chunks

end ImxTest.Lib.Reading
