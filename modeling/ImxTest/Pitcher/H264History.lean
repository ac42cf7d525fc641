import ImxTest.Pitcher.H264Safety

/-! `h264_parse` after other parses in the same process. The static `psps` is not
reset between parses, so a sequence parameter set that ends one buffer is taken up
with the first unit of the next. -/
namespace ImxTest.Pitcher.H264

open Scan Lib.Cut

structure Buffer where
  virt : Nat → UInt8
  size : Nat
  number : Nat := 0

/-- The static after parses of these buffers in turn, numbered from `n` on. -/
def parseAll : (n : Nat) → List Buffer → Option (Nat × Nat) → Except Fault (Option (Nat × Nat))
  | _, [], psps => .ok psps
  | n, b :: bs, psps => do
    let (_, _, final) ← h264Parse n { virt := b.virt, size := b.size, number := b.number } psps
    parseAll (n + 1) bs final.psps

/-- What a parse of the buffer hands over. -/
def pushed (n : Nat) (b : Buffer) (psps : Option (Nat × Nat)) : Except Fault (List (Int × Int)) :=
  (h264Parse n { virt := b.virt, size := b.size, number := b.number } psps).map fun r => r.2.1.handed

/-- The parse of a buffer pushes what it would push as the first one, and reads
through no pointer into another buffer. -/
def Fresh (n : Nat) (b : Buffer) (psps : Option (Nat × Nat)) : Prop :=
  pushed n b psps = pushed n b none ∧ pushed n b psps ≠ .error .stalePointer

/-- Some unit of the buffer has at least two bytes up to the end of the buffer. -/
def HasUnit (b : Buffer) : Prop := ∃ p ∈ spots h264Scode b.virt b.size 0, 2 ≤ leftSize b.size p

theorem checkPsps_psps {buffer p : Nat} {virt : Nat → UInt8} {s t : H264State}
    (run : checkPsps buffer virt p s = .ok t) : t.psps = none := by
  unfold checkPsps at run
  split at run
  case h_1 none =>
    obtain rfl := Except.ok.inj run
    exact none
  case h_2 =>
    split at run
    case isTrue => contradiction
    case isFalse =>
      obtain ⟨⟨info, reach⟩, -, done⟩ := bind_ok run
      obtain rfl := Except.ok.inj done
      rfl

/-- A parse leaves the static as it was, cleared, or in its own buffer. -/
theorem h264CheckFrame_psps {buffer p size : Nat} {virt : Nat → UInt8} {s t : H264State}
    {type : ParserType} (run : h264CheckFrame buffer virt p size s = .ok (type, t))
    {r : Nat × Nat} (pending : t.psps = some r) : s.psps = some r ∨ r.1 = buffer := by
  unfold h264CheckFrame at run
  split at run
  case isTrue =>
    obtain ⟨-, rfl⟩ := Prod.mk.inj (Except.ok.inj run)
    exact .inl pending
  case isFalse =>
    obtain ⟨u, checked, run⟩ := bind_ok run
    have none := checkPsps_psps checked
    right
    simp only at run
    split_ifs at run
    case neg =>
      obtain ⟨⟨⟨newFrame, info⟩, reach⟩, -, done⟩ := bind_ok run
      obtain ⟨-, rfl⟩ := Prod.mk.inj (Except.ok.inj done)
      simp [none] at pending
    all_goals
      obtain ⟨-, rfl⟩ := Prod.mk.inj (Except.ok.inj run)
      simp [none] at pending
    exact pending ▸ rfl

theorem calls_psps {buffer size number frames : Nat} {virt : Nat → UInt8} {ps : List Nat}
    {s t : H264State} (run : calls (h264CheckFrame buffer) virt size number frames ps s = .ok t)
    {r : Nat × Nat} (pending : t.psps = some r) : s.psps = some r ∨ r.1 = buffer := by
  induction ps generalizing frames s with
  | nil =>
    obtain rfl := Except.ok.inj run
    exact .inl pending
  | cons p ps ih =>
    obtain ⟨⟨type, u⟩, called, run⟩ := bind_ok run
    have first := fun earlier => h264CheckFrame_psps called (r := r) earlier
    simp only at run
    split_ifs at run
    · obtain rfl := Except.ok.inj run
      exact first pending
    · exact (ih run).elim first .inr
    · exact (ih run).elim first .inr

/-- The static never points into a buffer yet to come. -/
theorem parseAll_owner {n : Nat} {bs : List Buffer} {psps last : Option (Nat × Nat)}
    (run : parseAll n bs psps = .ok last) (old : ∀ r, psps = some r → r.1 < n) :
    ∀ r, last = some r → r.1 < n + bs.length := by
  induction bs generalizing n psps with
  | nil =>
    obtain rfl := Except.ok.inj run
    exact old
  | cons b bs ih =>
    obtain ⟨⟨ret, q, final⟩, parsed, run⟩ := bind_ok run
    have whole := h264Parse_calls n b.virt b.size b.number psps
    rw [parsed] at whole
    have later := ih run fun r pending => by
      rcases calls_psps whole.symm pending with earlier | own
      · exact Nat.lt_succ_of_lt (old r earlier)
      · exact own ▸ Nat.lt_succ_self n
    intro r pending
    rw [List.length_cons]
    have := later r pending
    omega

/-! ## A buffer without units -/

theorem codesFrom_short {buffer size todo i : Nat} {virt : Nat → UInt8}
    (short : ∀ p ∈ spots h264Scode virt todo i, leftSize size p < 2) (s : H264State) :
    codesFrom h264Scode (some (h264CheckFrame buffer)) virt size todo i false s = .ok ([], s) := by
  induction todo generalizing i with
  | zero => rfl
  | succ todo ih =>
    rw [spots] at short
    rw [codesFrom, show ({ h264Scode with forceExtraOnFirst := false } : Scode) = h264Scode from rfl]
    split
    case isTrue ends =>
      rw [if_pos ends] at short
      have called : h264CheckFrame buffer virt (i + 1) (leftSize size (i + 1)) s = .ok (.UNKNOWN, s) := by
        rw [h264CheckFrame, if_pos (short (i + 1) (by simp))]
      simp only [classify, called, bind, Except.bind, if_true]
      exact ih fun p mem => short p (List.mem_cons_of_mem _ mem)
    case isFalse ends =>
      rw [if_neg ends] at short
      exact ih short

theorem pushed_short {b : Buffer} (none_ : ¬ HasUnit b) (n : Nat) (psps : Option (Nat × Nat)) :
    pushed n b psps = .ok [] := by
  have short : ∀ p ∈ spots h264Scode b.virt b.size 0, leftSize b.size p < 2 := by
    intro p mem
    by_contra long
    exact none_ ⟨p, mem, by omega⟩
  have accepted : acceptedCodes { virt := b.virt, size := b.size, number := b.number } h264Scode
      (some (h264CheckFrame n)) { psps } = .ok ([], { psps }) := codesFrom_short short { psps }
  have room : HasRoom { virt := b.virt, size := b.size, number := b.number } :=
    Nat.eq_zero_or_pos b.number
  obtain ⟨q, final, run, handed⟩ := pitcherParseStartcode_spec (by decide) (fun _ => rfl) room accepted
  have nothing : limited { virt := b.virt, size := b.size, number := b.number }
      (cut b.size (([] : List Code).map Code.mark)) = [] := by
    simp [limited, cut, cutFrom, advance, Phase.finish]
  rw [pushed, h264Parse, run]
  have empty : q.handed = [] := by rw [handed.handed, nothing]; rfl
  exact congrArg Except.ok empty

/-! ## Two parses of one buffer -/

/-- The first unit goes through a pointer the static has into another buffer. -/
theorem calls_stale {buffer size number frames : Nat} {virt : Nat → UInt8} {ps : List Nat}
    (long : ∃ p ∈ ps, 2 ≤ leftSize size p) {s : H264State} {r : Nat × Nat} (pending : s.psps = some r)
    (other : r.1 ≠ buffer) :
    calls (h264CheckFrame buffer) virt size number frames ps s = .error .stalePointer := by
  induction ps generalizing frames with
  | nil => simp at long
  | cons p ps ih =>
    by_cases here : leftSize size p < 2
    · have called : h264CheckFrame buffer virt p (leftSize size p) s = .ok (.UNKNOWN, s) := by
        rw [h264CheckFrame, if_pos here]
      simp only [calls, called, bind, Except.bind, reduceCtorEq, if_false]
      apply ih
      obtain ⟨q, mem, enough⟩ := long
      rcases List.mem_cons.mp mem with rfl | mem
      · omega
      · exact ⟨q, mem, enough⟩
    · have stale : checkPsps buffer virt p s = .error .stalePointer := by
        simp only [checkPsps, pending, other, ne_eq, not_false_eq_true, if_true]
      simp only [calls, h264CheckFrame, here, if_false, stale, bind, Except.bind]

theorem pushed_stale {n : Nat} {b : Buffer} (long : HasUnit b) {r : Nat × Nat} (other : r.1 ≠ n) :
    pushed n b (some r) = .error .stalePointer := by
  have run := h264Parse_calls n b.virt b.size b.number (some r)
  rw [calls_stale long rfl other] at run
  cases parsed : h264Parse n { virt := b.virt, size := b.size, number := b.number } (some r) with
  | ok result =>
    rw [parsed] at run
    contradiction
  | error fault =>
    rw [parsed] at run
    rw [pushed, parsed]
    exact congrArg Except.error (Except.error.inj run)

theorem pushed_clear (n : Nat) (b : Buffer) : pushed n b none ≠ .error .stalePointer := by
  have run := h264Parse_calls n b.virt b.size b.number none
  have proper : Proper (Owned n) (calls (h264CheckFrame n) b.virt b.size b.number 0
      (spots h264Scode b.virt b.size 0) {}) := calls_owned (by simp [Owned])
  intro stale
  cases parsed : h264Parse n { virt := b.virt, size := b.size, number := b.number } none with
  | ok result =>
    rw [pushed, parsed] at stale
    contradiction
  | error fault =>
    rw [pushed, parsed] at stale
    rw [parsed] at run
    rw [← run] at proper
    obtain rfl := Except.error.inj stale
    exact proper

/-- After any history the parse of a buffer is what it would be without one, exactly
when the history has left no sequence parameter set pending or the buffer has no unit. -/
theorem h264_fresh_iff {bs : List Buffer} {psps : Option (Nat × Nat)}
    (history : parseAll 0 bs none = .ok psps) (b : Buffer) :
    Fresh bs.length b psps ↔ psps = none ∨ ¬ HasUnit b := by
  constructor
  · rintro ⟨-, clear⟩
    by_contra neither
    push Not at neither
    obtain ⟨pending, long⟩ := neither
    obtain ⟨r, rfl⟩ := Option.ne_none_iff_exists'.mp pending
    have old := parseAll_owner history (by simp) r rfl
    exact clear (pushed_stale long (by omega))
  · rintro (rfl | short)
    · exact ⟨rfl, pushed_clear bs.length b⟩
    · rw [Fresh, pushed_short short, pushed_short short]
      exact ⟨rfl, by simp⟩

/-- A buffer that ends with a sequence parameter set, and one with a single unit. -/
def endsWithSps : Buffer where
  virt := fun i => [0, 0, 1, 0x67, 0x42].getD i 0
  size := 5

def anyUnit : Buffer where
  virt := fun i => [0, 0, 1, 0x09, 0x10].getD i 0
  size := 5

theorem h264_fresh_after : Fresh 1 anyUnit (some (0, 3)) ↔ some (0, 3) = none ∨ ¬ HasUnit anyUnit :=
  h264_fresh_iff (show parseAll 0 [endsWithSps] none = .ok (some (0, 3)) by decide +kernel) anyUnit

/-- The pending sequence parameter set is taken up in the wrong buffer. -/
theorem h264_stale : ∃ psps, parseAll 0 [endsWithSps] none = .ok psps ∧ ¬ Fresh 1 anyUnit psps := by
  refine ⟨some (0, 3), by decide +kernel, ?_⟩
  rintro ⟨-, clear⟩
  exact clear (by decide +kernel)

end ImxTest.Pitcher.H264
