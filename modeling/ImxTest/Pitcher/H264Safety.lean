import ImxTest.Pitcher.H264Proofs
import ImxTest.Pitcher.Ranges

/-! Which files `h264_parse` gets through. It trusts the headers it reads: one that
is cut off or holds a value out of range trips an assertion or a shift, and a slice
of a few bytes at the end of the file is looked past. -/
namespace ImxTest.Pitcher.H264

open Scan

/-- The units at these places can be parsed one after the other, as far as the
frame limit lets the scan go. -/
def SoundFrom (virt : Nat → UInt8) (size number : Nat) : (frames : Nat) → List Nat → Met → Prop
  | _, [], _ => True
  | frames, p :: ps, m =>
    match meet virt size p m with
    | none => False
    | some (type, m') =>
      peeks virt size p m = false ∧
        if type = .FRAME then 0 < number ∧ frames = number ∨ SoundFrom virt size number (frames + 1) ps m'
        else SoundFrom virt size number frames ps m'

/-- Every header the parse comes to can be read from its bits, and no short slice
ends the file. -/
def Sound (virt : Nat → UInt8) (size number : Nat) : Prop :=
  SoundFrom virt size number 0 (spots h264Scode virt size 0) {}

/-- The parse ends without a fault and without a look past the file. -/
def Safe (virt : Nat → UInt8) (size number : Nat) : Prop :=
  ∃ q final, h264Parse 0 { virt, size, number } none = .ok (.OK, q, final) ∧ final.reach ≤ size

/-- Only a sequence parameter set is left to be read. -/
theorem readUnit_sps {virt : Nat → UInt8} {size p : Nat} {info : H264ParseT} {m : Met} {type : ParserType}
    (unit : readUnit virt size p info = some (type, m)) : m.sps = none ∨ m.sps = some p := by
  unfold readUnit at unit
  dsimp only at unit
  split at unit
  case isTrue =>
    left
    split at unit
    case isTrue =>
      cases unit
      rfl
    case isFalse =>
      obtain ⟨x, -, same⟩ := Option.map_eq_some_iff.mp unit
      cases same
      rfl
  case isFalse =>
    split at unit
    case isTrue =>
      cases unit
      exact .inr rfl
    case isFalse =>
      left
      split at unit
      all_goals
        cases unit
        rfl

theorem meet_sps {virt : Nat → UInt8} {size p : Nat} {m m' : Met} {type : ParserType}
    (met : meet virt size p m = some (type, m')) {q : Nat} (pending : m'.sps = some q) :
    q = p ∨ m.sps = some q := by
  unfold meet at met
  split at met
  case isTrue =>
    obtain ⟨-, rfl⟩ : ParserType.UNKNOWN = type ∧ m = m' := by simpa using met
    exact .inr pending
  case isFalse =>
    obtain ⟨info, -, unit⟩ := Option.bind_eq_some_iff.mp met
    rcases readUnit_sps unit with none_ | same
    · rw [none_] at pending
      cases pending
    · exact .inl (Option.some.inj (pending.symm.trans same))

/-! ## Every state only adds to what was looked at -/

theorem bind_ok {ε α β : Type} {x : Except ε α} {f : α → Except ε β} {b : β}
    (run : (x >>= f) = .ok b) : ∃ a, x = .ok a ∧ f a = .ok b := by
  cases x with
  | error e => contradiction
  | ok a => exact ⟨a, rfl, run⟩

theorem checkPsps_reach {buffer p : Nat} {virt : Nat → UInt8} {s s' : H264State}
    (run : checkPsps buffer virt p s = .ok s') : s.reach ≤ s'.reach := by
  unfold checkPsps at run
  split at run
  case h_1 =>
    obtain rfl := Except.ok.inj run
    exact le_refl _
  case h_2 =>
    split at run
    case isTrue => contradiction
    case isFalse =>
      obtain ⟨⟨info, reach⟩, -, done⟩ := bind_ok run
      obtain rfl := Except.ok.inj done
      exact le_max_left ..

theorem h264CheckFrame_reach {buffer p size : Nat} {virt : Nat → UInt8} {s s' : H264State}
    {type : ParserType} (run : h264CheckFrame buffer virt p size s = .ok (type, s')) :
    s.reach ≤ s'.reach := by
  unfold h264CheckFrame at run
  split at run
  case isTrue =>
    obtain ⟨-, rfl⟩ := Prod.mk.inj (Except.ok.inj run)
    exact le_refl _
  case isFalse =>
    obtain ⟨t, checked, run⟩ := bind_ok run
    refine (checkPsps_reach checked).trans ?_
    split_ifs at run
    case pos =>
      obtain ⟨-, rfl⟩ := Prod.mk.inj (Except.ok.inj run)
      exact le_refl _
    case neg =>
      obtain ⟨⟨⟨newFrame, info⟩, reach⟩, -, done⟩ := bind_ok run
      obtain ⟨-, rfl⟩ := Prod.mk.inj (Except.ok.inj done)
      exact le_max_left ..
    all_goals
      obtain ⟨-, rfl⟩ := Prod.mk.inj (Except.ok.inj run)
      exact le_refl _

theorem calls_reach {buffer size number frames : Nat} {virt : Nat → UInt8} {ps : List Nat}
    {s s' : H264State} (run : calls (h264CheckFrame buffer) virt size number frames ps s = .ok s') :
    s.reach ≤ s'.reach := by
  induction ps generalizing frames s with
  | nil =>
    obtain rfl := Except.ok.inj run
    exact le_refl _
  | cons p ps ih =>
    obtain ⟨⟨type, t⟩, called, run⟩ := bind_ok run
    refine (h264CheckFrame_reach called).trans ?_
    simp only at run
    split_ifs at run
    · obtain rfl := Except.ok.inj run
      exact le_refl _
    · exact ih run
    · exact ih run

/-! ## Faults -/

/-- A fault the bytes lead to, or a result with a property. -/
def Proper {α : Type} (P : α → Prop) : Except Fault α → Prop
  | .ok a => P a
  | .error fault => fault.Trip

theorem Proper.bind {α β : Type} {P : α → Prop} {Q : β → Prop} {x : Except Fault α}
    {f : α → Except Fault β} (first : Proper P x) (later : ∀ a, P a → Proper Q (f a)) :
    Proper Q (x >>= f) := by
  cases x with
  | error e => exact first
  | ok a => exact later a first

theorem Proper.of_trips {α : Type} {x : Except Fault α} (trips : ∀ fault, x = .error fault → fault.Trip) :
    Proper (fun _ => True) x := by
  cases x with
  | error e => exact trips e rfl
  | ok a => trivial

/-- The static points into this buffer, if anywhere. -/
def Owned (buffer : Nat) (s : H264State) : Prop := ∀ r, s.psps = some r → r.1 = buffer

theorem checkPsps_owned {buffer p : Nat} {virt : Nat → UInt8} {s : H264State} (owned : Owned buffer s) :
    Proper (fun s => s.psps = none) (checkPsps buffer virt p s) := by
  unfold checkPsps
  split
  case h_1 none => exact none
  case h_2 owner psps pending =>
    rw [if_neg (by simpa using owned _ pending)]
    have trips := parseNal_trips (parseSpsInfo_ends s.info) virt psps (spsSize_word p psps) (le_refl _)
    exact (Proper.of_trips trips).bind fun _ _ => rfl

theorem h264CheckFrame_owned {buffer p size : Nat} {virt : Nat → UInt8} {s : H264State}
    (owned : Owned buffer s) :
    Proper (fun r => Owned buffer r.2) (h264CheckFrame buffer virt p size s) := by
  unfold h264CheckFrame
  split
  · exact owned
  · refine (checkPsps_owned owned).bind fun t none => ?_
    have clear : Owned buffer t := fun r pending => absurd pending (by simp [none])
    have small : min size MAX_SLICE_HDR_SZ ≤ MAX_SLICE_HDR_SZ := min_le_right ..
    have word : MAX_SLICE_HDR_SZ < 2 ^ 32 := by decide
    simp only
    split_ifs
    · exact clear
    · have trips := parseNal_trips (parseSliceHeaderInfo_ends t.info ((virt p).toNat &&& 0x1f == 5)) virt p
        (show min size MAX_SLICE_HDR_SZ < 2 ^ 32 by omega) small
      exact (Proper.of_trips trips).bind fun _ _ => clear
    · rintro r ⟨⟩
      rfl
    · exact clear
    · exact clear

theorem calls_owned {buffer size number frames : Nat} {virt : Nat → UInt8} {ps : List Nat}
    {s : H264State} (owned : Owned buffer s) :
    Proper (Owned buffer) (calls (h264CheckFrame buffer) virt size number frames ps s) := by
  induction ps generalizing frames s with
  | nil => exact owned
  | cons p ps ih =>
    refine (h264CheckFrame_owned owned).bind fun ⟨type, t⟩ owned => ?_
    simp only
    split_ifs
    · exact owned
    · exact ih owned
    · exact ih owned

/-! ## The parse as a whole -/

theorem calls_sound (virt : Nat → UInt8) (number frames : Nat) {buffer size : Nat} {ps : List Nat}
    {s : H264State} {m : Met} (keeps : Keeps buffer s m) (low : s.reach ≤ size)
    (sorted : ps.Pairwise (· < ·)) (before : ∀ q, m.sps = some q → ∀ p ∈ ps, q < p) :
    (∃ s', calls (h264CheckFrame buffer) virt size number frames ps s = .ok s' ∧ s'.reach ≤ size) ↔
      SoundFrom virt size number frames ps m := by
  induction ps generalizing frames s m with
  | nil => exact ⟨fun _ => trivial, fun _ => ⟨s, rfl, low⟩⟩
  | cons p ps ih =>
    have spec := h264CheckFrame_spec virt size keeps
      fun q pending => before q pending p (by simp)
    simp only [SoundFrom, calls]
    cases met : meet virt size p m with
    | none =>
      rw [met] at spec
      obtain ⟨fault, error, -⟩ := spec
      simp [error, bind, Except.bind]
    | some result =>
      obtain ⟨type, m'⟩ := result
      rw [met] at spec
      obtain ⟨t, called, keeps', reach⟩ := spec
      simp only [called, bind, Except.bind]
      cases peek : peeks virt size p m
      · have low' : t.reach ≤ size := reach.mpr ⟨low, peek⟩
        have later (frames : Nat) : (∃ s', calls (h264CheckFrame buffer) virt size number frames ps t =
            .ok s' ∧ s'.reach ≤ size) ↔ SoundFrom virt size number frames ps m' :=
          ih frames keeps' low' sorted.of_cons fun q pending r mem => by
            rcases meet_sps met pending with rfl | earlier
            · exact List.rel_of_pairwise_cons sorted mem
            · exact before q earlier r (List.mem_cons_of_mem p mem)
        simp only [true_and]
        by_cases frame : type = .FRAME
        · simp only [frame, if_true]
          by_cases stop : 0 < number ∧ frames = number
          · simp only [stop, and_self, if_true, true_or, iff_true]
            exact ⟨t, rfl, low'⟩
          · simp only [stop, if_false, false_or]
            exact later (frames + 1)
        · simp only [frame, if_false]
          exact later frames
      · -- what was looked at past the file stays so
        simp only [Bool.true_eq_false, false_and, iff_false]
        rintro ⟨s', run, end_⟩
        have past : ¬ t.reach ≤ size := fun low => by simpa [peek] using (reach.mp low).2
        have grows : t.reach ≤ s'.reach := by
          split_ifs at run
          · obtain rfl := Except.ok.inj run
            exact le_refl _
          · exact calls_reach run
          · exact calls_reach run
        omega

theorem h264Parse_calls (buffer : Nat) (virt : Nat → UInt8) (size number : Nat)
    (psps : Option (Nat × Nat)) :
    (h264Parse buffer { virt, size, number } psps).map (fun r => r.2.2) =
      calls (h264CheckFrame buffer) virt size number 0 (spots h264Scode virt size 0) { psps } :=
  pitcherParseStartcode_calls (by decide) (by decide) rfl (h264CheckFrame buffer)
    (show HasRoom { virt, size, number } from Nat.eq_zero_or_pos number) { psps }

theorem h264Parse_ret {buffer : Nat} {parser : PitcherParser} {psps : Option (Nat × Nat)} {ret : Ret}
    {q : PitcherParser} {final : H264State} (run : h264Parse buffer parser psps = .ok (ret, q, final)) :
    ret = .OK := by
  unfold h264Parse pitcherParseStartcode at run
  rw [if_neg (by decide), if_neg (by decide)] at run
  obtain ⟨⟨v, done⟩, -, run⟩ := bind_ok run
  exact (Prod.mk.inj (Except.ok.inj run)).1.symm

/-- The parse of a file always ends, and it is safe exactly when the file is sound. -/
theorem h264_safe_iff (virt : Nat → UInt8) (size number : Nat) :
    h264Parse 0 { virt, size, number } none ≠ .error .unending ∧
      (Safe virt size number ↔ Sound virt size number) := by
  have run := h264Parse_calls 0 virt size number none
  have keeps : Keeps 0 {} {} := ⟨rfl, rfl⟩
  have sound := calls_sound virt number 0 keeps (Nat.zero_le size)
    (spots_sorted h264Scode virt size 0).1 (by simp)
  constructor
  · intro endless
    have proper : Proper (Owned 0) (calls (h264CheckFrame 0) virt size number 0
        (spots h264Scode virt size 0) {}) := calls_owned (by simp [Owned])
    rw [← run, endless] at proper
    exact proper
  · rw [Sound, ← sound]
    constructor
    · rintro ⟨q, final, parsed, low⟩
      rw [parsed] at run
      exact ⟨final, run.symm, low⟩
    · rintro ⟨final, called, low⟩
      cases parsed : h264Parse 0 { virt, size, number } none with
      | error fault =>
        rw [parsed, called] at run
        contradiction
      | ok result =>
        obtain ⟨ret, q, last⟩ := result
        rw [parsed, called] at run
        obtain rfl : last = final := Except.ok.inj run
        obtain rfl := h264Parse_ret parsed
        exact ⟨q, last, parsed, low⟩

/-- A sequence parameter set and an IDR slice of five bytes. -/
def shortSlice : List UInt8 :=
  [0, 0, 0, 1, 0x67, 0x42, 0x00, 0x0A, 0xDD, 0xE4, 0, 0, 0, 1, 0x65, 0x88, 0x84, 0x21, 0xA0]

/-- The search for emulation prevention bytes looks at the byte behind the file. -/
theorem h264_looks_outside : ¬ Safe (fun i => shortSlice.getD i 0) 19 0 := by
  have evaluated : (h264Parse 0 { virt := fun i => shortSlice.getD i 0, size := 19 } none).map
      (fun result => result.2.2.reach) = .ok 20 := by decide +kernel
  rintro ⟨q, final, run, low⟩
  rw [run] at evaluated
  have reach : final.reach = 20 := Except.ok.inj evaluated
  omega

end ImxTest.Pitcher.H264
