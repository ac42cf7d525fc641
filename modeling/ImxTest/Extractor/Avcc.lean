import ImxTest.Extractor.CodecData

/-! How the conversion of an `avcC` record ends: two lists of units, each behind one start
code. -/
namespace ImxTest.Extractor
open Lib.BitString Lib.While
open Pitcher (Ret)

/-! ## The turns of the loop -/

/-- The loop goes on from here, once the numbers are switched. -/
def Resumes (data : List UInt8) (plane : Nat) (s : Avcc) (outcome : Except Fault (Ret × List UInt8)) : Prop :=
  match avccSwitch data plane s with
  | .error fault => outcome = .error fault
  | .ok t => Ends (avccTurn data plane) t outcome

section Avcc
variable {data rest : List UInt8} {plane left offset : Nat} {spsDone : Bool} {out : List UInt8}
  {outcome : Except Fault (Ret × List UInt8)}

/-- A turn of the loop for a unit that is in the record. -/
theorem avcc_unit {hi lo : UInt8} (suffix : data.drop offset = hi :: lo :: rest) (inside : offset ≤ data.length)
    (fits : word [hi, lo] ≤ rest.length) (accepted : data.length ≤ plane) (outs : out.length ≤ offset)
    (small : data.length < 2 ^ 32) :
    Ends (avccTurn data plane) ⟨left + 1, spsDone, offset, out⟩ outcome ↔
      Resumes data plane ⟨left, spsDone, offset + (2 + word [hi, lo]), out ++ rest.take (word [hi, lo])⟩
        outcome := by
  obtain ⟨size, unit, -, behind⟩ := load_unit suffix inside fits
  have inRange : ¬ u32 (word [hi, lo] + 2 + offset) > data.length := by
    rw [u32_small (by omega)]
    omega
  have room : put plane out (rest.take (word [hi, lo])) = .ok (out ++ rest.take (word [hi, lo])) := by
    rw [put, List.length_take_of_le fits, if_pos (by omega)]
  have turn : avccTurn data plane ⟨left + 1, spsDone, offset, out⟩ =
      (avccSwitch data plane
        ⟨left, spsDone, offset + (2 + word [hi, lo]), out ++ rest.take (word [hi, lo])⟩).map .again := by
    rw [avccTurn, if_neg (Nat.succ_ne_zero left), size]
    dsimp only [bind, Except.bind]
    rw [if_neg inRange, unit]
    dsimp only
    rw [room]
    dsimp only
    rw [u32_small (by omega)]
    rfl
  unfold Resumes
  split
  next fault failed => exact ends_error_iff (by rw [turn, failed]; rfl)
  next t switched => exact ends_again (by rw [turn, switched]; rfl)

/-- The numbers are not switched within a list. -/
theorem resumes_more : Resumes data plane ⟨left + 1, spsDone, offset, out⟩ outcome ↔
    Ends (avccTurn data plane) ⟨left + 1, spsDone, offset, out⟩ outcome := by
  have within : ¬ (left + 1 = 0 ∧ spsDone = false) := fun both => Nat.succ_ne_zero left both.1
  have same : avccSwitch data plane ⟨left + 1, spsDone, offset, out⟩ = .ok ⟨left + 1, spsDone, offset, out⟩ :=
    if_neg within
  unfold Resumes
  rw [same]

theorem avcc_short (outside : data.length < offset + 2) :
    Ends (avccTurn data plane) ⟨left + 1, spsDone, offset, out⟩ outcome ↔ outcome = .error .outside := by
  apply ends_error_iff
  rw [avccTurn, if_neg (Nat.succ_ne_zero left), number_short (by decide) outside]
  rfl

/-- A unit that is cut off is noticed. -/
theorem avcc_cut {hi lo : UInt8} (suffix : data.drop offset = hi :: lo :: rest) (inside : offset ≤ data.length)
    (cut : rest.length < word [hi, lo]) (far : offset + 65537 < 2 ^ 32) :
    Ends (avccTurn data plane) ⟨left + 1, spsDone, offset, out⟩ outcome ↔ outcome = .ok (.E_INVAL, out) := by
  obtain ⟨size, -⟩ := load_unit suffix inside (Nat.zero_le _)
  have length := congrArg List.length suffix
  have small := word_pair_lt hi lo
  rw [List.length_drop, List.length_cons, List.length_cons] at length
  have outOfRange : u32 (word [hi, lo] + 2 + offset) > data.length := by
    rw [u32_small (by omega)]
    omega
  apply ends_leave_iff
  rw [avccTurn, if_neg (Nat.succ_ne_zero left), size]
  dsimp only [bind, Except.bind]
  rw [if_pos outOfRange]
  rfl

/-- A list of units, of which there is one at least. -/
theorem avcc_units (suffix : data.drop offset = rest) (inside : offset ≤ data.length)
    (accepted : data.length ≤ plane) (outs : out.length ≤ offset) (small : data.length < 2 ^ 32)
    (far : offset + (left + 1) * 65537 < 2 ^ 32) :
    Ends (avccTurn data plane) ⟨left + 1, spsDone, offset, out⟩ outcome ↔
      match splitNals (left + 1) rest with
      | .short _ => outcome = .error .outside
      | .cut nals _ _ => outcome = .ok (.E_INVAL, out ++ nals.flatten)
      | .whole nals tail =>
        Resumes data plane ⟨0, spsDone, data.length - tail.length, out ++ nals.flatten⟩ outcome := by
  induction left using Nat.strongRecOn generalizing offset out rest with
  | ind left ih =>
    have length := congrArg List.length suffix
    rw [List.length_drop] at length
    rcases rest with _ | ⟨hi, _ | ⟨lo, rest⟩⟩
    · rw [List.length_nil] at length
      exact avcc_short (by omega)
    · rw [List.length_singleton] at length
      exact avcc_short (by omega)
    rw [splitNals]
    by_cases fits : word [hi, lo] ≤ rest.length
    · obtain ⟨-, -, behind, place⟩ := load_unit suffix inside fits
      have size := word_pair_lt hi lo
      have ends : offset + (2 + word [hi, lo]) = data.length - (rest.drop (word [hi, lo])).length := by
        rw [List.length_cons, List.length_cons] at length
        rw [List.length_drop]
        omega
      have written : (out ++ rest.take (word [hi, lo])).length ≤ offset + (2 + word [hi, lo]) := by
        rw [List.length_append, List.length_take_of_le fits]
        omega
      rw [avcc_unit suffix inside fits accepted outs small, if_pos fits]
      cases left with
      | zero =>
        rw [splitNals, Split.cons, ends]
        simp only [List.flatten_cons, List.flatten_nil, List.append_nil]
      | succ left =>
        rw [resumes_more, ih left (Nat.lt_succ_self left) behind place written (by omega)]
        cases splitNals (left + 1) (rest.drop (word [hi, lo])) with
        | whole nals tail => simp only [Split.cons, List.flatten_cons, List.append_assoc]
        | short nals => simp only [Split.cons]
        | cut nals size tail => simp only [Split.cons, List.flatten_cons, List.append_assoc]
    · rw [avcc_cut suffix inside (Nat.lt_of_not_le fits) (by omega), if_neg fits]
      simp only [List.flatten_nil, List.append_nil]

end Avcc

/-! ## The two lists -/

def numSps (data : List UInt8) : Nat := field data 5 &&& 0x1f

/-- How the conversion of an `avcC` record ends, list by list. -/
def avccOutcome (data : List UInt8) : Except Fault (Ret × List UInt8) :=
  if data.length < 6 then .error .outside
  else if ¬ Supported (lengthSizeOf (field data 4)) then .ok (.E_INVAL, [])
  else if numSps data = 0 then .ok (.OK, startcode)
  else
    match splitNals (numSps data) (data.drop 6) with
    | .short _ | .whole _ [] => .error .outside
    | .cut sps _ _ => .ok (.E_INVAL, startcode ++ sps.flatten)
    | .whole sps (numPps :: tail) =>
      match splitNals numPps.toNat tail with
      | .short _ => .error .outside
      | .cut pps _ _ => .ok (.E_INVAL, startcode ++ sps.flatten ++ startcode ++ pps.flatten)
      | .whole pps _ => .ok (.OK, startcode ++ sps.flatten ++ startcode ++ pps.flatten)

section Outcome
variable {data tail : List UInt8} {plane place offset : Nat} {out : List UInt8} {b : UInt8}
  {outcome : Except Fault (Ret × List UInt8)}

/-- The list of PPS. -/
theorem avcc_pps (suffix : data.drop offset = b :: tail) (inside : offset ≤ data.length)
    (accepted : data.length ≤ plane) (outs : out.length + 4 ≤ offset + 1) (small : data.length < 2 ^ 32)
    (far : offset + 256 * 65537 < 2 ^ 32) :
    Resumes data plane ⟨0, false, offset, out⟩ outcome ↔
      match splitNals b.toNat tail with
      | .short _ => outcome = .error .outside
      | .cut pps _ _ => outcome = .ok (.E_INVAL, out ++ startcode ++ pps.flatten)
      | .whole pps _ => outcome = .ok (.OK, out ++ startcode ++ pps.flatten) := by
  have length := congrArg List.length suffix
  rw [List.length_drop, List.length_cons] at length
  have behind : data.drop (offset + 1) = tail := by
    rw [← List.drop_drop, suffix]
    rfl
  have room : put plane out startcode = .ok (out ++ startcode) := if_pos (by
    show out.length + 4 ≤ plane
    omega)
  have switched : avccSwitch data plane ⟨0, false, offset, out⟩ =
      .ok ⟨b.toNat, true, offset + 1, out ++ startcode⟩ := by
    rw [avccSwitch, if_pos ⟨rfl, rfl⟩, number_byte suffix inside]
    dsimp only [bind, Except.bind]
    rw [room]
    dsimp only
    rw [u32_small (by omega)]
    rfl
  unfold Resumes
  rw [switched]
  dsimp only
  obtain ⟨count, known, most⟩ : ∃ count, b.toNat = count ∧ count < 256 := ⟨_, rfl, b.toNat_lt⟩
  rw [known]
  cases count with
  | zero =>
    rw [splitNals]
    simp only [List.flatten_nil, List.append_nil]
    exact ends_leave_iff (if_pos rfl)
  | succ n =>
    have written : (out ++ startcode).length ≤ offset + 1 := by
      rw [List.length_append]
      exact outs
    rw [avcc_units behind (by omega) accepted written small (by omega)]
    cases splitNals (n + 1) tail with
    | short pps => rfl
    | cut pps size rest => rfl
    | whole pps rest => exact ends_leave_iff (if_pos rfl)

theorem avcc_iff (accepted : data.length ≤ plane) (small : data.length < 2 ^ 32) :
    MmeAvcc2annexbCodecdata data plane outcome ↔ outcome = avccOutcome data := by
  unfold MmeAvcc2annexbCodecdata avccOutcome avccStart
  by_cases header : data.length < 6
  · rw [if_pos header]
    have last := @number_short data 5 1 (by decide) (by omega)
    by_cases first : data.length < 5
    · rw [@number_short data 4 1 (by decide) (by omega)]
      rfl
    · rw [number_field (by omega), last]
      rfl
  rw [if_neg header, number_field (by omega), number_field (by omega)]
  dsimp only [bind, Except.bind]
  by_cases supported : Supported (lengthSizeOf (field data 4))
  · have room : put plane [] startcode = .ok startcode := if_pos (by
      show 0 + 4 ≤ plane
      omega)
    rw [if_neg (mt unsupported_iff.mp (not_not.mpr supported)), room, if_neg (not_not.mpr supported)]
    dsimp only
    change Ends (avccTurn data plane) ⟨numSps data, false, 6, startcode⟩ outcome ↔ _
    have most : numSps data < 32 := by
      rw [numSps, show (0x1f : Nat) = 2 ^ 5 - 1 from rfl, Nat.and_two_pow_sub_one_eq_mod]
      exact Nat.mod_lt _ (by decide)
    generalize numSps data = count at most
    cases count with
    | zero => exact ends_leave_iff (if_pos rfl)
    | succ n =>
      have start : startcode.length ≤ 6 := by decide
      have length := @splitNals_length (n + 1) (data.drop 6)
      rw [if_neg (Nat.succ_ne_zero n),
        avcc_units rfl (Nat.le_of_not_lt header) accepted start small (by omega)]
      cases split : splitNals (n + 1) (data.drop 6) with
      | short sps => rfl
      | cut sps size rest => rfl
      | whole sps tail =>
        have suffix := drop_suffix ((splitNals_suffix split).trans (List.drop_suffix 6 data))
        rw [split, List.length_drop] at length
        dsimp only at length ⊢
        cases tail with
        | nil =>
          have failed : avccSwitch data plane ⟨0, false, data.length, startcode ++ sps.flatten⟩ = .error .outside := by
            rw [avccSwitch, if_pos ⟨rfl, rfl⟩, number_short (by decide) (Nat.lt_succ_self _)]
            rfl
          unfold Resumes
          rw [List.length_nil, Nat.sub_zero, failed]
        | cons b tail =>
          have written : (startcode ++ sps.flatten).length = 4 + sps.flatten.length := List.length_append
          rw [List.length_cons] at length
          rw [avcc_pps suffix (Nat.sub_le _ _) accepted (by rw [List.length_cons]; omega) small
            (by rw [List.length_cons]; omega)]
          dsimp only
          cases splitNals b.toNat tail with
          | short pps => rfl
          | cut pps size rest => rfl
          | whole pps rest => rfl
  · rw [if_pos (unsupported_iff.mpr supported), if_pos supported]
    rfl

end Outcome

end ImxTest.Extractor
