import ImxTest.Extractor.CodecData

/-! How the conversion of an `hvcC` record ends: arrays of units, each unit behind a start
code of its own. -/
namespace ImxTest.Extractor
open Lib.BitString
open Pitcher (Ret)

section Nals
variable {data rest : List UInt8} {plane left offset : Nat} {out : List UInt8}

/-- One unit that is in the record. -/
theorem hvcc_unit {hi lo : UInt8} (suffix : data.drop offset = hi :: lo :: rest) (inside : offset ≤ data.length)
    (fits : word [hi, lo] ≤ rest.length) (small : data.length < 2 ^ 32) :
    hvccNals data plane (left + 1) offset out =
      if out.length + (4 + word [hi, lo]) ≤ plane then
        hvccNals data plane left (offset + (2 + word [hi, lo])) (out ++ (startcode ++ rest.take (word [hi, lo])))
      else .error .outside := by
  obtain ⟨size, unit, -, behind⟩ := load_unit suffix inside fits
  have inRange : ¬ u32 (offset + 2 + word [hi, lo]) > data.length := by
    rw [u32_small (by omega)]
    omega
  have four : startcode.length = 4 := rfl
  rw [hvccNals, size]
  dsimp only [bind, Except.bind]
  rw [if_neg inRange, unit]
  by_cases first : out.length + 4 ≤ plane
  · have begun : put plane out startcode = .ok (out ++ startcode) := if_pos first
    rw [begun]
    dsimp only
    by_cases room : out.length + (4 + word [hi, lo]) ≤ plane
    · rw [if_pos room, put, if_pos (by rw [List.length_append, List.length_take_of_le fits]; omega)]
      dsimp only
      rw [u32_small (by omega), List.append_assoc]
    · rw [if_neg room, put, if_neg (by rw [List.length_append, List.length_take_of_le fits]; omega)]
  · rw [put, if_neg (by omega), if_neg (by omega)]

/-- A unit that is cut off is noticed, unless the sum wraps around; then it is read. -/
theorem hvcc_cut {hi lo : UInt8} (suffix : data.drop offset = hi :: lo :: rest) (inside : offset ≤ data.length)
    (cut : rest.length < word [hi, lo]) (small : data.length < 2 ^ 32) :
    hvccNals data plane (left + 1) offset out =
      if offset + 2 + word [hi, lo] < 2 ^ 32 then .ok (none, out) else .error .outside := by
  obtain ⟨size, -⟩ := load_unit suffix inside (Nat.zero_le _)
  have length := congrArg List.length suffix
  have less := word_pair_lt hi lo
  rw [List.length_drop, List.length_cons, List.length_cons] at length
  rw [hvccNals, size]
  dsimp only [bind, Except.bind]
  by_cases noWrap : offset + 2 + word [hi, lo] < 2 ^ 32
  · rw [if_pos noWrap, if_pos (by rw [u32_small noWrap]; omega)]
    rfl
  · have wrapped : ¬ u32 (offset + 2 + word [hi, lo]) > data.length := by
      unfold u32
      omega
    rw [if_neg noWrap, if_neg wrapped, load_short (by omega) (by omega)]
    by_cases room : out.length + startcode.length ≤ plane
    · rw [put, if_pos room]
    · rw [put, if_neg room]

/-- All units of an array. -/
theorem hvccNals_eq (suffix : data.drop offset = rest) (inside : offset ≤ data.length)
    (small : data.length < 2 ^ 32) (within : out.length ≤ plane) :
    hvccNals data plane left offset out =
      match splitNals left rest with
      | .short _ => .error .outside
      | .cut nals size tail =>
        if out.length + (startCoded 4 nals).length ≤ plane ∧ data.length - tail.length + size < 2 ^ 32 then
          .ok (none, out ++ startCoded 4 nals)
        else .error .outside
      | .whole nals tail =>
        if out.length + (startCoded 4 nals).length ≤ plane then
          .ok (some (data.length - tail.length), out ++ startCoded 4 nals)
        else .error .outside := by
  have length := congrArg List.length suffix
  rw [List.length_drop] at length
  induction left generalizing offset rest out with
  | zero =>
    have place : offset = data.length - rest.length := by omega
    rw [splitNals]
    dsimp only
    rw [if_pos (by exact within), place, hvccNals]
    simp only [startCoded, List.flatMap_nil, List.append_nil]
    rfl
  | succ left ih =>
    rcases rest with _ | ⟨hi, _ | ⟨lo, rest⟩⟩
    · rw [List.length_nil] at length
      rw [hvccNals, number_short (by decide) (by omega)]
      rfl
    · rw [List.length_singleton] at length
      rw [hvccNals, number_short (by decide) (by omega)]
      rfl
    rw [List.length_cons, List.length_cons] at length
    rw [splitNals]
    by_cases fits : word [hi, lo] ≤ rest.length
    · obtain ⟨-, -, behind, place⟩ := load_unit suffix inside fits
      have unit : (startcode ++ rest.take (word [hi, lo])).length = 4 + word [hi, lo] := by
        rw [List.length_append, List.length_take_of_le fits]
        rfl
      have longer (nals : List (List UInt8)) : startCoded 4 (rest.take (word [hi, lo]) :: nals) =
          (startcode ++ rest.take (word [hi, lo])) ++ startCoded 4 nals := by
        rw [startCoded_cons, List.append_assoc]
        rfl
      have grown (nals : List (List UInt8)) : (startCoded 4 (rest.take (word [hi, lo]) :: nals)).length =
          4 + word [hi, lo] + (startCoded 4 nals).length := by
        rw [longer, List.length_append, unit]
      rw [hvcc_unit suffix inside fits small, if_pos fits]
      by_cases room : out.length + (4 + word [hi, lo]) ≤ plane
      · rw [if_pos room, ih behind place (by rw [List.length_append, unit]; exact room)
          (by rw [List.length_drop]; omega), List.length_append, unit]
        cases splitNals left (rest.drop (word [hi, lo])) with
        | short nals => rfl
        | cut nals size tail =>
          dsimp only [Split.cons]
          rw [grown, longer, List.append_assoc out, Nat.add_assoc out.length]
        | whole nals tail =>
          dsimp only [Split.cons]
          rw [grown, longer, List.append_assoc out, Nat.add_assoc out.length]
      · rw [if_neg room]
        cases splitNals left (rest.drop (word [hi, lo])) with
        | short nals => rfl
        | cut nals size tail =>
          dsimp only [Split.cons]
          rw [grown, if_neg (by omega)]
        | whole nals tail =>
          dsimp only [Split.cons]
          rw [grown, if_neg (by omega)]
    · have nothing : startCoded 4 [] = [] := rfl
      have place : offset + 2 = data.length - rest.length := by omega
      rw [hvcc_cut suffix inside (Nat.lt_of_not_le fits) small, if_neg fits, place]
      dsimp only
      rw [nothing, List.length_nil, List.append_nil]
      by_cases noWrap : data.length - rest.length + word [hi, lo] < 2 ^ 32
      · rw [if_pos noWrap, if_pos ⟨within, noWrap⟩]
      · rw [if_neg noWrap, if_neg fun both => noWrap both.2]

end Nals

/-! ## The arrays -/

/-- How the conversion of so many arrays ends, when they should be in the last bytes, `rest`,
of a record of `size` bytes. -/
def arraysOutcome (size plane : Nat) : (numArray : Nat) → (rest out : List UInt8) → Except Fault (Ret × List UInt8)
  | 0, _, out => .ok (.OK, out)
  | numArray + 1, rest, out =>
    if u32 (size - rest.length + 5) > size then .ok (.E_INVAL, out)
    else
      match rest with
      | _ :: hi :: lo :: body =>
        match splitNals (word [hi, lo]) body with
        | .short _ => .error .outside
        | .cut nals nalSize tail =>
          if out.length + (startCoded 4 nals).length ≤ plane ∧ size - tail.length + nalSize < 2 ^ 32 then
            .ok (.E_INVAL, out ++ startCoded 4 nals)
          else .error .outside
        | .whole nals tail =>
          if out.length + (startCoded 4 nals).length ≤ plane then
            arraysOutcome size plane numArray tail (out ++ startCoded 4 nals)
          else .error .outside
      | _ => .error .outside

def hvccOutcome (data : List UInt8) (plane : Nat) : Except Fault (Ret × List UInt8) :=
  if data.length < 22 then .error .outside
  else if ¬ Supported (lengthSizeOf (field data 21)) then .ok (.E_INVAL, [])
  else if data.length < 23 then .error .outside
  else arraysOutcome data.length plane (field data 22) (data.drop 23) []

/-- The check in front of an array, when so many bytes are left. -/
theorem range_iff {size left : Nat} (inside : left ≤ size) (small : size < 2 ^ 32) :
    u32 (size - left + 5) > size ↔ left < 5 ∧ size - left + 5 < 2 ^ 32 := by
  unfold u32
  omega

section Arrays
variable {data rest body : List UInt8} {plane numArray offset : Nat} {out : List UInt8}

/-- The number of units in an array, and the place of the first one. -/
theorem array_head {kind hi lo : UInt8} (suffix : data.drop offset = kind :: hi :: lo :: body)
    (inside : offset ≤ data.length) :
    number data (offset + 1) 2 = .ok (word [hi, lo]) ∧ data.drop (offset + 3) = body ∧ offset + 3 ≤ data.length := by
  have length := congrArg List.length suffix
  rw [List.length_drop, List.length_cons, List.length_cons, List.length_cons] at length
  have behind : data.drop (offset + 1) = hi :: lo :: body := by
    rw [← List.drop_drop, suffix]
    rfl
  obtain ⟨count, -, units, place⟩ := load_unit behind (by omega) (Nat.zero_le _)
  exact ⟨count, units, place⟩

theorem hvccArrays_eq (suffix : data.drop offset = rest) (inside : offset ≤ data.length)
    (small : data.length < 2 ^ 32) (within : out.length ≤ plane) :
    hvccArrays data plane numArray offset out = arraysOutcome data.length plane numArray rest out := by
  induction numArray generalizing offset rest out with
  | zero => rfl
  | succ numArray ih =>
    have length := congrArg List.length suffix
    rw [List.length_drop] at length
    have place : offset = data.length - rest.length := by omega
    rw [hvccArrays, arraysOutcome.eq_def]
    dsimp only
    rw [← place]
    by_cases range : u32 (offset + 5) > data.length
    · rw [if_pos range, if_pos range]
      rfl
    rw [if_neg range, if_neg range]
    have missing (few : rest.length < 3) : number data (offset + 1) 2 = .error .outside :=
      number_short (by decide) (by omega)
    rcases rest with _ | ⟨kind, _ | ⟨hi, _ | ⟨lo, body⟩⟩⟩
    · rw [missing (Nat.le_add_left _ _)]
      rfl
    · rw [missing (Nat.le_add_left _ _)]
      rfl
    · rw [missing (Nat.le_add_left _ _)]
      rfl
    · obtain ⟨count, units, first⟩ := array_head suffix inside
      rw [count]
      dsimp only [bind, Except.bind]
      rw [u32_small (by omega), hvccNals_eq units first small within]
      cases split : splitNals (word [hi, lo]) body with
      | short nals => rfl
      | cut nals size tail =>
        dsimp only
        by_cases noted : out.length + (startCoded 4 nals).length ≤ plane ∧ data.length - tail.length + size < 2 ^ 32
        · rw [if_pos noted, if_pos noted]
          rfl
        · rw [if_neg noted, if_neg noted]
      | whole nals tail =>
        dsimp only
        by_cases room : out.length + (startCoded 4 nals).length ≤ plane
        · have behind : tail <:+ data := by
            rw [← units] at split
            exact (splitNals_suffix split).trans (List.drop_suffix _ _)
          rw [if_pos room, if_pos room]
          exact ih (drop_suffix behind) (Nat.sub_le _ _) (by rw [List.length_append]; exact room)
        · rw [if_neg room, if_neg room]

theorem hvcc_eq (small : data.length < 2 ^ 32) :
    mmeHvcc2annexbCodecdata data plane = hvccOutcome data plane := by
  unfold mmeHvcc2annexbCodecdata hvccOutcome
  by_cases header : data.length < 22
  · rw [if_pos header, number_short (by decide) (by omega)]
    rfl
  rw [if_neg header, number_field (by omega)]
  dsimp only [bind, Except.bind]
  by_cases supported : Supported (lengthSizeOf (field data 21))
  · rw [if_neg (mt unsupported_iff.mp (not_not.mpr supported)), if_neg (not_not.mpr supported)]
    by_cases number_ : data.length < 23
    · rw [if_pos number_, number_short (by decide) (by omega)]
    · rw [if_neg number_, number_field (by omega)]
      exact hvccArrays_eq rfl (Nat.le_of_not_lt number_) small (Nat.zero_le _)
  · rw [if_pos (unsupported_iff.mpr supported), if_pos supported]
    rfl

end Arrays

end ImxTest.Extractor
