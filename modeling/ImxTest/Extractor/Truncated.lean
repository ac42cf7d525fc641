import ImxTest.Extractor.Avcc
import ImxTest.Extractor.Hvcc

/-! Codec data of any bytes, cut off anywhere: when the conversions stay in the record and
in the plane, and notice what is missing. -/
namespace ImxTest.Extractor
open Lib.BitString
open Pitcher (Ret)

/-- An end inside the record and the plane, with an error where something is missing. -/
def Answers (whole : Prop) (outcome : Except Fault (Ret × List UInt8)) : Prop :=
  ∃ ret out, outcome = .ok (ret, out) ∧ (¬ whole → ret ≠ .OK)

section Answers
variable {whole : Prop} {out : List UInt8} {outcome : Except Fault (Ret × List UInt8)}

theorem answers_fault {fault : Fault} : ¬ Answers whole (.error fault) := by
  rintro ⟨ret, out, same, -⟩
  cases same

theorem answers_ok : Answers whole (.ok (.OK, out)) ↔ whole := by
  constructor
  · rintro ⟨ret, out, same, noticed⟩
    cases same
    by_contra missing
    exact noticed missing rfl
  · intro there
    exact ⟨.OK, out, rfl, absurd there⟩

theorem answers_inval : Answers whole (.ok (.E_INVAL, out)) := ⟨.E_INVAL, out, rfl, fun _ => nofun⟩

/-- Where success means that nothing is missing, it is enough to come to an end. -/
theorem answers_iff (sound : ∀ out, outcome = .ok (.OK, out) → whole) :
    Answers whole outcome ↔ ∃ result, outcome = .ok result := by
  constructor
  · rintro ⟨ret, out, same, -⟩
    exact ⟨(ret, out), same⟩
  · rintro ⟨⟨ret, out⟩, rfl⟩
    refine ⟨ret, out, rfl, ?_⟩
    rintro missing rfl
    exact missing (sound out rfl)

end Answers

/-! ## `avcC` -/

/-- Each unit that the record announces is there. -/
def AvccWhole (data : List UInt8) : Prop :=
  6 ≤ data.length ∧
    match splitNals (numSps data) (data.drop 6) with
    | .whole _ (numPps :: tail) =>
      match splitNals numPps.toNat tail with
      | .whole .. => True
      | _ => False
    | _ => False

def AvccSafe (data : List UInt8) (plane : Nat) : Prop :=
  ∃ outcome, MmeAvcc2annexbCodecdata data plane outcome ∧ Answers (AvccWhole data) outcome

/-- The record does not end before the number or the size of units that is read next; it may
end within a unit. Without SPS the PPS are not looked at, and have to be there. -/
def AvccReadable (data : List UInt8) : Prop :=
  6 ≤ data.length ∧ (Supported (lengthSizeOf (field data 4)) →
    match splitNals (numSps data) (data.drop 6) with
    | .short _ | .whole _ [] => False
    | .cut .. => True
    | .whole _ (numPps :: tail) =>
      match splitNals numPps.toNat tail with
      | .short _ => False
      | .cut .. => numSps data ≠ 0
      | .whole .. => True)

section Avcc
variable {data : List UInt8} {plane : Nat}

theorem avccSafe_iff (accepted : data.length ≤ plane) (small : data.length < 2 ^ 32) :
    AvccSafe data plane ↔ AvccReadable data := by
  unfold AvccSafe AvccReadable AvccWhole
  simp only [avcc_iff accepted small, exists_eq_left]
  rw [avccOutcome]
  by_cases header : data.length < 6
  · rw [if_pos header]
    exact iff_of_false answers_fault fun both => absurd header (Nat.not_lt.mpr both.1)
  rw [if_neg header, and_iff_right (Nat.le_of_not_lt header), and_iff_right (Nat.le_of_not_lt header)]
  by_cases supported : Supported (lengthSizeOf (field data 4))
  · rw [if_neg (not_not.mpr supported), imp_iff_right supported]
    by_cases none_ : numSps data = 0
    · rw [if_pos none_, none_, splitNals, answers_ok]
      cases data.drop 6 with
      | nil => rfl
      | cons numPps tail =>
        dsimp only
        cases splitNals numPps.toNat tail with
        | short pps => rfl
        | cut pps size rest => exact iff_of_false id fun some_ => some_ rfl
        | whole pps rest => rfl
    · rw [if_neg none_]
      cases splitNals (numSps data) (data.drop 6) with
      | short sps => exact iff_of_false answers_fault id
      | cut sps size tail => exact iff_of_true answers_inval trivial
      | whole sps tail =>
        cases tail with
        | nil => exact iff_of_false answers_fault id
        | cons numPps tail =>
          dsimp only
          cases splitNals numPps.toNat tail with
          | short pps => exact iff_of_false answers_fault id
          | cut pps size rest => exact iff_of_true answers_inval none_
          | whole pps rest => exact iff_of_true (answers_ok.mpr trivial) trivial
  · rw [if_pos supported]
    exact iff_of_true answers_inval fun supports => absurd supports supported

end Avcc

/-! ## `hvcC` -/

def ArraysWhole : (numArray : Nat) → List UInt8 → Prop
  | 0, _ => True
  | numArray + 1, _ :: hi :: lo :: body =>
    match splitNals (word [hi, lo]) body with
    | .whole _ tail => ArraysWhole numArray tail
    | _ => False
  | _ + 1, _ => False

def HvccWhole (data : List UInt8) : Prop := 23 ≤ data.length ∧ ArraysWhole (field data 22) (data.drop 23)

def HvccSafe (data : List UInt8) (plane : Nat) : Prop :=
  Answers (HvccWhole data) (mmeHvcc2annexbCodecdata data plane)

/-- The arrays in the last bytes of a record of `size` bytes end where fewer than five bytes
are left for the next one, or within a unit; neither sum wraps around. What is in front of
that, behind start codes, has room in the plane. -/
def ArraysReadable (size : Nat) : (numArray room : Nat) → List UInt8 → Prop
  | 0, _, _ => True
  | numArray + 1, room, rest =>
    (rest.length < 5 ∧ size - rest.length + 5 < 2 ^ 32) ∨
      match rest with
      | _ :: hi :: lo :: body =>
        match splitNals (word [hi, lo]) body with
        | .short _ => False
        | .cut nals nalSize tail => (startCoded 4 nals).length ≤ room ∧ size - tail.length + nalSize < 2 ^ 32
        | .whole nals tail =>
          (startCoded 4 nals).length ≤ room ∧ ArraysReadable size numArray (room - (startCoded 4 nals).length) tail
      | _ => False

def HvccReadable (data : List UInt8) (plane : Nat) : Prop :=
  22 ≤ data.length ∧ (Supported (lengthSizeOf (field data 21)) →
    23 ≤ data.length ∧ ArraysReadable data.length (field data 22) plane (data.drop 23))

section Hvcc
variable {data rest out last : List UInt8} {size plane numArray : Nat} {ret : Ret}

/-- Nothing is missing where no error is returned. -/
theorem arrays_ok_whole (done : arraysOutcome size plane numArray rest out = .ok (.OK, last)) :
    ArraysWhole numArray rest := by
  induction numArray generalizing rest out with
  | zero => trivial
  | succ numArray ih =>
    rw [arraysOutcome.eq_def] at done
    dsimp only at done
    by_cases range : u32 (size - rest.length + 5) > size
    · rw [if_pos range] at done
      cases done
    rw [if_neg range] at done
    rcases rest with _ | ⟨kind, _ | ⟨hi, _ | ⟨lo, body⟩⟩⟩
    · cases done
    · cases done
    · cases done
    dsimp only at done
    rw [ArraysWhole]
    cases split : splitNals (word [hi, lo]) body with
    | short nals =>
      rw [split] at done
      cases done
    | cut nals nalSize tail =>
      rw [split] at done
      dsimp only at done
      split at done
      · cases done
      · cases done
    | whole nals tail =>
      rw [split] at done
      dsimp only at done
      split at done
      · exact ih done
      · cases done

theorem arrays_ok_iff (inside : rest.length ≤ size) (small : size < 2 ^ 32) (within : out.length ≤ plane) :
    (∃ result, arraysOutcome size plane numArray rest out = .ok result) ↔
      ArraysReadable size numArray (plane - out.length) rest := by
  have fault : ¬ ∃ result, (.error .outside : Except Fault (Ret × List UInt8)) = .ok result := nofun
  induction numArray generalizing rest out with
  | zero => exact ⟨fun _ => trivial, fun _ => ⟨_, rfl⟩⟩
  | succ numArray ih =>
    have check := range_iff inside small
    rw [arraysOutcome.eq_def, ArraysReadable.eq_def]
    dsimp only
    by_cases range : u32 (size - rest.length + 5) > size
    · rw [if_pos range]
      exact iff_of_true ⟨_, rfl⟩ (.inl (check.mp range))
    rw [if_neg range, or_iff_right (mt check.mpr range)]
    rcases rest with _ | ⟨kind, _ | ⟨hi, _ | ⟨lo, body⟩⟩⟩
    · exact iff_of_false fault id
    · exact iff_of_false fault id
    · exact iff_of_false fault id
    dsimp only
    cases split : splitNals (word [hi, lo]) body with
    | short nals => exact iff_of_false fault id
    | cut nals nalSize tail =>
      dsimp only
      by_cases noted : out.length + (startCoded 4 nals).length ≤ plane ∧ size - tail.length + nalSize < 2 ^ 32
      · rw [if_pos noted]
        exact iff_of_true ⟨_, rfl⟩ ⟨by omega, noted.2⟩
      · rw [if_neg noted]
        exact iff_of_false fault fun both => noted ⟨by omega, both.2⟩
    | whole nals tail =>
      have less := (splitNals_suffix split).length_le
      rw [List.length_cons, List.length_cons, List.length_cons] at inside
      dsimp only
      by_cases room : out.length + (startCoded 4 nals).length ≤ plane
      · rw [if_pos room, and_iff_right (by omega), Nat.sub_sub, ← List.length_append]
        exact ih (by omega) (by rw [List.length_append]; exact room)
      · rw [if_neg room]
        exact iff_of_false fault fun both => room (by omega)

theorem hvccSafe_iff (small : data.length < 2 ^ 32) : HvccSafe data plane ↔ HvccReadable data plane := by
  unfold HvccSafe HvccReadable
  rw [hvcc_eq small, hvccOutcome]
  by_cases header : data.length < 22
  · rw [if_pos header]
    exact iff_of_false answers_fault fun both => absurd header (Nat.not_lt.mpr both.1)
  rw [if_neg header, and_iff_right (Nat.le_of_not_lt header)]
  by_cases supported : Supported (lengthSizeOf (field data 21))
  · rw [if_neg (not_not.mpr supported), imp_iff_right supported]
    by_cases short : data.length < 23
    · rw [if_pos short]
      exact iff_of_false answers_fault fun both => absurd short (Nat.not_lt.mpr both.1)
    · have inside : (data.drop 23).length ≤ data.length := (List.drop_suffix 23 data).length_le
      rw [if_neg short, and_iff_right (Nat.le_of_not_lt short),
        answers_iff fun out done => ⟨Nat.le_of_not_lt short, arrays_ok_whole done⟩]
      exact arrays_ok_iff inside small (Nat.zero_le _)
  · rw [if_pos supported]
    exact iff_of_true answers_inval fun supports => absurd supports supported

end Hvcc

/-- The conversions stay inside and notice what is missing exactly when the record is
readable. -/
theorem codecdata_safe_iff {data : List UInt8} {plane : Nat} (accepted : data.length ≤ plane)
    (small : data.length < 2 ^ 32) :
    (AvccSafe data plane ↔ AvccReadable data) ∧ (HvccSafe data plane ↔ HvccReadable data plane) :=
  ⟨avccSafe_iff accepted small, hvccSafe_iff small⟩

/-- A record of one SPS that ends within it. -/
theorem codecdata_safe_cut : AvccSafe [0x01, 0x42, 0x00, 0x1e, 0xff, 0xe1, 0x00, 0x04, 0x67] 64 :=
  (codecdata_safe_iff (by decide) (by decide)).1.mpr ⟨by decide, fun _ => trivial⟩

/-- The `avcC` record ends within the size of its SPS, which is read to its end. The `hvcC`
record has fourteen units of no bytes: 54 bytes, for which 56 are written. -/
theorem codecdata_safe_short :
    ¬ ((∀ (data : List UInt8) (plane : Nat), data.length ≤ plane → data.length < 2 ^ 32 → AvccSafe data plane) ∨
      ∀ (data : List UInt8) (plane : Nat), data.length ≤ plane → data.length < 2 ^ 32 → HvccSafe data plane) := by
  rintro (always | always)
  · obtain ⟨-, readable⟩ := (avccSafe_iff (by decide) (by decide)).mp
      (always [0x01, 0x42, 0x00, 0x1e, 0xff, 0xe1, 0x00] 64 (by decide) (by decide))
    exact readable (.inr rfl)
  · have safe := always (List.replicate 21 0 ++ [0x03, 0x01, 0x20, 0x00, 0x0e] ++ List.replicate 28 0) 54
      (by decide) (by decide)
    have overrun : mmeHvcc2annexbCodecdata
        (List.replicate 21 0 ++ [0x03, 0x01, 0x20, 0x00, 0x0e] ++ List.replicate 28 0) 54 = .error .outside := by decide +kernel
    unfold HvccSafe at safe
    rw [overrun] at safe
    exact answers_fault safe

end ImxTest.Extractor
