import ImxTest.Asrc.Wav
import Mathlib.Data.Set.Finite.List
import Mathlib.Data.Finite.Prod

/-! When the WAV parser ends, stays in its array and divides by no zero. -/
namespace ImxTest.Asrc

open Lib While BitString

/-! ## Searches -/

section Search
variable {file tag : List UInt8} {c : Cursor}

theorem bytesAt_length (file : List UInt8) (pos n : Nat) :
    (bytesAt file pos n).length = min n (file.length - pos) := by
  rw [bytesAt, List.length_take, List.length_drop]

theorem fread_length (file : List UInt8) (pos : Nat) (old : List UInt8) :
    (fread file pos old).1.length = old.length := by
  have read := bytesAt_length file pos old.length
  simp only [fread, List.length_append, List.length_drop]
  omega

def Cursor.Valid (c : Cursor) : Prop := c.chunkId.length = 4 ∧ c.chunkSize.length = 4

/-- What a turn can do: the chunk is there, the file has ended, or it goes on behind a full
read of the next tag. -/
theorem searchTurn_cases (file tag : List UInt8) (c : Cursor) :
    searchTurn file tag c = .ok (.leave (some c)) ∨ searchTurn file tag c = .ok (.leave none) ∨
    ∃ pos, pos + 4 ≤ (fread file pos c.chunkId).2 ∧ searchTurn file tag c =
      .ok (.again ⟨(fread file pos c.chunkId).2, (fread file pos c.chunkId).1,
        (fread file c.pos c.chunkSize).1⟩) := by
  by_cases here : c.chunkId = tag
  · exact .inl (if_pos here)
  · right
    let pos := fseek (fread file c.pos c.chunkSize).2 (signed (fread file c.pos c.chunkSize).1)
    have turn : searchTurn file tag c = if (fread file pos c.chunkId).2 < pos + 4 then .ok (.leave none)
        else .ok (.again ⟨(fread file pos c.chunkId).2, (fread file pos c.chunkId).1,
          (fread file c.pos c.chunkSize).1⟩) := if_neg here
    by_cases ended : (fread file pos c.chunkId).2 < pos + 4
    · exact .inl (turn.trans (if_pos ended))
    · exact .inr ⟨pos, Nat.not_lt.mp ended, turn.trans (if_neg ended)⟩

theorem searchTurn_again {c' : Cursor} (valid : c.Valid) (turn : searchTurn file tag c = .ok (.again c')) :
    c'.Valid ∧ c'.pos ≤ file.length := by
  rcases searchTurn_cases file tag c with there | ended | ⟨pos, whole, again⟩
  · cases there.symm.trans turn
  · cases ended.symm.trans turn
  · obtain rfl := Turn.again.inj (Except.ok.inj (again.symm.trans turn))
    refine ⟨⟨(fread_length ..).trans valid.1, (fread_length ..).trans valid.2⟩, ?_⟩
    simp only [fread, bytesAt_length, valid.1] at whole ⊢
    omega

theorem search_ok {outcome : Except Fault (Option Cursor)} (ended : Ends (searchTurn file tag) c outcome) :
    ∃ r, outcome = .ok r := by
  cases outcome with
  | ok r => exact ⟨r, rfl⟩
  | error e =>
    obtain ⟨fuel, ended⟩ := ended
    induction fuel generalizing c with
    | zero => cases ended
    | succ fuel ih =>
      rcases searchTurn_cases file tag c with turn | turn | ⟨pos, -, turn⟩
      · simp [run, turn] at ended
      · simp [run, turn] at ended
      · rw [run, turn] at ended
        exact ih ended

theorem finite_cursors (bound : Nat) : {c : Cursor | c.Valid ∧ c.pos ≤ bound}.Finite := by
  have : Finite UInt8 := Finite.of_injective UInt8.toFin fun _ _ => UInt8.toFin_inj.mp
  have words : {word : List UInt8 | word.length = 4}.Finite := List.finite_length_eq _ 4
  refine (((Set.finite_le_nat bound).prod (words.prod words)).image
    fun x => (⟨x.1, x.2.1, x.2.2⟩ : Cursor)).subset ?_
  rintro ⟨pos, chunkId, chunkSize⟩ ⟨⟨id_length, size_length⟩, inside⟩
  exact ⟨(pos, chunkId, chunkSize), ⟨inside, id_length, size_length⟩, rfl⟩

theorem search_ends_or_circles (valid : c.Valid) :
    (∃ r, Ends (searchTurn file tag) c (.ok r)) ∨ Circles (searchTurn file tag) c := by
  have finite := finite_cursors (max c.pos file.length)
  refine (ends_or_circles finite ?_ ⟨valid, le_max_left _ _⟩).imp_left ?_
  · rintro s t ⟨valid, -⟩ turn
    obtain ⟨valid', inside⟩ := searchTurn_again valid turn
    exact ⟨valid', inside.trans (le_max_right _ _)⟩
  · rintro ⟨outcome, ended⟩
    obtain ⟨r, rfl⟩ := search_ok ended
    exact ⟨r, ended⟩

/-- The search ends with the chunk at this cursor. -/
def Finds (file tag : List UInt8) (c found : Cursor) : Prop := Ends (searchTurn file tag) c (.ok (some found))

end Search

/-! ## Parts of the parser -/

/-- It returns 1 or -1, and behind a 1 the patches stay in the array, whatever they are. -/
def Kept (r : Int × Header × AudioInfo) : Prop :=
  (r.1 = 1 ∨ r.1 = -1) ∧ (r.1 = 1 → ∀ later, ∃ h, patches r.2.1 later = .ok h)

def Good (x : Nat → ExceptT Fault Option (Int × Header × AudioInfo)) : Prop := ∃ r, Settles x (.ok r) ∧ Kept r

section Parts
variable {file tag : List UInt8} {c : Cursor}
  {x : Option Cursor → Nat → ExceptT Fault Option (Int × Header × AudioInfo)}

theorem good_missing (h : Header) (info : AudioInfo) : Good fun _ => pure (-1, h, info) :=
  ⟨(-1, h, info), ⟨0, rfl⟩, .inr rfl, fun one => absurd (show (-1 : Int) = 1 from one) (by decide)⟩

/-- A search and what follows it. -/
theorem good_search (valid : c.Valid) (steady : ∀ r, Steady (x r)) (missing : Good (x none)) :
    Good (fun fuel => loop (searchTurn file tag) fuel c >>= fun r => x r fuel) ↔
      ¬ Circles (searchTurn file tag) c ∧ ∀ found, Finds file tag c found → Good (x (some found)) := by
  constructor
  · rintro ⟨v, settles, kept⟩
    obtain ⟨r, ended, settles⟩ | ⟨e, -, error⟩ := (settles_loop steady).mp settles
    · refine ⟨fun circles => circles.never _ ended, fun found finds => ?_⟩
      obtain rfl := Except.ok.inj (ended.unique finds)
      exact ⟨v, settles, kept⟩
    · cases error
  · rintro ⟨no_circle, good⟩
    obtain ⟨r, ended⟩ := (search_ends_or_circles valid).resolve_right no_circle
    have good_rest : Good (x r) := by
      cases r with
      | none => exact missing
      | some found => exact good found ended
    obtain ⟨v, settles, kept⟩ := good_rest
    exact ⟨v, (settles_loop steady).mpr (.inl ⟨r, ended, settles⟩), kept⟩

variable {α : Type} {e : Except Fault α} {y : α → Nat → ExceptT Fault Option (Int × Header × AudioInfo)}

theorem steady_lift (steady : ∀ a, Steady (y a)) :
    Steady fun fuel => ExceptT.mk (some e) >>= fun a => y a fuel := by
  cases e with
  | ok a => exact steady a
  | error error => exact steady_const (ExceptT.mk (some (.error error)))

theorem good_lift : Good (fun fuel => ExceptT.mk (some e) >>= fun a => y a fuel) ↔
    ∃ a, e = .ok a ∧ Good (y a) := by
  cases e with
  | ok a =>
    refine ⟨fun good => ⟨a, rfl, good⟩, ?_⟩
    rintro ⟨a', same, good⟩
    obtain rfl := Except.ok.inj same
    exact good
  | error error =>
    constructor
    · rintro ⟨v, ⟨fuel, failed⟩, -⟩
      cases failed
    · rintro ⟨a, same, -⟩
      cases same

end Parts

/-! ## The array -/

section Array
variable {bytes data : List UInt8} {start pos n : Nat}

theorem overlay_getElem? (fits : start + data.length ≤ bytes.length) (i : Nat) :
    (overlay bytes start data)[i]? =
      if i < start then bytes[i]? else if i < start + data.length then data[i - start]? else bytes[i]? := by
  have front : (bytes.take start).length = start := List.length_take_of_le (by omega)
  unfold overlay
  split_ifs with before inside
  · rw [List.append_assoc, List.getElem?_append_left (by omega), List.getElem?_take_of_lt before]
  · rw [List.append_assoc, List.getElem?_append_right (by omega), front,
      List.getElem?_append_left (by omega)]
  · rw [List.getElem?_append_right (by rw [List.length_append]; omega), List.length_append, front,
      List.getElem?_drop, Nat.add_sub_of_le (by omega)]

theorem bytesAt_getElem? (bytes : List UInt8) (pos n i : Nat) :
    (bytesAt bytes pos n)[i]? = if i < n then bytes[pos + i]? else none := by
  rw [bytesAt, List.getElem?_take, List.getElem?_drop]

/-- Bytes beside those that are overlaid. -/
theorem bytesAt_apart (fits : start + data.length ≤ bytes.length)
    (apart : start + data.length ≤ pos ∨ pos + n ≤ start) :
    bytesAt (overlay bytes start data) pos n = bytesAt bytes pos n := by
  apply List.ext_getElem?
  intro i
  rw [bytesAt_getElem?, bytesAt_getElem?]
  by_cases inside : i < n
  · rw [if_pos inside, if_pos inside, overlay_getElem? fits]
    split_ifs
    · rfl
    · omega
    · rfl
  · rw [if_neg inside, if_neg inside]

theorem littleEndian_length (n : Nat) (v : Int) : (littleEndian n v).length = n := by
  rw [littleEndian, List.length_reverse, bytesOf_length]

end Array

section Put
variable {h h' : Header} {start : Int} {data : List UInt8}

theorem put_fits (h : Header) (data : List UInt8) (fits : Header.Fits start data.length) :
    ∃ h', h.put start data = .ok h' ∧ h'.bytes = overlay h.bytes start.toNat data :=
  ⟨_, dif_pos fits, rfl⟩

theorem put_ok (ok : h.put start data = .ok h') :
    Header.Fits start data.length ∧ h'.bytes = overlay h.bytes start.toNat data := by
  unfold Header.put at ok
  split_ifs at ok with fits
  cases ok
  exact ⟨fits, rfl⟩

/-- The size field of the header stays. -/
theorem put_size (ok : h.put start data = .ok h') (apart : start + data.length ≤ 16 ∨ 20 ≤ start) :
    intAt h'.bytes 16 = intAt h.bytes 16 := by
  obtain ⟨⟨positive, inside⟩, rfl_bytes⟩ := put_ok ok
  rw [intAt, intAt, rfl_bytes, bytesAt_apart (by rw [h.length_eq]; omega) (by omega)]

end Put

/-- The size field after the length of the data has been patched. -/
def patchedSize (bytes : List UInt8) (length : Int) : Int :=
  intAt (overlay bytes (24 + intAt bytes 16).toNat (littleEndian 4 length)) 16

theorem put_outside (h : Header) {start : Int} (data : List UInt8) (outside : ¬ Header.Fits start data.length) :
    h.put start data = .error .outside := dif_neg outside

/-- A patch at a fixed place beside the size field. -/
theorem put_fixed (h : Header) (start n : Nat) (v : Int) (fits : start + n ≤ WAVE_HEAD_SIZE)
    (apart : start + n ≤ 16 ∨ 20 ≤ start) :
    ∃ h', h.put start (littleEndian n v) = .ok h' ∧ intAt h'.bytes 16 = intAt h.bytes 16 := by
  have length := littleEndian_length n v
  have inside : Header.Fits start (littleEndian n v).length := ⟨by omega, by omega⟩
  obtain ⟨h', ok, -⟩ := put_fits h _ inside
  exact ⟨h', ok, put_size ok (by omega)⟩

theorem headerUpdate_iff (h : Header) (later : AudioInfo) : (∃ h', headerUpdate h later = .ok h') ↔
    Header.Fits (24 + intAt h.bytes 16) 4 := by
  have length := littleEndian_length 4 later.outputUsed
  by_cases fits : Header.Fits (24 + intAt h.bytes 16) 4
  · obtain ⟨h₁, first, -⟩ := put_fits h (littleEndian 4 later.outputUsed) (by rwa [length])
    obtain ⟨h₂, second, -⟩ := put_fixed h₁ 4 4 (later.outputUsed + 20 + intAt h.bytes 16) (by decide) (by decide)
    refine ⟨fun _ => fits, fun _ => ⟨h₂, ?_⟩⟩
    simp only [headerUpdate, first, bind, Except.bind]
    exact second
  · have outside := put_outside h (littleEndian 4 later.outputUsed) (by rwa [length])
    refine ⟨?_, fun fits' => absurd fits' fits⟩
    rintro ⟨h', ok⟩
    simp only [headerUpdate, outside, bind, Except.bind] at ok
    cases ok

theorem patches_iff (h : Header) (later : AudioInfo) : (∃ h', patches h later = .ok h') ↔
    Header.Fits (24 + intAt h.bytes 16) 4 ∧ Header.Fits (24 + patchedSize h.bytes later.outputDataLen) 4 := by
  have length := littleEndian_length 4 later.outputDataLen
  by_cases fits : Header.Fits (24 + intAt h.bytes 16) 4
  · obtain ⟨h₁, first, size₁⟩ := put_fits h (littleEndian 4 later.outputDataLen) (by rwa [length])
    obtain ⟨h₂, second, size₂⟩ := put_fixed h₁ 4 4
      (later.outputDataLen + 20 + intAt h.bytes 16) (by decide) (by decide)
    obtain ⟨h₃, third, size₃⟩ := put_fixed h₂ 32 2 later.outBlockalign (by decide) (by decide)
    obtain ⟨h₄, fourth, size₄⟩ := put_fixed h₃ 20 2 later.outAudioformat (by decide) (by decide)
    obtain ⟨h₅, fifth, size₅⟩ := put_fixed h₄ 34 2 later.outFrameBits (by decide) (by decide)
    obtain ⟨h₆, sixth, size₆⟩ := put_fixed h₅ 28 4
      (later.outputSampleRate * (later.outFrameBits / 8 : Nat) * later.channel) (by decide) (by decide)
    have last : patches h later = headerUpdate h₆ later := by
      have chunk : updateDatachunkLength h later (intAt h.bytes 16) = .ok h₂ := by
        simp only [updateDatachunkLength, first, bind, Except.bind]
        exact second
      have align : updateBlockalign h₂ later = .ok h₄ := by
        have third : h₂.put 32 (littleEndian 2 later.outBlockalign) = .ok h₃ := third
        simp only [updateBlockalign, third, bind, Except.bind]
        exact fourth
      have depth : updateSampleBitdepth h₄ later = .ok h₆ := by
        have fifth : h₄.put 34 (littleEndian 2 later.outFrameBits) = .ok h₅ := fifth
        simp only [updateSampleBitdepth, fifth, bind, Except.bind]
        exact sixth
      simp only [patches, chunk, align, depth, bind, Except.bind]
    have size : intAt h₆.bytes 16 = patchedSize h.bytes later.outputDataLen := by
      rw [size₆, size₅, size₄, size₃, size₂, size₁]
      rfl
    rw [last, headerUpdate_iff, size]
    exact ⟨fun fits' => ⟨fits, fits'⟩, And.right⟩
  · have outside := put_outside h (littleEndian 4 later.outputDataLen) (by rwa [length])
    refine ⟨?_, fun both => absurd both.1 fits⟩
    rintro ⟨h', ok⟩
    simp only [patches, updateDatachunkLength, outside, bind, Except.bind] at ok
    cases ok

/-- Sizes behind which the patches stay in the array, and the first of them does not
change the size field. -/
def Patchable (formatSize : Int) : Prop := -24 ≤ formatSize ∧ formatSize ≤ 46 ∧ ¬ (-12 < formatSize ∧ formatSize < -4)

theorem signed_four (a b c d : UInt8) : signed [a, b, c, d] =
    Int.bmod (a.toNat + 2 ^ 8 * b.toNat + 2 ^ 16 * c.toNat + 2 ^ 24 * d.toNat) (2 ^ 32) := by
  simp only [signed, word, List.reverse_cons, List.reverse_nil, List.nil_append, List.cons_append,
    List.foldl_cons, List.foldl_nil, List.length_cons, List.length_nil]
  push_cast
  congr 1
  omega

/-- The four bytes of the size field, some of them overlaid. -/
theorem bytesAt_overlaid {bytes data : List UInt8} {start : Nat} (fits : start + data.length ≤ bytes.length)
    (i : Nat) (inside : i < 4) : (bytesAt (overlay bytes start data) 16 4)[i]? =
      if 16 + i < start then (bytesAt bytes 16 4)[i]?
      else if 16 + i < start + data.length then data[16 + i - start]?
      else (bytesAt bytes 16 4)[i]? := by
  rw [bytesAt_getElem?, bytesAt_getElem?, if_pos inside, if_pos inside, overlay_getElem? fits]

theorem four_at (bytes : List UInt8) (long : 20 ≤ bytes.length) : ∃ a b c d, bytesAt bytes 16 4 = [a, b, c, d] := by
  have length : (bytesAt bytes 16 4).length = 4 := by
    rw [bytesAt_length]
    omega
  match bytesAt bytes 16 4, length with
  | [a, b, c, d], _ => exact ⟨a, b, c, d, rfl⟩

/-- A patch over a part of the size field leaves a size behind which the next patch is
outside the array. -/
theorem patchedSize_outside {bytes : List UInt8} (length : bytes.length = WAVE_HEAD_SIZE)
    (low : -12 < intAt bytes 16) (high : intAt bytes 16 < -4) :
    patchedSize bytes 100 < -24 ∨ 46 < patchedSize bytes 100 := by
  unfold WAVE_HEAD_SIZE at length
  have patch : littleEndian 4 100 = [100, 0, 0, 0] := by decide
  unfold patchedSize
  rw [patch]
  generalize formatSize_eq : intAt bytes 16 = formatSize at low high ⊢
  have fits : (24 + formatSize).toNat + [(100 : UInt8), 0, 0, 0].length ≤ bytes.length := by
    rw [length, List.length_cons, List.length_cons, List.length_cons, List.length_singleton]
    omega
  obtain ⟨a, b, c, d, old⟩ := four_at bytes (by omega)
  obtain ⟨x, y, z, w, new⟩ := four_at (overlay bytes (24 + formatSize).toNat [100, 0, 0, 0])
    (by rw [overlay_length fits]; omega)
  have at_ := bytesAt_overlaid fits
  rw [old, new] at at_
  have at0 := at_ 0 (by decide)
  have at1 := at_ 1 (by decide)
  have at2 := at_ 2 (by decide)
  have at3 := at_ 3 (by decide)
  rw [intAt, old, signed_four] at formatSize_eq
  rw [intAt, new, signed_four]
  have a_lt := a.toNat_lt
  have b_lt := b.toNat_lt
  have c_lt := c.toNat_lt
  have d_lt := d.toNat_lt
  rw [Int.bmod_def] at formatSize_eq ⊢
  clear old new at_ fits patch
  have sizes : formatSize = -11 ∨ formatSize = -10 ∨ formatSize = -9 ∨ formatSize = -8 ∨ formatSize = -7 ∨
      formatSize = -6 ∨ formatSize = -5 := by omega
  rcases sizes with rfl | rfl | rfl | rfl | rfl | rfl | rfl
  all_goals
    simp at at0 at1 at2 at3
    subst at0 at1 at2 at3
    simp only [UInt8.toNat_ofNat] at *
    split_ifs at formatSize_eq ⊢ <;> omega

theorem patchable_iff (h : Header) :
    (∀ later, ∃ h', patches h later = .ok h') ↔ Patchable (intAt h.bytes 16) := by
  simp only [patches_iff]
  constructor
  · intro fits
    obtain ⟨low, high⟩ := (fits {}).1
    unfold WAVE_HEAD_SIZE at high
    refine ⟨by omega, by omega, fun overlaps => ?_⟩
    obtain ⟨low', high'⟩ := (fits { outputDataLen := 100 }).2
    unfold WAVE_HEAD_SIZE at high'
    have outside := patchedSize_outside h.length_eq overlaps.1 overlaps.2
    change 0 ≤ 24 + patchedSize h.bytes 100 at low'
    change 24 + patchedSize h.bytes 100 + _ ≤ _ at high'
    omega
  · rintro ⟨low, high, apart⟩ later
    have length := littleEndian_length 4 later.outputDataLen
    have first : Header.Fits (24 + intAt h.bytes 16) 4 := by
      unfold Header.Fits WAVE_HEAD_SIZE
      omega
    have same : patchedSize h.bytes later.outputDataLen = intAt h.bytes 16 := by
      have size := h.length_eq
      unfold WAVE_HEAD_SIZE at size
      exact congrArg signed (bytesAt_apart (by omega) (by omega))
    exact ⟨first, by rwa [same]⟩

/-! ## Files -/

section File
variable (file : List UInt8) (info : AudioInfo)

/-- What the parser has of the format when the header of the data chunk is there. -/
def AudioInfo.withSlot (info : AudioInfo) : AudioInfo := { info with inSlotwidth := info.slotwidth }

/-- The header of the data chunk is inside the array, there are channels, and with a format that
is accepted the size field is one that the patches can use. -/
def SoundData (header : List UInt8) (formatSize : Int) (dataHeader : List UInt8) : Prop :=
  Header.Fits (formatSize + 20) dataHeader.length ∧ (info.readFormat header).channel ≠ 0 ∧
    ((info.readFormat header).withSlot.format?.isSome →
      Patchable (intAt (overlay header (formatSize + 20).toNat dataHeader) 16))

/-- The format chunk, as far as there is a file, is inside the array, and the search for "data"
does not come back. -/
def SoundFmt (header : List UInt8) (formatSize : Int) (format : List UInt8) (c : Cursor) : Prop :=
  12 + format.length ≤ WAVE_HEAD_SIZE ∧ ¬ Circles (searchTurn file data) c ∧
    ∀ found, Finds file data c found →
      SoundData info (overlay header 12 format) formatSize (readData file info.inputDataLen found).2

def SoundRiff (formatSize riff : List UInt8) (c : Cursor) : Prop :=
  ¬ Circles (searchTurn file fmt) c ∧ ∀ found, Finds file fmt c found →
    SoundFmt file info (overlay Header.empty.bytes 0 riff) (readFmt file formatSize found).1
      (readFmt file formatSize found).2.1 (readFmt file formatSize found).2.2

/-- No search comes back to where it was, and what is found keeps to the array. -/
def Sound (l : Locals) : Prop :=
  ¬ Circles (searchTurn file RIFF) (startRiff file l) ∧ ∀ found, Finds file RIFF (startRiff file l) found →
    SoundRiff file info l.formatSize (readRiff file found).1 (readRiff file found).2

/-- The parser ends, without an index outside the array and without a division by zero, and so
do the patches behind it. -/
def Safe (l : Locals) : Prop := Good (headerParser file l info)

variable {file info}

theorem steady_parseData (formatSize : Int) (h : Header) (c : Cursor) :
    Steady fun fuel => parseData file formatSize h info c fuel := by
  refine steady_loop fun r => ?_
  cases r with
  | none => exact steady_const (pure (-1, h, info))
  | some c => exact steady_const (ExceptT.mk (some (finish file formatSize h info c)))

theorem steady_parseFmt (formatSize : List UInt8) (h : Header) (c : Cursor) :
    Steady fun fuel => parseFmt file formatSize h info c fuel := by
  refine steady_loop fun r => ?_
  cases r with
  | none => exact steady_const (pure (-1, h, info))
  | some c => exact steady_lift fun h => steady_parseData _ h _

variable (file) in
/-- A cursor after a read of the tag. -/
theorem readFmt_valid {c : Cursor} (valid : c.Valid) (formatSize : List UInt8) :
    (readFmt file formatSize c).2.2.Valid := ⟨(fread_length ..).trans valid.1, valid.2⟩

variable (file) in
theorem readRiff_valid {c : Cursor} (valid : c.Valid) : (readRiff file c).2.Valid :=
  ⟨(fread_length ..).trans valid.1, valid.2⟩

variable (file) in
theorem startRiff_valid (l : Locals) : (startRiff file l).Valid :=
  ⟨(fread_length ..).trans l.chunkId_length, l.chunkSize_length⟩

theorem finds_valid {tag : List UInt8} {c found : Cursor} (valid : c.Valid) (finds : Finds file tag c found) :
    found.Valid := by
  obtain ⟨last, still, turn⟩ := finds.invariant Cursor.Valid
    (fun s t valid turn => (searchTurn_again valid turn).1) valid
  rcases searchTurn_cases file tag last with there | ended | ⟨pos, -, again⟩
  · obtain rfl := Option.some.inj (Turn.leave.inj (Except.ok.inj (there.symm.trans turn)))
    exact still
  · cases ended.symm.trans turn
  · cases again.symm.trans turn

theorem good_finish {formatSize : Int} {h : Header} {c : Cursor} :
    Good (fun _ => ExceptT.mk (some (finish file formatSize h info c))) ↔
      ∃ r, finish file formatSize h info c = .ok r ∧ Kept r := by
  constructor
  · rintro ⟨r, ⟨fuel, same⟩, kept⟩
    exact ⟨r, Option.some.inj same, kept⟩
  · rintro ⟨r, same, kept⟩
    exact ⟨r, ⟨0, congrArg some same⟩, kept⟩

theorem finish_iff {formatSize : Int} {h : Header} {c : Cursor} :
    (∃ r, finish file formatSize h info c = .ok r ∧ Kept r) ↔
      Header.Fits (formatSize + 20) (readData file info.inputDataLen c).2.length ∧ info.channel ≠ 0 ∧
        (info.withSlot.format?.isSome →
          Patchable (intAt (overlay h.bytes (formatSize + 20).toNat (readData file info.inputDataLen c).2) 16)) := by
  generalize dataHeader_eq : (readData file info.inputDataLen c).2 = dataHeader
  by_cases fits : Header.Fits (formatSize + 20) dataHeader.length
  · obtain ⟨h₁, first, bytes₁⟩ := put_fits h dataHeader fits
    obtain ⟨h₂, second, size₂⟩ := put_fixed h₁ 24 4 info.outputSampleRate (by decide) (by decide)
    have second : h₁.put 24 (littleEndian 4 info.outputSampleRate) = .ok h₂ := second
    have size : intAt h₂.bytes 16 = intAt (overlay h.bytes (formatSize + 20).toNat dataHeader) 16 := by
      rw [size₂, bytes₁]
    by_cases zero : info.channel = 0
    · have run : finish file formatSize h info c = .error .divisionByZero := by
        unfold finish
        simp only [dataHeader_eq, first, second, bind, Except.bind, if_pos zero]
      rw [run]
      constructor
      · rintro ⟨r, same, -⟩
        cases same
      · exact fun sound => absurd zero sound.2.1
    · cases accepted : info.withSlot.format? with
      | none =>
        have run : finish file formatSize h info c = .ok (-1, h₂, { info with
            inputDataLen := (readData file info.inputDataLen c).1, inSlotwidth := info.slotwidth }) := by
          unfold finish
          simp only [dataHeader_eq, first, second, bind, Except.bind, if_neg zero]
          split
          case h_1 some_ => exact absurd (some_.symm.trans accepted) (Option.some_ne_none _)
          case h_2 => rfl
        rw [run]
        constructor
        · exact fun _ => ⟨fits, zero, fun some_ => absurd some_ (by decide)⟩
        · exact fun _ => ⟨_, rfl, .inr rfl, fun one => absurd (show (-1 : Int) = 1 from one) (by decide)⟩
      | some format =>
        have run : finish file formatSize h info c = .ok (1, h₂, { info with
            inputDataLen := (readData file info.inputDataLen c).1, inSlotwidth := info.slotwidth
            inputFormat := format }) := by
          unfold finish
          simp only [dataHeader_eq, first, second, bind, Except.bind, if_neg zero]
          split
          case h_1 some_ =>
            obtain rfl := Option.some.inj (some_.symm.trans accepted)
            rfl
          case h_2 none_ => exact absurd (none_.symm.trans accepted) (Option.some_ne_none _).symm
        rw [run, ← size, ← patchable_iff]
        constructor
        · rintro ⟨r, same, kept⟩
          obtain rfl := Except.ok.inj same
          exact ⟨fits, zero, fun _ => kept.2 rfl⟩
        · rintro ⟨-, -, patched⟩
          exact ⟨_, rfl, .inl rfl, fun _ => patched rfl⟩
  · have outside := put_outside h dataHeader fits
    constructor
    · rintro ⟨r, same, -⟩
      unfold finish at same
      simp only [dataHeader_eq, outside, bind, Except.bind] at same
      cases same
    · exact fun sound => absurd sound.1 fits

theorem steady_found (missing : ExceptT Fault Option (Int × Header × AudioInfo))
    (found : Cursor → Nat → ExceptT Fault Option (Int × Header × AudioInfo)) (steady : ∀ c, Steady (found c))
    (r : Option Cursor) : Steady fun fuel => match r with
      | none => missing
      | some c => found c fuel := by
  cases r with
  | none => exact steady_const missing
  | some c => exact steady c

theorem good_parseData {h : Header} {formatSize : Int} {c : Cursor} (valid : c.Valid) :
    Good (fun fuel => parseData file formatSize h info c fuel) ↔ ¬ Circles (searchTurn file data) c ∧
      ∀ found, Finds file data c found → ∃ r, finish file formatSize h info found = .ok r ∧ Kept r := by
  have steady := steady_found (pure (-1, h, info))
    (fun c _ => ExceptT.mk (some (finish file formatSize h info c)))
    fun c => steady_const (ExceptT.mk (some (finish file formatSize h info c)))
  refine (good_search valid steady (good_missing h info)).trans ?_
  simp only [good_finish]

variable (file info) in
theorem good_parseFmt (h : Header) (formatSize : List UInt8) {c : Cursor} (valid : c.Valid) :
    Good (fun fuel => parseFmt file formatSize h info c fuel) ↔ ¬ Circles (searchTurn file fmt) c ∧
      ∀ found, Finds file fmt c found → SoundFmt file info h.bytes (readFmt file formatSize found).1
        (readFmt file formatSize found).2.1 (readFmt file formatSize found).2.2 := by
  have steady := steady_found (pure (-1, h, info))
    (fun c fuel => ExceptT.mk (some (h.put 12 (readFmt file formatSize c).2.1)) >>= fun h =>
      parseData file (readFmt file formatSize c).1 h (info.readFormat h.bytes) (readFmt file formatSize c).2.2 fuel)
    fun c => steady_lift fun h => steady_parseData _ h _
  refine (good_search valid steady (good_missing h info)).trans (and_congr_right fun _ => forall₂_congr ?_)
  intro found finds
  refine good_lift.trans ?_
  have valid' := readFmt_valid file (finds_valid valid finds) formatSize
  generalize readFmt file formatSize found = read at valid' ⊢
  obtain ⟨size, format, c'⟩ := read
  have sound (h' : Header) (bytes : h'.bytes = overlay h.bytes 12 format) :
      Good (fun fuel => parseData file size h' (info.readFormat h'.bytes) c' fuel) ↔
        ¬ Circles (searchTurn file data) c' ∧ ∀ found, Finds file data c' found →
          SoundData info (overlay h.bytes 12 format) size (readData file info.inputDataLen found).2 := by
    rw [good_parseData valid', bytes]
    simp only [finish_iff, bytes]
    rfl
  constructor
  · rintro ⟨h', ok, good⟩
    obtain ⟨fits, bytes⟩ := put_ok ok
    exact ⟨by exact_mod_cast fits.2, (sound h' bytes).mp good⟩
  · rintro ⟨fits, good⟩
    have inside : Header.Fits 12 format.length := ⟨by decide, by exact_mod_cast fits⟩
    obtain ⟨h', ok, bytes⟩ := put_fits h format inside
    exact ⟨h', ok, (sound h' bytes).mpr good⟩

variable (file info) in
theorem steady_afterRiff (l : Locals) (r : Option Cursor) : Steady fun fuel : Nat => (match r with
    | none => pure (-1, Header.empty, info)
    | some c =>
      ExceptT.mk (some (Header.empty.put 0 (readRiff file c).1)) >>= fun h =>
        parseFmt file l.formatSize h info (readRiff file c).2 fuel :
    ExceptT Fault Option (Int × Header × AudioInfo)) := by
  exact steady_found _ _ (fun c => steady_lift fun h => steady_parseFmt _ h _) r

theorem safe_iff (file : List UInt8) (info : AudioInfo) (l : Locals) : Safe file info l ↔ Sound file info l := by
  have steady := steady_afterRiff file info l
  have valid := startRiff_valid file l
  refine (good_search valid steady (good_missing .empty info)).trans (and_congr_right fun _ => forall₂_congr ?_)
  intro found finds
  refine good_lift.trans ?_
  have short : (readRiff file found).1.length ≤ 12 := by
    change (bytesAt file _ 12).length ≤ 12
    rw [bytesAt_length]
    exact Nat.min_le_left ..
  have fits : Header.Fits 0 (readRiff file found).1.length := ⟨le_refl _, by unfold WAVE_HEAD_SIZE; omega⟩
  obtain ⟨h, ok, bytes⟩ := put_fits Header.empty (readRiff file found).1 fits
  have valid' := readRiff_valid file (finds_valid valid finds)
  have sound := good_parseFmt file info h l.formatSize valid'
  rw [bytes] at sound
  constructor
  · rintro ⟨h', ok', good⟩
    obtain rfl := Except.ok.inj (ok.symm.trans ok')
    exact sound.mp good
  · exact fun good => ⟨h, ok, sound.mpr good⟩

theorem not_safe_of_fault {l : Locals} (fuel : Nat) {e : Fault}
    (fault : (headerParser file l info fuel).run = some (.error e)) : ¬ Safe file info l := by
  rintro ⟨r, ⟨fuel', ok⟩, -⟩
  have steady : Steady (headerParser file l info) := steady_loop (steady_afterRiff file info l)
  have once := steady fuel fuel' _ fault
  have more := steady fuel' fuel _ ok
  rw [Nat.add_comm] at more
  cases once.symm.trans more

/-- A format chunk of 16 bytes that gives no channels. -/
theorem headerParser_divides : ¬ Safe
    (RIFF ++ littleEndian 4 40 ++ [0x57, 0x41, 0x56, 0x45] ++ fmt ++ littleEndian 4 16 ++ littleEndian 2 1 ++
      littleEndian 2 0 ++ littleEndian 4 44100 ++ littleEndian 4 176400 ++ littleEndian 2 4 ++ littleEndian 2 16 ++
      data ++ littleEndian 4 4 ++ [0, 0, 0, 0]) {}
    ⟨[0, 0, 0, 0], [0, 0, 0, 0], [0, 0, 0, 0], rfl, rfl, rfl⟩ :=
  not_safe_of_fault 1 (e := .divisionByZero) rfl

end File

end ImxTest.Asrc
