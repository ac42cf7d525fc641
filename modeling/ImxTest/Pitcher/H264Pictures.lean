import ImxTest.Pitcher.H264Stream

/-! The access units `h264_parse` finds. A parameter set or SEI ends the range of the
picture in front of it, also between the fields of a pair, before the next slice
tells whether it begins a picture. -/
namespace ImxTest.Pitcher.H264

open Lib.Cut Scan Elementary

/-- A parameter set or SEI stands between the two fields. -/
def Picture.Interrupted (p : Picture) : Prop :=
  ∃ c, p.second = some c ∧ c.front.any (isConfig <| typeOf ·) = true

/-- The range holds all slices of one picture and meets no slice of another. -/
def HoldsPicture (us : List (Placed Tag)) (pictures : Nat) (r : Int × Int) : Prop :=
  ∃ k < pictures, (∀ x ∈ us, x.tag.picture = k → x.tag.slice = true → r.1 ≤ x.start ∧ x.stop ≤ r.2) ∧
    ∀ x ∈ us, x.tag.slice = true → r.1 < x.stop → x.start < r.2 → x.tag.picture = k

/-- So does every range except possibly the last. -/
def Intact (us : List (Placed Tag)) (pictures : Nat) (ranges : List (Int × Int)) : Prop :=
  ∀ r ∈ ranges.dropLast, HoldsPicture us pictures r

/-! ## The frames of a stream -/

theorem types_kind (a : Known) (us : List (CodedUnit Tag)) : types step a us = us.map kind := by
  induction us generalizing a with
  | nil => rfl
  | cons u us ih => rw [types, ih]; rfl

theorem quiet_kind {us : List (CodedUnit Tag)} (unknown : ∀ u ∈ us, kind u = .UNKNOWN) (a : Known) :
    Quiet step a us := by
  induction us generalizing a with
  | nil => trivial
  | cons u us ih => exact ⟨unknown u (by simp), ih (fun v mem => unknown v (List.mem_cons_of_mem u mem)) _⟩

theorem kind_tagged (k : Nat) (e : Element) :
    kind (tagged k e) = if isConfig (typeOf e) then .CONFIG else .UNKNOWN := by
  have apart : ∀ type, isConfig type = true → isSlice type = false := by
    intro type config
    simp only [isConfig, Bool.or_eq_true, beq_iff_eq] at config
    rcases config with (rfl | rfl) | rfl <;> rfl
  unfold kind tagged CodedUnit.of
  cases slice : isSlice (typeOf e)
  · rfl
  · have plain : isConfig (typeOf e) = false := by
      by_contra config
      rw [apart _ (by simpa using config)] at slice
      contradiction
    simp [plain]

theorem tagged_frames (k : Nat) (es : List Element) :
    ((es.map (tagged k)).map kind).count .FRAME = 0 := by
  apply List.count_eq_zero.mpr
  intro mem
  simp only [List.mem_map, exists_exists_and_eq_and, kind_tagged] at mem
  obtain ⟨e, -, eq⟩ := mem
  split at eq <;> contradiction

theorem kind_lead (p : Picture) (k : Nat) : kind (p.parts k).first = .FRAME := by
  unfold Picture.parts Picture.lead kind CodedUnit.of
  cases p.second <;> rfl

theorem parts_frames (p : Picture) (k : Nat) : ((p.parts k).units.map kind).count .FRAME = 1 := by
  have second : ((p.secondUnits k).map kind).count .FRAME = 0 := by
    unfold Picture.secondUnits
    cases p.second with
    | none => rfl
    | some c =>
      have none : kind (.of ⟨k, .secondField⟩ c.first) = .UNKNOWN := rfl
      rw [List.map_append, List.map_cons, List.count_append, List.count_cons, tagged_frames, tagged_frames,
        none]
      rfl
  rw [PictureUnits.units, List.map_append, List.map_cons, List.count_append, List.count_cons, kind_lead]
  simp only [Picture.parts, List.map_append, List.count_append, tagged_frames, second]
  rfl

theorem parts_picture {p : Picture} {k : Nat} {u : CodedUnit Tag} (mem : u ∈ (p.parts k).units) :
    u.tag.picture = k := by
  simp only [PictureUnits.units, Picture.parts, Picture.secondUnits, List.mem_append, List.mem_cons,
    List.mem_map] at mem
  rcases mem with ⟨e, -, rfl⟩ | rfl | ⟨e, -, rfl⟩ | second
  · rfl
  · rfl
  · rfl
  · split at second
    · contradiction
    · simp only [List.mem_append, List.mem_cons, List.mem_map] at second
      rcases second with ⟨e, -, rfl⟩ | rfl | ⟨e, -, rfl⟩ <;> rfl

section Frames
variable {ps : List Picture} {k : Nat} {p : Picture}

theorem numbered (ordered : ∀ p ∈ ps, p.Ordered) :
    Numbered Tag.picture Tag.slice (groups Picture.parts 0 ps) where
  number := by
    intro k g at_ u mem
    obtain ⟨p, -, rfl⟩ := groups_find at_
    exact parts_picture mem
  front := by
    intro g mem u inside
    obtain ⟨k, at_⟩ := List.getElem?_of_mem mem
    obtain ⟨p, found, rfl⟩ := groups_find at_
    obtain ⟨e, here, rfl⟩ := List.mem_map.mp inside
    have plain := (ordered p (List.mem_of_getElem? found)).coded.front e here
    simp [tagged, CodedUnit.of, plain, Tag.slice]

/-- Each picture has one frame, its first slice. -/
theorem leads (at_ : ps[k]? = some p) : Leads step {} (groups Picture.parts 0 ps) k (p.parts k) where
  frame := kind_lead p k
  rank := by
    apply rank_of_single (groups_at at_)
    · rw [types_kind]
      exact tagged_frames k p.coded.front
    · intro j h _ found
      obtain ⟨q, -, rfl⟩ := groups_find found
      rw [types_kind, parts_frames]

theorem stream_frames (ps : List Picture) : (types step {} (units ps)).count .FRAME = ps.length := by
  have length : (groups Picture.parts 0 ps).length = ps.length := by
    have same := fun k => groups_getElem? Picture.parts 0 ps k
    apply Nat.le_antisymm
    · by_contra more
      have := same ps.length
      rw [List.getElem?_eq_none (le_refl _), List.getElem?_eq_getElem (by omega)] at this
      contradiction
    · by_contra more
      have := same (groups Picture.parts 0 ps).length
      rw [List.getElem?_eq_none (le_refl _), List.getElem?_eq_getElem (by omega)] at this
      contradiction
  have frames : (types step {} (flatten ((groups Picture.parts 0 ps).take ps.length))).count .FRAME =
      ps.length := frames_of_single length.ge fun j h _ found => by
      obtain ⟨q, -, rfl⟩ := groups_find found
      rw [types_kind, parts_frames]
  rwa [← length, List.take_length, length] at frames

/-- A picture without a parameter set or SEI between its fields is kept together. -/
theorem compact_of_whole (ordered : p.Ordered) (whole : ¬ p.Interrupted) :
    Compact Tag.slice step {} (groups Picture.parts 0 ps) k (p.parts k) := by
  refine ⟨(p.parts k).rest, [], (List.append_nil _).symm, quiet_kind ?_ _, by simp⟩
  have plain : ∀ es : List Element, (∀ e ∈ es, isConfig (typeOf e) = false) →
      ∀ u ∈ es.map (tagged k), kind u = .UNKNOWN := by
    intro es none u mem
    obtain ⟨e, inside, rfl⟩ := List.mem_map.mp mem
    rw [kind_tagged, none e inside, if_neg (by decide)]
  intro u mem
  rcases List.mem_append.mp mem with here | there
  · exact plain _ ordered.coded.rest u here
  · unfold Picture.secondUnits at there
    cases second : p.second with
    | none => simp [second] at there
    | some c =>
      simp only [second, List.mem_append, List.mem_cons] at there
      rcases there with front | rfl | rest
      · refine plain _ (fun e inside => ?_) u front
        by_contra config
        exact whole ⟨c, second, List.any_eq_true.mpr ⟨e, inside, by simpa using config⟩⟩
      · rfl
      · exact plain _ (ordered.second c second).rest u rest

end Frames

/-! ## The ranges of a stream -/

theorem standard : Standard (normalize h264Scode) := ⟨rfl, rfl, rfl, .inr ⟨rfl, rfl, rfl⟩⟩

section Pieces
variable {virt : Nat → UInt8} {size : Nat} {lead : Bytes} {ps : List Picture}

theorem parse_pictures (file : File virt size lead (units ps)) (stream : Stream ps) (bounded : size < 2 ^ 32)
    (number : Nat) :
    Ordered (size : Int) ((codesBy (normalize h264Scode) virt step lead.length (units ps) {}).map Code.mark) ∧
    ∃ q final, h264Parse 0 { virt, size, number } none = .ok (.OK, q, final) ∧
      q.handed.map range =
        kept number (pieces (normalize h264Scode) virt step {} size lead (units ps)) := by
  refine parse_units (by decide) standard file ?_ number
  refine codesOf_simulates (R := fun pos s a => ∃ m, Keeps 0 s m ∧ Remembers virt size pos m a) ?_
    ⟨{}, ⟨rfl, rfl⟩, Nat.zero_le _, Nat.zero_le _, ⟨rfl, rfl⟩, rfl⟩ stream.legal file.units
    (le_of_eq file.size.symm)
  intro pos u s a related fit holds inside
  exact h264CheckFrame_follows related fit holds inside bounded

/-- The second field of an interrupted picture lies past the piece of the first. -/
theorem split_outside {k : Nat} {p q : Picture} (at_ : ps[k]? = some p) (next : ps[k + 1]? = some q)
    (split : p.Interrupted) {s : Int × Int}
    (around : Around (normalize h264Scode) virt step lead.length
      (ahead (groups Picture.parts 0 ps) k (p.parts k)) (p.parts k).first
      (behind (groups Picture.parts 0 ps) k (p.parts k)) {} s) :
    ∃ x ∈ layout lead.length (units ps), x.tag = ⟨k, .secondField⟩ ∧ s.2 ≤ x.start := by
  obtain ⟨c, second, config⟩ := split
  obtain ⟨e, inside, config⟩ := List.any_eq_true.mp config
  obtain ⟨before, between, front⟩ := List.append_of_mem inside
  have rest : (p.parts k).rest = (p.coded.rest.map (tagged k) ++ before.map (tagged k)) ++
      tagged k e :: (between.map (tagged k) ++ .of ⟨k, .secondField⟩ c.first :: c.rest.map (tagged k)) := by
    simp [Picture.parts, Picture.secondUnits, second, front]
  have kept : kind (tagged k e) ≠ .UNKNOWN := by
    rw [kind_tagged, if_pos config]
    decide
  have later : behind (groups Picture.parts 0 ps) k (p.parts k) =
      ((p.parts k).rest ++ (q.parts (k + 1)).front) ++ (q.parts (k + 1)).first ::
        ((q.parts (k + 1)).rest ++ flatten ((groups Picture.parts 0 ps).drop (k + 2))) := by
    have group : (groups Picture.parts 0 ps)[k + 1]? = some (q.parts (k + 1)) := groups_at next
    obtain ⟨bound, here⟩ := List.getElem?_eq_some_iff.mp group
    rw [behind, List.drop_eq_getElem_cons bound, here, flatten, List.flatMap_cons, ← flatten]
    simp [PictureUnits.units]
  obtain ⟨x, mem, tag, past⟩ := kept_outside (groups_at at_) around rest kept (by
    rw [later]
    exact frame_code _ (kind_lead q (k + 1)))
  exact ⟨x, mem, tag, past⟩

end Pieces

/-- The number of ranges a limit leaves. -/
def rangesPushed (number pictures : Nat) : Nat := if number = 0 then pictures else min number pictures

theorem pieces_length {virt : Nat → UInt8} {size : Nat} {lead : Bytes} (ps : List Picture) :
    (pieces (normalize h264Scode) virt step {} size lead (units ps)).length = ps.length := by
  have frames := stream_frames ps
  rw [← frames_codesBy (normalize h264Scode) virt step lead.length] at frames
  unfold pieces
  cases codes : (codesBy (normalize h264Scode) virt step lead.length (units ps) {}).map Code.mark with
  | nil =>
    rw [codes] at frames
    rw [← frames]
    rfl
  | cons m ms =>
    rw [cut_length, ← codes, frames]
    cases ps with
    | nil => simp [units, groups, flatten, codesBy] at codes
    | cons p ps => simp

/-- Below 4 GiB every range but the last holds one picture exactly when no picture
with a range behind its own is interrupted by a parameter set or SEI between its fields. -/
theorem h264_intact_iff {virt : Nat → UInt8} {size : Nat} {lead : Bytes} (ps : List Picture)
    (file : File virt size lead (units ps)) (stream : Stream ps) (bounded : size < 2 ^ 32)
    (number : Nat) :
    ∃ q final, h264Parse 0 { virt, size, number } none = .ok (.OK, q, final) ∧
      (Intact (layout lead.length (units ps)) ps.length (q.handed.map range) ↔
        ∀ k p, ps[k]? = some p → k + 1 < rangesPushed number ps.length → ¬ p.Interrupted) := by
  obtain ⟨ordered, q, final, run, ranges⟩ := parse_pictures file stream bounded number
  refine ⟨q, final, run, ?_⟩
  rw [ranges]
  have length : (kept number (pieces (normalize h264Scode) virt step {} size lead (units ps))).length =
      rangesPushed number ps.length := by
    unfold kept rangesPushed
    split
    · exact pieces_length ps
    · rw [List.length_take, pieces_length]
  constructor
  · intro intact k p at_ more split
    have bound := (List.getElem?_eq_some_iff.mp at_).1
    have less : k + 1 < ps.length := by
      unfold rangesPushed at more
      split at more <;> omega
    have limit : number = 0 ∨ k < number := by
      unfold rangesPushed at more
      split at more <;> omega
    obtain ⟨s, piece, around⟩ := (leads at_).piece (groups_at at_) standard file ordered
    have mem : s ∈ (kept number (pieces (normalize h264Scode) virt step {} size lead (units ps))).dropLast :=
      mem_dropLast (k := k) (by rw [kept_getElem, if_pos limit]; exact piece) (by rw [length]; exact more)
    obtain ⟨j, -, whole, alone⟩ := intact s mem
    have first : placed lead.length (ahead (groups Picture.parts 0 ps) k (p.parts k)) (p.parts k).first ∈
        layout lead.length (units ps) :=
      mem_layout.mpr ⟨_, _, _, around_first (groups_at at_), rfl⟩
    have stop := around.holds [] _ rfl trivial _ (List.mem_singleton.mpr rfl)
    have start := around.start
    have slice : (p.parts k).first.tag.slice = true := by
      have frame := kind_lead p k
      by_contra plain
      rw [kind, other_of_plain (by simpa using plain)] at frame
      simp only at frame
      split at frame <;> contradiction
    have same : k = j := by
      have number := alone _ first slice (by simp only [placed]; omega)
        (by simp only [placed, place_nil] at stop ⊢; omega)
      exact (parts_picture (p := p) (u := (p.parts k).first) (by simp [PictureUnits.units])).symm.trans number
    obtain ⟨x, inside, tag, past⟩ := split_outside at_ (List.getElem?_eq_getElem less) split around
    have := whole x inside (by rw [tag]; exact same) (by rw [tag]; rfl)
    have := (layout_bounds inside).2.1
    omega
  · intro whole r mem
    obtain ⟨i, found⟩ := List.getElem?_of_mem mem
    have inside := (List.getElem?_eq_some_iff.mp found).1
    rw [List.length_dropLast, length] at inside
    rw [List.getElem?_dropLast, length, if_pos inside, kept_getElem] at found
    have less : i + 1 < ps.length ∧ (number = 0 ∨ i + 1 < number) := by
      unfold rangesPushed at inside
      split at inside <;> omega
    rw [if_pos (by omega)] at found
    have at_ := List.getElem?_eq_getElem (show i < ps.length by omega)
    have compact : ∀ k p, ps[k]? = some p → k < rangesPushed number ps.length - 1 →
        Compact Tag.slice step {} (groups Picture.parts 0 ps) k (p.parts k) := fun k p at_ less =>
      compact_of_whole (stream.ordered p (List.mem_of_getElem? at_)) (whole k p at_ (by omega))
    obtain ⟨s, piece, around⟩ := (leads at_).piece (groups_at at_) standard file ordered
    obtain rfl : s = r := Option.some.inj (piece.symm.trans found)
    refine ⟨i, by omega, ?_, ?_⟩
    · intro x here number slice
      exact (compact i _ at_ inside).inside (numbered stream.ordered) (groups_at at_) around here number slice
    · intro x here slice low high
      refine meets_own (numbered stream.ordered) standard file ordered (rangesPushed number ps.length - 1)
        ?_ ?_ found inside here slice low high
      · intro k g here _
        obtain ⟨p, at_, rfl⟩ := groups_find here
        exact leads at_
      · intro k g here less
        obtain ⟨p, at_, rfl⟩ := groups_find here
        exact compact k p at_ less

/-- A sequence and a picture parameter set, an IDR field, an SEI, the field that
complements it, and a frame. -/
def seiBetween : List Picture :=
  [{ coded :=
      { front := [{ bytes := [0x67, 0x4D, 0x00, 0x1E, 0xDA, 0x64, 0x80], zeros := 1 },
          { bytes := [0x68, 0xCE, 0x3C, 0x80], zeros := 1 }]
        first := { bytes := [0x65, 0x88, 0x85, 0x21, 0xA0], zeros := 1 }
        rest := [] }
     second := some
      { front := [{ bytes := [0x06, 0x04, 0x01, 0x55, 0x80], zeros := 1 }]
        first := { bytes := [0x41, 0x9A, 0x1C, 0x21, 0xA0], zeros := 1 }
        rest := [] } },
    { coded := { front := [], first := { bytes := [0x41, 0x9A, 0x2C, 0x21, 0xA0] }, rest := [] } }]

def seiBytes : Bytes := 0 :: stream (payloads (units seiBetween))

theorem seiBetween_file : File (memory seiBytes) 55 [0] (units seiBetween) where
  clean := by decide
  closed := by decide
  holds := memory_holds _
  size := by decide

theorem seiBetween_stream : Stream seiBetween where
  ordered := by
    intro p mem
    simp only [seiBetween, List.mem_cons, List.not_mem_nil, or_false] at mem
    rcases mem with rfl | rfl
    · refine ⟨by decide, fun c second => ?_⟩
      cases Option.some.inj second
      decide
    · exact ⟨by decide, fun c second => by contradiction⟩
  legal := by decide +kernel

theorem h264_intact_fields : ∃ q final,
    h264Parse 0 { virt := memory seiBytes, size := 55, number := 0 } none = .ok (.OK, q, final) ∧
      (Intact (layout 1 (units seiBetween)) 2 (q.handed.map range) ↔
        ∀ k p, seiBetween[k]? = some p → k + 1 < rangesPushed 0 2 → ¬ p.Interrupted) :=
  h264_intact_iff seiBetween seiBetween_file seiBetween_stream (by decide) 0

/-- The SEI ends the range of the first field, so the second comes with the next frame. -/
theorem h264_splits_fields : Stream seiBetween ∧ ∃ q final,
    h264Parse 0 { virt := memory seiBytes, size := 55, number := 0 } none = .ok (.OK, q, final) ∧
      ¬ Intact (layout 1 (units seiBetween)) 2 (q.handed.map range) := by
  have evaluated : (h264Parse 0 { virt := memory seiBytes, size := 55, number := 0 } none).map
      (fun result => (result.1, result.2.1.handed)) = .ok (.OK, [(0, 28), (28, 27)]) := by decide +kernel
  cases run : h264Parse 0 { virt := memory seiBytes, size := 55, number := 0 } none with
  | error e =>
    rw [run] at evaluated
    contradiction
  | ok result =>
    obtain ⟨ret, q, final⟩ := result
    simp only [run, Except.map, Except.ok.injEq, Prod.mk.injEq] at evaluated
    obtain ⟨rfl, handed⟩ := evaluated
    refine ⟨seiBetween_stream, q, final, rfl, fun intact => ?_⟩
    rw [handed] at intact
    obtain ⟨k, -, whole, alone⟩ := intact (0, 28) (by decide)
    have first : 0 = k := alone ⟨⟨0, .firstField⟩, 20, 28⟩ (by decide) rfl (by decide) (by decide)
    have second := whole ⟨⟨0, .secondField⟩, 38, 46⟩ (by decide) first rfl
    exact absurd second (by decide)

end ImxTest.Pitcher.H264
