import ImxTest.Pitcher.Elementary

/-! MPEG-2 in pitcher/mpegx_parse.c. The picture coding extension behind a picture
header is classified like a header in front of a picture, so the scan cuts
between a picture header and its own extension. -/
namespace ImxTest.Pitcher.Mpeg2

open Lib.Cut Scan Elementary

/-- The switch of `mpeg2_check_frame` on the byte behind the start code. -/
def mpeg2Type (code : UInt8) : ParserType :=
  if code = 0x00 then .FRAME
  else if code = 0xB2 ∨ code = 0xB3 ∨ code = 0xB5 ∨ code = 0xB8 then .CONFIG
  else .UNKNOWN

def mpeg2CheckFrame {ε : Type} : CheckFrame ε Unit := fun virt p size priv =>
  if size = 0 then .ok (.UNKNOWN, priv) else .ok (mpeg2Type (virt p), priv)

def mpeg2Parse (parser : PitcherParser) : Except Empty (Ret × PitcherParser × Unit) :=
  pitcherParseStartcode parser mpeg2Scode (some mpeg2CheckFrame) ()

inductive Part where
  | headers | picture | extension | userData | slice
deriving DecidableEq, Repr

/-- What a unit is, and the picture it belongs to. -/
structure Tag where
  picture : Nat
  part : Part
deriving DecidableEq, Repr

/-- A picture as the elementary stream has it. The headers in front of it are a
sequence header or a GOP header with their extensions and user data. -/
structure Picture where
  headers : List Element
  header : Element
  extension : Element
  userData : List Element
  slices : List Element
  headers_codes : ∀ e ∈ headers, e.code ∈ [some 0xB2, some 0xB3, some 0xB5, some 0xB8]
  header_code : header.code = some 0x00
  extension_code : extension.code = some 0xB5
  userData_codes : ∀ e ∈ userData, e.code ∈ [some 0xB2, some 0xB5]
  slices_codes : ∀ e ∈ slices, e.code.any (fun c => 0x01 ≤ c && c ≤ 0xAF) = true

def Picture.units (p : Picture) (k : Nat) : List (CodedUnit Tag) :=
  p.headers.map (.of ⟨k, .headers⟩) ++
  .of ⟨k, .picture⟩ p.header :: .of ⟨k, .extension⟩ p.extension ::
  (p.userData.map (.of ⟨k, .userData⟩) ++ p.slices.map (.of ⟨k, .slice⟩))

/-- The units of pictures numbered from `k` on. -/
def unitsFrom : Nat → List Picture → List (CodedUnit Tag)
  | _, [] => []
  | k, p :: ps => p.units k ++ unitsFrom (k + 1) ps

/-- The range holds the header, the extension and all slices of one picture, and
nothing of another. -/
def Intact (units : List (Placed Tag)) (r : Int × Int) : Prop :=
  ∃ k, (∃ x ∈ units, x.tag = ⟨k, .picture⟩) ∧
    (∀ x ∈ units, x.tag.picture = k → x.tag.part ∈ [.picture, .extension, .slice] →
      r.1 ≤ x.start ∧ x.stop ≤ r.2) ∧
    ∀ x ∈ units, x.tag.picture ≠ k → x.tag.part ≠ .headers → x.stop ≤ r.1 ∨ r.2 ≤ x.start

/-- How `mpeg2_check_frame` takes a unit. -/
def step (_ : Unit) (u : CodedUnit Tag) : ParserType × Unit :=
  (u.bytes.head?.elim .UNKNOWN mpeg2Type, ())

theorem mpeg2CheckFrame_follows {ε : Type} {virt : Nat → UInt8} {size pos : Nat}
    {u : CodedUnit Tag} (closed : u.Closed) (holds : Holds virt pos (startCode ++ u.payload))
    (inside : place pos [u] ≤ size) (bounded : size < 2 ^ 32) :
    mpeg2CheckFrame (ε := ε) virt (pos + 3) (leftSize size (pos + 3)) () = .ok (step () u) := by
  have nonempty := List.length_pos_iff.mpr closed.nonempty
  have spot := place_singleton pos u
  have left : leftSize size (pos + 3) ≠ 0 := by
    simp only [leftSize]
    omega
  obtain ⟨b, rest, bytes⟩ := List.exists_cons_of_ne_nil closed.nonempty
  have first : virt (pos + 3) = b := holds 3 b (by simp [startCode, CodedUnit.payload, bytes])
  simp only [mpeg2CheckFrame, left, if_false, first, step, bytes, List.head?_cons, Option.elim_some]

theorem types_map (us : List (CodedUnit Tag)) :
    types step () us = us.map fun u => (step () u).1 := by
  induction us with
  | nil => rfl
  | cons u us ih => exact congrArg _ ih

theorem headers_config {p : Picture} {e : Element} (mem : e ∈ p.headers) (tag : Tag) :
    (step () (.of tag e)).1 = .CONFIG := by
  have code := p.headers_codes e mem
  simp only [Element.code, List.mem_cons, List.not_mem_nil, or_false] at code
  rcases code with h | h | h | h <;> simp only [step, CodedUnit.of, h] <;> rfl

theorem header_frame (p : Picture) (tag : Tag) : (step () (.of tag p.header)).1 = .FRAME := by
  simp only [step, CodedUnit.of, show p.header.bytes.head? = some 0x00 from p.header_code]
  rfl

theorem extension_config (p : Picture) (tag : Tag) :
    (step () (.of tag p.extension)).1 = .CONFIG := by
  simp only [step, CodedUnit.of, show p.extension.bytes.head? = some 0xB5 from p.extension_code]
  rfl

theorem userData_config {p : Picture} {e : Element} (mem : e ∈ p.userData) (tag : Tag) :
    (step () (.of tag e)).1 = .CONFIG := by
  have code := p.userData_codes e mem
  simp only [Element.code, List.mem_cons, List.not_mem_nil, or_false] at code
  rcases code with h | h <;> simp only [step, CodedUnit.of, h] <;> rfl

theorem slice_unknown {p : Picture} {e : Element} (mem : e ∈ p.slices) (tag : Tag) :
    (step () (.of tag e)).1 = .UNKNOWN := by
  obtain ⟨c, code, low, high⟩ : ∃ c, e.code = some c ∧ 0x01 ≤ c ∧ c ≤ 0xAF := by
    simpa [Option.any_eq_true] using p.slices_codes e mem
  have low : 1 ≤ c.toNat := UInt8.le_iff_toNat_le.mp low
  have high : c.toNat ≤ 0xAF := UInt8.le_iff_toNat_le.mp high
  have other : ∀ d : UInt8, d.toNat < 1 ∨ 0xAF < d.toNat → c ≠ d := by
    rintro d range rfl
    omega
  simp only [step, CodedUnit.of, show e.bytes.head? = some c from code, Option.elim_some, mpeg2Type,
    other 0x00 (by decide), other 0xB2 (by decide), other 0xB3 (by decide), other 0xB5 (by decide),
    other 0xB8 (by decide), or_self, if_false]

theorem picture_frames (p : Picture) (k : Nat) :
    (types step () (p.units k)).count .FRAME = 1 := by
  have none : ∀ (es : List Element) (tag : Tag),
      (∀ e ∈ es, (step () (.of tag e)).1 ≠ .FRAME) →
      ((es.map (.of tag)).map fun u => (step () u).1).count .FRAME = 0 := by
    intro es tag other
    rw [List.map_map]
    apply List.count_eq_zero.mpr
    intro mem
    obtain ⟨e, inside, frame⟩ := List.mem_map.mp mem
    exact other e inside frame
  have headers := none p.headers ⟨k, .headers⟩ fun e mem => by rw [headers_config mem]; decide
  have userData := none p.userData ⟨k, .userData⟩ fun e mem => by rw [userData_config mem]; decide
  have slices := none p.slices ⟨k, .slice⟩ fun e mem => by rw [slice_unknown mem]; decide
  simp only [types_map, Picture.units, List.map_append, List.map_cons, List.count_append,
    List.count_cons, header_frame, extension_config, headers, userData, slices]
  rfl

theorem unitsFrom_frames (k : Nat) (ps : List Picture) :
    (types step () (unitsFrom k ps)).count .FRAME = ps.length := by
  induction ps generalizing k with
  | nil => rfl
  | cons p ps ih =>
    have tail : (types step (after step () (p.units k)) (unitsFrom (k + 1) ps)).count .FRAME =
        ps.length := ih (k + 1)
    rw [unitsFrom, types_append, List.count_append, picture_frames, tail, List.length_cons,
      Nat.add_comm]

theorem legal (us : List (CodedUnit Tag)) (closed : ∀ u ∈ us, u.Closed) :
    Legal step (fun _ => CodedUnit.Closed) () us := by
  induction us with
  | nil => trivial
  | cons u us ih => exact ⟨closed u (by simp), ih fun v mem => closed v (List.mem_cons_of_mem _ mem)⟩

theorem standard : Standard (normalize mpeg2Scode) := ⟨rfl, rfl, rfl, .inl rfl⟩

theorem parse_pictures {virt : Nat → UInt8} {size : Nat} {lead : Bytes}
    {us : List (CodedUnit Tag)} (file : File virt size lead us) (bounded : size < 2 ^ 32)
    (number : Nat) :
    let codes := codesBy (normalize mpeg2Scode) virt step lead.length us ()
    Ordered (size : Int) (codes.map Code.mark) ∧
    ∃ q final, mpeg2Parse { virt, size, number } = .ok (.OK, q, final) ∧
      q.handed.map range = kept number (cut size (codes.map Code.mark)) := by
  refine parse_units (by decide) standard file ?_ number
  refine codesOf_simulates (R := fun _ _ _ => True) ?_ trivial (legal us file.closed) file.units
    (le_of_eq file.size.symm)
  rintro pos u ⟨⟩ ⟨⟩ - closed holds inside
  exact ⟨(), mpeg2CheckFrame_follows closed holds inside bounded, trivial⟩

/-- A unit is overlooked when what is left of the file behind its start code is
a multiple of 4 GiB. -/
def stepAt (size pos : Nat) (u : CodedUnit Tag) : ParserType × Nat :=
  (if leftSize size (pos + 3) = 0 then .UNKNOWN else (step () u).1, place pos [u])

theorem overlooked_frames (size pos : Nat) (us : List (CodedUnit Tag)) :
    (types (stepAt size) pos us).count .FRAME ≤ (types step () us).count .FRAME := by
  induction us generalizing pos with
  | nil => exact le_refl _
  | cons u us ih =>
    have tail := ih (place pos [u])
    simp only [types, List.count_cons, stepAt]
    split
    · simp only [reduceCtorEq, beq_iff_eq, if_false]
      exact tail.trans (Nat.le_add_right ..)
    · exact Nat.add_le_add_right tail _

/-- The parse of a file of any size. -/
theorem parse_pieces {virt : Nat → UInt8} {size : Nat} {lead : Bytes}
    {us : List (CodedUnit Tag)} (file : File virt size lead us) (number : Nat) :
    let codes := codesBy (normalize mpeg2Scode) virt (stepAt size) lead.length us lead.length
    ∃ q final, mpeg2Parse { virt, size, number } = .ok (.OK, q, final) ∧
      q.handed.map range = kept number (cut size (codes.map Code.mark)) := by
  have legal : ∀ pos, Legal (stepAt size) (fun _ => CodedUnit.Closed) pos us := by
    have closed := file.closed
    clear file
    induction us with
    | nil => exact fun _ => trivial
    | cons u us ih =>
      exact fun pos => ⟨closed u (by simp), ih (fun v mem => closed v (List.mem_cons_of_mem _ mem)) _⟩
  refine (parse_units (by decide) standard file ?_ number).2
  refine codesOf_simulates (R := fun pos _ a => a = pos) ?_ rfl (legal _) file.units
    (le_of_eq file.size.symm)
  rintro pos u ⟨⟩ a rfl closed holds inside
  refine ⟨(), ?_, rfl⟩
  obtain ⟨b, rest, bytes⟩ := List.exists_cons_of_ne_nil closed.nonempty
  have first : virt (a + 3) = b := holds 3 b (by simp [startCode, CodedUnit.payload, bytes])
  simp only [mpeg2CheckFrame, stepAt, step, first, bytes, List.head?_cons, Option.elim_some]
  split <;> rfl

/-- With a second picture on the way the first range ends where the extension of
its picture starts. -/
theorem first_range {virt : Nat → UInt8} {size : Nat} {lead : Bytes} {p p' : Picture}
    {ps : List Picture} (file : File virt size lead (unitsFrom 0 (p :: p' :: ps)))
    (ordered : Ordered (size : Int) ((codesBy (normalize mpeg2Scode) virt step lead.length
      (unitsFrom 0 (p :: p' :: ps)) ()).map Code.mark)) :
    ∃ r, (cut (size : Int) ((codesBy (normalize mpeg2Scode) virt step lead.length
        (unitsFrom 0 (p :: p' :: ps)) ()).map Code.mark))[0]? = some r ∧
      ∃ x ∈ layout lead.length (unitsFrom 0 (p :: p' :: ps)),
      ∃ y ∈ layout lead.length (unitsFrom 0 (p :: p' :: ps)),
        x.tag = ⟨0, .picture⟩ ∧ r.1 ≤ (x.start : Int) ∧ x.start < x.stop ∧ (x.stop : Int) ≤ r.2 ∧
        y.tag = ⟨0, .extension⟩ ∧ y.start < y.stop ∧ r.2 ≤ (y.start : Int) := by
  let before : List (CodedUnit Tag) := p.headers.map (.of ⟨0, .headers⟩)
  let f : CodedUnit Tag := .of ⟨0, .picture⟩ p.header
  let e : CodedUnit Tag := .of ⟨0, .extension⟩ p.extension
  let rest : List (CodedUnit Tag) := p.userData.map (.of ⟨0, .userData⟩) ++
    p.slices.map (.of ⟨0, .slice⟩) ++ unitsFrom 1 (p' :: ps)
  have units : unitsFrom 0 (p :: p' :: ps) = before ++ f :: e :: rest := by
    simp [unitsFrom, Picture.units, before, f, e, rest]
  have count := unitsFrom_frames 0 (p :: p' :: ps)
  rw [units] at file ordered count ⊢
  have framed : (step (after step () before) f).1 = .FRAME := header_frame p _
  obtain ⟨r, found, around⟩ := frame_piece standard framed file.units file.closed
    (le_of_eq file.size.symm) ordered
  have none : (types step () before).count .FRAME = 0 := by
    rw [types_map, List.map_map]
    apply List.count_eq_zero.mpr
    intro mem
    obtain ⟨e, inside, frame⟩ := List.mem_map.mp mem
    have config := headers_config inside ⟨0, .headers⟩
    exact absurd (config.symm.trans frame) (by decide)
  rw [frames_codesBy, none] at found
  have other : ∃ c ∈ codesBy (normalize mpeg2Scode) virt step
      (place lead.length (before ++ [f])) (e :: rest) (after step () (before ++ [f])),
      c.type = .FRAME := by
    have more : 0 < (types step (after step () (before ++ [f])) (e :: rest)).count .FRAME := by
      rw [← List.singleton_append, ← List.append_assoc, types_append, List.count_append,
        types_append, List.count_append, none] at count
      have one : (types step (after step () before) [f]).count .FRAME = 1 := by
        simp only [types, framed]
        rfl
      simp only [List.length_cons] at count
      omega
    rw [← frames_codesBy (normalize mpeg2Scode) virt step (place lead.length (before ++ [f]))] at more
    obtain ⟨m, mem, frame⟩ := List.countP_pos_iff.mp more
    obtain ⟨c, inside, rfl⟩ := List.mem_map.mp mem
    exact ⟨c, inside, by simpa [Code.mark] using frame⟩
  have stop := around.stops [] e rest rfl (by rw [extension_config]; decide) other
  have high := around.holds [] (e :: rest) rfl trivial (placed (place lead.length before) [] f)
    (by simp [layout])
  refine ⟨r, found, placed lead.length before f, mem_layout.mpr ⟨before, f, e :: rest, rfl, rfl⟩,
    placed lead.length (before ++ [f]) e,
    mem_layout.mpr ⟨before ++ [f], e, rest, by simp, rfl⟩, rfl, around.start, ?_, ?_, rfl, ?_, stop⟩
  · simp only [placed]
    omega
  · simpa only [placed, place_nil] using high
  · simp only [placed]
    omega

theorem few_ranges (virt : Nat → UInt8) (size : Nat) (lead : Bytes) {ps : List Picture}
    {number : Nat} (few : ps.length ≤ 1 ∨ number = 1) :
    (kept number (cut (size : Int) ((codesBy (normalize mpeg2Scode) virt (stepAt size) lead.length
      (unitsFrom 0 ps) lead.length).map Code.mark))).length ≤ 1 := by
  rcases few with single | one
  · have bound := cut_length_le size ((codesBy (normalize mpeg2Scode) virt (stepAt size) lead.length
      (unitsFrom 0 ps) lead.length).map Code.mark)
    have count := overlooked_frames size lead.length (unitsFrom 0 ps)
    rw [unitsFrom_frames] at count
    rw [frames_codesBy] at bound
    unfold kept
    split
    · omega
    · rw [List.length_take]
      omega
  · simp [kept, one]

theorem many_ranges {virt : Nat → UInt8} {size : Nat} {lead : Bytes} {p p' : Picture}
    {ps : List Picture} {number : Nat} (several : number ≠ 1) :
    1 < (kept number (cut (size : Int) ((codesBy (normalize mpeg2Scode) virt step lead.length
      (unitsFrom 0 (p :: p' :: ps)) ()).map Code.mark))).length := by
  have count := unitsFrom_frames 0 (p :: p' :: ps)
  rw [← frames_codesBy (normalize mpeg2Scode) virt step lead.length] at count
  have long : 1 < (cut (size : Int) ((codesBy (normalize mpeg2Scode) virt step lead.length
      (unitsFrom 0 (p :: p' :: ps)) ()).map Code.mark)).length := by
    cases h : (codesBy (normalize mpeg2Scode) virt step lead.length
      (unitsFrom 0 (p :: p' :: ps)) ()).map Code.mark with
    | nil => simp [h, frames] at count
    | cons m ms =>
      rw [cut_length, ← h, count]
      simp
  unfold kept
  split
  · exact long
  · rw [List.length_take]
    omega

/-- Every range but the last is intact when there is none but the last, and below
4 GiB only then: with two pictures the first range already lacks an extension. -/
theorem mpeg2_intact_iff {virt : Nat → UInt8} {size : Nat} {lead : Bytes} (ps : List Picture)
    (file : File virt size lead (unitsFrom 0 ps)) (number : Nat) :
    ∃ q final, mpeg2Parse { virt, size, number } = .ok (.OK, q, final) ∧
      (ps.length ≤ 1 ∨ number = 1 →
        ∀ r ∈ (q.handed.map range).dropLast, Intact (layout lead.length (unitsFrom 0 ps)) r) ∧
      (size < 2 ^ 32 →
        ((∀ r ∈ (q.handed.map range).dropLast, Intact (layout lead.length (unitsFrom 0 ps)) r) ↔
          ps.length ≤ 1 ∨ number = 1)) := by
  obtain ⟨q, final, run, ranges⟩ := parse_pieces file number
  have enough : ps.length ≤ 1 ∨ number = 1 →
      ∀ r ∈ (q.handed.map range).dropLast, Intact (layout lead.length (unitsFrom 0 ps)) r := by
    intro few r mem
    have some_ : 0 < (q.handed.map range).dropLast.length := List.length_pos_of_mem mem
    have short := few_ranges virt size lead few
    rw [List.length_dropLast, ranges] at some_
    omega
  refine ⟨q, final, run, enough, fun bounded => ⟨?_, enough⟩⟩
  intro intact
  by_contra other
  obtain ⟨p, p', rest, rfl⟩ : ∃ p p' rest, ps = p :: p' :: rest := by
    match ps with
    | [] | [_] => simp at other
    | p :: p' :: rest => exact ⟨p, p', rest, rfl⟩
  have several : number ≠ 1 := fun one => other (.inr one)
  obtain ⟨ordered, q', final', run', ranges'⟩ := parse_pictures file bounded number
  obtain ⟨rfl, -⟩ : q = q' ∧ final = final' := by simpa [run] using run'
  obtain ⟨r, found, x, hx, y, hy, xtag, low, xlong, high, ytag, ylong, stop⟩ :=
    first_range file ordered
  have first : (q.handed.map range)[0]? = some r := by
    rw [ranges', kept_getElem, if_pos (by omega), found]
  have mem := mem_dropLast first (by rw [ranges']; exact many_ranges several)
  obtain ⟨k, -, whole, alone⟩ := intact r mem
  have same : k = 0 := by
    by_contra differ
    have apart := alone x hx (by rw [xtag]; exact fun h => differ h.symm) (by rw [xtag]; decide)
    omega
  have inside := whole y hy (by rw [ytag, same]) (by rw [ytag]; decide)
  omega

/-- A sequence header, an I picture and a P picture of one slice each. -/
def twoPictures : List Picture :=
  [{ headers := [{ bytes := [0xB3, 0x01, 0x00, 0x10, 0x13, 0xFF, 0xFF, 0xE0, 0xA0] },
        { bytes := [0xB5, 0x14, 0x8A, 0x00, 0x01], zeros := 2 }]
     header := { bytes := [0x00, 0x00, 0x0F, 0xFF, 0xF8] }
     extension := { bytes := [0xB5, 0x8F, 0xFF, 0xF3, 0x41, 0x80] }
     userData := []
     slices := [{ bytes := [0x01, 0x13, 0xF8, 0x7D, 0x28] }]
     headers_codes := by decide
     header_code := by decide
     extension_code := by decide
     userData_codes := by decide
     slices_codes := by decide },
   { headers := []
     header := { bytes := [0x00, 0x00, 0x57, 0xFF, 0xF9, 0x80] }
     extension := { bytes := [0xB5, 0x81, 0x11, 0xF3, 0x41, 0x80] }
     userData := []
     slices := [{ bytes := [0x01, 0x1B, 0xF8, 0x7D, 0x28] }]
     headers_codes := by decide
     header_code := by decide
     extension_code := by decide
     userData_codes := by decide
     slices_codes := by decide }]

def twoPicturesFile : Bytes := stream (payloads (unitsFrom 0 twoPictures))

theorem twoPictures_file :
    File (memory twoPicturesFile) 73 [] (unitsFrom 0 twoPictures) where
  clean := by decide
  closed := by decide
  holds := memory_holds _
  size := by decide

theorem mpeg2_intact_two : ∃ q final,
    mpeg2Parse { virt := memory twoPicturesFile, size := 73, number := 0 } = .ok (.OK, q, final) ∧
      (twoPictures.length ≤ 1 ∨ 0 = 1 →
        ∀ r ∈ (q.handed.map range).dropLast, Intact (layout 0 (unitsFrom 0 twoPictures)) r) ∧
      (73 < 2 ^ 32 →
        ((∀ r ∈ (q.handed.map range).dropLast, Intact (layout 0 (unitsFrom 0 twoPictures)) r) ↔
          twoPictures.length ≤ 1 ∨ 0 = 1)) :=
  mpeg2_intact_iff twoPictures twoPictures_file 0

/-- The first range of the file ends in front of the extension of the first
picture, so it is not intact. -/
theorem mpeg2_splits_picture : ∃ q final,
    mpeg2Parse { virt := memory twoPicturesFile, size := 73, number := 0 } = .ok (.OK, q, final) ∧
      ¬ ∀ r ∈ (q.handed.map range).dropLast, Intact (layout 0 (unitsFrom 0 twoPictures)) r := by
  have evaluated : (mpeg2Parse { virt := memory twoPicturesFile, size := 73, number := 0 }).map
      (fun result => (result.1, result.2.1.handed)) = .ok (.OK, [(0, 30), (30, 43)]) := by decide
  cases run : mpeg2Parse { virt := memory twoPicturesFile, size := 73, number := 0 } with
  | error e => nomatch e
  | ok result =>
    obtain ⟨ret, q, final⟩ := result
    simp only [run, Except.map, Except.ok.injEq, Prod.mk.injEq] at evaluated
    obtain ⟨rfl, handed⟩ := evaluated
    refine ⟨q, final, rfl, fun intact => ?_⟩
    obtain ⟨k, -, whole, alone⟩ := intact (0, 30) (by rw [handed]; decide)
    have extension : (⟨⟨0, .extension⟩, 30, 39⟩ : Placed Tag) ∈ layout 0 (unitsFrom 0 twoPictures) := by
      decide
    have header : (⟨⟨0, .picture⟩, 22, 30⟩ : Placed Tag) ∈ layout 0 (unitsFrom 0 twoPictures) := by
      decide
    by_cases first : k = 0
    · exact absurd (whole _ extension first.symm (by decide)) (by decide)
    · exact absurd (alone _ header (fun h => first h.symm) (by decide)) (by decide)

end ImxTest.Pitcher.Mpeg2
