import ImxTest.Dsd.Walk
import ImxTest.Lib.Guards

/-! Where the bytes go that the DSDIFF reader reads. A checked reader stops before it subtracts more
than there is and before it makes an array that the rest of the file does not fill. -/
namespace ImxTest.Dsd

open Lib Reading

section Checked
variable (sys : System)

namespace Checked

def skip (size : Nat) : Reader Unit := fun t =>
  if t.left.length < size then .error .fault else Dsd.skip sys size t

def skipChunk : Reader Unit := do
  let nextChunkSize ← readU64 true
  skip sys nextChunkSize

def comprRest (chunkSize : Nat) : Reader Unit := do
  expect (ascii "DSD ")
  let _ ← readNew 1
  if chunkSize < 5 then throw .fault else readName sys (nameSize chunkSize)

def readCompr : Reader Unit := do
  let chunkSize ← readU64 true
  comprRest sys chunkSize

def handleProp (_ : Nat) : List UInt8 → DffProp → Reader DffProp :=
  propBy readFs (readChnl sys) (readCompr sys) (skipChunk sys)

def readDffProp (fuel : Nat) : Reader DffProp := do
  let _ ← readU64 true
  expect (ascii "SND ")
  let nextChunk ← fresh 4
  chunks DffProp.done (handleProp sys) fuel nextChunk {}

def handleForm (fuel : Nat) : List UInt8 → DffForm → Reader DffForm :=
  formBy readDffFver (readDffProp sys fuel) readDffDsdData (skipChunk sys)

/-- What is in front of the chunks of a form. -/
def readHeader : Reader Unit := do
  expect (ascii "FRM8")
  let _ ← readU64 true
  expect (ascii "DSD ")

def readDffForm (fuel : Nat) : Reader DffForm := do
  readHeader
  let nextChunk ← fresh 4
  chunks DffForm.done (handleForm sys) fuel nextChunk {}

end Checked

/-! ## The reader with the checks -/

theorem checks_skipChunk : Checks (Checked.skipChunk sys) (skipChunk sys) := by
  refine (Checks.refl _).bind fun size t => ?_
  unfold Checked.skip
  split_ifs
  · exact .inr rfl
  · exact .inl rfl

theorem checks_readCompr : Checks (Checked.readCompr sys) (readCompr sys) :=
  (Checks.refl _).bind fun size => (Checks.refl _).bind fun _ => (Checks.refl _).bind fun _ t => by
    split_ifs
    · exact .inr rfl
    · exact .inl rfl

theorem checks_handleProp (fuel : Nat) (tag : List UInt8) (prop : DffProp) :
    Checks (Checked.handleProp sys fuel tag prop) (handleProp sys fuel tag prop) :=
  .ite (.refl _) <| .ite (.refl _) <| .ite ((checks_readCompr sys).bind fun _ => .refl _) <|
    (checks_skipChunk sys).bind fun _ => .refl _

theorem checks_readDffProp (fuel : Nat) : Checks (Checked.readDffProp sys fuel) (readDffProp sys fuel) :=
  (Checks.refl _).bind fun _ => (Checks.refl _).bind fun _ => (Checks.refl _).bind fun tag =>
    .chunks (checks_handleProp sys) fuel tag {}

theorem checks_handleForm (fuel : Nat) (tag : List UInt8) (form : DffForm) :
    Checks (Checked.handleForm sys fuel tag form) (handleForm sys fuel tag form) :=
  .ite (.refl _) <| .ite ((checks_readDffProp sys fuel).bind fun _ => .refl _) <| .ite (.refl _) <|
    (checks_skipChunk sys).bind fun _ => .refl _

/-- The checked reader does what the reader does, or stops at a check. -/
theorem checks_readDffForm (fuel : Nat) : Checks (Checked.readDffForm sys fuel) (readDffForm sys fuel) := by
  have plain : readDffForm sys fuel = Checked.readHeader >>= fun _ => fresh 4 >>= fun tag =>
      chunks DffForm.done (handleForm sys) fuel tag {} := by
    simp only [readDffForm, Checked.readHeader, bind_assoc]
  rw [plain]
  exact (Checks.refl _).bind fun _ => (Checks.refl _).bind fun tag => .chunks (checks_handleForm sys) fuel tag {}

end Checked

/-! ## The walk with the checks -/

section Walk
variable (sys : System)

namespace Guard

/-- No more than the file has, and than the stack has room for. -/
def skip (size : Nat) : Strict Unit := fun left =>
  if size ≤ left.length ∧ size ≤ sys.stack then .ok ((), left.drop size) else .error .large

def skipChunk : Strict Unit := do
  let size ← Strict.number true 8
  skip sys size

/-- What follows a size that is there as a whole. -/
def comprRest (size : Nat) : Strict Unit :=
  if size < 5 then do
    Strict.expect (ascii "DSD ")
    throw .large
  else if sys.most < size - 5 then throw .wrong
  else do
    Strict.expect (ascii "DSD ")
    let _ ← Strict.take 1
    Walk.name (size - 5)

def compr : Strict Unit := fun left =>
  if 8 ≤ left.length then (Strict.number true 8 >>= comprRest sys) left
  else if number true left * 2 ^ (8 * (8 - left.length)) ≤ sys.most + 5 then .error .ended
  else .error .wrong

def propChunk : List UInt8 → DffProp → Strict DffProp :=
  propBy Walk.field (Walk.chnl sys) (compr sys) (skipChunk sys)

def prop : Strict DffProp := do
  let _ ← Strict.number true 8
  Strict.expect (ascii "SND ")
  Strict.allChunks DffProp.done (propChunk sys) {}

def formChunk : List UInt8 → DffForm → Strict DffForm :=
  formBy Walk.field (prop sys) (Strict.number true 8) (skipChunk sys)

def header : Strict Unit := do
  Strict.expect (ascii "FRM8")
  let _ ← Strict.number true 8
  Strict.expect (ascii "DSD ")

/-- The chunk of the data, behind which the reader stops. -/
def data (form : DffForm) (tag : List UInt8) : Bool :=
  form.version.isSome && form.prop.isSome && form.dsdData.isNone && tag == ascii "DSD "

/-- Up to the data each chunk is within the file and the arrays, or has wrong bytes. The variable of
the tag keeps what it has where the file ends. -/
def chunks : (bound : Nat) → DffForm → List UInt8 → List UInt8 → Bool
  | 0, _, _, _ => false
  | bound + 1, form, tag, left =>
    if form.done || data form (left.take 4 ++ tag.drop left.length) then true
    else if left.length < 4 then false
    else match formChunk sys (left.take 4) form (left.drop 4) with
      | .ok (form, rest) => chunks bound form (left.take 4) rest
      | .error .wrong => true
      | .error _ => false

end Guard

/-- What the header has behind it is within the file and the arrays, or the header is wrong. -/
def GuardWalk (file : List UInt8) : Prop :=
  match Guard.header file with
  | .ok (_, rest) => Guard.chunks sys (rest.length + 1) {} (List.replicate 4 0) rest = true
  | .error .wrong => True
  | .error _ => False

/-- The reader with the checks stops at none of them, whatever its new variables hold. -/
def Guarded (file : List UInt8) : Prop := ∀ fuel junk, Checked.readDffForm sys fuel ⟨file, junk⟩ ≠ .error .fault

end Walk

section Guards
variable {sys : System}

theorem Guarded.same {file : List UInt8} (guarded : Guarded sys file) (fuel : Nat) (junk : Stream' UInt8) :
    readDffForm sys fuel ⟨file, junk⟩ = Checked.readDffForm sys fuel ⟨file, junk⟩ :=
  ((checks_readDffForm sys fuel _).resolve_right (guarded fuel junk)).symm

/-! ## The checked reader beside its walk -/

theorem Quiet.readNumber (be : Bool) (n : Nat) : Quiet (readNumber be n) :=
  (Quiet.readNew n).bind fun _ => .pure _

theorem quiet_skip (size : Nat) : Quiet (skip sys size) := fun t => by
  unfold skip
  split_ifs <;> nofun

theorem quiet_readName (size : Nat) : Quiet (readName sys size) := fun t => by
  unfold readName
  split_ifs <;> nofun

theorem quiet_checkedSkip (size : Nat) : Quiet (Checked.skip sys size) := fun t => by
  unfold Checked.skip
  split_ifs
  · nofun
  · exact quiet_skip size t

theorem tracks_checkedSkip (size : Nat) : Tracks (Guard.skip sys size) (fun _ => Checked.skip sys size) where
  inside left := by
    unfold Guard.skip
    split_ifs with fits
    · refine .of_ok 0 (by rw [List.length_drop]; exact Nat.sub_le ..) fun _ junk => ?_
      rw [Checked.skip, if_neg (Nat.not_lt.mpr fits.1), skip_run, if_neg (Nat.not_lt.mpr fits.2)]
      rfl
    · refine .of_large fun _ junk => ⟨.fault, nofun, ?_⟩
      unfold Checked.skip
      rw [skip_run]
      split_ifs with more large
      · rfl
      · rfl
      · exact absurd ⟨Nat.not_lt.mp more, Nat.not_lt.mp large⟩ fits
  past := by
    refine ⟨[], (), fun _ junk => ?_⟩
    change Goes (if 0 < size then .error .fault else skip sys size ⟨[], junk⟩) _
    split_ifs
    · exact .inr ⟨.fault, nofun, rfl⟩
    · exact skip_short (Nat.zero_le size) junk

theorem guards_skipChunk : Guards (Guard.skipChunk sys) (fun _ => Checked.skipChunk sys) := by
  unfold Checked.skipChunk
  rw [readU64_eq]
  exact ((tracks_number true 8).bind fun size => tracks_checkedSkip size).guards
    ((Quiet.readNumber true 8).bind fun size => quiet_checkedSkip size)

theorem guards_field : Guards Walk.field (fun _ => readFs) := by
  refine tracks_field.guards ?_
  unfold readFs
  rw [readU64_eq, readU32_eq]
  exact (Quiet.readNumber true 8).bind fun _ => Quiet.readNumber true 4

theorem guards_chnl : Guards (Walk.chnl sys) (fun _ => readChnl sys) := by
  refine (tracks_chnl sys).guards ?_
  unfold readChnl
  rw [readU64_eq, readU16_eq]
  exact (Quiet.readNumber true 8).bind fun _ => (Quiet.readNumber true 2).bind fun _ =>
    (quiet_skip _).bind fun _ => .pure _

theorem nameSize_eq {size : Nat} (size_lt : size < 2 ^ 64) (le : 5 ≤ size) : nameSize size = size - 5 := by
  unfold nameSize
  omega

theorem checked_comprRest {size : Nat} (size_lt : size < 2 ^ 64) (le : 5 ≤ size) :
    Checked.comprRest sys size = comprRest sys (size - 5) := by
  unfold Checked.comprRest
  simp only [Nat.not_lt.mpr le, if_false, nameSize_eq size_lt le]
  rfl

theorem tracks_wraps {size : Nat} (small : size < 5) :
    Tracks (Strict.expect (ascii "DSD ") >>= fun _ => throw .large) (fun _ => Checked.comprRest sys size) := by
  unfold Checked.comprRest
  refine (tracks_expect _).bind fun _ => ⟨fun left => ?_, ?_⟩
  · refine .of_large fun _ junk => ⟨.fault, nofun, ?_⟩
    rw [bind_ok (readNew_run 1 left junk), if_pos small]
    rfl
  · refine ⟨[], (), fun _ junk => .inr ⟨.fault, nofun, ?_⟩⟩
    change (readNew 1 >>= _) ⟨[], junk⟩ = _
    rw [bind_ok (readNew_run 1 [] junk), if_pos small]
    rfl

theorem tracksAt_checkedRest {size : Nat} (size_lt : size < 2 ^ 64) (left : List UInt8) :
    TracksAt (Guard.comprRest sys size left) (fun _ => Checked.comprRest sys size) left := by
  unfold Guard.comprRest
  split_ifs with small refused
  · exact (tracks_wraps small).inside left
  · rw [checked_comprRest size_lt (Nat.not_lt.mp small)]
    exact .of_wrong fun _ junk => comprRest_fails refused left junk
  · rw [checked_comprRest size_lt (Nat.not_lt.mp small)]
    exact (tracks_comprRest (Nat.not_lt.mp refused)).inside left

theorem adrift_checkedRest {size : Nat} (size_lt : size < 2 ^ 64) (taken : nameSize size ≤ sys.most) :
    Adrift (fun _ => Checked.comprRest sys size) [] := by
  by_cases small : size < 5
  · exact (tracks_wraps small).past
  · rw [nameSize_eq size_lt (Nat.not_lt.mp small)] at taken
    rw [checked_comprRest size_lt (Nat.not_lt.mp small)]
    exact (tracks_comprRest taken).past

theorem tracks_checkedCompr : Tracks (Guard.compr sys) (fun _ => Checked.readCompr sys) := by
  unfold Checked.readCompr
  rw [readU64_eq]
  have inside (left : List UInt8) : TracksAt (Guard.compr sys left)
      (fun _ => readNumber true 8 >>= Checked.comprRest sys) left := by
    unfold Guard.compr
    split_ifs with long fits
    · have size : Strict.number true 8 left = _ := Strict.number_long true long
      have size_lt := number_lt true (left.take 8)
      rw [List.length_take_of_le long] at size_lt
      rw [Reading.Strict.bind_ok size]
      exact ((tracks_number true 8).inside left).bind_found size (tracksAt_checkedRest size_lt _)
    · obtain ⟨bytes, length, taken⟩ := exists_size (Nat.not_le.mp long) fits
      have size_lt := number_lt true (left ++ bytes.drop left.length)
      rw [List.length_append, List.length_drop, length, show left.length + (8 - left.length) = 8 by omega] at size_lt
      exact .of_ended (.after bytes (fun _ junk => .inl
        (readNumber_short true (Nat.le_of_not_le long) length junk)) (adrift_checkedRest size_lt taken))
    · refine .of_wrong fun _ junk => ?_
      obtain ⟨size, size_lt, large, read⟩ := readNumber_large (Nat.not_le.mp long) (Nat.not_le.mp fits) junk
      rw [bind_ok read, checked_comprRest size_lt (by omega)]
      exact comprRest_fails (by omega) _ _
  have past : Guard.compr sys [] = .error .ended := by
    rw [Guard.compr, if_neg (by decide), if_pos]
    exact Nat.zero_le _
  exact ⟨inside, (inside []).ended past⟩

theorem guards_compr : Guards (Guard.compr sys) (fun _ => Checked.readCompr sys) := by
  refine tracks_checkedCompr.guards ?_
  unfold Checked.readCompr Checked.comprRest
  rw [readU64_eq]
  refine (Quiet.readNumber true 8).bind fun size => (Quiet.expect _).bind fun _ => (Quiet.readNew 1).bind fun _ => ?_
  split_ifs
  · exact fun t => nofun
  · exact quiet_readName _

theorem guards_propChunk (tag : List UInt8) (prop : DffProp) :
    Guards (Guard.propChunk sys tag prop) (fun fuel => Checked.handleProp sys fuel tag prop) :=
  .ite (guards_field.bind fun _ => .pure _) <| .ite (guards_chnl.bind fun _ => .pure _) <|
    .ite (guards_compr.bind fun _ => .pure _) <| guards_skipChunk.bind fun _ => .pure _

variable (sys) in
/-- Behind the end of the file no chunk is passed over. -/
theorem drowns_skip {σ : Type} {handle : Nat → List UInt8 → σ → Reader σ} {tag : List UInt8} {s : σ}
    (skips : ∀ fuel, handle fuel tag s = Checked.skipChunk sys >>= fun _ => pure s) : Drowns handle tag s := by
  refine ⟨List.replicate 7 0 ++ [1], fun fuel junk => ?_⟩
  have size : number true (List.replicate 7 0 ++ [1]) = 1 := by decide
  have read : readNumber true 8 ⟨[], (List.replicate 7 0 ++ [1]) ++ₛ junk⟩ = _ :=
    readNumber_short true (by decide) (by decide) junk
  rw [skips, Checked.skipChunk, readU64_eq]
  refine bind_error ((bind_ok read _).trans ?_) _
  exact if_pos (by rw [List.nil_append, List.length_nil, List.drop_zero, size]; decide)

theorem checkedProp_once (fuel : Nat) (tag : List UInt8) (prop : DffProp) (t : Tape) (prop' : DffProp) (t' : Tape)
    (ok : Checked.handleProp sys fuel tag prop t = .ok (prop', t')) : Drowns (Checked.handleProp sys) tag prop' :=
  drowns_skip sys fun _ => propBy_once ok

theorem guards_prop : Guards (Guard.prop sys) (fun fuel => Checked.readDffProp sys fuel) := by
  have number : Guards (Strict.number true 8) (fun _ => readNumber true 8) :=
    (tracks_number true 8).guards (Quiet.readNumber true 8)
  have tag : Guards (Strict.expect (ascii "SND ")) (fun _ => expect (ascii "SND ")) :=
    (tracks_expect _).guards (Quiet.expect _)
  unfold Checked.readDffProp
  rw [readU64_eq]
  exact number.bind fun _ => tag.bind fun _ => guards_freshChunks (fun tag prop => (guards_propChunk tag prop).steady)
    (fun tag prop => (guards_propChunk tag prop).past) checkedProp_once guards_propChunk {}

variable (sys) in
theorem guards_formChunk (tag : List UInt8) (form : DffForm) :
    Guards (Guard.formChunk sys tag form) (fun fuel => Checked.handleForm sys fuel tag form) := by
  have fver : Guards Walk.field (fun _ => readDffFver) := guards_field
  have data : Guards (Strict.number true 8) (fun _ => readDffDsdData) := by
    rw [readDffDsdData, readU64_eq]
    exact (tracks_number true 8).guards (Quiet.readNumber true 8)
  exact .ite (fver.bind fun _ => .pure _) <| .ite (guards_prop.bind fun _ => .pure _) <|
    .ite (data.bind fun _ => .pure _) <| guards_skipChunk.bind fun _ => .pure _

theorem checkedForm_once (fuel : Nat) (tag : List UInt8) (form : DffForm) (t : Tape) (form' : DffForm) (t' : Tape)
    (ok : Checked.handleForm sys fuel tag form t = .ok (form', t')) : Drowns (Checked.handleForm sys) tag form' :=
  drowns_skip sys fun _ => formBy_once ok _

/-! ## The chunks of a form -/

theorem data_found {form : DffForm} {tag : List UInt8} (is_data : Guard.data form tag = true) :
    form.version.isSome = true ∧ form.prop.isSome = true := by
  unfold Guard.data at is_data
  simp only [Bool.and_eq_true] at is_data
  exact is_data.1.1

theorem formBy_data {fver data : Reader Nat} {prop : Reader DffProp} {skip : Reader Unit} {tag : List UInt8}
    {form : DffForm} (is_data : Guard.data form tag = true) : formBy fver prop data skip tag form =
      data >>= fun chunkSize => pure { form with dsdData := some chunkSize } := by
  obtain ⟨version, prop⟩ := data_found is_data
  obtain ⟨_, version⟩ := Option.isSome_iff_exists.mp version
  obtain ⟨_, prop⟩ := Option.isSome_iff_exists.mp prop
  rw [formBy, if_neg (by simp [version]), if_neg (by simp [prop])]
  exact if_pos is_data

/-- Only the chunk of the data is the last one. -/
theorem formBy_not_done {fver data : Reader Nat} {prop : Reader DffProp} {skip : Reader Unit} {tag : List UInt8}
    {form form' : DffForm} {t t' : Tape} (not_done : form.done = false) (not_data : Guard.data form tag = false)
    (ok : formBy fver prop data skip tag form t = .ok (form', t')) : form'.done = false := by
  unfold formBy at ok
  split_ifs at ok with is_fver is_prop is_data
  · obtain ⟨version, v, -, ok⟩ := bind_inv ok
    obtain ⟨rfl, -⟩ := Prod.mk.inj (Except.ok.inj ok)
    obtain ⟨⟨⟨-, no_prop⟩, -⟩, -⟩ : ((_ ∧ form.prop = none) ∧ _) ∧ _ := by simpa using is_fver
    simp [DffForm.done, no_prop]
  · obtain ⟨found, v, -, ok⟩ := bind_inv ok
    obtain ⟨rfl, -⟩ := Prod.mk.inj (Except.ok.inj ok)
    obtain ⟨⟨-, no_data⟩, -⟩ : (_ ∧ form.dsdData = none) ∧ _ := by simpa using is_prop
    simp [DffForm.done, no_data]
  · cases not_data.symm.trans is_data
  · obtain ⟨_, v, -, ok⟩ := bind_inv ok
    obtain ⟨rfl, -⟩ := Prod.mk.inj (Except.ok.inj ok)
    exact not_done

/-- The loop stops at none of the checks. -/
def Passes (sys : System) (form : DffForm) (tag left : List UInt8) : Prop := ∀ fuel junk,
  chunks DffForm.done (Checked.handleForm sys) fuel tag form ⟨left, junk⟩ ≠ .error .fault

theorem passes_done {form : DffForm} (is_done : form.done = true) (tag left : List UInt8) : Passes sys form tag left := by
  intro fuel junk fault
  cases fuel with
  | zero => cases fault
  | succ fuel =>
    rw [chunks, if_pos is_done] at fault
    cases fault

/-- The size of the data is used for no array. -/
theorem passes_data {form : DffForm} {tag left : List UInt8} (not_done : form.done = false) (tag_length : tag.length = 4)
    (is_data : Guard.data form (left.take 4 ++ tag.drop left.length) = true) : Passes sys form tag left := by
  intro fuel junk
  cases fuel with
  | zero => nofun
  | succ fuel =>
    rw [chunks_turn not_done, tag_length, Checked.handleForm, formBy_data is_data, readDffDsdData, readU64_eq]
    have read := bind_ok (readNew_run 8 (left.drop 4) junk) fun bytes => pure (number true bytes)
    rw [bind_ok (bind_ok read _)]
    refine passes_done ?_ _ _ fuel _
    obtain ⟨version, prop⟩ := data_found is_data
    simp only [DffForm.done, version, prop, Option.isSome_some, Bool.and_self]

theorem steady_handleForm (tag : List UInt8) (form : DffForm) : Steady fun fuel => Checked.handleForm sys fuel tag form :=
  (guards_formChunk sys tag form).steady

/-- Where a chunk may be behind the end of the file, the loop can stop at a check. -/
theorem not_passes {form : DffForm} {tag left : List UInt8} (not_done : form.done = false) (tag_length : tag.length = 4)
    (not_data : Guard.data form (left.take 4 ++ tag.drop left.length) = false)
    (perils : Perils (fun fuel => Checked.handleForm sys fuel (left.take 4 ++ tag.drop left.length) form) (left.drop 4)) :
    ¬ Passes sys form tag left := by
  obtain ⟨bytes, fuel, fault⟩ := perils.chunks steady_handleForm fun fuel t form' t' ok =>
    ⟨formBy_not_done not_done not_data ok, checkedForm_once fuel _ form t form' t' ok⟩
  intro passes
  refine passes (fuel + 1) (bytes ++ₛ Stream'.const 0) ?_
  rw [chunks_turn not_done, tag_length]
  exact fault _

theorem passes_wrong {form : DffForm} {tag left : List UInt8} (not_done : form.done = false) (tag_length : tag.length = 4)
    (long : 4 ≤ left.length) (wrong : Guard.formChunk sys (left.take 4) form (left.drop 4) = .error .wrong) :
    Passes sys form tag left := by
  intro fuel junk
  cases fuel with
  | zero => nofun
  | succ fuel =>
    rw [chunks_turn_long not_done tag_length long]
    rcases ((guards_formChunk sys _ form).inside _).wrong wrong fuel junk with failed | running
    · rw [bind_error failed]
      nofun
    · rw [bind_error running]
      nofun

theorem passes_next {form form' : DffForm} {tag left rest : List UInt8} (not_done : form.done = false)
    (tag_length : tag.length = 4) (long : 4 ≤ left.length)
    (ok : Guard.formChunk sys (left.take 4) form (left.drop 4) = .ok (form', rest)) :
    Passes sys form tag left ↔ Passes sys form' (left.take 4) rest := by
  obtain ⟨-, k, turns, found⟩ := ((guards_formChunk sys _ form).inside _).found form' rest ok
  constructor
  · intro passes fuel junk fault
    refine passes (turns + fuel + 1) (List.replicate k 0 ++ₛ junk) ?_
    have dropped := Stream'.drop_append_stream (List.replicate k (0 : UInt8)) junk
    rw [List.length_replicate] at dropped
    have first := found (List.replicate k 0 ++ₛ junk)
    rw [dropped] at first
    rw [chunks_turn_long not_done tag_length long, bind_ok ((steady_handleForm _ form).more first nofun fuel), Nat.add_comm turns]
    exact (steady_chunks steady_handleForm _ form').more fault nofun turns
  · intro passes fuel junk
    cases fuel with
    | zero => nofun
    | succ fuel =>
      rw [chunks_turn_long not_done tag_length long]
      rcases (steady_handleForm _ form).or_running (found junk) nofun fuel with ok | running
      · rw [bind_ok ok]
        exact passes fuel _
      · rw [bind_error running]
        nofun

theorem passes_iff (bound : Nat) (form : DffForm) (tag left : List UInt8) (tag_length : tag.length = 4)
    (enough : left.length < bound) : Passes sys form tag left ↔ Guard.chunks sys bound form tag left = true := by
  induction bound generalizing form tag left with
  | zero => exact absurd enough (Nat.not_lt_zero _)
  | succ bound ih =>
    rw [Guard.chunks]
    cases is_done : form.done with
    | true => exact iff_of_true (passes_done is_done tag left) rfl
    | false =>
      rw [Bool.false_or]
      cases is_data : Guard.data form (left.take 4 ++ tag.drop left.length) with
      | true => exact iff_of_true (passes_data is_done tag_length is_data) rfl
      | false =>
        rw [if_neg Bool.false_ne_true]
        by_cases short : left.length < 4
        · rw [if_pos short]
          refine iff_of_false (not_passes is_done tag_length is_data ?_) Bool.false_ne_true
          rw [List.drop_of_length_le short.le]
          exact (guards_formChunk sys _ form).past
        · rw [if_neg short]
          have whole : left.take 4 ++ tag.drop left.length = left.take 4 := by
            rw [List.drop_of_length_le (by omega), List.append_nil]
          have guards : GuardsAt _ _ _ := (guards_formChunk sys (left.take 4) form).inside (left.drop 4)
          cases result : Guard.formChunk sys (left.take 4) form (left.drop 4) with
          | ok x =>
            have shorter := (guards.found x.1 x.2 result).1
            rw [List.length_drop] at shorter
            refine (passes_next is_done tag_length (Nat.not_lt.mp short) result).trans ?_
            exact ih x.1 (left.take 4) x.2 (List.length_take_of_le (Nat.not_lt.mp short)) (by omega)
          | error e =>
            cases e with
            | wrong => exact iff_of_true (passes_wrong is_done tag_length (Nat.not_lt.mp short) result) rfl
            | ended =>
              refine iff_of_false (not_passes is_done tag_length is_data ?_) Bool.false_ne_true
              rw [whole]
              exact guards.perils (.inl result)
            | large =>
              refine iff_of_false (not_passes is_done tag_length is_data ?_) Bool.false_ne_true
              rw [whole]
              exact guards.perils (.inr result)

/-! ## The file -/

theorem guards_header : Guards Guard.header (fun _ => Checked.readHeader) := by
  unfold Checked.readHeader
  rw [readU64_eq]
  exact ((tracks_expect _).bind fun _ => (tracks_number true 8).bind fun _ => tracks_expect _).guards
    ((Quiet.expect _).bind fun _ => (Quiet.readNumber true 8).bind fun _ => Quiet.expect _)

/-- The chunks behind a new variable for their tags. -/
def formChunks (sys : System) (fuel : Nat) : Reader DffForm := fresh 4 >>= fun tag =>
  chunks DffForm.done (Checked.handleForm sys) fuel tag {}

/-- As nothing has been found, what the variable of the tag held does not matter. -/
theorem chunks_start (bound : Nat) (tag tag' left : List UInt8) :
    Guard.chunks sys (bound + 1) {} tag left = Guard.chunks sys (bound + 1) {} tag' left := rfl

theorem formChunks_iff (left : List UInt8) : (∀ fuel junk, formChunks sys fuel ⟨left, junk⟩ ≠ .error .fault) ↔
    Guard.chunks sys (left.length + 1) {} (List.replicate 4 0) left = true := by
  constructor
  · intro passes
    refine (passes_iff _ {} _ left List.length_replicate (Nat.lt_succ_self _)).mp fun fuel junk fault => ?_
    refine passes fuel (List.replicate 4 0 ++ₛ junk) ?_
    exact (bind_ok (fresh_bytes (List.replicate 4 0) left junk) _).trans fault
  · intro walk fuel junk
    rw [chunks_start _ _ (junk.take 4)] at walk
    exact (passes_iff _ {} _ left (Stream'.length_take 4 junk) (Nat.lt_succ_self _)).mpr walk fuel (junk.drop 4)

/-- The reader with the checks stops at none of them exactly when the chunks up to the data are within
the file and the arrays, or have wrong bytes. -/
theorem guarded_iff (sys : System) (file : List UInt8) : Guarded sys file ↔ GuardWalk sys file := by
  have header : GuardsAt (Guard.header file) _ file := guards_header.inside file
  have not_guarded (short : Guard.header file = .error .ended ∨ Guard.header file = .error .large) : ¬ Guarded sys file := by
    obtain ⟨bytes, fuel, perils⟩ := header.perils short
    have none_found : ¬ ∀ fuel junk, formChunks sys fuel ⟨[], junk⟩ ≠ .error .fault := fun passes =>
      Bool.false_ne_true ((formChunks_iff []).mp passes)
    push Not at none_found
    obtain ⟨fuel', junk, fault⟩ := none_found
    intro guarded
    refine guarded fuel' (bytes ++ₛ junk) ?_
    rcases perils with header_fault | ⟨a, goes⟩
    · exact bind_error (header_fault junk) _
    · rcases goes junk with header_fault | ok
      · exact bind_error header_fault _
      · exact (bind_ok ok _).trans fault
  unfold GuardWalk
  cases result : Guard.header file with
  | ok x =>
    obtain ⟨-, k, -, found⟩ := header.found x.1 x.2 result
    refine Iff.trans ⟨fun guarded fuel junk fault => ?_, fun passes fuel junk => ?_⟩ (formChunks_iff x.2)
    · have dropped := Stream'.drop_append_stream (List.replicate k (0 : UInt8)) junk
      rw [List.length_replicate] at dropped
      refine guarded fuel (List.replicate k 0 ++ₛ junk) ((bind_ok (found _) _).trans ?_)
      rw [dropped]
      exact fault
    · change (Checked.readHeader >>= fun _ => formChunks sys fuel) ⟨file, junk⟩ ≠ _
      rw [bind_ok (found junk)]
      exact passes fuel _
  | error e =>
    cases e with
    | wrong =>
      refine iff_of_true (fun fuel junk => ?_) trivial
      change (Checked.readHeader >>= fun _ => formChunks sys fuel) ⟨file, junk⟩ ≠ _
      rcases header.wrong result 0 junk with failed | running
      · rw [bind_error failed]
        nofun
      · rw [bind_error running]
        nofun
    | ended => exact iff_of_false (not_guarded (.inl result)) id
    | large => exact iff_of_false (not_guarded (.inr result)) id

/-- A chunk of one byte that the file does not have any more. -/
theorem not_guarded_short : ¬ Guarded ⟨8 * 2 ^ 20, by decide, 2 ^ 63 - 1, by decide⟩
    (ascii "FRM8" ++ List.replicate 8 0 ++ ascii "DSD " ++ (ascii "XXXX" ++ (List.replicate 7 0 ++ [1]))) :=
  fun guarded => guarded 1 (Stream'.const 0) rfl

end Guards

end ImxTest.Dsd
