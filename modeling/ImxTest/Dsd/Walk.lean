import ImxTest.Dsd.Dff

/-! The walk over the chunks of a DSDIFF file, which stops where the file ends, and the
reader beside it. -/
namespace ImxTest.Dsd

open Lib Reading BitString

variable (sys : System)

namespace Walk

def skipChunk : Strict Unit := do
  let size ← Strict.number true 8
  Strict.skip sys size

/-- A size, whatever it is, and a number of four bytes. -/
def field : Strict Nat := do
  let _ ← Strict.number true 8
  Strict.number true 4

def chnl : Strict Nat := do
  let _ ← Strict.number true 8
  let numChannels ← Strict.number true 2
  Strict.skip sys (4 * numChannels)
  pure numChannels

def name (size : Nat) : Strict Unit := fun left =>
  if 256 < min size left.length then .error .large
  else if size ≤ left.length then .ok ((), left.drop size)
  else .error .ended

/-- A size that `read` does not take for the name is wrong, and so is the front of such
sizes. -/
def compr : Strict Unit := fun left =>
  if 8 ≤ left.length then
    (do
      let size ← Strict.number true 8
      if sys.most < nameSize size then throw Miss.wrong
      else do
        Strict.expect (ascii "DSD ")
        let _ ← Strict.take 1
        name (nameSize size)) left
  else if number true left * 2 ^ (8 * (8 - left.length)) ≤ sys.most + 5 then .error .ended
  else .error .wrong

def propChunk (tag : List UInt8) (prop : DffProp) : Strict DffProp :=
  if prop.fs.isNone && tag == ascii "FS  " then
    field >>= fun sampleRate => pure { prop with fs := some sampleRate }
  else if prop.chnl.isNone && tag == ascii "CHNL" then
    chnl sys >>= fun numChannels => pure { prop with chnl := some numChannels }
  else if !prop.compr && tag == ascii "CMPR" then
    compr sys >>= fun _ => pure { prop with compr := true }
  else skipChunk sys >>= fun _ => pure prop

def prop : Strict DffProp := do
  let _ ← Strict.number true 8
  Strict.expect (ascii "SND ")
  Strict.allChunks DffProp.done (propChunk sys) {}

def formChunk (tag : List UInt8) (form : DffForm) : Strict DffForm :=
  if form.version.isNone && form.prop.isNone && form.dsdData.isNone && tag == ascii "FVER" then
    field >>= fun version => pure { form with version := some version }
  else if form.version.isSome && form.prop.isNone && form.dsdData.isNone && tag == ascii "PROP" then
    prop sys >>= fun prop => pure { form with prop := some prop }
  else if form.version.isSome && form.prop.isSome && form.dsdData.isNone && tag == ascii "DSD " then
    Strict.number true 8 >>= fun size => pure { form with dsdData := some size }
  else skipChunk sys >>= fun _ => pure form

def form : Strict DffForm := do
  Strict.expect (ascii "FRM8")
  let _ ← Strict.number true 8
  Strict.expect (ascii "DSD ")
  Strict.allChunks DffForm.done (formChunk sys) {}

end Walk

/-! ## Chunks by their tags -/

section Dispatch
variable {m : Type → Type} [Monad m]

/-- The chunk of a property that has the tag, with what reads each kind. -/
def propBy (fs chnl : m Nat) (compr skip : m Unit) (tag : List UInt8) (prop : DffProp) : m DffProp :=
  if prop.fs.isNone && tag == ascii "FS  " then
    fs >>= fun sampleRate => pure { prop with fs := some sampleRate }
  else if prop.chnl.isNone && tag == ascii "CHNL" then
    chnl >>= fun numChannels => pure { prop with chnl := some numChannels }
  else if !prop.compr && tag == ascii "CMPR" then
    compr >>= fun _ => pure { prop with compr := true }
  else skip >>= fun _ => pure prop

/-- The chunk of a form that has the tag. -/
def formBy (fver : m Nat) (prop : m DffProp) (data : m Nat) (skip : m Unit) (tag : List UInt8) (form : DffForm) :
    m DffForm :=
  if form.version.isNone && form.prop.isNone && form.dsdData.isNone && tag == ascii "FVER" then
    fver >>= fun version => pure { form with version := some version }
  else if form.version.isSome && form.prop.isNone && form.dsdData.isNone && tag == ascii "PROP" then
    prop >>= fun prop => pure { form with prop := some prop }
  else if form.version.isSome && form.prop.isSome && form.dsdData.isNone && tag == ascii "DSD " then
    data >>= fun chunkSize => pure { form with dsdData := some chunkSize }
  else skip >>= fun _ => pure form

end Dispatch

theorem handleProp_eq (fuel : Nat) (tag : List UInt8) (prop : DffProp) : handleProp sys fuel tag prop =
    propBy readFs (readChnl sys) (readCompr sys) (skipChunk sys) tag prop := rfl

theorem handleForm_eq (fuel : Nat) (tag : List UInt8) (form : DffForm) : handleForm sys fuel tag form =
    formBy readDffFver (readDffProp sys fuel) readDffDsdData (skipChunk sys) tag form := rfl

/-- A chunk that has been found is not looked for any more. -/
theorem propBy_once {fs chnl : Reader Nat} {compr skip : Reader Unit} {tag : List UInt8} {prop prop' : DffProp} {t t' : Tape}
    (ok : propBy fs chnl compr skip tag prop t = .ok (prop', t')) :
    propBy fs chnl compr skip tag prop' = skip >>= fun _ => pure prop' := by
  unfold propBy at ok ⊢
  split_ifs at ok with is_fs is_chnl is_compr
  · obtain ⟨rate, v, -, ok⟩ := bind_inv ok
    obtain ⟨rfl, -⟩ := Prod.mk.inj (Except.ok.inj ok)
    obtain ⟨-, rfl⟩ : prop.fs = none ∧ tag = ascii "FS  " := by simpa using is_fs
    rw [if_neg (by simp), if_neg (by simp [show ascii "FS  " ≠ ascii "CHNL" by decide]),
      if_neg (by simp [show ascii "FS  " ≠ ascii "CMPR" by decide])]
  · obtain ⟨channels, v, -, ok⟩ := bind_inv ok
    obtain ⟨rfl, -⟩ := Prod.mk.inj (Except.ok.inj ok)
    obtain ⟨-, rfl⟩ : prop.chnl = none ∧ tag = ascii "CHNL" := by simpa using is_chnl
    rw [if_neg is_fs, if_neg (by simp), if_neg (by simp [show ascii "CHNL" ≠ ascii "CMPR" by decide])]
  · obtain ⟨_, v, -, ok⟩ := bind_inv ok
    obtain ⟨rfl, -⟩ := Prod.mk.inj (Except.ok.inj ok)
    rw [if_neg is_fs, if_neg is_chnl, if_neg (by simp)]
  · obtain ⟨_, v, -, ok⟩ := bind_inv ok
    obtain ⟨rfl, -⟩ := Prod.mk.inj (Except.ok.inj ok)
    rw [if_neg is_fs, if_neg is_chnl, if_neg is_compr]

/-- Whatever then reads a property. -/
theorem formBy_once {fver data : Reader Nat} {prop : Reader DffProp} {skip : Reader Unit} {tag : List UInt8}
    {form form' : DffForm} {t t' : Tape} (ok : formBy fver prop data skip tag form t = .ok (form', t'))
    (later : Reader DffProp) : formBy fver later data skip tag form' = skip >>= fun _ => pure form' := by
  unfold formBy at ok ⊢
  split_ifs at ok with is_fver is_prop is_data
  · obtain ⟨version, v, -, ok⟩ := bind_inv ok
    obtain ⟨rfl, -⟩ := Prod.mk.inj (Except.ok.inj ok)
    obtain ⟨-, rfl⟩ : (_ ∧ _) ∧ tag = ascii "FVER" := by simpa using is_fver
    rw [if_neg (by simp), if_neg (by simp [show ascii "FVER" ≠ ascii "PROP" by decide]),
      if_neg (by simp [show ascii "FVER" ≠ ascii "DSD " by decide])]
  · obtain ⟨found, v, -, ok⟩ := bind_inv ok
    obtain ⟨rfl, -⟩ := Prod.mk.inj (Except.ok.inj ok)
    obtain ⟨-, rfl⟩ : (_ ∧ _) ∧ tag = ascii "PROP" := by simpa using is_prop
    rw [if_neg (by simp), if_neg (by simp), if_neg (by simp [show ascii "PROP" ≠ ascii "DSD " by decide])]
  · obtain ⟨size, v, -, ok⟩ := bind_inv ok
    obtain ⟨rfl, -⟩ := Prod.mk.inj (Except.ok.inj ok)
    rw [if_neg (by simp), if_neg (by simp), if_neg (by simp)]
  · obtain ⟨_, v, -, ok⟩ := bind_inv ok
    obtain ⟨rfl, -⟩ := Prod.mk.inj (Except.ok.inj ok)
    rw [if_neg is_fver, if_neg is_prop, if_neg is_data]

/-! ## The reader beside the walk -/

theorem tracks_skipChunk : Tracks (Walk.skipChunk sys) (fun _ => skipChunk sys) := by
  unfold skipChunk
  rw [readU64_eq]
  exact (tracks_number true 8).bind fun size => tracks_skip sys size

theorem tracks_field : Tracks Walk.field (fun _ => readFs) := by
  unfold readFs
  rw [readU64_eq, readU32_eq]
  exact (tracks_number true 8).bind fun _ => tracks_number true 4

theorem tracks_chnl : Tracks (Walk.chnl sys) (fun _ => readChnl sys) := by
  unfold readChnl
  rw [readU64_eq, readU16_eq]
  exact (tracks_number true 8).bind fun _ => (tracks_number true 2).bind fun numChannels =>
    (tracks_skip sys _).bind fun _ => Tracks.pure numChannels

variable {sys}

theorem readName_short {size : Nat} {left : List UInt8} (taken : size ≤ sys.most)
    (short : left.length ≤ size) (junk : Stream' UInt8) :
    Goes (readName sys size ⟨left, junk⟩) ((), ⟨[], junk⟩) := by
  unfold readName
  rw [if_neg (Nat.not_lt.mpr taken)]
  split_ifs with large
  · exact .inr ⟨.fault, nofun, rfl⟩
  · exact .inl (by rw [List.drop_of_length_le short])

theorem tracks_name {size : Nat} (taken : size ≤ sys.most) :
    Tracks (Walk.name size) (fun _ => readName sys size) where
  inside left := by
    unfold Walk.name
    split_ifs with large long
    · exact .of_large fun _ junk => ⟨.fault, nofun, by rw [readName, if_neg (Nat.not_lt.mpr taken), if_pos large]⟩
    · refine .of_ok 0 (by rw [List.length_drop]; exact Nat.sub_le ..) fun _ junk => ?_
      rw [readName, if_neg (Nat.not_lt.mpr taken), if_neg large]
      rfl
    · exact .of_ended ⟨[], (), fun _ => readName_short taken (Nat.le_of_not_le long)⟩
  past := ⟨[], (), fun _ => readName_short taken (Nat.zero_le size)⟩

/-- What follows the size of the compression chunk. -/
def comprRest (sys : System) (size : Nat) : Reader Unit := do
  expect (ascii "DSD ")
  let _ ← readNew 1
  readName sys size

theorem tracks_comprRest {size : Nat} (taken : size ≤ sys.most) :
    Tracks (Strict.expect (ascii "DSD ") >>= fun _ => Strict.take 1 >>= fun _ => Walk.name size)
      (fun _ => comprRest sys size) :=
  (tracks_expect _).bind fun _ => (tracks_readNew 1).bind fun _ => tracks_name taken

theorem comprRest_fails {size : Nat} (refused : sys.most < size) (left : List UInt8) (junk : Stream' UInt8) :
    comprRest sys size ⟨left, junk⟩ = .error .failed := by
  unfold comprRest
  have tag := expect_run (readNew_run (ascii "DSD ").length left junk)
  split_ifs at tag
  · rw [bind_ok tag, bind_ok (readNew_run 1 _ _), readName, if_pos refused]
  · exact bind_error tag _

/-- Bytes of a size that has ended can go on to a name that is taken. -/
theorem exists_size {left : List UInt8} {most : Nat} (short : left.length < 8)
    (fits : number true left * 2 ^ (8 * (8 - left.length)) ≤ most + 5) :
    ∃ bytes : List UInt8, bytes.length = 8 ∧
      nameSize (number true (left ++ bytes.drop left.length)) ≤ most := by
  obtain ⟨k, length⟩ : ∃ k, 8 - left.length = k + 1 := ⟨7 - left.length, by omega⟩
  have zeros (n : Nat) : word (List.replicate n 0) = 0 := by
    induction n with
    | zero => rfl
    | succ n ih =>
      rw [List.replicate_succ', word_concat, ih]
      rfl
  have behind (bytes : List UInt8) (bytes_length : bytes.length = k + 1) :
      number true (left ++ (List.replicate left.length 0 ++ bytes).drop left.length) =
        number true left * 2 ^ (8 * (k + 1)) + word bytes := by
    have dropped : (List.replicate left.length (0 : UInt8) ++ bytes).drop
        (List.replicate left.length (0 : UInt8)).length = bytes := List.drop_left
    rw [List.length_replicate] at dropped
    rw [dropped, number_append, if_pos rfl, bytes_length]
    rfl
  rw [length] at fits
  rcases Nat.eq_zero_or_pos (number true left) with none | some
  · refine ⟨List.replicate left.length 0 ++ (List.replicate k 0 ++ [5]), by simp; omega, ?_⟩
    rw [behind _ (by simp), none, word_concat, zeros, Nat.zero_mul, Nat.zero_mul]
    simp [nameSize]
  · refine ⟨List.replicate left.length 0 ++ List.replicate (k + 1) 0, by simp; omega, ?_⟩
    have small := number_lt true (left ++ List.replicate (k + 1) 0)
    have large : 2 ^ 8 ≤ 2 ^ (8 * (k + 1)) := Nat.pow_le_pow_right (by decide) (by omega)
    have grows := Nat.le_mul_of_pos_left (2 ^ (8 * (k + 1))) some
    rw [number_append, if_pos rfl, List.length_append, List.length_replicate,
      show left.length + (k + 1) = 8 by omega] at small
    rw [behind _ (by simp), zeros]
    unfold nameSize
    omega

/-- Bytes of a size that has ended can only go on to a larger one. -/
theorem readNumber_large {left : List UInt8} {bound : Nat} (short : left.length < 8)
    (large : bound < number true left * 2 ^ (8 * (8 - left.length))) (junk : Stream' UInt8) :
    ∃ size, size < 2 ^ 64 ∧ bound < size ∧ readNumber true 8 ⟨left, junk⟩ = .ok (size, ⟨[], junk.drop 8⟩) := by
  have read := bind_ok (readNew_run 8 left junk) fun bytes => pure (number true bytes)
  rw [List.take_of_length_le short.le, List.drop_of_length_le short.le] at read
  generalize filled : (junk.take 8).drop left.length = bytes at read
  have length : bytes.length = 8 - left.length := by
    rw [← filled, List.length_drop, Stream'.length_take]
  have small := number_lt true (left ++ bytes)
  rw [List.length_append, length, show left.length + (8 - left.length) = 8 by omega] at small
  have value := number_append true left bytes
  rw [if_pos rfl, length] at value
  exact ⟨_, small, by omega, read⟩

theorem tracks_compr : Tracks (Walk.compr sys) (fun _ => readCompr sys) := by
  have split : readCompr sys = readNumber true 8 >>= fun size => comprRest sys (nameSize size) := by
    rw [readCompr, readU64_eq]
    rfl
  rw [split]
  have inside (left : List UInt8) : TracksAt (Walk.compr sys left)
      (fun _ => readNumber true 8 >>= fun size => comprRest sys (nameSize size)) left := by
    unfold Walk.compr
    split_ifs with long fits
    · have size : Strict.number true 8 left = _ := Strict.number_long true long
      rw [Reading.Strict.bind_ok size]
      refine ((tracks_number true 8).inside left).bind_found size ?_
      split_ifs with refused
      · exact .of_wrong fun _ => comprRest_fails refused _
      · exact (tracks_comprRest (Nat.not_lt.mp refused)).inside _
    · obtain ⟨bytes, length, taken⟩ := exists_size (Nat.not_le.mp long) fits
      exact .of_ended (.after bytes (fun _ junk => .inl
        (readNumber_short true (Nat.le_of_not_le long) length junk)) (tracks_comprRest taken).past)
    · refine .of_wrong fun _ junk => ?_
      obtain ⟨size, size_lt, large, read⟩ := readNumber_large (Nat.not_le.mp long) (Nat.not_le.mp fits) junk
      rw [bind_ok read]
      refine comprRest_fails ?_ _ _
      unfold nameSize
      omega
  have past : Walk.compr sys [] = .error .ended := by
    rw [Walk.compr, if_neg (by decide), if_pos]
    exact Nat.zero_le _
  exact ⟨inside, (inside []).ended past⟩

theorem tracks_propChunk (tag : List UInt8) (prop : DffProp) :
    Tracks (Walk.propChunk sys tag prop) (fun fuel => handleProp sys fuel tag prop) :=
  .ite (tracks_field.bind fun _ => .pure _) <|
    .ite ((tracks_chnl sys).bind fun _ => .pure _) <|
      .ite (tracks_compr.bind fun _ => .pure _) <| (tracks_skipChunk sys).bind fun _ => .pure _

variable (sys) in
/-- A chunk that is passed over is passed over again. -/
theorem stuck_skip {σ : Type} {handle : Nat → List UInt8 → σ → Reader σ} {tag : List UInt8} {s : σ}
    (skips : ∀ fuel, handle fuel tag s = skipChunk sys >>= fun _ => pure s) : Stuck handle tag s := by
  intro fuel junk
  refine ⟨junk.drop 8, ?_⟩
  rw [skips, skipChunk, readU64_eq]
  refine bind_goes (a := ()) (bind_goes (.inl (bind_ok (readNew_run 8 [] junk) _)) ?_) (.inl rfl)
  exact skip_short (Nat.zero_le _) _

theorem handleProp_once (fuel : Nat) (tag : List UInt8) (prop : DffProp) (t : Tape) (prop' : DffProp)
    (t' : Tape) (ok : handleProp sys fuel tag prop t = .ok (prop', t')) :
    Stuck (handleProp sys) tag prop' := by
  refine stuck_skip sys fun fuel' => ?_
  rw [handleProp_eq] at ok ⊢
  exact propBy_once ok

theorem tracks_prop : Tracks (Walk.prop sys) (fun fuel => readDffProp sys fuel) := by
  unfold readDffProp
  rw [readU64_eq]
  exact (tracks_number true 8).bind fun _ => (tracks_expect _).bind fun _ =>
    tracks_freshChunks (fun tag prop => (tracks_propChunk tag prop).past) handleProp_once
      tracks_propChunk {}

theorem tracks_formChunk (tag : List UInt8) (form : DffForm) :
    Tracks (Walk.formChunk sys tag form) (fun fuel => handleForm sys fuel tag form) := by
  have fver : Tracks Walk.field (fun _ => readDffFver) := tracks_field
  have data : Tracks (Strict.number true 8) (fun _ => readDffDsdData) := by
    rw [readDffDsdData, readU64_eq]
    exact tracks_number true 8
  exact .ite (fver.bind fun _ => .pure _) <| .ite (tracks_prop.bind fun _ => .pure _) <|
    .ite (data.bind fun _ => .pure _) <| (tracks_skipChunk sys).bind fun _ => .pure _

theorem handleForm_once (fuel : Nat) (tag : List UInt8) (form : DffForm) (t : Tape) (form' : DffForm)
    (t' : Tape) (ok : handleForm sys fuel tag form t = .ok (form', t')) :
    Stuck (handleForm sys) tag form' := by
  refine stuck_skip sys fun fuel' => ?_
  rw [handleForm_eq] at ok ⊢
  exact formBy_once ok _

theorem tracks_form : Tracks (Walk.form sys) (fun fuel => readDffForm sys fuel) := by
  unfold readDffForm
  rw [readU64_eq]
  exact (tracks_expect _).bind fun _ => (tracks_number true 8).bind fun _ => (tracks_expect _).bind fun _ =>
    tracks_freshChunks (fun tag form => (tracks_formChunk tag form).past) handleForm_once
      tracks_formChunk {}

/-! ## Ends of files -/

/-- The reader ends, whatever its new variables hold: with what a walk over the chunks finds,
or else with an error. -/
def Settles (sys : System) (file : List UInt8) : Prop := ∀ junk, ∃ turns, ∀ fuel, turns ≤ fuel →
  match Walk.form sys file with
  | .ok (form, _) => ∃ t, readDffFile sys fuel ⟨file, junk⟩ = .ok (form.params, t)
  | .error _ => readDffFile sys fuel ⟨file, junk⟩ = .error .failed

/-- The walk ends before the file does, or finds wrong bytes, and nothing on its way is too
large. -/
def Walks (sys : System) (file : List UInt8) : Prop :=
  Walk.form sys file ≠ .error .ended ∧ Walk.form sys file ≠ .error .large

theorem readDffFile_failed {fuel : Nat} {t : Tape} (failed : readDffFile sys fuel t = .error .failed) :
    readDffForm sys fuel t = .error .failed := by
  unfold readDffFile at failed
  rw [bind_run] at failed
  cases form : readDffForm sys fuel t with
  | error e =>
    rw [form] at failed
    exact congrArg Except.error (Except.error.inj failed)
  | ok x =>
    rw [form] at failed
    cases failed

theorem Settles.not_ended {file : List UInt8} (settles : Settles sys file) :
    Walk.form sys file ≠ .error .ended := by
  intro walk
  obtain ⟨bytes, form, goes⟩ := (tracks_form.inside file).ended walk
  have settles := settles (Stream'.appendStream' bytes (Stream'.const 0))
  rw [walk] at settles
  obtain ⟨turns, failed⟩ := settles
  have failed := readDffFile_failed (failed turns (le_refl _))
  rcases goes turns (Stream'.const 0) with ok | ⟨e, plain, error⟩
  · cases ok.symm.trans failed
  · exact absurd (Except.error.inj (error.symm.trans failed)) plain

theorem Settles.not_large {file : List UInt8} (settles : Settles sys file) :
    Walk.form sys file ≠ .error .large := by
  intro walk
  have settles := settles (Stream'.const 0)
  rw [walk] at settles
  obtain ⟨turns, failed⟩ := settles
  have failed := readDffFile_failed (failed turns (le_refl _))
  obtain ⟨e, plain, error⟩ := (tracks_form.inside file).large walk turns (Stream'.const 0)
  exact absurd (Except.error.inj (error.symm.trans failed)) plain

theorem Walks.settles {file : List UInt8} (walks : Walks sys file) : Settles sys file := by
  intro junk
  have tracks : TracksAt (Walk.form sys file) (fun fuel => readDffForm sys fuel) file :=
    tracks_form.inside file
  cases walk : Walk.form sys file with
  | ok x =>
    obtain ⟨-, k, turns, found⟩ := tracks.found x.1 x.2 walk
    refine ⟨turns, fun fuel enough => ⟨⟨x.2, junk.drop k⟩, ?_⟩⟩
    exact bind_ok ((found fuel junk).resolve_right fun few => absurd enough (Nat.not_le.mpr few.1)) _
  | error e =>
    cases e with
    | wrong =>
      obtain ⟨turns, failed⟩ := tracks.wrong walk
      exact ⟨turns, fun fuel enough => bind_error (failed fuel enough junk) _⟩
    | ended => exact absurd walk walks.1
    | large => exact absurd walk walks.2

theorem readDffFile_settles_iff (sys : System) (file : List UInt8) : Settles sys file ↔ Walks sys file :=
  ⟨fun settles => ⟨settles.not_ended, settles.not_large⟩, Walks.settles⟩

/-- The header of a form and nothing behind it: the loop waits for its chunks for ever. -/
theorem readDffFile_waits : ¬ Settles ⟨8 * 2 ^ 20, by decide, 2 ^ 63 - 1, by decide⟩
    (ascii "FRM8" ++ List.replicate 8 0 ++ ascii "DSD ") :=
  fun settles => settles.not_ended rfl

end ImxTest.Dsd
