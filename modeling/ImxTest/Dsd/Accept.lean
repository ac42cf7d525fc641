import ImxTest.Dsd.Forms

/-! Which well-formed DSDIFF files the reader accepts. -/
namespace ImxTest.Dsd

open Lib Reading

variable {sys : System} {file : DffFile}

/-- The reader comes back with the numbers of the file, and the next byte to read is the first of
the data, whatever is in the memory it reads into. -/
def DffFile.Accepted (sys : System) (file : DffFile) : Prop := ∀ junk, ∃ turns, ∀ fuel, turns ≤ fuel →
  ∃ junk', readDffFile sys fuel ⟨file.bytes, junk⟩ = .ok (file.params, ⟨file.data ++ file.metadata, junk'⟩)

theorem DffFile.Readable.accepted (readable : file.Readable sys) : file.Accepted sys := by
  intro junk
  have tracks : TracksAt (Walk.form sys file.bytes) (fun fuel => readDffForm sys fuel) file.bytes :=
    tracks_form.inside file.bytes
  have walk : Walk.form sys file.bytes = .ok (file.form, file.data ++ file.metadata) := by
    rw [file.walk, if_pos ⟨readable.before, readable.props, readable.after⟩]
  obtain ⟨-, k, turns, found⟩ := tracks.found _ _ walk
  refine ⟨turns, fun fuel enough => ⟨junk.drop k, ?_⟩⟩
  have read := (found fuel junk).resolve_right fun few => absurd enough (Nat.not_le.mpr few.1)
  exact bind_ok read _

theorem DffFile.Accepted.readable (accepted : file.Accepted sys) : file.Readable sys := by
  by_contra not_readable
  have tracks : TracksAt (Walk.form sys file.bytes) (fun fuel => readDffForm sys fuel) file.bytes :=
    tracks_form.inside file.bytes
  have walk : Walk.form sys file.bytes = .error .large := by
    rw [file.walk, if_neg fun good => not_readable ⟨good.1, good.2.1, good.2.2⟩]
  obtain ⟨turns, read⟩ := accepted (Stream'.const 0)
  obtain ⟨junk', run⟩ := read turns (le_refl _)
  obtain ⟨e, -, stopped⟩ := bind_stalls (tracks.large walk turns (Stream'.const 0)) fun form => pure form.params
  cases run.symm.trans stopped

/-- A well-formed file is accepted exactly when no chunk in front of the data is padded or larger
than the stack. -/
theorem accepted_iff (sys : System) (file : DffFile) : file.Accepted sys ↔ file.Readable sys :=
  ⟨DffFile.Accepted.readable, DffFile.Readable.accepted⟩

/-- A chunk of one byte in front of the property chunk. -/
theorem not_accepted_padded : ¬ DffFile.Accepted ⟨8 * 2 ^ 20, by decide, 2 ^ 63 - 1, by decide⟩
    { formSize := 116, version := 0x01050000
      before := [⟨ascii "COMT", [0], ⟨by decide, by decide +kernel⟩, by decide, by decide⟩]
      propSize := 56, props := [.fs 2822400, .chnl 1 (ascii "C000") rfl, .compr 0 [0] (.inr rfl)], after := []
      data := [0x69, 0x69], metadata := [], samplingFreq := 2822400, channelNum := 1
      one_fs := rfl, one_chnl := rfl, one_compr := rfl, fits := by decide } := by
  intro accepted
  have good := accepted.readable.before _ List.mem_cons_self
  exact absurd good.2 (by decide)

end ImxTest.Dsd
