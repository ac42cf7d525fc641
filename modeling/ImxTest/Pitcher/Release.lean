import ImxTest.Pitcher.V4l2

/-! What becomes of a buffer of pitcher/v4l2.c when its last reference is dropped:
it goes to the driver, to the ones to be queued again, or it is freed. -/
namespace ImxTest.Pitcher.V4l2

variable {D : Driver} {w : World} {id : Nat} {o : ExtBuffer}

@[simp] theorem setObj_objs : (setObj w id o).objs = Function.update w.objs id (some o) := rfl

/-- A buffer nobody refers to. -/
def ExtBuffer.dropped (o : ExtBuffer) : ExtBuffer :=
  { buffer := { o.buffer with flags := 0 }, refcount := 0 }

/-- The buffer is freed, its slot cleared. -/
def freed (w : World) (id : Nat) (o : ExtBuffer) : World :=
  { w with
    objs := Function.update w.objs id none
    slots := Function.update w.slots o.buffer.index none
    faults := note (w.driver o.buffer.index).isSome (.freedOwned o.buffer.index) w.faults }

/-- The driver has the buffer. -/
def taken (w : World) (id : Nat) (o : ExtBuffer) : World :=
  { w with
    objs := Function.update w.objs id (some o.dropped)
    calls := w.calls + 1
    driver := Function.update w.driver o.buffer.index (some (v4lPlanes w o))
    faults := note (w.driver o.buffer.index).isSome (.queuedTwice o.buffer.index) w.faults
    slots := Function.update w.slots o.buffer.index (some id)
    frameCount := if w.output then w.frameCount + 1 else w.frameCount }

/-- The driver has refused the buffer; it no longer holds on to a source. -/
def refused (w : World) (id : Nat) (o : ExtBuffer) : World :=
  { w with
    objs := Function.update w.objs id
      (some { buffer := { o.dropped.buffer with priv := none }, refcount := 1 })
    sources := match o.buffer.priv with
      | none => w.sources
      | some src => Function.update w.sources src (w.sources src - 1)
    calls := w.calls + 1
    errors := Function.update w.errors o.buffer.index (some id) }

/-- The driver knows no buffer of that index. -/
def unknown (w : World) (id : Nat) (o : ExtBuffer) : World :=
  { w with
    objs := Function.update w.objs id (some o.dropped)
    calls := w.calls + 1
    faults := .queryFailed :: w.faults }

/-- `__release_buffer` behind `__qbuf`. -/
theorem release_of_qbuf {queued : World} {left : ExtBuffer} (object : w.objs id = some o)
    (last : o.refcount = 0) (valid : ¬w.fd < 0)
    (made : qbuf D (setObj w id o.dropped) id = queued) (remains : queued.objs id = some left)
    (plain : left.buffer.flags = 0) :
    releaseBuffer D w id =
      if (queued.enable = false ∨ queued.ending = true) ∧ left.refcount = 0 then freed queued id left
      else queued := by
  have same : (⟨{ o.buffer with flags := 0 }, o.refcount⟩ : ExtBuffer) = o.dropped := by
    rw [ExtBuffer.dropped, last]
  have open_fd : ¬(setObj w id o.dropped).fd < 0 := valid
  simp only [releaseBuffer, object, same, recycleV4l2Buffer, if_neg open_fd, made, remains, plain]
  by_cases gone : (queued.enable = false ∨ queued.ending = true) ∧ left.refcount = 0
  · have del : (((!queued.enable || queued.ending || decide ((0 : UInt32) &&& PITCHER_BUFFER_FLAG_LAST ≠ 0)) &&
        decide (left.refcount = 0)) = true) := by
      rcases gone with ⟨off | ending, none⟩
      · simp [off, none]
      · simp [ending, none]
    rw [if_pos gone, if_pos del, if_pos del]
    simp only [freeBuffer, remains, freed]
  · have del : ¬(((!queued.enable || queued.ending || decide ((0 : UInt32) &&& PITCHER_BUFFER_FLAG_LAST ≠ 0)) &&
        decide (left.refcount = 0)) = true) := by
      simpa [PITCHER_BUFFER_FLAG_LAST] using gone
    rw [if_neg gone, if_neg del, if_neg del]

section Qbuf
variable (valid : ¬w.fd < 0) (on : w.enable = true)
include valid on

theorem qbuf_taken (accepted : accepts D w o.buffer.index = true) :
    qbuf D (setObj w id o.dropped) id = taken w id o := by
  simp only [accepts, decide_eq_true_eq] at accepted
  obtain ⟨known, query, accepted⟩ := accepted
  unfold qbuf
  rw [if_neg (by simp [setObj, valid, on])]
  simp only [setObj_objs, Function.update_self]
  rw [if_neg (by simp [setObj, ExtBuffer.dropped, known, query]), if_neg (by simp [setObj, accepted])]
  rfl

theorem qbuf_refused (known : o.buffer.index < w.requested) (query : D.querybuf w.calls = true)
    (no : D.qbuf w.calls = false) : qbuf D (setObj w id o.dropped) id = refused w id o := by
  unfold qbuf
  rw [if_neg (by simp [setObj, valid, on])]
  simp only [setObj_objs, Function.update_self]
  rw [if_neg (by simp [setObj, ExtBuffer.dropped, known, query]), if_pos (by simp [setObj, no])]
  cases priv : o.buffer.priv <;>
    simp [releasePriv, pitcherGetBuffer, refused, ExtBuffer.dropped, priv, setObj]

theorem qbuf_unknown (unseen : ¬(o.buffer.index < w.requested ∧ D.querybuf w.calls = true)) :
    qbuf D (setObj w id o.dropped) id = unknown w id o := by
  unfold qbuf
  rw [if_neg (by simp [setObj, valid, on])]
  simp only [setObj_objs, Function.update_self]
  rw [if_pos (by rw [Bool.not_eq_true']; exact decide_eq_false unseen)]
  rfl

end Qbuf

section Release
variable (object : w.objs id = some o) (last : o.refcount = 0) (valid : ¬w.fd < 0)
include object last valid

theorem release_disabled (off : w.enable = false) : releaseBuffer D w id = freed w id o := by
  have kept : qbuf D (setObj w id o.dropped) id = setObj w id o.dropped := by
    simp only [qbuf, setObj, off, Bool.not_false, or_true, if_true]
  rw [release_of_qbuf object last valid kept (Function.update_self ..) rfl, if_pos ⟨.inl off, rfl⟩]
  simp only [freed, setObj, Function.update_idem]
  rfl

variable (on : w.enable = true)
include on

theorem release_taken (accepted : accepts D w o.buffer.index = true) (going : w.ending = false) :
    releaseBuffer D w id = taken w id o := by
  rw [release_of_qbuf object last valid (qbuf_taken valid on accepted)
    (Function.update_self ..) rfl]
  simp [taken, on, going]

/-- At the end of the stream a buffer is freed although the driver has it. -/
theorem release_lost (accepted : accepts D w o.buffer.index = true) (ending : w.ending = true) :
    releaseBuffer D w id = freed (taken w id o) id o := by
  rw [release_of_qbuf object last valid (qbuf_taken valid on accepted)
    (Function.update_self ..) rfl, if_pos ⟨.inr ending, rfl⟩]
  rfl

theorem release_refused (known : o.buffer.index < w.requested) (query : D.querybuf w.calls = true)
    (no : D.qbuf w.calls = false) : releaseBuffer D w id = refused w id o := by
  rw [release_of_qbuf object last valid (qbuf_refused valid on known query no)
    (Function.update_self ..) rfl, if_neg (fun h => Nat.one_ne_zero h.2)]

theorem release_unknown (unseen : ¬(o.buffer.index < w.requested ∧ D.querybuf w.calls = true)) :
    releaseBuffer D w id =
      if w.ending then freed (unknown w id o) id o else unknown w id o := by
  rw [release_of_qbuf object last valid (qbuf_unknown valid on unseen)
    (Function.update_self ..) rfl]
  cases ending : w.ending with
  | true => rw [if_pos ⟨.inr ending, rfl⟩, if_pos rfl]; rfl
  | false => rw [if_neg (by simp [unknown, on, ending]), if_neg Bool.false_ne_true]

end Release

/-! ## The last reference -/

section Put
variable (object : w.objs id = some o)
include object

theorem put_shared (shared : 1 < o.refcount) :
    pitcherPutBuffer D w id = setObj w id { o with refcount := o.refcount - 1 } := by
  unfold pitcherPutBuffer
  simp only [object]
  rw [if_neg (by omega), if_neg (by omega)]

variable (last : o.refcount = 1)
include last

theorem put_last :
    pitcherPutBuffer D w id = releaseBuffer D (setObj w id { o with refcount := 0 }) id := by
  unfold pitcherPutBuffer
  simp only [object, last]
  rw [if_neg Nat.one_ne_zero, if_pos trivial]

variable (valid : ¬w.fd < 0)
include valid

theorem put_disabled (off : w.enable = false) : pitcherPutBuffer D w id = freed w id o := by
  rw [put_last object last,
    release_disabled (w := setObj w id { o with refcount := 0 }) (Function.update_self ..) rfl valid off]
  simp only [freed, setObj, Function.update_idem]

variable (on : w.enable = true)
include on

theorem put_taken (accepted : accepts D w o.buffer.index = true) (going : w.ending = false) :
    pitcherPutBuffer D w id = taken w id o := by
  rw [put_last object last, release_taken (w := setObj w id { o with refcount := 0 })
    (Function.update_self ..) rfl valid on accepted going]
  simp only [taken, setObj, Function.update_idem]
  rfl

theorem put_lost (accepted : accepts D w o.buffer.index = true) (ending : w.ending = true) :
    pitcherPutBuffer D w id = freed (taken w id o) id o := by
  rw [put_last object last, release_lost (w := setObj w id { o with refcount := 0 })
    (Function.update_self ..) rfl valid on accepted ending]
  simp only [freed, taken, setObj, Function.update_idem]
  rfl

theorem put_refused (known : o.buffer.index < w.requested) (query : D.querybuf w.calls = true)
    (no : D.qbuf w.calls = false) : pitcherPutBuffer D w id = refused w id o := by
  rw [put_last object last, release_refused (w := setObj w id { o with refcount := 0 })
    (Function.update_self ..) rfl valid on known query no]
  simp only [refused, setObj, Function.update_idem]
  rfl

theorem put_unknown (unseen : ¬(o.buffer.index < w.requested ∧ D.querybuf w.calls = true)) :
    pitcherPutBuffer D w id = if w.ending then freed (unknown w id o) id o else unknown w id o := by
  rw [put_last object last, release_unknown (w := setObj w id { o with refcount := 0 })
    (Function.update_self ..) rfl valid on unseen]
  simp only [freed, unknown, setObj, Function.update_idem]
  rfl

end Put

/-- Without its hold on a source. -/
def ExtBuffer.released (o : ExtBuffer) : ExtBuffer := { o with buffer := { o.buffer with priv := none } }

theorem releasePriv_eq (object : w.objs id = some o) :
    ∃ sources, releasePriv w id =
      { w with sources, objs := Function.update w.objs id (some o.released) } := by
  unfold releasePriv
  simp only [object]
  cases priv : o.buffer.priv with
  | none =>
    have same : o.released = o := by rw [ExtBuffer.released, ← priv]
    have kept : Function.update w.objs id (some o.released) = w.objs := by
      rw [same, ← object, Function.update_eq_self]
    refine ⟨w.sources, ?_⟩
    rw [kept]
  | some src => exact ⟨Function.update w.sources src (w.sources src - 1), rfl⟩

/-- What becomes of a buffer when its last reference is dropped. -/
theorem put_cases (object : w.objs id = some o) (last : o.refcount = 1) (valid : ¬w.fd < 0) :
    (w.enable = false ∧ pitcherPutBuffer D w id = freed w id o) ∨
    (w.enable = true ∧ accepts D w o.buffer.index = true ∧ w.ending = false ∧
      pitcherPutBuffer D w id = taken w id o) ∨
    (w.enable = true ∧ accepts D w o.buffer.index = true ∧ w.ending = true ∧
      pitcherPutBuffer D w id = freed (taken w id o) id o) ∨
    (w.enable = true ∧ accepts D w o.buffer.index = false ∧
      (o.buffer.index < w.requested ∧ D.querybuf w.calls = true ∧ D.qbuf w.calls = false) ∧
      pitcherPutBuffer D w id = refused w id o) ∨
    (w.enable = true ∧ accepts D w o.buffer.index = false ∧
      ¬(o.buffer.index < w.requested ∧ D.querybuf w.calls = true) ∧
      pitcherPutBuffer D w id = if w.ending then freed (unknown w id o) id o else unknown w id o) := by
  cases on : w.enable with
  | false => exact .inl ⟨rfl, put_disabled object last valid on⟩
  | true =>
    right
    cases accepted : accepts D w o.buffer.index with
    | true =>
      cases ending : w.ending with
      | false => exact .inl ⟨rfl, rfl, rfl, put_taken object last valid on accepted ending⟩
      | true => exact .inr (.inl ⟨rfl, rfl, rfl, put_lost object last valid on accepted ending⟩)
    | false =>
      right; right
      by_cases seen : o.buffer.index < w.requested ∧ D.querybuf w.calls = true
      · have no : D.qbuf w.calls = false := by
          simpa [accepts, seen.1, seen.2] using accepted
        exact .inl ⟨rfl, rfl, ⟨seen.1, seen.2, no⟩, put_refused object last valid on seen.1 seen.2 no⟩
      · exact .inr ⟨rfl, rfl, seen, put_unknown object last valid on seen⟩

/-! ## What no operation on a buffer changes -/

structure Steady (w w' : World) : Prop where
  fd : w'.fd = w.fd
  output : w'.output = w.output
  memory : w'.memory = w.memory
  bufferCount : w'.bufferCount = w.bufferCount
  enable : w'.enable = w.enable
  ending : w'.ending = w.ending
  requested : w'.requested = w.requested
  faults : w.faults <:+ w'.faults

theorem note_suffix (seen : Bool) (fault : Fault) (faults : List Fault) :
    faults <:+ note seen fault faults := by
  unfold note
  split
  · exact List.suffix_cons ..
  · exact List.suffix_rfl

theorem Steady.refl (w : World) : Steady w w := ⟨rfl, rfl, rfl, rfl, rfl, rfl, rfl, List.suffix_rfl⟩

theorem Steady.trans {w' w'' : World} (first : Steady w w') (second : Steady w' w'') : Steady w w'' where
  fd := second.fd.trans first.fd
  output := second.output.trans first.output
  memory := second.memory.trans first.memory
  bufferCount := second.bufferCount.trans first.bufferCount
  enable := second.enable.trans first.enable
  ending := second.ending.trans first.ending
  requested := second.requested.trans first.requested
  faults := first.faults.trans second.faults

theorem setObj_steady (w : World) (id : Nat) (o : ExtBuffer) : Steady w (setObj w id o) :=
  ⟨rfl, rfl, rfl, rfl, rfl, rfl, rfl, List.suffix_rfl⟩

theorem getBuffer_steady (w : World) (id : Nat) : Steady w (pitcherGetBuffer w id) := by
  unfold pitcherGetBuffer
  split
  · exact .refl w
  · exact setObj_steady ..

theorem releasePriv_steady (w : World) (id : Nat) : Steady w (releasePriv w id) := by
  cases object : w.objs id with
  | none =>
    rw [releasePriv, object]
    exact .refl w
  | some o =>
    obtain ⟨sources, released⟩ := releasePriv_eq object
    rw [released]
    exact ⟨rfl, rfl, rfl, rfl, rfl, rfl, rfl, List.suffix_rfl⟩

theorem qbuf_steady (w : World) (id : Nat) : Steady w (qbuf D w id) := by
  unfold qbuf
  split
  · exact .refl w
  split
  · exact .refl w
  simp only
  split
  · exact ⟨rfl, rfl, rfl, rfl, rfl, rfl, rfl, List.suffix_cons ..⟩
  split
  · have called : Steady w { w with calls := w.calls + 1 } :=
      ⟨rfl, rfl, rfl, rfl, rfl, rfl, rfl, List.suffix_rfl⟩
    have kept := (called.trans (releasePriv_steady _ id)).trans (getBuffer_steady _ id)
    exact ⟨kept.fd, kept.output, kept.memory, kept.bufferCount, kept.enable, kept.ending, kept.requested,
      kept.faults⟩
  · exact ⟨rfl, rfl, rfl, rfl, rfl, rfl, rfl, note_suffix ..⟩

theorem recycleV4l2Buffer_steady (w : World) (id : Nat) : Steady w (recycleV4l2Buffer D w id).1 := by
  unfold recycleV4l2Buffer
  split
  · exact .refl w
  have queued := @qbuf_steady D w id
  simp only
  split
  · exact queued
  · split
    · exact ⟨queued.fd, queued.output, queued.memory, queued.bufferCount, queued.enable, queued.ending,
        queued.requested, queued.faults⟩
    · exact queued

theorem freeBuffer_steady (w : World) (id : Nat) : Steady w (freeBuffer w id) := by
  unfold freeBuffer
  split
  · exact .refl w
  · exact ⟨rfl, rfl, rfl, rfl, rfl, rfl, rfl, note_suffix ..⟩

theorem releaseBuffer_steady (w : World) (id : Nat) : Steady w (releaseBuffer D w id) := by
  unfold releaseBuffer
  split
  · exact .refl w
  case h_2 o _ =>
    have recycled := (setObj_steady w id { o with buffer := { o.buffer with flags := 0 } }).trans
      (recycleV4l2Buffer_steady (D := D) _ id)
    simp only
    split
    · exact recycled.trans (freeBuffer_steady _ id)
    · exact recycled

theorem putBuffer_steady (w : World) (id : Nat) : Steady w (pitcherPutBuffer D w id) := by
  unfold pitcherPutBuffer
  split
  · exact .refl w
  split
  · exact .refl w
  case h_2 o _ _ =>
    have dropped := setObj_steady w id { o with refcount := o.refcount - 1 }
    simp only
    split
    · exact dropped.trans (releaseBuffer_steady _ id)
    · exact dropped

end ImxTest.Pitcher.V4l2
