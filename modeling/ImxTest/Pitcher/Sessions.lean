import ImxTest.Pitcher.Ledger

/-! What starting and stopping a component does to the places of its buffers. -/
namespace ImxTest.Pitcher.V4l2

/-- No buffer has moved, and the driver owns no more than it did. -/
structure Still (w w' : World) : Prop where
  slots : w'.slots = w.slots
  buffers : w'.buffers = w.buffers
  errors : w'.errors = w.errors
  objs : w'.objs = w.objs
  held : w'.held = w.held
  fd : w'.fd = w.fd
  allocs : w'.allocs = w.allocs
  driver : ∀ i, (w'.driver i).isSome → (w.driver i).isSome

section Kept
variable {D : Driver} {w w' : World} {W : Ledger} {i id : Nat} {o : ExtBuffer} {p : Place}

theorem At.still {x : Option (Nat × Place)} (here : At w i x) (still : Still w w') : At w' i x := by
  cases x with
  | none =>
    have vacant : Vacant w i := here
    constructor
    case slots => rw [still.slots, vacant.slots]
    case buffers => rw [still.buffers, vacant.buffers]
    case errors => rw [still.errors, vacant.errors]
    case driver =>
      cases owned : w'.driver i with
      | none => rfl
      | some planes =>
        have before := still.driver i (by rw [owned]; rfl)
        rw [vacant.driver] at before
        contradiction
  | some e =>
    obtain ⟨id, p⟩ := e
    have placed : Placed w i id p := here
    constructor
    case object => rw [still.objs]; exact placed.object
    case slots => rw [still.slots, placed.slots]
    case buffers => rw [still.buffers, placed.buffers]
    case errors => rw [still.errors, placed.errors]
    case held => rw [still.held, placed.held]
    case driver => exact fun owned => placed.driver (still.driver i owned)
    case known => rw [still.allocs]; exact placed.known
    case valid => rw [still.fd]; exact placed.valid

theorem Shows.still (shows : Shows w W) (still : Still w w') : Shows w' W where
  entry i := (shows.entry i).still still
  known := by
    rw [still.objs]
    exact shows.known
  unheld := by
    rw [still.objs, still.held]
    exact shows.unheld

/-- The flags of a component say nothing of where its buffers are. -/
theorem Kept.flags (kept : Kept w W) (ending seek eosReceived resolutionChange : Bool) :
    Kept { w with ending, seek, eosReceived, resolutionChange } W where
  toShows := kept.still ⟨rfl, rfl, rfl, rfl, rfl, rfl, rfl, fun _ owned => owned⟩
  covers := kept.covers
  clean := kept.clean
  memory := kept.memory

/-- A disabled component need not have all its buffers. -/
theorem Shows.disabled (shows : Shows w W) (clean : w.faults = []) (off : w.enable = false) : Kept w W where
  toShows := shows
  covers := fun on => absurd (off.symm.trans on) Bool.false_ne_true
  clean := clean
  memory := fun on => absurd (off.symm.trans on) Bool.false_ne_true

/-- A buffer that was refused is free again. -/
theorem clear_one (i : Nat) (object : w.objs id = some o) (referred : 0 < o.refcount) :
    { pitcherPutBuffer D { pitcherGetBuffer w id with
        buffers := Function.update (pitcherGetBuffer w id).buffers i (some id) } id with
      errors := Function.update (pitcherPutBuffer D { pitcherGetBuffer w id with
        buffers := Function.update (pitcherGetBuffer w id).buffers i (some id) } id).errors i none } =
    { w with
      buffers := Function.update w.buffers i (some id)
      errors := Function.update w.errors i none } := by
  have got : pitcherGetBuffer w id = setObj w id { o with refcount := o.refcount + 1 } := by
    rw [pitcherGetBuffer, object]
  rw [got, put_shared (Function.update_self ..) (Nat.succ_lt_succ referred)]
  have same : Function.update w.objs id (some o) = w.objs := by
    rw [← object, Function.update_eq_self]
  simp only [setObj, Function.update_idem, Nat.add_sub_cancel, same]

theorem Kept.clear (kept : Kept w W) :
    (∃ W', Kept (clearErrorBuffers D w) W') ∧ (clearErrorBuffers D w).enable = w.enable ∧
      (clearErrorBuffers D w).driver = w.driver := by
  unfold clearErrorBuffers
  refine List.foldlRecOn (motive := fun x => (∃ W', Kept x W') ∧ x.enable = w.enable ∧ x.driver = w.driver)
    _ _ ⟨⟨W, kept⟩, rfl, rfl⟩ ?_
  rintro x ⟨⟨V, kept⟩, enable, driver⟩ i _
  cases error : x.errors i with
  | none => exact ⟨⟨V, kept⟩, enable, driver⟩
  | some id =>
    have at_index := kept.toShows.error.mp error
    have placed := kept.placed at_index
    obtain ⟨o, object, index, refs⟩ := placed.object
    have turned := clear_one (D := D) i object (by rw [refs]; exact Nat.zero_lt_one)
    refine ⟨?_, (congrArg World.enable turned).trans enable, (congrArg World.driver turned).trans driver⟩
    simp only
    rw [turned]
    refine ⟨_, kept.move at_index (q := .free) ?_ rfl ?_
      fun h => by contradiction⟩
    · constructor <;> intros <;> simp_all
    · exact ⟨⟨o, object, index, refs⟩, placed.slots, Function.update_self .., Function.update_self ..,
        placed.held, fun owned => by have := placed.driver owned; contradiction, placed.known, placed.valid⟩

/-- What a buffer holds says nothing of where it is. -/
theorem Kept.relabel (kept : Kept w W) (object : w.objs id = some o) (o' : ExtBuffer)
    (index : o'.buffer.index = o.buffer.index) (refs : o'.refcount = o.refcount)
    (mem : Nat → UInt8) (sources : Nat → Nat) :
    Kept { w with mem, sources, objs := Function.update w.objs id (some o') } W := by
  obtain ⟨p, at_index, placed, refs'⟩ := kept.place object
  have same : SameBut w { w with mem, sources, objs := Function.update w.objs id (some o') }
      o.buffer.index id := by
    constructor <;> intros <;> simp_all
  have entered := ((kept.besides at_index).same same).enter (p := p)
    ⟨⟨o', Function.update_self .., index, refs.trans refs'⟩, placed.slots, placed.buffers,
      placed.errors, placed.held, placed.driver, placed.known, placed.valid⟩
  rw [← at_index, Function.update_eq_self] at entered
  exact ⟨entered, kept.covers, kept.clean, kept.memory⟩

theorem Kept.releasePriv (kept : Kept w W) (object : w.objs id = some o) :
    Kept (releasePriv w id) W ∧ (V4l2.releasePriv w id).objs id = some o.released := by
  obtain ⟨sources, released⟩ := releasePriv_eq object
  rw [released]
  exact ⟨kept.relabel object o.released rfl rfl w.mem sources, Function.update_self ..⟩

/-- A buffer that is given up is no longer free when it is put. -/
theorem releaseFree_eq (free : w.buffers i = some id) (object : w.objs id = some o) (last : o.refcount = 1)
    (valid : ¬w.fd < 0) :
    releaseFree D w i =
      pitcherPutBuffer D { w with buffers := Function.update w.buffers i none } id := by
  simp only [releaseFree, free]
  rcases put_cases (D := D) object last valid with
    ⟨off, put⟩ | ⟨on, accepted, going, put⟩ | ⟨on, accepted, ending, put⟩ | ⟨on, _, no, put⟩ |
      ⟨on, _, unseen, put⟩
  · rw [put, put_disabled (w := { w with buffers := Function.update w.buffers i none }) object last valid off]
    rfl
  · rw [put, put_taken (w := { w with buffers := Function.update w.buffers i none }) object last valid on
      accepted going]
    rfl
  · rw [put, put_lost (w := { w with buffers := Function.update w.buffers i none }) object last valid on
      accepted ending]
    rfl
  · rw [put, put_refused (w := { w with buffers := Function.update w.buffers i none }) object last valid on
      no.1 no.2.1 no.2.2]
    rfl
  · rw [put, put_unknown (w := { w with buffers := Function.update w.buffers i none }) object last valid on
      unseen]
    by_cases ending : w.ending = true
    · rw [if_pos ending, if_pos ending]
      rfl
    · rw [if_neg ending, if_neg ending]
      rfl

theorem Kept.loose_free (kept : Kept w W) (free : w.buffers i = some id) :
    ∃ o, w.objs id = some o ∧ o.buffer.index = i ∧ o.refcount = 1 ∧ ¬w.fd < 0 ∧
      Loose { w with buffers := Function.update w.buffers i none } W id o := by
  have at_index := kept.toShows.free.mp free
  have placed := kept.placed at_index
  obtain ⟨o, object, rfl, refs⟩ := placed.object
  refine ⟨o, object, rfl, refs, placed.valid, ?_⟩
  refine kept.loose at_index ?_ rfl object refs ?_ placed.held
  · constructor <;> intros <;> simp_all
  · exact ⟨placed.slots, Function.update_self .., placed.errors, placed.unowned (by decide)⟩

/-! ## Stopping -/

theorem got_released (object : w.objs id = some o) :
    ∃ sources left, V4l2.releasePriv (pitcherGetBuffer w id) id =
        { w with sources, objs := Function.update w.objs id (some left) } ∧
      left.buffer.index = o.buffer.index ∧ left.refcount = o.refcount + 1 := by
  have got : pitcherGetBuffer w id = setObj w id { o with refcount := o.refcount + 1 } := by
    rw [pitcherGetBuffer, object]
  obtain ⟨sources, released⟩ := @releasePriv_eq (setObj w id { o with refcount := o.refcount + 1 }) id
    { o with refcount := o.refcount + 1 } (Function.update_self ..)
  refine ⟨sources, ({ o with refcount := o.refcount + 1 } : ExtBuffer).released, ?_, rfl, rfl⟩
  rw [got, released]
  simp only [setObj, Function.update_idem]

/-- A component that is disabled, with a driver that owns nothing. -/
structure Off (w : World) : Prop where
  inv : ∃ W, Kept w W
  off : w.enable = false
  drained : ∀ i, w.driver i = none

theorem Loose.off (loose : Loose w W id o) (off : w.enable = false) (drained : ∀ i, w.driver i = none) :
    Off (V4l2.freed w id o) := ⟨⟨_, loose.freed off⟩, off, drained⟩

/-- A buffer that was queued is freed. -/
theorem Off.slot (is_off : Off w) (slot : w.slots i = some id) :
    Off { pitcherPutBuffer D (V4l2.releasePriv (pitcherGetBuffer w id) id) id with
      slots := Function.update
        (pitcherPutBuffer D (V4l2.releasePriv (pitcherGetBuffer w id) id) id).slots i none } := by
  obtain ⟨⟨W, kept⟩, off, drained⟩ := is_off
  have at_index := kept.toShows.slot.mp slot
  have placed := kept.placed at_index
  obtain ⟨o, object, index, refs⟩ := placed.object
  obtain ⟨sources, left, got, same, referred⟩ := got_released object
  have last : left.refcount = 1 := by rw [referred, refs]; rfl
  obtain rfl : left.buffer.index = i := same.trans index
  have put : pitcherPutBuffer D (V4l2.releasePriv (pitcherGetBuffer w id) id) id =
      freed { w with sources, objs := Function.update w.objs id (some left) } id left := by
    rw [got]
    exact put_disabled (Function.update_self ..) last placed.valid off
  rw [put]
  have loose : Loose { w with
      sources
      slots := Function.update w.slots left.buffer.index none
      objs := Function.update w.objs id (some left) } W id left := by
    refine kept.loose at_index ?_ rfl
      (Function.update_self ..) last ?_ placed.held
    · constructor <;> intros <;> simp_all
    · exact ⟨Function.update_self .., placed.buffers, placed.errors, drained _⟩
  have gone := loose.off off drained
  simpa only [V4l2.freed, Function.update_idem] using gone

/-- A buffer that was free is freed. -/
theorem Off.free (is_off : Off w) (free : w.buffers i = some id) : Off (releaseFree D w i) := by
  obtain ⟨⟨W, kept⟩, off, drained⟩ := is_off
  obtain ⟨o, object, _, last, valid, loose⟩ := kept.loose_free free
  rw [releaseFree_eq free object last valid, put_disabled loose.object last valid off]
  exact loose.off off drained

theorem Off.releasePriv (is_off : Off w) (object : w.objs id = some o) :
    Off (releasePriv w id) ∧ (V4l2.releasePriv w id).buffers = w.buffers := by
  obtain ⟨⟨W, kept⟩, off, drained⟩ := is_off
  obtain ⟨sources, released⟩ := releasePriv_eq object
  have kept := (kept.releasePriv object).1
  rw [released] at kept ⊢
  exact ⟨⟨⟨W, kept⟩, off, drained⟩, rfl⟩

theorem Off.releaseSlots (is_off : Off w) : Off (releaseSlots D w) := by
  unfold V4l2.releaseSlots
  refine List.foldlRecOn (motive := Off) _ _ is_off ?_
  intro x is_off i _
  cases slot : x.slots i with
  | none => exact is_off
  | some id => exact is_off.slot slot

theorem Off.releaseFrees (is_off : Off w) : Off (releaseFrees D w) := by
  unfold V4l2.releaseFrees
  refine List.foldlRecOn (motive := Off) _ _ is_off ?_
  intro x is_off i _
  cases free : x.buffers i with
  | none => exact is_off
  | some id =>
    obtain ⟨W, kept⟩ := is_off.inv
    obtain ⟨o, object, _⟩ := kept.loose_free free
    obtain ⟨is_off, buffers⟩ := is_off.releasePriv object
    exact is_off.free ((congrFun buffers i).trans free)

theorem Off.clear (is_off : Off w) : Off (clearErrorBuffers D w) := by
  obtain ⟨⟨W, kept⟩, off, drained⟩ := is_off
  obtain ⟨inv, enable, driver⟩ := kept.clear (D := D)
  exact ⟨inv, enable.trans off, fun i => (congrFun driver i).trans (drained i)⟩

/-- The driver owns nothing once it has stopped streaming. -/
theorem Kept.drained (kept : Kept w W) (ending : Bool) (requested : Nat) :
    Off { w with enable := false, ending, requested, driver := fun _ => none } := by
  have shows : Shows { w with enable := false, ending, requested, driver := fun _ => none } W :=
    kept.still ⟨rfl, rfl, rfl, rfl, rfl, rfl, rfl, fun _ owned => by contradiction⟩
  exact ⟨⟨W, shows.disabled kept.clean rfl⟩, rfl, fun _ => rfl⟩

theorem Off.cleanup (is_off : Off w) (a : StopAnswers) : Off (cleanupV4l2 D a w).1 := by
  have cleaned := (is_off.clear (D := D)).releaseFrees (D := D)
  unfold cleanupV4l2
  simp only
  split
  · obtain ⟨⟨W, kept⟩, off, _⟩ := cleaned
    have drained := kept.drained (V4l2.releaseFrees D (clearErrorBuffers D w)).ending 0
    rw [← off] at drained
    exact drained
  · exact cleaned

theorem Kept.stop (kept : Kept w W) (a : StopAnswers) : ∃ W', Kept (stopV4l2 D a w).1 W' := by
  unfold stopV4l2
  split
  · exact ⟨W, kept⟩
  · exact (((kept.drained false w.requested).releaseSlots.clear).releaseFrees.cleanup a).inv

end Kept

/-! ## Starting -/

/-- The number of buffers that `start_v4l2` allocates. -/
def made (a : StartAnswers) (n : Nat) : Nat := min (if n > MAX_BUFFER_COUNT then 0 else n) a.made

/-- No buffer is left of those that a start makes, nor missing where it makes none,
and those it queues at the end of the stream are not accepted. -/
def StartSafe (D : Driver) (a : StartAnswers) (w : World) : Prop :=
  match a.reqbufs with
  | none => w.enable = true → ∀ i, i < min (max w.bufferCount a.minBuffers) MAX_BUFFER_COUNT →
      ∃ id o, w.objs id = some o ∧ o.buffer.index = i ∧ (w.slots i = some id → (w.driver i).isSome)
  | some n => w.memory ≠ .OVERLAY → (∀ id o, w.objs id = some o → made a n ≤ o.buffer.index) ∧
      (w.output = false → w.ending = true → ∀ i, i < made a n → D.qbuf (w.calls + i) = false)

/-- What a start leaves when the driver has granted `n` buffers. -/
def granted (w : World) (n : Nat) : World :=
  { w with
    bufferCount := if n > MAX_BUFFER_COUNT then 0 else n
    requested := if n > MAX_BUFFER_COUNT then 0 else n
    driver := fun _ => none }

def allocated (a : StartAnswers) (w : World) (j : Nat) : World :=
  (List.range j).foldl (fun w i => allocBuffer a i w) w

/-- What a start leaves when the buffers are made, before it queues any. -/
def filled (a : StartAnswers) (w : World) (n : Nat) : World :=
  { allocated a (granted w n) (made a n) with bufferCount := made a n }

def opened (a : StartAnswers) (w : World) (n : Nat) : World := { filled a w n with enable := true }

def queued (D : Driver) (w : World) (j : Nat) : World := (List.range j).foldl (releaseFree D) w

section Start
variable {D : Driver} {a : StartAnswers} {w : World} {W : Ledger} {n id : Nat} {o : ExtBuffer}

/-- The stages of a start. -/
theorem startV4l2_granted (valid : ¬w.fd < 0) (setup : a.setup = true) (answer : a.reqbufs = some n) :
    (startV4l2 D a w).1 =
      if w.memory = .OVERLAY then granted w n
      else
        if made a n = 0 then filled a w n
        else
          let x := if (opened a w n).output then opened a w n else queued D (opened a w n) (made a n)
          if a.streamon then x else { x with enable := false } := by
  unfold startV4l2
  rw [if_neg (by simp [valid, setup])]
  simp only [reqV4l2Buffer, answer, allocV4l2Buffer]
  by_cases overlay : w.memory = .OVERLAY
  · simp [overlay, granted]
  · simp only [overlay, if_false, Bool.not_true, Bool.false_eq_true]
    by_cases none : made a n = 0
    · have no : (!decide (min (if n > MAX_BUFFER_COUNT then 0 else n) a.made ≠ 0)) = true := by
        change (!decide (made a n ≠ 0)) = true
        simp [none]
      rw [if_pos no, if_pos none]
      rfl
    · have some : ¬(!decide (min (if n > MAX_BUFFER_COUNT then 0 else n) a.made ≠ 0)) = true := by
        change ¬(!decide (made a n ≠ 0)) = true
        simp [none]
      rw [if_neg some, if_neg none]
      cases a.streamon <;> rfl

theorem allocated_succ (a : StartAnswers) (w : World) (j : Nat) :
    allocated a w (j + 1) = allocBuffer a j (allocated a w j) := by
  rw [allocated, List.range_succ, List.foldl_append]
  rfl

/-- Allocation makes objects under new numbers and changes no other. -/
theorem allocated_keeps (a : StartAnswers) (w : World) (j : Nat) :
    Steady w (allocated a w j) ∧ (allocated a w j).allocs = w.allocs + j ∧
      (allocated a w j).calls = w.calls ∧ ∀ id, id < w.allocs → (allocated a w j).objs id = w.objs id := by
  induction j with
  | zero => exact ⟨.refl w, rfl, rfl, fun _ _ => rfl⟩
  | succ j ih =>
    obtain ⟨steady, allocs, calls, objs⟩ := ih
    rw [allocated_succ]
    refine ⟨⟨steady.fd, steady.output, steady.memory, steady.bufferCount, steady.enable, steady.ending,
      steady.requested, steady.faults.trans (note_suffix ..)⟩, congrArg Nat.succ allocs, calls, ?_⟩
    intro id known
    rw [← objs id known]
    exact Function.update_of_ne (by omega) ..

theorem has_of_object (object : w.objs id = some o) (known : id < w.allocs) :
    w.has o.buffer.index = true := by
  unfold World.has
  rw [List.any_eq_true]
  exact ⟨id, List.mem_range.mpr known, by simp [object]⟩

theorem Shows.has (shows : Shows w W) {i : Nat} (none : W i = none) : w.has i = false := by
  unfold World.has
  rw [List.any_eq_false]
  intro id _
  cases object : w.objs id with
  | none => simp
  | some o =>
    obtain ⟨p, at_index⟩ := shows.known id o object
    simp only [Option.any_some, decide_eq_true_eq]
    rintro rfl
    cases at_index.symm.trans none

/-- A buffer is made for an index that has one. -/
theorem allocated_twice (object : w.objs id = some o) (known : id < w.allocs) {j : Nat}
    (below : o.buffer.index < j) : (allocated a w j).faults ≠ [] := by
  induction j with
  | zero => contradiction
  | succ j ih =>
    rw [allocated_succ]
    intro clean
    rcases Nat.lt_succ_iff_lt_or_eq.mp below with before | here
    · exact ih before (List.suffix_nil.mp (clean ▸ note_suffix ..))
    · obtain ⟨_, allocs, _, objs⟩ := allocated_keeps a w j
      have still : (allocated a w j).objs id = some o := (objs id known).trans object
      have has := has_of_object still (by omega)
      rw [here] at has
      simp [allocBuffer, note, has] at clean

/-- The buffers that are made are free. -/
theorem Shows.allocated (shows : Shows w W) (clean : w.faults = []) (valid : ¬w.fd < 0) {k : Nat}
    (room : ∀ i, i < k → W i = none) {j : Nat} (below : j ≤ k) :
    ∃ V, Shows (allocated a w j) V ∧ (V4l2.allocated a w j).faults = [] ∧
      (∀ i, i < j → ∃ id, V i = some (id, .free)) ∧ ∀ i, j ≤ i → V i = W i := by
  induction j with
  | zero => exact ⟨W, shows, clean, fun _ h => absurd h (Nat.not_lt_zero _), fun _ _ => rfl⟩
  | succ j ih =>
    obtain ⟨V, shows', clean, before, behind⟩ := ih (Nat.le_of_succ_le below)
    obtain ⟨steady, _⟩ := allocated_keeps a w j
    rw [allocated_succ]
    generalize V4l2.allocated a w j = x at *
    have vacant := (behind j (Nat.le_refl j)).trans (room j below)
    have unused : x.objs x.allocs = none := by
      cases object : x.objs x.allocs with
      | none => rfl
      | some o =>
        obtain ⟨_, _, placed, _⟩ := shows'.place object
        exact absurd placed.known (Nat.lt_irrefl _)
    have same : SameBut x (allocBuffer a j x) j x.allocs := by
      constructor <;> intros <;> simp_all [allocBuffer]
    have empty := shows'.vacant vacant
    refine ⟨Function.update V j (some (x.allocs, .free)), ?_, ?_, ?_, ?_⟩
    · refine ((shows'.besides_new vacant unused).same same).enter ?_
      exact ⟨⟨_, Function.update_self .., rfl, rfl⟩, empty.slots, Function.update_self .., empty.errors,
        shows'.unheld _ unused, fun owned => by rw [show (allocBuffer a j x).driver = x.driver from rfl, empty.driver] at owned; contradiction,
        Nat.lt_succ_self _, by rw [show (allocBuffer a j x).fd = x.fd from rfl, steady.fd]; exact valid⟩
    · simp only [allocBuffer, shows'.has vacant]
      exact clean
    · intro i less
      by_cases own : i = j
      · subst own
        exact ⟨_, Function.update_self ..⟩
      · rw [Function.update_of_ne own]
        exact before i (by omega)
    · intro i above
      rw [Function.update_of_ne (by omega)]
      exact behind i (Nat.le_of_succ_le above)

theorem queued_succ (D : Driver) (w : World) (j : Nat) :
    queued D w (j + 1) = releaseFree D (queued D w j) j := by
  rw [queued, List.range_succ, List.foldl_append]
  rfl

theorem releaseFree_steady (w : World) (i : Nat) : Steady w (releaseFree D w i) := by
  unfold releaseFree
  split
  · exact .refl w
  case h_2 id _ =>
    have put := putBuffer_steady (D := D) w id
    exact ⟨put.fd, put.output, put.memory, put.bufferCount, put.enable, put.ending, put.requested, put.faults⟩

theorem queued_steady (w : World) {i j : Nat} (less : i ≤ j) : Steady (queued D w i) (queued D w j) := by
  induction j with
  | zero =>
    rw [Nat.le_zero.mp less]
    exact .refl _
  | succ j ih =>
    rcases Nat.le_succ_iff.mp less with before | rfl
    · rw [queued_succ]
      exact (ih before).trans (releaseFree_steady ..)
    · exact .refl _

/-- A buffer that is queued goes to the driver or is refused, but at the end of the
stream it is lost if the driver takes it. -/
theorem Kept.queue (kept : Kept w W) (on : w.enable = true) {i : Nat} (free : w.buffers i = some id)
    (seen : .queryFailed ∉ (releaseFree D w i).faults) :
    (releaseFree D w i).calls = w.calls + 1 ∧
    (w.ending = true → D.qbuf w.calls = true → (releaseFree D w i).faults ≠ []) ∧
    (¬(w.ending = true ∧ D.qbuf w.calls = true) → ∃ x, Kept (releaseFree D w i) (Function.update W i x)) := by
  obtain ⟨o, object, rfl, last, valid, loose⟩ := kept.loose_free free
  rw [releaseFree_eq free object last valid] at seen ⊢
  obtain ⟨lost, safe⟩ := loose.put seen
  obtain ⟨calls, accepted⟩ := loose.asked on seen
  refine ⟨calls, fun ending taken => lost ⟨on, ending, accepted.trans taken⟩, fun not_lost => safe ?_⟩
  rintro ⟨_, ending, taken⟩
  exact not_lost ⟨ending, accepted.symm.trans taken⟩

/-- All buffers are queued, one after the other. -/
theorem Kept.queued (kept : Kept w W) (on : w.enable = true) {k : Nat}
    (free : ∀ i, i < k → ∃ id, W i = some (id, .free)) {j : Nat} (below : j ≤ k)
    (seen : .queryFailed ∉ (queued D w j).faults)
    (safe : w.ending = true → ∀ i, i < j → D.qbuf (w.calls + i) = false) :
    (V4l2.queued D w j).calls = w.calls + j ∧
      ∃ V, Kept (V4l2.queued D w j) V ∧ ∀ i, j ≤ i → i < k → ∃ id, V i = some (id, .free) := by
  induction j with
  | zero => exact ⟨rfl, W, kept, fun i _ => free i⟩
  | succ j ih =>
    have steady := queued_steady (D := D) w (Nat.le_succ j)
    obtain ⟨calls, V, kept, behind⟩ := ih (Nat.le_of_succ_le below)
      (fun h => seen (steady.faults.subset h)) fun ending i less => safe ending i (Nat.lt_succ_of_lt less)
    have begun := queued_steady (D := D) w (Nat.zero_le j)
    rw [queued_succ] at seen ⊢
    obtain ⟨id, at_index⟩ := behind j (Nat.le_refl j) below
    obtain ⟨called, _, queued⟩ := kept.queue (begun.enable.trans on) (kept.toShows.free.mpr at_index) seen
    obtain ⟨x, kept⟩ := queued fun ⟨ending, taken⟩ => by
      rw [calls, safe (begun.ending.symm.trans ending) j (Nat.lt_succ_self j)] at taken
      contradiction
    refine ⟨by omega, _, kept, ?_⟩
    intro i above less
    rw [Function.update_of_ne (by omega)]
    exact behind i (Nat.le_of_succ_le above) less

/-- At the end of the stream the first buffer that the driver takes is lost. -/
theorem Kept.queued_lost (kept : Kept w W) (on : w.enable = true) (ending : w.ending = true) {k : Nat}
    (free : ∀ i, i < k → ∃ id, W i = some (id, .free)) (seen : .queryFailed ∉ (V4l2.queued D w k).faults)
    {i : Nat} (below : i < k) (taken : D.qbuf (w.calls + i) = true) : (V4l2.queued D w k).faults ≠ [] := by
  induction i using Nat.strongRecOn with
  | ind i ih =>
    by_cases before : ∃ i', i' < i ∧ D.qbuf (w.calls + i') = true
    · obtain ⟨i', less, taken⟩ := before
      exact ih i' less (Nat.lt_trans less below) taken
    · have refused : w.ending = true → ∀ i', i' < i → D.qbuf (w.calls + i') = false := by
        intro _ i' less
        rw [← Bool.not_eq_true]
        exact fun taken => before ⟨i', less, taken⟩
      have rest := queued_steady (D := D) w (Nat.succ_le_of_lt below)
      have here := queued_steady (D := D) w (Nat.le_of_lt below)
      obtain ⟨calls, V, kept, behind⟩ := kept.queued on free (Nat.le_of_lt below)
        (fun h => seen (here.faults.subset h)) refused
      have begun := queued_steady (D := D) w (Nat.zero_le i)
      obtain ⟨id, at_index⟩ := behind i (Nat.le_refl i) below
      rw [Nat.succ_eq_add_one, queued_succ] at rest
      have lost := (kept.queue (begun.enable.trans on) (kept.toShows.free.mpr at_index)
        fun h => seen (rest.faults.subset h)).2.1 (begun.ending.trans ending) (by rw [calls]; exact taken)
      intro clean
      exact lost (List.suffix_nil.mp (clean ▸ rest.faults))

theorem startV4l2_refused (valid : ¬w.fd < 0) (setup : a.setup = true) (answer : a.reqbufs = none) :
    (startV4l2 D a w).1 =
      { w with bufferCount := min (max w.bufferCount a.minBuffers) MAX_BUFFER_COUNT } := by
  unfold startV4l2
  rw [if_neg (by simp [valid, setup])]
  simp only [reqV4l2Buffer, answer]
  rfl

theorem filled_keeps (a : StartAnswers) (w : World) (n : Nat) :
    (filled a w n).output = w.output ∧ (filled a w n).ending = w.ending ∧
      (filled a w n).memory = w.memory ∧ (filled a w n).calls = w.calls := by
  obtain ⟨steady, _, calls, _⟩ := allocated_keeps a (granted w n) (made a n)
  exact ⟨steady.output, steady.ending, steady.memory, calls⟩

/-- The buffers that a start makes are free, if there is room for them. -/
theorem Kept.filled (kept : Kept w W) (valid : ¬w.fd < 0)
    (room : ∀ id o, w.objs id = some o → made a n ≤ o.buffer.index) :
    ∃ V, Shows (filled a w n) V ∧ (V4l2.filled a w n).faults = [] ∧
      ∀ i, i < made a n → ∃ id, V i = some (id, .free) := by
  have shows : Shows (granted w n) W :=
    kept.still ⟨rfl, rfl, rfl, rfl, rfl, rfl, rfl, fun _ owned => by contradiction⟩
  have none : ∀ i, i < made a n → W i = none := by
    intro i below
    cases at_index : W i with
    | none => rfl
    | some e =>
      obtain ⟨id, p⟩ := e
      obtain ⟨o, object, rfl, _⟩ := (kept.placed at_index).object
      exact absurd (room id o object) (Nat.not_le_of_lt below)
  obtain ⟨V, allocated, clean, free, _⟩ :=
    shows.allocated (a := a) kept.clean valid none (Nat.le_refl (made a n))
  exact ⟨V, allocated.still ⟨rfl, rfl, rfl, rfl, rfl, rfl, rfl, fun _ owned => owned⟩, clean, free⟩

theorem Shows.opened {V : Ledger} (shows : Shows (filled a w n) V) (clean : (filled a w n).faults = [])
    (free : ∀ i, i < made a n → ∃ id, V i = some (id, .free)) (memory : w.memory ≠ .OVERLAY) :
    Kept (opened a w n) V := by
  refine ⟨shows.still ⟨rfl, rfl, rfl, rfl, rfl, rfl, rfl, fun _ owned => owned⟩, ?_, clean, fun _ => ?_⟩
  · intro _ i below _
    obtain ⟨id, at_index⟩ := free i below
    exact ⟨id, .free, at_index, fun h => by contradiction⟩
  · rw [show (V4l2.opened a w n).memory = _ from (filled_keeps a w n).2.2.1]
    exact memory

end Start

end ImxTest.Pitcher.V4l2
