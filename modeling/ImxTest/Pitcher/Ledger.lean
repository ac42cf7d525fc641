import ImxTest.Pitcher.Release

/-! Where each buffer of a component is: with the driver, free, refused by it, or
held by references. -/
namespace ImxTest.Pitcher.V4l2

/-- A place for a buffer; `held more` is one reference and `more` besides. -/
inductive Place where
  | driver | free | refused | held (more : Nat)
deriving DecidableEq

def Place.refs : Place → Nat
  | .driver => 0
  | .free | .refused => 1
  | .held more => more + 1

/-- The references that are not the component's own. -/
def Place.outside : Place → Nat
  | .held more => more + 1
  | _ => 0

/-- The buffer of each index, and where it is. -/
abbrev Ledger := Nat → Option (Nat × Place)

/-- There is no buffer in any place. -/
structure Vacant (w : World) (i : Nat) : Prop where
  slots : w.slots i = none
  buffers : w.buffers i = none
  errors : w.errors i = none
  driver : w.driver i = none

/-- The buffer `id` is in one place and in no other. -/
structure Placed (w : World) (i id : Nat) (p : Place) : Prop where
  object : ∃ o, w.objs id = some o ∧ o.buffer.index = i ∧ o.refcount = p.refs
  slots : w.slots i = if p = .driver then some id else none
  buffers : w.buffers i = if p = .free then some id else none
  errors : w.errors i = if p = .refused then some id else none
  held : w.held id = p.outside
  driver : (w.driver i).isSome → p = .driver
  known : id < w.allocs
  valid : ¬w.fd < 0

def At (w : World) (i : Nat) : Option (Nat × Place) → Prop
  | none => Vacant w i
  | some (id, p) => Placed w i id p

/-- A component's buffers are where the ledger says, and there are no others. -/
structure Shows (w : World) (W : Ledger) : Prop where
  entry : ∀ i, At w i (W i)
  known : ∀ id o, w.objs id = some o → ∃ p, W o.buffer.index = some (id, p)
  unheld : ∀ id, w.objs id = none → w.held id = 0

/-- The same but for one object and its index. -/
structure SameBut (w w' : World) (i id : Nat) : Prop where
  slots : ∀ j, j ≠ i → w'.slots j = w.slots j
  buffers : ∀ j, j ≠ i → w'.buffers j = w.buffers j
  errors : ∀ j, j ≠ i → w'.errors j = w.errors j
  driver : ∀ j, j ≠ i → w'.driver j = w.driver j
  objs : ∀ k, k ≠ id → w'.objs k = w.objs k
  held : ∀ k, k ≠ id → w'.held k = w.held k
  fd : w'.fd = w.fd
  memory : w'.memory = w.memory
  enable : w'.enable = w.enable
  bufferCount : w'.bufferCount = w.bufferCount
  allocs : w.allocs ≤ w'.allocs

/-- The ledger is right but for one object and its index. -/
structure Besides (w : World) (W : Ledger) (i id : Nat) : Prop where
  entry : ∀ j, j ≠ i → At w j (W j)
  other : ∀ j k p, j ≠ i → W j = some (k, p) → k ≠ id
  known : ∀ k o, k ≠ id → w.objs k = some o → o.buffer.index ≠ i ∧ ∃ p, W o.buffer.index = some (k, p)
  unheld : ∀ k, k ≠ id → w.objs k = none → w.held k = 0

section Ledgers
variable {w w' : World} {W : Ledger} {i id : Nat} {o : ExtBuffer} {p : Place}

theorem Shows.placed (shows : Shows w W) (at_index : W i = some (id, p)) : Placed w i id p := by
  have entry := shows.entry i
  rwa [at_index] at entry

theorem Shows.vacant (shows : Shows w W) (at_index : W i = none) : Vacant w i := by
  have entry := shows.entry i
  rwa [at_index] at entry

/-- The place of a live buffer. -/
theorem Shows.place (shows : Shows w W) (object : w.objs id = some o) :
    ∃ p, W o.buffer.index = some (id, p) ∧ Placed w o.buffer.index id p ∧ o.refcount = p.refs := by
  obtain ⟨p, at_index⟩ := shows.known id o object
  have placed := shows.placed at_index
  obtain ⟨o', object', _, refs⟩ := placed.object
  cases Option.some.inj (object'.symm.trans object)
  exact ⟨p, at_index, placed, refs⟩

theorem Shows.slot (shows : Shows w W) : w.slots i = some id ↔ W i = some (id, .driver) := by
  cases at_index : W i with
  | none => simp [(shows.vacant at_index).slots]
  | some e =>
    obtain ⟨k, p⟩ := e
    rw [(shows.placed at_index).slots]
    cases p <;> simp

theorem Shows.free (shows : Shows w W) : w.buffers i = some id ↔ W i = some (id, .free) := by
  cases at_index : W i with
  | none => simp [(shows.vacant at_index).buffers]
  | some e =>
    obtain ⟨k, p⟩ := e
    rw [(shows.placed at_index).buffers]
    cases p <;> simp

theorem Shows.error (shows : Shows w W) : w.errors i = some id ↔ W i = some (id, .refused) := by
  cases at_index : W i with
  | none => simp [(shows.vacant at_index).errors]
  | some e =>
    obtain ⟨k, p⟩ := e
    rw [(shows.placed at_index).errors]
    cases p <;> simp

/-- A buffer that is held is live and nowhere else. -/
theorem Shows.held (shows : Shows w W) (referred : 0 < w.held id) :
    ∃ o more, w.objs id = some o ∧ w.held id = more + 1 ∧ W o.buffer.index = some (id, .held more) := by
  cases object : w.objs id with
  | none =>
    rw [shows.unheld id object] at referred
    contradiction
  | some o =>
    obtain ⟨p, at_index, placed, _⟩ := shows.place object
    have outside := placed.held
    cases p with
    | held more => exact ⟨o, more, rfl, outside, at_index⟩
    | driver | free | refused =>
      rw [outside] at referred
      contradiction

/-- What the driver has is in a slot. -/
theorem Shows.owned (shows : Shows w W) (owned : (w.driver i).isSome) :
    ∃ id, W i = some (id, .driver) := by
  cases at_index : W i with
  | none =>
    rw [(shows.vacant at_index).driver] at owned
    contradiction
  | some e =>
    obtain ⟨id, p⟩ := e
    rw [(shows.placed at_index).driver owned]
    exact ⟨id, rfl⟩

/-- The driver owns no buffer that is in another place. -/
theorem Placed.unowned (placed : Placed w i id p) (other : p ≠ .driver) : w.driver i = none := by
  cases owned : w.driver i with
  | none => rfl
  | some planes => exact absurd (placed.driver (by rw [owned]; rfl)) other

theorem At.same {j : Nat} {x : Option (Nat × Place)} (here : At w j x) (same : SameBut w w' i id)
    (elsewhere : j ≠ i) (other : ∀ k p, x = some (k, p) → k ≠ id) : At w' j x := by
  cases x with
  | none =>
    have vacant : Vacant w j := here
    exact ⟨(same.slots j elsewhere).trans vacant.slots, (same.buffers j elsewhere).trans vacant.buffers,
      (same.errors j elsewhere).trans vacant.errors, (same.driver j elsewhere).trans vacant.driver⟩
  | some e =>
    obtain ⟨k, p⟩ := e
    have placed : Placed w j k p := here
    have apart : k ≠ id := other k p rfl
    constructor
    case object =>
      rw [same.objs k apart]
      exact placed.object
    case slots => exact (same.slots j elsewhere).trans placed.slots
    case buffers => exact (same.buffers j elsewhere).trans placed.buffers
    case errors => exact (same.errors j elsewhere).trans placed.errors
    case held => exact (same.held k apart).trans placed.held
    case driver =>
      rw [same.driver j elsewhere]
      exact placed.driver
    case known => exact Nat.lt_of_lt_of_le placed.known same.allocs
    case valid =>
      rw [same.fd]
      exact placed.valid

theorem SameBut.setObj (same : SameBut w w' i id) (o : ExtBuffer) : SameBut w (setObj w' id o) i id :=
  ⟨same.slots, same.buffers, same.errors, same.driver,
    fun k other => (Function.update_of_ne other ..).trans (same.objs k other), same.held, same.fd,
    same.memory, same.enable, same.bufferCount, same.allocs⟩

/-- An object belongs to one index only. -/
theorem Shows.besides (shows : Shows w W) (at_index : W i = some (id, p)) : Besides w W i id := by
  obtain ⟨o, object, index, _⟩ := (shows.placed at_index).object
  constructor
  case entry => exact fun j _ => shows.entry j
  case other =>
    rintro j k q elsewhere there rfl
    obtain ⟨o', object', index', _⟩ := (shows.placed there).object
    cases Option.some.inj (object'.symm.trans object)
    exact elsewhere (index'.symm.trans index)
  case known =>
    intro k o' apart object'
    obtain ⟨q, there⟩ := shows.known k o' object'
    refine ⟨?_, q, there⟩
    rintro rfl
    cases there.symm.trans at_index
    exact apart rfl
  case unheld => exact fun k _ => shows.unheld k

/-- An object that is yet to be made, for an index that has none. -/
theorem Shows.besides_new (shows : Shows w W) (at_index : W i = none) (unused : w.objs id = none) :
    Besides w W i id := by
  constructor
  case entry => exact fun j _ => shows.entry j
  case other =>
    rintro j k q _ there rfl
    obtain ⟨o, object, _⟩ := (shows.placed there).object
    cases object.symm.trans unused
  case known =>
    intro k o _ object
    obtain ⟨q, there⟩ := shows.known k o object
    refine ⟨?_, q, there⟩
    rintro rfl
    cases there.symm.trans at_index
  case unheld => exact fun k _ => shows.unheld k

theorem Besides.same (besides : Besides w W i id) (same : SameBut w w' i id) : Besides w' W i id := by
  constructor
  case entry =>
    exact fun j elsewhere =>
      (besides.entry j elsewhere).same same elsewhere fun k p => besides.other j k p elsewhere
  case other => exact besides.other
  case known =>
    intro k o apart object
    rw [same.objs k apart] at object
    exact besides.known k o apart object
  case unheld =>
    intro k apart none
    rw [same.objs k apart] at none
    rw [same.held k apart]
    exact besides.unheld k apart none

/-- The object is entered in the ledger. -/
theorem Besides.enter (besides : Besides w W i id) (here : Placed w i id p) :
    Shows w (Function.update W i (some (id, p))) := by
  obtain ⟨o, object, index, _⟩ := here.object
  constructor
  case entry =>
    intro j
    by_cases own : j = i
    · subst own
      rw [Function.update_self]
      exact here
    · rw [Function.update_of_ne own]
      exact besides.entry j own
  case known =>
    intro k o' object'
    by_cases own : k = id
    · subst own
      cases Option.some.inj (object'.symm.trans object)
      rw [index, Function.update_self]
      exact ⟨p, rfl⟩
    · obtain ⟨elsewhere, there⟩ := besides.known k o' own object'
      rw [Function.update_of_ne elsewhere]
      exact there
  case unheld =>
    intro k none
    refine besides.unheld k ?_ none
    rintro rfl
    cases none.symm.trans object

/-- The object is struck out of the ledger. -/
theorem Besides.strike (besides : Besides w W i id) (gone : w.objs id = none) (unheld : w.held id = 0)
    (here : Vacant w i) : Shows w (Function.update W i none) := by
  constructor
  case entry =>
    intro j
    by_cases own : j = i
    · subst own
      rw [Function.update_self]
      exact here
    · rw [Function.update_of_ne own]
      exact besides.entry j own
  case known =>
    intro k o object
    have own : k ≠ id := by
      rintro rfl
      cases gone.symm.trans object
    obtain ⟨elsewhere, there⟩ := besides.known k o own object
    rw [Function.update_of_ne elsewhere]
    exact there
  case unheld =>
    intro k none
    by_cases own : k = id
    · rw [own]
      exact unheld
    · exact besides.unheld k own none

end Ledgers

/-! ## What the ledger must say -/

/-- While the component is enabled no buffer is missing but perhaps that of `i`,
and those that are queued are the driver's. -/
def CoversBut (w : World) (W : Ledger) (i : Nat → Prop) : Prop :=
  w.enable = true → ∀ j, j < w.bufferCount → ¬i j →
    ∃ id p, W j = some (id, p) ∧ (p = .driver → (w.driver j).isSome)

structure Kept (w : World) (W : Ledger) : Prop extends Shows w W where
  covers : CoversBut w W fun _ => False
  clean : w.faults = []
  memory : w.enable = true → w.memory ≠ .OVERLAY

/-- A buffer with one reference left, in no place. -/
structure Loose (w : World) (W : Ledger) (id : Nat) (o : ExtBuffer) : Prop
    extends Besides w W o.buffer.index id, Vacant w o.buffer.index where
  object : w.objs id = some o
  last : o.refcount = 1
  unreferred : w.held id = 0
  allocated : id < w.allocs
  valid : ¬w.fd < 0
  covers : CoversBut w W (· = o.buffer.index)
  clean : w.faults = []
  memory : w.enable = true → w.memory ≠ .OVERLAY

section Moves
variable {D : Driver} {w w' : World} {W : Ledger} {i id : Nat} {o : ExtBuffer} {p q : Place}

theorem CoversBut.enter {x : Option (Nat × Place)} (covers : CoversBut w W (· = i))
    (steady : w'.enable = w.enable ∧ w'.bufferCount = w.bufferCount)
    (driver : ∀ j, j ≠ i → w'.driver j = w.driver j)
    (here : w'.enable = true → ∃ id p, x = some (id, p) ∧ (p = .driver → (w'.driver i).isSome)) :
    CoversBut w' (Function.update W i x) fun _ => False := by
  intro on j below _
  by_cases own : j = i
  · subst own
    rw [Function.update_self]
    exact here on
  · rw [Function.update_of_ne own, driver j own]
    exact covers (steady.1 ▸ on) j (steady.2 ▸ below) own

theorem Kept.covers_but (kept : Kept w W) : CoversBut w W (· = i) :=
  fun on j below _ => kept.covers on j below not_false

/-- A buffer moves from one place to another. -/
theorem Kept.move (kept : Kept w W) (at_index : W i = some (id, p)) (same : SameBut w w' i id)
    (clean : w'.faults = w.faults) (here : Placed w' i id q)
    (owned : q = .driver → (w'.driver i).isSome) :
    Kept w' (Function.update W i (some (id, q))) where
  toShows := ((kept.besides at_index).same same).enter here
  covers := kept.covers_but.enter ⟨same.enable, same.bufferCount⟩ same.driver
    fun _ => ⟨id, q, rfl, owned⟩
  clean := clean.trans kept.clean
  memory := by
    rw [same.enable, same.memory]
    exact kept.memory

/-- A buffer is taken out of its place, with one reference left. -/
theorem Kept.loose (kept : Kept w W) (at_index : W o.buffer.index = some (id, p))
    (same : SameBut w w' o.buffer.index id) (clean : w'.faults = w.faults) (object : w'.objs id = some o)
    (last : o.refcount = 1) (vacant : Vacant w' o.buffer.index) (unreferred : w'.held id = 0) :
    Loose w' W id o where
  toBesides := (kept.besides at_index).same same
  toVacant := vacant
  object := object
  last := last
  unreferred := unreferred
  allocated := Nat.lt_of_lt_of_le (kept.placed at_index).known same.allocs
  valid := by
    rw [same.fd]
    exact (kept.placed at_index).valid
  covers := by
    intro on j below own
    rw [same.driver j own]
    exact kept.covers (same.enable ▸ on) j (same.bufferCount ▸ below) not_false
  clean := clean.trans kept.clean
  memory := by
    rw [same.enable, same.memory]
    exact kept.memory

/-- The driver gets the buffer and it is freed all the same. -/
def Lost (D : Driver) (w : World) (index : Nat) : Prop :=
  w.enable = true ∧ w.ending = true ∧ accepts D w index = true

theorem note_none {fault : Fault} (w : World) {i : Nat} (driver : w.driver i = none) :
    note (w.driver i).isSome fault w.faults = w.faults := by
  rw [driver]
  rfl

theorem Loose.freed (loose : Loose w W id o) (off : w.enable = false) :
    Kept (freed w id o) (Function.update W o.buffer.index none) := by
  have same : SameBut w (V4l2.freed w id o) o.buffer.index id := by
    constructor <;> intros <;> simp_all [V4l2.freed]
  constructor
  case toShows =>
    refine (loose.toBesides.same same).strike (Function.update_self ..) loose.unreferred ?_
    exact ⟨Function.update_self .., loose.buffers, loose.errors, loose.driver⟩
  case covers =>
    exact loose.covers.enter ⟨rfl, rfl⟩ same.driver fun on => absurd (off.symm.trans on) Bool.false_ne_true
  case clean => exact (note_none w loose.driver).trans loose.clean
  case memory => exact loose.memory

theorem Loose.taken (loose : Loose w W id o) :
    Kept (taken w id o) (Function.update W o.buffer.index (some (id, .driver))) := by
  have same : SameBut w (V4l2.taken w id o) o.buffer.index id := by
    constructor <;> intros <;> simp_all [V4l2.taken]
  have owned : ((V4l2.taken w id o).driver o.buffer.index).isSome := by
    rw [show (V4l2.taken w id o).driver o.buffer.index = _ from Function.update_self ..]
    rfl
  constructor
  case toShows =>
    refine (loose.toBesides.same same).enter ?_
    exact ⟨⟨o.dropped, Function.update_self .., rfl, rfl⟩, Function.update_self .., loose.buffers,
      loose.errors, loose.unreferred, fun _ => rfl, loose.allocated, loose.valid⟩
  case covers => exact loose.covers.enter ⟨rfl, rfl⟩ same.driver fun _ => ⟨id, .driver, rfl, fun _ => owned⟩
  case clean => exact (note_none w loose.driver).trans loose.clean
  case memory => exact loose.memory

theorem Loose.refused (loose : Loose w W id o) :
    Kept (refused w id o) (Function.update W o.buffer.index (some (id, .refused))) := by
  have same : SameBut w (V4l2.refused w id o) o.buffer.index id := by
    constructor <;> intros <;> simp_all [V4l2.refused]
  constructor
  case toShows =>
    refine (loose.toBesides.same same).enter ?_
    exact ⟨⟨_, Function.update_self .., rfl, rfl⟩, loose.slots, loose.buffers,
      Function.update_self .., loose.unreferred,
      fun owned => by rw [show (V4l2.refused w id o).driver = w.driver from rfl, loose.driver] at owned; contradiction,
      loose.allocated, loose.valid⟩
  case covers =>
    exact loose.covers.enter ⟨rfl, rfl⟩ same.driver fun _ => ⟨id, .refused, rfl, fun h => by contradiction⟩
  case clean => exact loose.clean
  case memory => exact loose.memory

/-- What becomes of the buffer of a driver that knows its index. -/
theorem Loose.put_known (loose : Loose w W id o) (seen : .queryFailed ∉ (pitcherPutBuffer D w id).faults) :
    (w.enable = false ∧ pitcherPutBuffer D w id = V4l2.freed w id o) ∨
    (w.enable = true ∧ accepts D w o.buffer.index = true ∧ w.ending = false ∧
      pitcherPutBuffer D w id = V4l2.taken w id o) ∨
    (w.enable = true ∧ accepts D w o.buffer.index = true ∧ w.ending = true ∧
      pitcherPutBuffer D w id = V4l2.freed (V4l2.taken w id o) id o) ∨
    (w.enable = true ∧ accepts D w o.buffer.index = false ∧ D.qbuf w.calls = false ∧
      pitcherPutBuffer D w id = V4l2.refused w id o) := by
  rcases put_cases (D := D) loose.object loose.last loose.valid with
    off | taken | lost | ⟨on, no, ⟨_, _, not_taken⟩, put⟩ | ⟨_, _, _, put⟩
  · exact .inl off
  · exact .inr (.inl taken)
  · exact .inr (.inr (.inl lost))
  · exact .inr (.inr (.inr ⟨on, no, not_taken, put⟩))
  · have known : (unknown w id o).faults <:+ (pitcherPutBuffer D w id).faults := by
      rw [put]
      split
      · exact note_suffix ..
      · exact List.suffix_rfl
    exact absurd (known.subset (List.mem_cons_self ..)) seen

/-- When the last reference is dropped the buffer gets a place, or is freed and no
longer in the ledger, unless it is lost. -/
theorem Loose.put (loose : Loose w W id o) (seen : .queryFailed ∉ (pitcherPutBuffer D w id).faults) :
    (Lost D w o.buffer.index → (pitcherPutBuffer D w id).faults ≠ []) ∧
    (¬Lost D w o.buffer.index → ∃ x, Kept (pitcherPutBuffer D w id) (Function.update W o.buffer.index x)) := by
  rcases loose.put_known seen with
    ⟨off, put⟩ | ⟨on, accepted, going, put⟩ | ⟨on, accepted, ending, put⟩ | ⟨on, no, _, put⟩
  · rw [put]
    exact ⟨fun lost => absurd (off.symm.trans lost.1) Bool.false_ne_true, fun _ => ⟨_, loose.freed off⟩⟩
  · rw [put]
    exact ⟨fun lost => absurd (going.symm.trans lost.2.1) Bool.false_ne_true, fun _ => ⟨_, loose.taken⟩⟩
  · refine ⟨fun _ => ?_, fun kept => absurd ⟨on, ending, accepted⟩ kept⟩
    rw [put]
    simp [V4l2.freed, V4l2.taken, note]
  · rw [put]
    exact ⟨fun lost => absurd (no.symm.trans lost.2.2) Bool.false_ne_true, fun _ => ⟨_, loose.refused⟩⟩

/-- The driver is asked once for the buffer of an enabled component. -/
theorem Loose.asked (loose : Loose w W id o) (on : w.enable = true)
    (seen : .queryFailed ∉ (pitcherPutBuffer D w id).faults) :
    (pitcherPutBuffer D w id).calls = w.calls + 1 ∧ accepts D w o.buffer.index = D.qbuf w.calls := by
  rcases loose.put_known seen with
    ⟨off, _⟩ | ⟨_, accepted, _, put⟩ | ⟨_, accepted, _, put⟩ | ⟨_, no, not_taken, put⟩
  · exact absurd (off.symm.trans on) Bool.false_ne_true
  · rw [put]
    exact ⟨rfl, accepted.trans (of_decide_eq_true accepted).2.2.symm⟩
  · rw [put]
    exact ⟨rfl, accepted.trans (of_decide_eq_true accepted).2.2.symm⟩
  · rw [put]
    exact ⟨rfl, no.trans not_taken.symm⟩

end Moves

end ImxTest.Pitcher.V4l2
