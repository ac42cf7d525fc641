import ImxTest.Pitcher.Release

/-! How a frame passes through `run_v4l2` to the driver. -/
namespace ImxTest.Pitcher.V4l2

/-- No buffer has passed to the driver. -/
structure Unmoved (w w' : World) : Prop where
  buffers : w'.buffers = w.buffers
  slots : w'.slots = w.slots
  driver : w'.driver = w.driver
  frameCount : w'.frameCount = w.frameCount

/-- One free buffer has passed to the driver, with the data of `src` and no other. -/
def Queued (dma : Int → Nat → UInt8) (w w' : World) (src : Buffer) : Prop :=
  ∃ i id o planes, w.buffers i = some id ∧ w.objs id = some o ∧
    w'.buffers = Function.update w.buffers i none ∧
    w'.slots = Function.update w.slots i (some id) ∧
    w'.driver = Function.update w.driver i (some planes) ∧
    w'.frameCount = w.frameCount + 1 ∧
    Carries w.memory w.multiplanar w.mem w'.mem dma src o.buffer planes

section Output
variable (D : Driver) (splane dplane : BufRef)

/-- Whatever the bytes are: where a transfer fails, nothing has moved; where it
succeeds, the frame is queued, if there is data in it. -/
def OutputMet (event : Event) (w : World) (pbuf : Frame) : Prop :=
  ∀ mem dma,
    let r := runV4l2Output D splane dplane event { w with mem } pbuf
    (r.2 ≠ .OK → Unmoved w r.1) ∧
      (r.2 = .OK → if pbuf.hasData then Queued dma { w with mem } r.1 pbuf.buffer else Unmoved w r.1)

/-- The frame gets as far as a transfer, to the object `id`. -/
structure Tried (w : World) (pbuf : Frame) (id : Nat) (o : ExtBuffer) : Prop where
  valid : ¬w.fd < 0
  data : pbuf.hasData = true
  found : getBuf w = some id
  object : w.objs id = some o
  same : formatsDiffer pbuf.buffer o.buffer = false

/-- A transfer that is tried can hand the frame over whole, to a driver that takes
it, and the component is neither disabled nor at its end. -/
def OutputGood (w : World) (pbuf : Frame) : Prop :=
  ∀ id o, Tried w pbuf id o →
    Transferable w.memory w.multiplanar pbuf.buffer o.buffer ∧
      w.enable = true ∧ w.ending = false ∧ accepts D w o.buffer.index = true

/-- What the component and the frame are at the start of a call. -/
structure Ready (w : World) (pbuf : Frame) : Prop where
  output : w.output = true
  free : ∀ i id, w.buffers i = some id →
    ∃ o, w.objs id = some o ∧ o.refcount = 1 ∧ o.buffer.index = i
  queued : ∀ i id, w.slots i = some id →
    ∃ o, w.objs id = some o ∧ o.refcount = 0 ∧ o.buffer.index = i
  single : w.multiplanar = false → ∀ id o, w.objs id = some o → o.buffer.count = 1
  layout : w.memory = .MMAP → ∀ id o, w.objs id = some o → Layout pbuf.buffer o.buffer

end Output

section Attempt
variable {D : Driver} {splane dplane : BufRef} {event : Event} {w : World} {pbuf : Frame}
  {id : Nat} {o : ExtBuffer}

/-- An event changes two flags at most. -/
theorem checkV4l2Events_eq (w : World) (event : Event) :
    ∃ eos change, checkV4l2Events w event = { w with eosReceived := eos, resolutionChange := change } := by
  unfold checkV4l2Events
  split
  · exact ⟨_, _, rfl⟩
  · cases event <;> exact ⟨_, _, rfl⟩

theorem getBuf_found (found : getBuf w = some id) : ∃ i, w.buffers i = some id := by
  unfold getBuf at found
  split at found
  · contradiction
  · obtain ⟨i, _, is⟩ := List.exists_of_findSome?_eq_some found
    exact ⟨i, is⟩

section Free
variable (output : w.output = true)
  (free : ∀ i id, w.buffers i = some id → ∃ o, w.objs id = some o ∧ o.refcount = 1 ∧ o.buffer.index = i)
include output free

/-- Without a transfer nothing moves. -/
theorem output_untried (untried : ∀ id o, ¬Tried w pbuf id o) :
    ∃ eos change,
      (runV4l2Output D splane dplane event w pbuf).1 =
        { w with eosReceived := eos, resolutionChange := change } ∧
      ((runV4l2Output D splane dplane event w pbuf).2 = .OK → pbuf.hasData = false) := by
  obtain ⟨eos, change, events⟩ := checkV4l2Events_eq w event
  unfold runV4l2Output
  by_cases closed : w.fd < 0
  · rw [if_pos closed]
    exact ⟨w.eosReceived, w.resolutionChange, rfl, fun h => by contradiction⟩
  rw [if_neg closed, if_neg (by rw [output]; decide)]
  simp only [events]
  by_cases noPlanes : pbuf.buffer.count = 0
  · rw [if_pos noPlanes]
    exact ⟨eos, change, rfl, fun h => by contradiction⟩
  rw [if_neg noPlanes]
  by_cases empty : (pbuf.buffer.plane 0).bytesused = 0
  · rw [if_pos empty]
    exact ⟨eos, change, rfl, fun _ => by simp [Frame.hasData, empty]⟩
  rw [if_neg empty]
  cases found : getBuf w with
  | none =>
    have same : getBuf { w with eosReceived := eos, resolutionChange := change } = none := found
    simp only [same]
    exact ⟨eos, change, rfl, fun h => by contradiction⟩
  | some id =>
    have same : getBuf { w with eosReceived := eos, resolutionChange := change } = some id := found
    obtain ⟨i, is⟩ := getBuf_found found
    obtain ⟨o, object, _⟩ := free i id is
    simp only [same, object]
    cases differ : formatsDiffer pbuf.buffer o.buffer with
    | true =>
      rw [if_pos rfl]
      exact ⟨eos, change, rfl, fun h => by contradiction⟩
    | false =>
      exact absurd ⟨closed, by simp [Frame.hasData, noPlanes, empty], found, object, differ⟩ (untried id o)

/-- A transfer, and the release behind it. -/
theorem output_tried (tried : Tried w pbuf id o) :
    ∃ eos change,
      let r := transferOutputBuffer w.memory splane dplane w.mem pbuf.buffer o.buffer
      let start := transferred { w with eosReceived := eos, resolutionChange := change } id o pbuf
        r.1 r.2.1 r.2.2
      let put := pitcherPutBuffer D start id
      let seek := put.seek || decide (pbuf.buffer.flags &&& PITCHER_BUFFER_FLAG_SEEK ≠ 0)
      runV4l2Output D splane dplane event w pbuf =
        ({ put with buffers := Function.update put.buffers o.buffer.index none, seek }, r.1) := by
  obtain ⟨eos, change, events⟩ := checkV4l2Events_eq w event
  obtain ⟨i, is⟩ := getBuf_found tried.found
  obtain ⟨o', object, _, rfl⟩ := free i id is
  cases Option.some.inj (object.symm.trans tried.object)
  have data : pbuf.buffer.count ≠ 0 ∧ (pbuf.buffer.plane 0).bytesused ≠ 0 := of_decide_eq_true tried.data
  have found : getBuf { w with eosReceived := eos, resolutionChange := change } = some id := tried.found
  refine ⟨eos, change, ?_⟩
  unfold runV4l2Output
  rw [if_neg tried.valid, if_neg (by rw [output]; decide)]
  simp only [events]
  rw [if_neg data.1, if_neg data.2]
  simp only [found, tried.object, tried.same]
  rw [if_neg Bool.false_ne_true]
  have free : (transferred { w with eosReceived := eos, resolutionChange := change } id o pbuf
      (transferOutputBuffer w.memory splane dplane w.mem pbuf.buffer o.buffer).1
      (transferOutputBuffer w.memory splane dplane w.mem pbuf.buffer o.buffer).2.1
      (transferOutputBuffer w.memory splane dplane w.mem pbuf.buffer o.buffer).2.2).buffers
        o.buffer.index = some id := is
  simp only [releaseFree, free]

end Free

/-- What a transfer leaves: the buffer is no longer free, and the driver has it
exactly where it is enabled, not at its end, and accepts it. -/
theorem output_moves (ready : Ready w pbuf) (tried : Tried w pbuf id o) :
    let r := transferOutputBuffer w.memory splane dplane w.mem pbuf.buffer o.buffer
    let out := runV4l2Output D splane dplane event w pbuf
    out.2 = r.1 ∧ out.1.mem = r.2.1 ∧ out.1.buffers = Function.update w.buffers o.buffer.index none ∧
      if w.enable = true ∧ w.ending = false ∧ accepts D w o.buffer.index = true then
        out.1.slots = Function.update w.slots o.buffer.index (some id) ∧
          out.1.driver = Function.update w.driver o.buffer.index
            (some (if w.multiplanar then r.2.2 else r.2.2.take 1)) ∧
          out.1.frameCount = w.frameCount + 1
      else ¬(out.1.slots o.buffer.index = some id ∧ out.1.frameCount = w.frameCount + 1) := by
  obtain ⟨eos, change, result⟩ := @output_tried D splane dplane event w pbuf id o ready.output ready.free tried
  obtain ⟨i, is⟩ := getBuf_found tried.found
  obtain ⟨o', object, last, _⟩ := ready.free i id is
  cases Option.some.inj (object.symm.trans tried.object)
  generalize transferOutputBuffer w.memory splane dplane w.mem pbuf.buffer o.buffer = r at result ⊢
  obtain ⟨ret, mem, planes⟩ := r
  simp only at result ⊢
  rw [result]
  obtain ⟨priv, moved⟩ : ∃ priv, (transferred { w with eosReceived := eos, resolutionChange := change }
      id o pbuf ret mem planes).objs id = some { o with buffer := { o.buffer with planes, priv } } :=
    ⟨_, Function.update_self ..⟩
  rcases put_cases (D := D) moved last tried.valid with
    ⟨off, put⟩ | ⟨on, accepted, going, put⟩ | ⟨on, accepted, ending, put⟩ | ⟨on, no, _, put⟩ |
      ⟨on, no, _, put⟩
  · rw [put, if_neg (fun h => Bool.false_ne_true (off.symm.trans h.1))]
    refine ⟨rfl, rfl, rfl, ?_⟩
    rintro ⟨slot, _⟩
    cases (Function.update_self ..).symm.trans slot
  · rw [put, if_pos ⟨on, going, accepted⟩]
    refine ⟨rfl, rfl, rfl, rfl, rfl, ?_⟩
    exact if_pos ready.output
  · rw [put, if_neg (fun h => Bool.false_ne_true (h.2.1.symm.trans ending))]
    refine ⟨rfl, rfl, rfl, ?_⟩
    rintro ⟨slot, _⟩
    cases (Function.update_self ..).symm.trans slot
  · rw [put, if_neg (fun h => Bool.false_ne_true (no.symm.trans h.2.2))]
    refine ⟨rfl, rfl, rfl, ?_⟩
    rintro ⟨_, count⟩
    exact absurd count (Nat.ne_of_lt (Nat.lt_succ_self _))
  · split at put
    all_goals
      rw [put, if_neg (fun h => Bool.false_ne_true (no.symm.trans h.2.2))]
      refine ⟨rfl, rfl, rfl, ?_⟩
      rintro ⟨_, count⟩
      exact absurd count (Nat.ne_of_lt (Nat.lt_succ_self _))

theorem Tried.unique {id' : Nat} {o' : ExtBuffer} (tried : Tried w pbuf id o)
    (other : Tried w pbuf id' o') : id' = id ∧ o' = o := by
  obtain rfl := Option.some.inj (other.found.symm.trans tried.found)
  exact ⟨rfl, Option.some.inj (other.object.symm.trans tried.object)⟩

theorem Tried.same_format (tried : Tried w pbuf id o) (sfmt dfmt : PixFmtInfo)
    (source : pbuf.buffer.format = some sfmt) (target : o.buffer.format = some dfmt) :
    sfmt.format = dfmt.format := by
  have same := tried.same
  simp only [formatsDiffer, source, target] at same
  simpa using same

/-- The planes of the buffer are the ones that the driver is given. -/
theorem planes_sent (ready : Ready w pbuf) (tried : Tried w pbuf id o) (mem : Nat → UInt8) :
    let planes := (transferOutputBuffer w.memory splane dplane mem pbuf.buffer o.buffer).2.2
    (if w.multiplanar then planes else planes.take 1) = planes := by
  have length := transfer_length w.memory splane dplane mem pbuf.buffer o.buffer
  cases several : w.multiplanar with
  | true => rfl
  | false =>
    apply List.take_of_length_le
    exact Nat.le_of_eq (length.trans (ready.single several id o tried.object))

/-- A frame that is tried is handed over properly exactly where the driver gets
all of it. -/
theorem outputMet_iff_tried (ready : Ready w pbuf) (tried : Tried w pbuf id o) :
    OutputMet D splane dplane event w pbuf ↔
      Transferable w.memory w.multiplanar pbuf.buffer o.buffer ∧
        w.enable = true ∧ w.ending = false ∧ accepts D w o.buffer.index = true := by
  obtain ⟨i, is⟩ := getBuf_found tried.found
  obtain ⟨o', object, _, rfl⟩ := ready.free i id is
  cases Option.some.inj (object.symm.trans tried.object)
  have data : (pbuf.buffer.plane 0).bytesused ≠ 0 := (of_decide_eq_true tried.data).2
  have moves := fun mem => @output_moves D splane dplane event { w with mem } pbuf id o
    ⟨ready.output, ready.free, ready.queued, ready.single, ready.layout⟩
    ⟨tried.valid, tried.data, tried.found, tried.object, tried.same⟩
  have sent := fun mem => @planes_sent splane dplane w pbuf id o ready tried mem
  rw [← @transfer_iff pbuf.buffer o.buffer splane dplane w.memory w.multiplanar
    (fun mmap => ready.layout mmap id o tried.object) tried.same_format data
    (fun one => ready.single one id o tried.object)]
  constructor
  · intro met
    have each : ∀ mem dma,
        (w.enable = true ∧ w.ending = false ∧ accepts D w o.buffer.index = true) ∧
          (transferOutputBuffer w.memory splane dplane mem pbuf.buffer o.buffer).1 = .OK ∧
          Carries w.memory w.multiplanar mem
            (transferOutputBuffer w.memory splane dplane mem pbuf.buffer o.buffer).2.1 dma pbuf.buffer
            o.buffer (transferOutputBuffer w.memory splane dplane mem pbuf.buffer o.buffer).2.2 := by
      intro mem dma
      obtain ⟨failed, succeeded⟩ := met mem dma
      obtain ⟨ret, memory, buffers, moved⟩ := moves mem
      have ok : (runV4l2Output D splane dplane event { w with mem } pbuf).2 = .OK := by
        by_contra bad
        have same := congrFun (buffers.symm.trans (failed bad).buffers) o.buffer.index
        rw [Function.update_self] at same
        cases same.trans is
      have queued := succeeded ok
      rw [if_pos tried.data] at queued
      obtain ⟨j, id', o', planes, there, object', released, slots, driver, count, carries⟩ := queued
      have index : j = o.buffer.index := by
        by_contra other
        have same := congrFun (buffers.symm.trans released) j
        rw [Function.update_of_ne other, Function.update_self] at same
        cases there.symm.trans same
      subst index
      cases Option.some.inj (there.symm.trans is)
      cases Option.some.inj (object'.symm.trans tried.object)
      split at moved
      case isTrue accepted =>
        obtain ⟨_, given, _⟩ := moved
        have same := congrFun (given.symm.trans driver) o.buffer.index
        rw [Function.update_self, Function.update_self, sent mem] at same
        cases Option.some.inj same
        rw [memory] at carries
        exact ⟨accepted, ret.symm.trans ok, carries⟩
      case isFalse =>
        refine absurd ⟨?_, count⟩ moved
        rw [slots, Function.update_self]
    exact ⟨fun mem dma => (each mem dma).2, (each (fun _ => 0) fun _ _ => 0).1⟩
  · rintro ⟨arrives, accepted⟩ mem dma
    obtain ⟨ok, carries⟩ := arrives mem dma
    obtain ⟨ret, memory, buffers, moved⟩ := moves mem
    obtain ⟨slots, driver, count⟩ := if_pos accepted ▸ moved
    refine ⟨fun bad => absurd (ret.trans ok) bad, fun _ => ?_⟩
    rw [if_pos tried.data]
    rw [sent mem] at driver
    refine ⟨o.buffer.index, id, o, _, is, tried.object, buffers, slots, driver, count, ?_⟩
    rw [memory]
    exact carries

theorem outputMet_iff (ready : Ready w pbuf) :
    OutputMet D splane dplane event w pbuf ↔ OutputGood D w pbuf := by
  by_cases some_try : ∃ id o, Tried w pbuf id o
  · obtain ⟨id, o, tried⟩ := some_try
    rw [outputMet_iff_tried ready tried]
    constructor
    · intro good id' o' other
      obtain ⟨rfl, rfl⟩ := tried.unique other
      exact good
    · exact fun good => good id o tried
  · have untried : ∀ id o, ¬Tried w pbuf id o := fun id o tried => some_try ⟨id, o, tried⟩
    constructor
    · exact fun _ id o tried => absurd tried (untried id o)
    · intro _ mem dma
      obtain ⟨eos, change, still, empty⟩ := @output_untried D splane dplane event { w with mem } pbuf
        ready.output ready.free fun id o tried =>
          untried id o ⟨tried.valid, tried.data, tried.found, tried.object, tried.same⟩
      refine ⟨fun _ => ?_, fun ok => ?_⟩
      · rw [still]
        exact ⟨rfl, rfl, rfl, rfl⟩
      · rw [empty ok, if_neg Bool.false_ne_true, still]
        exact ⟨rfl, rfl, rfl, rfl⟩

end Attempt

/-! ## The two transfers of a run -/

section Runs
variable {D : Driver} {splane dplane : BufRef} {w : World} {pbuf : Frame} {id : Nat} {o : ExtBuffer}

/-- The free buffers and the frame counter are as they were, but for one buffer
that the driver has given back. -/
structure OneDequeue (w w' : World) : Prop where
  frameCount : w'.frameCount = w.frameCount
  buffers : w'.buffers = w.buffers ∨ ∃ i id, w.slots i = some id ∧
    w'.slots = Function.update w.slots i none ∧ w'.buffers = Function.update w.buffers i (some id)

/-- The state of a run once the driver has been asked for a buffer. -/
def dequeued (D : Driver) (splane dplane : BufRef) (a : RunAnswers) (w : World) (pbuf : Frame) : World :=
  let first := (firstOutput D splane dplane a w (some pbuf)).1
  match dqbuf first a.dq with
  | (w, none) => w
  | (w, some id) => returned D a w id

/-- A second transfer is made. -/
def Retries (D : Driver) (splane dplane : BufRef) (a : RunAnswers) (w : World) (pbuf : Frame) : Prop :=
  (firstOutput D splane dplane a w (some pbuf)).2 = some pbuf ∧
    (dqbuf (firstOutput D splane dplane a w (some pbuf)).1 a.dq).2.isSome

/-- Each transfer of a run is as it should be, and between them the driver gives
back one buffer at most. -/
structure RunMet (D : Driver) (splane dplane : BufRef) (a : RunAnswers) (w : World) (pbuf : Frame) :
    Prop where
  first : OutputMet D splane dplane a.first w pbuf
  between : ∀ mem, OneDequeue (firstOutput D splane dplane a { w with mem } (some pbuf)).1
    (dequeued D splane dplane a { w with mem } pbuf)
  second : ∀ mem, Retries D splane dplane a { w with mem } pbuf →
    OutputMet D splane dplane a.second (dequeued D splane dplane a { w with mem } pbuf) pbuf
  last : ∀ mem,
    (Retries D splane dplane a { w with mem } pbuf →
      (runV4l2 D splane dplane a { w with mem } (some pbuf)).1 =
        (runV4l2Output D splane dplane a.second (dequeued D splane dplane a { w with mem } pbuf) pbuf).1) ∧
    (¬Retries D splane dplane a { w with mem } pbuf →
      (runV4l2 D splane dplane a { w with mem } (some pbuf)).1 =
        dequeued D splane dplane a { w with mem } pbuf)

/-- Each transfer of a run can be made. -/
def RunGood (D : Driver) (splane dplane : BufRef) (a : RunAnswers) (w : World) (pbuf : Frame) : Prop :=
  OutputGood D w pbuf ∧ ∀ mem, Retries D splane dplane a { w with mem } pbuf →
    OutputGood D (dequeued D splane dplane a { w with mem } pbuf) pbuf

/-- Buffers the driver has are under the index of their slot. -/
def Slotted (w : World) : Prop :=
  ∀ i id, w.slots i = some id → ∃ o, w.objs id = some o ∧ o.buffer.index = i

theorem dqbuf_output (output : w.output = true) (slotted : Slotted w) (answer : Dqbuf) :
    (∃ ending driver, dqbuf w answer = ({ w with ending, driver }, none)) ∨
    ∃ d id o driver, w.slots d.index = some id ∧ w.objs id = some o ∧ o.buffer.index = d.index ∧
      dqbuf w answer =
        ({ w with
            driver
            slots := Function.update w.slots d.index none
            objs := Function.update w.objs id (some
              { buffer := { o.buffer with planes := dqPlanes w.multiplanar d o.buffer.planes }
                refcount := o.refcount + 1 }) },
          some id) := by
  unfold dqbuf
  split
  · exact .inl ⟨w.ending, w.driver, rfl⟩
  cases answer with
  | notReady => exact .inl ⟨w.ending, w.driver, rfl⟩
  | failed epipe =>
    simp only
    split
    · exact .inl ⟨true, w.driver, rfl⟩
    · exact .inl ⟨w.ending, w.driver, rfl⟩
  | done d =>
    simp only
    cases slot : w.slots d.index with
    | none => exact .inl ⟨w.ending, _, rfl⟩
    | some id =>
      obtain ⟨o, object, index⟩ := slotted _ id slot
      refine .inr ⟨d, id, o, Function.update w.driver d.index none, slot, object, index, ?_⟩
      simp only [object, output, if_true, pitcherGetBuffer, setObj, Function.update_self,
        Function.update_idem, Bool.not_true, Bool.false_eq_true, false_and, if_false]

/-- What a run does with a buffer that an output has got back. -/
theorem returned_output {a : RunAnswers} (output : w.output = true) (object : w.objs id = some o)
    (referred : 0 < o.refcount) :
    ∃ sources ending, returned D a w id =
      { w with
        sources, ending
        objs := Function.update w.objs id (some o.released)
        buffers := Function.update w.buffers o.buffer.index (some id) } := by
  obtain ⟨sources, given⟩ := releasePriv_eq object
  simp only [returned, given, Function.update_self, output, if_true, pitcherGetBuffer, setObj,
    Function.update_idem]
  by_cases end_of_stream : o.released.buffer.flags &&& PITCHER_BUFFER_FLAG_LAST ≠ 0
  · refine ⟨sources, true, ?_⟩
    rw [if_pos end_of_stream, put_shared (Function.update_self ..) (Nat.succ_lt_succ referred)]
    simp only [setObj, Function.update_idem, Nat.add_sub_cancel]
    rfl
  · refine ⟨sources, w.ending, ?_⟩
    rw [if_neg end_of_stream, put_shared (Function.update_self ..) (Nat.succ_lt_succ referred)]
    simp only [setObj, Function.update_idem, Nat.add_sub_cancel]
    rfl

/-- A buffer that an output has got back, free for a frame. -/
def ExtBuffer.givenBack (o : ExtBuffer) (multiplanar : Bool) (d : Dequeued) : ExtBuffer :=
  { buffer := { o.buffer with planes := dqPlanes multiplanar d o.buffer.planes, priv := none }
    refcount := o.refcount + 1 }

/-- The part of a run between its two transfers. -/
theorem dequeue_cases (a : RunAnswers) (output : w.output = true) (slotted : Slotted w) :
    ((dqbuf w a.dq).2 = none ∧ ∃ ending driver, (dqbuf w a.dq).1 = { w with ending, driver }) ∨
    ∃ d id o sources ending driver, w.slots d.index = some id ∧ w.objs id = some o ∧
      o.buffer.index = d.index ∧ (dqbuf w a.dq).2 = some id ∧
      returned D a (dqbuf w a.dq).1 id =
        { w with
          sources, ending, driver
          slots := Function.update w.slots d.index none
          buffers := Function.update w.buffers d.index (some id)
          objs := Function.update w.objs id (some (o.givenBack w.multiplanar d)) } := by
  rcases dqbuf_output output slotted a.dq with ⟨ending, driver, none⟩ | ⟨d, id, o, driver, slot, object, index, got⟩
  · rw [none]
    exact .inl ⟨rfl, ending, driver, rfl⟩
  · right
    obtain ⟨sources, ending, back⟩ := @returned_output D (dqbuf w a.dq).1 id
      { buffer := { o.buffer with planes := dqPlanes w.multiplanar d o.buffer.planes }
        refcount := o.refcount + 1 } a (by rw [got]; exact output)
      (by rw [got]; exact Function.update_self ..) (Nat.succ_pos _)
    refine ⟨d, id, o, sources, ending, driver, slot, object, index, by rw [got], ?_⟩
    rw [back, got, ← index]
    simp only [Function.update_idem]
    rfl

theorem dequeued_cases (a : RunAnswers) (pbuf : Frame) {first : World} {left : Option Frame}
    (made : firstOutput D splane dplane a w (some pbuf) = (first, left))
    (output : first.output = true) (slotted : Slotted first) :
    (¬Retries D splane dplane a w pbuf ∧
      ∃ ending driver, dequeued D splane dplane a w pbuf = { first with ending, driver }) ∨
    ∃ d id o sources ending driver, first.slots d.index = some id ∧ first.objs id = some o ∧
      o.buffer.index = d.index ∧
      dequeued D splane dplane a w pbuf =
        { first with
          sources, ending, driver
          slots := Function.update first.slots d.index none
          buffers := Function.update first.buffers d.index (some id)
          objs := Function.update first.objs id (some (o.givenBack first.multiplanar d)) } := by
  unfold Retries dequeued
  simp only [made]
  rcases dequeue_cases (D := D) a output slotted with
    ⟨none, ending, driver, is⟩ | ⟨d, id, o, sources, ending, driver, slot, object, index, some, is⟩
  · left
    refine ⟨fun h => by simp [none] at h, ending, driver, ?_⟩
    rw [← is]
    split
    case h_1 same => rw [same]
    case h_2 same =>
      rw [same] at none
      contradiction
  · right
    refine ⟨d, id, o, sources, ending, driver, slot, object, index, ?_⟩
    rw [← is]
    split
    case h_1 same =>
      rw [same] at some
      contradiction
    case h_2 same =>
      rw [same] at some ⊢
      rw [Option.some.inj some]

theorem dequeued_one (a : RunAnswers) (pbuf : Frame) {first : World} {left : Option Frame}
    (made : firstOutput D splane dplane a w (some pbuf) = (first, left))
    (output : first.output = true) (slotted : Slotted first) :
    OneDequeue first (dequeued D splane dplane a w pbuf) := by
  rcases dequeued_cases a pbuf made output slotted with
    ⟨_, ending, driver, is⟩ | ⟨d, id, o, sources, ending, driver, slot, _, _, is⟩
  · rw [is]
    exact ⟨rfl, .inl rfl⟩
  · rw [is]
    exact ⟨rfl, .inr ⟨d.index, id, slot, rfl, rfl⟩⟩

theorem dqPlanes_length (multiplanar : Bool) (d : Dequeued) (planes : List BufRef) :
    (dqPlanes multiplanar d planes).length = planes.length := by
  unfold dqPlanes
  split
  · rw [List.length_mapIdx]
  · rw [List.length_modify]

theorem dqPlanes_same (multiplanar : Bool) (d : Dequeued) (planes : List BufRef) :
    (dqPlanes multiplanar d planes).map (fun p => (p.virt, p.size)) =
      planes.map fun p => (p.virt, p.size) := by
  apply List.ext_getElem?
  intro k
  unfold dqPlanes
  split
  · rw [List.getElem?_map, List.getElem?_map, List.getElem?_mapIdx, Option.map_map]
    rfl
  · rw [List.getElem?_map, List.getElem?_map, List.getElem?_modify]
    cases planes[k]? with
    | none => rfl
    | some p => by_cases first : 0 = k <;> simp [first]

/-- What a second transfer finds is as it should be for a transfer. -/
theorem Ready.dequeued {a : RunAnswers} {eos change : Bool} {left : Option Frame} (ready : Ready w pbuf)
    (made : firstOutput D splane dplane a w (some pbuf) =
      ({ w with eosReceived := eos, resolutionChange := change }, left)) :
    Ready (dequeued D splane dplane a w pbuf) pbuf := by
  have slotted : Slotted { w with eosReceived := eos, resolutionChange := change } := by
    intro i id slot
    obtain ⟨o, object, _, index⟩ := ready.queued i id slot
    exact ⟨o, object, index⟩
  rcases dequeued_cases a pbuf made ready.output slotted with
    ⟨_, ending, driver, is⟩ | ⟨d, id, o, sources, ending, driver, slot, object, index, is⟩
  · rw [is]
    exact ⟨ready.output, ready.free, ready.queued, ready.single, ready.layout⟩
  · rw [is]
    have idle : o.refcount = 0 := by
      obtain ⟨o', object', idle, _⟩ := ready.queued d.index id slot
      rwa [Option.some.inj (object'.symm.trans object)] at idle
    constructor
    case output => exact ready.output
    case free =>
      intro i id' is_free
      simp only at is_free ⊢
      by_cases here : i = d.index
      · rw [here, Function.update_self] at is_free
        cases is_free
        refine ⟨o.givenBack w.multiplanar d, Function.update_self .., ?_, index.trans here.symm⟩
        exact congrArg Nat.succ idle
      · rw [Function.update_of_ne here] at is_free
        obtain ⟨o', object', one, index'⟩ := ready.free i id' is_free
        have other : id' ≠ id := by
          rintro rfl
          rw [Option.some.inj (object'.symm.trans object), idle] at one
          contradiction
        exact ⟨o', by rw [Function.update_of_ne other]; exact object', one, index'⟩
    case queued =>
      intro i id' is_queued
      simp only at is_queued ⊢
      have elsewhere : i ≠ d.index := by
        rintro rfl
        rw [Function.update_self] at is_queued
        cases is_queued
      rw [Function.update_of_ne elsewhere] at is_queued
      obtain ⟨o', object', none, index'⟩ := ready.queued i id' is_queued
      have other : id' ≠ id := by
        rintro rfl
        rw [Option.some.inj (object'.symm.trans object)] at index'
        exact elsewhere (index'.symm.trans index)
      exact ⟨o', by rw [Function.update_of_ne other]; exact object', none, index'⟩
    case single =>
      intro one id' o' object'
      simp only at object'
      by_cases here : id' = id
      · rw [here, Function.update_self] at object'
        cases object'
        have count := ready.single one id o object
        rw [Buffer.count] at count ⊢
        rw [ExtBuffer.givenBack, dqPlanes_length, count]
      · rw [Function.update_of_ne here] at object'
        exact ready.single one id' o' object'
    case layout =>
      intro mmap id' o' object'
      simp only at object'
      by_cases here : id' = id
      · rw [here, Function.update_self] at object'
        cases object'
        exact (ready.layout mmap id o object).of_same_planes (dqPlanes_same ..) rfl
      · rw [Function.update_of_ne here] at object'
        exact ready.layout mmap id' o' object'

/-- A buffer that has been queued is under the index of its slot, as the others are. -/
theorem output_slotted {event : Event} (ready : Ready w pbuf) (tried : Tried w pbuf id o)
    (on : w.enable = true) (going : w.ending = false) (accepted : accepts D w o.buffer.index = true) :
    Slotted (runV4l2Output D splane dplane event w pbuf).1 ∧
      (runV4l2Output D splane dplane event w pbuf).1.output = true := by
  obtain ⟨eos, change, result⟩ := @output_tried D splane dplane event w pbuf id o ready.output ready.free tried
  obtain ⟨i, is⟩ := getBuf_found tried.found
  have free := ready.free i id is
  generalize transferOutputBuffer w.memory splane dplane w.mem pbuf.buffer o.buffer = r at result
  obtain ⟨ret, mem, planes⟩ := r
  simp only at result
  rw [result]
  obtain ⟨priv, moved⟩ : ∃ priv, (transferred { w with eosReceived := eos, resolutionChange := change }
      id o pbuf ret mem planes).objs id = some { o with buffer := { o.buffer with planes, priv } } :=
    ⟨_, Function.update_self ..⟩
  obtain ⟨o', object, last, _⟩ := free
  cases Option.some.inj (object.symm.trans tried.object)
  rw [put_taken moved last tried.valid on accepted going]
  refine ⟨?_, ready.output⟩
  intro j id' slot
  simp only [taken, transferred, setObj, Function.update_idem] at slot ⊢
  by_cases own : id' = id
  · subst own
    refine ⟨_, Function.update_self .., ?_⟩
    by_cases here : j = o.buffer.index
    · exact here.symm
    · rw [Function.update_of_ne here] at slot
      obtain ⟨o', object', idle, _⟩ := ready.queued j id' slot
      rw [Option.some.inj (object'.symm.trans tried.object), last] at idle
      contradiction
  · have there : j ≠ o.buffer.index := by
      rintro rfl
      rw [Function.update_self] at slot
      exact own (Option.some.inj slot).symm
    rw [Function.update_of_ne there] at slot
    obtain ⟨o', object', _, index⟩ := ready.queued j id' slot
    exact ⟨o', by rw [Function.update_of_ne own]; exact object', index⟩

theorem firstOutput_eq (a : RunAnswers) (output : w.output = true) :
    firstOutput D splane dplane a w (some pbuf) =
      ((runV4l2Output D splane dplane a.first w pbuf).1,
        if (runV4l2Output D splane dplane a.first w pbuf).2 = .OK then none else some pbuf) := by
  simp only [firstOutput]
  rw [if_pos output]

/-- After a first transfer that is as it should be, no frame is left, or nothing
has moved. -/
theorem first_cases (a : RunAnswers) (ready : Ready w pbuf) (good : OutputGood D w pbuf) :
    ∃ first left, firstOutput D splane dplane a w (some pbuf) = (first, left) ∧
      Slotted first ∧ first.output = true ∧
      (left = none ∨ left = some pbuf ∧
        ∃ eos change, first = { w with eosReceived := eos, resolutionChange := change }) := by
  refine ⟨_, _, firstOutput_eq a ready.output, ?_⟩
  by_cases some_try : ∃ id o, Tried w pbuf id o
  · obtain ⟨id, o, tried⟩ := some_try
    obtain ⟨_, on, going, accepted⟩ := good id o tried
    have met := (@outputMet_iff D splane dplane a.first w pbuf ready).mpr good
    have ok : (runV4l2Output D splane dplane a.first w pbuf).2 = .OK := by
      by_contra bad
      obtain ⟨i, is⟩ := getBuf_found tried.found
      have buffers := ((met w.mem fun _ _ => 0).1 bad).buffers
      have moves := (@output_moves D splane dplane a.first w pbuf id o ready tried).2.2.1
      obtain ⟨o', object, _, index⟩ := ready.free i id is
      rw [Option.some.inj (object.symm.trans tried.object)] at index
      have same := congrFun (moves.symm.trans buffers) i
      rw [index, Function.update_self] at same
      cases same.trans is
    obtain ⟨slotted, output⟩ := @output_slotted D splane dplane w pbuf id o a.first ready tried on going accepted
    exact ⟨slotted, output, .inl (if_pos ok)⟩
  · obtain ⟨eos, change, same, _⟩ := @output_untried D splane dplane a.first w pbuf ready.output ready.free
      fun id o tried => some_try ⟨id, o, tried⟩
    rw [same]
    refine ⟨?_, ready.output, ?_⟩
    · intro i id slot
      obtain ⟨o, object, _, index⟩ := ready.queued i id slot
      exact ⟨o, object, index⟩
    · split
      · exact .inl rfl
      · exact .inr ⟨rfl, eos, change, rfl⟩

theorem runV4l2_last {a : RunAnswers} (ready : Ready w pbuf) (good : OutputGood D w pbuf) :
    (Retries D splane dplane a w pbuf →
      (runV4l2 D splane dplane a w (some pbuf)).1 =
        (runV4l2Output D splane dplane a.second (dequeued D splane dplane a w pbuf) pbuf).1) ∧
    (¬Retries D splane dplane a w pbuf →
      (runV4l2 D splane dplane a w (some pbuf)).1 = dequeued D splane dplane a w pbuf) := by
  obtain ⟨first, left, made, slotted, output, rest⟩ := @first_cases D splane dplane w pbuf a ready good
  have still : (dequeued D splane dplane a w pbuf).output = true := by
    rcases dequeued_cases a pbuf made output slotted with ⟨_, _, _, is⟩ | ⟨_, _, _, _, _, _, _, _, _, is⟩ <;>
      rw [is] <;> exact output
  unfold dequeued at still ⊢
  unfold runV4l2 Retries
  simp only [made] at still ⊢
  by_cases closed : w.fd < 0
  · have nothing : runV4l2Output D splane dplane a.first w pbuf = (w, .E_INVAL) := by
      unfold runV4l2Output
      exact if_pos closed
    rw [firstOutput_eq a ready.output, nothing, Prod.mk.injEq] at made
    have no_buffer : dqbuf first a.dq = (w, none) := by
      rw [← made.1]
      exact if_pos closed
    rw [if_pos closed, no_buffer]
    simp
  rw [if_neg closed]
  cases got : dqbuf first a.dq with
  | mk behind id =>
    rw [got] at still
    cases id with
    | none => simp
    | some id =>
      simp only at still ⊢
      rcases rest with rfl | ⟨rfl, _⟩
      · simp
      · simp [still]

/-- A frame passes to the driver as it should, on its own and in a run of the
component, exactly where the transfers that are made can be made. -/
theorem output_met_iff (a : RunAnswers) (ready : Ready w pbuf) :
    (∀ event, OutputMet D splane dplane event w pbuf ↔ OutputGood D w pbuf) ∧
      (RunMet D splane dplane a w pbuf ↔ RunGood D splane dplane a w pbuf) := by
  have ready_any : ∀ mem, Ready { w with mem } pbuf := fun mem =>
    ⟨ready.output, ready.free, ready.queued, ready.single, ready.layout⟩
  have good_any : ∀ mem, OutputGood D w pbuf → OutputGood D { w with mem } pbuf := fun mem good id o tried =>
    good id o ⟨tried.valid, tried.data, tried.found, tried.object, tried.same⟩
  have again : ∀ mem, OutputGood D w pbuf → Retries D splane dplane a { w with mem } pbuf →
      Ready (dequeued D splane dplane a { w with mem } pbuf) pbuf := by
    intro mem good retries
    obtain ⟨first, left, made, _, _, none | ⟨_, eos, change, same⟩⟩ :=
      @first_cases D splane dplane { w with mem } pbuf a (ready_any mem) (good_any mem good)
    · rw [Retries, made, none] at retries
      cases retries.1
    · rw [same] at made
      exact (ready_any mem).dequeued made
  refine ⟨fun event => outputMet_iff ready, ?_⟩
  constructor
  · intro met
    have good := (outputMet_iff ready).mp met.first
    refine ⟨good, ?_⟩
    intro mem retries
    exact (outputMet_iff (again mem good retries)).mp (met.second mem retries)
  · rintro ⟨good, second⟩
    constructor
    case first => exact (outputMet_iff ready).mpr good
    case second => exact fun mem retries => (outputMet_iff (again mem good retries)).mpr (second mem retries)
    case last => exact fun mem => runV4l2_last (ready_any mem) (good_any mem good)
    case between =>
      intro mem
      obtain ⟨first, left, made, slotted, output, _⟩ :=
        @first_cases D splane dplane { w with mem } pbuf a (ready_any mem) (good_any mem good)
      rw [made]
      exact dequeued_one a pbuf made output slotted

end Runs

/-! ## A buffer that is too small -/

/-- A started component with one free buffer of four bytes. -/
def oneFree : World :=
  { output := true, multiplanar := false, memory := .MMAP
    buffers := Function.update (fun _ => none) 0 (some 0)
    bufferCount := 1, enable := true, requested := 1
    objs := Function.update (fun _ => none) 0
      (some { buffer := { planes := [{ virt := 16, size := 4 }] }, refcount := 1 })
    allocs := 1 }

/-- A frame of `n` bytes. -/
def frameOf (n : Nat) : Frame :=
  { number := 0, buffer := { planes := [{ virt := 0, size := 8, bytesused := n }] } }

theorem oneFree_object {id : Nat} {o : ExtBuffer} (object : oneFree.objs id = some o) :
    id = 0 ∧ o = { buffer := { planes := [{ virt := 16, size := 4 }] }, refcount := 1 } := by
  by_cases zero : id = 0
  · subst zero
    exact ⟨rfl, (Option.some.inj object).symm⟩
  · simp only [oneFree, Function.update_of_ne zero] at object
    contradiction

theorem oneFree_ready {n : Nat} (inside : n ≤ 8) : Ready oneFree (frameOf n) where
  output := rfl
  free := by
    intro i id free
    by_cases zero : i = 0
    · subst zero
      cases Option.some.inj free
      exact ⟨_, rfl, rfl, rfl⟩
    · simp only [oneFree, Function.update_of_ne zero] at free
      contradiction
  queued := by
    intro i id slot
    contradiction
  single := by
    intro _ id o object
    rw [(oneFree_object object).2]
    rfl
  layout := by
    intro _ id o object
    rw [(oneFree_object object).2]
    refine ⟨?_, ?_, List.pairwise_singleton .., ?_, ?_, ?_⟩
    · simpa [frameOf] using inside
    · simp
    · simp [frameOf, Lib.Copy.Apart]
    · simp [frameOf]
    · simp [frameOf]

/-- The transfer of eight bytes to four fails, and the driver has the buffer. -/
theorem short_buffer_queued :
    Ready oneFree (frameOf 8) ∧ (runV4l2Output {} {} {} .none oneFree (frameOf 8)).2 = .E_INVAL ∧
      (runV4l2Output {} {} {} .none oneFree (frameOf 8)).1.slots 0 = some 0 ∧
      ¬OutputMet {} {} {} .none oneFree (frameOf 8) := by
  refine ⟨oneFree_ready (Nat.le_refl 8), rfl, rfl, ?_⟩
  intro met
  have same := congrFun ((met (fun _ => 0) fun _ _ => 0).1 (by decide)).slots 0
  contradiction

theorem output_met_iff_four : RunMet {} {} {} { dq := .notReady } oneFree (frameOf 4) := by
  apply (output_met_iff { dq := .notReady } (oneFree_ready (by decide))).2.mpr
  constructor
  · intro id o tried
    rw [(oneFree_object tried.object).2]
    refine ⟨.inl ⟨rfl, ?_⟩, rfl, rfl, rfl⟩
    intro k below
    obtain rfl : k = 0 := Nat.lt_one_iff.mp below
    decide
  · rintro mem ⟨_, some_buffer⟩
    unfold dqbuf at some_buffer
    split at some_buffer <;> contradiction

end ImxTest.Pitcher.V4l2
