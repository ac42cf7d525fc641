import ImxTest.Lib.Runs
import ImxTest.Pitcher.Sessions
import ImxTest.Pitcher.Output

/-! Each buffer of a component of pitcher/v4l2.c is in one place, over any calls of
the component, its driver and those that hold its buffers. -/
namespace ImxTest.Pitcher.V4l2
open Lib.Runs

/-- What can happen to a component. `transfer` and `dequeue` are the parts of
`run_v4l2`, `hold` and `drop` are of those downstream, `mark` is of the owner. -/
inductive Call where
  | start (a : StartAnswers)
  | stop (a : StopAnswers)
  | ready (isEnd : Bool) (event : Event)
  | transfer (splane dplane : BufRef) (event : Event) (pbuf : Frame)
  | dequeue (a : RunAnswers)
  | hold (id : Nat)
  | drop (id : Nat)
  | mark (ending seek eosReceived resolutionChange : Bool)

section Calls
variable (D : Driver)

def exec (w : World) : Call → World
  | .start a => (startV4l2 D a w).1
  | .stop a => (stopV4l2 D a w).1
  | .ready isEnd event => checkV4l2Ready D isEnd event w
  | .transfer splane dplane event pbuf => (runV4l2Output D splane dplane event w pbuf).1
  | .dequeue a =>
    match dqbuf w a.dq with
    | (w, none) => w
    | (w, some id) => returned D a w id
  | .hold id => { pitcherGetBuffer w id with held := Function.update w.held id (w.held id + 1) }
  | .drop id => pitcherPutBuffer D { w with held := Function.update w.held id (w.held id - 1) } id
  | .mark ending seek eosReceived resolutionChange =>
    { w with ending, seek, eosReceived, resolutionChange }

/-- The driver gives back only what it owns, and only what is held is let go. -/
def Given (w : World) : Call → Prop
  | .dequeue a => ∀ d, a.dq = .done d → (w.driver d.index).isSome
  | .hold id | .drop id => 0 < w.held id
  | _ => True

/-- A call for which `VIDIOC_QUERYBUF` has not failed. -/
structure Step (w : World) (c : Call) (w' : World) : Prop where
  done : w' = exec D w c
  seen : .queryFailed ∉ w'.faults
  given : Given w c

/-- `run_v4l2` is a sequence of the calls. -/
theorem runV4l2_calls (splane dplane : BufRef) (a : RunAnswers) (w : World) (pbuf : Option Frame) :
    ∃ calls : List Call, (runV4l2 D splane dplane a w pbuf).1 = calls.foldl (exec D) w := by
  unfold runV4l2
  split
  · exact ⟨[], rfl⟩
  obtain ⟨first, begun⟩ : ∃ first : List Call,
      (firstOutput D splane dplane a w pbuf).1 = first.foldl (exec D) w := by
    unfold firstOutput
    split
    · split
      · exact ⟨[.transfer splane dplane a.first _], rfl⟩
      · exact ⟨[], rfl⟩
    · exact ⟨[], rfl⟩
  have dequeued : ∀ x id, dqbuf (firstOutput D splane dplane a w pbuf).1 a.dq = (x, some id) →
      returned D a x id = (first ++ [Call.dequeue a]).foldl (exec D) w := by
    intro x id got
    simp only [List.foldl_append, ← begun, List.foldl_cons, List.foldl_nil, exec, got]
  simp only
  split
  case h_1 x got =>
    refine ⟨first ++ [.dequeue a], ?_⟩
    simp only [List.foldl_append, ← begun, List.foldl_cons, List.foldl_nil, exec, got]
  case h_2 x id got =>
    split
    case h_1 frame _ =>
      split
      · refine ⟨first ++ [.dequeue a] ++ [.transfer splane dplane a.second frame], ?_⟩
        rw [List.foldl_append, ← dequeued x id got, List.foldl_cons, List.foldl_nil, exec]
      · exact ⟨_, dequeued x id got⟩
    case h_2 => exact ⟨_, dequeued x id got⟩

end Calls

/-- Whether a buffer is queued, free, refused, or held. -/
def places (w : World) (i id : Nat) : List Bool :=
  [w.slots i = some id, w.buffers i = some id, w.errors i = some id, 0 < w.held id]

/-- Every buffer is in one place and under its own index, and the driver owns only
what is in a slot. While the component is enabled none is missing, and what is in a
slot is the driver's. No buffer has been queued, freed or made that should not be. -/
structure Exclusive (w : World) : Prop where
  slot : ∀ i id, w.slots i = some id → ∃ o, w.objs id = some o ∧ o.buffer.index = i
  free : ∀ i id, w.buffers i = some id → ∃ o, w.objs id = some o ∧ o.buffer.index = i
  error : ∀ i id, w.errors i = some id → ∃ o, w.objs id = some o ∧ o.buffer.index = i
  held : ∀ id, 0 < w.held id → ∃ o, w.objs id = some o
  one : ∀ id o id' o', w.objs id = some o → w.objs id' = some o' →
    o.buffer.index = o'.buffer.index → id = id'
  place : ∀ id o, w.objs id = some o → (places w o.buffer.index id).count true = 1
  owned : ∀ i, (w.driver i).isSome → (w.slots i).isSome
  all : w.enable = true → ∀ i, i < w.bufferCount →
    ∃ id o, w.objs id = some o ∧ o.buffer.index = i ∧ (w.slots i = some id → (w.driver i).isSome)
  clean : w.faults = []

/-- No buffer is lost in a call. -/
def Safe (D : Driver) (w : World) : Call → Prop
  | .start a => ¬w.fd < 0 → a.setup = true → StartSafe D a w
  | .transfer _ _ _ pbuf => w.output = true → ∀ id o, Tried w pbuf id o → ¬Lost D w o.buffer.index
  | .dequeue a => w.output = false → ∀ d id o, a.dq = .done d → w.slots d.index = some id →
      w.objs id = some o →
      let flags := dqFlags d o.buffer.flags
      (flags &&& PITCHER_BUFFER_FLAG_ERROR ≠ 0 ∨ a.taken = 0) →
        ¬Lost D (if flags &&& PITCHER_BUFFER_FLAG_LAST ≠ 0 then { w with ending := true } else w) d.index
  | .drop id => w.held id = 1 → ∀ o, w.objs id = some o → ¬Lost D w o.buffer.index
  | _ => True

def Inv (w : World) : Prop := ∃ W, Kept w W

section Exclusion
variable {D : Driver} {w : World} {W : Ledger}

theorem Kept.exclusive (kept : Kept w W) : Exclusive w := by
  constructor
  case slot =>
    intro i id slot
    obtain ⟨o, object, index, _⟩ := (kept.placed (kept.toShows.slot.mp slot)).object
    exact ⟨o, object, index⟩
  case free =>
    intro i id free
    obtain ⟨o, object, index, _⟩ := (kept.placed (kept.toShows.free.mp free)).object
    exact ⟨o, object, index⟩
  case error =>
    intro i id error
    obtain ⟨o, object, index, _⟩ := (kept.placed (kept.toShows.error.mp error)).object
    exact ⟨o, object, index⟩
  case held =>
    intro id referred
    obtain ⟨o, _, object, _⟩ := kept.toShows.held referred
    exact ⟨o, object⟩
  case one =>
    intro id o id' o' object object' same
    obtain ⟨p, at_index, _⟩ := kept.place object
    obtain ⟨p', at_index', _⟩ := kept.place object'
    rw [same] at at_index
    cases at_index.symm.trans at_index'
    rfl
  case place =>
    intro id o object
    obtain ⟨p, _, placed, _⟩ := kept.place object
    unfold places
    rw [placed.slots, placed.buffers, placed.errors, placed.held]
    cases p <;> simp [Place.outside]
  case owned =>
    intro i owned
    obtain ⟨id, at_index⟩ := kept.toShows.owned owned
    rw [kept.toShows.slot.mpr at_index]
    rfl
  case all =>
    intro on i below
    obtain ⟨id, p, at_index, owned⟩ := kept.covers on i below not_false
    obtain ⟨o, object, index, _⟩ := (kept.placed at_index).object
    refine ⟨id, o, object, index, fun slot => owned ?_⟩
    cases at_index.symm.trans (kept.toShows.slot.mp slot)
    rfl
  case clean => exact kept.clean

/-- A free buffer has one reference. -/
theorem Kept.last (kept : Kept w W) (i id : Nat) (free : w.buffers i = some id) :
    ∃ o, w.objs id = some o ∧ o.refcount = 1 ∧ o.buffer.index = i := by
  obtain ⟨o, object, index, last, _⟩ := kept.loose_free free
  exact ⟨o, object, last, index⟩

/-- A frame finds an output component ready, as far as its buffers are concerned. -/
theorem Kept.ready {pbuf : Frame} (kept : Kept w W) (output : w.output = true)
    (single : w.multiplanar = false → ∀ id o, w.objs id = some o → o.buffer.count = 1)
    (layout : w.memory = .MMAP → ∀ id o, w.objs id = some o → Layout pbuf.buffer o.buffer) :
    Ready w pbuf where
  output := output
  free := kept.last
  queued := by
    intro i id slot
    obtain ⟨o, object, index, refs⟩ := (kept.placed (kept.toShows.slot.mp slot)).object
    exact ⟨o, object, refs, index⟩
  single := single
  layout := layout

/-! ## Start -/

section Start
variable {a : StartAnswers} (kept : Kept w W) (valid : ¬w.fd < 0) (setup : a.setup = true)
include kept valid setup

omit kept valid setup in
theorem streamed_faults : (if a.streamon then w else { w with enable := false }).faults = w.faults := by
  split <;> rfl

omit kept valid setup in
theorem streamed_inv (inv : Inv w) : Inv (if a.streamon then w else { w with enable := false }) := by
  obtain ⟨W, kept⟩ := inv
  split
  · exact ⟨W, kept⟩
  · have shows : Shows { w with enable := false } W :=
      kept.still ⟨rfl, rfl, rfl, rfl, rfl, rfl, rfl, fun _ owned => owned⟩
    exact ⟨W, shows.disabled kept.clean rfl⟩

theorem start_refused (answer : a.reqbufs = none) :
    (StartSafe D a w → Inv (startV4l2 D a w).1) ∧
      (Exclusive (startV4l2 D a w).1 → StartSafe D a w) := by
  rw [startV4l2_refused valid setup answer]
  simp only [StartSafe, answer]
  constructor
  · intro safe
    refine ⟨W, kept.still ⟨rfl, rfl, rfl, rfl, rfl, rfl, rfl, fun _ owned => owned⟩, ?_, kept.clean, kept.memory⟩
    intro on i below _
    obtain ⟨id, o, object, rfl, owned⟩ := safe on i below
    obtain ⟨p, at_index, _⟩ := kept.place object
    refine ⟨id, p, at_index, ?_⟩
    rintro rfl
    exact owned (kept.toShows.slot.mpr at_index)
  · exact fun exclusive => exclusive.all

theorem start_granted {n : Nat} (answer : a.reqbufs = some n)
    (seen : .queryFailed ∉ (startV4l2 D a w).1.faults) (safe : StartSafe D a w) :
    Inv (startV4l2 D a w).1 := by
  rw [startV4l2_granted valid setup answer] at seen ⊢
  simp only [StartSafe, answer] at safe
  by_cases overlay : w.memory = .OVERLAY
  · rw [if_pos overlay]
    have off : w.enable = false := by
      rw [← Bool.not_eq_true]
      exact fun on => kept.memory on overlay
    have shows : Shows (granted w n) W :=
      kept.still ⟨rfl, rfl, rfl, rfl, rfl, rfl, rfl, fun _ owned => by contradiction⟩
    exact ⟨W, shows.disabled kept.clean off⟩
  rw [if_neg overlay] at seen ⊢
  obtain ⟨room, refused⟩ := safe overlay
  obtain ⟨V, shows, clean, free⟩ := kept.filled (n := n) (a := a) valid room
  obtain ⟨output, ending, memory, calls⟩ := filled_keeps a w n
  by_cases none : made a n = 0
  · rw [if_pos none]
    refine ⟨V, shows, fun _ i below => absurd (none ▸ below) (Nat.not_lt_zero i), clean, fun _ => ?_⟩
    rw [memory]
    exact overlay
  rw [if_neg none] at seen ⊢
  have opened := shows.opened clean free overlay
  rw [streamed_faults] at seen
  apply streamed_inv
  by_cases is_output : (V4l2.opened a w n).output = true
  · rw [if_pos is_output]
    exact ⟨V, opened⟩
  · rw [if_neg is_output] at seen ⊢
    obtain ⟨_, V, kept, _⟩ := opened.queued rfl free (Nat.le_refl _) seen fun at_end i below => by
      rw [show (V4l2.opened a w n).calls = w.calls from calls]
      exact refused (output.symm.trans (Bool.not_eq_true _ ▸ is_output)) (ending.symm.trans at_end) i below
    exact ⟨V, kept⟩

theorem start_unsafe {n : Nat} (answer : a.reqbufs = some n)
    (seen : .queryFailed ∉ (startV4l2 D a w).1.faults) (not_safe : ¬StartSafe D a w) :
    (startV4l2 D a w).1.faults ≠ [] := by
  simp only [StartSafe, answer] at not_safe
  have overlay : w.memory ≠ .OVERLAY := fun h => not_safe fun no => absurd h no
  rw [startV4l2_granted valid setup answer, if_neg overlay] at seen ⊢
  by_cases room : ∀ id o, w.objs id = some o → made a n ≤ o.buffer.index
  · have lost : ¬(w.output = false → w.ending = true → ∀ i, i < made a n → D.qbuf (w.calls + i) = false) :=
      fun refused => not_safe fun _ => ⟨room, refused⟩
    simp only [Classical.not_forall, Bool.not_eq_false] at lost
    obtain ⟨is_capture, at_end, i, below, taken⟩ := lost
    obtain ⟨V, shows, clean, free⟩ := kept.filled (n := n) (a := a) valid room
    obtain ⟨output, ending, memory, calls⟩ := filled_keeps a w n
    have opened := shows.opened clean free overlay
    have capture : ¬(V4l2.opened a w n).output = true := by
      rw [show (V4l2.opened a w n).output = false from output.trans is_capture]
      decide
    rw [if_neg (by omega)] at seen ⊢
    simp only at seen ⊢
    rw [streamed_faults, if_neg capture] at seen ⊢
    refine opened.queued_lost rfl (ending.trans at_end) free seen below ?_
    rw [show (V4l2.opened a w n).calls = w.calls from calls]
    exact taken
  · simp only [Classical.not_forall, Nat.not_le] at room
    obtain ⟨id, o, object, below⟩ := room
    obtain ⟨_, _, placed, _⟩ := kept.place object
    have twice : (filled a w n).faults ≠ [] :=
      allocated_twice (a := a) (w := granted w n) object placed.known below
    have grows : (filled a w n).faults <:+
        (if (V4l2.opened a w n).output then V4l2.opened a w n
          else queued D (V4l2.opened a w n) (made a n)).faults := by
      split
      · exact List.suffix_rfl
      · exact (queued_steady (D := D) (V4l2.opened a w n) (Nat.zero_le _)).faults
    rw [if_neg (by omega)]
    simp only
    rw [streamed_faults]
    intro clean
    exact twice (List.suffix_nil.mp (clean ▸ grows))

end Start

/-! ## References -/

section References
variable {id : Nat}

theorem ready_kept (kept : Kept w W) (isEnd : Bool) (event : Event) :
    Inv (checkV4l2Ready D isEnd event w) := by
  have marked : ∀ ending eos change,
      Kept { w with ending, seek := w.seek, eosReceived := eos, resolutionChange := change } W :=
    fun ending eos change => kept.flags ending w.seek eos change
  unfold checkV4l2Ready
  split
  · exact ⟨W, kept⟩
  split
  · exact ⟨W, marked true w.eosReceived w.resolutionChange⟩
  obtain ⟨eos, change, events⟩ := checkV4l2Events_eq w event
  have seen : Kept (if w.output then checkV4l2Events w event else w) W := by
    rw [events]
    split
    · exact marked w.ending eos change
    · exact kept
  generalize (if w.output then checkV4l2Events w event else w) = x at *
  simp only
  split
  · exact ⟨W, seen⟩
  split
  · exact ⟨W, seen⟩
  · exact seen.clear.1

theorem hold_kept (kept : Kept w W) (referred : 0 < w.held id) : Inv (exec D w (.hold id)) := by
  obtain ⟨o, more, object, held, at_index⟩ := kept.toShows.held referred
  obtain ⟨_, same_index, placed, refs⟩ := kept.place object
  cases at_index.symm.trans same_index
  simp only [exec, pitcherGetBuffer, object]
  refine ⟨_, kept.move (q := .held (more + 1)) at_index ?_
    rfl ?_ fun h => by contradiction⟩
  · constructor <;> intros <;> simp_all [setObj]
  · exact ⟨⟨_, Function.update_self .., rfl, congrArg Nat.succ refs⟩, placed.slots, placed.buffers, placed.errors,
      by simp [held, Place.outside], fun owned => by have := placed.driver owned; contradiction,
      placed.known, placed.valid⟩

theorem drop_judged (kept : Kept w W) (referred : 0 < w.held id)
    (seen : .queryFailed ∉ (exec D w (.drop id)).faults) :
    (Safe D w (.drop id) → Inv (exec D w (.drop id))) ∧
      (¬Safe D w (.drop id) → (exec D w (.drop id)).faults ≠ []) := by
  obtain ⟨o, more, object, held, at_index⟩ := kept.toShows.held referred
  obtain ⟨_, same_index, placed, refs⟩ := kept.place object
  cases at_index.symm.trans same_index
  have same : SameBut w { w with held := Function.update w.held id (w.held id - 1) } o.buffer.index id := by
    constructor <;> intros <;> simp_all
  have unowned := placed.unowned (fun h => by contradiction)
  cases more with
  | zero =>
    have loose : Loose { w with held := Function.update w.held id (w.held id - 1) } W id o :=
      kept.loose at_index same rfl object refs
        ⟨placed.slots, placed.buffers, placed.errors, unowned⟩ (by simp [held])
    obtain ⟨lost, safe⟩ := loose.put (D := D) seen
    constructor
    · intro is_safe
      obtain ⟨x, kept⟩ := safe (is_safe held o object)
      exact ⟨_, kept⟩
    · intro not_safe
      refine lost ?_
      by_contra not_lost
      refine not_safe fun _ o' object' => ?_
      cases Option.some.inj (object'.symm.trans object)
      exact not_lost
  | succ more =>
    have put := @put_shared D { w with held := Function.update w.held id (w.held id - 1) } id o object
      (by rw [refs]; exact Nat.succ_lt_succ (Nat.succ_pos more))
    have left : o.refcount - 1 = (Place.held more).refs := by rw [refs]; rfl
    constructor
    · intro _
      simp only [exec, put]
      refine ⟨_, kept.move (q := .held more) at_index ?_
        rfl ?_ fun h => by contradiction⟩
      · constructor <;> intros <;> simp_all [setObj]
      · exact ⟨⟨_, Function.update_self .., rfl, left⟩, placed.slots, placed.buffers, placed.errors,
          by simp [setObj, held, Place.outside],
          fun owned => by have := placed.driver owned; contradiction, placed.known, placed.valid⟩
    · intro not_safe
      refine absurd (fun one => ?_) not_safe
      rw [held] at one
      exact absurd one (by omega)

end References

/-! ## Frames -/

section Frames
variable {id : Nat} {o : ExtBuffer} {splane dplane : BufRef} {event : Event} {pbuf : Frame}

theorem transferred_eq (w : World) (id : Nat) (o : ExtBuffer) (pbuf : Frame) (ret : Ret) (mem : Nat → UInt8)
    (planes : List BufRef) :
    ∃ o' sources, o'.buffer.index = o.buffer.index ∧ o'.refcount = o.refcount ∧
      transferred w id o pbuf ret mem planes =
        { w with mem, sources, objs := Function.update w.objs id (some o') } :=
  ⟨{ o with buffer := { o.buffer with planes, priv := _ } }, _, rfl, rfl, rfl⟩

/-- A transfer that is tried is the release of a free buffer. -/
theorem transfer_tried (kept : Kept w W) (output : w.output = true) (tried : Tried w pbuf id o) :
    ∃ start, Kept start W ∧ start.buffers o.buffer.index = some id ∧
      (∀ i, Lost D start i ↔ Lost D w i) ∧ ∃ seek,
        exec D w (.transfer splane dplane event pbuf) =
          { releaseFree D start o.buffer.index with seek } := by
  obtain ⟨i, is⟩ := getBuf_found tried.found
  obtain ⟨o', object, _, rfl⟩ := kept.last i id is
  cases Option.some.inj (object.symm.trans tried.object)
  obtain ⟨eos, change, result⟩ := @output_tried D splane dplane event w pbuf id o output kept.last tried
  generalize transferOutputBuffer w.memory splane dplane w.mem pbuf.buffer o.buffer = r at result
  have flagged := kept.flags w.ending w.seek eos change
  obtain ⟨left, sources, same, refs, start⟩ :=
    transferred_eq { w with eosReceived := eos, resolutionChange := change } id o pbuf r.1 r.2.1 r.2.2
  simp only [start] at result
  refine ⟨_, flagged.relabel object left same refs r.2.1 sources, is, fun _ => Iff.rfl, ?_⟩
  simp only [exec, result, releaseFree, is]
  exact ⟨_, rfl⟩

theorem transfer_judged (kept : Kept w W)
    (seen : .queryFailed ∉ (exec D w (.transfer splane dplane event pbuf)).faults) :
    (Safe D w (.transfer splane dplane event pbuf) → Inv (exec D w (.transfer splane dplane event pbuf))) ∧
      (¬Safe D w (.transfer splane dplane event pbuf) →
        (exec D w (.transfer splane dplane event pbuf)).faults ≠ []) := by
  by_cases output : w.output = true
  · by_cases some_try : ∃ id o, Tried w pbuf id o
    · obtain ⟨id, o, tried⟩ := some_try
      obtain ⟨start, kept, is_free, same, seek, result⟩ :=
        @transfer_tried D w W id o splane dplane event pbuf kept output tried
      rw [result] at seen ⊢
      obtain ⟨o', object, index, last, valid, loose⟩ := kept.loose_free is_free
      rw [releaseFree_eq is_free object last valid] at seen ⊢
      obtain ⟨lost, safe⟩ := loose.put (D := D) seen
      constructor
      · intro is_safe
        obtain ⟨x, kept⟩ := safe fun lost => is_safe output id o tried ((same _).mp (index ▸ lost))
        exact ⟨_, kept.flags _ seek _ _⟩
      · intro not_safe
        refine lost ?_
        by_contra not_lost
        refine not_safe fun _ id' o'' tried' gone => not_lost ?_
        obtain ⟨rfl, rfl⟩ := tried.unique tried'
        rw [index]
        exact (same _).mpr gone
    · have untried : ∀ id o, ¬Tried w pbuf id o := fun id o tried => some_try ⟨id, o, tried⟩
      obtain ⟨eos, change, still, _⟩ :=
        @output_untried D splane dplane event w pbuf output kept.last untried
      refine ⟨fun _ => ⟨W, ?_⟩, fun not_safe => absurd (fun _ id o tried => absurd tried (untried id o)) not_safe⟩
      rw [exec, still]
      exact kept.flags w.ending w.seek eos change
  · have nothing : exec D w (.transfer splane dplane event pbuf) = w := by
      simp only [exec, runV4l2Output, output, Bool.not_false, if_true]
      split <;> rfl
    refine ⟨fun _ => ⟨W, ?_⟩, fun not_safe => absurd (fun h => absurd h output) not_safe⟩
    rw [nothing]
    exact kept

/-- The driver gives back a buffer that it owns. -/
theorem dqbuf_done (kept : Kept w W) {d : Dequeued} (owned : (w.driver d.index).isSome) :
    ∃ id o got, w.slots d.index = some id ∧ w.objs id = some o ∧
      W d.index = some (id, .driver) ∧
      got.buffer.index = d.index ∧ got.refcount = 1 ∧
      (w.output = false → got.buffer.flags = dqFlags d o.buffer.flags) ∧ ∃ frameCount,
        dqbuf w (.done d) =
          ({ w with
              driver := Function.update w.driver d.index none
              slots := Function.update w.slots d.index none
              objs := Function.update w.objs id (some got)
              frameCount },
            some id) := by
  obtain ⟨id, at_index⟩ := kept.toShows.owned owned
  have placed := kept.placed at_index
  obtain ⟨o, object, index, refs⟩ := placed.object
  have slot := kept.toShows.slot.mpr at_index
  have counted : o.refcount + 1 = 1 := by rw [refs]; rfl
  let flags := if w.output then o.buffer.flags else dqFlags d o.buffer.flags
  refine ⟨id, o, { buffer := { o.buffer with planes := dqPlanes w.multiplanar d o.buffer.planes, flags }
                   refcount := o.refcount + 1 }, slot, object, at_index, index, counted, ?_, ?_⟩
  · intro capture
    simp only [flags, capture, Bool.false_eq_true, if_false]
  · unfold dqbuf
    rw [if_neg placed.valid]
    simp only [slot, object, pitcherGetBuffer, setObj, Function.update_self, Function.update_idem]
    exact ⟨_, rfl⟩

/-- The references to a buffer that are taken downstream. -/
def handed (a : RunAnswers) (flags : UInt32) : Nat :=
  if flags &&& PITCHER_BUFFER_FLAG_ERROR = 0 then a.taken else 0

/-- What a capture component does with a buffer that it has got back. -/
theorem returned_capture {a : RunAnswers} (capture : w.output = false) (object : w.objs id = some o)
    (unheld : w.held id = 0) :
    ∃ sources, returned D a w id =
      pitcherPutBuffer D
        { w with
          sources
          ending := if o.buffer.flags &&& PITCHER_BUFFER_FLAG_LAST ≠ 0 then true else w.ending
          objs := Function.update w.objs id (some { o.released with refcount := o.refcount + handed a o.buffer.flags })
          held := Function.update w.held id (handed a o.buffer.flags) }
        id := by
  obtain ⟨sources, given⟩ := releasePriv_eq object
  refine ⟨sources, ?_⟩
  have none_held : Function.update w.held id 0 = w.held := by rw [← unheld, Function.update_eq_self]
  simp only [returned, given, Function.update_self, capture, Bool.false_eq_true, if_false]
  by_cases error : o.buffer.flags &&& PITCHER_BUFFER_FLAG_ERROR = 0 <;>
    by_cases last : o.buffer.flags &&& PITCHER_BUFFER_FLAG_LAST ≠ 0 <;>
    simp [ExtBuffer.released, handed, error, last, setObj, unheld, none_held]

/-- What a dequeue does that gets no buffer. -/
theorem dequeue_none {a : RunAnswers} (idle : ∀ d, a.dq ≠ .done d) :
    ∃ ending, exec D w (.dequeue a) = { w with ending } := by
  simp only [exec, dqbuf]
  split
  case h_1 x got =>
    split at got
    · exact ⟨w.ending, (Prod.mk.inj got).1.symm⟩
    · cases answer : a.dq with
      | done d => exact absurd answer (idle d)
      | notReady =>
        rw [answer] at got
        exact ⟨w.ending, (Prod.mk.inj got).1.symm⟩
      | failed epipe =>
        simp only [answer] at got
        split at got
        · exact ⟨true, (Prod.mk.inj got).1.symm⟩
        · exact ⟨w.ending, (Prod.mk.inj got).1.symm⟩
  case h_2 x id got =>
    split at got
    · cases got
    · cases answer : a.dq with
      | done d => exact absurd answer (idle d)
      | notReady =>
        rw [answer] at got
        cases got
      | failed epipe =>
        simp only [answer] at got
        split at got <;> cases got

/-- The driver has given the buffer back, and as many references to it are held as
were taken, besides the one that is about to be dropped. -/
structure GivenBack (w z : World) (d : Dequeued) (id : Nat) (o : ExtBuffer) (more : Nat) (last : Bool) :
    Prop where
  same : SameBut w z d.index id
  clean : z.faults = w.faults
  object : z.objs id = some o
  index : o.buffer.index = d.index
  refs : o.refcount = more + 1
  vacant : Vacant z d.index
  held : z.held id = more
  lost : ∀ D i, Lost D z i ↔ Lost D (if last then { w with ending := true } else w) i

theorem dequeue_capture {a : RunAnswers} {d : Dequeued} (kept : Kept w W) (answer : a.dq = .done d)
    (owned : (w.driver d.index).isSome) (capture : w.output = false) :
    ∃ id o z left, w.slots d.index = some id ∧ w.objs id = some o ∧ W d.index = some (id, .driver) ∧
      exec D w (.dequeue a) = pitcherPutBuffer D z id ∧
      GivenBack w z d id left (handed a (dqFlags d o.buffer.flags))
        (dqFlags d o.buffer.flags &&& PITCHER_BUFFER_FLAG_LAST ≠ 0) := by
  obtain ⟨id, o, got, slot, object, at_index, index, refs, flags, frameCount, back⟩ := dqbuf_done kept owned
  have placed := kept.placed at_index
  obtain ⟨sources, result⟩ := @returned_capture D { w with
    driver := Function.update w.driver d.index none
    slots := Function.update w.slots d.index none
    objs := Function.update w.objs id (some got)
    frameCount } id got a capture (Function.update_self ..) placed.held
  rw [flags capture] at result
  have run : exec D w (.dequeue a) = returned D a { w with
      driver := Function.update w.driver d.index none
      slots := Function.update w.slots d.index none
      objs := Function.update w.objs id (some got)
      frameCount } id := by
    simp only [exec, answer, back]
  refine ⟨id, o, _, { got.released with refcount := got.refcount + handed a (dqFlags d o.buffer.flags) },
    slot, object, at_index, run.trans result, ?_⟩
  constructor
  case same => constructor <;> intros <;> simp_all
  case clean => rfl
  case object => exact Function.update_self ..
  case index => exact index
  case refs => rw [refs, Nat.add_comm]
  case vacant =>
    exact ⟨Function.update_self .., placed.buffers, placed.errors, Function.update_self ..⟩
  case held => exact Function.update_self ..
  case lost =>
    intro D i
    by_cases last : dqFlags d o.buffer.flags &&& PITCHER_BUFFER_FLAG_LAST ≠ 0 <;>
      simp [last, Lost, accepts]

theorem dequeue_output {a : RunAnswers} {d : Dequeued} (kept : Kept w W) (answer : a.dq = .done d)
    (owned : (w.driver d.index).isSome) (output : w.output = true) : Inv (exec D w (.dequeue a)) := by
  obtain ⟨id, o, got, slot, object, at_index, index, refs, flags, frameCount, back⟩ := dqbuf_done kept owned
  have placed := kept.placed at_index
  obtain ⟨sources, ending, result⟩ := @returned_output D { w with
    driver := Function.update w.driver d.index none
    slots := Function.update w.slots d.index none
    objs := Function.update w.objs id (some got)
    frameCount } id got a output (Function.update_self ..) (by rw [refs]; exact Nat.zero_lt_one)
  simp only [exec, answer, back]
  rw [result]
  refine ⟨_, kept.move (q := .free) at_index ?_ rfl ?_ fun h => by contradiction⟩
  · constructor <;> intros <;> simp_all
  · exact ⟨⟨_, Function.update_self .., index, refs⟩, Function.update_self .., by simp [index],
      placed.errors, placed.held, by simp, placed.known, placed.valid⟩

theorem dequeue_judged {a : RunAnswers} (kept : Kept w W) (given : Given w (.dequeue a))
    (seen : .queryFailed ∉ (exec D w (.dequeue a)).faults) :
    (Safe D w (.dequeue a) → Inv (exec D w (.dequeue a))) ∧
      (¬Safe D w (.dequeue a) → (exec D w (.dequeue a)).faults ≠ []) := by
  by_cases some_buffer : ∃ d, a.dq = .done d
  case neg =>
    have idle : ∀ d, a.dq ≠ .done d := fun d answer => some_buffer ⟨d, answer⟩
    obtain ⟨ending, still⟩ := dequeue_none (D := D) (w := w) idle
    refine ⟨fun _ => ⟨W, ?_⟩, fun not_safe => absurd (fun _ d _ _ answer => absurd answer (idle d)) not_safe⟩
    rw [still]
    exact kept.flags ending w.seek w.eosReceived w.resolutionChange
  obtain ⟨d, answer⟩ := some_buffer
  by_cases output : w.output = true
  · exact ⟨fun _ => dequeue_output kept answer (given d answer) output,
      fun not_safe => absurd (fun capture => by rw [output] at capture; contradiction) not_safe⟩
  have capture : w.output = false := Bool.not_eq_true _ ▸ output
  obtain ⟨id, o, z, left, slot, object, at_index, result, back⟩ :=
    dequeue_capture (D := D) kept answer (given d answer) capture
  have at_left : W left.buffer.index = some (id, .driver) := (congrArg W back.index).trans at_index
  rw [result] at seen ⊢
  cases taken : handed a (dqFlags d o.buffer.flags) with
  | zero =>
    rw [taken] at back
    have loose : Loose z W id left :=
      kept.loose at_left (back.index ▸ back.same) back.clean back.object back.refs (back.index ▸ back.vacant)
        back.held
    obtain ⟨lost, safe⟩ := loose.put (D := D) seen
    have none_taken : dqFlags d o.buffer.flags &&& PITCHER_BUFFER_FLAG_ERROR ≠ 0 ∨ a.taken = 0 := by
      unfold handed at taken
      split at taken
      · exact .inr taken
      case isFalse error => exact .inl error
    constructor
    · intro is_safe
      obtain ⟨x, kept⟩ := safe fun gone => is_safe capture d id o answer slot object none_taken (by
        have gone := (back.lost D _).mp gone
        rw [back.index] at gone
        simpa using gone)
      exact ⟨_, kept⟩
    · intro not_safe
      refine lost ?_
      by_contra not_lost
      refine not_safe fun _ d' id' o' answer' slot' object' => ?_
      cases answer.symm.trans answer'
      cases slot.symm.trans slot'
      cases object.symm.trans object'
      intro flags _ gone
      refine not_lost ((back.lost D _).mpr ?_)
      rw [back.index]
      simpa using gone
  | succ more =>
    rw [taken] at back
    have put := put_shared (D := D) back.object (by rw [back.refs]; exact Nat.succ_lt_succ (Nat.succ_pos more))
    rw [put]
    have placed := kept.placed at_index
    constructor
    · intro _
      refine ⟨_, kept.move (q := .held more) at_index ?_ back.clean ?_ fun h => by contradiction⟩
      · exact back.same.setObj _
      · exact ⟨⟨_, Function.update_self .., back.index, congrArg Nat.pred back.refs⟩, back.vacant.slots,
          back.vacant.buffers, back.vacant.errors, back.held,
          fun owned => by
            rw [show (setObj z id _).driver = z.driver from rfl, back.vacant.driver] at owned
            contradiction,
          Nat.lt_of_lt_of_le placed.known back.same.allocs,
          by rw [show (setObj z id _).fd = z.fd from rfl, back.same.fd]; exact placed.valid⟩
    · intro not_safe
      refine absurd (fun _ d' id' o' answer' slot' object' => ?_) not_safe
      cases answer.symm.trans answer'
      cases slot.symm.trans slot'
      cases object.symm.trans object'
      intro flags none_taken
      unfold handed at taken
      rcases none_taken with error | none
      · rw [if_neg error] at taken
        contradiction
      · split at taken
        · rw [none] at taken
          contradiction
        · contradiction

end Frames

/-! ## Runs -/

/-- A component that has not been started. -/
structure Fresh (w : World) : Prop where
  slots : ∀ i, w.slots i = none
  buffers : ∀ i, w.buffers i = none
  errors : ∀ i, w.errors i = none
  driver : ∀ i, w.driver i = none
  objs : ∀ id, w.objs id = none
  held : ∀ id, w.held id = 0
  off : w.enable = false
  clean : w.faults = []

theorem Fresh.inv (fresh : Fresh w) : Inv w := by
  have shows : Shows w fun _ => none := by
    constructor
    case entry => exact fun i => ⟨fresh.slots i, fresh.buffers i, fresh.errors i, fresh.driver i⟩
    case known =>
      intro id o object
      cases object.symm.trans (fresh.objs id)
    case unheld => exact fun id _ => fresh.held id
  exact ⟨_, shows.disabled fresh.clean fresh.off⟩

theorem start_judged {a : StartAnswers} (kept : Kept w W)
    (seen : .queryFailed ∉ (exec D w (.start a)).faults) :
    (Safe D w (.start a) → Inv (exec D w (.start a))) ∧
      (¬Safe D w (.start a) → ¬Exclusive (exec D w (.start a))) := by
  by_cases begins : ¬w.fd < 0 ∧ a.setup = true
  case neg =>
    have nothing : exec D w (.start a) = w := by
      have closed : w.fd < 0 ∨ (!a.setup) = true := by
        by_cases valid : w.fd < 0
        · exact .inl valid
        · exact .inr (by simpa [valid] using begins)
      simp only [exec, startV4l2, if_pos closed]
    rw [nothing]
    exact ⟨fun _ => ⟨W, kept⟩, fun not_safe => absurd (fun valid setup => absurd ⟨valid, setup⟩ begins) not_safe⟩
  obtain ⟨valid, setup⟩ := begins
  have safe_iff : Safe D w (.start a) ↔ StartSafe D a w :=
    ⟨fun safe => safe valid setup, fun safe _ _ => safe⟩
  rw [safe_iff]
  cases answer : a.reqbufs with
  | none =>
    obtain ⟨kept, safe⟩ := start_refused (D := D) kept valid setup answer
    exact ⟨kept, fun not_safe exclusive => not_safe (safe exclusive)⟩
  | some n =>
    refine ⟨start_granted kept valid setup answer seen, fun not_safe exclusive => ?_⟩
    exact start_unsafe kept valid setup answer seen not_safe exclusive.clean

/-- A call is safe exactly where it leaves every buffer in one place. -/
theorem exec_judged {c : Call} {w' : World} (inv : Inv w) (step : Step D w c w') :
    (Safe D w c → Inv w') ∧ (¬Safe D w c → ¬Exclusive w') := by
  obtain ⟨W, kept⟩ := inv
  obtain ⟨rfl, seen, given⟩ := step
  have unsafe_of : (¬Safe D w c → (exec D w c).faults ≠ []) → ¬Safe D w c → ¬Exclusive (exec D w c) :=
    fun faults not_safe exclusive => faults not_safe exclusive.clean
  cases c with
  | start a => exact start_judged kept seen
  | stop a => exact ⟨fun _ => kept.stop a, fun not_safe => absurd trivial not_safe⟩
  | ready isEnd event => exact ⟨fun _ => ready_kept kept isEnd event, fun not_safe => absurd trivial not_safe⟩
  | transfer splane dplane event pbuf =>
    obtain ⟨safe, faults⟩ := transfer_judged kept seen
    exact ⟨safe, unsafe_of faults⟩
  | dequeue a =>
    obtain ⟨safe, faults⟩ := dequeue_judged kept given seen
    exact ⟨safe, unsafe_of faults⟩
  | hold id => exact ⟨fun _ => hold_kept kept given, fun not_safe => absurd trivial not_safe⟩
  | drop id =>
    obtain ⟨safe, faults⟩ := drop_judged kept given seen
    exact ⟨safe, unsafe_of faults⟩
  | mark ending seek eosReceived resolutionChange =>
    exact ⟨fun _ => ⟨W, kept.flags ending seek eosReceived resolutionChange⟩,
      fun not_safe => absurd trivial not_safe⟩

/-- From a component that has not been started, every buffer is in one place after
every call exactly where no call is unsafe. -/
theorem ownership_iff {t : World} {calls : List Call} (fresh : Fresh w) :
    Run (Only (Step D) fun _ _ t => Exclusive t) w calls t ↔
      Run (Only (Step D) fun s c _ => Safe D s c) w calls t := by
  apply Run.judged_iff Inv ?_ ?_ fresh.inv
  · intro s c t inv step
    obtain ⟨safe, not_safe⟩ := exec_judged inv step
    constructor
    · intro exclusive
      by_contra bad
      exact not_safe bad exclusive
    · intro is_safe
      obtain ⟨W, kept⟩ := safe is_safe
      exact kept.exclusive
  · exact fun s c t inv step is_safe => (exec_judged inv step).1 is_safe

end Exclusion

/-! ## A buffer that comes back at the end of the stream -/

def capture : World := { output := false, multiplanar := false, memory := .MMAP }

def startOne : StartAnswers := { reqbufs := some 1, made := 1, planes := fun _ => [{ size := 4 }] }

/-- The buffer has a frame in it, which one component downstream takes. -/
def dequeueOne : RunAnswers := { dq := .done { index := 0, bytesused := fun _ => 4 }, taken := 1 }

theorem capture_fresh : Fresh capture where
  slots _ := rfl
  buffers _ := rfl
  errors _ := rfl
  driver _ := rfl
  objs _ := rfl
  held _ := rfl
  off := rfl
  clean := rfl

theorem dequeueOne_given : Given (exec {} capture (.start startOne)) (.dequeue dequeueOne) := by
  intro d answer
  cases answer
  rfl

/-- The buffer is let go downstream after the end is marked: the driver takes it
and it is freed. -/
theorem ended_drop_loses : Fresh capture ∧ ∃ t,
    Run (Step {}) capture
      [.start startOne, .dequeue dequeueOne, .mark true false false false, .drop 0] t ∧ ¬Exclusive t := by
  refine ⟨capture_fresh, _, .next ⟨rfl, by decide, trivial⟩ (.next ⟨rfl, by decide, dequeueOne_given⟩
    (.next ⟨rfl, by decide, trivial⟩ (.next ⟨rfl, by decide, Nat.zero_lt_one⟩ (.stay _)))), ?_⟩
  intro exclusive
  exact absurd exclusive.clean (by decide)

/-- Without the mark it is queued again. -/
theorem ownership_iff_going : ∃ t,
    Run (Only (Step {}) fun _ _ t => Exclusive t) capture
      [.start startOne, .dequeue dequeueOne, .drop 0] t := by
  refine ⟨_, (ownership_iff capture_fresh).mpr (.next ⟨⟨rfl, by decide, trivial⟩, ?_⟩
    (.next ⟨⟨rfl, by decide, dequeueOne_given⟩, ?_⟩ (.next ⟨⟨rfl, by decide, Nat.zero_lt_one⟩, ?_⟩ (.stay _))))⟩
  · intro _ _ _
    exact ⟨fun id o object => by contradiction, fun _ ending => by contradiction⟩
  · intro _ d id o answer slot object
    cases answer
    cases Option.some.inj slot
    cases Option.some.inj object
    rintro flags (error | none)
    · exact absurd error (by decide)
    · contradiction
  · intro _ o object lost
    exact absurd lost.2.1 (by decide)

end ImxTest.Pitcher.V4l2
