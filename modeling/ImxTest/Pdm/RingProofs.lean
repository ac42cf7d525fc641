import ImxTest.Lib.Runs
import ImxTest.Pdm.Ring
import Mathlib.Algebra.Order.Floor.Div

/-! Whether the converter keeps in step with the reader. Both go round one ring, the reader by
the bytes of its frames, the converter by `period_bytes` in whole samples, and the converter
counts its position twice. -/
namespace ImxTest.Pdm
open ImxTest.Lib.Runs

variable {p : Params} {s s' : Priv} {e : Event} {events : List Event} {dev : Device}

/-! ## What each function does -/

@[simp] theorem capture_captured (addr n : Nat) : (s.capture addr n).captured = s.captured + n := rfl

theorem capture_zero (addr : Nat) : s.capture addr 0 = s := by
  have same : ∀ a, ¬(addr ≤ a ∧ a < addr + 0) := by omega
  simp only [Priv.capture, if_neg (same _)]
  rfl

theorem capture_capture (addr m n : Nat) :
    (s.capture addr m).capture (addr + m) n = s.capture addr (m + n) := by
  simp only [Priv.capture, Nat.add_assoc, Priv.mk.injEq, and_true, true_and]
  funext a
  grind

/-- The frames of a period come in reads of any sizes, to the same effect. -/
theorem readLoop_captures {frames addr result r c : Nat} {sizes : List Nat} (whole : p.bitsPerFrame = 8 * c)
    (done : readLoop p frames addr result sizes s = some (r, s')) :
    r = result + frames ∧ s' = s.capture addr (frames * c) := by
  induction sizes generalizing frames addr result s with
  | nil =>
    cases frames with
    | zero =>
      cases done
      rw [Nat.zero_mul, capture_zero]
      exact ⟨rfl, rfl⟩
    | succ frames => cases done
  | cons size sizes ih =>
    cases frames with
    | zero => cases done
    | succ frames =>
      rw [readLoop] at done
      split at done
      case isFalse => cases done
      case isTrue fits =>
        have bytes : size * p.bitsPerFrame / 8 = size * c := by
          rw [whole, Nat.mul_left_comm, Nat.mul_div_cancel_left _ (by decide)]
        rw [bytes] at done
        obtain ⟨count, rfl⟩ := ih done
        refine ⟨by omega, ?_⟩
        rw [capture_capture, ← Nat.add_mul]
        congr 2
        omega

/-- The state after a read. -/
def Priv.afterRead (p : Params) (s : Priv) : Priv :=
  { s.capture s.readPos p.periodSize with
    rperiods := s.rperiods + 1
    readPos := if p.bufferSize ≤ s.readPos + p.periodSize then 0 else s.readPos + p.periodSize
    sem := s.sem + 1 }

theorem read_eq {c : Nat} {sizes : List Nat} (whole : p.bitsPerFrame = 8 * c)
    (done : mxcAlsaPdmRead p sizes s = some s') : s' = s.afterRead p := by
  obtain ⟨⟨result, t⟩, loop, rfl⟩ := Option.map_eq_some_iff.mp done
  obtain ⟨rfl, rfl⟩ := readLoop_captures whole loop
  have bytes : p.periodFrames * p.bitsPerFrame / 8 = p.periodFrames * c := by
    rw [whole, Nat.mul_left_comm, Nat.mul_div_cancel_left _ (by decide)]
  simp only [Priv.afterRead, Params.periodSize, bytes, Nat.zero_add, Priv.capture]

/-- A period that comes in one read. -/
theorem read_whole (frames : 0 < p.periodFrames) :
    mxcAlsaPdmRead p [p.periodFrames] s = some (s.afterRead p) := by
  obtain ⟨n, eq⟩ : ∃ n, p.periodFrames = n + 1 := ⟨p.periodFrames - 1, by omega⟩
  simp only [mxcAlsaPdmRead, Priv.afterRead, Params.periodSize, eq, readLoop, if_pos (Nat.le_refl _),
    Nat.sub_self, Option.map_some, Nat.zero_add, Priv.capture]

theorem combineBytes_eq (base n : Nat) (s : Priv) : combineBytes base n s =
    { s with
      consumed := s.consumed ++
        (List.range' s.writePos n).map fun w => (base + w, s.buffer (base + w))
      writePos := s.writePos + n } := by
  induction n generalizing s with
  | zero => simp [combineBytes]
  | succ n ih =>
    rw [combineBytes, ih, List.range'_succ]
    simp only [List.append_assoc, List.map_cons, List.singleton_append, Nat.add_assoc, Nat.add_comm 1 n]

theorem combineBytes_add (base m n : Nat) (s : Priv) :
    combineBytes base n (combineBytes base m s) = combineBytes base (m + n) s := by
  induction m generalizing s with
  | zero => rw [Nat.zero_add, combineBytes]
  | succ m ih => rw [combineBytes, ih, Nat.succ_add, combineBytes]

theorem combineSamples_eq (base k : Nat) (s : Priv) :
    combineSamples p base k s = combineBytes base (8 * ((p.periodBytes - k + 7) / 8)) s := by
  induction k, s using combineSamples.induct p base with
  | case1 k s more ih =>
    rw [combineSamples, if_pos more, ih, combineBytes_add]
    congr 1
    omega
  | case2 k s done =>
    rw [combineSamples, if_neg done, show 8 * ((p.periodBytes - k + 7) / 8) = 0 by omega, combineBytes]

/-- The state after a period has been converted. -/
def Priv.afterConvert (p : Params) (s : Priv) : Priv :=
  { s with
    sem := s.sem - 1
    consumed := s.consumed ++ (List.range' s.writePos p.sampleBytes).map fun w =>
      (s.writePos + w, s.buffer (s.writePos + w))
    wperiods := s.wperiods + 1
    writePos := if p.bufferSize ≤ s.writePos + p.sampleBytes then 0 else s.writePos + p.sampleBytes }

/-- The converter waits, skips the period or converts it. -/
theorem convert_eq : mxcAlsaPdmConvert p s =
    if s.sem = 0 then none
    else if 4 < s.rperiods then some (s.afterConvert p)
    else some { s with sem := s.sem - 1 } := by
  simp only [mxcAlsaPdmConvert, combineSamples_eq, combineBytes_eq, Priv.afterConvert, Params.sampleBytes,
    Nat.sub_zero]
  rfl

/-! ## What the set-up leaves -/

/-- What the ring is under any set-up that is accepted. -/
structure Accepted (p : Params) : Prop where
  whole : ∃ c, p.bitsPerFrame = 8 * c
  frames : 0 < p.periodFrames
  period : 0 < p.periodSize
  samples : p.periodSize ≤ p.sampleBytes

theorem setParams_accepted (accepted : setParams dev = .ok p) : Accepted p := by
  obtain ⟨channels, some, eq⟩ : ∃ n, 0 < n ∧ (if dev.channels = 0 then 1 else dev.channels) = n :=
    ⟨_, by split <;> omega, rfl⟩
  simp only [setParams, eq] at accepted
  split at accepted
  case isTrue => cases accepted
  case isFalse frames =>
    split at accepted
    case isTrue => cases accepted
    case isFalse =>
      cases accepted
      have shift : (physicalWidth * channels) >>> 3 = 4 * channels := by
        rw [Nat.shiftRight_eq_div_pow, physicalWidth]
        omega
      rw [shift] at frames
      have width : physicalWidth * channels = 8 * (4 * channels) := by
        rw [physicalWidth]
        omega
      have size : dev.periodSizeMax / (4 * channels) * (physicalWidth * channels) / 8 =
          dev.periodSizeMax / (4 * channels) * (4 * channels) := by
        rw [width, Nat.mul_left_comm, Nat.mul_div_cancel_left _ (by decide)]
      have most := Nat.div_mul_le_self dev.periodSizeMax (4 * channels)
      refine ⟨⟨4 * channels, width⟩, ?_, ?_, ?_⟩
      · simp only [shift]
        exact Nat.pos_of_ne_zero frames
      · simp only [Params.periodSize, shift, size]
        exact Nat.mul_pos (Nat.pos_of_ne_zero frames) (Nat.mul_pos (by decide) some)
      · simp only [Params.periodSize, Params.sampleBytes, shift, size]
        omega

/-! ## The reader over whole runs -/

/-- The periods that were read and the posts for them. -/
structure Counted (p : Params) (s : Priv) : Prop where
  captured : s.captured = p.periodSize * s.rperiods
  posts : s.sem ≤ s.rperiods
  before : ∀ a i, s.buffer a = some i → i < s.captured

/-- The number of periods after which the reader is back at the start. -/
def Params.laps (p : Params) : Nat := p.bufferSize ⌈/⌉ p.periodSize

/-- Each byte is where the reader puts its number: the ring is as long as its periods. -/
structure Placed (p : Params) (s : Priv) : Prop where
  turn : s.readPos = p.periodSize * (s.rperiods % p.laps)
  place : ∀ a i, s.buffer a = some i → i % (p.periodSize * p.laps) = a

theorem Counted.start : Counted p {} := ⟨rfl, Nat.le_refl _, nofun⟩

theorem Placed.start : Placed p {} := ⟨by simp only [Nat.zero_mod, Nat.mul_zero], nofun⟩

theorem Counted.afterRead (counted : Counted p s) : Counted p (s.afterRead p) := by
  constructor
  · simp only [Priv.afterRead, capture_captured, counted.captured, Nat.mul_succ]
  · exact Nat.succ_le_succ counted.posts
  · intro a i stored
    simp only [Priv.afterRead, Priv.capture] at stored ⊢
    split at stored
    case isTrue inside =>
      cases stored
      omega
    case isFalse => exact Nat.lt_add_right _ (counted.before a i stored)

theorem laps_pos (acc : Accepted p) (ring : 0 < p.bufferSize) : 0 < p.laps := by
  apply Nat.pos_of_ne_zero
  intro none
  have covered := (ceilDiv_le_iff_le_mul acc.period).mp (Nat.le_of_eq none)
  omega

theorem next_turn {n : Nat} (laps : 0 < n) (m : Nat) :
    (m + 1) % n = if n ≤ m % n + 1 then 0 else m % n + 1 := by
  have below := Nat.mod_lt m laps
  rw [← Nat.mod_add_mod]
  split
  · rw [show m % n + 1 = n by omega, Nat.mod_self]
  · exact Nat.mod_eq_of_lt (by omega)

theorem Placed.afterRead (acc : Accepted p) (ring : 0 < p.bufferSize) (counted : Counted p s)
    (placed : Placed p s) : Placed p (s.afterRead p) := by
  have laps := laps_pos acc ring
  have turn := placed.turn
  -- The period that is read starts at its number modulo the length of the ring.
  have start : s.captured % (p.periodSize * p.laps) = s.readPos := by
    rw [counted.captured, turn, Nat.mul_mod_mul_left]
  have room : s.readPos + p.periodSize ≤ p.periodSize * p.laps := by
    rw [turn, ← Nat.mul_succ]
    exact Nat.mul_le_mul_left _ (Nat.mod_lt s.rperiods laps)
  have wrap : p.bufferSize ≤ s.readPos + p.periodSize ↔ p.laps ≤ s.rperiods % p.laps + 1 := by
    rw [turn, ← Nat.mul_succ]
    exact (ceilDiv_le_iff_le_mul acc.period).symm
  constructor
  · simp only [Priv.afterRead, next_turn laps, wrap]
    split
    · rfl
    · rw [turn, Nat.mul_succ]
  · intro a i stored
    simp only [Priv.afterRead, Priv.capture] at stored
    split at stored
    case isTrue inside =>
      cases stored
      rw [← Nat.mod_add_mod, start, Nat.add_sub_cancel' inside.1]
      exact Nat.mod_eq_of_lt (by omega)
    case isFalse => exact placed.place a i stored

/-! ## One period at a time

Each period is converted as soon as it has been read, so that the reader never overtakes. -/

/-- The state after so many periods. -/
def alternate (p : Params) : Nat → Priv
  | 0 => {}
  | m + 1 =>
    let s := (alternate p m).afterRead p
    if 4 < s.rperiods then s.afterConvert p else { s with sem := s.sem - 1 }

theorem alternate_sem (m : Nat) : (alternate p m).sem = 0 ∧ (alternate p m).rperiods = m := by
  induction m with
  | zero => exact ⟨rfl, rfl⟩
  | succ m ih =>
    simp only [alternate]
    split
    all_goals simp only [Priv.afterConvert, Priv.afterRead, ih, and_self]

/-- The microphone's time to start. -/
theorem alternate_early {m : Nat} (early : m ≤ 4) :
    (alternate p m).consumed = [] ∧ (alternate p m).writePos = 0 := by
  induction m with
  | zero => exact ⟨rfl, rfl⟩
  | succ m ih =>
    have skipped : ¬4 < ((alternate p m).afterRead p).rperiods := by
      simp only [Priv.afterRead, alternate_sem]
      omega
    simp only [alternate, if_neg skipped]
    exact ih (by omega)

theorem alternate_late {m : Nat} (late : 4 ≤ m) :
    alternate p (m + 1) = ((alternate p m).afterRead p).afterConvert p := by
  have used : 4 < ((alternate p m).afterRead p).rperiods := by
    simp only [Priv.afterRead, alternate_sem]
    omega
  simp only [alternate, if_pos used]

theorem alternate_writePos :
    (alternate p 5).writePos = if p.bufferSize ≤ p.sampleBytes then 0 else p.sampleBytes := by
  have zero : ((alternate p 4).afterRead p).writePos = 0 := (alternate_early (p := p) (Nat.le_refl 4)).2
  rw [alternate_late (Nat.le_refl 4)]
  simp only [Priv.afterConvert]
  rw [zero, Nat.zero_add]

theorem alternate_buffer (m : Nat) : (alternate p (m + 1)).buffer = ((alternate p m).afterRead p).buffer ∧
    (alternate p (m + 1)).readPos = ((alternate p m).afterRead p).readPos ∧
    (alternate p (m + 1)).captured = ((alternate p m).afterRead p).captured := by
  simp only [alternate]
  split
  all_goals exact ⟨rfl, rfl, rfl⟩

theorem alternate_counted (m : Nat) : Counted p (alternate p m) := by
  induction m with
  | zero => exact .start
  | succ m ih =>
    obtain ⟨captured, -, before⟩ := ih.afterRead
    obtain ⟨buffer, -, same⟩ := alternate_buffer (p := p) m
    refine ⟨?_, by simp only [alternate_sem, Nat.zero_le], ?_⟩
    · rw [same, captured, (alternate_sem (m + 1)).2]
      simp only [Priv.afterRead, alternate_sem]
    · rwa [buffer, same]

theorem alternate_placed (acc : Accepted p) (ring : 0 < p.bufferSize) (m : Nat) :
    Placed p (alternate p m) := by
  induction m with
  | zero => exact .start
  | succ m ih =>
    obtain ⟨turn, place⟩ := ih.afterRead acc ring (alternate_counted m)
    obtain ⟨buffer, readPos, -⟩ := alternate_buffer (p := p) m
    refine ⟨?_, by rwa [buffer]⟩
    rw [readPos, turn, (alternate_sem (m + 1)).2]
    simp only [Priv.afterRead, alternate_sem]

theorem alternate_runs (acc : Accepted p) (m : Nat) :
    ∃ events, Run (Step p) {} events (alternate p m) := by
  induction m with
  | zero => exact ⟨[], .stay _⟩
  | succ m ih =>
    obtain ⟨events, run⟩ := ih
    have clear : NotOvertaking p (alternate p m) := by
      intro a i _ _ stored
      have before := (alternate_counted m).before a i stored
      rw [(alternate_counted m).captured] at before
      rwa [(alternate_sem m).1, Nat.sub_zero]
    have posted : ((alternate p m).afterRead p).sem ≠ 0 := Nat.succ_ne_zero _
    have converted : mxcAlsaPdmConvert p ((alternate p m).afterRead p) = some (alternate p (m + 1)) := by
      rw [convert_eq, if_neg posted, alternate]
      split
      all_goals rfl
    exact ⟨_, run.trans (.next (.read clear (read_whole acc.frames)) (.next (.convert converted) (.stay _)))⟩

/-! ## What the order of the bytes says -/

theorem InStep.numbers {start k : Nat} {x : Nat × Option Nat}
    (inOrder : s.consumed.map Prod.snd = (List.range' start s.consumed.length).map some)
    (at_k : s.consumed[k]? = some x) : x.2 = some (start + k) := by
  have same := congrArg (·[k]?) inOrder
  obtain ⟨inside, -⟩ := List.getElem?_eq_some_iff.mp at_k
  simp only [List.getElem?_map, at_k, Option.map_some] at same
  rw [List.getElem?_range' inside] at same
  simpa using same

theorem afterConvert_consumed {j : Nat} (inside : j < p.sampleBytes) :
    (s.afterConvert p).consumed[s.consumed.length + j]? =
      some (s.writePos + (s.writePos + j), s.buffer (s.writePos + (s.writePos + j))) := by
  simp only [Priv.afterConvert, List.getElem?_append_right (Nat.le_add_right _ _), Nat.add_sub_cancel_left,
    List.getElem?_map, List.getElem?_range' inside, Option.map_some, Nat.one_mul]

/-- The first two periods that are used tell whether the ring is one period. -/
theorem one_period (acc : Accepted p) (fifth : InStep p (alternate p 5)) (sixth : InStep p (alternate p 6)) :
    p.periodSize = p.sampleBytes ∧ p.sampleBytes = p.bufferSize := by
  have some_bytes : 0 < p.sampleBytes := Nat.lt_of_lt_of_le acc.period acc.samples
  obtain ⟨none, zero⟩ := alternate_early (p := p) (Nat.le_refl 4)
  -- The first of them starts at the start of the buffer.
  have first : ∀ j < p.sampleBytes, (alternate p 5).consumed[j]? = some (j, (alternate p 5).buffer j) := by
    intro j inside
    have consumed : ((alternate p 4).afterRead p).consumed = [] := none
    have writePos : ((alternate p 4).afterRead p).writePos = 0 := zero
    have at_j := afterConvert_consumed (s := (alternate p 4).afterRead p) inside
    rw [consumed, writePos, List.length_nil, Nat.zero_add, Nat.zero_add] at at_j
    rw [alternate_late (Nat.le_refl 4)]
    exact at_j
  have length : (alternate p 5).consumed.length = p.sampleBytes := by
    rw [alternate_late (Nat.le_refl 4)]
    simp only [Priv.afterConvert, List.length_append, List.length_map, List.length_range']
    rw [show ((alternate p 4).afterRead p).consumed = [] from none, List.length_nil, Nat.zero_add]
  have fits : p.sampleBytes ≤ p.bufferSize := by
    have last := fifth.inside _ (List.mem_of_getElem? (first (p.sampleBytes - 1) (by omega)))
    omega
  have placed := alternate_placed acc (Nat.lt_of_lt_of_le some_bytes fits)
  have writePos := alternate_writePos (p := p)
  -- The second starts at twice the position.
  have second : ∀ j < p.sampleBytes, (alternate p 6).consumed[p.sampleBytes + j]? =
      some ((alternate p 5).writePos + ((alternate p 5).writePos + j),
        (alternate p 6).buffer ((alternate p 5).writePos + ((alternate p 5).writePos + j))) := by
    intro j inside
    have at_j := afterConvert_consumed (s := (alternate p 5).afterRead p) inside
    rw [show ((alternate p 5).afterRead p).consumed = (alternate p 5).consumed from rfl, length] at at_j
    rw [alternate_late (by decide : 4 ≤ 5)]
    exact at_j
  obtain ⟨start, inOrder⟩ := sixth.inOrder
  have before : ∀ j < p.sampleBytes, (alternate p 6).consumed[j]? = some (j, (alternate p 5).buffer j) := by
    intro j inside
    rw [← first j inside, alternate_late (by decide : 4 ≤ 5)]
    exact List.getElem?_append_left (by rw [← length] at inside; exact inside)
  have number : ∀ j < p.sampleBytes, (alternate p 5).buffer j = some (start + j) :=
    fun j inside => InStep.numbers inOrder (before j inside)
  have next : ∀ j < p.sampleBytes,
      (alternate p 6).buffer ((alternate p 5).writePos + ((alternate p 5).writePos + j)) =
        some (start + (p.sampleBytes + j)) :=
    fun j inside => InStep.numbers inOrder (second j inside)
  have whole : p.sampleBytes = p.bufferSize := by
    apply Nat.le_antisymm fits
    by_contra more
    -- In a longer ring the byte at twice the position is another one.
    rw [writePos, if_neg more] at next
    have low := (placed 5).place _ _ (number 0 some_bytes)
    have high := (placed 6).place _ _ (next 0 some_bytes)
    have covered : p.bufferSize ≤ p.periodSize * p.laps := (ceilDiv_le_iff_le_mul acc.period).mp (Nat.le_refl _)
    rw [Nat.add_zero] at low
    rw [Nat.add_zero, ← Nat.mod_add_mod, low, Nat.zero_add, Nat.mod_eq_of_lt (by omega)] at high
    omega
  refine ⟨Nat.le_antisymm acc.samples ?_, whole⟩
  by_contra shorter
  -- The last byte is not of the period that was just read: it is used a second time.
  rw [writePos, if_pos (Nat.le_of_eq whole.symm)] at next
  have kept := next (p.sampleBytes - 1) (by omega)
  have old := number (p.sampleBytes - 1) (by omega)
  have fresh := next 0 some_bytes
  have stale := number 0 some_bytes
  rw [(alternate_buffer 5).1] at kept fresh
  simp only [Priv.afterRead, Priv.capture, Nat.zero_add] at kept fresh
  rw [stale] at fresh
  rw [old] at kept
  have last : p.sampleBytes - 1 < (alternate p 5).readPos + p.periodSize := by
    by_contra behind
    rw [if_neg (fun inside => behind inside.2), Option.some.injEq] at kept
    omega
  have front : (alternate p 5).readPos ≤ 0 := by
    by_contra behind
    rw [if_neg (fun inside => behind inside.1), Option.some.injEq] at fresh
    omega
  omega

/-- A ring of at most two periods is left by the second one that is used. -/
theorem alternate_outside (some_bytes : 0 < p.sampleBytes) (longer : p.sampleBytes < p.bufferSize)
    (shorter : p.bufferSize ≤ 2 * p.sampleBytes) : ¬InStep p (alternate p 6) := by
  intro inStep
  have writePos : ((alternate p 5).afterRead p).writePos = p.sampleBytes := by
    rw [show ((alternate p 5).afterRead p).writePos = (alternate p 5).writePos from rfl, alternate_writePos,
      if_neg (by omega)]
  rw [alternate_late (by decide : 4 ≤ 5)] at inStep
  have first := inStep.inside _ (List.mem_of_getElem? (afterConvert_consumed some_bytes))
  rw [writePos] at first
  omega

/-! ## One period as the ring -/

/-- The state of a ring of one period. -/
structure Single (p : Params) (s : Priv) : Prop where
  counted : Counted p s
  readPos : s.readPos = 0
  writePos : s.writePos = 0
  one : s.sem ≤ 1
  latest : 0 < s.rperiods → ∀ a < p.periodSize, s.buffer a = some (p.periodSize * (s.rperiods - 1) + a)
  inside : ∀ x ∈ s.consumed, x.1 < p.bufferSize
  used : s.consumed = [] ∨ 4 < s.rperiods ∧
    ∃ start, s.consumed.map Prod.snd = (List.range' start s.consumed.length).map some ∧
      start + s.consumed.length = p.periodSize * (s.rperiods - s.sem)

theorem Single.inStep (single : Single p s) : InStep p s := by
  refine ⟨single.inside, ?_⟩
  obtain none | ⟨-, start, inOrder, -⟩ := single.used
  · exact ⟨0, by simp only [none, List.map_nil, List.length_nil, List.range'_zero]⟩
  · exact ⟨start, inOrder⟩

theorem Single.afterRead (size : p.periodSize = p.bufferSize) (some_bytes : 0 < p.periodSize)
    (single : Single p s) (clear : NotOvertaking p s) : Single p (s.afterRead p) := by
  -- The period before has been taken, as the whole of it is about to be overwritten.
  have taken : s.sem = 0 := by
    by_contra waiting
    have posts := single.counted.posts
    have below := clear 0 _ (Nat.le_of_eq single.readPos) (by omega) (single.latest (by omega) 0 some_bytes)
    have least := Nat.mul_le_mul_left p.periodSize (show s.rperiods - s.sem ≤ s.rperiods - 1 by omega)
    omega
  constructor
  · exact single.counted.afterRead
  · simp only [Priv.afterRead, single.readPos, Nat.zero_add, if_pos (Nat.le_of_eq size.symm)]
  · exact single.writePos
  · simp only [Priv.afterRead, taken, Nat.le_refl]
  · intro _ a inside
    simp only [Priv.afterRead, Priv.capture, single.readPos, Nat.zero_add, Nat.zero_le, true_and, inside,
      if_true, Nat.sub_zero, Nat.add_sub_cancel, single.counted.captured]
  · exact single.inside
  · obtain none | ⟨late, start, inOrder, total⟩ := single.used
    · exact .inl none
    · refine .inr ⟨Nat.lt_succ_of_lt late, start, inOrder, ?_⟩
      rw [taken, Nat.sub_zero] at total
      simp only [Priv.afterRead, taken, Nat.zero_add, Nat.add_sub_cancel]
      exact total

theorem Single.afterConvert (whole : p.sampleBytes = p.periodSize) (size : p.periodSize = p.bufferSize)
    (single : Single p s) (posted : s.sem ≠ 0) (late : 4 < s.rperiods) : Single p (s.afterConvert p) := by
  have one := single.one
  have latest := single.latest (by omega)
  have bytes : (s.afterConvert p).consumed = s.consumed ++
      (List.range' 0 p.periodSize).map fun w => (w, s.buffer w) := by
    simp only [Priv.afterConvert, single.writePos, Nat.zero_add, whole]
  have numbers : ((List.range' 0 p.periodSize).map fun w => (w, s.buffer w)).map Prod.snd =
      (List.range' (p.periodSize * (s.rperiods - 1)) p.periodSize).map some := by
    rw [List.map_map, List.range'_eq_map_range, List.range'_eq_map_range, List.map_map, List.map_map]
    apply List.map_congr_left
    intro j inside
    simp only [Function.comp_apply, Nat.zero_add]
    exact latest j (List.mem_range.mp inside)
  have length : (s.afterConvert p).consumed.length = s.consumed.length + p.periodSize := by
    rw [bytes, List.length_append, List.length_map, List.length_range']
  constructor
  · exact ⟨single.counted.captured, Nat.le_trans (Nat.sub_le _ _) single.counted.posts, single.counted.before⟩
  · exact single.readPos
  · simp only [Priv.afterConvert, single.writePos, Nat.zero_add, whole, if_pos (Nat.le_of_eq size.symm)]
  · exact Nat.le_trans (Nat.sub_le _ _) one
  · exact fun _ => latest
  · intro x member
    rw [bytes, List.mem_append, List.mem_map] at member
    obtain member | ⟨w, member, rfl⟩ := member
    · exact single.inside x member
    · rw [List.mem_range'_1] at member
      omega
  · right
    refine ⟨late, ?_⟩
    have least : p.periodSize * (s.rperiods - 1) + p.periodSize = p.periodSize * s.rperiods := by
      rw [← Nat.mul_succ]
      congr 1
      omega
    have remains : (s.afterConvert p).sem = 0 := by
      simp only [Priv.afterConvert]
      omega
    have count : (s.afterConvert p).rperiods = s.rperiods := rfl
    rw [length, remains, count, bytes, List.map_append, numbers, Nat.sub_zero]
    obtain none | ⟨-, start, inOrder, total⟩ := single.used
    · refine ⟨p.periodSize * (s.rperiods - 1), ?_, ?_⟩
      · simp only [none, List.map_nil, List.nil_append, List.length_nil, Nat.zero_add]
      · rw [none, List.length_nil, Nat.zero_add, least]
    · rw [show s.sem = 1 by omega] at total
      refine ⟨start, ?_, by omega⟩
      rw [inOrder, ← total, ← List.map_append, List.range'_append_1]

theorem Single.step (acc : Accepted p) (whole : p.sampleBytes = p.periodSize)
    (size : p.periodSize = p.bufferSize) (single : Single p s) (step : Step p s e s') : Single p s' := by
  cases step with
  | read clear done =>
    obtain ⟨c, frame⟩ := acc.whole
    rw [read_eq frame done]
    exact single.afterRead size acc.period clear
  | convert done =>
    rw [convert_eq] at done
    split at done
    case isTrue => cases done
    case isFalse posted =>
      split at done
      case isTrue late =>
        cases done
        exact single.afterConvert whole size posted late
      case isFalse early =>
        cases done
        have unused : s.consumed = [] := single.used.resolve_right fun used => early used.1
        refine ⟨⟨single.counted.captured, ?_, single.counted.before⟩, single.readPos, single.writePos, ?_,
          single.latest, single.inside, .inl unused⟩
        · exact Nat.le_trans (Nat.sub_le _ _) single.counted.posts
        · exact Nat.le_trans (Nat.sub_le _ _) single.one

theorem Single.start : Single p {} :=
  ⟨.start, rfl, rfl, Nat.zero_le _, nofun, nofun, .inl rfl⟩

/-- The converter keeps in step exactly where one period, in whole samples, is all of the ring. -/
theorem inStep_iff (accepted : setParams dev = .ok p) :
    (∀ events s, Run (Step p) {} events s → InStep p s) ↔
      p.periodSize = p.sampleBytes ∧ p.sampleBytes = p.bufferSize := by
  have acc := setParams_accepted accepted
  constructor
  · intro always
    obtain ⟨five, fifth⟩ := alternate_runs acc 5
    obtain ⟨six, sixth⟩ := alternate_runs acc 6
    exact one_period acc (always _ _ fifth) (always _ _ sixth)
  · rintro ⟨whole, size⟩ events s run
    have kept : ∀ s e s', Single p s → Step p s e s' → Single p s' := fun s e s' single step =>
      single.step acc whole.symm (whole.trans size) step
    exact (run.invariant kept .start).inStep

/-- Four periods of frames are as many bytes as one period has. -/
theorem inStep_four_periods : setParams ⟨1, 65536, 4096, 4096⟩ = .ok ⟨32, 4096, 1024, 4096⟩ ∧
    ∀ events s, Run (Step ⟨32, 4096, 1024, 4096⟩) {} events s → InStep ⟨32, 4096, 1024, 4096⟩ s :=
  have accepted : setParams ⟨1, 65536, 4096, 4096⟩ = .ok ⟨32, 4096, 1024, 4096⟩ := by decide
  ⟨accepted, (inStep_iff accepted).mpr (by decide)⟩

/-- With eight, the second period that is used starts behind the buffer. -/
theorem inStep_eight_periods : setParams ⟨1, 65536, 4096, 8192⟩ = .ok ⟨32, 4096, 1024, 8192⟩ ∧
    ∃ events s, Run (Step ⟨32, 4096, 1024, 8192⟩) {} events s ∧ ¬InStep ⟨32, 4096, 1024, 8192⟩ s := by
  have accepted : setParams ⟨1, 65536, 4096, 8192⟩ = .ok ⟨32, 4096, 1024, 8192⟩ := by decide
  obtain ⟨events, run⟩ := alternate_runs (setParams_accepted accepted) 6
  exact ⟨accepted, events, _, run, alternate_outside (by decide) (by decide) (by decide)⟩

end ImxTest.Pdm
