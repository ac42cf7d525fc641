import ImxTest.Vpu.Display

/-! Every index is in one place, and the counters tell how many are where. An abstract step
moves one index from one place to the next; each step of the two threads is one of these or
moves none. -/
namespace ImxTest.Vpu.Display
open Lib.Runs

/-! ## Indices on their way -/

inductive Move : Holdings → Holdings → Prop where
  | stay (h) : Move h h
  /-- `VIDIOC_QBUF` -/
  | queue {h : Holdings} {i} (mine : i ∈ h.decoder) :
      Move h { h with driver := insert i h.driver, decoder := h.decoder.erase i }
  /-- `VIDIOC_DQBUF` -/
  | dequeue {h : Holdings} {i} (queued : i ∈ h.driver) (free : h.dispLoop = none) :
      Move h { h with driver := h.driver.erase i, dispLoop := some i }
  | release {h : Holdings} {i} (held : h.dispLoop = some i) :
      Move h { h with releasedQ := h.releasedQ ++ [i], dispLoop := none }
  | take {h : Holdings} {i rest} (first : h.releasedQ = i :: rest) :
      Move h { h with releasedQ := rest, decoder := insert i h.decoder }

/-- Each of the indices is in one place. -/
structure Holdings.Exact (n : Nat) (h : Holdings) : Prop where
  known : ∀ i, (∃ place, h.At i place) ↔ i < n
  single : ∀ i p q, h.At i p → h.At i q → p = q
  nodup : h.releasedQ.Nodup

variable {n : Nat} {h h' : Holdings} {dec : Decode} {s t : State} {e : Event}

theorem Holdings.Exact.unique (exact : h.Exact n) {i : Nat} (inside : i < n) : ∃! place, h.At i place := by
  obtain ⟨place, here⟩ := (exact.known i).mpr inside
  exact ⟨place, here, fun other there => exact.single i other place there here⟩

/-- One index changes its place, and the others stay where they are. -/
theorem Holdings.Exact.moved (exact : h.Exact n) {i : Nat} (source target : Place) (here : h.At i source)
    (there : ∀ p, h'.At i p ↔ p = target) (others : ∀ j ≠ i, ∀ p, h'.At j p ↔ h.At j p)
    (nodup : h'.releasedQ.Nodup) : h'.Exact n := by
  refine ⟨?_, ?_, nodup⟩
  · intro j
    by_cases same : j = i
    · subst same
      have inside := (exact.known j).mp ⟨source, here⟩
      exact ⟨fun _ => inside, fun _ => ⟨target, (there target).mpr rfl⟩⟩
    · rw [← exact.known j]
      exact exists_congr (others j same)
  · intro j p q at_p at_q
    by_cases same : j = i
    · subst same
      exact ((there p).mp at_p).trans ((there q).mp at_q).symm
    · exact exact.single j p q ((others j same p).mp at_p) ((others j same q).mp at_q)

theorem Holdings.Exact.absent (exact : h.Exact n) {i : Nat} (source p : Place) (here : h.At i source)
    (other : p ≠ source) : ¬h.At i p :=
  fun there => other (exact.single i p source there here)

theorem Move.exact (move : Move h h') (exact : h.Exact n) : h'.Exact n := by
  cases move with
  | stay => exact exact
  | @queue i mine =>
    have absent := fun p => exact.absent .decoder p mine
    refine exact.moved .decoder .driver mine ?_ ?_ exact.nodup
    · intro p
      cases p with
      | driver => simp [Holdings.At]
      | releasedQ => simpa [Holdings.At] using absent .releasedQ
      | decoder => simp [Holdings.At]
      | dispLoop => simpa [Holdings.At] using absent .dispLoop
    · intro j apart p
      cases p
      all_goals simp [Holdings.At, apart]
  | @dequeue i queued free =>
    have absent := fun p => exact.absent .driver p queued
    refine exact.moved .driver .dispLoop queued ?_ ?_ exact.nodup
    · intro p
      cases p with
      | driver => simp [Holdings.At]
      | releasedQ => simpa [Holdings.At] using absent .releasedQ
      | decoder => simpa [Holdings.At] using absent .decoder
      | dispLoop => simp [Holdings.At]
    · intro j apart p
      cases p
      all_goals simp [Holdings.At, apart, apart.symm, free]
  | @release i held =>
    have absent := fun p => exact.absent .dispLoop p held
    refine exact.moved .dispLoop .releasedQ held ?_ ?_ ?_
    · intro p
      cases p with
      | driver => simpa [Holdings.At] using absent .driver
      | releasedQ => simp [Holdings.At]
      | decoder => simpa [Holdings.At] using absent .decoder
      | dispLoop => simp [Holdings.At]
    · intro j apart p
      cases p
      all_goals simp [Holdings.At, apart, apart.symm, held]
    · exact List.nodup_append.mpr ⟨exact.nodup, List.nodup_singleton i, by
        rintro j member k single rfl
        rw [List.mem_singleton.mp single] at member
        exact absent .releasedQ nofun member⟩
  | @take i rest first =>
    have here : h.At i .releasedQ := by simp [Holdings.At, first]
    have absent := fun p => exact.absent .releasedQ p here
    obtain ⟨fresh, nodup⟩ := List.nodup_cons.mp (first ▸ exact.nodup)
    refine exact.moved .releasedQ .decoder here ?_ ?_ nodup
    · intro p
      cases p with
      | driver => simpa [Holdings.At] using absent .driver
      | releasedQ => simpa [Holdings.At] using fresh
      | decoder => simp [Holdings.At]
      | dispLoop => simpa [Holdings.At] using absent .dispLoop
    · intro j apart p
      cases p
      all_goals simp [Holdings.At, apart, first]

/-- An index in the hands of the thread leaves room for it. -/
theorem Holdings.Exact.room (exact : h.Exact n) {i : Nat} (held : h.dispLoop = some i) :
    h.releasedQ.length < n := by
  have inside : i < n := (exact.known i).mp ⟨.dispLoop, held⟩
  have fewer : h.releasedQ.toFinset ⊂ Finset.range n := by
    rw [Finset.ssubset_iff_of_subset]
    · refine ⟨i, Finset.mem_range.mpr inside, ?_⟩
      rw [List.mem_toFinset]
      exact exact.absent .dispLoop .releasedQ held nofun
    · intro j member
      exact Finset.mem_range.mpr ((exact.known j).mp ⟨.releasedQ, List.mem_toFinset.mp member⟩)
  have card := Finset.card_lt_card fewer
  rwa [List.toFinset_card_of_nodup exact.nodup, Finset.card_range] at card

/-! ## The two threads -/

/-- Between `VIDIOC_DQBUF` and the counting. -/
def DispLoop.busy : DispLoop → Bool
  | .queueTest | .queueStore | .queueAdvance | .count => true
  | _ => false

/-- An index that is in the ring and not counted yet. -/
def DispLoop.enqueued : DispLoop → Int
  | .count => 1
  | _ => 0

/-- Between the test of `dequeued_count` and the tail being taken on. -/
def Decoding.dequeues : Decoding → Bool
  | .dequeueTest | .dequeueRead | .dequeueAdvance _ => true
  | _ => false

/-- An index that is out of the ring and still counted. -/
def Decoding.taken : Decoding → Int
  | .countTaken _ => 1
  | _ => 0

structure Inv (dec : Decode) (s : State) : Prop where
  sound : s.releasedQ.Sound
  exact : s.holdings.Exact dec.nframes
  stored : s.loop = .queueAdvance → s.releasedQ.list s.releasedQ.tail = s.buffer
  counted : s.dequeuedCount = s.releasedQ.contents.length - s.loop.enqueued + s.decoding.taken
  filled : s.decoding.dequeues = true → 0 < s.dequeuedCount
  first : ∀ ret, s.decoding = .dequeueAdvance ret → s.releasedQ.list s.releasedQ.head = ret
  obtained : s.decoding ≠ .countTaken none

theorem Inv.start (list : Nat → Nat) (buffer : Nat) : Inv dec (v4lDisplayOpen dec list buffer) := by
  have empty : (v4lDisplayOpen dec list buffer).releasedQ.contents = [] := BufQueue.contents_of_isEmpty rfl
  have places : (v4lDisplayOpen dec list buffer).holdings = ⟨∅, [], Finset.range dec.nframes, none⟩ := by
    rw [State.holdings, empty]
    rfl
  refine ⟨⟨Nat.succ_pos _, Nat.succ_pos _⟩, ?_, nofun, ?_, nofun, nofun, nofun⟩
  · rw [places]
    refine ⟨fun i => ⟨?_, fun inside => ⟨.decoder, Finset.mem_range.mpr inside⟩⟩, ?_, List.nodup_nil⟩
    · rintro ⟨place, here⟩
      cases place
      case decoder => exact Finset.mem_range.mp here
      all_goals simp [Holdings.At] at here
    · intro i p q at_p at_q
      cases p <;> cases q <;> simp [Holdings.At] at at_p at_q ⊢
  · rw [empty]
    rfl

/-- As long as an index is counted, the ring is not empty. -/
theorem Inv.not_empty (inv : Inv dec s) (dequeues : s.decoding.dequeues = true) : s.releasedQ.isEmpty = false := by
  by_contra empty
  have none := BufQueue.contents_of_isEmpty (Bool.not_eq_false _ ▸ empty)
  have counted := inv.counted
  have filled := inv.filled dequeues
  have taken : s.decoding.taken = 0 := by
    cases at_ : s.decoding
    case countTaken => simp [at_, Decoding.dequeues] at dequeues
    all_goals rfl
  have enqueued : 0 ≤ s.loop.enqueued := by
    cases s.loop
    all_goals decide
  rw [none, taken, List.length_nil] at counted
  omega

/-- While the thread has an index, the ring has room for it. -/
theorem Inv.room (few : dec.nframes ≤ MAX_BUF_NUM) (inv : Inv dec s) (holds : s.loop.holds = true) :
    s.releasedQ.contents.length < MAX_BUF_NUM := by
  have held : s.holdings.dispLoop = some s.buffer := if_pos holds
  exact Nat.lt_of_lt_of_le (inv.exact.room held) few

theorem Inv.not_full (few : dec.nframes ≤ MAX_BUF_NUM) (inv : Inv dec s) (holds : s.loop.holds = true) :
    s.releasedQ.isFull = false := by
  by_contra full
  have length := inv.sound.isFull_iff.mp (Bool.not_eq_false _ ▸ full)
  have room := inv.room few holds
  omega

/-- What a step keeps and what it does to the ring. -/
structure Kept (dec : Decode) (s : State) (e : Event) (t : State) : Prop where
  inv : Inv dec t
  fifo : FifoStep MAX_BUF_NUM s.releasedQ.contents (s.action e) t.releasedQ.contents

/-- A step that leaves the indices alone. -/
theorem Inv.frame (inv : Inv dec s) (ring : t.releasedQ = s.releasedQ) (driver : t.driver = s.driver)
    (decoder : t.decoder = s.decoder) (buffer : t.buffer = s.buffer) (count : t.dequeuedCount = s.dequeuedCount)
    (loop : t.loop = s.loop ∨ t.loop.busy = false ∧ s.loop.busy = false)
    (decoding : t.decoding = s.decoding ∨ t.decoding.dequeues = false ∧ t.decoding.taken = 0 ∧
      s.decoding.taken = 0)
    (quiet : s.action e = none) : Kept dec s e t := by
  have holds : t.loop.holds = s.loop.holds := by
    obtain same | ⟨idle, idle'⟩ := loop
    · rw [same]
    · cases at_ : s.loop <;> cases at_' : t.loop <;> simp_all [DispLoop.busy, DispLoop.holds]
  have enqueued : t.loop.enqueued = s.loop.enqueued := by
    obtain same | ⟨idle, idle'⟩ := loop
    · rw [same]
    · cases at_ : s.loop <;> cases at_' : t.loop <;> simp_all [DispLoop.busy, DispLoop.enqueued]
  have taken : t.decoding.taken = s.decoding.taken := by
    obtain same | ⟨-, none, none'⟩ := decoding
    · rw [same]
    · rw [none, none']
  have holdings : t.holdings = s.holdings := by
    simp only [State.holdings, ring, driver, decoder, buffer, holds]
  refine ⟨⟨by rw [ring]; exact inv.sound, by rw [holdings]; exact inv.exact, ?_, ?_, ?_, ?_, ?_⟩, ?_⟩
  · intro here
    obtain same | ⟨idle, -⟩ := loop
    · rw [ring, buffer]
      exact inv.stored (same ▸ here)
    · rw [here] at idle
      cases idle
  · rw [count, ring, enqueued, taken]
    exact inv.counted
  · intro dequeues
    obtain same | ⟨none, -⟩ := decoding
    · rw [count]
      exact inv.filled (same ▸ dequeues)
    · rw [none] at dequeues
      cases dequeues
  · intro ret here
    obtain same | ⟨none, -⟩ := decoding
    · rw [ring]
      exact inv.first ret (same ▸ here)
    · rw [here] at none
      cases none
  · obtain same | ⟨-, none, -⟩ := decoding
    · rw [same]
      exact inv.obtained
    · intro here
      rw [here] at none
      cases none
  · rw [ring, quiet]
    exact .stay _

theorem Inv.dispLoop {answer : Bool} (few : dec.nframes ≤ MAX_BUF_NUM) (inv : Inv dec s)
    (taken : dispLoopStep s answer = some t) : Kept dec s (.dispLoop answer) t := by
  -- a step outside of `queue_buf` and the counting
  have idle : ∀ t, t.releasedQ = s.releasedQ → t.driver = s.driver → t.decoder = s.decoder →
      t.buffer = s.buffer → t.dequeuedCount = s.dequeuedCount → t.decoding = s.decoding →
      t.loop.busy = false → s.loop.busy = false → Kept dec s (.dispLoop answer) t := by
    intro t ring driver decoder buffer count decoding quiet quiet'
    refine inv.frame ring driver decoder buffer count (.inr ⟨quiet, quiet'⟩) (.inl decoding) ?_
    cases at_ : s.loop <;> simp_all [State.action, DispLoop.busy]
  rw [dispLoopStep] at taken
  cases at_ : s.loop with
  | again =>
    simp only [at_, Option.some.injEq] at taken
    subst taken
    exact idle _ rfl rfl rfl rfl rfl rfl (by split <;> rfl) (by rw [at_]; rfl)
  | timedwait =>
    simp only [at_] at taken
    split at taken
    case isTrue =>
      split at taken
      case isTrue => cases taken
      case isFalse =>
        cases taken
        exact idle _ rfl rfl rfl rfl rfl rfl rfl (by rw [at_]; rfl)
    case isFalse =>
      cases taken
      exact idle _ rfl rfl rfl rfl rfl rfl (by split <;> rfl) (by rw [at_]; rfl)
  | woken =>
    simp only [at_, Option.some.injEq] at taken
    subst taken
    exact idle _ rfl rfl rfl rfl rfl rfl (by split <;> rfl) (by rw [at_]; rfl)
  | dqbuf =>
    rw [at_] at taken
    cases taken
  | queueTest =>
    simp only [at_, inv.not_full few (by rw [at_]; rfl), Bool.false_eq_true, if_false, Option.some.injEq] at taken
    subst taken
    have holdings : { s with loop := .queueStore }.holdings = s.holdings := by
      simp [State.holdings, at_, DispLoop.holds]
    refine ⟨⟨inv.sound, holdings ▸ inv.exact, nofun, ?_, inv.filled, inv.first, inv.obtained⟩, ?_⟩
    · simpa only [at_, DispLoop.enqueued] using inv.counted
    · simp only [State.action, at_, reduceCtorEq, if_false]
      exact .stay _
  | queueStore =>
    simp only [at_, Option.some.injEq] at taken
    subst taken
    have contents : (s.releasedQ.store s.buffer).contents = s.releasedQ.contents := inv.sound.contents_store
    have holdings : { s with releasedQ := s.releasedQ.store s.buffer, loop := .queueAdvance }.holdings =
        s.holdings := by
      simp [State.holdings, at_, DispLoop.holds, contents]
    refine ⟨⟨inv.sound.store, holdings ▸ inv.exact, ?_, ?_, inv.filled, ?_, inv.obtained⟩, ?_⟩
    · intro _
      exact Function.update_self ..
    · simpa only [at_, DispLoop.enqueued, contents] using inv.counted
    · intro ret here
      -- the slot at the tail is not the one that is read
      have apart := BufQueue.isEmpty_eq_false.mp (inv.not_empty (by rw [here]; rfl))
      exact (Function.update_of_ne apart.symm ..).trans (inv.first ret here)
    · simp only [State.action, at_, reduceCtorEq, if_false, contents]
      exact .stay _
  | queueAdvance =>
    simp only [at_, Option.some.injEq] at taken
    subst taken
    have room := inv.room few (by rw [at_]; rfl)
    have contents : s.releasedQ.advanceTail.contents = s.releasedQ.contents ++ [s.buffer] := by
      rw [inv.sound.contents_advanceTail room, inv.stored at_]
    have move : Move s.holdings { s with releasedQ := s.releasedQ.advanceTail, loop := .count }.holdings := by
      have moved := Move.release (h := s.holdings) (i := s.buffer) (by simp [State.holdings, at_, DispLoop.holds])
      simpa [State.holdings, contents, DispLoop.holds] using moved
    refine ⟨⟨inv.sound.advanceTail, move.exact inv.exact, nofun, ?_, inv.filled, inv.first, inv.obtained⟩, ?_⟩
    · have counted := inv.counted
      simp only [at_, DispLoop.enqueued, contents, List.length_append, List.length_singleton] at counted ⊢
      omega
    · simp only [State.action, at_, if_true, contents]
      exact .put _ room
  | count =>
    simp only [at_, Option.some.injEq] at taken
    subst taken
    have counted := inv.counted
    simp only [at_, DispLoop.enqueued] at counted
    refine ⟨⟨inv.sound, ?_, nofun, ?_, ?_, inv.first, inv.obtained⟩, ?_⟩
    · have holdings : s.holdings = { s with loop := .post }.holdings := by simp [State.holdings, at_, DispLoop.holds]
      exact holdings ▸ inv.exact
    · simp only [DispLoop.enqueued]
      omega
    · intro dequeues
      exact Int.lt_add_one_of_le (Int.le_of_lt (inv.filled dequeues))
    · simp only [State.action, at_, reduceCtorEq, if_false]
      exact .stay _
  | post =>
    simp only [at_, Option.some.injEq] at taken
    subst taken
    exact idle _ rfl rfl rfl rfl rfl rfl rfl (by rw [at_]; rfl)
  | stopped =>
    rw [at_] at taken
    cases taken

theorem promised_queue {index : Nat} (at_ : s.decoding = .qbuf index) (promised : Promised s (.decoder true) t) :
    index ∈ s.decoder :=
  promised index (by rw [at_]; rfl)

theorem Inv.decoder {answer : Bool} (inv : Inv dec s) (taken : decoderStep dec s answer = some t)
    (promised : Promised s (.decoder answer) t) : Kept dec s (.decoder answer) t := by
  -- a step outside of `dequeue_buf` and the counting
  have idle : ∀ t, t.releasedQ = s.releasedQ → t.driver = s.driver → t.decoder = s.decoder →
      t.buffer = s.buffer → t.dequeuedCount = s.dequeuedCount → t.loop = s.loop →
      t.decoding.dequeues = false ∧ t.decoding.taken = 0 →
      s.decoding.dequeues = false ∧ s.decoding.taken = 0 → Kept dec s (.decoder answer) t := by
    intro t ring driver decoder buffer count loop quiet quiet'
    refine inv.frame ring driver decoder buffer count (.inl loop) (.inr ⟨quiet.1, quiet.2, quiet'.2⟩) ?_
    cases at_ : s.decoding <;> simp_all [State.action, Decoding.dequeues]
  have counted := inv.counted
  rw [decoderStep] at taken
  cases at_ : s.decoding with
  | caller result =>
    rw [at_] at taken
    cases taken
  | querybuf index =>
    simp only [at_, Option.some.injEq] at taken
    subst taken
    exact idle _ rfl rfl rfl rfl rfl rfl (by split <;> exact ⟨rfl, rfl⟩) (by rw [at_]; exact ⟨rfl, rfl⟩)
  | qbuf index =>
    simp only [at_] at taken
    split at taken
    case isFalse =>
      cases taken
      exact idle _ rfl rfl rfl rfl rfl rfl ⟨rfl, rfl⟩ (by rw [at_]; exact ⟨rfl, rfl⟩)
    case isTrue yes =>
      subst yes
      cases taken
      refine ⟨⟨inv.sound, (Move.queue (promised_queue at_ promised)).exact inv.exact, inv.stored, ?_, nofun, nofun,
        nofun⟩, ?_⟩
      · simpa only [at_, Decoding.taken] using counted
      · simp only [State.action, at_]
        exact .stay _
  | countQueued =>
    simp only [at_, Option.some.injEq] at taken
    subst taken
    exact idle _ rfl rfl rfl rfl rfl rfl ⟨rfl, rfl⟩ (by rw [at_]; exact ⟨rfl, rfl⟩)
  | stream =>
    simp only [at_] at taken
    split at taken
    all_goals
      cases taken
      exact idle _ rfl rfl rfl rfl rfl rfl ⟨rfl, rfl⟩ (by rw [at_]; exact ⟨rfl, rfl⟩)
  | judge =>
    simp only [at_, Option.some.injEq] at taken
    subst taken
    exact idle _ rfl rfl rfl rfl rfl rfl (by split <;> exact ⟨rfl, rfl⟩) (by rw [at_]; exact ⟨rfl, rfl⟩)
  | postDequeue =>
    simp only [at_, Option.some.injEq] at taken
    subst taken
    exact idle _ rfl rfl rfl rfl rfl rfl ⟨rfl, rfl⟩ (by rw [at_]; exact ⟨rfl, rfl⟩)
  | timedwait =>
    simp only [at_] at taken
    split at taken
    case isTrue =>
      split at taken
      case isTrue => cases taken
      case isFalse =>
        cases taken
        exact idle _ rfl rfl rfl rfl rfl rfl ⟨rfl, rfl⟩ (by rw [at_]; exact ⟨rfl, rfl⟩)
    case isFalse =>
      cases taken
      exact idle _ rfl rfl rfl rfl rfl rfl (by split <;> exact ⟨rfl, rfl⟩) (by rw [at_]; exact ⟨rfl, rfl⟩)
  | test =>
    simp only [at_, Option.some.injEq] at taken
    subst taken
    refine ⟨⟨inv.sound, inv.exact, inv.stored, ?_, ?_, ?_, ?_⟩, ?_⟩
    · have none : Decoding.test.taken =
          (if 0 < s.dequeuedCount then Decoding.dequeueTest else .caller none).taken := by
        split <;> rfl
      rw [at_, none] at counted
      exact counted
    · intro dequeues
      by_contra empty
      rw [if_neg empty] at dequeues
      cases dequeues
    · intro ret here
      split at here <;> cases here
    · intro here
      split at here <;> cases here
    · simp only [State.action, at_]
      exact .stay _
  | dequeueTest =>
    simp only [at_, inv.not_empty (by rw [at_]; rfl), Bool.false_eq_true, if_false, Option.some.injEq] at taken
    subst taken
    refine ⟨⟨inv.sound, inv.exact, inv.stored, ?_, fun _ => inv.filled (by rw [at_]; rfl), nofun, nofun⟩, ?_⟩
    · simpa only [at_, Decoding.taken] using counted
    · simp only [State.action, at_]
      exact .stay _
  | dequeueRead =>
    simp only [at_, Option.some.injEq] at taken
    subst taken
    refine ⟨⟨inv.sound, inv.exact, inv.stored, ?_, fun _ => inv.filled (by rw [at_]; rfl), ?_, nofun⟩, ?_⟩
    · simpa only [at_, Decoding.taken] using counted
    · intro ret here
      cases here
      rfl
    · simp only [State.action, at_]
      exact .stay _
  | dequeueAdvance ret =>
    simp only [at_, Option.some.injEq] at taken
    subst taken
    have filled := inv.not_empty (by rw [at_]; rfl)
    have contents : s.releasedQ.contents = ret :: s.releasedQ.advanceHead.contents := by
      rw [inv.sound.contents_advanceHead filled, inv.first ret at_]
    have move : Move s.holdings { s with
        releasedQ := s.releasedQ.advanceHead, decoder := insert ret s.decoder,
        decoding := .countTaken (some ret) }.holdings := Move.take contents
    refine ⟨⟨inv.sound.advanceHead, move.exact inv.exact, inv.stored, ?_, nofun, nofun, nofun⟩, ?_⟩
    · simp only [at_, Decoding.taken, contents, List.length_cons] at counted ⊢
      omega
    · simp only [State.action, at_]
      rw [contents]
      exact .take ret _
  | countTaken index =>
    simp only [at_, Option.some.injEq] at taken
    subst taken
    refine ⟨⟨inv.sound, inv.exact, inv.stored, ?_, nofun, nofun, nofun⟩, ?_⟩
    · simp only [at_, Decoding.taken] at counted ⊢
      omega
    · simp only [State.action, at_]
      exact .stay _

theorem Inv.step (few : dec.nframes ≤ MAX_BUF_NUM) (inv : Inv dec s) (taken : step dec s e = some t)
    (promised : Promised s e t) : Kept dec s e t := by
  cases e with
  | quit =>
    cases taken
    exact inv.frame rfl rfl rfl rfl rfl (.inl rfl) (.inl rfl) rfl
  | v4lPutData index =>
    cases at_ : s.decoding with
    | caller result =>
      simp only [Display.step, at_, Option.some.injEq] at taken
      subst taken
      exact inv.frame rfl rfl rfl rfl rfl (.inl rfl) (.inr ⟨rfl, rfl, by rw [at_]; rfl⟩) rfl
    | _ => simp [Display.step, at_] at taken
  | v4lGetBuf =>
    cases at_ : s.decoding with
    | caller result =>
      simp only [Display.step, at_, Option.some.injEq] at taken
      subst taken
      exact inv.frame rfl rfl rfl rfl rfl (.inl rfl) (.inr ⟨rfl, rfl, by rw [at_]; rfl⟩) rfl
    | _ => simp [Display.step, at_] at taken
  | decoder answer => exact inv.decoder taken promised
  | dispLoop answer => exact inv.dispLoop few taken
  | dqbuf index =>
    obtain ⟨i, queued, rfl⟩ := promised
    simp only [Display.step] at taken
    split at taken
    case isFalse => cases taken
    case isTrue at_ =>
      cases taken
      have free : s.holdings.dispLoop = none := by simp [State.holdings, at_, DispLoop.holds]
      have move := Move.dequeue (h := s.holdings) queued free
      refine ⟨⟨inv.sound, move.exact inv.exact, nofun, ?_, inv.filled, inv.first, inv.obtained⟩, .stay _⟩
      simpa only [at_, DispLoop.enqueued] using inv.counted

/-! ## How many are with the driver -/

/-- A token that the thread has taken and not used. -/
def DispLoop.token : DispLoop → Nat
  | .woken | .dqbuf => 1
  | _ => 0

/-- An index that has left the driver and is counted with it. -/
def DispLoop.uncounted : DispLoop → Int
  | .queueTest | .queueStore | .queueAdvance | .count => 1
  | _ => 0

/-- An index that is with the driver and for which a token may still be posted. -/
def Decoding.fresh : Decoding → Nat
  | .countQueued | .stream | .judge | .postDequeue => 1
  | _ => 0

def Decoding.posting : Decoding → Nat
  | .postDequeue => 1
  | _ => 0

/-- An index that is with the driver and not counted. -/
def Decoding.uncounted : Decoding → Int
  | .countQueued => 1
  | _ => 0

/-- The tokens leave the driver as many indices as the threshold tells. -/
def Left (dec : Decode) (s : State) : Prop :=
  dec.threshold + s.avaiableDequeueFrame + s.loop.token + s.decoding.fresh ≤ s.driver.card

/-- The tokens so far; before the first of them the thread has done nothing. -/
structure Tokens (dec : Decode) (s : State) : Prop where
  queued : s.queuedCount = s.driver.card + s.loop.uncounted - s.decoding.uncounted
  left : Left dec s ∨ s.avaiableDequeueFrame = 0 ∧ s.loop.token = 0 ∧ s.decoding.posting = 0 ∧
    s.loop.uncounted = 0

theorem Tokens.start (list : Nat → Nat) (buffer : Nat) : Tokens dec (v4lDisplayOpen dec list buffer) :=
  ⟨rfl, .inr ⟨rfl, rfl, rfl, rfl⟩⟩

/-- What a step does to the tokens. -/
structure Metered (dec : Decode) (s t : State) : Prop where
  tokens : Tokens dec t
  left : Left dec s → Left dec t

/-- A step that neither counts nor posts. -/
theorem Tokens.same (tokens : Tokens dec s) (queued : t.queuedCount = s.queuedCount) (driver : t.driver = s.driver)
    (loop : t.avaiableDequeueFrame + t.loop.token ≤ s.avaiableDequeueFrame + s.loop.token)
    (uncounted : t.loop.uncounted = s.loop.uncounted)
    (decoding : t.decoding.fresh ≤ s.decoding.fresh ∧ t.decoding.posting ≤ s.decoding.posting ∧
      t.decoding.uncounted = s.decoding.uncounted) : Metered dec s t := by
  have left : Left dec s → Left dec t := by
    rw [Left, Left, driver]
    omega
  refine ⟨⟨?_, ?_⟩, left⟩
  · rw [queued, driver, uncounted, decoding.2.2]
    exact tokens.queued
  · obtain before | early := tokens.left
    · exact .inl (left before)
    · right
      omega

theorem Tokens.dispLoop {answer : Bool} (tokens : Tokens dec s) (taken : dispLoopStep s answer = some t) :
    Metered dec s t := by
  rw [dispLoopStep] at taken
  cases at_ : s.loop with
  | again =>
    simp only [at_, Option.some.injEq] at taken
    subst taken
    refine tokens.same rfl rfl ?_ ?_ ⟨Nat.le_refl _, Nat.le_refl _, rfl⟩
    all_goals rw [at_]
    all_goals split <;> simp [DispLoop.token, DispLoop.uncounted]
  | timedwait =>
    simp only [at_] at taken
    split at taken
    case isTrue =>
      split at taken
      case isTrue => cases taken
      case isFalse waiting =>
        cases taken
        refine tokens.same rfl rfl ?_ (by rw [at_]; rfl) ⟨Nat.le_refl _, Nat.le_refl _, rfl⟩
        simp only [at_, DispLoop.token]
        omega
    case isFalse =>
      cases taken
      refine tokens.same rfl rfl ?_ ?_ ⟨Nat.le_refl _, Nat.le_refl _, rfl⟩
      all_goals rw [at_]
      all_goals split <;> simp [DispLoop.token, DispLoop.uncounted]
  | woken =>
    simp only [at_, Option.some.injEq] at taken
    subst taken
    refine tokens.same rfl rfl ?_ ?_ ⟨Nat.le_refl _, Nat.le_refl _, rfl⟩
    all_goals rw [at_]
    all_goals split <;> simp [DispLoop.token, DispLoop.uncounted]
  | queueTest =>
    simp only [at_, Option.some.injEq] at taken
    subst taken
    refine tokens.same rfl rfl ?_ ?_ ⟨Nat.le_refl _, Nat.le_refl _, rfl⟩
    all_goals rw [at_]
    all_goals split <;> simp [DispLoop.token, DispLoop.uncounted]
  | count =>
    simp only [at_, Option.some.injEq] at taken
    subst taken
    have queued := tokens.queued
    simp only [at_, DispLoop.uncounted] at queued
    have left : Left dec s → Left dec { s with
        queuedCount := s.queuedCount - 1, dequeuedCount := s.dequeuedCount + 1, loop := .post } := by
      simp only [Left, at_, DispLoop.token]
      exact id
    refine ⟨⟨?_, ?_⟩, left⟩
    · simp only [DispLoop.uncounted]
      omega
    · obtain before | ⟨-, -, -, uncounted⟩ := tokens.left
      · exact .inl (left before)
      · rw [at_] at uncounted
        cases uncounted
  | queueStore | queueAdvance | post =>
    simp only [at_, Option.some.injEq] at taken
    subst taken
    exact tokens.same rfl rfl (by rw [at_]; exact Nat.le_refl _) (by rw [at_]; rfl)
      ⟨Nat.le_refl _, Nat.le_refl _, rfl⟩
  | dqbuf | stopped =>
    rw [at_] at taken
    cases taken

theorem Tokens.decoder {answer : Bool} (tokens : Tokens dec s) (inv : Inv dec s)
    (taken : decoderStep dec s answer = some t) (promised : Promised s (.decoder answer) t) : Metered dec s t := by
  -- a step that has nothing to do with the driver
  have idle : ∀ t, t.queuedCount = s.queuedCount → t.driver = s.driver →
      t.avaiableDequeueFrame = s.avaiableDequeueFrame → t.loop = s.loop →
      t.decoding.fresh = 0 ∧ t.decoding.posting = 0 ∧ t.decoding.uncounted = 0 →
      s.decoding.uncounted = 0 → Metered dec s t := by
    intro t queued driver dequeue loop quiet counted
    refine tokens.same queued driver (by rw [dequeue, loop]) (by rw [loop]) ?_
    omega
  obtain ⟨queued, left⟩ := tokens
  rw [decoderStep] at taken
  cases at_ : s.decoding with
  | qbuf index =>
    simp only [at_] at taken
    split at taken
    case isFalse =>
      cases taken
      exact idle _ rfl rfl rfl rfl ⟨rfl, rfl, rfl⟩ (by rw [at_]; rfl)
    case isTrue yes =>
      subst yes
      cases taken
      -- what the decoder has is not with the driver yet
      have apart : index ∉ s.driver :=
        inv.exact.absent .decoder .driver (promised_queue at_ promised) nofun
      have card := Finset.card_insert_of_notMem apart
      simp only [at_, Left, Decoding.fresh, Decoding.posting, Decoding.uncounted, true_and] at queued left
      refine ⟨⟨?_, ?_⟩, ?_⟩
      all_goals
        simp only [at_, Left, Decoding.fresh, Decoding.posting, Decoding.uncounted, card, true_and]
        omega
  | countQueued =>
    simp only [at_, Option.some.injEq] at taken
    subst taken
    simp only [at_, Left, Decoding.fresh, Decoding.posting, Decoding.uncounted, true_and] at queued left
    refine ⟨⟨?_, ?_⟩, ?_⟩
    all_goals
      simp only [at_, Left, Decoding.fresh, Decoding.posting, Decoding.uncounted, true_and]
      omega
  | judge =>
    by_cases more : dec.threshold < s.queuedCount
    case neg =>
      simp only [at_, if_neg more, Option.some.injEq] at taken
      subst taken
      exact idle _ rfl rfl rfl rfl ⟨rfl, rfl, rfl⟩ (by rw [at_]; rfl)
    case pos =>
      simp only [at_, if_pos more, Option.some.injEq] at taken
      subst taken
      simp only [at_, Left, Decoding.fresh, Decoding.posting, Decoding.uncounted, true_and] at queued left
      -- the first token is posted when the driver has more than the threshold tells
      have enough : Left dec { s with decoding := .postDequeue } := by
        simp only [Left, Decoding.fresh]
        omega
      refine ⟨⟨?_, .inl enough⟩, fun _ => enough⟩
      simp only [Decoding.uncounted]
      omega
  | postDequeue =>
    simp only [at_, Option.some.injEq] at taken
    subst taken
    simp only [at_, Left, Decoding.fresh, Decoding.posting, Decoding.uncounted] at queued left
    refine ⟨⟨?_, ?_⟩, ?_⟩
    all_goals
      simp only [at_, Left, Decoding.fresh, Decoding.posting, Decoding.uncounted, true_and]
      omega
  | stream =>
    simp only [at_] at taken
    split at taken
    case isTrue =>
      cases taken
      exact idle _ rfl rfl rfl rfl ⟨rfl, rfl, rfl⟩ (by rw [at_]; rfl)
    case isFalse =>
      cases taken
      exact Tokens.same ⟨queued, left⟩ rfl rfl (Nat.le_refl _) rfl
          (by rw [at_]; exact ⟨Nat.le_refl _, Nat.le_refl _, rfl⟩)
  | timedwait =>
    simp only [at_] at taken
    split at taken
    case isTrue =>
      split at taken
      case isTrue => cases taken
      case isFalse =>
        cases taken
        exact idle _ rfl rfl rfl rfl ⟨rfl, rfl, rfl⟩ (by rw [at_]; rfl)
    case isFalse =>
      cases taken
      exact idle _ rfl rfl rfl rfl (by split <;> exact ⟨rfl, rfl, rfl⟩) (by rw [at_]; rfl)
  | querybuf | test | dequeueTest =>
    simp only [at_, Option.some.injEq] at taken
    subst taken
    exact idle _ rfl rfl rfl rfl (by split <;> exact ⟨rfl, rfl, rfl⟩) (by rw [at_]; rfl)
  | dequeueRead | dequeueAdvance | countTaken =>
    simp only [at_, Option.some.injEq] at taken
    subst taken
    exact idle _ rfl rfl rfl rfl ⟨rfl, rfl, rfl⟩ (by rw [at_]; rfl)
  | caller =>
    rw [at_] at taken
    cases taken

theorem Tokens.step (tokens : Tokens dec s) (inv : Inv dec s) (taken : step dec s e = some t)
    (promised : Promised s e t) : Metered dec s t := by
  cases e with
  | quit =>
    cases taken
    exact ⟨⟨tokens.queued, tokens.left⟩, id⟩
  | decoder answer => exact tokens.decoder inv taken promised
  | dispLoop answer => exact tokens.dispLoop taken
  | dqbuf index =>
    obtain ⟨i, member, rfl⟩ := promised
    obtain ⟨queued, left⟩ := tokens
    simp only [Display.step] at taken
    split at taken
    case isFalse => cases taken
    case isTrue at_ =>
      cases taken
      have card := Finset.card_erase_add_one member
      simp only [at_, Left, DispLoop.token, DispLoop.uncounted] at queued left
      refine ⟨⟨?_, ?_⟩, ?_⟩
      all_goals
        simp only [at_, Left, DispLoop.token, DispLoop.uncounted]
        omega
  | v4lPutData | v4lGetBuf =>
    cases at_ : s.decoding with
    | caller result =>
      simp only [Display.step, at_, Option.some.injEq] at taken
      subst taken
      exact tokens.same rfl rfl (Nat.le_refl _) rfl
          (by rw [at_]; exact ⟨Nat.le_refl _, Nat.le_refl _, rfl⟩)
    | _ => simp [Display.step, at_] at taken

/-! ## Whole runs -/

theorem runs_keep (few : dec.nframes ≤ MAX_BUF_NUM) {events : List Event} (run : Runs dec s events t)
    (inv : Inv dec s) (tokens : Tokens dec s) : Inv dec t ∧ Tokens dec t ∧ (Left dec s → Left dec t) := by
  induction run with
  | stay => exact ⟨inv, tokens, id⟩
  | next head _ ih =>
    have kept := inv.step few head.1 head.2
    have metered := tokens.step inv head.1 head.2
    obtain ⟨inv, tokens, left⟩ := ih kept.inv metered.tokens
    exact ⟨inv, tokens, left ∘ metered.left⟩

theorem Inv.conserved (few : dec.nframes ≤ MAX_BUF_NUM) (inv : Inv dec s) : Conserved dec s := by
  refine ⟨fun e t taken promised => (inv.step few taken promised).fifo, ?_, ?_, inv.obtained, ?_⟩
  · intro at_
    rw [queueBuf, inv.not_full few (by rw [at_]; rfl)]
    exact Option.some_ne_none _
  · intro at_
    have counted := inv.counted
    have enqueued : 0 ≤ s.loop.enqueued := by
      cases s.loop
      all_goals decide
    rw [at_, BufQueue.contents_length] at counted
    simp only [Decoding.taken] at counted
    refine ⟨by omega, ?_⟩
    rw [dequeueBuf, inv.not_empty (by rw [at_]; rfl)]
    exact Option.some_ne_none _
  · exact fun i inside => inv.exact.unique inside

/-- More than the threshold with the driver: the tokens are accounted for from here on. -/
theorem Tokens.left_of_more (tokens : Tokens dec s) (more : dec.threshold < s.driver.card) : Left dec s := by
  obtain left | ⟨none, token, posting, -⟩ := tokens.left
  · exact left
  · have fresh : s.decoding.fresh ≤ 1 := by
      cases s.decoding
      all_goals simp [Decoding.fresh]
    rw [Left, none, token]
    omega

/-- Whatever the two threads do in whatever order. -/
theorem buffers_conserved (few : dec.nframes ≤ MAX_BUF_NUM) (list : Nat → Nat) (buffer : Nat)
    {events : List Event} (run : Runs dec (v4lDisplayOpen dec list buffer) events s) :
    Conserved dec s ∧ (dec.threshold < s.driver.card → ∀ later t, Runs dec s later t →
      dec.threshold ≤ t.driver.card) := by
  obtain ⟨inv, tokens, -⟩ := runs_keep few run (.start list buffer) (.start list buffer)
  refine ⟨inv.conserved few, ?_⟩
  intro more later t rest
  obtain ⟨-, -, kept⟩ := runs_keep few rest inv tokens
  have left := kept (tokens.left_of_more more)
  rw [Left] at left
  omega

/-! ## The first index that comes back -/

/-- A step under the promises, as it is computed. -/
def judgedStep (dec : Decode) (s : State) (e : Event) : Option State :=
  (step dec s e).bind fun t => if Promised s e t then some t else none

theorem Runs.of_judged {events : List Event} (done : events.foldlM (judgedStep dec) s = some t) :
    Runs dec s events t := by
  apply (Run.of_foldlM done).mono
  intro s e t done
  obtain ⟨target, taken, kept⟩ := Option.bind_eq_some_iff.mp done
  split at kept
  case isTrue promised =>
    cases kept
    exact ⟨taken, promised⟩
  case isFalse => cases kept

/-- The decoder's minimum of four buffers and two more. -/
def sixBuffers : Decode := ⟨6, 6, 4, 0, false⟩

/-- Two frames are put while the driver has too few, and the third one wakes the thread. -/
def firstDequeue : List Event :=
  let put (index : Nat) : List Event := .v4lPutData index :: List.replicate 5 (.decoder true)
  let get : List Event := .v4lGetBuf :: List.replicate 2 (.decoder true)
  put 0 ++ get ++ put 1 ++ get ++ put 2 ++ [.decoder true] ++
    List.replicate 3 (.dispLoop true) ++ [.dqbuf (some 0)]

theorem firstDequeue_runs :
    ∃ s, Runs sixBuffers (v4lDisplayOpen sixBuffers id 0) firstDequeue s ∧ s.holdings.dispLoop = some 0 := by
  have computed : ((firstDequeue.foldlM (judgedStep sixBuffers) (v4lDisplayOpen sixBuffers id 0)).any fun s =>
      s.holdings.dispLoop == some 0) = true := by
    decide +kernel
  obtain ⟨s, done, hand⟩ := (Option.any_eq_true _ _).mp computed
  exact ⟨s, .of_judged done, beq_iff_eq.mp hand⟩

theorem buffers_conserved_six :
    ∃ s, Runs sixBuffers (v4lDisplayOpen sixBuffers id 0) firstDequeue s ∧ Conserved sixBuffers s := by
  obtain ⟨s, run, -⟩ := firstDequeue_runs
  exact ⟨s, run, (buffers_conserved (by decide) id 0 run).1⟩

/-- The index that `VIDIOC_DQBUF` gives is for a while with none of the three. -/
theorem index_in_hand : ∃ s, Runs sixBuffers (v4lDisplayOpen sixBuffers id 0) firstDequeue s ∧
    0 < sixBuffers.nframes ∧ 0 ∉ s.driver ∧ 0 ∉ s.releasedQ.contents ∧ 0 ∉ s.decoder := by
  obtain ⟨s, run, hand⟩ := firstDequeue_runs
  obtain ⟨inv, -⟩ := runs_keep (by decide) run (.start id 0) (.start id 0)
  have absent := fun p => inv.exact.absent .dispLoop p hand
  exact ⟨s, run, by decide, absent .driver nofun, absent .releasedQ nofun, absent .decoder nofun⟩

end ImxTest.Vpu.Display
