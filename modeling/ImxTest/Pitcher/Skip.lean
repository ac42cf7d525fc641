import ImxTest.Pitcher.Core
import ImxTest.Lib.Window

/-! Which buffers a pipe of pitcher/pipe.c skips. -/
namespace ImxTest.Pitcher.Skip
open Pitcher.Core

/-- The loop of `pitcher_set_pipe_skip`. -/
def divisor (m n : UInt32) : UInt32 :=
  if n = 0 then m else divisor n (m % n)
termination_by n.toNat
decreasing_by
  rw [UInt32.toNat_mod]
  exact Nat.mod_lt _ (Nat.pos_of_ne_zero fun zero => by simp_all [← UInt32.toNat_inj])

def pitcherSetPipeSkip (pipe : PitcherPipe) (numerator denominator : UInt32) : Ret × PitcherPipe :=
  if denominator = 0 ∨ numerator > denominator then (.E_INVAL, pipe)
  else if numerator ≠ 0 ∧ denominator ≠ 0 then
    let m := divisor denominator numerator
    (.OK, { pipe with numerator := numerator / m, denominator := denominator / m })
  else (.OK, { pipe with numerator, denominator })

/-- A buffer, and whether the queue gets a node for it. -/
structure Push where
  buffer : Nat
  memory : Bool

/-- `pitcher_pipe_push_back`, as far as the pipe. -/
def pushBack (pipe : PitcherPipe) (push : Push) : PitcherPipe :=
  let (skip, pipe) := checkIsNeedSkip pipe
  if skip ∨ !push.memory then pipe else { pipe with queue := pipe.queue ++ [push.buffer] }

def pushAll (pipe : PitcherPipe) (pushes : List Push) : PitcherPipe := pushes.foldl pushBack pipe

/-- Whether each of some pushes is skipped. -/
def skips (pipe : PitcherPipe) : List Push → List Bool
  | [] => []
  | push :: rest => (checkIsNeedSkip pipe).1 :: skips (pushBack pipe push) rest

inductive Op where
  | configure (numerator denominator : UInt32)
  | push (p : Push)

def exec (pipe : PitcherPipe) : Op → PitcherPipe
  | .configure numerator denominator => (pitcherSetPipeSkip pipe numerator denominator).2
  | .push p => pushBack pipe p

/-- A pipe as `pitcher_new_pipe` makes it, after some calls. -/
def Reachable (pipe : PitcherPipe) : Prop :=
  ∃ (src dst : Nat) (ops : List Op), pipe = ops.foldl exec { src, dst }

/-- The fraction is one, and the position can be counted up. -/
structure Sound (pipe : PitcherPipe) : Prop where
  fraction : pipe.numerator.toNat ≤ pipe.denominator.toNat
  divides : 0 < pipe.denominator.toNat
  position : pipe.idx.toNat + 1 < 2 ^ 32

section Skips
variable {pipe : PitcherPipe} {n d : UInt32}

theorem divisor_eq (m n : UInt32) : (divisor m n).toNat = Nat.gcd m.toNat n.toNat := by
  induction m, n using divisor.induct with
  | case1 m => rw [divisor, if_pos rfl, UInt32.toNat_zero, Nat.gcd_zero_right]
  | case2 m n more ih =>
    rw [divisor, if_neg more, ih, UInt32.toNat_mod, Nat.gcd_comm m.toNat, Nat.gcd_rec n.toNat m.toNat,
      Nat.gcd_comm]

/-- What a call leaves that sets the fraction. -/
theorem setPipeSkip_ok (below : n ≤ d) (nonzero : d ≠ 0) :
    (pitcherSetPipeSkip pipe n d).1 = .OK ∧ (pitcherSetPipeSkip pipe n d).2.idx = pipe.idx ∧
      (pitcherSetPipeSkip pipe n d).2.queue = pipe.queue ∧
      (pitcherSetPipeSkip pipe n d).2.numerator.toNat = n.toNat / Nat.gcd n.toNat d.toNat ∧
      (n ≠ 0 → (pitcherSetPipeSkip pipe n d).2.denominator.toNat = d.toNat / Nat.gcd n.toNat d.toNat) ∧
      (n = 0 → (pitcherSetPipeSkip pipe n d).2.denominator = d) := by
  have accepted : ¬(d = 0 ∨ n > d) := by
    rintro (zero | above)
    · exact nonzero zero
    · exact absurd (UInt32.lt_iff_toNat_lt.mp above) (Nat.not_lt_of_le (UInt32.le_iff_toNat_le.mp below))
  unfold pitcherSetPipeSkip
  rw [if_neg accepted]
  by_cases none : n = 0
  · rw [if_neg fun both => both.1 none]
    refine ⟨rfl, rfl, rfl, ?_, fun some => absurd none some, fun _ => rfl⟩
    simp [none]
  · rw [if_pos ⟨none, nonzero⟩]
    refine ⟨rfl, rfl, rfl, ?_, fun _ => ?_, fun zero => absurd zero none⟩
    · simp only [UInt32.toNat_div, divisor_eq, Nat.gcd_comm d.toNat]
    · simp only [UInt32.toNat_div, divisor_eq, Nat.gcd_comm d.toNat]

theorem Sound.setPipeSkip (sound : Sound pipe) (n d : UInt32) : Sound (pitcherSetPipeSkip pipe n d).2 := by
  by_cases accepted : n ≤ d ∧ d ≠ 0
  · obtain ⟨below, nonzero⟩ := accepted
    obtain ⟨_, idx, _, numerator, denominator, none⟩ := @setPipeSkip_ok pipe n d below nonzero
    have positive : 0 < d.toNat := Nat.pos_of_ne_zero fun zero => nonzero (UInt32.toNat_inj.mp zero)
    have le : n.toNat ≤ d.toNat := UInt32.le_iff_toNat_le.mp below
    constructor
    case position =>
      rw [idx]
      exact sound.position
    all_goals by_cases zero : n = 0
    · rw [numerator, zero]
      simp
    · rw [numerator, denominator zero]
      exact Nat.div_le_div_right le
    · rw [none zero]
      exact positive
    · rw [denominator zero]
      exact Nat.div_gcd_pos_of_pos_right _ positive
  · have refused : d = 0 ∨ n > d := by
      by_cases zero : d = 0
      · exact .inl zero
      · exact .inr (UInt32.not_le.mp fun below => accepted ⟨below, zero⟩)
    rw [pitcherSetPipeSkip, if_pos refused]
    exact sound

/-- A push that the pipe counts. -/
theorem Sound.check (sound : Sound pipe) (some : pipe.numerator ≠ 0) :
    ∃ idx : UInt32, idx.toNat = (pipe.idx.toNat + 1) % pipe.denominator.toNat ∧
      checkIsNeedSkip pipe =
        (decide (pipe.denominator.toNat - pipe.numerator.toNat ≤ pipe.idx.toNat), { pipe with idx }) := by
  have divides := sound.divides
  have counts : ¬(pipe.numerator = 0 ∨ pipe.denominator = 0) := by
    rintro (zero | zero)
    · exact some zero
    · rw [zero] at divides
      exact absurd divides (Nat.lt_irrefl _)
  refine ⟨(pipe.idx + 1) % pipe.denominator, ?_, ?_⟩
  · rw [UInt32.toNat_mod, UInt32.toNat_add, UInt32.toNat_one, Nat.mod_eq_of_lt sound.position]
  · rw [checkIsNeedSkip, if_neg counts]
    have reduced := UInt32.toNat_sub_of_le _ _ (UInt32.le_iff_toNat_le.mpr sound.fraction)
    simp only [UInt32.lt_iff_toNat_lt, reduced, ← decide_not, Nat.not_lt]

theorem check_none (none : pipe.numerator = 0) : checkIsNeedSkip pipe = (false, pipe) := by
  rw [checkIsNeedSkip, if_pos (.inl none)]

/-- A push moves the position and nothing else of the fraction. -/
theorem pushBack_fields (pipe : PitcherPipe) (push : Push) :
    (pushBack pipe push).numerator = pipe.numerator ∧ (pushBack pipe push).denominator = pipe.denominator ∧
      (pushBack pipe push).idx = (checkIsNeedSkip pipe).2.idx := by
  have kept : (checkIsNeedSkip pipe).2.numerator = pipe.numerator ∧
      (checkIsNeedSkip pipe).2.denominator = pipe.denominator := by
    unfold checkIsNeedSkip
    split <;> exact ⟨rfl, rfl⟩
  unfold pushBack
  simp only
  split
  · exact ⟨kept.1, kept.2, rfl⟩
  · exact ⟨kept.1, kept.2, rfl⟩

theorem Sound.pushBack (sound : Sound pipe) (push : Push) : Sound (pushBack pipe push) := by
  obtain ⟨numerator, denominator, position⟩ := pushBack_fields pipe push
  refine ⟨?_, ?_, ?_⟩
  · rw [numerator, denominator]
    exact sound.fraction
  · rw [denominator]
    exact sound.divides
  · rw [position]
    by_cases some : pipe.numerator = 0
    · rw [check_none some]
      exact sound.position
    · obtain ⟨idx, turned, check⟩ := sound.check some
      rw [check]
      simp only
      have below := Nat.mod_lt (pipe.idx.toNat + 1) sound.divides
      have bound := pipe.denominator.toNat_lt
      omega

theorem Sound.pushAll (sound : Sound pipe) (pushes : List Push) : Sound (pushAll pipe pushes) := by
  induction pushes generalizing pipe with
  | nil => exact sound
  | cons push rest ih => exact ih (sound.pushBack push)

theorem Reachable.sound (reachable : Reachable pipe) : Sound pipe := by
  obtain ⟨src, dst, ops, rfl⟩ := reachable
  have start : Sound { src, dst } := ⟨(by decide : (0 : UInt32).toNat ≤ (1 : UInt32).toNat),
    (by decide : 0 < (1 : UInt32).toNat), (by decide : (0 : UInt32).toNat + 1 < 2 ^ 32)⟩
  refine List.foldlRecOn (motive := Sound) ops exec start ?_
  intro pipe sound op _
  cases op with
  | configure n d => exact sound.setPipeSkip n d
  | push p => exact sound.pushBack p

/-- The number of pushes that are skipped. -/
def skipped (pipe : PitcherPipe) (pushes : List Push) : Nat := (skips pipe pushes).count true

theorem skipped_cons (pipe : PitcherPipe) (push : Push) (rest : List Push) :
    skipped pipe (push :: rest) = (if (checkIsNeedSkip pipe).1 then 1 else 0) + skipped (pushBack pipe push) rest := by
  rw [skipped, skips, List.count_cons, Nat.add_comm]
  simp [skipped]

theorem skipped_none (none : pipe.numerator = 0) (pushes : List Push) : skipped pipe pushes = 0 := by
  induction pushes generalizing pipe with
  | nil => rfl
  | cons push rest ih =>
    rw [skipped_cons, check_none none, ih ((pushBack_fields pipe push).1.trans none)]
    rfl

/-- With the position below the denominator the pipe skips the last positions of
each turn. -/
theorem Sound.skipped (sound : Sound pipe) (some : pipe.numerator ≠ 0)
    (within : pipe.idx.toNat < pipe.denominator.toNat) (pushes : List Push) :
    skipped pipe pushes = Nat.count (fun k => pipe.denominator.toNat - pipe.numerator.toNat ≤
      (pipe.idx.toNat + k) % pipe.denominator.toNat) pushes.length := by
  induction pushes generalizing pipe with
  | nil => rfl
  | cons push rest ih =>
    obtain ⟨idx, turned, check⟩ := sound.check some
    obtain ⟨numerator, denominator, position⟩ := pushBack_fields pipe push
    rw [check] at position
    have next := ih (sound.pushBack push) (by rw [numerator]; exact some)
      (by rw [position, denominator, turned]; exact Nat.mod_lt _ sound.divides)
    rw [skipped_cons, check, next, numerator, denominator, position, turned, List.length_cons,
      Nat.count_succ']
    simp only [Nat.add_zero, Nat.mod_eq_of_lt within, Nat.mod_add_mod, Nat.add_assoc, Nat.add_comm 1,
      decide_eq_true_eq]
    exact Nat.add_comm ..

/-- Every window of one turn has as many skipped pushes as the numerator says. -/
theorem Sound.window (sound : Sound pipe) (some : pipe.numerator ≠ 0)
    (within : pipe.idx.toNat < pipe.denominator.toNat) {pushes : List Push}
    (turn : pushes.length = pipe.denominator.toNat) : Skip.skipped pipe pushes = pipe.numerator.toNat := by
  rw [sound.skipped some within, turn]
  exact Lib.Window.count_turn sound.fraction _

/-- After one push the position is below the denominator. -/
theorem Sound.pushBack_within (sound : Sound pipe) (some : pipe.numerator ≠ 0) (push : Push) :
    (Skip.pushBack pipe push).idx.toNat < (Skip.pushBack pipe push).denominator.toNat := by
  obtain ⟨idx, turned, check⟩ := sound.check some
  obtain ⟨_, denominator, position⟩ := pushBack_fields pipe push
  rw [position, denominator, check, turned]
  exact Nat.mod_lt _ sound.divides

/-- The first window after a position that another fraction has left. -/
theorem Sound.first_window (sound : Sound pipe) (some : pipe.numerator ≠ 0)
    (beyond : pipe.denominator.toNat ≤ pipe.idx.toNat) {pushes : List Push}
    (turn : pushes.length = pipe.denominator.toNat) :
    Skip.skipped pipe pushes = pipe.numerator.toNat ↔
      pipe.denominator.toNat - pipe.numerator.toNat ≤ pipe.idx.toNat % pipe.denominator.toNat := by
  cases pushes with
  | nil => exact absurd turn (Nat.ne_of_lt sound.divides)
  | cons push rest =>
    obtain ⟨idx, turned, check⟩ := sound.check some
    obtain ⟨numerator, denominator, position⟩ := pushBack_fields pipe push
    rw [check] at position
    have length : rest.length = pipe.denominator.toNat - 1 := by
      rw [← turn]
      rfl
    have others := (sound.pushBack push).skipped (by rw [numerator]; exact some)
      (sound.pushBack_within some push) rest
    rw [numerator, denominator, position, turned, length] at others
    simp only [Nat.mod_add_mod] at others
    have whole := Lib.Window.count_rest sound.fraction sound.divides pipe.idx.toNat
    have first : pipe.denominator.toNat - pipe.numerator.toNat ≤ pipe.idx.toNat :=
      Nat.le_trans (Nat.sub_le ..) beyond
    rw [skipped_cons, check, others, decide_eq_true first, if_pos rfl]
    have positive : 0 < pipe.numerator.toNat :=
      Nat.pos_of_ne_zero fun zero => some (UInt32.toNat_inj.mp zero)
    split at whole
    case isTrue here => exact ⟨fun _ => here, fun _ => by omega⟩
    case isFalse there => exact ⟨fun same => by omega, fun here => absurd here there⟩

theorem Sound.skipped_all (sound : Sound pipe) (all : pipe.numerator = pipe.denominator) (pushes : List Push) :
    Skip.skipped pipe pushes = pushes.length := by
  induction pushes generalizing pipe with
  | nil => rfl
  | cons push rest ih =>
    have some : pipe.numerator ≠ 0 := by
      intro zero
      have positive := sound.divides
      rw [← all, zero] at positive
      exact absurd positive (Nat.lt_irrefl _)
    obtain ⟨idx, _, check⟩ := sound.check some
    obtain ⟨numerator, denominator, _⟩ := pushBack_fields pipe push
    have first : pipe.denominator.toNat - pipe.numerator.toNat ≤ pipe.idx.toNat := by
      rw [all, Nat.sub_self]
      exact Nat.zero_le _
    rw [skipped_cons, check, decide_eq_true first, if_pos rfl,
      ih (sound.pushBack push) ((numerator.trans all).trans denominator.symm), List.length_cons, Nat.add_comm]

theorem pushAll_fields (pipe : PitcherPipe) (pushes : List Push) :
    (pushAll pipe pushes).numerator = pipe.numerator ∧ (pushAll pipe pushes).denominator = pipe.denominator := by
  refine List.foldlRecOn (motive := fun x => x.numerator = pipe.numerator ∧ x.denominator = pipe.denominator)
    pushes pushBack ⟨rfl, rfl⟩ ?_
  intro x same push _
  obtain ⟨numerator, denominator, _⟩ := pushBack_fields x push
  exact ⟨numerator.trans same.1, denominator.trans same.2⟩

/-- From the first push on, the position is below the denominator if it was before. -/
theorem Sound.pushAll_within (sound : Sound pipe) (some : pipe.numerator ≠ 0) {pushes : List Push}
    (within : pushes = [] → pipe.idx.toNat < pipe.denominator.toNat) :
    (Skip.pushAll pipe pushes).idx.toNat < (Skip.pushAll pipe pushes).denominator.toNat := by
  rcases List.eq_nil_or_concat pushes with rfl | ⟨before, push, rfl⟩
  · exact within rfl
  · rw [Skip.pushAll, List.concat_eq_append, List.foldl_append]
    have numerator := (pushAll_fields pipe before).1
    exact (sound.pushAll before).pushBack_within (by rw [numerator]; exact some) push

end Skips

/-- The buffers of some pushes that get into the queue. -/
def delivered (pipe : PitcherPipe) : List Push → List Nat
  | [] => []
  | push :: rest =>
    if (checkIsNeedSkip pipe).1 ∨ !push.memory then delivered (pushBack pipe push) rest
    else push.buffer :: delivered (pushBack pipe push) rest

/-- A fraction is in force: of any consecutive pushes, as many as the reduced
denominator says, as many are skipped as the numerator says. -/
structure EvenSkip (pipe : PitcherPipe) (n d : UInt32) : Prop where
  windows : ∀ before window : List Push, window.length = d.toNat / Nat.gcd n.toNat d.toNat →
    skipped (pushAll pipe before) window = n.toNat / Nat.gcd n.toNat d.toNat
  order : ∀ pushes, (pushAll pipe pushes).queue = pipe.queue ++ delivered pipe pushes
  sublist : ∀ pushes, (delivered pipe pushes).Sublist (pushes.map Push.buffer)
  none : n = 0 → ∀ pushes, skipped pipe pushes = 0
  all : n = d → ∀ pushes, skipped pipe pushes = pushes.length

/-- The position that the pushes before have left suits the fraction. -/
def Suits (idx n d : UInt32) : Prop :=
  let numerator := n.toNat / Nat.gcd n.toNat d.toNat
  let denominator := d.toNat / Nat.gcd n.toNat d.toNat
  n = 0 ∨ idx.toNat < denominator ∨ denominator - numerator ≤ idx.toNat % denominator

section Fractions
variable {pipe : PitcherPipe} {n d : UInt32}

theorem pushBack_queue (pipe : PitcherPipe) (push : Push) :
    (pushBack pipe push).queue =
      if (checkIsNeedSkip pipe).1 ∨ !push.memory then pipe.queue else pipe.queue ++ [push.buffer] := by
  have same : (checkIsNeedSkip pipe).2.queue = pipe.queue := by
    unfold checkIsNeedSkip
    split <;> rfl
  unfold pushBack
  simp only
  split
  · exact same
  · rw [same]

theorem queue_pushAll (pipe : PitcherPipe) (pushes : List Push) :
    (pushAll pipe pushes).queue = pipe.queue ++ delivered pipe pushes := by
  induction pushes generalizing pipe with
  | nil => exact (List.append_nil _).symm
  | cons push rest ih =>
    refine (ih (pushBack pipe push)).trans ?_
    rw [delivered, pushBack_queue]
    split
    · rfl
    · rw [List.append_assoc]
      rfl

theorem delivered_sublist (pipe : PitcherPipe) (pushes : List Push) :
    (delivered pipe pushes).Sublist (pushes.map Push.buffer) := by
  induction pushes generalizing pipe with
  | nil => exact .slnil
  | cons push rest ih =>
    rw [delivered, List.map_cons]
    split
    · exact (ih _).cons _
    · exact (ih _).cons_cons _

theorem numerator_ne_zero {numerator : UInt32} (is : numerator.toNat = n.toNat / Nat.gcd n.toNat d.toNat)
    (some : n ≠ 0) : numerator ≠ 0 := by
  rintro rfl
  have positive : 0 < n.toNat := Nat.pos_of_ne_zero fun zero => some (UInt32.toNat_inj.mp zero)
  exact absurd is (Nat.ne_of_lt (Nat.div_gcd_pos_of_pos_left _ positive))

/-- A configuration does what it says exactly where the position suits it. -/
theorem even_skip_iff (reachable : Reachable pipe) (below : n ≤ d) (nonzero : d ≠ 0) :
    EvenSkip (pitcherSetPipeSkip pipe n d).2 n d ↔ Suits pipe.idx n d := by
  have sound := reachable.sound.setPipeSkip n d
  obtain ⟨_, idx, _, numerator, denominator, whole⟩ := @setPipeSkip_ok pipe n d below nonzero
  generalize (pitcherSetPipeSkip pipe n d).2 = p at *
  have positive : 0 < d.toNat := Nat.pos_of_ne_zero fun zero => nonzero (UInt32.toNat_inj.mp zero)
  constructor
  · intro even
    by_cases none : n = 0
    · exact .inl none
    right
    by_contra unsuited
    obtain ⟨beyond, early⟩ := not_or.mp unsuited
    rw [← denominator none, ← idx] at beyond
    rw [← denominator none, ← numerator, ← idx] at early
    have some : p.numerator ≠ 0 := numerator_ne_zero numerator none
    have length : (List.replicate p.denominator.toNat (⟨0, true⟩ : Push)).length = p.denominator.toNat :=
      List.length_replicate
    have window := even.windows [] _ (length.trans (denominator none))
    rw [← numerator] at window
    exact early ((sound.first_window some (Nat.le_of_not_lt beyond) length).mp window)
  · intro suits
    constructor
    case order => exact queue_pushAll p
    case sublist => exact delivered_sublist p
    case none =>
      rintro rfl pushes
      exact skipped_none (UInt32.toNat_inj.mp (numerator.trans (Nat.zero_div _))) pushes
    case all =>
      rintro rfl pushes
      exact sound.skipped_all (UInt32.toNat_inj.mp (numerator.trans (denominator nonzero).symm)) pushes
    case windows =>
      intro before window turn
      by_cases none : n = 0
      · have zero : (pushAll p before).numerator = 0 := by
          rw [(pushAll_fields p before).1]
          exact UInt32.toNat_inj.mp (by rw [numerator, none]; simp)
        rw [skipped_none zero, none]
        simp
      have some : p.numerator ≠ 0 := numerator_ne_zero numerator none
      obtain ⟨same, still⟩ := pushAll_fields p before
      rw [← denominator none, ← still] at turn
      rw [← numerator, ← same]
      by_cases within : before = [] → p.idx.toNat < p.denominator.toNat
      · exact (sound.pushAll before).window (by rw [same]; exact some) (sound.pushAll_within some within) turn
      · obtain ⟨rfl, beyond⟩ := Classical.not_imp.mp within
        rcases suits with zero | inside | late
        · exact absurd zero none
        · rw [← denominator none, ← idx] at inside
          exact absurd inside beyond
        · rw [← denominator none, ← numerator, ← idx] at late
          exact (sound.first_window some (Nat.le_of_not_lt beyond) turn).mpr late

/-- What the core does to the pipe when a unit pushes into it. -/
theorem pitcherPipePushBack_pipe {w w' : World} {p buffer : Nat} {memory : Bool} (is : w.pipe p = some pipe)
    (pushed : pitcherPipePushBack w p buffer memory = .ok w') :
    w'.pipe p = some (pushBack pipe ⟨buffer, memory⟩) := by
  simp only [pitcherPipePushBack, World.getPipe, is, Option.elim_some, bind, Except.bind] at pushed
  unfold pushBack
  by_cases skip : (checkIsNeedSkip pipe).1 = true
  · rw [if_pos skip] at pushed
    cases pushed
    simp [World.setPipe, skip]
  · rw [if_neg skip] at pushed
    cases memory <;> simp only [Bool.false_eq_true, if_false, if_true] at pushed <;> cases pushed <;>
      split <;> simp [World.setPipe, skip]

end Fractions

/-! ## A position that another fraction has left -/

/-- A pipe that skips one buffer in three, after two pushes. -/
def thirds : PitcherPipe := { queue := [1, 2], numerator := 1, denominator := 3, idx := 2 }

theorem divisor_one (d : UInt32) : divisor d 1 = 1 := by
  rw [← UInt32.toNat_inj, divisor_eq, UInt32.toNat_one, Nat.gcd_one_right]

theorem thirds_reachable : Reachable thirds := by
  refine ⟨0, 0, [.configure 1 3, .push ⟨1, true⟩, .push ⟨2, true⟩], ?_⟩
  simp only [List.foldl_cons, List.foldl_nil, exec, pitcherSetPipeSkip, divisor_one]
  decide

/-- One in two is skipped from now on, but the next two pushes are both. -/
theorem halves_behind_thirds :
    Reachable thirds ∧ ¬EvenSkip (pitcherSetPipeSkip thirds 1 2).2 1 2 := by
  refine ⟨thirds_reachable, fun even => ?_⟩
  have window := even.windows [] [⟨3, true⟩, ⟨4, true⟩] (by decide)
  simp only [pitcherSetPipeSkip, divisor_one] at window
  exact absurd window (by decide)

theorem even_skip_iff_again : EvenSkip (pitcherSetPipeSkip thirds 1 3).2 1 3 :=
  (even_skip_iff thirds_reachable (by decide) (by decide)).mpr (.inr (.inl (by decide)))

end ImxTest.Pitcher.Skip
