import ImxTest.Pitcher.Topology

/-! Taking pipes and channels away. The ends of a pipe are channels, and
`__disconnect` hands them to functions that work on units, so the links of the
units stay; nor does freeing a channel touch its pipes. -/
namespace ImxTest.Pitcher.Core

open Lib.Runs

/-- No channel has had these two fields set. -/
def Plain (w : World) : Prop := ∀ a c, w.chn a = some c → c.ignorePollerr = 0 ∧ c.preferredFourcc = 0

/-- What all four calls keep. -/
structure Kept (w : World) : Prop where
  sound : Sound w
  piped : Piped w
  below : Below w
  plain : Plain w

variable {w w' : World} {a b n p : Nat} {c e : PitcherChn} {pipe : PitcherPipe}

def matchesEnds (w : World) (a b p : Nat) : Bool :=
  (w.pipe p).any fun pipe => decide (pipe.src = a ∧ pipe.dst = b)

/-- Pipes are taken out of a context, and nothing but their memory and their
buffers changes. -/
structure Drops (w : World) (gone : List Nat) (w' : World) : Prop where
  same : w' = { w with pipe := w'.pipe, puts := w'.puts }
  pipe : ∀ p, w'.pipe p = if p ∈ gone then none else w.pipe p
  puts : w'.puts = w.puts ++ gone.flatMap fun p => ((w.pipe p).map (·.queue)).getD []

/-- NULL over two fields that are zero. -/
theorem setUnitInput_chn (plain : Plain w) (sink : w.chn b = some e) :
    pitcherSetUnitInput w (.chn b) NULL = .ok w := by
  obtain ⟨zero, zero'⟩ := plain b e sink
  have back : { e with ignorePollerr := 0, preferredFourcc := 0 } = e := by
    cases e
    simp_all
  have same : Function.update w.chn b (some { e with ignorePollerr := 0, preferredFourcc := 0 }) = w.chn := by
    rw [back, ← sink, Function.update_eq_self]
  simp only [pitcherSetUnitInput, getChn_ok sink, bind, Except.bind, NULL, Nat.zero_mod, Nat.zero_div, same]

theorem disconnectPipes_spec (plain : Plain w) (source : w.chn a = some c) (sink : w.chn b = some e)
    {items : List Nat} (nodup : items.Nodup) (live : ∀ p ∈ items, ∃ pipe, w.pipe p = some pipe) :
    ∃ w', disconnectPipes a b items w = .ok (items.filter fun p => !matchesEnds w a b p, w') ∧
      Drops w (items.filter (matchesEnds w a b)) w' := by
  induction items generalizing w with
  | nil => exact ⟨w, rfl, rfl, fun p => by simp, by simp⟩
  | cons p items ih =>
    rw [List.nodup_cons] at nodup
    obtain ⟨pipe, here⟩ := live p List.mem_cons_self
    by_cases match_ : pipe.src = a ∧ pipe.dst = b
    · have yes : matchesEnds w a b p = true := by
        simp only [matchesEnds, here, Option.any_some, match_, and_self, decide_true]
      obtain ⟨rfl, rfl⟩ := match_
      have removed : pitcherRmUnitOutput w (.chn pipe.src) p = .ok w := by
        simp only [pitcherRmUnitOutput, getChn_ok source, bind, Except.bind]
      have deleted : pitcherDelPipe w p =
          .ok { w with puts := w.puts ++ pipe.queue, pipe := Function.update w.pipe p none } := by
        simp only [pitcherDelPipe, getPipe_ok here, bind, Except.bind]
      generalize made : ({ w with
        puts := w.puts ++ pipe.queue, pipe := Function.update w.pipe p none } : World) = w₁ at deleted
      have apart {q : Nat} (mem : q ∈ items) : q ≠ p := fun same => nodup.1 (same ▸ mem)
      have old {q : Nat} (away : q ≠ p) : w₁.pipe q = w.pipe q := by
        rw [← made]
        exact Function.update_of_ne away ..
      have chn : w₁.chn = w.chn := by rw [← made]
      obtain ⟨w', rest, drops⟩ := ih (w := w₁) (by rw [Plain, chn]; exact plain) (by rw [chn, source])
        (by rw [chn, sink]) nodup.2 fun q mem => by
          rw [old (apart mem)]
          exact live q (List.mem_cons_of_mem p mem)
      have agree {q : Nat} (mem : q ∈ items) :
          matchesEnds w₁ pipe.src pipe.dst q = matchesEnds w pipe.src pipe.dst q := by
        simp only [matchesEnds, old (apart mem)]
      have stay : items.filter (fun q => !matchesEnds w₁ pipe.src pipe.dst q) =
          items.filter fun q => !matchesEnds w pipe.src pipe.dst q :=
        List.filter_congr fun q mem => by rw [agree mem]
      have go : items.filter (matchesEnds w₁ pipe.src pipe.dst) =
          items.filter (matchesEnds w pipe.src pipe.dst) :=
        List.filter_congr fun q mem => agree mem
      rw [stay] at rest
      rw [go] at drops
      refine ⟨w', ?_, ?_, ?_, ?_⟩
      · simp only [disconnectPipes, getPipe_ok here, bind, Except.bind, ne_eq, not_true_eq_false, or_self,
          if_false, setUnitInput_chn plain sink, removed, deleted, rest, List.filter_cons, yes, Bool.not_true,
          Bool.false_eq_true]
      · rw [drops.same, ← made]
      · intro q
        rw [drops.pipe q, List.filter_cons, if_pos yes]
        by_cases same : q = p
        · simp only [same, List.mem_cons, true_or, if_true, ← made, Function.update_self, ite_self]
        · simp only [old same, List.mem_cons, same, false_or]
      · have others : (items.filter (matchesEnds w pipe.src pipe.dst)).flatMap
              (fun q => ((w₁.pipe q).map (·.queue)).getD []) =
            (items.filter (matchesEnds w pipe.src pipe.dst)).flatMap
              fun q => ((w.pipe q).map (·.queue)).getD [] := by
          apply List.flatMap_congr
          intro q mem
          rw [old (apart (List.mem_of_mem_filter mem))]
        rw [drops.puts, others, List.filter_cons, if_pos yes, List.flatMap_cons, here, ← made]
        simp only [Option.map_some, Option.getD_some, List.append_assoc]
    · have no : matchesEnds w a b p = false := by
        simp only [matchesEnds, here, Option.any_some, match_, decide_false]
      obtain ⟨w', rest, drops⟩ := ih plain source sink nodup.2 fun q mem => live q (List.mem_cons_of_mem p mem)
      have differ : pipe.src ≠ a ∨ pipe.dst ≠ b := not_and_or.mp match_
      refine ⟨w', ?_, ?_⟩
      · simp only [disconnectPipes, getPipe_ok here, bind, Except.bind, differ, if_true, rest, List.filter_cons,
          no, Bool.not_false]
      · simpa only [List.filter_cons, no, Bool.false_eq_true, if_false] using drops

/-- The world with pipes taken out of the context `n`. -/
def withoutPipes (w w₁ : World) (n a b : Nat) (pipes : List Nat) : World :=
  { w₁ with
    core := Function.update w.core n
      { w.core n with pipes := some (pipes.filter fun p => !matchesEnds w a b p) } }

/-- The channels of a call of `pitcher_disconnect` that looks at its pipes. -/
structure Parting (w : World) (src dst a b : Nat) (c e : PitcherChn) : Prop where
  source : w.chn a = some c
  src : c.chnno = src
  sink : w.chn b = some e
  dst : e.chnno = dst
  core : c.core = e.core

theorem disconnect_cases (kept : Kept w) (src dst : Nat) :
    (∃ a b c e pipes w₁, Parting w src dst a b c e ∧ (w.core c.core).pipes = some pipes ∧
      Drops w (pipes.filter (matchesEnds w a b)) w₁ ∧
      pitcherDisconnect w src dst = .ok (.OK, withoutPipes w w₁ c.core a b pipes)) ∨
    ((∀ a b c e, ¬ Parting w src dst a b c e) ∧ ∃ code, pitcherDisconnect w src dst = .ok (code, w)) := by
  have sound := kept.sound
  unfold pitcherDisconnect
  rcases findChn_spec sound src with ⟨a, c, source, rfl, found⟩ | ⟨none_, missing⟩
  · rcases findChn_spec sound dst with ⟨b, e, sink, rfl, found'⟩ | ⟨none_, missing⟩
    · obtain ⟨items, chns, _⟩ := sound.queued c.core
      obtain ⟨pipes, queue, nodup, live⟩ := kept.piped.queue c.core
      simp only [found, found', getChn_ok source, getChn_ok sink, chns, queue, bind, Except.bind]
      by_cases core : c.core = e.core
      · obtain ⟨w₁, result, drops⟩ := disconnectPipes_spec kept.plain source sink nodup live
        have same : w₁.core = w.core := by rw [drops.same]
        refine .inl ⟨a, b, c, e, pipes, w₁, ⟨source, rfl, sink, rfl, core⟩, queue, drops, ?_⟩
        rw [if_neg (not_not.mpr core)]
        simp only [result, same, chns, withoutPipes]
      · rw [if_pos core]
        refine .inr ⟨?_, .E_NOT_MATCH, rfl⟩
        intro a' b' c' e' parting
        obtain rfl := sound.distinct a' a c' c parting.source source parting.src
        obtain rfl := sound.distinct b' b e' e parting.sink sink parting.dst
        obtain rfl := Option.some.inj (parting.source.symm.trans source)
        obtain rfl := Option.some.inj (parting.sink.symm.trans sink)
        exact core parting.core
    · refine .inr ⟨fun a' b' c' e' parting => none_ b' e' parting.sink parting.dst, .E_INVAL, ?_⟩
      simp only [found, missing, bind, Except.bind]
  · refine .inr ⟨fun a' b' c' e' parting => none_ a' c' parting.source parting.src, .E_INVAL, ?_⟩
    rcases findChn_spec sound dst with ⟨b, e, _, _, found'⟩ | ⟨_, missing'⟩
    · simp only [missing, found', bind, Except.bind]
    · simp only [missing, missing', bind, Except.bind]

/-! ## What removal should leave -/

def Removed (w w' : World) (p : Nat) : Prop := (∃ pipe, w.pipe p = some pipe) ∧ w'.pipe p = none

/-- No unit has a link to a removed pipe, the buffers that waited in it are put
back, and all else in the units and the channels is as it was. -/
structure DisconnectMet (w w' : World) : Prop where
  unlinked : ∀ p, Removed w w' p → ∀ x u, w'.unit x = some u → u.input ≠ p ∧ ∀ i, u.outs i ≠ p
  released : ∃ gone : List Nat, gone.Nodup ∧ (∀ p, p ∈ gone ↔ Removed w w' p) ∧
    w'.puts = w.puts ++ gone.flatMap fun p => ((w.pipe p).map (·.queue)).getD []
  chns : w'.chn = w.chn
  units : ∀ x u, w.unit x = some u → ∃ u', w'.unit x = some u' ∧ u'.desc = u.desc ∧
    (¬ Removed w w' u.input → u'.input = u.input) ∧ ∀ i, ¬ Removed w w' (u.outs i) → u'.outs i = u.outs i

/-- No list, no unit and no pipe refers to the channel that had the number. -/
def UnregisterMet (w : World) (n : Nat) (w' : World) : Prop :=
  ∀ a c, w.chn a = some c → c.chnno = n →
    a ∉ w'.chns ∧ (∀ k items, (w'.core k).chns = some items → a ∉ items) ∧
      ∀ p pipe, w'.pipe p = some pipe → pipe.src ≠ a ∧ pipe.dst ≠ a

/-- No unit has a link to a pipe in the queue that joins the two channels. -/
def Untied (w : World) (src dst : Nat) : Prop :=
  ∀ a b c e pipes p, Parting w src dst a b c e → (w.core c.core).pipes = some pipes → p ∈ pipes →
    matchesEnds w a b p = true → ∀ x u, w.unit x = some u → u.input ≠ p ∧ ∀ i, u.outs i ≠ p

/-- The channel is in its context's queue, and no pipe has it as an end. -/
def Detached (w : World) (n : Nat) : Prop :=
  ∀ a c, w.chn a = some c → c.chnno = n →
    (∀ items, (w.core c.core).chns = some items → a ∈ items) ∧
      ∀ p pipe, w.pipe p = some pipe → pipe.src ≠ a ∧ pipe.dst ≠ a

theorem disconnect_met_iff (kept : Kept w) (src dst : Nat) :
    ∃ code w', pitcherDisconnect w src dst = .ok (code, w') ∧ (DisconnectMet w w' ↔ Untied w src dst) := by
  rcases disconnect_cases kept src dst with
    ⟨a, b, c, e, pipes, w₁, parting, queue, drops, result⟩ | ⟨none_, code, result⟩
  · refine ⟨_, _, result, ?_⟩
    obtain ⟨pipes', queue', nodup, live⟩ := kept.piped.queue c.core
    obtain rfl := Option.some.inj (queue.symm.trans queue')
    have removed (p : Nat) : Removed w w₁ p ↔ p ∈ pipes ∧ matchesEnds w a b p = true := by
      rw [← List.mem_filter]
      constructor
      · rintro ⟨⟨pipe, known⟩, gone⟩
        rw [drops.pipe p] at gone
        by_contra outside
        rw [if_neg outside, known] at gone
        cases gone
      · intro mem
        refine ⟨live p (List.mem_of_mem_filter mem), ?_⟩
        rw [drops.pipe p, if_pos mem]
    have unit : w₁.unit = w.unit := by rw [drops.same]
    have chn : w₁.chn = w.chn := by rw [drops.same]
    constructor
    · intro met a' b' c' e' pipes₂ p parting' queue₂ mem match_ x u known
      obtain rfl := kept.sound.distinct a' a c' c parting'.source parting.source (parting'.src.trans parting.src.symm)
      obtain rfl := kept.sound.distinct b' b e' e parting'.sink parting.sink (parting'.dst.trans parting.dst.symm)
      obtain rfl := Option.some.inj (parting'.source.symm.trans parting.source)
      obtain rfl := Option.some.inj (queue.symm.trans queue₂)
      exact met.unlinked p ((removed p).mpr ⟨mem, match_⟩) x u ((congrFun unit x).trans known)
    · intro untied
      refine ⟨?_, ⟨pipes.filter (matchesEnds w a b), nodup.filter _, ?_, drops.puts⟩, chn, ?_⟩
      · intro p gone x u known
        obtain ⟨mem, match_⟩ := (removed p).mp gone
        exact untied a b c e pipes p parting queue mem match_ x u ((congrFun unit x).symm.trans known)
      · intro p
        rw [List.mem_filter]
        exact (removed p).symm
      · intro x u known
        exact ⟨u, (congrFun unit x).trans known, rfl, fun _ => rfl, fun _ _ => rfl⟩
  · refine ⟨code, w, result, iff_of_true ?_ ?_⟩
    · have never (p : Nat) : ¬ Removed w w p := by
        rintro ⟨⟨pipe, live⟩, gone⟩
        cases live.symm.trans gone
      exact ⟨fun p gone => absurd gone (never p), ⟨[], List.nodup_nil, fun p => by simp [never p], by simp⟩, rfl,
        fun x u known => ⟨u, known, rfl, fun _ => rfl, fun _ _ => rfl⟩⟩
    · exact fun a b c e pipes p parting => absurd parting (none_ a b c e)

/-- Where every pipe has the links of its ends, there is nothing to untie only
when no pipe joins the two channels. -/
theorem untied_iff_unjoined (attached : ∀ k pipes, (w.core k).pipes = some pipes → ∀ p ∈ pipes, Attached w p)
    (src dst : Nat) :
    Untied w src dst ↔ ∀ a b c e pipes p, Parting w src dst a b c e → (w.core c.core).pipes = some pipes →
      p ∈ pipes → matchesEnds w a b p = false := by
  constructor
  · intro untied a b c e pipes p parting queue mem
    by_contra yes
    obtain ⟨_, _, _, u, _, _, _, unit, ⟨i, out⟩, _⟩ := attached _ pipes queue p mem
    exact (untied a b c e pipes p parting queue mem (by simpa using yes) _ u unit).2 i out
  · intro none_ a b c e pipes p parting queue mem yes
    rw [none_ a b c e pipes p parting queue mem] at yes
    cases yes

theorem unregister_met_iff (sound : Sound w) (n : Nat) :
    ∃ code w', pitcherUnregisterChn w n = .ok (code, w') ∧ (UnregisterMet w n w' ↔ Detached w n) := by
  rcases unregister_spec sound n with ⟨none_, result⟩ | ⟨a, c, items, live, number, queue, result⟩
  · refine ⟨_, _, result, iff_of_true ?_ ?_⟩
    · exact fun a c live number => absurd number (none_ a c live)
    · exact fun a c live number => absurd number (none_ a c live)
  · have only {a' : Nat} {c' : PitcherChn} (live' : w.chn a' = some c') (number' : c'.chnno = n) :
        a' = a ∧ c' = c := by
      obtain rfl := sound.distinct a' a c' c live' live (number'.trans number.symm)
      exact ⟨rfl, Option.some.inj (live'.symm.trans live)⟩
    refine ⟨_, _, result, ?_⟩
    by_cases mem : a ∈ items
    · rw [if_pos mem]
      constructor
      · intro met a' c' live' number'
        obtain ⟨rfl, rfl⟩ := only live' number'
        refine ⟨?_, (met a' c' live' number').2.2⟩
        intro items' queue'
        cases queue.symm.trans queue'
        exact mem
      · intro detached a' c' live' number'
        obtain ⟨rfl, rfl⟩ := only live' number'
        have sound' := dropChn_sound sound live queue
        have gone : (dropChn w a' c' items).chn a' = none := by simp only [dropChn, freeChn, Function.update_self]
        refine ⟨?_, ?_, (detached a' c' live' number').2⟩
        · intro listed
          obtain ⟨d, there⟩ := (sound'.listed a').mp listed
          cases gone.symm.trans there
        · intro k items' queue' mem'
          obtain ⟨items'', known, _, there⟩ := sound'.queued k
          cases queue'.symm.trans known
          obtain ⟨d, alive, _⟩ := there a' mem'
          cases gone.symm.trans alive
    · rw [if_neg mem]
      refine iff_of_false ?_ ?_
      · intro met
        exact (met a c live number).1 ((sound.listed a).mpr ⟨c, live⟩)
      · intro detached
        exact mem ((detached a c live number).1 items queue)

/-! ## Runs -/

theorem start_kept : Kept {} := ⟨start_sound, start_wired.piped, start_wired.below, nofun⟩

/-- More marks do no harm. -/
theorem Kept.marked {bitmap : Nat → BitVec 64} (kept : Kept w) (got : getChnno w.chnBitmap = (some n, bitmap)) :
    Kept { w with chnBitmap := bitmap } := by
  obtain ⟨_, _, marks⟩ := getChnno_some got
  obtain ⟨⟨listed, nodup, under, distinct, marked, queued, units, apart⟩, piped, below, plain⟩ := kept
  refine ⟨⟨listed, nodup, under, distinct, ?_, queued, units, apart⟩, ⟨piped.queue, piped.apart⟩,
    ⟨below.allocs, below.null, below.links⟩,
    plain⟩
  intro a c live
  obtain ⟨low, mark⟩ := marked a c live
  exact ⟨low, (marks _).mpr (.inr mark)⟩

theorem Kept.added {core : Nat} {items : List Nat} {unit : PitcherUnit} {bitmap : Nat → BitVec 64} {node : Bool}
    (kept : Kept w) (got : getChnno w.chnBitmap = (some n, bitmap)) (queue : (w.core core).chns = some items)
    (empty : unit.input = NULL ∧ unit.outs = fun _ => NULL) :
    Kept (addChn { w with chnBitmap := bitmap } core n items unit node) := by
  refine ⟨addChn_sound unit node kept.sound got queue, addChn_piped kept.piped, addChn_below kept.below empty, ?_⟩
  intro a c there
  rcases addChn_chn there with ⟨_, _, _, _, zero, zero'⟩ | ⟨_, live⟩
  · exact ⟨zero, zero'⟩
  · exact kept.plain a c live

theorem Kept.dropped {items : List Nat} (kept : Kept w) (live : w.chn a = some c)
    (queue : (w.core c.core).chns = some items) : Kept (dropChn w a c items) := by
  have pipes (k : Nat) : ((dropChn w a c items).core k).pipes = (w.core k).pipes := by
    by_cases here : k = c.core
    · subst here
      simp only [dropChn, Function.update_self]
    · simp only [dropChn, Function.update_of_ne here]
  refine ⟨dropChn_sound kept.sound live queue, ⟨?_, ?_⟩, ⟨kept.below.allocs, kept.below.null, ?_⟩, ?_⟩
  · intro k
    rw [pipes k]
    exact kept.piped.queue k
  · intro k k' pipes₁ pipes₂ p queue₁ queue₂
    rw [pipes k] at queue₁
    rw [pipes k'] at queue₂
    exact kept.piped.apart k k' pipes₁ pipes₂ p queue₁ queue₂
  · intro x u there
    by_cases here : x = c.unit
    · subst here
      simp [dropChn, freeChn] at there
    · simp only [dropChn, freeChn, Function.update_of_ne here] at there
      exact kept.below.links x u there
  · exact fun b d there => kept.plain b d (dropChn_chn.mp there).2

section parts
variable {pipes : List Nat} {w₁ : World} (kept : Kept w) (queue : (w.core n).pipes = some pipes)
  (drops : Drops w (pipes.filter (matchesEnds w a b)) w₁)

include queue in
/-- What a queue holds afterwards was in it. -/
theorem withoutPipes_queue {k : Nat} {after : List Nat}
    (there : ((withoutPipes w w₁ n a b pipes).core k).pipes = some after) :
    ∃ before, (w.core k).pipes = some before ∧
      after = if k = n then before.filter (fun p => !matchesEnds w a b p) else before := by
  by_cases here : k = n
  · subst here
    simp only [withoutPipes, Function.update_self, Option.some.injEq] at there
    exact ⟨pipes, queue, by rw [if_pos rfl, there]⟩
  · simp only [withoutPipes, Function.update_of_ne here] at there
    exact ⟨after, there, by rw [if_neg here]⟩

include queue in
theorem withoutPipes_mem {k p : Nat} {after : List Nat}
    (there : ((withoutPipes w w₁ n a b pipes).core k).pipes = some after) (mem : p ∈ after) :
    ∃ before, (w.core k).pipes = some before ∧ p ∈ before := by
  obtain ⟨before, known, rfl⟩ := withoutPipes_queue queue there
  refine ⟨before, known, ?_⟩
  split at mem
  · exact List.mem_of_mem_filter mem
  · exact mem

include drops

theorem withoutPipes_sound (sound : Sound w) : Sound (withoutPipes w w₁ n a b pipes) := by
  have chn : (withoutPipes w w₁ n a b pipes).chn = w.chn := by rw [withoutPipes, drops.same]
  have chns : (withoutPipes w w₁ n a b pipes).chns = w.chns := by rw [withoutPipes, drops.same]
  have bitmap : (withoutPipes w w₁ n a b pipes).chnBitmap = w.chnBitmap := by rw [withoutPipes, drops.same]
  have unit : (withoutPipes w w₁ n a b pipes).unit = w.unit := by rw [withoutPipes, drops.same]
  have allocs : (withoutPipes w w₁ n a b pipes).allocs = w.allocs := by rw [withoutPipes, drops.same]
  have pipe (p : Nat) : (withoutPipes w w₁ n a b pipes).pipe p =
      if p ∈ pipes.filter (matchesEnds w a b) then none else w.pipe p := drops.pipe p
  have queues (k : Nat) : ((withoutPipes w w₁ n a b pipes).core k).chns = (w.core k).chns := by
    by_cases here : k = n
    · subst here
      simp only [withoutPipes, Function.update_self]
    · simp only [withoutPipes, Function.update_of_ne here]
  constructor
  · rw [chns, chn]
    exact sound.listed
  · rw [chns]
    exact sound.nodup
  · intro x high
    obtain ⟨one, two, three⟩ := sound.below x (allocs ▸ high)
    rw [chn, unit, pipe x, three, ite_self]
    exact ⟨one, two, rfl⟩
  · rw [chn]
    exact sound.distinct
  · rw [chn, bitmap]
    exact sound.marked
  · intro k
    rw [queues k, chn]
    exact sound.queued k
  · rw [chn, unit]
    exact sound.units
  · rw [chn]
    exact sound.apart

include queue

/-- The pipes that stay in the queue are not among those that are freed. -/
theorem withoutPipes_piped (piped : Piped w) : Piped (withoutPipes w w₁ n a b pipes) := by
  constructor
  · intro k
    obtain ⟨before, known, once, live⟩ := piped.queue k
    have there : ∃ after, ((withoutPipes w w₁ n a b pipes).core k).pipes = some after := by
      by_cases here : k = n
      · subst here
        exact ⟨pipes.filter fun p => !matchesEnds w a b p, by simp only [withoutPipes, Function.update_self]⟩
      · exact ⟨before, by simp only [withoutPipes, Function.update_of_ne here, known]⟩
    obtain ⟨after, there⟩ := there
    obtain ⟨before', known', shape⟩ := withoutPipes_queue queue there
    obtain rfl := Option.some.inj (known.symm.trans known')
    refine ⟨after, there, ?_, ?_⟩
    · rw [shape]
      split
      · exact once.filter _
      · exact once
    · intro p mem
      obtain ⟨before', known', held⟩ := withoutPipes_mem queue there mem
      obtain rfl := Option.some.inj (known.symm.trans known')
      obtain ⟨found, alive⟩ := live p held
      refine ⟨found, ?_⟩
      rw [show (withoutPipes w w₁ n a b pipes).pipe p = _ from drops.pipe p, if_neg ?_, alive]
      intro gone
      obtain ⟨mine, yes⟩ := List.mem_filter.mp gone
      have here : k = n := piped.apart k n before pipes p known queue held mine
      rw [shape, if_pos here] at mem
      have no := (List.mem_filter.mp mem).2
      rw [yes] at no
      cases no
  · intro k k' pipes₁ pipes₂ p queue₁ queue₂ mem₁ mem₂
    obtain ⟨before, known, held⟩ := withoutPipes_mem queue queue₁ mem₁
    obtain ⟨before', known', held'⟩ := withoutPipes_mem queue queue₂ mem₂
    exact piped.apart k k' before before' p known known' held held'

include kept in
theorem Kept.parted : Kept (withoutPipes w w₁ n a b pipes) := by
  have chn : (withoutPipes w w₁ n a b pipes).chn = w.chn := by rw [withoutPipes, drops.same]
  have unit : (withoutPipes w w₁ n a b pipes).unit = w.unit := by rw [withoutPipes, drops.same]
  have allocs : (withoutPipes w w₁ n a b pipes).allocs = w.allocs := by rw [withoutPipes, drops.same]
  refine ⟨withoutPipes_sound drops kept.sound, withoutPipes_piped queue drops kept.piped, ⟨?_, ?_, ?_⟩, ?_⟩
  · rw [allocs]
    exact kept.below.allocs
  · rw [show (withoutPipes w w₁ n a b pipes).pipe NULL = _ from drops.pipe NULL, kept.below.null, ite_self]
  · rw [unit, allocs]
    exact kept.below.links
  · rw [Plain, chn]
    exact kept.plain

end parts

theorem step_kept {event : Call × Answer} (kept : Kept w) (step : Step w event w') : Kept w' := by
  obtain ⟨call, answer⟩ := event
  cases call with
  | register core desc luck =>
    simp only [Step, exec] at step
    rcases register_cases w core desc luck with ⟨_, result⟩ | ⟨n, bitmap, got, result⟩
    · rw [result] at step
      cases step
      exact kept
    · rcases result with ⟨_, code, _, _, result⟩ | ⟨_, items, unit, queue, made, result⟩
      · rw [result] at step
        cases step
        exact kept.marked got
      · rw [result] at step
        cases step
        exact kept.added got queue (pitcherNewUnit_links made)
  | unregister chnno =>
    simp only [Step, exec] at step
    rcases unregister_spec kept.sound chnno with ⟨_, result⟩ | ⟨a, c, items, live, _, queue, result⟩
    · simp only [result, bind, Except.bind] at step
      cases step
      exact kept
    · simp only [result, bind, Except.bind] at step
      cases step
      split
      · exact kept.dropped live queue
      · exact kept
  | connect src dst luck =>
    simp only [Step, exec, bind, Except.bind] at step
    cases result : pitcherConnect w src dst luck with
    | error fault => simp [result] at step
    | ok pair =>
      obtain ⟨code, w''⟩ := pair
      simp only [result, Except.ok.injEq, Prod.mk.injEq] at step
      obtain ⟨_, rfl⟩ := step
      rcases connect_cases kept.sound kept.piped kept.below result with ⟨a, b, c, e, _, _, joins⟩ | ⟨_, _, rfl⟩
      · refine ⟨joins.sound kept.sound, joins.piped kept.sound kept.piped, joins.below kept.below, ?_⟩
        rw [Plain, joins.chn]
        exact kept.plain
      · exact kept
  | disconnect src dst =>
    simp only [Step, exec] at step
    rcases disconnect_cases kept src dst with ⟨a, b, c, e, pipes, w₁, _, queue, drops, result⟩ | ⟨_, code, result⟩
    · simp only [result, bind, Except.bind] at step
      cases step
      exact kept.parted queue drops
    · simp only [result, bind, Except.bind] at step
      cases step
      exact kept

/-- Wherever a run of the four calls has come to, a disconnection does what it
should exactly when no unit has a link to a pipe it removes, and freeing a
channel exactly when its context lists it and it has no pipes. -/
theorem removal_met_iff {events : List (Call × Answer)} (run : Run Step {} events w) :
    (∀ src dst, ∃ code w', pitcherDisconnect w src dst = .ok (code, w') ∧
      (DisconnectMet w w' ↔ Untied w src dst)) ∧
    ∀ n, ∃ code w', pitcherUnregisterChn w n = .ok (code, w') ∧ (UnregisterMet w n w' ↔ Detached w n) := by
  have kept := run.invariant (fun w event w' kept step => step_kept kept step) start_kept
  exact ⟨fun src dst => disconnect_met_iff kept src dst, fun n => unregister_met_iff kept.sound n⟩

theorem removal_met_iff_connected :
    (∀ src dst, ∃ code w', pitcherDisconnect connectedOnce src dst = .ok (code, w') ∧
      (DisconnectMet connectedOnce w' ↔ Untied connectedOnce src dst)) ∧
    ∀ n, ∃ code w', pitcherUnregisterChn connectedOnce n = .ok (code, w') ∧
      (UnregisterMet connectedOnce n w' ↔ Detached connectedOnce n) :=
  @removal_met_iff _ [(.register 0 (some {}) {}, .number 0), (.register 0 (some {}) {}, .number 1),
    (.connect 0 1 {}, .ret .OK)]
    (.next (show Step {} _ oneChannel from rfl) (.next (show Step oneChannel _ twoChannels from rfl)
      (.next (show Step twoChannels _ connectedOnce from rfl) (.stay _))))

/-- After a connection and its undoing the sink's unit still has the freed pipe as
its input. -/
theorem disconnect_leaves_input : ¬ ∀ events w, Run Step {} events w → ∀ src dst, ∃ code w',
    pitcherDisconnect w src dst = .ok (code, w') ∧ DisconnectMet w w' := by
  intro claim
  have run : Run Step {} [(.register 0 (some {}) {}, .number 0), (.register 0 (some {}) {}, .number 1),
      (.connect 0 1 {}, .ret .OK)] connectedOnce :=
    .next (show Step {} _ oneChannel from rfl) (.next (show Step oneChannel _ twoChannels from rfl)
      (.next (show Step twoChannels _ connectedOnce from rfl) (.stay _)))
  obtain ⟨code, w', result, met⟩ := claim _ _ run 0 1
  cases result
  exact (met.unlinked 5 ⟨⟨_, rfl⟩, rfl⟩ 4 _ rfl).1 rfl

end ImxTest.Pitcher.Core
