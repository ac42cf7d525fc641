import ImxTest.Pitcher.Core
import ImxTest.Lib.Runs
import Mathlib.Data.List.Nodup

/-! Channel numbers: the bitmap, the list of channels and the queues of the
contexts. A number taken for a registration that fails is never given back. -/
namespace ImxTest.Pitcher.Core

open Lib.Runs

/-- Channel number `n` is marked as taken. -/
def Marked (bitmap : Nat → BitVec 64) (n : Nat) : Prop := (bitmap (n / 64)).getLsbD (n % 64) = true

instance (bitmap : Nat → BitVec 64) : DecidablePred (Marked bitmap) :=
  fun n => inferInstanceAs (Decidable ((bitmap (n / 64)).getLsbD (n % 64) = true))

theorem oneBit_getLsbD {j k : Nat} (inside : k < 64) : (1#64 <<< j).getLsbD k = decide (k = j) := by
  simp only [BitVec.getLsbD_shiftLeft, inside, decide_true, Bool.true_and, BitVec.getLsbD_one]
  by_cases same : k = j
  · subst same
    simp
  · by_cases low : k < j
    · simp [low, same]
    · have off : k - j ≠ 0 := by omega
      simp [low, same, off]

theorem update_marked {bitmap : Nat → BitVec 64} {n : Nat} {word : BitVec 64} {m : Nat} :
    Marked (Function.update bitmap (n / 64) word) m ↔
      if m / 64 = n / 64 then word.getLsbD (m % 64) = true else Marked bitmap m := by
  unfold Marked
  by_cases same : m / 64 = n / 64
  · simp only [same, Function.update_self, if_true]
  · simp only [Function.update_of_ne same, if_neg same]

theorem putChnno_marked {bitmap : Nat → BitVec 64} {n : Nat} (small : n < 16384) (m : Nat) :
    Marked (putChnno bitmap n) m ↔ m ≠ n ∧ Marked bitmap m := by
  have word : ¬ 256 ≤ n / 64 := by omega
  simp only [putChnno, if_neg word, update_marked]
  by_cases same : m / 64 = n / 64
  · have inside : m % 64 < 64 := Nat.mod_lt _ (by decide)
    have bit : m % 64 = n % 64 ↔ m = n := by omega
    simp only [same, if_true, BitVec.getLsbD_and, BitVec.getLsbD_not, inside, decide_true,
      Bool.true_and, oneBit_getLsbD inside, bit, Marked, Bool.and_eq_true, Bool.not_eq_true',
      decide_eq_false_iff_not]
    exact and_comm
  · have differ : m ≠ n := fun h => same (h ▸ rfl)
    simp only [if_neg same, differ, ne_eq, not_false_eq_true, true_and]

theorem getChnno_some {bitmap bitmap' : Nat → BitVec 64} {n : Nat} (got : getChnno bitmap = (some n, bitmap')) :
    n < 16384 ∧ ¬ Marked bitmap n ∧ ∀ m, Marked bitmap' m ↔ m = n ∨ Marked bitmap m := by
  unfold getChnno at got
  simp only at got
  split at got
  · cases got
  · next i j found =>
    obtain ⟨i', inside, first⟩ := List.exists_of_findSome?_eq_some found
    rw [List.mem_range] at inside
    split at first
    · cases first
    · obtain ⟨j', bit, same⟩ := Option.map_eq_some_iff.mp first
      obtain ⟨rfl, rfl⟩ : i' = i ∧ j' = j := by simpa using same
      have clear := List.find?_some bit
      have small := List.mem_range.mp (List.mem_of_find?_eq_some bit)
      obtain ⟨rfl, rfl⟩ : i' * 64 + j' = n ∧ _ := by simpa using got
      have word : (i' * 64 + j') / 64 = i' := by omega
      have place : (i' * 64 + j') % 64 = j' := by omega
      refine ⟨by omega, ?_, ?_⟩
      · simpa [Marked, word, place] using clear
      · intro m
        have shape := @update_marked bitmap (i' * 64 + j') (bitmap i' ||| 1#64 <<< j') m
        rw [word] at shape
        rw [shape]
        by_cases same : m / 64 = i'
        · have inside' : m % 64 < 64 := Nat.mod_lt _ (by decide)
          have here : m % 64 = j' ↔ m = i' * 64 + j' := by omega
          simp only [same, if_true, BitVec.getLsbD_or, oneBit_getLsbD inside', here, Marked, Bool.or_eq_true,
            decide_eq_true_eq]
          exact or_comm
        · have differ : m ≠ i' * 64 + j' := by omega
          simp only [if_neg same, differ, false_or]

theorem getChnno_none {bitmap bitmap' : Nat → BitVec 64} (full : getChnno bitmap = (none, bitmap')) :
    ∀ n < 16384, Marked bitmap n := by
  unfold getChnno at full
  simp only at full
  split at full
  · next none_ =>
    intro n small
    have word := List.findSome?_eq_none_iff.mp none_ (n / 64) (List.mem_range.mpr (by omega))
    have inside : n % 64 < 64 := Nat.mod_lt _ (by decide)
    split at word
    · next ones => simp only [Marked, ones, BitVec.getLsbD_allOnes, inside, decide_true]
    · have bits := List.find?_eq_none.mp (Option.map_eq_none_iff.mp word) (n % 64) (List.mem_range.mpr inside)
      simpa [Marked] using bits
  · cases full

/-! ## What every call keeps -/

/-- A channel is live from its registration until it is freed. -/
structure Sound (w : World) : Prop where
  listed : ∀ a, a ∈ w.chns ↔ ∃ c, w.chn a = some c
  nodup : w.chns.Nodup
  below : ∀ a, w.allocs ≤ a → w.chn a = none ∧ w.unit a = none ∧ w.pipe a = none
  distinct : ∀ a b c d, w.chn a = some c → w.chn b = some d → c.chnno = d.chnno → a = b
  marked : ∀ a c, w.chn a = some c → c.chnno < 16384 ∧ Marked w.chnBitmap c.chnno
  queued : ∀ k, ∃ items, (w.core k).chns = some items ∧ items.Nodup ∧
    ∀ a ∈ items, ∃ c, w.chn a = some c ∧ c.core = k
  units : ∀ a c, w.chn a = some c → ∃ u, w.unit c.unit = some u
  apart : ∀ a b c d, w.chn a = some c → w.chn b = some d → c.unit = d.unit → a = b

variable {w w' : World} {a : Nat} {c : PitcherChn} {n : Nat}

theorem getChn_ok (live : w.chn a = some c) : w.getChn a = .ok c := by
  simp only [World.getChn, live, Option.elim_some]

theorem getUnit_ok {u : PitcherUnit} (live : w.unit a = some u) : w.getUnit a = .ok u := by
  simp only [World.getUnit, live, Option.elim_some]

theorem getPipe_ok {p : PitcherPipe} (live : w.pipe a = some p) : w.getPipe a = .ok p := by
  simp only [World.getPipe, live, Option.elim_some]

theorem findIn_spec {items : List Nat} (live : ∀ a ∈ items, ∃ c, w.chn a = some c) :
    (∃ a c, a ∈ items ∧ w.chn a = some c ∧ c.chnno = n ∧ findIn w n items = .ok (some a)) ∨
    ((∀ a c, a ∈ items → w.chn a = some c → c.chnno ≠ n) ∧ findIn w n items = .ok none) := by
  induction items with
  | nil => exact .inr ⟨nofun, rfl⟩
  | cons b items ih =>
    obtain ⟨d, here⟩ := live b List.mem_cons_self
    have step : findIn w n (b :: items) = if n = d.chnno then .ok (some b) else findIn w n items := by
      simp only [findIn, getChn_ok here, bind, Except.bind]
    rw [step]
    by_cases same : n = d.chnno
    · exact .inl ⟨b, d, List.mem_cons_self, here, same.symm, by rw [if_pos same]⟩
    · rw [if_neg same]
      rcases ih fun a mem => live a (List.mem_cons_of_mem b mem) with found | ⟨none_, missing⟩
      · obtain ⟨a, c, mem, rest⟩ := found
        exact .inl ⟨a, c, List.mem_cons_of_mem b mem, rest⟩
      · refine .inr ⟨?_, missing⟩
        intro a c mem there
        rcases List.mem_cons.mp mem with rfl | inside
        · cases here.symm.trans there
          exact fun h => same h.symm
        · exact none_ a c inside there

theorem findChn_spec (sound : Sound w) (n : Nat) :
    (∃ a c, w.chn a = some c ∧ c.chnno = n ∧ findChn w n = .ok (some a)) ∨
    ((∀ a c, w.chn a = some c → c.chnno ≠ n) ∧ findChn w n = .ok none) := by
  rcases @findIn_spec w n _ fun a mem => (sound.listed a).mp mem with found | ⟨none_, missing⟩
  · obtain ⟨a, c, _, found⟩ := found
    exact .inl ⟨a, c, found⟩
  · exact .inr ⟨fun a c live => none_ a c ((sound.listed a).mpr ⟨c, live⟩) live, missing⟩

theorem findChn_of_live (sound : Sound w) (live : w.chn a = some c) : findChn w c.chnno = .ok (some a) := by
  rcases findChn_spec sound c.chnno with ⟨b, d, here, same, found⟩ | ⟨none_, _⟩
  · rw [found, sound.distinct b a d c here live same]
  · exact absurd rfl (none_ a c live)

theorem start_sound : Sound {} where
  listed := by simp
  nodup := List.nodup_nil
  below _ _ := ⟨rfl, rfl, rfl⟩
  distinct := nofun
  marked := nofun
  queued _ := ⟨[], rfl, List.nodup_nil, nofun⟩
  units := nofun
  apart := nofun

/-! ## Registering -/

/-- A number is free, and the registration fails once it has taken it. -/
def Loses (w : World) : Call → Prop
  | .register core desc luck =>
    (∃ n < 16384, ¬ Marked w.chnBitmap n) ∧
      ((w.core core).chns = none ∨ luck.chn = false ∨ pitcherNewUnit desc luck = none)
  | _ => False

theorem register_cases (w : World) (core : Nat) (desc : Option PitcherUnitDesc) (luck : Luck) :
    ((∀ n < 16384, Marked w.chnBitmap n) ∧ pitcherRegisterChn w core desc luck = (.error .E_FULL, w)) ∨
    ∃ n bitmap, getChnno w.chnBitmap = (some n, bitmap) ∧
      ((Loses w (.register core desc luck) ∧ ∃ code, code ≠ .E_FULL ∧ code ≠ .OK ∧
        pitcherRegisterChn w core desc luck = (.error code, { w with chnBitmap := bitmap })) ∨
      (¬ Loses w (.register core desc luck) ∧ ∃ items unit, (w.core core).chns = some items ∧
        pitcherNewUnit desc luck = some unit ∧
        pitcherRegisterChn w core desc luck =
          (.ok n, addChn { w with chnBitmap := bitmap } core n items unit luck.node))) := by
  unfold pitcherRegisterChn
  rcases got : getChnno w.chnBitmap with ⟨_ | n, bitmap⟩
  · exact .inl ⟨getChnno_none got, rfl⟩
  · obtain ⟨small, free, _⟩ := getChnno_some got
    refine .inr ⟨n, bitmap, rfl, ?_⟩
    cases queue : (w.core core).chns with
    | none =>
      refine .inl ⟨⟨⟨n, small, free⟩, .inl queue⟩, .E_INVAL, nofun, nofun, ?_⟩
      simp only [queue]
    | some items =>
      cases calloc : luck.chn with
      | false =>
        refine .inl ⟨⟨⟨n, small, free⟩, .inr (.inl calloc)⟩, .E_NO_MEMORY, nofun, nofun, ?_⟩
        simp [queue]
      | true =>
        cases made : pitcherNewUnit desc luck with
        | none =>
          refine .inl ⟨⟨⟨n, small, free⟩, .inr (.inr made)⟩, .E_INVAL, nofun, nofun, ?_⟩
          simp [queue]
        | some unit =>
          refine .inr ⟨?_, items, unit, rfl, rfl, ?_⟩
          · rintro ⟨_, none_ | failed | refused⟩
            · cases queue.symm.trans none_
            · cases calloc.symm.trans failed
            · cases made.symm.trans refused
          · simp [queue]

/-- The channel added, and the others as they were. -/
theorem addChn_chn {core : Nat} {items : List Nat} {unit : PitcherUnit} {node : Bool} {b : Nat}
    {d : PitcherChn} (there : (addChn w core n items unit node).chn b = some d) :
    (b = w.allocs ∧ d.chnno = n ∧ d.core = core ∧ d.unit = w.allocs + 1 ∧ d.ignorePollerr = 0 ∧
      d.preferredFourcc = 0) ∨ (b ≠ w.allocs ∧ w.chn b = some d) := by
  by_cases new : b = w.allocs
  · subst new
    simp only [addChn, Function.update_self, Option.some.injEq] at there
    subst there
    exact .inl ⟨rfl, rfl, rfl, rfl, rfl, rfl⟩
  · simp only [addChn, Function.update_of_ne new] at there
    exact .inr ⟨new, there⟩

theorem Sound.address (sound : Sound w) (live : w.chn a = some c) : a < w.allocs := by
  by_contra high
  rw [(sound.below a (Nat.le_of_not_lt high)).1] at live
  cases live

theorem Sound.unit_address (sound : Sound w) (live : w.chn a = some c) : c.unit < w.allocs := by
  obtain ⟨u, there⟩ := sound.units a c live
  by_contra high
  rw [(sound.below c.unit (Nat.le_of_not_lt high)).2.1] at there
  cases there

theorem addChn_old {core : Nat} {items : List Nat} {bitmap : Nat → BitVec 64} {unit : PitcherUnit} {node : Bool}
    (sound : Sound w) {b : Nat} {d : PitcherChn} (live : w.chn b = some d) :
    (addChn { w with chnBitmap := bitmap } core n items unit node).chn b = some d :=
  (Function.update_of_ne (Nat.ne_of_lt (sound.address live)) ..).trans live

/-- The queues of channels, the new one at the end of its own. -/
theorem addChn_queued {core : Nat} {items : List Nat} {bitmap : Nat → BitVec 64} (unit : PitcherUnit)
    (node : Bool) (sound : Sound w) (queue : (w.core core).chns = some items) (k : Nat) :
    ∃ items', ((addChn { w with chnBitmap := bitmap } core n items unit node).core k).chns = some items' ∧
      items'.Nodup ∧ ∀ a ∈ items', ∃ c,
        (addChn { w with chnBitmap := bitmap } core n items unit node).chn a = some c ∧ c.core = k := by
  obtain ⟨items', known, nodup, live⟩ := sound.queued k
  by_cases here : k = core
  · subst here
    obtain rfl := Option.some.inj (queue.symm.trans known)
    have added : ((addChn { w with chnBitmap := bitmap } k n items unit node).core k).chns =
        some (if node then items ++ [w.allocs] else items) := by
      simp only [addChn, Function.update_self]
    refine ⟨_, added, ?_, ?_⟩
    · cases node with
      | false => exact nodup
      | true =>
        apply nodup.append (List.nodup_singleton _)
        intro b mem last
        obtain ⟨d, there, _⟩ := live b mem
        exact Nat.ne_of_lt (sound.address there) (List.mem_singleton.mp last)
    · intro b mem
      have cases_ : b ∈ items ∨ b = w.allocs := by
        cases node with
        | false => exact .inl mem
        | true => simpa using mem
      rcases cases_ with inside | rfl
      · obtain ⟨d, there, core⟩ := live b inside
        exact ⟨d, addChn_old sound there, core⟩
      · exact ⟨_, Function.update_self .., rfl⟩
  · refine ⟨items', ?_, nodup, ?_⟩
    · simpa only [addChn, Function.update_of_ne here] using known
    · intro b mem
      obtain ⟨d, there, core⟩ := live b mem
      exact ⟨d, addChn_old sound there, core⟩

theorem addChn_sound {core : Nat} {items : List Nat} {bitmap : Nat → BitVec 64} (unit : PitcherUnit)
    (node : Bool) (sound : Sound w) (got : getChnno w.chnBitmap = (some n, bitmap))
    (queue : (w.core core).chns = some items) :
    Sound (addChn { w with chnBitmap := bitmap } core n items unit node) := by
  obtain ⟨small, free, marks⟩ := getChnno_some got
  have new : (addChn { w with chnBitmap := bitmap } core n items unit node).chn w.allocs = some _ :=
    Function.update_self ..
  have unused : w.allocs ∉ w.chns := by
    intro mem
    obtain ⟨c, live⟩ := (sound.listed _).mp mem
    exact Nat.lt_irrefl _ (sound.address live)
  have taken {b : Nat} {d : PitcherChn} (live : w.chn b = some d) : d.chnno ≠ n := by
    rintro rfl
    exact free (sound.marked b d live).2
  constructor
  · intro b
    constructor
    · intro mem
      rcases List.mem_append.mp mem with inside | last
      · obtain ⟨d, live⟩ := (sound.listed b).mp inside
        exact ⟨d, addChn_old sound live⟩
      · obtain rfl : b = w.allocs := List.mem_singleton.mp last
        exact ⟨_, new⟩
    · rintro ⟨d, there⟩
      rcases addChn_chn there with ⟨here, _⟩ | ⟨_, live⟩
      · exact List.mem_append_right _ (List.mem_singleton.mpr here)
      · exact List.mem_append_left _ ((sound.listed b).mpr ⟨d, live⟩)
  · apply sound.nodup.append (List.nodup_singleton _)
    intro b mem last
    exact unused (List.mem_singleton.mp last ▸ mem)
  · intro b high
    have above : w.allocs + 2 ≤ b := high
    obtain ⟨one, two, three⟩ := sound.below b (by omega)
    have off : b ≠ w.allocs := by omega
    have off' : b ≠ w.allocs + 1 := by omega
    exact ⟨(Function.update_of_ne off ..).trans one, (Function.update_of_ne off' ..).trans two, three⟩
  · intro b b' d d' one two same
    rcases addChn_chn one with ⟨here, number, _⟩ | ⟨_, live⟩
    · rcases addChn_chn two with ⟨here', _⟩ | ⟨_, live'⟩
      · exact here.trans here'.symm
      · exact absurd (same.symm.trans number) (taken live')
    · rcases addChn_chn two with ⟨_, number, _⟩ | ⟨_, live'⟩
      · exact absurd (same.trans number) (taken live)
      · exact sound.distinct b b' d d' live live' same
  · intro b d there
    rcases addChn_chn there with ⟨_, number, _⟩ | ⟨_, live⟩
    · rw [number]
      exact ⟨small, (marks n).mpr (.inl rfl)⟩
    · obtain ⟨low, mark⟩ := sound.marked b d live
      exact ⟨low, (marks _).mpr (.inr mark)⟩
  · exact addChn_queued unit node sound queue
  · intro b d there
    rcases addChn_chn there with ⟨_, _, _, unit_, _⟩ | ⟨_, live⟩
    · exact ⟨unit, unit_ ▸ Function.update_self ..⟩
    · obtain ⟨u, known⟩ := sound.units b d live
      have low := sound.unit_address live
      have off : d.unit ≠ w.allocs + 1 := by omega
      exact ⟨u, (Function.update_of_ne off ..).trans known⟩
  · intro b b' d d' one two same
    rcases addChn_chn one with ⟨here, _, _, unit_, _⟩ | ⟨_, live⟩
    · rcases addChn_chn two with ⟨here', _⟩ | ⟨_, live'⟩
      · exact here.trans here'.symm
      · have low := sound.unit_address live'
        have high : d.unit = w.allocs + 1 := unit_
        omega
    · rcases addChn_chn two with ⟨_, _, _, unit_, _⟩ | ⟨_, live'⟩
      · have low := sound.unit_address live
        have high : d'.unit = w.allocs + 1 := unit_
        omega
      · exact sound.apart b b' d d' live live' same

/-! ## Unregistering -/

theorem delChns_others {items : List Nat} (live : ∀ b ∈ items, ∃ d, w.chn b = some d ∧ d.chnno ≠ n) :
    delChns n items w = .ok (items, w) := by
  induction items with
  | nil => rfl
  | cons b items ih =>
    obtain ⟨d, here, differ⟩ := live b List.mem_cons_self
    have rest := ih fun b' mem => live b' (List.mem_cons_of_mem b mem)
    simp only [delChns, getChn_ok here, bind, Except.bind, differ, ne_eq, not_false_eq_true, if_true, rest]

/-- Of the channels of a queue the one with the number is freed. -/
theorem delChns_spec {items : List Nat} (nodup : items.Nodup)
    (live : ∀ b ∈ items, ∃ d, w.chn b = some d ∧ (d.chnno = n → b = a)) (here : w.chn a = some c)
    (number : c.chnno = n) :
    delChns n items w = .ok (items.erase a, if a ∈ items then freeChn w a c else w) := by
  induction items with
  | nil => rfl
  | cons b items ih =>
    rw [List.nodup_cons] at nodup
    obtain ⟨d, there, only⟩ := live b List.mem_cons_self
    have rest := ih nodup.2 fun b' mem => live b' (List.mem_cons_of_mem b mem)
    by_cases same : b = a
    · subst same
      obtain rfl := Option.some.inj (here.symm.trans there)
      have others : delChns n items (freeChn w b c) = .ok (items, freeChn w b c) := by
        apply delChns_others
        intro b' mem
        have differ : b' ≠ b := fun h => nodup.1 (h ▸ mem)
        obtain ⟨d', there', only'⟩ := live b' (List.mem_cons_of_mem b mem)
        exact ⟨d', (Function.update_of_ne differ ..).trans there', fun h => differ (only' h)⟩
      simp only [delChns, getChn_ok here, bind, Except.bind, number, ne_eq, not_true_eq_false, if_false,
        others, List.erase_cons_head, List.mem_cons_self, if_true]
    · have differ : d.chnno ≠ n := fun h => same (only h)
      have kept : (b :: items).erase a = b :: items.erase a := List.erase_cons_tail (by simpa using same)
      have mem : a ∈ b :: items ↔ a ∈ items := by simp [Ne.symm same]
      simp only [delChns, getChn_ok there, bind, Except.bind, differ, ne_eq, not_false_eq_true, if_true,
        rest, kept, mem]

/-- A channel is freed and out of its context's queue. -/
def dropChn (w : World) (a : Nat) (c : PitcherChn) (items : List Nat) : World :=
  { freeChn w a c with
    core := Function.update w.core c.core { w.core c.core with chns := some (items.erase a) } }

/-- A channel whose node was never allocated is not in its context's queue, and
stays. -/
theorem unregister_spec (sound : Sound w) (n : Nat) :
    ((∀ a c, w.chn a = some c → c.chnno ≠ n) ∧ pitcherUnregisterChn w n = .ok (.E_NOT_FOUND, w)) ∨
    ∃ a c items, w.chn a = some c ∧ c.chnno = n ∧ (w.core c.core).chns = some items ∧
      pitcherUnregisterChn w n = .ok (.OK, if a ∈ items then dropChn w a c items else w) := by
  rcases findChn_spec sound n with ⟨a, c, live, number, found⟩ | ⟨none_, missing⟩
  · obtain ⟨items, queue, nodup, there⟩ := sound.queued c.core
    refine .inr ⟨a, c, items, live, number, queue, ?_⟩
    have deleted := @delChns_spec w a c n items nodup (fun b mem => by
      obtain ⟨d, known, _⟩ := there b mem
      exact ⟨d, known, fun h => sound.distinct b a d c known live (h.trans number.symm)⟩) live number
    simp only [pitcherUnregisterChn, found, getChn_ok live, queue, deleted, bind, Except.bind]
    by_cases mem : a ∈ items
    · simp only [mem, if_true, dropChn]
      rfl
    · have same : items.erase a = items := List.erase_of_not_mem mem
      have back : Function.update w.core c.core { w.core c.core with chns := some items } = w.core := by
        rw [← queue]
        exact Function.update_eq_self ..
      simp only [mem, if_false, same, back]
  · exact .inl ⟨none_, by simp only [pitcherUnregisterChn, missing, bind, Except.bind]⟩

theorem dropChn_chn {items : List Nat} {b : Nat} {d : PitcherChn} :
    (dropChn w a c items).chn b = some d ↔ b ≠ a ∧ w.chn b = some d := by
  simp only [dropChn, freeChn]
  by_cases same : b = a
  · simp [same]
  · simp [same]

theorem dropChn_sound {items : List Nat} (sound : Sound w) (live : w.chn a = some c)
    (queue : (w.core c.core).chns = some items) : Sound (dropChn w a c items) := by
  constructor
  · intro b
    have there : b ∈ (dropChn w a c items).chns ↔ b ≠ a ∧ b ∈ w.chns := sound.nodup.mem_erase_iff
    simp only [there, sound.listed b, dropChn_chn, exists_and_left]
  · exact sound.nodup.erase a
  · intro b high
    obtain ⟨one, two, three⟩ := sound.below b high
    refine ⟨?_, ?_, three⟩
    · by_contra there
      obtain ⟨d, known⟩ := Option.ne_none_iff_exists'.mp there
      cases one.symm.trans (dropChn_chn.mp known).2
    · have off : b ≠ c.unit := by
        rintro rfl
        have low := sound.unit_address live
        exact Nat.lt_irrefl _ (Nat.lt_of_lt_of_le low high)
      exact (Function.update_of_ne off ..).trans two
  · intro b b' d d' one two same
    exact sound.distinct b b' d d' (dropChn_chn.mp one).2 (dropChn_chn.mp two).2 same
  · intro b d there
    obtain ⟨differ, known⟩ := dropChn_chn.mp there
    obtain ⟨low, mark⟩ := sound.marked b d known
    refine ⟨low, (putChnno_marked (sound.marked a c live).1 _).mpr ⟨?_, mark⟩⟩
    exact fun same => differ (sound.distinct b a d c known live same)
  · intro k
    obtain ⟨items', known, nodup, there⟩ := sound.queued k
    by_cases here : k = c.core
    · subst here
      obtain rfl := Option.some.inj (queue.symm.trans known)
      refine ⟨items.erase a, ?_, nodup.erase a, ?_⟩
      · simp only [dropChn, Function.update_self]
      · intro b mem
        obtain ⟨differ, inside⟩ := nodup.mem_erase_iff.mp mem
        obtain ⟨d, alive, core⟩ := there b inside
        exact ⟨d, dropChn_chn.mpr ⟨differ, alive⟩, core⟩
    · refine ⟨items', ?_, nodup, ?_⟩
      · simpa only [dropChn, Function.update_of_ne here] using known
      · intro b mem
        obtain ⟨d, alive, core⟩ := there b mem
        refine ⟨d, dropChn_chn.mpr ⟨?_, alive⟩, core⟩
        rintro rfl
        cases live.symm.trans alive
        exact here core.symm
  · intro b d there
    obtain ⟨differ, known⟩ := dropChn_chn.mp there
    obtain ⟨u, unit⟩ := sound.units b d known
    have off : d.unit ≠ c.unit := fun same => differ (sound.apart b a d c known live same)
    exact ⟨u, (Function.update_of_ne off ..).trans unit⟩
  · intro b b' d d' one two same
    exact sound.apart b b' d d' (dropChn_chn.mp one).2 (dropChn_chn.mp two).2 same

/-! ## Numbers along a run -/

/-- The bitmap marks no number but those of the live channels. -/
def Exact (w : World) : Prop := ∀ n < 16384, Marked w.chnBitmap n → ∃ a c, w.chn a = some c ∧ c.chnno = n

structure Numbered (w : World) : Prop where
  distinct : ∀ a b c d, w.chn a = some c → w.chn b = some d → c.chnno = d.chnno → a = b
  found : ∀ n a, findChn w n = .ok (some a) ↔ ∃ c, w.chn a = some c ∧ c.chnno = n
  missing : ∀ n, findChn w n = .ok none ↔ ∀ a c, w.chn a = some c → c.chnno ≠ n
  exact : ∀ n < 16384, Marked w.chnBitmap n ↔ ∃ a c, w.chn a = some c ∧ c.chnno = n

theorem numbered_of (sound : Sound w) (exact_ : Exact w) : Numbered w where
  distinct := sound.distinct
  found n a := by
    constructor
    · intro found
      rcases findChn_spec sound n with ⟨b, d, live, number, other⟩ | ⟨_, missing⟩
      · obtain rfl : b = a := by simpa using other.symm.trans found
        exact ⟨d, live, number⟩
      · cases missing.symm.trans found
    · rintro ⟨c, live, rfl⟩
      exact findChn_of_live sound live
  missing n := by
    constructor
    · intro missing
      rcases findChn_spec sound n with ⟨b, d, _, _, other⟩ | ⟨none_, _⟩
      · cases other.symm.trans missing
      · exact none_
    · intro none_
      rcases findChn_spec sound n with ⟨b, d, live, number, _⟩ | ⟨_, missing⟩
      · exact absurd number (none_ b d live)
      · exact missing
  exact n small := by
    constructor
    · exact exact_ n small
    · rintro ⟨a, c, live, rfl⟩
      exact (sound.marked a c live).2

/-- All numbers are taken, so there are as many channels as numbers. -/
theorem full_live (sound : Sound w) (exact_ : Exact w) (full : ∀ n < 16384, Marked w.chnBitmap n) :
    w.chns.length = 16384 := by
  have number (a : Nat) (mem : a ∈ w.chns) : ∃ c, w.chn a = some c := (sound.listed a).mp mem
  have value {a : Nat} {c : PitcherChn} (live : w.chn a = some c) : ((w.chn a).map (·.chnno)).getD 0 = c.chnno := by
    rw [live]
    rfl
  have nodup : (w.chns.map fun a => ((w.chn a).map (·.chnno)).getD 0).Nodup := by
    apply List.Nodup.map_on _ sound.nodup
    intro a mem b mem' same
    obtain ⟨c, live⟩ := number a mem
    obtain ⟨d, live'⟩ := number b mem'
    rw [value live, value live'] at same
    exact sound.distinct a b c d live live' same
  have perm : (w.chns.map fun a => ((w.chn a).map (·.chnno)).getD 0).Perm (List.range 16384) := by
    rw [List.perm_ext_iff_of_nodup nodup List.nodup_range]
    intro n
    simp only [List.mem_map, List.mem_range]
    constructor
    · rintro ⟨a, mem, rfl⟩
      obtain ⟨c, live⟩ := number a mem
      rw [value live]
      exact (sound.marked a c live).1
    · intro small
      obtain ⟨a, c, live, same⟩ := exact_ n small (full n small)
      exact ⟨a, (sound.listed a).mpr ⟨c, live⟩, (value live).trans same⟩
  simpa only [List.length_map, List.length_range] using perm.length_eq

def Call.registers : Call → Prop
  | .register _ _ _ | .unregister _ => True
  | .connect _ _ _ | .disconnect _ _ => False

/-- A registration or its undoing, and what it returns. -/
def Registering (w : World) (event : Call × Answer) (w' : World) : Prop :=
  event.1.registers ∧ Step w event w'

/-- The numbers behind a call are those of the live channels. `RET_E_FULL` means
that all are taken, and a registration that fails leaves what there was. -/
def NumbersMet (w : World) (event : Call × Answer) (w' : World) : Prop :=
  Numbered w' ∧
    match event with
    | (.register core _ _, .ret code) =>
      (code = .E_FULL → w.chns.length = 16384) ∧ w'.chnBitmap = w.chnBitmap ∧ w'.chns = w.chns ∧
        (w'.core core).chns = (w.core core).chns
    | _ => True

theorem addChn_exact {bitmap : Nat → BitVec 64} (core : Nat) (items : List Nat) (unit : PitcherUnit)
    (node : Bool) (sound : Sound w) (exact_ : Exact w)
    (got : getChnno w.chnBitmap = (some n, bitmap)) :
    Exact (addChn { w with chnBitmap := bitmap } core n items unit node) := by
  obtain ⟨_, _, marks⟩ := getChnno_some got
  intro m small mark
  rcases (marks m).mp mark with rfl | old
  · exact ⟨w.allocs, _, Function.update_self .., rfl⟩
  · obtain ⟨a, c, live, number⟩ := exact_ m small old
    exact ⟨a, c, (Function.update_of_ne (Nat.ne_of_lt (sound.address live)) ..).trans live, number⟩

theorem dropChn_exact {items : List Nat} (sound : Sound w) (exact_ : Exact w) (live : w.chn a = some c) :
    Exact (dropChn w a c items) := by
  intro m small mark
  obtain ⟨differ, old⟩ := (putChnno_marked (sound.marked a c live).1 m).mp mark
  obtain ⟨b, d, there, number⟩ := exact_ m small old
  refine ⟨b, d, dropChn_chn.mpr ⟨?_, there⟩, number⟩
  rintro rfl
  cases live.symm.trans there
  exact differ number.symm

theorem registering_kept {event : Call × Answer} (sound : Sound w) (exact_ : Exact w)
    (step : Registering w event w') :
    (NumbersMet w event w' ↔ ¬ Loses w event.1) ∧ (¬ Loses w event.1 → Sound w' ∧ Exact w') := by
  obtain ⟨call, answer⟩ := event
  obtain ⟨only, taken⟩ := step
  have numbers := numbered_of sound exact_
  cases call with
  | connect => exact only.elim
  | disconnect => exact only.elim
  | register core desc luck =>
    simp only [Step, exec] at taken
    rcases register_cases w core desc luck with ⟨full, result⟩ | ⟨n, bitmap, got, result⟩
    · rw [result] at taken
      cases taken
      have kept : ¬ Loses w (.register core desc luck) := fun ⟨⟨m, small, free⟩, _⟩ => free (full m small)
      refine ⟨iff_of_true ⟨numbers, ?_⟩ kept, fun _ => ⟨sound, exact_⟩⟩
      exact ⟨fun _ => full_live sound exact_ full, rfl, rfl, rfl⟩
    · obtain ⟨small, free, marks⟩ := getChnno_some got
      rcases result with ⟨loses, code, _, _, result⟩ | ⟨kept, items, unit, queue, _, result⟩
      · rw [result] at taken
        cases taken
        refine ⟨iff_of_false ?_ (not_not.mpr loses), fun kept => absurd loses kept⟩
        rintro ⟨_, _, same, _⟩
        have mark : Marked bitmap n := (marks n).mpr (.inl rfl)
        rw [show bitmap = w.chnBitmap from same] at mark
        exact free mark
      · rw [result] at taken
        cases taken
        have sound' := addChn_sound unit luck.node sound got queue
        have exact' := addChn_exact core items unit luck.node sound exact_ got
        exact ⟨iff_of_true ⟨numbered_of sound' exact', trivial⟩ kept, fun _ => ⟨sound', exact'⟩⟩
  | unregister chnno =>
    simp only [Step, exec] at taken
    have met {w' : World} (sound' : Sound w') (exact' : Exact w') (answer : Answer) :
        (NumbersMet w (.unregister chnno, answer) w' ↔ ¬ Loses w (.unregister chnno)) ∧
          (¬ Loses w (.unregister chnno) → Sound w' ∧ Exact w') :=
      ⟨iff_of_true ⟨numbered_of sound' exact', trivial⟩ id, fun _ => ⟨sound', exact'⟩⟩
    rcases unregister_spec sound chnno with ⟨_, result⟩ | ⟨a, c, items, live, _, queue, result⟩
    · simp only [result, bind, Except.bind] at taken
      cases taken
      exact met sound exact_ _
    · simp only [result, bind, Except.bind] at taken
      cases taken
      by_cases mem : a ∈ items
      · simp only [if_pos mem]
        exact met (dropChn_sound sound live queue) (dropChn_exact sound exact_ live) _
      · simp only [if_neg mem]
        exact met sound exact_ _

/-- No call of the two touches freed memory. -/
theorem registering_runs (sound : Sound w) {call : Call} (only : call.registers) :
    ∃ answer w', Registering w (call, answer) w' := by
  cases call with
  | connect => exact only.elim
  | disconnect => exact only.elim
  | register core desc luck =>
    cases result : pitcherRegisterChn w core desc luck with
    | mk ret w' =>
      cases ret with
      | ok chnno => exact ⟨.number chnno, w', trivial, by simp only [Step, exec, result]⟩
      | error code => exact ⟨.ret code, w', trivial, by simp only [Step, exec, result]⟩
  | unregister chnno =>
    rcases unregister_spec sound chnno with ⟨_, result⟩ | ⟨a, c, items, _, _, _, result⟩
    · exact ⟨_, _, trivial, by simp only [Step, exec, result, bind, Except.bind]; rfl⟩
    · exact ⟨_, _, trivial, by simp only [Step, exec, result, bind, Except.bind]; rfl⟩

/-- Over any registrations and their undoing the numbers are met as long as, and
no longer than, no registration fails once it has taken a number. -/
theorem numbers_met_iff (events : List (Call × Answer)) (w : World) :
    (Run (Only Registering NumbersMet) {} events w ↔
      Run (Only Registering fun w event _ => ¬ Loses w event.1) {} events w) ∧
    (Run (Only Registering fun w event _ => ¬ Loses w event.1) {} events w →
      ∀ call : Call, call.registers → ∃ answer w', Registering w (call, answer) w') := by
  have start : Sound {} ∧ Exact {} := ⟨start_sound, fun n _ mark => by simp [Marked] at mark⟩
  have kept : ∀ w event w', Sound w ∧ Exact w → Registering w event w' → ¬ Loses w event.1 →
      Sound w' ∧ Exact w' :=
    fun w event w' inv step fine => (registering_kept inv.1 inv.2 step).2 fine
  constructor
  · apply Run.judged_iff _ _ kept start
    exact fun w event w' inv step => (registering_kept inv.1 inv.2 step).1
  · intro run call only
    have inv := run.invariant (fun w event w' inv step => kept w event w' inv step.1 step.2) start
    exact registering_runs inv.1 only

/-- A unit's callback fails, and number 0 stays taken without a channel. -/
theorem failed_init_keeps_number : ¬ ∀ events w, Run Registering {} events w →
    Run (Only Registering NumbersMet) {} events w := by
  intro claim
  have step : Registering {} (.register 0 (some { init := some (-1) }) {}, .ret .E_INVAL)
      { chnBitmap := Function.update (fun _ => 0) 0 (0 ||| 1#64 <<< 0) } := ⟨trivial, rfl⟩
  have run := claim _ _ (.next step (.stay _))
  cases run with
  | next met _ =>
    cases met.1.2.symm.trans step.2
    obtain ⟨a, c, live, _⟩ := (met.2.1.exact 0 (by omega)).mp (by decide)
    cases live

end ImxTest.Pitcher.Core
