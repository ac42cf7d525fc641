import Mathlib.Data.List.TakeDrop
import Mathlib.Tactic.Common

/-! The formatter of etm.c: frames of 16 bytes that several trace sources share. -/
namespace ImxTest.Etm

abbrev Byte := BitVec 8

/-- What the decoder is told of the trace. -/
structure Config where
  contextidBytes : Nat := 4
  sourceidMatch : BitVec 32 := 0
  cycleAccurate : Bool := true
  altBranch : Bool := false
  programFlowOnly : Bool := false
  formatter : Bool := false
  longWait : BitVec 32 := 1000000
deriving DecidableEq, Repr

/-- Where the bytes come from: what `getchar` is to give, and the frame that is being read. -/
structure Source where
  input : List Byte
  packet : List Byte := List.replicate 16 0
  index : Fin 15 := 0
  sourceid : Nat := 0
  /-- The sources that are announced, each with the bit that goes with it. -/
  news : List (Nat × Bool) := []
deriving DecidableEq, Repr

/-- Nothing to read. -/
def Source.empty : Source := { input := [] }

/-- A bit of the last byte goes with each even place. -/
def Source.ebit (s : Source) : Bool := (s.packet.getD 15 0).getLsbD (s.index / 2)

/-- `formatter_packet` is filled at the beginning of a frame. -/
def Source.fill (s : Source) : Option Source :=
  if s.index = 0 then
    if s.input.length < 16 then none
    else some { s with packet := s.input.take 16, input := s.input.drop 16 }
  else some s

/-- How much there is to read. -/
def Source.left (s : Source) : Nat := 15 * s.input.length + (15 - s.index) % 15

theorem Source.fill_left {s t u : Source} (filled : s.fill = some t) (index : u.index = t.index + 1)
    (input : u.input = t.input) : u.left < s.left := by
  unfold fill at filled
  unfold left
  rw [index, input]
  split_ifs at filled with start short
  · obtain rfl := Option.some.inj filled
    rw [List.length_drop]
    dsimp only
    rw [start]
    omega
  · obtain rfl := Option.some.inj filled
    have next : ((s.index + 1 : Fin 15) : Nat) = (s.index + 1) % 15 := Fin.val_add _ _
    have positive : (s.index : Nat) ≠ 0 := fun zero => start (Fin.ext zero)
    have bound := s.index.isLt
    omega

/-- The sources that are asked for. -/
def Config.wants (cfg : Config) (sourceid : Nat) : Bool := (1 <<< sourceid) &&& cfg.sourceidMatch ≠ 0

/-- `sourceid` is the local variable. -/
def getByteFromFormatter (cfg : Config) (s : Source) (sourceid : Nat) : Option Byte × Source :=
  match _filled : s.fill with
  | none => (none, { s with input := [] })
  | some t =>
    let ch := t.packet.getD t.index 0
    let next := { t with index := t.index + 1 }
    if (t.index : Nat) % 2 = 0 then
      if ch.getLsbD 0 then
        let id := (ch >>> 1).toNat
        if t.sourceid ≠ id then
          getByteFromFormatter cfg { next with sourceid := id, news := t.news ++ [(id, t.ebit)] }
            (if t.ebit then sourceid else id)
        else getByteFromFormatter cfg next sourceid
      else
        let ch := ch ||| (BitVec.ofBool t.ebit).setWidth 8
        if cfg.wants sourceid then (some ch, next) else getByteFromFormatter cfg next t.sourceid
    else
      if cfg.wants sourceid then (some ch, next) else getByteFromFormatter cfg next t.sourceid
termination_by s.left
decreasing_by all_goals exact Source.fill_left ‹_› rfl rfl

/-- One byte for the decoder. -/
def getchar (cfg : Config) (s : Source) : Option Byte × Source :=
  if cfg.formatter then getByteFromFormatter cfg s s.sourceid
  else
    match s.input with
    | [] => (none, s)
    | ch :: input => (some ch, { s with input })

/-- One call after the other gives these bytes, and then none. -/
def Yields (cfg : Config) (s : Source) : List Byte → Prop
  | [] => (getchar cfg s).1 = none
  | b :: bytes => (getchar cfg s).1 = some b ∧ Yields cfg (getchar cfg s).2 bytes

theorem yields_input {cfg : Config} (plain : cfg.formatter = false) (s : Source) : Yields cfg s s.input := by
  obtain ⟨input, packet, index, sourceid, news⟩ := s
  induction input with
  | nil => simp [Yields, getchar, plain]
  | cons ch input ih => simpa [Yields, getchar, plain] using ih

/-! ## Frames -/

/-- What a frame has at an even place: a byte of data, or the source of what follows. A late one
counts from behind the next byte on. -/
inductive Even where
  | data (b : Byte)
  | source (id : Fin 32) (late : Bool)
deriving DecidableEq, Repr

def Even.byte : Even → Byte
  | .data b => b &&& 0xFE
  | .source id _ => .ofNat 8 (2 * id + 1)

def Even.bit : Even → Bool
  | .data b => b.getLsbD 0
  | .source _ late => late

structure Frame where
  pairs : List (Even × Byte)
  last : Even
  seven : pairs.length = 7
  /-- There is no byte behind it in the frame. -/
  atOnce : ∀ id, last ≠ .source id true

namespace Frame

def evens (frame : Frame) : List Even := frame.pairs.map Prod.fst ++ [frame.last]

def places (frame : Frame) : List Byte := frame.pairs.flatMap (fun pair => [pair.1.byte, pair.2]) ++ [frame.last.byte]

def bits (frame : Frame) : Byte := (BitVec.ofBoolListLE (frame.evens.map Even.bit)).setWidth 8

def bytes (frame : Frame) : List Byte := frame.places ++ [frame.bits]

end Frame

/-- The bytes of pairs with the source of each, and the source at the end. -/
def unpack (id : Nat) : List (Even × Byte) → List (Nat × Byte) × Nat
  | [] => ([], id)
  | (.data b, c) :: pairs => let (bytes, last) := unpack id pairs; ((id, b) :: (id, c) :: bytes, last)
  | (.source id' late, c) :: pairs =>
    let (bytes, last) := unpack id' pairs
    ((if late then id else id', c) :: bytes, last)

def Frame.unpack (id : Nat) (frame : Frame) : List (Nat × Byte) × Nat :=
  let (bytes, id) := Etm.unpack id frame.pairs
  match frame.last with
  | .data b => (bytes ++ [(id, b)], id)
  | .source id' _ => (bytes, id')

theorem Even.source_byte (id : Fin 32) (late : Bool) :
    (Even.source id late).byte.getLsbD 0 = true ∧ ((Even.source id late).byte >>> 1).toNat = id := by
  cases late <;> revert id <;> decide

theorem Even.data_byte (b : Byte) : (Even.data b).byte.getLsbD 0 = false ∧
    (Even.data b).byte ||| (BitVec.ofBool (Even.data b).bit).setWidth 8 = b := by
  revert b
  decide

section Turns
variable {cfg : Config} {s t : Source} {now : Nat}

variable (cfg) in
theorem turn_source {id : Fin 32} {late : Bool} (filled : s.fill = some t) (even : (t.index : Nat) % 2 = 0)
    (byte : t.packet.getD t.index 0 = (Even.source id late).byte) (bit : t.ebit = late)
    (current : t.sourceid = now) : ∃ u : Source, getByteFromFormatter cfg s now =
      getByteFromFormatter cfg u (if late then now else id) ∧
      u.index = t.index + 1 ∧ u.packet = t.packet ∧ u.input = t.input ∧ u.sourceid = id := by
  obtain ⟨flag, number⟩ := Even.source_byte id late
  rw [getByteFromFormatter]
  split
  · rename_i empty
    cases empty.symm.trans filled
  · rename_i t' filled'
    obtain rfl := Option.some.inj (filled'.symm.trans filled)
    simp only [if_pos even, byte, flag, if_true, number, bit]
    by_cases same : t'.sourceid = id
    · rw [if_neg (by simpa using same)]
      refine ⟨{ t' with index := t'.index + 1 }, ?_, rfl, rfl, rfl, same⟩
      rw [← same, current, ite_self]
    · rw [if_pos same]
      exact ⟨_, rfl, rfl, rfl, rfl, rfl⟩

theorem turn_byte {b : Byte} (filled : s.fill = some t)
    (byte : (t.index : Nat) % 2 = 0 ∧ t.packet.getD t.index 0 = (Even.data b).byte ∧ t.ebit = (Even.data b).bit ∨
      (t.index : Nat) % 2 = 1 ∧ t.packet.getD t.index 0 = b) :
    getByteFromFormatter cfg s now =
      if cfg.wants now then (some b, { t with index := t.index + 1 })
      else getByteFromFormatter cfg { t with index := t.index + 1 } t.sourceid := by
  rw [getByteFromFormatter]
  split
  · rename_i empty
    cases empty.symm.trans filled
  · rename_i t' filled'
    obtain rfl := Option.some.inj (filled'.symm.trans filled)
    obtain ⟨even, byte, bit⟩ | ⟨odd, byte⟩ := byte
    · obtain ⟨flag, whole⟩ := Even.data_byte b
      simp only [if_pos even, byte, flag, bit, whole, Bool.false_eq_true, if_false]
    · have uneven : ¬(t'.index : Nat) % 2 = 0 := by omega
      simp only [if_neg uneven, byte]

end Turns

/-- The same in the middle of a call. -/
def Gives (cfg : Config) (s : Source) (now : Nat) : List Byte → Prop
  | [] => (getByteFromFormatter cfg s now).1 = none
  | b :: bytes => (getByteFromFormatter cfg s now).1 = some b ∧
      Yields cfg (getByteFromFormatter cfg s now).2 bytes

/-- The bytes of the sources that are asked for. -/
def Config.select (cfg : Config) (bytes : List (Nat × Byte)) : List Byte :=
  (bytes.filter fun b => cfg.wants b.1).map Prod.snd

theorem select_append (cfg : Config) (xs ys : List (Nat × Byte)) :
    cfg.select (xs ++ ys) = cfg.select xs ++ cfg.select ys := by
  simp [Config.select]

theorem unpack_cons (id : Nat) (pair : Even × Byte) (pairs : List (Even × Byte)) : unpack id (pair :: pairs) =
    ((unpack id [pair]).1 ++ (unpack (unpack id [pair]).2 pairs).1, (unpack (unpack id [pair]).2 pairs).2) := by
  obtain ⟨_ | _, c⟩ := pair <;> rfl

section Frames
variable {cfg : Config} {s t : Source} {now : Nat} {bytes : List Byte}

theorem yields_iff (formatted : cfg.formatter = true) : Yields cfg s bytes ↔ Gives cfg s s.sourceid bytes := by
  cases bytes <;> simp [Yields, Gives, getchar, formatted]

theorem gives_congr {u : Source} {now' : Nat}
    (same : getByteFromFormatter cfg s now = getByteFromFormatter cfg u now') :
    Gives cfg s now bytes ↔ Gives cfg u now' bytes := by
  cases bytes <;> simp only [Gives, same]

/-- A byte of a source is given when the source is asked for. -/
theorem gives_byte (formatted : cfg.formatter = true) {b : Byte} (turn : getByteFromFormatter cfg s now =
      if cfg.wants now then (some b, t) else getByteFromFormatter cfg t t.sourceid) :
    Gives cfg s now (cfg.select [(now, b)] ++ bytes) ↔ Gives cfg t t.sourceid bytes := by
  by_cases wanted : cfg.wants now
  · have picked : cfg.select [(now, b)] ++ bytes = b :: bytes := by simp [Config.select, wanted]
    rw [if_pos wanted] at turn
    simp only [picked, Gives, turn, true_and]
    exact yields_iff formatted
  · have picked : cfg.select [(now, b)] ++ bytes = bytes := by simp [Config.select, wanted]
    rw [if_neg wanted] at turn
    rw [picked]
    exact gives_congr turn

theorem pairs_places {pairs : List (Even × Byte)} {j : Nat} {pair : Even × Byte} (there : pairs[j]? = some pair)
    (rest : List Byte) :
    ((pairs.flatMap fun pair => [pair.1.byte, pair.2]) ++ rest).getD (2 * j) 0 = pair.1.byte ∧
    ((pairs.flatMap fun pair => [pair.1.byte, pair.2]) ++ rest).getD (2 * j + 1) 0 = pair.2 := by
  induction j generalizing pairs with
  | zero =>
      cases pairs with
      | nil => simp at there
      | cons head pairs =>
          obtain rfl : head = pair := by simpa using there
          simp
  | succ j ih =>
      cases pairs with
      | nil => simp at there
      | cons head pairs => simpa [Nat.mul_succ, List.getD_eq_getElem?_getD] using ih (by simpa using there)

theorem pairs_length (pairs : List (Even × Byte)) :
    (pairs.flatMap fun pair => [pair.1.byte, pair.2]).length = 2 * pairs.length := by
  induction pairs with
  | nil => rfl
  | cons pair pairs ih =>
      rw [List.flatMap_cons, List.length_append, ih, List.length_cons]
      simp only [List.length_cons, List.length_nil]
      omega

theorem Frame.places_length (frame : Frame) : frame.places.length = 15 := by
  rw [Frame.places, List.length_append, pairs_length, frame.seven]
  rfl

theorem Frame.bytes_length (frame : Frame) : frame.bytes.length = 16 := by
  rw [Frame.bytes, List.length_append, frame.places_length]
  rfl

theorem Frame.bytes_bits (frame : Frame) : frame.bytes.getD 15 0 = frame.bits := by
  rw [Frame.bytes, List.getD_eq_getElem?_getD, List.getElem?_append_right (Nat.le_of_eq frame.places_length),
    frame.places_length]
  rfl

theorem Frame.bits_even {frame : Frame} {j : Nat} {e : Even} (there : frame.evens[j]? = some e) :
    frame.bits.getLsbD j = e.bit := by
  have inside := (List.getElem?_eq_some_iff.mp there).1
  have few : frame.evens.length = 8 := by rw [Frame.evens, List.length_append, List.length_map, frame.seven]; rfl
  rw [Frame.bits, BitVec.getLsbD_setWidth, decide_eq_true (few ▸ inside), BitVec.getLsbD_ofBoolListLE]
  simp [List.getD_eq_getElem?_getD, there]

/-- At a place of a frame that is being read. -/
def At (frame : Frame) (rest : List Byte) (k : Nat) (s : Source) : Prop :=
  ∃ t, s.fill = some t ∧ t.packet = frame.bytes ∧ t.input = rest ∧ (t.index : Nat) = k ∧ t.sourceid = s.sourceid

theorem at_next {frame : Frame} {rest : List Byte} {k : Nat} {u : Source} (packet : u.packet = frame.bytes)
    (input : u.input = rest) (index : (u.index : Nat) = k) (inside : k ≠ 0) : At frame rest k u := by
  have going : u.fill = some u := by
    unfold Source.fill
    rw [if_neg fun zero => inside (by rw [← index, zero]; rfl)]
  exact ⟨u, going, packet, input, index, rfl⟩

section Places
variable {frame : Frame} {rest : List Byte} {k j : Nat} {e : Even} {b c : Byte}

theorem At.byte (formatted : cfg.formatter = true) (here : At frame rest k s)
    (byte : k % 2 = 0 ∧ frame.bytes.getD k 0 = (Even.data b).byte ∧ frame.bits.getLsbD (k / 2) = (Even.data b).bit ∨
      k % 2 = 1 ∧ frame.bytes.getD k 0 = b) :
    ∃ u : Source, (u.packet = frame.bytes ∧ u.input = rest ∧ (u.index : Nat) = (k + 1) % 15) ∧
      u.sourceid = s.sourceid ∧
      ∀ now bytes, Gives cfg u u.sourceid bytes → Gives cfg s now (cfg.select [(now, b)] ++ bytes) := by
  obtain ⟨t, filled, packet, input, index, same⟩ := here
  refine ⟨{ t with index := t.index + 1 }, ⟨packet, input, ?_⟩, same, fun now bytes gives => ?_⟩
  · rw [← index]
    exact Fin.val_add _ _
  · refine (gives_byte formatted (turn_byte filled ?_)).mpr gives
    rwa [Source.ebit, packet, frame.bytes_bits, index]

variable (cfg) in
theorem At.source (here : At frame rest k s) {id : Fin 32} {late : Bool} (even : k % 2 = 0)
    (byte : frame.bytes.getD k 0 = (Even.source id late).byte) (bit : frame.bits.getLsbD (k / 2) = late) :
    ∃ u : Source, (u.packet = frame.bytes ∧ u.input = rest ∧ (u.index : Nat) = (k + 1) % 15) ∧ u.sourceid = id ∧
      ∀ bytes, Gives cfg u (if late then s.sourceid else id) bytes → Gives cfg s s.sourceid bytes := by
  obtain ⟨t, filled, packet, input, index, same⟩ := here
  have bit' : t.ebit = late := by rwa [Source.ebit, packet, frame.bytes_bits, index]
  have byte' : t.packet.getD t.index 0 = (Even.source id late).byte := by rwa [packet, index]
  obtain ⟨u, turn, next, packet', input', id'⟩ := turn_source cfg filled (by rwa [index]) byte' bit' same
  refine ⟨u, ⟨packet'.trans packet, input'.trans input, ?_⟩, id', fun bytes gives => (gives_congr turn).mpr gives⟩
  rw [next, ← index]
  exact Fin.val_add _ _

/-- One pair of a frame. -/
theorem At.pair (formatted : cfg.formatter = true) (here : At frame rest (2 * j) s)
    (there : frame.pairs[j]? = some (e, c)) :
    ∃ u, At frame rest (2 * (j + 1)) u ∧ u.sourceid = (unpack s.sourceid [(e, c)]).2 ∧ ∀ bytes,
      Gives cfg u u.sourceid bytes → Gives cfg s s.sourceid (cfg.select (unpack s.sourceid [(e, c)]).1 ++ bytes) := by
  have inside := (List.getElem?_eq_some_iff.mp there).1
  rw [frame.seven] at inside
  have places := pairs_places there ([frame.last.byte] ++ [frame.bits])
  rw [← List.append_assoc] at places
  have bit : frame.bits.getLsbD j = e.bit := by
    apply Frame.bits_even
    rw [Frame.evens, List.getElem?_append_left (by simpa [frame.seven] using inside), List.getElem?_map, there]
    rfl
  have half : 2 * j / 2 = j := Nat.mul_div_cancel_left j (by decide)
  have even : 2 * j % 2 = 0 := Nat.mul_mod_right 2 j
  -- the byte at the odd place
  have odd (v : Source) (packet : v.packet = frame.bytes) (input : v.input = rest)
      (index : (v.index : Nat) = (2 * j + 1) % 15) : ∃ u, At frame rest (2 * (j + 1)) u ∧ u.sourceid = v.sourceid ∧
        ∀ now bytes, Gives cfg u u.sourceid bytes → Gives cfg v now (cfg.select [(now, c)] ++ bytes) := by
    have at_ : At frame rest (2 * j + 1) v := at_next packet input (by omega) (by omega)
    obtain ⟨u, ⟨packet, input, index⟩, same, gives⟩ := at_.byte formatted (b := c) (.inr ⟨by omega, places.2⟩)
    exact ⟨u, at_next packet input (by omega) (by omega), same, gives⟩
  cases e with
  | data b =>
      obtain ⟨v, ⟨packet, input, index⟩, same, first⟩ := here.byte formatted (b := b)
        (.inl ⟨even, places.1, by rw [half]; exact bit⟩)
      obtain ⟨u, at_, same', second⟩ := odd v packet input index
      refine ⟨u, at_, same'.trans same, fun bytes gives => ?_⟩
      have both := first s.sourceid _ (second v.sourceid bytes gives)
      rwa [same, ← List.append_assoc, ← select_append] at both
  | source id late =>
      obtain ⟨v, ⟨packet, input, index⟩, same, first⟩ := here.source cfg even places.1 (by rw [half]; exact bit)
      obtain ⟨u, at_, same', second⟩ := odd v packet input index
      refine ⟨u, at_, same'.trans same, fun bytes gives => ?_⟩
      exact first _ (second _ bytes gives)

theorem At.pairs (formatted : cfg.formatter = true) (here : At frame rest (2 * j) s) (inside : j ≤ 7) :
    ∃ u, At frame rest 14 u ∧ u.sourceid = (unpack s.sourceid (frame.pairs.drop j)).2 ∧ ∀ bytes,
      Gives cfg u u.sourceid bytes →
        Gives cfg s s.sourceid (cfg.select (unpack s.sourceid (frame.pairs.drop j)).1 ++ bytes) := by
  induction left : 7 - j generalizing j s with
  | zero =>
      obtain rfl : j = 7 := by omega
      rw [List.drop_eq_nil_of_le (Nat.le_of_eq frame.seven)]
      exact ⟨s, here, rfl, fun bytes gives => gives⟩
  | succ n ih =>
      have short : j < frame.pairs.length := by
        rw [frame.seven]
        omega
      rw [List.drop_eq_getElem_cons short, unpack_cons]
      obtain ⟨u, next, same, gives⟩ := here.pair formatted (List.getElem?_eq_getElem short)
      obtain ⟨v, end_, same', gives'⟩ := ih next (by omega) (by omega)
      rw [same] at same' gives'
      refine ⟨v, end_, same', fun bytes given => ?_⟩
      rw [select_append, List.append_assoc]
      exact gives _ (same ▸ gives' bytes given)

end Places

end Frames

/-- Two sources in a frame, the second one from behind the next byte on. -/
def shared : Frame where
  pairs := [(.source 1 false, 0xA0), (.data 0xA1, 0xA2), (.source 2 true, 0xA3), (.data 0xB0, 0xB1),
    (.data 0xB2, 0xB3), (.source 1 false, 0xA4), (.data 0xA5, 0xA6)]
  last := .data 0xA7
  seven := rfl
  atOnce := nofun

end ImxTest.Etm
