import ImxTest.Lib.Wrap
import ImxTest.Vpu.Udp

/-! Feeding the decoder's ring of mxc_vpu_test/dec.c. -/
namespace ImxTest.Vpu.Dec
open Lib.Runs Lib.Wrap

/-- What `vpu_read` answers. -/
inductive Answer where
  | data (bs : List UInt8)
  | eof
  | again
  | failed

def Answer.nread : Answer → Int
  | .data bs => bs.length
  | .eof => 0
  | .again => -EAGAIN
  | .failed => -1

/-- An answer to a request for `n` bytes. -/
def Answer.Fits (n : Nat) : Answer → Prop
  | .data bs => 0 < bs.length ∧ bs.length ≤ n
  | _ => True

/-- What a result of `vpu_read` is to its caller. -/
def answer (ret : Int) (buf : List UInt8) : Answer :=
  if 0 < ret then .data (buf.take ret.toNat)
  else if ret = 0 then .eof
  else if ret = -EAGAIN then .again
  else .failed

theorem answer_fits {n : Nat} {ret : Int} {buf : List UInt8} (most : buf.length ≤ n)
    (success : 0 < ret → ret = buf.length) : (answer ret buf).Fits n := by
  rw [answer]
  split
  next positive =>
    have all := success positive
    rw [all, Int.toNat_natCast, List.take_length]
    exact ⟨by omega, most⟩
  · split
    · trivial
    · split <;> trivial

theorem udpRecv_fits {complete : Bool} {n : Nat} {cmd : CmdLine} {events : List Event} {r : Received}
    (call : udpRecv complete cmd n events = some r) (all : r.rest = []) (sound : cmd.Sound) :
    (answer r.ret r.buf).Fits n := by
  have fed := udpRecv_fed call all sound
  exact answer_fits fed.most fun positive => fed.success (Int.le_of_lt positive)

theorem freadn_fits {n : Nat} {buf buf' : List UInt8} {answers : List (Option (List UInt8))}
    {ret : Int} (call : freadn n buf answers = some (ret, buf')) (start : buf.length ≤ n) :
    (answer ret buf').Fits n := by
  induction answers generalizing buf with
  | nil =>
    obtain ⟨-, rfl, rfl⟩ : n ≤ buf.length ∧ buf.length = ret ∧ buf = buf' := by
      simpa [freadn] using call
    exact answer_fits start fun _ => rfl
  | cons first rest ih =>
    rw [freadn.eq_def] at call
    simp only at call
    split at call
    · cases call
      exact answer_fits start fun _ => rfl
    next more =>
      match first, call with
      | none, rfl => exact answer_fits start (by simp)
      | some [], rfl => exact answer_fits start fun _ => rfl
      | some (b :: bs), call =>
        apply ih call
        rw [List.length_append, List.length_take]
        omega

/-- The ring, by offsets from its start, and the stream through it. -/
structure Decoder where
  mem : Nat → UInt8
  paWritePtr : Nat
  fillEndBs : Bool
  /-- The bytes `vpu_read` has returned. -/
  read : List UInt8
  /-- The bytes committed, and whether the end of the stream was signalled. -/
  committed : List UInt8
  ended : Bool

def Decoder.vpuRead (dec : Decoder) (target : Nat) : Answer → Decoder
  | .data bs => { dec with mem := store dec.mem target bs, read := dec.read ++ bs }
  | _ => dec

/-- `vpu_DecUpdateBitstreamBuffer`: `n` bytes from the write pointer on are
committed, none being the end of the stream. -/
def Decoder.update (dec : Decoder) (size n : Nat) : Decoder :=
  if n = 0 then { dec with ended := true }
  else
    { dec with
      committed := dec.committed ++ load size dec.mem dec.paWritePtr n
      paWritePtr := (dec.paWritePtr + n) % size }

/-- What a call of `dec_fill_bsbuffer` meets: the space reported, if any, what is
read, and whether the update succeeds. -/
structure Filling where
  space : Option Nat
  defaultsize : Int
  first : Answer
  second : Answer
  updates : Bool

/-- From the label `update` on. -/
def commit (size : Nat) (call : Filling) (dec : Decoder) (eos : Bool) (nread : Nat) : Int × Decoder :=
  if !eos then
    if !call.updates then (-1, dec)
    else (nread, { dec.update size nread with fillEndBs := false })
  else if !dec.fillEndBs then
    if !call.updates then (-1, dec)
    else (nread, { dec.update size 0 with fillEndBs := true })
  else (nread, dec)

/-- The size read, once there is enough space. -/
def Filling.size (call : Filling) (space : Nat) : Nat :=
  if call.defaultsize > 0 then call.defaultsize.toNat else space >>> 9 <<< 9

/-- `dec_fill_bsbuffer` on a ring of `ring` bytes. -/
def decFillBsbuffer (ring : Nat) (dec : Decoder) (call : Filling) : Int × Decoder :=
  match call.space with
  | none => (-1, dec)
  | some space =>
    if space = 0 then (0, dec)
    else if call.defaultsize > 0 ∧ space < call.defaultsize then (0, dec)
    else if call.size space = 0 then (0, dec)
    else if dec.paWritePtr + call.size space > ring then
      let room := ring - dec.paWritePtr
      let dec := dec.vpuRead dec.paWritePtr call.first
      match call.first with
      | .again => (0, dec)
      | .failed => (-1, dec)
      | .eof => commit ring call dec true 0
      | .data bs =>
        if bs.length ≠ room then commit ring call dec false bs.length
        else
          let dec := dec.vpuRead 0 call.second
          match call.second with
          | .again => (0, dec)
          | .failed => (-1, dec)
          | .eof => commit ring call dec true room
          | .data more => commit ring call dec false (more.length + room)
    else
      let dec := dec.vpuRead dec.paWritePtr call.first
      match call.first with
      | .again => (0, dec)
      | .failed => (-1, dec)
      | .eof => commit ring call dec true 0
      | .data bs => commit ring call dec false bs.length

/-- What the call may assume: `vpu_DecUpdateBitstreamBuffer` works, there is no
more space than the ring has, and `vpu_read` returns what was asked for at most. -/
structure Given (ring : Nat) (dec : Decoder) (call : Filling) : Prop where
  updates : call.updates = true
  space : ∀ space, call.space = some space → space ≤ ring
  first : ∀ space, call.space = some space →
    call.first.Fits (min (call.size space) (ring - dec.paWritePtr))
  second : ∀ space, call.space = some space →
    call.second.Fits (call.size space - (ring - dec.paWritePtr))

/-- A call reads up to the end of the ring, and past it. -/
def Wraps (ring : Nat) (dec : Decoder) (call : Filling) : Prop :=
  ∃ space, call.space = some space ∧ ¬(call.defaultsize > 0 ∧ space < call.defaultsize) ∧
    ring < dec.paWritePtr + call.size space

/-- A call gets all that fits in front of the end of the ring, and then nothing. -/
def Loses (ring : Nat) (dec : Decoder) (call : Filling) : Prop :=
  Wraps ring dec call ∧ (∃ bs, call.first = .data bs ∧ bs.length = ring - dec.paWritePtr) ∧
    ∀ more, call.second ≠ .data more

/-- What a call may do to the decoder. -/
inductive Does (ring : Nat) (dec : Decoder) (call : Filling) : Decoder → Prop where
  | nothing (keeps : ¬Loses ring dec call) : Does ring dec call dec
  | mark (keeps : ¬Loses ring dec call) :
    Does ring dec call { dec with ended := true, fillEndBs := true }
  | straight (keeps : ¬Loses ring dec call) {bs : List UInt8} (some_data : 0 < bs.length)
    (fits : dec.paWritePtr + bs.length ≤ ring) :
    Does ring dec call
      { (dec.vpuRead dec.paWritePtr (.data bs)).update ring bs.length with fillEndBs := false }
  | around (keeps : ¬Loses ring dec call) {bs more : List UInt8} (some_data : 0 < more.length)
    (last : dec.paWritePtr + bs.length = ring) (fits : more.length ≤ dec.paWritePtr) :
    Does ring dec call
      { ((dec.vpuRead dec.paWritePtr (.data bs)).vpuRead 0 (.data more)).update ring
          (more.length + (ring - dec.paWritePtr)) with fillEndBs := false }
  | lose (loses : Loses ring dec call) {bs : List UInt8} (some_data : 0 < bs.length) :
    Does ring dec call (dec.vpuRead dec.paWritePtr (.data bs))
  | loseMark (loses : Loses ring dec call) {bs : List UInt8} (some_data : 0 < bs.length) :
    Does ring dec call
      { dec.vpuRead dec.paWritePtr (.data bs) with ended := true, fillEndBs := true }

section Calls
variable {ring n : Nat} {dec dec' : Decoder} {call : Filling}

theorem size_le {space : Nat} (enough : ¬(call.defaultsize > 0 ∧ (space : Int) < call.defaultsize)) :
    call.size space ≤ space := by
  rw [Filling.size]
  split
  · omega
  · rw [Nat.shiftLeft_eq, Nat.shiftRight_eq_div_pow]
    exact Nat.div_mul_le_self ..

theorem commit_data (updates : call.updates = true) :
    (commit ring call dec false n).2 = { dec.update ring n with fillEndBs := false } := by
  simp [commit, updates]

/-- The end of the stream is signalled once. -/
theorem commit_eof (updates : call.updates = true) :
    (commit ring call dec true n).2 = dec ∨
      (commit ring call dec true n).2 = { dec with ended := true, fillEndBs := true } := by
  cases signalled : dec.fillEndBs <;> simp [commit, updates, signalled, Decoder.update]

/-- A call that reads up to the end of the ring, and past it. -/
theorem around_does (given : Given ring dec call) (inside : dec.paWritePtr < ring)
    (wraps : Wraps ring dec call) :
    Does ring dec call (decFillBsbuffer ring dec call).2 := by
  have whole := wraps
  obtain ⟨space, reported, enough, past⟩ := wraps
  have some_space := size_le enough
  have first := given.first space reported
  have second := given.second space reported
  have room := given.space space reported
  rw [decFillBsbuffer, reported]
  simp only
  rw [if_neg (by omega), if_neg enough, if_neg (by omega), if_pos past]
  cases answer : call.first with
  | again => exact .nothing (by simp [Loses, answer])
  | failed => exact .nothing (by simp [Loses, answer])
  | eof =>
    have keeps : ¬Loses ring dec call := by simp [Loses, answer]
    rcases commit_eof given.updates with same | mark
    · exact same ▸ .nothing keeps
    · exact mark ▸ .mark keeps
  | data bs =>
    rw [answer] at first
    have part := first.2
    simp only
    split
    next short =>
      have keeps : ¬Loses ring dec call := by simpa [Loses, answer] using fun _ same => absurd same short
      simp only [commit_data given.updates]
      exact .straight keeps first.1 (by omega)
    next full =>
      have filled : bs.length = ring - dec.paWritePtr := Decidable.not_not.mp full
      cases later : call.second with
      | data more =>
        rw [later] at second
        have rest := second.2
        have keeps : ¬Loses ring dec call := fun loses => loses.2.2 more later
        simp only [commit_data given.updates]
        exact .around keeps second.1 (by omega) (by omega)
      | again => exact .lose ⟨whole, ⟨bs, answer, filled⟩, by simp [later]⟩ first.1
      | failed => exact .lose ⟨whole, ⟨bs, answer, filled⟩, by simp [later]⟩ first.1
      | eof =>
        have loses : Loses ring dec call := ⟨whole, ⟨bs, answer, filled⟩, by simp [later]⟩
        rcases commit_eof given.updates with same | mark
        · exact same ▸ .lose loses first.1
        · exact mark ▸ .loseMark loses first.1

/-- A call that stays in front of the end of the ring. -/
theorem straight_does (given : Given ring dec call) (straight : ¬Wraps ring dec call) :
    Does ring dec call (decFillBsbuffer ring dec call).2 := by
  have keeps : ¬Loses ring dec call := fun loses => straight loses.1
  rw [decFillBsbuffer]
  split
  · exact .nothing keeps
  next space reported =>
    split
    · exact .nothing keeps
    split
    · exact .nothing keeps
    next enough =>
    split
    · exact .nothing keeps
    split
    next past => exact absurd ⟨space, reported, enough, past⟩ straight
    next here =>
      have fits := given.first space reported
      cases answer : call.first with
      | again => exact .nothing keeps
      | failed => exact .nothing keeps
      | eof =>
        rcases commit_eof given.updates with same | mark
        · exact same ▸ .nothing keeps
        · exact mark ▸ .mark keeps
      | data bs =>
        rw [answer] at fits
        simp only [commit_data given.updates]
        exact .straight keeps fits.1 (by have := fits.2; omega)

theorem decFill_does (given : Given ring dec call) (inside : dec.paWritePtr < ring) :
    Does ring dec call (decFillBsbuffer ring dec call).2 := by
  by_cases wraps : Wraps ring dec call
  · exact around_does given inside wraps
  · exact straight_does given wraps

theorem update_inside (some_ring : 0 < ring) (some_bytes : 0 < n) :
    (dec.update ring n).paWritePtr < ring := by
  rw [Decoder.update, if_neg (by omega)]
  exact Nat.mod_lt _ some_ring

theorem update_committed (some_bytes : 0 < n) :
    (dec.update ring n).committed = dec.committed ++ load ring dec.mem dec.paWritePtr n := by
  rw [Decoder.update, if_neg (by omega)]

theorem update_read : (dec.update ring n).read = dec.read := by
  rw [Decoder.update]
  split <;> rfl

theorem short_of_read {bs : List UInt8} (all : dec.committed = dec.read)
    (some_data : 0 < bs.length) : dec.committed ≠ dec.read ++ bs := by
  intro same
  rw [all, List.self_eq_append_right] at same
  exact absurd some_data (by simp [same])

/-- What is committed is what was read, unless the call loses some. -/
theorem Does.judged (does : Does ring dec call dec') (inside : dec.paWritePtr < ring)
    (all : dec.committed = dec.read) :
    dec'.paWritePtr < ring ∧ (dec'.committed = dec'.read ↔ ¬Loses ring dec call) := by
  cases does with
  | nothing keeps => exact ⟨inside, iff_of_true all keeps⟩
  | mark keeps => exact ⟨inside, iff_of_true all keeps⟩
  | @straight keeps bs some_data fits =>
    refine ⟨?_, iff_of_true ?_ keeps⟩
    · exact update_inside (Nat.zero_lt_of_lt inside) some_data
    · change Decoder.committed (Decoder.update ..) = Decoder.read (Decoder.update ..)
      rw [update_committed some_data, update_read]
      exact congrArg₂ (· ++ ·) all (load_store fits)
  | @around keeps bs more some_data last fits =>
    have room : ring - dec.paWritePtr = bs.length := by omega
    have some_bytes : 0 < more.length + (ring - dec.paWritePtr) := by omega
    refine ⟨?_, iff_of_true ?_ keeps⟩
    · exact update_inside (Nat.zero_lt_of_lt inside) some_bytes
    · change Decoder.committed (Decoder.update ..) = Decoder.read (Decoder.update ..)
      rw [update_committed some_bytes, update_read, room, Nat.add_comm]
      refine (congrArg₂ (· ++ ·) all (load_store_around last fits)).trans ?_
      exact (List.append_assoc ..).symm
  | lose loses some_data =>
    exact ⟨inside, iff_of_false (short_of_read all some_data) (not_not_intro loses)⟩
  | loseMark loses some_data =>
    exact ⟨inside, iff_of_false (short_of_read all some_data) (not_not_intro loses)⟩

end Calls

/-! ## Call after call -/

def Fill (ring : Nat) (dec : Decoder) (call : Filling) (dec' : Decoder) : Prop :=
  Given ring dec call ∧ (decFillBsbuffer ring dec call).2 = dec'

/-- Along every run, whatever position the ring is at: what was committed is what
was read, also when the end is signalled, exactly if no call loses any. -/
theorem fill_iff {ring : Nat} {dec dec' : Decoder} {calls : List Filling}
    (inside : dec.paWritePtr < ring) (all : dec.committed = dec.read) :
    Run (Only (Fill ring) fun _ _ after => after.committed = after.read) dec calls dec' ↔
      Run (Only (Fill ring) fun before call _ => ¬Loses ring before call) dec calls dec' := by
  have judged {dec call dec'} (inv : dec.paWritePtr < ring ∧ dec.committed = dec.read)
      (fill : Fill ring dec call dec') :
      dec'.paWritePtr < ring ∧ (dec'.committed = dec'.read ↔ ¬Loses ring dec call) :=
    fill.2 ▸ (decFill_does fill.1 inv.1).judged inv.1 inv.2
  apply Run.judged_iff (fun dec => dec.paWritePtr < ring ∧ dec.committed = dec.read)
  · exact fun dec call dec' inv fill => (judged inv fill).2
  · intro dec call dec' inv fill keeps
    obtain ⟨inside, same⟩ := judged inv fill
    exact ⟨inside, same.mpr keeps⟩
  · exact ⟨inside, all⟩

/-- A ring that is written two bytes in front of its end. -/
def late : Decoder :=
  { mem := fun _ => 0, paWritePtr := 0x1ffffe, fillEndBs := false, read := [1], committed := [1]
    ended := false }

/-- A read past the end of the ring. -/
def across (second : Answer) : Filling :=
  { space := some 512, defaultsize := 0, first := .data [7, 8], second, updates := true }

theorem given_across {second : Answer} (fits : second.Fits 510) :
    Given 0x200000 late (across second) where
  updates := rfl
  space := by simp [across]
  first := by simp [across, late, Answer.Fits, Filling.size]
  second := by simpa [across, late, Filling.size] using fits

/-- The stream ends where the ring does. -/
theorem across_loses : ∃ dec, Fill 0x200000 late (across .eof) dec ∧ dec.ended = true ∧
    dec.committed = [1] ∧ dec.read = [1, 7, 8] := by
  refine ⟨_, ⟨given_across trivial, rfl⟩, ?_⟩
  simp [decFillBsbuffer, across, late, Filling.size, commit, Decoder.vpuRead, Decoder.update]

theorem fill_iff_going : ∃ dec, Run (Only (Fill 0x200000)
    fun _ _ after => after.committed = after.read) late [across (.data [9])] dec := by
  refine ⟨_, (fill_iff (by decide) rfl).mpr (.next ⟨⟨given_across ?_, rfl⟩, ?_⟩ (.stay _))⟩
  · exact ⟨by decide, by decide⟩
  · exact fun loses => loses.2.2 [9] rfl

end ImxTest.Vpu.Dec
