import ImxTest.Lib.Wrap
import ImxTest.Vpu.Utils
import Mathlib.Data.List.TakeDrop

/-! Draining the encoder's ring of mxc_vpu_test/enc.c. -/
namespace ImxTest.Vpu.Enc
open Lib.Copy Lib.Runs Lib.Wrap

/-- The ring, by offsets from its start, and the stream out of it. -/
structure Encoder where
  /-- `dst_scheme == PATH_NET` -/
  net : Bool
  cmd : CmdLine
  paReadPtr : Nat
  /-- The bytes the output took, and the packets. -/
  delivered : List UInt8 := []
  packets : List Packet := []
  released : List UInt8 := []
  /-- In the `while (1)` of `udp_send`. -/
  hung : Bool := false

/-- What an output answers: how much each `write` takes, or the one `sendto`. -/
structure Write where
  file : List Nat
  sendto : Int
  stack : Int32

/-- What of `buf` a datagram or a file takes. -/
def accepted (net : Bool) (buf : List UInt8) (write : Write) : List UInt8 :=
  if net then buf.take (write.sendto - hdrlen).toNat
  else (fwriten buf.length buf [] write.file).2

def Encoder.vpuWrite (enc : Encoder) (buf : List UInt8) (write : Write) : Encoder :=
  if enc.hung then enc
  else if enc.net then
    match udpSend enc.cmd write.stack buf with
    | none => { enc with hung := true }
    | some (packet, cmd) =>
      { enc with
        cmd
        packets := enc.packets ++ [packet]
        delivered := enc.delivered ++ accepted true buf write }
  else { enc with delivered := enc.delivered ++ accepted false buf write }

/-- `vpu_EncUpdateBitstreamBuffer`, where a call gets as far. -/
def Encoder.update (enc : Encoder) (ring : Nat) (mem : Nat → UInt8) (space : Nat) : Encoder :=
  if enc.hung then enc
  else
    { enc with
      released := enc.released ++ load ring mem enc.paReadPtr space
      paReadPtr := (enc.paReadPtr + space) % ring }

/-- What a call of `enc_readbs_ring_buffer` meets: what is in the ring and how
much of it is reported, if anything, what the output does, and whether the
update succeeds. -/
structure Drain where
  mem : Nat → UInt8
  size : Option Nat
  defaultsize : Int
  first : Write
  second : Write
  updates : Bool

/-- `enc_readbs_ring_buffer` on a ring of `ring` bytes. -/
def encReadbsRingBuffer (ring : Nat) (enc : Encoder) (call : Drain) : Int × Encoder :=
  match call.size with
  | none => (-1, enc)
  | some size =>
    if size = 0 then (0, enc)
    else if call.defaultsize > 0 ∧ size < call.defaultsize then (0, enc)
    else
      let space := if call.defaultsize > 0 then call.defaultsize.toNat else size
      let enc :=
        if enc.paReadPtr + space > ring then
          let room := ring - enc.paReadPtr
          (enc.vpuWrite (span call.mem enc.paReadPtr room) call.first).vpuWrite
            (span call.mem 0 (space - room)) call.second
        else enc.vpuWrite (span call.mem enc.paReadPtr space) call.first
      if !call.updates then (-1, enc) else (space, enc.update ring call.mem space)

/-- The parts a call writes, and what the output does with each. -/
def parts (ring : Nat) (enc : Encoder) (call : Drain) : List (List UInt8 × Write) :=
  match call.size with
  | none => []
  | some size =>
    if size = 0 ∨ (call.defaultsize > 0 ∧ size < call.defaultsize) then []
    else
      let space := if call.defaultsize > 0 then call.defaultsize.toNat else size
      let room := ring - enc.paReadPtr
      if enc.paReadPtr + space > ring then
        [(span call.mem enc.paReadPtr room, call.first),
          (span call.mem 0 (space - room), call.second)]
      else [(span call.mem enc.paReadPtr space, call.first)]

/-- A file takes `n` bytes. -/
def Takes (n : Nat) : List Nat → Prop
  | [] => n = 0
  | nwrite :: rest => n = 0 ∨ (nwrite ≠ 0 ∧ Takes (n - nwrite) rest)

/-- The output takes all of a part. -/
def Whole (net : Bool) (part : List UInt8 × Write) : Prop :=
  if net then part.1.length + hdrlen ≤ part.2.sendto else Takes part.1.length part.2.file

/-- The output takes nothing of a part. -/
def Nothing (net : Bool) (part : List UInt8 × Write) : Prop :=
  if net then part.2.sendto ≤ hdrlen else part.2.file.headD 0 = 0

/-- Each part of a call fits a packet, where it is sent as one, and is taken as
a whole, or not at all where it is not released either. -/
def Drains (ring : Nat) (enc : Encoder) (call : Drain) : Prop :=
  ∀ part ∈ parts ring enc call,
    (enc.net = true → part.1.length + hdrlen ≤ DEFAULT_PKT_SIZE) ∧
    if call.updates then Whole enc.net part else Nothing enc.net part

/-- What is asked of the encoder after a call. -/
structure Met (enc : Encoder) : Prop where
  returns : enc.hung = false
  same : enc.released = enc.delivered
  packets : ∀ packet ∈ enc.packets, packet.len ≠ 0

section Parts
variable {ring n m : Nat} {enc enc' : Encoder} {call : Drain} {buf written : List UInt8} {write : Write}
  {net : Bool} {answers : List Nat} {part : List UInt8 × Write} {ps : List (List UInt8 × Write)}

/-- A file takes a part from the beginning on. -/
theorem fwriten_begins : ∃ got, (fwriten n buf written answers).2 = written ++ got ∧ got <+: buf ∧
    (got = buf ↔ Takes buf.length answers) ∧ (got = [] ↔ buf = [] ∨ answers.headD 0 = 0) := by
  induction answers generalizing buf written with
  | nil =>
    refine ⟨[], ?_, List.nil_prefix, ?_, by simp⟩
    · rw [List.append_nil, fwriten]
      split <;> rfl
    · rw [Takes, List.length_eq_zero_iff, eq_comm]
  | cons nwrite rest ih =>
    rw [fwriten]
    by_cases none : buf = []
    · exact ⟨[], by simp [none], List.nil_prefix, by simp [none, Takes], by simp [none]⟩
    rw [if_neg none]
    by_cases fails : nwrite = 0
    · exact ⟨[], by simp [fails], List.nil_prefix, by simp [none, fails, Takes, Ne.symm none],
        by simp [fails]⟩
    rw [if_neg fails]
    obtain ⟨got, wrote, part, whole, -⟩ := @ih (buf.drop nwrite) (written ++ buf.take nwrite)
    have split := List.take_append_drop nwrite buf
    refine ⟨buf.take nwrite ++ got, ?_, ?_, ?_, by simp [none, fails]⟩
    · rw [wrote, List.append_assoc]
    · obtain ⟨left, same⟩ := part
      exact ⟨left, by rw [List.append_assoc, same, split]⟩
    · have lengths : buf.length ≠ 0 := by simpa using none
      have all : buf.take nwrite ++ got = buf ↔ got = buf.drop nwrite := by
        constructor
        · intro same
          exact List.append_cancel_left (same.trans split.symm)
        · rintro rfl
          exact split
      rw [all, whole, List.length_drop, Takes]
      simp [lengths, fails]

theorem accepted_begins (net : Bool) (part : List UInt8 × Write) :
    accepted net part.1 part.2 <+: part.1 := by
  rw [accepted]
  split
  · exact List.take_prefix ..
  · obtain ⟨got, wrote, part, -⟩ := @fwriten_begins part.1.length part.1 [] part.2.file
    rwa [wrote, List.nil_append]

theorem accepted_whole (some_data : part.1 ≠ []) :
    accepted net part.1 part.2 = part.1 ↔ Whole net part := by
  have length : 0 < part.1.length := List.length_pos_iff.mpr some_data
  rw [accepted, Whole]
  split
  · rw [List.take_eq_self_iff, hdrlen]
    omega
  · obtain ⟨got, wrote, -, whole, -⟩ := @fwriten_begins part.1.length part.1 [] part.2.file
    rw [wrote, List.nil_append, whole]

theorem accepted_nothing (some_data : part.1 ≠ []) :
    accepted net part.1 part.2 = [] ↔ Nothing net part := by
  rw [accepted, Nothing]
  split
  · rw [List.take_eq_nil_iff, hdrlen]
    simp only [some_data, or_false]
    omega
  · obtain ⟨got, wrote, -, -, nothing⟩ := @fwriten_begins part.1.length part.1 [] part.2.file
    rw [wrote, List.nil_append, nothing]
    simp only [some_data, false_or]

/-- What a write that returns changes. -/
structure Wrote (enc : Encoder) (part : List UInt8 × Write) (enc' : Encoder) : Prop where
  hung : enc'.hung = false
  net : enc'.net = enc.net
  readPtr : enc'.paReadPtr = enc.paReadPtr
  released : enc'.released = enc.released
  delivered : enc'.delivered = enc.delivered ++ accepted enc.net part.1 part.2
  packets : (∀ packet ∈ enc.packets, packet.len ≠ 0) → ∀ packet ∈ enc'.packets, packet.len ≠ 0

theorem vpuWrite_wrote (returns : enc.hung = false) (some_data : part.1 ≠ [])
    (fits : enc.net = true → part.1.length + hdrlen ≤ DEFAULT_PKT_SIZE) :
    Wrote enc part (enc.vpuWrite part.1 part.2) := by
  have length : part.1.length ≠ 0 := by simpa using some_data
  rw [Encoder.vpuWrite, if_neg (by simp [returns])]
  by_cases net : enc.net = true
  · rw [if_pos net, udpSend, if_neg (Nat.not_lt.mpr (fits net)), if_neg length]
    refine ⟨returns, rfl, rfl, rfl, congrArg (enc.delivered ++ accepted · _ _) net.symm, ?_⟩
    intro kept packet mem
    rcases List.mem_append.mp mem with old | new
    · exact kept packet old
    · rw [List.mem_singleton.mp new]
      simpa using some_data
  · rw [if_neg net]
    have file : enc.net = false := by simpa using net
    exact ⟨returns, rfl, rfl, rfl, congrArg (enc.delivered ++ accepted · _ _) file.symm, id⟩

theorem vpuWrite_net : (enc.vpuWrite buf write).net = enc.net := by
  rw [Encoder.vpuWrite]
  split
  · rfl
  split
  · split <;> rfl
  · rfl

theorem vpuWrite_readPtr : (enc.vpuWrite buf write).paReadPtr = enc.paReadPtr := by
  rw [Encoder.vpuWrite]
  split
  · rfl
  split
  · split <;> rfl
  · rfl

theorem vpuWrite_hangs (long : enc.net = true ∧ DEFAULT_PKT_SIZE < part.1.length + hdrlen) :
    (enc.vpuWrite part.1 part.2).hung = true := by
  rw [Encoder.vpuWrite]
  split
  · assumption
  · rw [if_pos long.1, udpSend, if_pos long.2]

/-! ## The parts of a call -/

def Encoder.writeAll (enc : Encoder) (ps : List (List UInt8 × Write)) : Encoder :=
  ps.foldl (fun enc part => enc.vpuWrite part.1 part.2) enc

/-- What the output takes of some parts. -/
def allAccepted (net : Bool) (ps : List (List UInt8 × Write)) : List UInt8 :=
  ps.flatMap fun part => accepted net part.1 part.2

theorem writeAll_readPtr : (enc.writeAll ps).paReadPtr = enc.paReadPtr := by
  induction ps generalizing enc with
  | nil => rfl
  | cons part ps ih => exact ih.trans vpuWrite_readPtr

theorem writeAll_hung (hangs : enc.hung = true) : (enc.writeAll ps).hung = true := by
  induction ps generalizing enc with
  | nil => exact hangs
  | cons part ps ih =>
    have still : (enc.vpuWrite part.1 part.2).hung = true := by
      rwa [Encoder.vpuWrite, if_pos hangs]
    exact ih still

theorem writeAll_hangs (mem : part ∈ ps)
    (long : enc.net = true ∧ DEFAULT_PKT_SIZE < part.1.length + hdrlen) :
    (enc.writeAll ps).hung = true := by
  induction ps generalizing enc with
  | nil => cases mem
  | cons first ps ih =>
    rcases List.mem_cons.mp mem with rfl | later
    · have hangs := vpuWrite_hangs long
      exact show (Encoder.writeAll (enc.vpuWrite part.1 part.2) ps).hung = true from
        writeAll_hung hangs
    · exact ih later (vpuWrite_net.symm ▸ long)

theorem writeAll_wrote (returns : enc.hung = false) (some_data : ∀ part ∈ ps, part.1 ≠ [])
    (fits : ∀ part ∈ ps, enc.net = true → part.1.length + hdrlen ≤ DEFAULT_PKT_SIZE) :
    (enc.writeAll ps).hung = false ∧ (enc.writeAll ps).paReadPtr = enc.paReadPtr ∧
    (enc.writeAll ps).released = enc.released ∧
    (enc.writeAll ps).delivered = enc.delivered ++ allAccepted enc.net ps ∧
    ((∀ packet ∈ enc.packets, packet.len ≠ 0) →
      ∀ packet ∈ (enc.writeAll ps).packets, packet.len ≠ 0) := by
  induction ps generalizing enc with
  | nil => exact ⟨returns, rfl, rfl, (List.append_nil _).symm, id⟩
  | cons part ps ih =>
    rw [List.forall_mem_cons] at some_data fits
    have wrote := vpuWrite_wrote returns some_data.1 fits.1
    obtain ⟨hung, readPtr, released, delivered, packets⟩ :=
      ih wrote.hung some_data.2 (wrote.net ▸ fits.2)
    refine ⟨hung, readPtr.trans wrote.readPtr, released.trans wrote.released, ?_,
      fun kept => packets (wrote.packets kept)⟩
    rw [show (enc.writeAll (part :: ps)).delivered = _ from delivered, wrote.delivered, wrote.net,
      List.append_assoc]
    rfl

theorem allAccepted_le (net : Bool) (ps : List (List UInt8 × Write)) :
    (allAccepted net ps).length ≤ (ps.flatMap (·.1)).length := by
  induction ps with
  | nil => exact Nat.le_refl 0
  | cons part ps ih =>
    rw [allAccepted, List.flatMap_cons, List.flatMap_cons, List.length_append, List.length_append]
    exact Nat.add_le_add (accepted_begins net part).length_le ih

/-- All is taken exactly if each part is. -/
theorem allAccepted_whole (some_data : ∀ part ∈ ps, part.1 ≠ []) :
    allAccepted net ps = ps.flatMap (·.1) ↔ ∀ part ∈ ps, Whole net part := by
  induction ps with
  | nil => simp [allAccepted]
  | cons part ps ih =>
    rw [List.forall_mem_cons] at some_data ⊢
    rw [← ih some_data.2, ← accepted_whole some_data.1, List.flatMap_cons]
    change accepted net part.1 part.2 ++ allAccepted net ps = _ ↔ _
    constructor
    · intro same
      have lengths := congrArg List.length same
      rw [List.length_append, List.length_append] at lengths
      have first := (accepted_begins net part).length_le
      have rest := allAccepted_le net ps
      have whole := (accepted_begins net part).eq_of_length (Nat.le_antisymm first (by omega))
      rw [whole] at same
      exact ⟨whole, List.append_cancel_left same⟩
    · rintro ⟨first, rest⟩
      rw [first, rest]

theorem allAccepted_nothing (some_data : ∀ part ∈ ps, part.1 ≠ []) :
    allAccepted net ps = [] ↔ ∀ part ∈ ps, Nothing net part := by
  rw [allAccepted, List.flatMap_eq_nil_iff]
  exact forall₂_congr fun part mem => accepted_nothing (some_data part mem)

/-- The fill level is that of a ring. -/
def Given (ring : Nat) (call : Drain) : Prop := ∀ size, call.size = some size → size ≤ ring

theorem span_some {mem : Nat → UInt8} {a : Nat} (some_cell : 0 < n) : span mem a n ≠ [] := by
  rw [← List.length_pos_iff, span_length]
  exact some_cell

/-- A call writes nothing, or the bytes from the read pointer on, in one part or
two, and then releases them. -/
theorem drain_cases (given : Given ring call) (inside : enc.paReadPtr < ring) :
    ((encReadbsRingBuffer ring enc call).2 = enc ∧ parts ring enc call = []) ∨
    ∃ space, 0 < space ∧ (∀ part ∈ parts ring enc call, part.1 ≠ []) ∧
      (parts ring enc call).flatMap (·.1) = load ring call.mem enc.paReadPtr space ∧
      (encReadbsRingBuffer ring enc call).2 =
        if call.updates then (enc.writeAll (parts ring enc call)).update ring call.mem space
        else enc.writeAll (parts ring enc call) := by
  rw [encReadbsRingBuffer, parts]
  split
  · exact .inl ⟨rfl, rfl⟩
  next size reported =>
  have room := given size reported
  split
  next none => exact .inl ⟨rfl, if_pos (.inl none)⟩
  next some_size =>
  split
  next few => exact .inl ⟨rfl, if_pos (.inr few)⟩
  next enough =>
  have reads : ¬(size = 0 ∨ (call.defaultsize > 0 ∧ (size : Int) < call.defaultsize)) :=
    not_or.mpr ⟨some_size, enough⟩
  simp only [if_neg reads]
  right
  generalize chosen : (if call.defaultsize > 0 then call.defaultsize.toNat else size) = space
  have bounds : 0 < space ∧ space ≤ ring := by split at chosen <;> omega
  refine ⟨space, bounds.1, ?_⟩
  by_cases past : enc.paReadPtr + space > ring
  · simp only [if_pos past, List.forall_mem_cons]
    refine ⟨⟨span_some (by omega), span_some (by omega), by simp⟩, ?_, ?_⟩
    · have last : enc.paReadPtr + (ring - enc.paReadPtr) = ring := by omega
      have whole : ring - enc.paReadPtr + (space - (ring - enc.paReadPtr)) = space := by omega
      have wrapped : load ring call.mem enc.paReadPtr
          (ring - enc.paReadPtr + (space - (ring - enc.paReadPtr))) = _ :=
        load_wrapped last (by omega)
      rw [← whole, wrapped]
      simp [whole]
    · cases call.updates <;> rfl
  · simp only [if_neg past, List.forall_mem_cons]
    refine ⟨⟨span_some bounds.1, by simp⟩, ?_, ?_⟩
    · rw [load_straight (Nat.not_lt.mp past)]
      simp
    · cases call.updates <;> rfl

theorem update_inside {mem : Nat → UInt8} (inside : enc.paReadPtr < ring) :
    (enc.update ring mem n).paReadPtr < ring := by
  rw [Encoder.update]
  split
  · exact inside
  · exact Nat.mod_lt _ (Nat.zero_lt_of_lt inside)

/-- A call does not return from a part that is too long for a packet. -/
theorem drain_hangs (given : Given ring call) (inside : enc.paReadPtr < ring)
    (mem : part ∈ parts ring enc call)
    (long : enc.net = true ∧ DEFAULT_PKT_SIZE < part.1.length + hdrlen) :
    (encReadbsRingBuffer ring enc call).2.hung = true := by
  have hangs := writeAll_hangs mem long
  rcases drain_cases given inside with ⟨-, none⟩ | ⟨space, -, -, -, result⟩
  · rw [none] at mem
    cases mem
  · rw [result]
    split
    · rwa [Encoder.update, if_pos hangs]
    · exact hangs

/-- A call on a ring in order leaves it in order exactly if it drains what it
releases. -/
theorem drain_judged (given : Given ring call) (inside : enc.paReadPtr < ring) (met : Met enc) :
    (encReadbsRingBuffer ring enc call).2.paReadPtr < ring ∧
      (Met (encReadbsRingBuffer ring enc call).2 ↔ Drains ring enc call) := by
  rcases drain_cases given inside with ⟨same, none⟩ | ⟨space, -, some_data, chunk, result⟩
  · rw [same]
    exact ⟨inside, iff_of_true met (by simp [Drains, none])⟩
  rw [result]
  refine ⟨?_, ?_⟩
  · have kept : (enc.writeAll (parts ring enc call)).paReadPtr < ring :=
      writeAll_readPtr.symm ▸ inside
    split
    · exact update_inside kept
    · exact kept
  by_cases fits : ∀ part ∈ parts ring enc call,
      enc.net = true → part.1.length + hdrlen ≤ DEFAULT_PKT_SIZE
  · obtain ⟨hung, readPtr, released, delivered, packets⟩ :=
      writeAll_wrote met.returns some_data fits
    have drains : Drains ring enc call ↔ ∀ part ∈ parts ring enc call,
        if call.updates then Whole enc.net part else Nothing enc.net part :=
      forall₂_congr fun part mem => and_iff_right (fits part mem)
    rw [drains]
    split
    next updates =>
      rw [← allAccepted_whole some_data, chunk, Encoder.update, if_neg (by simp [hung])]
      constructor
      · intro after
        have same := after.same
        simp only [released, delivered, readPtr, met.same] at same
        exact (List.append_cancel_left same).symm
      · intro all
        refine ⟨hung, ?_, packets met.packets⟩
        simp only [released, delivered, readPtr, met.same, all]
    next fails =>
      rw [← allAccepted_nothing some_data]
      constructor
      · intro after
        have same := after.same
        rw [released, delivered, met.same, List.self_eq_append_right] at same
        exact same
      · intro none
        exact ⟨hung, by rw [released, delivered, met.same, none, List.append_nil],
          packets met.packets⟩
  · apply iff_of_false
    · intro after
      simp only [not_forall] at fits
      obtain ⟨part, mem, net, long⟩ := fits
      have hangs := drain_hangs given inside mem ⟨net, Nat.not_le.mp long⟩
      rw [result, after.returns] at hangs
      cases hangs
    · exact fun drains => fits fun part mem => (drains part mem).1

end Parts

/-! ## Call after call -/

def Drained (ring : Nat) (enc : Encoder) (call : Drain) (enc' : Encoder) : Prop :=
  Given ring call ∧ (encReadbsRingBuffer ring enc call).2 = enc'

/-- Along every run, wherever the ring is read: each call returns, what is
released is what the output took, and no packet is the one for the end of the
stream, exactly if each call drains what it releases. -/
theorem drain_iff {ring : Nat} {enc enc' : Encoder} {calls : List Drain}
    (inside : enc.paReadPtr < ring) (met : Met enc) :
    Run (Only (Drained ring) fun _ _ after => Met after) enc calls enc' ↔
      Run (Only (Drained ring) fun before call _ => Drains ring before call) enc calls enc' := by
  have judged {enc call enc'} (inv : enc.paReadPtr < ring ∧ Met enc)
      (drained : Drained ring enc call enc') :
      enc'.paReadPtr < ring ∧ (Met enc' ↔ Drains ring enc call) :=
    drained.2 ▸ drain_judged drained.1 inv.1 inv.2
  apply Run.judged_iff (fun enc => enc.paReadPtr < ring ∧ Met enc)
  · exact fun enc call enc' inv drained => (judged inv drained).2
  · intro enc call enc' inv drained drains
    obtain ⟨inside, same⟩ := judged inv drained
    exact ⟨inside, same.mpr drains⟩
  · exact ⟨inside, met⟩

/-- A chunk that is written from the beginning of the ring on. -/
def chunk (size : Nat) (file : List Nat) : Drain :=
  { mem := fun _ => 9, size, defaultsize := 0, first := { file, sendto := 0, stack := 0 }
    second := { file := [], sendto := 0, stack := 0 }, updates := true }

/-- A file takes nothing of a byte that is released, and a chunk too long for a
packet is never done with. -/
theorem chunk_undrained :
    (∃ enc, Drained 0x200000 { net := false, cmd := {}, paReadPtr := 0 } (chunk 1 []) enc ∧
      enc.delivered = [] ∧ enc.released = [9]) ∧
    ∃ enc, Drained 0x200000 { net := true, cmd := {}, paReadPtr := 0 } (chunk 163829 []) enc ∧
      enc.hung = true := by
  refine ⟨⟨_, ⟨by simp [Given, chunk], rfl⟩, ?_⟩, _, ⟨by simp [Given, chunk], rfl⟩, ?_⟩
  · simp [encReadbsRingBuffer, chunk, Encoder.vpuWrite, Encoder.update, accepted, fwriten, load, span]
  · obtain ⟨part, mem, length⟩ : ∃ part ∈ parts 0x200000 { net := true, cmd := {}, paReadPtr := 0 }
        (chunk 163829 []), part.1.length = 163829 :=
      ⟨(span (fun _ => 9) 0 163829, (chunk 163829 []).first), by simp [parts, chunk], span_length⟩
    refine drain_hangs (by simp [Given, chunk]) (by decide) mem ⟨rfl, ?_⟩
    rw [length]
    decide

theorem drain_iff_going : ∃ enc, Run (Only (Drained 8) fun _ _ after => Met after)
    { net := false, cmd := {}, paReadPtr := 6 }
    [{ chunk 4 [2] with second := { file := [1, 1], sendto := 0, stack := 0 } }] enc := by
  refine ⟨_, (drain_iff (by decide) ⟨rfl, rfl, by simp⟩).mpr (.next ⟨⟨?_, rfl⟩, ?_⟩ (.stay _))⟩
  · simp [Given, chunk]
  · simp [Drains, parts, chunk, Whole, Takes]

end ImxTest.Vpu.Enc
