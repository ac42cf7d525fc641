import ImxTest.Vpu.Utils

/-! What `udp_recv` makes of the datagrams that come: the receiver as a fold over
them, and the bytes it hands out. -/
namespace ImxTest.Vpu
open Lib.Runs

def datagrams (events : List Event) : List Packet :=
  events.filterMap fun
    | .datagram p => some p
    | _ => none

/-- What a receiver knows after some packets. -/
structure Feed where
  seqNo : Int32
  log : List (Packet × Bool)
  ended : Bool

def Feed.next (f : Feed) (p : Packet) : Feed :=
  if f.ended then f
  else if p.len = 0 then { f with ended := true }
  else
    { f with
      seqNo := (checkSeqno f.seqNo p).2
      log := f.log ++ [(recvfrom p, (checkSeqno f.seqNo p).1)] }

def CmdLine.feed (cmd : CmdLine) : Feed :=
  { seqNo := cmd.seqNo, log := cmd.log, ended := decide (cmd.nlen = -1) }

/-- The bytes of the packets taken. -/
def taken (log : List (Packet × Bool)) : List UInt8 :=
  (log.filter (·.2)).flatMap (·.1.data)

/-- The bytes taken and not handed out yet. -/
def CmdLine.pending (cmd : CmdLine) : List UInt8 := cmd.at cmd.nlen.toNat

structure CmdLine.Sound (cmd : CmdLine) : Prop where
  range : -1 ≤ cmd.nlen
  behind : 0 < cmd.nlen → hdrlen ≤ cmd.noffset
  inside : cmd.nlen.toNat ≤ (cmd.nbuf.data.drop (cmd.noffset - hdrlen)).length

/-- What a call that used up these events did, where `held` was to be handed out
before it looked at any of them. -/
structure Fed (old : Feed) (held : List UInt8) (n : Nat) (events : List Event) (r : Received) :
    Prop where
  feed : r.cmd.feed = (datagrams events).foldl .next old
  sound : r.cmd.Sound
  bytes : ∀ out, out ++ held = taken old.log → out ++ r.buf ++ r.cmd.pending = taken r.cmd.log
  most : r.buf.length ≤ n
  success : 0 ≤ r.ret → r.ret = r.buf.length
  failure : r.ret < 0 → r.buf = [] ∨ .error ∈ events
  nothing : r.ret = 0 → 0 < n → r.cmd.nlen = -1 ∨ .timeout true ∈ events

section Packets
variable {log : List (Packet × Bool)} {p : Packet} {cmd : CmdLine} {f : Feed} {ps : List Packet}

@[simp] theorem taken_nil : taken [] = [] := rfl

@[simp] theorem taken_append (log log' : List (Packet × Bool)) :
    taken (log ++ log') = taken log ++ taken log' := by
  simp only [taken, List.filter_append, List.flatMap_append]

@[simp] theorem taken_one : taken [(p, true)] = p.data := by simp [taken]

@[simp] theorem taken_refused : taken [(p, false)] = [] := by simp [taken]

@[simp] theorem recvfrom_seqno : (recvfrom p).seqno = p.seqno := rfl

@[simp] theorem recvfrom_iframe : (recvfrom p).iframe = p.iframe := rfl

@[simp] theorem checkSeqno_recvfrom {seqNo : Int32} :
    checkSeqno seqNo (recvfrom p) = checkSeqno seqNo p := rfl

@[simp] theorem feed_log : cmd.feed.log = cmd.log := rfl

@[simp] theorem feed_ended : cmd.feed.ended = decide (cmd.nlen = -1) := rfl

theorem pending_nil (none : cmd.nlen ≤ 0) : cmd.pending = [] := by
  rw [CmdLine.pending, CmdLine.at, Int.toNat_of_nonpos none, List.take_zero]

theorem sound_of_none (none : cmd.nlen = 0 ∨ cmd.nlen = -1) : cmd.Sound where
  range := by omega
  behind := by omega
  inside := by
    rw [Int.toNat_of_nonpos (by omega)]
    exact Nat.zero_le _

theorem Feed.ended_fold (ended : f.ended = true) : ps.foldl .next f = f := by
  induction ps with
  | nil => rfl
  | cons p ps ih => rw [List.foldl_cons, next, if_pos ended, ih]

theorem next_end (waiting : cmd.nlen ≠ -1) (none : p.len = 0) :
    cmd.feed.next p = { cmd.feed with ended := true } := by
  rw [Feed.next, if_neg (by simpa [CmdLine.feed] using waiting), if_pos none]

theorem next_data (waiting : cmd.nlen ≠ -1) (data : p.len ≠ 0) :
    cmd.feed.next p =
      { seqNo := (checkSeqno cmd.seqNo p).2
        log := cmd.log ++ [(recvfrom p, (checkSeqno cmd.seqNo p).1)]
        ended := false } := by
  rw [Feed.next, if_neg (by simpa [CmdLine.feed] using waiting), if_neg data]
  simp [CmdLine.feed, waiting]

theorem Feed.ended_of_last (mem : p ∈ ps) (last : p.len = 0) :
    (ps.foldl .next f).ended = true := by
  induction ps generalizing f with
  | nil => cases mem
  | cons q ps ih =>
    rcases List.mem_cons.mp mem with rfl | later
    · have ended : (f.next p).ended = true := by
        by_cases already : f.ended = true <;> simp [next, already, last]
      rw [List.foldl_cons, ended_fold ended]
      exact ended
    · exact ih later

@[simp] theorem datagrams_append (es es' : List Event) :
    datagrams (es ++ es') = datagrams es ++ datagrams es' := List.filterMap_append

end Packets

/-! ## One call -/

section Calls
variable {complete : Bool} {n nleft ntotal : Nat} {cmd : CmdLine} {buf : List UInt8}
  {events : List Event} {event : Event} {r : Received} {p : Packet} {old mid : Feed}
  {held held' : List UInt8}

/-- A call that returns with all it took handed out. -/
theorem fed_all {ret : Int} (none : cmd.nlen = 0 ∨ cmd.nlen = -1)
    (feed : cmd.feed = (datagrams events).foldl .next old)
    (bytes : ∀ out, out ++ held = taken old.log → out ++ buf = taken cmd.log)
    (most : buf.length ≤ n) (success : 0 ≤ ret → ret = buf.length)
    (failure : ret < 0 → buf = [] ∨ .error ∈ events)
    (nothing : ret = 0 → 0 < n → cmd.nlen = -1 ∨ .timeout true ∈ events) :
    Fed old held n events ⟨ret, buf, cmd, []⟩ where
  feed
  sound := sound_of_none none
  bytes out all := by
    have empty : cmd.pending = [] := pending_nil (by omega)
    rw [empty, List.append_nil]
    exact bytes out all
  most
  success
  failure
  nothing

/-- Events that bring no packet can come in front. -/
theorem Fed.after (fed : Fed old held n events r) (none : datagrams [event] = []) :
    Fed old held n (event :: events) r where
  feed := by
    rw [fed.feed, ← List.singleton_append, datagrams_append, none, List.nil_append]
  sound := fed.sound
  bytes := fed.bytes
  most := fed.most
  success := fed.success
  failure negative := (fed.failure negative).imp_right (List.mem_cons_of_mem _)
  nothing zero asked := (fed.nothing zero asked).imp_right (List.mem_cons_of_mem _)

/-- A packet in front, where what it brought is held from then on. -/
theorem Fed.behind (fed : Fed mid held' n events r)
    (next : mid = old.next p)
    (bytes : ∀ out, out ++ held = taken old.log → out ++ held' = taken mid.log) :
    Fed old held n (.datagram p :: events) r where
  feed := by rw [fed.feed, next]; rfl
  sound := fed.sound
  bytes out all := fed.bytes out (bytes out all)
  most := fed.most
  success := fed.success
  failure negative := (fed.failure negative).imp_right (List.mem_cons_of_mem _)
  nothing zero asked := (fed.nothing zero asked).imp_right (List.mem_cons_of_mem _)

/-- A packet with more bytes than are asked for. -/
theorem fed_more (waiting : cmd.nlen ≠ -1) (data : p.len ≠ 0)
    (accepted : (checkSeqno cmd.seqNo p).1 = true) (more : nleft < (recvfrom p).data.length)
    (room : nleft + buf.length = n) : Fed cmd.feed buf n [.datagram p]
      { ret := n
        buf := buf ++ (recvfrom p).data.take nleft
        cmd :=
          { cmd with
            nbuf := recvfrom p
            nlen := (recvfrom p).data.length - nleft
            noffset := nleft + hdrlen
            seqNo := (checkSeqno cmd.seqNo p).2
            log := cmd.log ++ [(recvfrom p, true)] }
        rest := [] } := by
  have left : ((recvfrom p).data.length - nleft : Int).toNat =
      ((recvfrom p).data.drop nleft).length := by
    rw [List.length_drop]
    omega
  have taken_part : (buf ++ (recvfrom p).data.take nleft).length = n := by
    rw [List.length_append, List.length_take_of_le (by omega)]
    omega
  constructor
  case feed =>
    change _ = cmd.feed.next p
    rw [next_data waiting data, accepted]
    simp only [CmdLine.feed, Feed.mk.injEq, decide_eq_false_iff_not, true_and]
    omega
  case sound =>
    refine ⟨?_, fun _ => Nat.le_add_left .., ?_⟩
    · change (-1 : Int) ≤ (recvfrom p).data.length - nleft
      omega
    · simp only [left, Nat.add_sub_cancel, Nat.le_refl]
  case bytes =>
    intro out all
    rw [feed_log] at all
    simp only [CmdLine.pending, CmdLine.at, left, Nat.add_sub_cancel, List.take_length, ← all,
      List.append_assoc, List.take_append_drop, taken_append, taken_one]
  case most => exact Nat.le_of_eq taken_part
  case success => exact fun _ => congrArg _ taken_part.symm
  case failure => exact fun negative => absurd negative (by simp)
  case nothing =>
    intro zero asked
    simp only at zero
    omega

theorem recvLoop_full :
    recvLoop complete n cmd buf 0 ntotal events = some ⟨n, buf, cmd, events⟩ := by
  cases events <;> simp [recvLoop]

theorem recvLoop_fed (call : recvLoop complete n cmd buf nleft ntotal events = some r)
    (all : r.rest = []) (empty : cmd.nlen = 0) (length : ntotal = buf.length)
    (room : nleft + ntotal = n) : Fed cmd.feed buf n events r := by
  induction events generalizing cmd buf nleft ntotal with
  | nil =>
    obtain ⟨full, rfl⟩ : nleft = 0 ∧ ⟨n, buf, cmd, []⟩ = r := by simpa [recvLoop] using call
    exact fed_all (.inl empty) rfl (fun _ => id) (by omega) (by omega) (by omega) (by omega)
  | cons event rest ih =>
    rw [recvLoop.eq_def] at call
    simp only at call
    split at call
    · cases call
      cases all
    next wanted =>
      cases event with
      | error =>
        cases call
        cases all
        exact fed_all (.inl empty) rfl (fun _ => id) (by omega) (by omega)
          (fun _ => .inr List.mem_cons_self) (by omega)
      | timeout quitflag =>
        simp only at call
        split at call
        next quit =>
          cases call
          cases all
          subst quit
          exact fed_all (.inl empty) rfl (fun _ => id) (by omega) (by omega) (by omega)
            (fun _ _ => .inr List.mem_cons_self)
        split at call
        · exact (ih call empty length room).after rfl
        split at call
        next none =>
          cases call
          cases all
          have nothing : buf = [] := List.eq_nil_of_length_eq_zero (length.symm.trans none)
          exact fed_all (.inl empty) rfl (fun _ => id) (by omega) (by simp [EAGAIN])
            (fun _ => .inl nothing) (by simp [EAGAIN])
        · cases call
          cases all
          exact fed_all (.inl empty) rfl (fun _ => id) (by omega) (by omega) (by omega) (by omega)
      | datagram p =>
        have waiting : cmd.nlen ≠ -1 := by omega
        simp only at call
        split at call
        next none =>
          cases call
          cases all
          exact fed_all (.inr rfl) (next_end (p := p) waiting none).symm (fun _ => id) (by omega) (by omega)
            (by omega) (fun _ _ => .inl rfl)
        next data =>
          split at call
          next refused =>
            rw [checkSeqno_recvfrom, Bool.not_eq_true'] at refused
            have next := next_data (p := p) waiting data
            refine (ih call empty length room).behind ?_ ?_
            · rw [next, refused]
              simp [CmdLine.feed, empty, refused]
            · intro out held
              simpa [CmdLine.feed, next, refused] using held
          next accepted =>
            rw [checkSeqno_recvfrom, Bool.not_eq_true', Bool.not_eq_false] at accepted
            have next := next_data (p := p) waiting data
            split at call
            next more =>
              rw [Nat.sub_self, recvLoop_full] at call
              cases call
              obtain rfl : rest = [] := all
              simp only [checkSeqno_recvfrom, accepted]
              exact fed_more waiting data accepted more (length ▸ room)
            next fits =>
              refine (ih call empty ?_ ?_).behind ?_ ?_
              · simp [length]
              · simp at fits ⊢; omega
              · rw [next, accepted]
                simp [CmdLine.feed, empty, accepted]
              · intro out held
                rw [feed_log] at held
                simp [accepted, ← held]

theorem at_length (sound : cmd.Sound) : (cmd.at cmd.nlen.toNat).length = cmd.nlen.toNat := by
  rw [CmdLine.at, List.length_take_of_le sound.inside]

/-- Fewer bytes are asked for than are pending. -/
theorem fed_part (sound : cmd.Sound) (more : n < cmd.nlen) :
    Fed cmd.feed cmd.pending n []
      ⟨n, cmd.at n, { cmd with nlen := cmd.nlen - n, noffset := cmd.noffset + n }, []⟩ := by
  have behind := sound.behind (by omega)
  have part : (cmd.nlen - n).toNat = cmd.nlen.toNat - n := by omega
  have offset : cmd.noffset + n - hdrlen = cmd.noffset - hdrlen + n := by omega
  have inside := sound.inside
  have asked : (cmd.at n).length = n := List.length_take_of_le (by omega)
  constructor
  case feed =>
    simp only [CmdLine.feed, datagrams, List.filterMap_nil, List.foldl_nil, Feed.mk.injEq,
      decide_eq_decide, true_and]
    omega
  case sound =>
    refine ⟨?_, fun _ => Nat.le_add_right_of_le behind, ?_⟩
    · change -1 ≤ cmd.nlen - n
      omega
    · rw [List.length_drop] at inside ⊢
      simp only [part, offset]
      omega
  case bytes =>
    intro out all
    rw [feed_log, CmdLine.pending, CmdLine.at] at all
    simp only [CmdLine.pending, CmdLine.at, part, offset, ← all, List.append_assoc]
    rw [← List.drop_drop, ← List.take_add, Nat.add_sub_cancel' (by omega)]
  case most => exact Nat.le_of_eq asked
  case success => exact fun _ => congrArg _ asked.symm
  case failure => exact fun negative => absurd negative (by simp)
  case nothing =>
    intro zero asked
    simp only at zero
    omega

/-- What one call of `udp_recv` does. -/
theorem udpRecv_fed (call : udpRecv complete cmd n events = some r) (all : r.rest = [])
    (sound : cmd.Sound) : Fed cmd.feed cmd.pending n events r := by
  have range := sound.range
  rw [udpRecv] at call
  split at call
  next held =>
    split at call
    next ended =>
      cases call
      cases all
      refine fed_all (.inr ended) rfl ?_ (Nat.zero_le _) (fun _ => rfl) (by omega)
        (fun _ _ => .inl ended)
      intro out held
      rwa [pending_nil (by omega)] at held
    split at call
    next more =>
      cases call
      cases all
      exact fed_part sound more
    next fits =>
      have same : CmdLine.feed { cmd with nlen := 0 } = cmd.feed := by
        simp only [CmdLine.feed, Feed.mk.injEq, decide_eq_decide, true_and]
        omega
      exact same ▸ recvLoop_fed call all rfl (at_length sound).symm (by omega)
  next none =>
    have nothing : cmd.pending = [] := pending_nil (by omega)
    exact nothing ▸ recvLoop_fed call all (by omega) rfl rfl

/-- Without an error the buffer holds what a call returns. -/
theorem Fed.returned (fed : Fed old held n events r) (working : .error ∉ events) :
    r.buf.take r.ret.toNat = r.buf := by
  by_cases success : 0 ≤ r.ret
  · rw [fed.success success, Int.toNat_natCast, List.take_length]
  · rw [(fed.failure (by omega)).resolve_right working, List.take_nil]

end Calls

/-! ## Call after call -/

/-- A call, with all that came while it ran. -/
structure Call where
  n : Nat
  complete : Bool
  events : List Event
  ret : Int
  buf : List UInt8

def Recv (cmd : CmdLine) (call : Call) (cmd' : CmdLine) : Prop :=
  udpRecv call.complete cmd call.n call.events = some ⟨call.ret, call.buf, cmd', []⟩

def arrivals (calls : List Call) : List Packet := calls.flatMap fun call => datagrams call.events

/-- What the successful calls return. -/
def delivered (calls : List Call) : List UInt8 :=
  calls.flatMap fun call => call.buf.take call.ret.toNat

section Streams
variable {cmd cmd' : CmdLine} {call : Call} {calls : List Call}

theorem Recv.fed (recv : Recv cmd call cmd') (sound : cmd.Sound) :
    Fed cmd.feed cmd.pending call.n call.events ⟨call.ret, call.buf, cmd', []⟩ :=
  udpRecv_fed recv rfl sound

theorem fed_run (run : Run Recv cmd calls cmd') (sound : cmd.Sound) :
    cmd'.feed = (arrivals calls).foldl .next cmd.feed ∧ cmd'.Sound := by
  induction run with
  | stay => exact ⟨rfl, sound⟩
  | next head _ ih =>
    have fed := Recv.fed head sound
    obtain ⟨feed, sound'⟩ := ih fed.sound
    refine ⟨?_, sound'⟩
    rw [feed, show _ = _ from fed.feed, ← List.foldl_append]
    rfl

/-- Without an error, what is returned and what is pending is what was taken. -/
theorem bytes_run (run : Run Recv cmd calls cmd') (sound : cmd.Sound)
    (working : ∀ call ∈ calls, .error ∉ call.events) {out : List UInt8}
    (all : out ++ cmd.pending = taken cmd.log) :
    out ++ delivered calls ++ cmd'.pending = taken cmd'.log := by
  induction run generalizing out with
  | stay => simpa [delivered] using all
  | next head _ ih =>
    obtain ⟨here, rest⟩ := List.forall_mem_cons.mp working
    have fed := Recv.fed head sound
    have later := ih fed.sound rest (fed.bytes out all)
    rwa [← fed.returned here, List.append_assoc out] at later

/-- Once the last packet has come nothing else does. -/
theorem ended_run (run : Run Recv cmd calls cmd') (sound : cmd.Sound) (ended : cmd.nlen = -1) :
    cmd'.nlen = -1 := by
  have feed := (fed_run run sound).1
  rw [Feed.ended_fold (by simpa using ended)] at feed
  simpa using (congrArg Feed.ended feed).trans (decide_eq_true ended)

/-- A call that returns nothing, though no signal made it stop, has seen the last
packet. -/
theorem ended_of_zero (run : Run Recv cmd calls cmd') (sound : cmd.Sound) (mem : call ∈ calls)
    (asked : 0 < call.n) (zero : call.ret = 0) (unstopped : .timeout true ∉ call.events) :
    cmd'.nlen = -1 := by
  induction run with
  | stay => cases mem
  | next head rest ih =>
    have fed := Recv.fed head sound
    rcases List.mem_cons.mp mem with rfl | later
    · exact ended_run rest fed.sound ((fed.nothing zero asked).resolve_right unstopped)
    · exact ih fed.sound later

theorem most_run (run : Run Recv cmd calls cmd') (sound : cmd.Sound) (mem : call ∈ calls) :
    call.ret ≤ call.n ∧ call.buf.length ≤ call.n := by
  induction run with
  | stay => cases mem
  | next head rest ih =>
    have fed := Recv.fed head sound
    rcases List.mem_cons.mp mem with rfl | later
    · have most := fed.most
      have success := fed.success
      simp only at most success
      omega
    · exact ih fed.sound later

end Streams

/-! ## All packets in order -/

/-- What `udp_send` puts on the wire for some payloads, each with the flag of its
time, and the last packet behind them. -/
def sent (cmd : CmdLine) (stack : Int32) : List (Int32 × List UInt8) → List Packet
  | [] => (udpSend cmd stack []).toList.map (·.1)
  | (iframe, buf) :: rest =>
    match udpSend { cmd with iframe } stack buf with
    | none => []
    | some (p, cmd') => p :: sent cmd' stack rest

section Order
variable {cmd : CmdLine} {stack : Int32} {buf : List UInt8} {payloads : List (Int32 × List UInt8)}
  {p : Packet} {ps : List Packet} {log : List (Packet × Bool)}

theorem udpSend_data (sends : udpSend cmd stack buf = some (p, cmd')) (some_data : buf ≠ []) :
    p.seqno = cmd.seqNo ∧ p.len ≠ 0 ∧ (recvfrom p).data = buf ∧ cmd'.seqNo = cmd.seqNo + 1 := by
  rw [udpSend] at sends
  split at sends
  · cases sends
  next small =>
  split at sends
  next empty => exact absurd (List.eq_nil_of_length_eq_zero empty) some_data
  next full =>
    cases sends
    refine ⟨rfl, by simpa using full, ?_, rfl⟩
    exact List.take_of_length_le (by simp only; omega)

theorem sent_nil :
    sent cmd stack [] = [{ seqno := -1, iframe := stack, len := 0, data := [] }] := rfl

theorem next_sent (sends : udpSend cmd stack buf = some (p, cmd')) (some_data : buf ≠ []) :
    Feed.next ⟨cmd.seqNo, log, false⟩ p = ⟨cmd'.seqNo, log ++ [(recvfrom p, true)], false⟩ := by
  obtain ⟨number, data, -, counted⟩ := udpSend_data sends some_data
  simp [Feed.next, data, checkSeqno, number, counted]

/-- What a fold over packets took, of all there is to take. -/
def Takes (feed : Feed) (all : List UInt8) : Prop :=
  taken feed.log <+: all ∧ (feed.ended = true → taken feed.log = all)

theorem takes_nothing {seqNo : Int32} {more : List UInt8} :
    Takes ⟨seqNo, log, false⟩ (taken log ++ more) :=
  ⟨List.prefix_append .., fun ended => absurd ended (by simp)⟩

/-- A sender's packets in the order it sent them are all taken. -/
theorem takes_sent (log : List (Packet × Bool)) (order : ps <+: sent cmd stack payloads)
    (full : ∀ payload ∈ payloads, payload.2 ≠ []) :
    Takes (ps.foldl .next ⟨cmd.seqNo, log, false⟩) (taken log ++ payloads.flatMap (·.2)) := by
  induction payloads generalizing cmd ps log with
  | nil =>
    cases ps with
    | nil => exact takes_nothing
    | cons p ps =>
      rw [sent_nil] at order
      obtain ⟨rfl, rest⟩ := List.cons_prefix_cons.mp order
      rw [List.prefix_nil.mp rest]
      simp [Takes, Feed.next]
  | cons payload payloads ih =>
    obtain ⟨some_data, others⟩ := List.forall_mem_cons.mp full
    obtain ⟨iframe, buf⟩ := payload
    cases ps with
    | nil => exact takes_nothing
    | cons p ps =>
      rw [sent] at order
      split at order
      · exact absurd (List.prefix_nil.mp order) (List.cons_ne_nil _ _)
      next q cmd' sends =>
        obtain ⟨rfl, rest⟩ := List.cons_prefix_cons.mp order
        have bytes : taken [(recvfrom p, true)] = buf := by
          rw [taken_one, (udpSend_data sends some_data).2.2.1]
        have takes := ih (log ++ [(recvfrom p, true)]) rest others
        rw [taken_append, bytes, List.append_assoc] at takes
        rw [List.foldl_cons, List.flatMap_cons]
        exact (next_sent sends some_data).symm ▸ takes

end Order

/-- For every list of payloads sent, each request size and each placement of
timeouts: what `udp_recv` returns is a prefix of what was sent, and all of it
once the last packet has come, which is so when a call that no signal stopped
returns nothing. No call returns more than it was asked for. -/
theorem udp_stream (payloads : List (Int32 × List UInt8)) (stack : Int32) {calls : List Call}
    {cmd : CmdLine} (run : Run Recv {} calls cmd) (full : ∀ payload ∈ payloads, payload.2 ≠ [])
    (asked : ∀ call ∈ calls, 0 < call.n) (working : ∀ call ∈ calls, .error ∉ call.events)
    (order : arrivals calls <+: sent {} stack payloads) :
    delivered calls <+: payloads.flatMap (·.2) ∧
    ((∃ p ∈ arrivals calls, p.len = 0) → delivered calls = payloads.flatMap (·.2)) ∧
    (∀ call ∈ calls, call.ret = 0 → .timeout true ∉ call.events →
      delivered calls = payloads.flatMap (·.2)) ∧
    ∀ call ∈ calls, call.ret ≤ call.n ∧ call.buf.length ≤ call.n := by
  have fresh : CmdLine.Sound {} := sound_of_none (.inl rfl)
  have takes := takes_sent [] order full
  have feed : cmd.feed = (arrivals calls).foldl .next ⟨0, [], false⟩ := (fed_run run fresh).1
  have bytes : delivered calls ++ cmd.pending = taken cmd.log :=
    bytes_run run fresh working (List.append_nil [])
  change Takes ((arrivals calls).foldl .next ⟨0, [], false⟩) _ at takes
  rw [← feed, taken_nil, List.nil_append] at takes
  have whole (ended : cmd.nlen = -1) : delivered calls = payloads.flatMap (·.2) := by
    rw [pending_nil (by omega), List.append_nil] at bytes
    exact bytes.trans (takes.2 (decide_eq_true ended))
  refine ⟨?_, ?_, ?_, ?_⟩
  · exact (bytes ▸ List.prefix_append ..).trans takes.1
  · rintro ⟨p, mem, last⟩
    apply whole
    have ended := Feed.ended_of_last (f := ⟨0, [], false⟩) mem last
    rw [← feed] at ended
    exact of_decide_eq_true ended
  · intro call mem zero unstopped
    exact whole (ended_of_zero run fresh mem (asked call mem) zero unstopped)
  · intro call mem
    exact most_run run fresh mem

/-- Three bytes and two more are read two, one, two and none at a time. -/
def going : List Call :=
  [{ n := 2, complete := false, ret := 2, buf := [1, 2],
     events := [.datagram ⟨0, 1, 3, [1, 2, 3]⟩] },
   { n := 4, complete := false, ret := 1, buf := [3], events := [.timeout false] },
   { n := 4, complete := true, ret := 2, buf := [4, 5],
     events := [.timeout false, .datagram ⟨1, 0, 2, [4, 5]⟩, .datagram ⟨-1, 7, 0, []⟩] },
   { n := 4, complete := false, ret := 0, buf := [], events := [] }]

theorem going_run : ∃ cmd, Run Recv {} going cmd :=
  ⟨_, .next rfl (.next rfl (.next rfl (.next rfl (.stay _))))⟩

theorem udp_stream_going : delivered going = [1, 2, 3, 4, 5] := by
  obtain ⟨cmd, run⟩ := going_run
  have stream := udp_stream [(1, [1, 2, 3]), (0, [4, 5])] 7 run (by decide) (by decide)
    (by simp [going]) (by decide)
  exact stream.2.1 (by decide)

/-! ## Packets lost, repeated or out of order -/

/-- The rule for what is taken behind packet `last`: the next packet, as long as
nothing was refused, or one with the flag. -/
def Obeys (last : Int32) (gap : Bool) : List (Packet × Bool) → Prop
  | [] => True
  | (p, true) :: rest =>
    (p.iframe = 1 ∨ (gap = false ∧ p.seqno = last + 1)) ∧ Obeys p.seqno false rest
  | (_, false) :: rest => Obeys last true rest

/-- No packet comes, `dropped` having been refused since `last`, with the number
that many behind the one that was missing. -/
def Unmistaken (last : Int32) (dropped : Nat) : List Packet → Prop
  | [] => True
  | p :: ps =>
    if p.len = 0 then True
    else if p.iframe = 1 ∨ (dropped = 0 ∧ p.seqno = last + 1) then Unmistaken p.seqno 0 ps
    else p.seqno ≠ last + 1 + Int32.ofNat dropped ∧ Unmistaken last (dropped + 1) ps

instance decObeys : (last : Int32) → (gap : Bool) → (log : List (Packet × Bool)) →
    Decidable (Obeys last gap log)
  | _, _, [] => .isTrue trivial
  | _, _, (p, true) :: rest =>
    have := decObeys p.seqno false rest
    inferInstanceAs (Decidable (_ ∧ _))
  | last, _, (_, false) :: rest => decObeys last true rest

instance decUnmistaken : (last : Int32) → (dropped : Nat) → (ps : List Packet) →
    Decidable (Unmistaken last dropped ps)
  | _, _, [] => .isTrue trivial
  | last, dropped, p :: ps =>
    have := decUnmistaken p.seqno 0 ps
    have := decUnmistaken last (dropped + 1) ps
    inferInstanceAs (Decidable (
      if p.len = 0 then True
      else if p.iframe = 1 ∨ (dropped = 0 ∧ p.seqno = last + 1) then Unmistaken p.seqno 0 ps
      else p.seqno ≠ last + 1 + Int32.ofNat dropped ∧ Unmistaken last (dropped + 1) ps))

/-- What a receiver that expects `seqNo` makes of some packets. -/
def verdicts (seqNo : Int32) : List Packet → List (Packet × Bool)
  | [] => []
  | p :: ps =>
    if p.len = 0 then []
    else (recvfrom p, (checkSeqno seqNo p).1) :: verdicts (checkSeqno seqNo p).2 ps

section Gaps
variable {last seqNo : Int32} {dropped : Nat} {ps : List Packet} {log : List (Packet × Bool)}

theorem fold_log :
    (ps.foldl Feed.next ⟨seqNo, log, false⟩).log = log ++ verdicts seqNo ps := by
  induction ps generalizing seqNo log with
  | nil => simp [verdicts]
  | cons p ps ih =>
    rw [List.foldl_cons, verdicts]
    by_cases none : p.len = 0
    · rw [Feed.next, if_neg Bool.false_ne_true, if_pos none, if_pos none, Feed.ended_fold rfl,
        List.append_nil]
    · rw [Feed.next, if_neg Bool.false_ne_true, if_neg none, if_neg none, ih]
      simp only [List.append_assoc, List.singleton_append]

theorem check_flag {p : Packet} (flag : p.iframe = 1) :
    checkSeqno seqNo p = (true, p.seqno + 1) := by
  rw [checkSeqno, if_pos flag]
  split
  · rfl
  next same => rw [Decidable.not_not.mp same]

theorem check_expected {p : Packet} (expected : seqNo = p.seqno) :
    checkSeqno seqNo p = (true, p.seqno + 1) := by
  rw [checkSeqno, if_neg (not_not_intro expected), expected]

theorem check_other {p : Packet} (other : seqNo ≠ p.seqno) (flag : p.iframe ≠ 1) :
    checkSeqno seqNo p = (false, seqNo + 1) := by
  rw [checkSeqno, if_pos other, if_neg flag]

/-- While packets are refused the number expected runs on with them. -/
theorem obeys_verdicts :
    Obeys last (decide (dropped ≠ 0)) (verdicts (last + 1 + Int32.ofNat dropped) ps) ↔
      Unmistaken last dropped ps := by
  induction ps generalizing last dropped with
  | nil => exact Iff.rfl
  | cons p ps ih =>
    rw [verdicts, Unmistaken]
    by_cases none : p.len = 0
    · simp only [if_pos none, Obeys]
    simp only [if_neg none]
    have renumber : p.seqno + 1 + Int32.ofNat 0 = p.seqno + 1 := Int32.add_zero _
    by_cases flag : p.iframe = 1
    · have later := @ih p.seqno 0
      rw [renumber] at later
      simp only [check_flag flag, Obeys, recvfrom_seqno, recvfrom_iframe, flag, true_or, true_and, if_true]
      exact later
    by_cases expected : last + 1 + Int32.ofNat dropped = p.seqno
    · have later := @ih p.seqno 0
      rw [renumber] at later
      simp only [check_expected expected, Obeys, recvfrom_seqno, recvfrom_iframe, flag, false_or]
      by_cases first : dropped = 0
      · subst first
        have number : p.seqno = last + 1 := by rw [← expected]; exact Int32.add_zero _
        simpa [number] using later
      · simp [first, expected]
    · have later := @ih last (dropped + 1)
      rw [Int32.ofNat_add, ← Int32.add_assoc] at later
      simp only [check_other expected flag, Obeys]
      have refused : ¬(p.iframe = 1 ∨ dropped = 0 ∧ p.seqno = last + 1) := by
        rintro (set | ⟨rfl, number⟩)
        · exact flag set
        · exact expected ((Int32.add_zero _).trans number.symm)
      simpa [refused, Ne.symm expected] using later

end Gaps

/-- In every run the packets taken follow the rule exactly if none comes that is
mistaken for the next. -/
theorem gap_rule_iff {calls : List Call} {cmd : CmdLine} (run : Run Recv {} calls cmd) :
    Obeys (-1) false cmd.log ↔ Unmistaken (-1) 0 (arrivals calls) := by
  have feed : cmd.feed = (arrivals calls).foldl .next ⟨0, [], false⟩ :=
    (fed_run run (sound_of_none (.inl rfl))).1
  have log : cmd.log = verdicts 0 (arrivals calls) := by
    rw [← feed_log, feed, fold_log, List.nil_append]
  rw [log]
  exact @obeys_verdicts (-1) 0 (arrivals calls)

/-- Packet 1 is lost, and 2 and 3 change places. -/
def swapped : List Call :=
  [{ n := 1, complete := false, ret := 1, buf := [10], events := [.datagram ⟨0, 1, 1, [10]⟩] },
   { n := 1, complete := false, ret := 1, buf := [12],
     events := [.datagram ⟨3, 0, 1, [13]⟩, .datagram ⟨2, 0, 1, [12]⟩] }]

theorem swapped_taken : ∃ cmd, Run Recv {} swapped cmd ∧ ¬Obeys (-1) false cmd.log ∧
    delivered swapped = [10, 12] := by
  refine ⟨_, .next rfl (.next rfl (.stay _)), ?_, rfl⟩
  decide

theorem gap_rule_iff_going : ∃ cmd, Run Recv {} going cmd ∧ Obeys (-1) false cmd.log := by
  obtain ⟨cmd, run⟩ := going_run
  exact ⟨cmd, run, (gap_rule_iff run).mpr (by decide)⟩

end ImxTest.Vpu
