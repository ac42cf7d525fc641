import ImxTest.Etm.Packets

/-! Traces of ETM v3: what is written as packets is printed as it is meant. -/
namespace ImxTest.Etm.Etm33
open Lib Overlay While

/-- Instructions and the cycles between them. -/
inductive Header where
  /-- A cycle. -/
  | wait
  /-- So many instructions that are executed, and then one that is not. -/
  | runs (executed : Fin 16) (not : Bool)
  | pair (first second : Bool)
  | waits (more : Fin 8) (executed : Bool)
  /-- An instruction in the same cycle. -/
  | single (executed : Bool)
deriving DecidableEq, Repr

namespace Header

def bit (b : Bool) : Byte := (BitVec.ofBool b).setWidth 8

def byte : Header → Byte
  | wait => 0x80
  | runs executed not => 0x80 ||| bit not <<< 6 ||| BitVec.ofNat 8 executed <<< 2
  | pair first second => 0x82 ||| bit (!first) <<< 3 ||| bit (!second) <<< 2
  | waits more executed => 0xA0 ||| bit executed <<< 6 ||| BitVec.ofNat 8 more <<< 2
  | single executed => 0x92 ||| bit (!executed) <<< 2

/-- There is no cycle without a cycle accurate trace, and an instruction has its cycle with it. -/
def Fits (cycleAccurate : Bool) : Header → Prop
  | runs executed not => cycleAccurate = true → executed < 8 ∧ ¬(executed = 0 ∧ not = false)
  | pair _ _ => True
  | _ => cycleAccurate = true

instance (cycleAccurate : Bool) : (h : Header) → Decidable (h.Fits cycleAccurate)
  | runs _ _ => inferInstanceAs (Decidable (_ → _))
  | pair _ _ => inferInstanceAs (Decidable True)
  | wait | waits _ _ | single _ => inferInstanceAs (Decidable (_ = _))

def acts (cycleAccurate : Bool) (h : Header) : List Act :=
  let tick := if cycleAccurate then [.wait 1] else []
  match h with
  | wait => [.wait 1]
  | runs executed not =>
    (List.replicate executed (tick ++ [.instruction true])).flatten ++ if not then tick ++ [.instruction false] else []
  | pair first second => tick ++ [.instruction first, .instruction second]
  | waits more executed => [.wait (more + 1)] ++ if executed then [.instruction true] else []
  | single executed => [.instruction executed]

end Header

inductive Packet where
  /-- A byte of A-sync, but for the last. -/
  | zero
  | ignore
  | ccount (count : Word) (more : Nat)
  | isync (cycles : Option (Word × Nat)) (x : Sync)
  | branch (x : Address) (e : Exception)
  | header (h : Header)
  | timestamp (value : BitVec 64) (more : Nat) (r : Bool)
  | contextid (context : Word)
  | vmid (v : Byte)
  | data (size : Fin 4) (value : Word) (addr : Option (Word × Nat))
deriving DecidableEq, Repr

namespace Packet
variable (cfg : Config)

def isyncBytes (x : Sync) : List Byte := wordBytes x.context cfg.contextidBytes 0 ++ x.ib :: wordBytes x.sent 4 0

def dataHeader (size : Fin 4) (addressed : Bool) : Byte :=
  0x02 ||| BitVec.ofNat 8 size <<< 2 ||| Header.bit addressed <<< 5

def dataAddress : Option (Word × Nat) → List Byte
  | some (addr, more) => pieces addr more 0
  | none => []

def bytes : Packet → List Byte
  | zero => [0x00]
  | ignore => [0x66]
  | ccount count more => 0x04 :: pieces count more 0
  | isync none x => 0x08 :: isyncBytes cfg x
  | isync (some (count, more)) x => 0x70 :: (pieces count more 0 ++ isyncBytes cfg x)
  | branch x e => x.first :: branchBytes cfg.altBranch x e
  | header h => [h.byte]
  | timestamp value more r => timestampHeader r :: timestampBytes value more
  | contextid context => 0x6E :: wordBytes context cfg.contextidBytes 0
  | vmid v => [0x3C, v]
  | data size value addr =>
    dataHeader size addr.isSome :: (dataAddress addr ++ wordBytes value size 0)

def acts : Packet → List Act
  | zero | ignore => []
  | ccount count _ => [.cycles count]
  | isync cycles x =>
    (match cycles with | some (count, _) => [.cycles count] | none => []) ++
      [.goto x.mode x.addr, .tell (.isync true x.context x.ib x.addr)]
  | branch x e => branchActs cfg x e
  | header h => h.acts cfg.cycleAccurate
  | timestamp value _ r => [.timestamp value r]
  | contextid context => [.tell (.contextId true context)]
  | vmid v => [.tell (.vmid true v)]
  | data size value addr =>
    (match addr with | some (addr, _) => [.daddr addr] | none => []) ++
      [.tell (.data true (if (size : Nat) ≠ 0 then some value else none) (addr.map Prod.fst))]

/-- A number that may be there, put upon an old one. -/
def Sent (old : Word) : Option (Word × Nat) → Prop
  | some (x, more) => more < 5 ∧ Alike (7 * (more + 1)) x old
  | none => True

instance (old : Word) : (sent : Option (Word × Nat)) → Decidable (Sent old sent)
  | some _ => inferInstanceAs (Decidable (_ ∧ _))
  | none => inferInstanceAs (Decidable True)

/-- What is not sent is as it was. -/
def Fits (τ : Tracker) : Packet → Prop
  | zero | ignore | vmid _ => True
  | ccount count more => more < 5 ∧ Alike (7 * (more + 1)) count 0
  | isync cycles x => x.Fits cfg ∧ Sent 0 cycles
  | branch x _ => x.Fits cfg.altBranch τ.mode τ.addr
  | header h => h.Fits cfg.cycleAccurate
  | timestamp value more _ => more ≤ 8 ∧ (more ≠ 8 → Alike (7 * (more + 1)) value τ.timestamp)
  | contextid context => Alike (8 * cfg.contextidBytes) context 0
  | data size value addr => Alike (8 * size) value 0 ∧ Sent τ.daddr addr

instance (τ : Tracker) : (p : Packet) → Decidable (p.Fits cfg τ)
  | zero | ignore | vmid _ => inferInstanceAs (Decidable True)
  | contextid _ => inferInstanceAs (Decidable (Alike _ _ _))
  | branch _ _ => inferInstanceAs (Decidable (Address.Fits _ _ _ _))
  | header _ => inferInstanceAs (Decidable (Header.Fits _ _))
  | ccount _ _ | isync _ _ | timestamp _ _ _ | data _ _ _ => inferInstanceAs (Decidable (_ ∧ _))

end Packet

section Headers
variable {cfg : Config} {τ : Tracker} {d : Byte}

theorem runs_byte : ∀ (e : Fin 16) (n : Bool), (Header.runs e n).byte &&& 0x83 = 0x80 ∧
    (((Header.runs e n).byte >>> 2) &&& 0xF).toNat = e ∧ decide ((Header.runs e n).byte &&& 0x40 ≠ 0) = n := by
  decide

theorem few_byte : ∀ (e : Fin 16) (n : Bool), e < 8 → ¬(e = 0 ∧ n = false) → (Header.runs e n).byte ≠ 0x80 ∧
    (Header.runs e n).byte &&& 0xA3 = 0x80 ∧ (((Header.runs e n).byte >>> 2) &&& 7).toNat = e ∧
    (((Header.runs e n).byte >>> 6) &&& 1).toNat = n.toNat := by
  decide

theorem pair_byte : ∀ (first second : Bool), (Header.pair first second).byte &&& 0x83 ≠ 0x80 ∧
    (Header.pair first second).byte ≠ 0x80 ∧ (Header.pair first second).byte &&& 0xA3 ≠ 0x80 ∧
    (Header.pair first second).byte &&& 0xF3 = 0x82 ∧ decide ((Header.pair first second).byte &&& 8 = 0) = first ∧
    decide ((Header.pair first second).byte &&& 4 = 0) = second := by
  decide

theorem waits_byte : ∀ (more : Fin 8) (e : Bool), (Header.waits more e).byte ≠ 0x80 ∧
    (Header.waits more e).byte &&& 0xA3 ≠ 0x80 ∧ (Header.waits more e).byte &&& 0xF3 ≠ 0x82 ∧
    (Header.waits more e).byte &&& 0xA3 = 0xA0 ∧ (((Header.waits more e).byte >>> 2) &&& 7).toNat = more ∧
    (((Header.waits more e).byte >>> 6) &&& 1).toNat = e.toNat := by
  decide

theorem single_byte : ∀ e : Bool, (Header.single e).byte ≠ 0x80 ∧ (Header.single e).byte &&& 0xA3 ≠ 0x80 ∧
    (Header.single e).byte &&& 0xF3 ≠ 0x82 ∧ (Header.single e).byte &&& 0xA3 ≠ 0xA0 ∧
    (Header.single e).byte &&& 0xFB = 0x92 ∧ decide ((Header.single e).byte &&& 4 = 0) = e := by
  decide

theorem header_found (h : Header) : packetTypesEtm33.findIdx? (fun type => type.Matches h.byte) = some 25 := by
  cases h with
  | wait => decide
  | runs e n => revert e n; decide
  | pair a b => revert a b; decide
  | waits c e => revert c e; decide
  | single e => revert e; decide

/-- An instruction with its cycle. -/
theorem tells_tick (τ : Tracker) (d : Byte) (executed : Bool) : Tells cfg τ d [] (do
      wait 1
      printInstruction cfg executed) () [.wait 1, .instruction executed] :=
  (Tells.wait 1).step fun _ => Tells.instruction executed

theorem flatten_toNat {b : Bool} {acts : List Act} : (List.replicate b.toNat acts).flatten = if b then acts else [] := by
  cases b <;> simp

theorem tells_accurate {h : Header} (fits : h.Fits true) :
    Tells cfg τ h.byte [] (pheaderCycleAccurate cfg) () (h.acts true) := by
  refine Tells.get fun source out => ?_
  dsimp only [State.from, Tracker.state]
  cases h with
  | wait => exact Tells.wait 1
  | runs e n =>
      obtain ⟨other, runs, executed, not⟩ := few_byte e n (fits rfl).1 (fits rfl).2
      rw [if_neg other, if_pos runs, executed, not]
      refine Tells.step (Tells.times e fun τ d => tells_tick τ d true) fun d => ?_
      have last : Tells cfg (τ.after cfg (List.replicate e [.wait 1, .instruction true]).flatten) d [] _ () _ :=
        Tells.times n.toNat fun τ d => tells_tick τ d false
      rwa [flatten_toNat] at last
  | pair first second =>
      obtain ⟨-, other, other', pair, one, two⟩ := pair_byte first second
      rw [if_neg other, if_neg other', if_pos pair, one, two]
      exact (Tells.wait 1).step fun _ => (Tells.instruction first).step fun _ => Tells.instruction second
  | waits more e =>
      obtain ⟨other, other', other'', waits, cycles, executed⟩ := waits_byte more e
      rw [if_neg other, if_neg other', if_neg other'', if_pos waits, cycles, executed]
      refine (Tells.wait (more + 1)).step fun d => ?_
      have last : Tells cfg (τ.after cfg [.wait (more + 1)]) d [] _ () _ :=
        Tells.times e.toNat fun τ d => Tells.instruction true
      rwa [flatten_toNat] at last
  | single e =>
      obtain ⟨other, other', other'', other₃, single, executed⟩ := single_byte e
      rw [if_neg other, if_neg other', if_neg other'', if_neg other₃, if_pos single, executed]
      exact Tells.instruction e

theorem tells_plain {h : Header} (fits : h.Fits false) :
    Tells cfg τ h.byte [] (pheaderNonCycleAccurate cfg) () (h.acts false) := by
  refine Tells.get fun source out => ?_
  dsimp only [State.from, Tracker.state]
  cases h with
  | runs e n =>
      obtain ⟨runs, executed, not⟩ := runs_byte e n
      rw [if_pos runs, executed]
      refine Tells.step (Tells.times e fun τ d => Tells.instruction true) fun d => ?_
      cases n with
      | true =>
          rw [if_pos (of_decide_eq_true not)]
          exact Tells.instruction false
      | false =>
          rw [if_neg (of_decide_eq_false not)]
          exact .pure
  | pair first second =>
      obtain ⟨other, -, -, pair, one, two⟩ := pair_byte first second
      rw [if_neg other, if_pos pair, one, two]
      exact (Tells.instruction first).step fun _ => Tells.instruction second
  | wait | waits _ _ | single _ => cases fits

theorem tells_header {h : Header} (fits : h.Fits cfg.cycleAccurate) :
    Tells cfg τ h.byte [] (pheader cfg) () (h.acts cfg.cycleAccurate) := by
  unfold pheader
  cases accurate : cfg.cycleAccurate with
  | true =>
      rw [if_pos rfl]
      exact tells_accurate (accurate ▸ fits)
  | false =>
      rw [if_neg (by decide)]
      exact tells_plain (accurate ▸ fits)

end Headers

section Packets
variable {cfg : Config} {τ : Tracker} {d : Byte}

theorem tells_count {count : Word} {more : Nat} (few : more < 5) (alike : Alike (7 * (more + 1)) count 0) :
    Tells cfg τ d (pieces count more 0) (ccount cfg) () [.cycles count] := by
  rw [← List.append_nil (pieces _ _ _)]
  exact (Tells.number few alike).read fun d => Tells.count

/-- I-sync, in whatever state the decoder is. -/
theorem isync_comes {x : Sync} (fits : x.Fits cfg) (s : State) (synced : s.sync = 1) :
    Comes cfg (Packet.isyncBytes cfg x) (isync cfg) () s (x.tracker s)
      (s.out ++ [.isync true x.context x.ib x.addr]) := by
  have positive : 0 < s.sync := by
    rw [synced]
    decide
  obtain ⟨d, context⟩ := getContextid_reads (s := s) positive fits.context
  obtain ⟨d', addr⟩ := getAddr_reads cfg x.sent (s := { s with data := x.ib }) positive
  refine Comes.bind context ?_
  change Comes cfg ([x.ib] ++ (wordBytes x.sent 4 0 ++ ([] ++ []))) _ _ _ _ _
  refine Comes.bind (.getByte positive) (Comes.bind addr (Comes.bind (updateAddr_sent fits) ?_))
  intro source rest yields
  exact ⟨d', source, by simp [Etm.emit, Prog.modify, State.from, Sync.tracker, Tracker.state, State.synced, synced], yields⟩

theorem isync_tells {x : Sync} (fits : x.Fits cfg) : Tells cfg τ d (Packet.isyncBytes cfg x) (isync cfg) ()
    [.goto x.mode x.addr, .tell (.isync true x.context x.ib x.addr)] := fun out => isync_comes fits (τ.state d out) rfl

theorem dataHeader_byte : ∀ (size : Fin 4) (addressed : Bool),
    (((Packet.dataHeader size addressed >>> 2) &&& 3).toNat = size ∧
      decide (Packet.dataHeader size addressed &&& 0x20 ≠ 0) = addressed) ∧
    packetTypesEtm33.findIdx? (fun type => type.Matches (Packet.dataHeader size addressed)) = some 14 := by
  decide

theorem tells_data {size : Fin 4} {value : Word} {addr : Option (Word × Nat)}
    (fits : (Packet.data size value addr).Fits cfg τ) : Tells cfg τ (Packet.dataHeader size addr.isSome)
      (Packet.dataAddress addr ++ wordBytes value size 0) (ndata cfg) () ((Packet.data size value addr).acts cfg) := by
  refine Tells.get fun source out => ?_
  obtain ⟨⟨sized, flag⟩, -⟩ := dataHeader_byte size addr.isSome
  dsimp only [State.from, Tracker.state]
  rw [sized, flag]
  -- the bytes of the data
  have rest (τ' : Tracker) (d : Byte) (same : ∀ sent ∈ addr, τ'.daddr = sent.1) :
      Tells cfg τ' d (wordBytes value size 0) (do
        let data ← word cfg size 0 0
        emit fun s => .data s.synced (if (size : Nat) ≠ 0 then some data else none)
          (if addr.isSome = true then some s.daddr else none)) ()
        [.tell (.data true (if (size : Nat) ≠ 0 then some value else none) (addr.map Prod.fst))] := by
    rw [← List.append_nil (wordBytes _ _ _)]
    refine (Tells.word fits.1).read fun d => Tells.emit fun out source => ?_
    cases addr with
    | none => simp [State.from, Tracker.state, State.synced]
    | some sent => simp [State.from, Tracker.state, State.synced, same sent rfl]
  cases addr with
  | none => exact rest τ _ (fun sent none_ => absurd none_ (Option.not_mem_none _))
  | some sent =>
      obtain ⟨addr, more⟩ := sent
      refine Tells.get fun source out => (Tells.number fits.2.1 fits.2.2).read fun d => ?_
      have told : Tells cfg τ d [] (Prog.modify fun s => { s with daddr := addr }) () [.daddr addr] :=
        Tells.act fun out => Reads.modify fun source => by
          simp only [perform, List.append_nil]
          rfl
      refine told.step fun d => rest (τ.after cfg [.daddr addr]) d fun sent same => ?_
      cases same
      rfl

theorem found : (∀ ch : Byte, ch &&& 1 = 1 → packetTypesEtm33.findIdx? (fun type => type.Matches ch) = some 0) ∧
    (∀ r, packetTypesEtm33.findIdx? (fun type => type.Matches (timestampHeader r)) = some 16) ∧
    [0x00, 0x04, 0x08, 0x70, 0x3C, 0x66, 0x6E].map
      (fun ch => packetTypesEtm33.findIdx? (fun type => type.Matches ch)) =
      [some 1, some 2, some 3, some 7, some 12, some 19, some 21] := by
  decide

/-- Every packet is read as it is written. -/
theorem tells_packet {p : Packet} (fits : p.Fits cfg τ) :
    Tells cfg τ d (p.bytes cfg) (decodePacket cfg packetTypesEtm33) () (p.acts cfg) := by
  obtain ⟨odd, times, others⟩ := found
  simp only [List.map_cons, List.map_nil, List.cons.injEq, and_true] at others
  obtain ⟨zero, cycles, sync, syncCycles, machine, ignored, context⟩ := others
  cases p with
  | zero => exact Tells.packet zero rfl .pure
  | ignore => exact Tells.packet ignored rfl .pure
  | ccount count more => exact Tells.packet cycles rfl (tells_count fits.1 fits.2)
  | isync count x =>
      obtain ⟨fits, counted⟩ := fits
      cases count with
      | none => exact Tells.packet sync rfl (isync_tells fits)
      | some sent =>
          exact Tells.packet syncCycles rfl ((tells_count counted.1 counted.2).bind fun d => isync_tells fits)
  | branch x e => exact Tells.packet (odd _ Address.first_odd) rfl (Tells.branch fits)
  | header h => exact Tells.packet (header_found h) rfl (tells_header fits)
  | timestamp value more r => exact Tells.packet (times r) rfl (Tells.timestamp fits.1 fits.2)
  | contextid x => exact Tells.packet context rfl (Tells.contextid fits)
  | vmid v => exact Tells.packet machine rfl Tells.vmid
  | data size value addr => exact Tells.packet (dataHeader_byte _ _).2 rfl (tells_data fits)

end Packets

/-! ## Traces -/

/-- A trace begins with A-sync and I-sync. -/
structure Trace where
  zeros : Nat
  sync : Sync
  packets : List Packet

namespace Trace
variable (cfg : Config) (trace : Trace)

def bytes : List Byte :=
  List.replicate trace.zeros 0 ++ ((0x80 :: 0x08 :: Packet.isyncBytes cfg trace.sync) ++ trace.packets.flatMap (Packet.bytes cfg))

/-- The byte that ends A-sync is taken for a packet of its own, so that a cycle accurate trace begins with a cycle. -/
def start : Tracker where
  mode := trace.sync.mode
  addr := trace.sync.addr
  pc := trace.sync.addr
  waits := if cfg.cycleAccurate then 1 else 0

structure Fits : Prop where
  zeros : 5 ≤ trace.zeros
  sync : trace.sync.Fits cfg
  packets : InTurn cfg (fun τ p => p.Fits cfg τ) (Packet.acts cfg) (trace.start cfg) trace.packets

def acts : List Act := trace.packets.flatMap (Packet.acts cfg)

def lines : List Line :=
  .isync true trace.sync.context trace.sync.ib trace.sync.addr :: (trace.start cfg).lines cfg (trace.acts cfg) ++
    ((trace.start cfg).after cfg (trace.acts cfg)).rest

end Trace

theorem async_end (cfg : Config) (s : State) (synced : s.sync = 1) :
    Reads cfg [0x80] (decodePacket cfg packetTypesEtm33) () s
      { s with data := 0x80, waitCount := if cfg.cycleAccurate then s.waitCount + 1 else s.waitCount } := by
  have positive : 0 < s.sync := by
    rw [synced]
    decide
  refine Reads.packet positive (header_found .wait) rfl ?_
  unfold pheader
  cases accurate : cfg.cycleAccurate with
  | true =>
      rw [if_pos rfl]
      refine Reads.get fun source => ?_
      exact Reads.modify fun source => rfl
  | false =>
      rw [if_neg (by decide)]
      refine Reads.get fun source => ?_
      dsimp only [State.from]
      rw [if_pos (by decide), if_neg (by decide)]
      exact Reads.step .pure .pure

/-- Whatever is written as a trace of ETM v3 is printed as it is meant, instruction by instruction, with the
addresses, cycles, timestamps and data that the packets have, however short these are written. -/
theorem etm33_prints (cfg : Config) (trace : Trace) (fits : trace.Fits cfg) (source : Source)
    (yields : Yields cfg source (trace.bytes cfg)) :
    Prints cfg packetTypesEtm33 { source } (trace.lines cfg) := by
  have table := found.2.2
  simp only [List.map_cons, List.map_nil, List.cons.injEq, and_true] at table
  obtain ⟨zero, -, sync, -⟩ := table
  obtain ⟨source₁, yields, zeros⟩ := async_start cfg (by rw [lookup_eq zero]; rfl) fits.zeros yields
  -- the byte behind the zeros, and I-sync
  let s : State := { source := .empty, data := 0x80, sync := 1, waitCount := if cfg.cycleAccurate then 1 else 0 }
  change Yields cfg source₁ ([0x80] ++ _) at yields
  obtain ⟨source₂, yields, ended⟩ := (async_end cfg { source := .empty, sync := 1 } rfl).again yields
  have isync := Comes.packet (s := s) (show (0 : Int) < 1 by decide) sync rfl (isync_comes fits.sync _ rfl)
  obtain ⟨d, source₃, yields, synced⟩ := isync.again yields
  obtain ⟨final, ends, printed⟩ := packets_end (d := d) (fun τ d p fits => tells_packet fits) fits.packets
    [.isync true trace.sync.context trace.sync.ib trace.sync.addr] yields
  refine ⟨final, (zeros _).mpr ((ended _).mpr ((synced _).mpr ends)), printed⟩

/-- A short trace with alternative branch encoding. -/
def sample : Trace where
  zeros := 5
  sync := ⟨.arm, 0xC0008000, 0x20, 0x42⟩
  packets := [.header (.runs 2 true), .branch ⟨.arm, 0xC0008100, 1, false⟩ ⟨0, 0⟩, .timestamp 0x12345 2 true,
    .header (.pair true false), .branch ⟨.thumb, 0xBF000200, 4, true⟩ ⟨0x83, 0x01⟩, .header (.runs 1 false),
    .data (Fin.last 3) 0xBEEF (some (0x80001000, 4)), .zero, .ignore]

theorem etm33_sample_prints : Prints { cycleAccurate := false, altBranch := true } packetTypesEtm33
    { source := { input := sample.bytes { cycleAccurate := false, altBranch := true } } }
    [.isync true 0x42 0x20 0xC0008000,
      .instruction true true 0xC0008000 none none none, .instruction true true 0xC0008004 none none none,
      .instruction true false 0xC0008008 none none none, .branch true 0xC0008100 none none .arm,
      .timestamp true 0x12345 0x12345 true,
      .instruction true true 0xC0008100 none none none, .instruction true false 0xC0008104 none none none,
      .branch true 0xBF000200 (some 0x83) none .thumb, .instruction true true 0xBF000200 none none none,
      .data true (some 0xBEEF) (some 0x80001000)] :=
  etm33_prints { cycleAccurate := false, altBranch := true } sample
    ⟨by decide, ⟨by decide, by decide, by decide⟩, by decide⟩ _ (yields_input rfl _)

end ImxTest.Etm.Etm33
