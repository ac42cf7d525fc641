import ImxTest.Etm.Packets

/-! The program flow trace: what is written as packets is printed as it is meant. -/
namespace ImxTest.Etm.Pft
open Lib Overlay While

/-- A cycle count and the bytes behind its first one. -/
structure Cycles where
  count : Word
  more : Nat
deriving DecidableEq, Repr

namespace Cycles

/-- The byte that a count begins with has four bits of it; in an atom it also has the atom. -/
def header (x : Cycles) (atom not : Bool) : Byte :=
  ((BitVec.ofBool atom ++ BitVec.ofBool (x.more ≠ 0)) ++ x.count.extractLsb' 0 4) ++ (BitVec.ofBool not ++ 0#1)

def rest (x : Cycles) : List Byte := if x.more = 0 then [] else pieces x.count (x.more - 1) 4

def Fits (x : Cycles) : Prop := x.more < 5 ∧ Alike (4 + 7 * x.more) x.count 0

instance (x : Cycles) : Decidable x.Fits := inferInstanceAs (Decidable (_ ∧ _))

/-- What goes with a packet of a cycle accurate trace. -/
def bytes (cfg : Config) (x : Cycles) : List Byte := if cfg.cycleAccurate then x.header false false :: x.rest else []

def acts (cfg : Config) (x : Cycles) : List Act := if cfg.cycleAccurate then [.cycles x.count] else []

end Cycles

/-- Branch points behind a bit that marks the first of them. -/
def atomsByte (executed : List Bool) : Byte :=
  0x80 ||| (executed.foldl (fun (bits : Byte) e => bits <<< 1 ||| (BitVec.ofBool !e).setWidth 8) (1 : Byte)) <<< 1

inductive Packet where
  /-- A byte of A-sync, but for the last. -/
  | zero
  | ignore
  | isync (x : Sync) (cycles : Cycles)
  | atoms (executed : List Bool)
  | atom (executed : Bool) (cycles : Cycles)
  | branch (x : Address) (e : Exception) (cycles : Cycles)
  | waypoint (x : Address) (ib : Byte)
  | trigger
  | contextid (context : Word)
  | vmid (v : Byte)
  | timestamp (value : BitVec 64) (more : Nat) (r : Bool) (cycles : Cycles)
  | exceptRet
deriving DecidableEq, Repr

namespace Packet
variable (cfg : Config)

/-- There are cycles if the byte says so. -/
def counted (x : Sync) : Bool := cfg.cycleAccurate ∧ x.ib &&& 0x60 ≠ 0

def isyncBytes (x : Sync) (cycles : Cycles) : List Byte :=
  wordBytes x.sent 4 0 ++ x.ib ::
    ((if counted cfg x then cycles.header false false :: cycles.rest else []) ++ wordBytes x.context cfg.contextidBytes 0)

def bytes : Packet → List Byte
  | zero => [0x00]
  | ignore => [0x66]
  | isync x cycles => 0x08 :: isyncBytes cfg x cycles
  | atoms executed => [atomsByte executed]
  | atom executed cycles => cycles.header true (!executed) :: cycles.rest
  | branch x e cycles => x.first :: (branchBytes cfg.altBranch x e ++ cycles.bytes cfg)
  | waypoint x ib => 0x72 :: x.first :: (x.rest cfg.altBranch ++ if x.exception then [ib] else [])
  | trigger => [0x0C]
  | contextid context => 0x6E :: wordBytes context cfg.contextidBytes 0
  | vmid v => [0x3C, v]
  | timestamp value more r cycles => timestampHeader r :: (timestampBytes value more ++ cycles.bytes cfg)
  | exceptRet => [0x76]

def syncActs (x : Sync) (cycles : Cycles) : List Act :=
  (if counted cfg x then [.cycles cycles.count] else []) ++ [.tell (.isync true x.context x.ib x.addr)]

def acts : Packet → List Act
  | zero | ignore => []
  | isync x cycles => .goto x.mode x.addr :: syncActs cfg x cycles
  | atoms executed => executed.map .instruction
  | atom executed cycles => [.cycles cycles.count, .instruction executed]
  | branch x e cycles => branchActs cfg x e ++ cycles.acts cfg
  | waypoint x ib => x.acts cfg ++ [.tell (.waypoint true x.addr (if x.exception then some ib else none) none x.mode)]
  | trigger => [.tell (.trigger true)]
  | contextid context => [.tell (.contextId true context)]
  | vmid v => [.tell (.vmid true v)]
  | timestamp value _ r cycles => .timestamp value r :: cycles.acts cfg
  | exceptRet => [.tell (.exceptionReturn true)]

/-- What is not sent is as it was. Branch points have their cycles in a cycle accurate trace, and otherwise none. -/
def Fits (τ : Tracker) : Packet → Prop
  | isync x cycles => x.Fits cfg ∧ cycles.Fits
  | atoms executed => cfg.cycleAccurate = false ∧ executed.length ≤ 5
  | atom _ cycles => cfg.cycleAccurate = true ∧ cycles.Fits
  | branch x _ cycles => x.Fits cfg.altBranch τ.mode τ.addr ∧ cycles.Fits
  | waypoint x _ => x.Fits cfg.altBranch τ.mode τ.addr
  | contextid context => Alike (8 * cfg.contextidBytes) context 0
  | timestamp value more _ cycles => more ≤ 8 ∧ (more ≠ 8 → Alike (7 * (more + 1)) value τ.timestamp) ∧ cycles.Fits
  | _ => True

instance (τ : Tracker) : (p : Packet) → Decidable (p.Fits cfg τ)
  | isync _ _ | atoms _ | atom _ _ | branch _ _ _ | timestamp _ _ _ _ => inferInstanceAs (Decidable (_ ∧ _))
  | waypoint _ _ => inferInstanceAs (Decidable (Address.Fits _ _ _ _))
  | contextid _ => inferInstanceAs (Decidable (Alike _ _ _))
  | zero | ignore | trigger | vmid _ | exceptRet => inferInstanceAs (Decidable True)

end Packet

section Counts
variable {cfg : Config} {τ : Tracker} {d : Byte} {x : Cycles}

/-- The fields of the byte that a count begins with. -/
theorem header_fields (atom more not : Bool) (v : BitVec 4) :
    let h : Byte := ((BitVec.ofBool atom ++ BitVec.ofBool more) ++ v) ++ (BitVec.ofBool not ++ 0#1)
    (h >>> 2) &&& 0xF = v.setWidth 8 ∧ decide (h &&& 0x40 ≠ 0) = more ∧ decide (h &&& 2 = 0) = !not := by
  revert atom more not v
  decide

theorem low_count : ((x.count.extractLsb' 0 4).setWidth 8).setWidth 32 = mix 4 x.count (0 : Word) := by
  apply BitVec.eq_of_getLsbD_eq
  intro i inside
  rw [getLsbD_mix inside, BitVec.getLsbD_setWidth, BitVec.getLsbD_setWidth, BitVec.getLsbD_extractLsb']
  by_cases low : i < 4
  · simp [low, inside, show i < 8 by omega]
  · simp [low]

theorem tells_cycles {atom not : Bool} (fits : x.Fits) :
    Tells cfg τ (x.header atom not) x.rest (cycleCountPft cfg) () [.cycles x.count] := by
  refine Tells.get fun source out => ?_
  obtain ⟨low, more, -⟩ := header_fields atom (x.more ≠ 0) not (x.count.extractLsb' 0 4)
  have low : ((x.header atom not >>> 2) &&& 0xF).setWidth 32 = mix 4 x.count (0 : Word) := by
    rw [Cycles.header, low, low_count]
  have flag : x.header atom not &&& 0x40 ≠ 0 ↔ x.more ≠ 0 := decide_eq_decide.mp more
  dsimp only [State.from, Tracker.state]
  rw [low]
  unfold Cycles.rest
  by_cases none_ : x.more = 0
  · have alike : Alike 4 x.count 0 := by simpa [none_] using fits.2
    rw [if_neg (fun set => flag.mp set none_), if_pos none_, mix_eq alike]
    exact Tells.count
  · have positive : 0 < x.more := Nat.pos_of_ne_zero none_
    have bound := fits.1
    have alike : Alike (4 + 7 * (x.more - 1 + 1)) x.count 0 := by
      rw [Nat.sub_add_cancel positive]
      exact fits.2
    rw [if_pos (flag.mpr none_), if_neg none_, ← List.append_nil (pieces _ _ _)]
    exact (Tells.pieces (by omega) alike).read fun d => Tells.count

theorem tells_then (fits : x.Fits) : Tells cfg τ d (x.bytes cfg) (thenCycles cfg) () (x.acts cfg) := by
  unfold thenCycles Cycles.bytes Cycles.acts
  cases cfg.cycleAccurate with
  | true => exact Tells.byte (tells_cycles fits)
  | false => exact .pure

theorem tells_atom {executed : Bool} (fits : x.Fits) : Tells cfg τ (x.header true (!executed)) x.rest
    (atomCycleAccurate cfg) () [.cycles x.count, .instruction executed] := by
  refine Tells.get fun source out => ?_
  have flag : decide (x.header true (!executed) &&& 2 = 0) = executed :=
    (header_fields true (x.more ≠ 0) (!executed) (x.count.extractLsb' 0 4)).2.2.trans (Bool.not_not executed)
  refine (tells_cycles fits).last fun d => ?_
  change Tells cfg _ d [] (printInstruction cfg (decide (x.header true (!executed) &&& 2 = 0))) () _
  rw [flag]
  exact Tells.instruction executed

end Counts

/-! ## Branch points -/

section Atoms
variable {cfg : Config} {τ : Tracker} {d : Byte}

/-- The bits behind the one that was found. -/
def flags : (i : Nat) → (d : Byte) → List Bool
  | 0, _ => []
  | i + 1, d => decide ((d <<< 1) &&& 0x80 = 0) :: flags i (d <<< 1)

theorem tells_flags (i : Nat) (b : Byte) : Tells cfg τ d [] (atoms cfg i b) () ((flags i b).map .instruction) := by
  induction i generalizing τ d b with
  | zero => exact .pure
  | succ i ih => exact (Tells.instruction _).step fun d => ih (b <<< 1)

/-- The loop finds the bit that marks the first branch point. -/
theorem flags_atomsByte (executed : List Bool) (few : executed.length ≤ 5) :
    flags (firstBit 5 (atomsByte executed <<< 1)).1 (firstBit 5 (atomsByte executed <<< 1)).2 = executed := by
  match executed, few with
  | [], _ => decide
  | [a], _ => revert a; decide
  | [a, b], _ => revert a b; decide
  | [a, b, c], _ => revert a b c; decide
  | [a, b, c, e], _ => revert a b c e; decide
  | [a, b, c, e, f], _ => revert a b c e f; decide

theorem tells_atoms {executed : List Bool} (few : executed.length ≤ 5) :
    Tells cfg τ (atomsByte executed) [] (atomNonCycleAccurate cfg) () (executed.map .instruction) := by
  refine Tells.get fun source out => ?_
  have loop : Tells cfg τ (atomsByte executed) [] _ () _ := tells_flags (firstBit 5 (atomsByte executed <<< 1)).1
    (firstBit 5 (atomsByte executed <<< 1)).2
  rwa [flags_atomsByte executed few] at loop

end Atoms

/-! ## Packets -/

section Packets
variable {cfg : Config} {τ : Tracker} {d : Byte}

theorem tells_waypoint {x : Address} {ib : Byte} (fits : x.Fits cfg.altBranch τ.mode τ.addr) :
    Tells cfg τ d (x.first :: (x.rest cfg.altBranch ++ if x.exception then [ib] else [])) (waypoint cfg) ()
      ((Packet.waypoint x ib).acts cfg) := by
  refine Tells.byte ((Tells.branchAddr fits).bind fun d => ?_)
  obtain ⟨addr, mode⟩ := after_acts cfg τ x
  have line (ib : Option Byte) (d : Byte) : Tells cfg (τ.after cfg (x.acts cfg)) d []
      (emit fun s => .waypoint s.synced s.iaddr ib s.valid s.mode) () [.tell (.waypoint true x.addr ib none x.mode)] :=
    Tells.emit fun out source => by simp [State.from, Tracker.state, State.synced, State.valid, addr, mode]
  cases x.exception with
  | false => exact line none d
  | true => exact Tells.byte (f := fun _ => emit _) (line (some ib) ib)

/-- I-sync, in whatever state the decoder is. -/
theorem isyncPft_comes {x : Sync} {cycles : Cycles} (fits : x.Fits cfg) (counted : cycles.Fits) (s : State)
    (synced : s.sync = 1) : Comes cfg (Packet.isyncBytes cfg x cycles) (isyncPft cfg) () s (x.tracker s)
      (s.out ++ (x.tracker s).lines cfg (Packet.syncActs cfg x cycles)) := by
  have positive : 0 < s.sync := by
    rw [synced]
    decide
  obtain ⟨d', addr⟩ := getAddr_reads cfg x.sent positive
  refine Comes.bind addr ?_
  change Comes cfg ([x.ib] ++ ([] ++ _)) _ _ _ _ _
  refine Comes.bind (.getByte positive) (Comes.bind (updateAddr_sent fits) ?_)
  -- from here on all is known
  have line (d : Byte) : Tells cfg (x.tracker s) d (wordBytes x.context cfg.contextidBytes 0)
      (do let context ← getContextid cfg; emit fun s => .isync s.synced context x.ib s.iaddr) ()
      [.tell (.isync true x.context x.ib x.addr)] := by
    rw [← List.append_nil (wordBytes _ _ _)]
    exact (Tells.word fits.context).read fun d => Tells.emit fun _ _ => rfl
  rw [show { s with data := x.ib, mode := x.mode, iaddr := x.addr, iaddrValid := 0xFFFFFFFF, pc := x.addr, branchCount := 0 } =
      State.from ((x.tracker s).state x.ib s.out) s.source by simp [State.from, Sync.tracker, Tracker.state, synced]]
  unfold Packet.syncActs Packet.counted
  by_cases counts : cfg.cycleAccurate = true ∧ x.ib &&& 0x60 ≠ 0
  · simp only [counts, ne_eq, not_false_eq_true, and_self, decide_true, if_true]
    have first : Tells cfg (x.tracker s) (cycles.header false false) cycles.rest _ () _ := tells_cycles counted
    have both := first.bind (f := fun _ => _) fun d => line d
    exact Tells.byte (d := x.ib) (f := fun _ => _) both s.out
  · simp only [counts, decide_false, Bool.false_eq_true, if_false]
    exact line x.ib s.out

theorem after_syncActs {x : Sync} {cycles : Cycles} : τ.after cfg (Packet.syncActs cfg x cycles) = τ := by
  unfold Packet.syncActs
  split <;> rfl

theorem isyncPft_tells {x : Sync} {cycles : Cycles} (fits : x.Fits cfg) (counted : cycles.Fits) :
    Tells cfg τ d (Packet.isyncBytes cfg x cycles) (isyncPft cfg) () ((Packet.isync x cycles).acts cfg) := by
  intro out
  have after : τ.after cfg ((Packet.isync x cycles).acts cfg) = x.tracker (τ.state d out) := after_syncActs
  rw [after]
  exact isyncPft_comes fits counted (τ.state d out) rfl

theorem found : (∀ ch : Byte, ch &&& 1 = 1 → packetTypesPft.findIdx? (fun type => type.Matches ch) = some 3) ∧
    (∀ ch : Byte, ch &&& 0x81 = 0x80 → packetTypesPft.findIdx? (fun type => type.Matches ch) = some 2) ∧
    (∀ r, packetTypesPft.findIdx? (fun type => type.Matches (timestampHeader r)) = some 8) ∧
    [0x00, 0x08, 0x72, 0x0C, 0x6E, 0x3C, 0x76, 0x66].map
      (fun ch => packetTypesPft.findIdx? (fun type => type.Matches ch)) =
      [some 0, some 1, some 4, some 5, some 6, some 7, some 9, some 10] := by
  decide

theorem header_atom (x : Cycles) (not : Bool) : x.header true not &&& 0x81 = 0x80 := by
  unfold Cycles.header
  generalize x.count.extractLsb' 0 4 = v
  generalize decide (x.more ≠ 0) = more
  revert v more not
  decide

theorem atoms_head (executed : List Bool) (few : executed.length ≤ 5) : atomsByte executed &&& 0x81 = 0x80 := by
  match executed, few with
  | [], _ => decide
  | [a], _ => revert a; decide
  | [a, b], _ => revert a b; decide
  | [a, b, c], _ => revert a b c; decide
  | [a, b, c, e], _ => revert a b c e; decide
  | [a, b, c, e, f], _ => revert a b c e f; decide

/-- Every packet is read as it is written. -/
theorem tells_packet {p : Packet} (fits : p.Fits cfg τ) :
    Tells cfg τ d (p.bytes cfg) (decodePacket cfg packetTypesPft) () (p.acts cfg) := by
  obtain ⟨odd, points, times, others⟩ := found
  simp only [List.map_cons, List.map_nil, List.cons.injEq, and_true] at others
  obtain ⟨zero, sync, way, triggered, context, machine, returned, ignored⟩ := others
  cases p with
  | zero => exact Tells.packet zero rfl .pure
  | ignore => exact Tells.packet ignored rfl .pure
  | isync x cycles => exact Tells.packet sync rfl (isyncPft_tells fits.1 fits.2)
  | atoms executed =>
      refine Tells.packet (points _ (atoms_head executed fits.2)) rfl ?_
      unfold atom
      rw [if_neg (by simp [fits.1])]
      exact tells_atoms fits.2
  | atom executed cycles =>
      refine Tells.packet (points _ (header_atom cycles (!executed))) rfl ?_
      unfold atom
      rw [if_pos fits.1]
      exact tells_atom fits.2
  | branch x e cycles =>
      exact Tells.packet (odd _ Address.first_odd) rfl ((Tells.branch fits.1).bind fun d => tells_then fits.2)
  | waypoint x ib => exact Tells.packet way rfl (tells_waypoint fits)
  | trigger => exact Tells.packet triggered rfl (Tells.emit fun _ _ => rfl)
  | contextid x => exact Tells.packet context rfl (Tells.contextid fits)
  | vmid v => exact Tells.packet machine rfl Tells.vmid
  | timestamp value more r cycles =>
      exact Tells.packet (times r) rfl ((Tells.timestamp fits.1 fits.2.1).bind fun d => tells_then fits.2.2)
  | exceptRet => exact Tells.packet returned rfl (Tells.emit fun _ _ => rfl)

end Packets

/-! ## Traces -/

/-- A trace begins with A-sync and I-sync. -/
structure Trace where
  zeros : Nat
  sync : Sync
  cycles : Cycles
  packets : List Packet

namespace Trace
variable (cfg : Config) (trace : Trace)

def bytes : List Byte :=
  List.replicate trace.zeros 0 ++
    ((0x80 :: 0x08 :: Packet.isyncBytes cfg trace.sync trace.cycles) ++ trace.packets.flatMap (Packet.bytes cfg))

def start : Tracker where
  mode := trace.sync.mode
  addr := trace.sync.addr
  pc := trace.sync.addr

structure Fits : Prop where
  zeros : 5 ≤ trace.zeros
  sync : trace.sync.Fits cfg
  cycles : trace.cycles.Fits
  packets : InTurn cfg (fun τ p => p.Fits cfg τ) (Packet.acts cfg) trace.start trace.packets

/-- The byte that ends A-sync is taken for an atom. Without cycles it has none; with cycles it is a branch point at
an address that nothing has told. -/
def asyncLines : List Line :=
  if cfg.cycleAccurate then
    [.cycleCount true 0, .instruction true true 0 (if cfg.programFlowOnly then some 1 else none) (some 0) none]
  else []

def acts : List Act := Packet.syncActs cfg trace.sync trace.cycles ++ trace.packets.flatMap (Packet.acts cfg)

def lines : List Line :=
  asyncLines cfg ++ trace.start.lines cfg (trace.acts cfg) ++ (trace.start.after cfg (trace.acts cfg)).rest

end Trace

/-- The decoder behind A-sync. -/
def behindAsync (cfg : Config) : State where
  source := .empty
  data := 0x80
  sync := 1
  pc := if cfg.cycleAccurate && !cfg.programFlowOnly then 1 else 0
  branchCount := if cfg.cycleAccurate && cfg.programFlowOnly then 1 else 0
  out := Trace.asyncLines cfg

theorem async_end (cfg : Config) :
    Reads cfg [0x80] (decodePacket cfg packetTypesPft) () { source := .empty, sync := 1 } (behindAsync cfg) := by
  refine Reads.packet (show (0 : Int) < 1 by decide) (found.2.1 0x80 rfl) rfl ?_
  refine fun source rest yields => ⟨source, ?_, yields⟩
  cases accurate : cfg.cycleAccurate with
  | false =>
      simp [atom, atomNonCycleAccurate, firstBit, atoms, Bind.bind, Prog.get, Pure.pure, State.from, behindAsync,
        Trace.asyncLines, accurate]
  | true =>
      cases flow : cfg.programFlowOnly <;>
        simp [atom, atomCycleAccurate, cycleCountPft, longCount, printInstruction, nextPc, emit, Bind.bind, Prog.get,
          Prog.modify, Pure.pure, State.from, State.synced, State.valid, behindAsync, Trace.asyncLines, accurate, flow,
          Mode.shift]

/-- Whatever is written as a program flow trace is printed as it is meant, branch point by branch point. -/
theorem pft_prints (cfg : Config) (trace : Trace) (fits : trace.Fits cfg) (source : Source)
    (yields : Yields cfg source (trace.bytes cfg)) :
    Prints cfg packetTypesPft { source } (trace.lines cfg) := by
  have table := found.2.2.2
  simp only [List.map_cons, List.map_nil, List.cons.injEq, and_true] at table
  obtain ⟨zero, sync, -⟩ := table
  obtain ⟨source₁, yields, zeros⟩ := async_start cfg (by rw [lookup_eq zero]; rfl) fits.zeros yields
  -- the byte behind the zeros, and I-sync
  change Yields cfg source₁ ([0x80] ++ _) at yields
  obtain ⟨source₂, yields, ended⟩ := (async_end cfg).again yields
  have isync := Comes.packet (s := behindAsync cfg) (show (0 : Int) < 1 by decide) sync rfl
    (isyncPft_comes fits.sync fits.cycles _ rfl)
  obtain ⟨d, source₃, yields, synced⟩ := isync.again yields
  obtain ⟨final, ends, printed⟩ := packets_end (d := d) (fun τ d p fits => tells_packet fits) fits.packets
    _ yields
  refine ⟨final, (zeros _).mpr ((ended _).mpr ((synced _).mpr ends)), ?_⟩
  rw [printed]
  unfold Trace.lines Trace.acts
  rw [lines_append, after_append, after_syncActs, ← List.append_assoc]
  rfl

/-- A short trace. -/
def sample : Trace where
  zeros := 6
  sync := ⟨.arm, 0xC0008000, 0x20, 0x42⟩
  cycles := ⟨0, 0⟩
  packets := [.atoms [true, false, true], .branch ⟨.arm, 0xC0008100, 1, false⟩ ⟨0, 0⟩ ⟨0, 0⟩, .timestamp 0x12345 2 false ⟨0, 0⟩,
    .waypoint ⟨.thumb, 0xBF000200, 4, true⟩ 0x11, .atoms [false], .trigger, .exceptRet,
    .branch ⟨.thumb, 0xBF000210, 0, false⟩ ⟨0, 0⟩ ⟨0, 0⟩]

theorem pft_sample_prints :
    let cfg : Config := { cycleAccurate := false, altBranch := true, programFlowOnly := true }
    Prints cfg packetTypesPft { source := { input := sample.bytes cfg } }
      [.isync true 0x42 0x20 0xC0008000,
        .instruction true true 0xC0008000 (some 1) none none, .instruction true false 0xC0008000 (some 2) none none,
        .instruction true true 0xC0008000 (some 3) none none, .instruction true true 0xC0008000 (some 4) none none,
        .branch true 0xC0008100 none none .arm, .timestamp true 0x12345 0x12345 false,
        .waypoint true 0xBF000200 (some 0x11) none .thumb, .instruction true false 0xBF000200 (some 1) none none,
        .trigger true, .exceptionReturn true, .instruction true true 0xBF000200 (some 2) none none,
        .branch true 0xBF000210 none none .thumb] :=
  pft_prints _ sample ⟨by decide, ⟨by decide, by decide, by decide⟩, by decide, by decide⟩ _ (yields_input rfl _)

end ImxTest.Etm.Pft
