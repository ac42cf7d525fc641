import ImxTest.Etm.Acts

/-! Packets that both kinds of trace have, and a trace of packets. -/
namespace ImxTest.Etm
open Lib Overlay While

/-- What is told of an exception: a byte, and another one if that says so. -/
structure Exception where
  first : Byte
  second : Byte
deriving DecidableEq, Repr

def Exception.bytes (e : Exception) : List Byte := e.first :: if e.first &&& 0x80 ≠ 0 then [e.second] else []

def Exception.value (e : Exception) : Byte := if e.first &&& 0x80 ≠ 0 then e.first ||| e.second else e.first

def branchBytes (alt : Bool) (x : Address) (e : Exception) : List Byte :=
  x.rest alt ++ if x.exception then e.bytes else []

def branchActs (cfg : Config) (x : Address) (e : Exception) : List Act :=
  x.acts cfg ++ [.tell (.branch true x.addr (if x.exception then some (e.value.setWidth 32) else none) none x.mode)]

/-- The byte a timestamp begins with. -/
def timestampHeader (r : Bool) : Byte := 0x42 ||| (BitVec.ofBool r).setWidth 8 <<< 2

/-- Seven bits at a time; a ninth byte has eight. -/
def timestampBytes (value : BitVec 64) (more : Nat) : List Byte :=
  if more = 8 then heads value 8 0 ++ [value.extractLsb' 56 8] else pieces value more 0

section Packets
variable {cfg : Config} {types : List PacketType} {τ : Tracker} {d ch : Byte} {bytes : List Byte} {acts : List Act}

theorem lookup_eq {i : Nat} (found : types.findIdx? (fun type => type.Matches ch) = some i) :
    lookup types ch = types.getD i unknown := by
  unfold lookup
  rw [List.find?_eq_bind_findIdx?_getElem?, found, List.getD_eq_getElem?_getD]
  rfl

/-- The byte that a packet begins with is found in the table. -/
theorem Tells.packet {i : Nat} {decode : Config → Decode Unit}
    (found : types.findIdx? (fun type => type.Matches ch) = some i) (is : (types.getD i unknown).decode = some decode)
    (next : Tells cfg τ ch bytes (decode cfg) () acts) :
    Tells cfg τ d (ch :: bytes) (decodePacket cfg types) () acts := by
  refine Tells.byte ?_
  dsimp only
  rw [lookup_eq found, is]
  exact next

theorem Reads.packet {i : Nat} {decode : Config → Decode Unit} {s t : State} (synced : 0 < s.sync)
    (found : types.findIdx? (fun type => type.Matches ch) = some i) (is : (types.getD i unknown).decode = some decode)
    (next : Reads cfg bytes (decode cfg) () { s with data := ch } t) :
    Reads cfg (ch :: bytes) (decodePacket cfg types) () s t := by
  change Reads cfg ([ch] ++ bytes) _ _ _ _
  refine Reads.bind (.getByte synced) ?_
  dsimp only
  rw [lookup_eq found, is]
  exact next

theorem Comes.packet {i : Nat} {decode : Config → Decode Unit} {s : State} {out : List Line} (synced : 0 < s.sync)
    (found : types.findIdx? (fun type => type.Matches ch) = some i) (is : (types.getD i unknown).decode = some decode)
    (next : Comes cfg bytes (decode cfg) () { s with data := ch } τ out) :
    Comes cfg (ch :: bytes) (decodePacket cfg types) () s τ out := by
  change Comes cfg ([ch] ++ bytes) _ _ _ _ _
  refine Comes.bind (.getByte synced) ?_
  dsimp only
  rw [lookup_eq found, is]
  exact next

/-- The loop of `main` goes on behind a packet. -/
theorem Reads.again {s t : State} {source : Source} {rest : List Byte}
    (reads : Reads cfg bytes (decodePacket cfg types) () s t) (yields : Yields cfg source (bytes ++ rest)) :
    ∃ source', Yields cfg source' rest ∧
      ∀ outcome, Ends (turn cfg types) (s.from source) outcome ↔ Ends (turn cfg types) (t.from source') outcome := by
  obtain ⟨source', ran, yields⟩ := reads source rest yields
  exact ⟨source', yields, fun outcome => ends_again (by simp only [turn, ran])⟩

theorem Comes.again {s : State} {out : List Line} {source : Source} {rest : List Byte}
    (comes : Comes cfg bytes (decodePacket cfg types) () s τ out) (yields : Yields cfg source (bytes ++ rest)) :
    ∃ d source', Yields cfg source' rest ∧ ∀ outcome,
      Ends (turn cfg types) (s.from source) outcome ↔ Ends (turn cfg types) ((τ.state d out).from source') outcome := by
  obtain ⟨d, source', ran, yields⟩ := comes source rest yields
  exact ⟨d, source', yields, fun outcome => ends_again (by simp only [turn, ran])⟩

/-! ## Numbers, context, exceptions -/

/-- A number in seven bits at a time. -/
theorem Tells.pieces {x old : Word} {k most s : Nat} (few : k < most) (alike : Alike (s + 7 * (k + 1)) x old) :
    Tells cfg τ d (pieces x k s) (septets cfg (fun _ => (0x7F : Word)) most s (mix s x old)) x [] := by
  refine Reads.tells (piece false x (s + 7 * k)) fun out => ?_
  rw [show τ.lines cfg [] = [] from rfl, List.append_nil]
  exact septets_pieces (show (0 : Int) < 1 by decide) few (fun j low high => rfl) alike

theorem Tells.number {x old : Word} {k most : Nat} (few : k < most) (alike : Alike (7 * (k + 1)) x old) :
    Tells cfg τ d (Etm.pieces x k 0) (septets cfg (fun _ => (0x7F : Word)) most 0 old) x [] := by
  rw [← mix_zero x old]
  exact Tells.pieces few (by rwa [Nat.zero_add])

theorem Tells.count {count : Word} : Tells cfg τ d [] (longCount cfg count) () [.cycles count] := by
  refine Tells.act fun out source rest yields => ⟨source, ?_, yields⟩
  by_cases long : cfg.longWait < count <;>
    simp [longCount, Bind.bind, Prog.modify, Etm.emit, long, perform, State.from, Tracker.state, State.synced]

theorem Tells.word {x : Word} {left : Nat} (alike : Alike (8 * left) x 0) :
    Tells cfg τ d (wordBytes x left 0) (word cfg left 0 0) x [] := by
  intro out
  have synced : 0 < (τ.state d out).sync := show (0 : Int) < 1 by decide
  obtain ⟨d', reads⟩ := word_reads cfg left synced alike
  intro source rest yields
  obtain ⟨source', ran, yields⟩ := reads source rest yields
  refine ⟨d', source', ?_, yields⟩
  rw [show τ.lines cfg [] = [] from rfl, List.append_nil]
  exact ran

variable (cfg τ) in
theorem after_acts (x : Address) : (τ.after cfg (x.acts cfg)).addr = x.addr ∧ (τ.after cfg (x.acts cfg)).mode = x.mode := by
  unfold Address.acts
  rw [after_append]
  exact ⟨rfl, rfl⟩

theorem Tells.branch {x : Address} {e : Exception} (fits : x.Fits cfg.altBranch τ.mode τ.addr) :
    Tells cfg τ x.first (branchBytes cfg.altBranch x e) (branch cfg) () (branchActs cfg x e) := by
  unfold branchBytes branchActs
  refine (Tells.branchAddr fits).bind fun d => ?_
  obtain ⟨addr, mode⟩ := after_acts cfg τ x
  have line (exception : Option Word) (d : Byte) : Tells cfg (τ.after cfg (x.acts cfg)) d []
      (Etm.emit fun s => .branch s.synced s.iaddr exception s.valid s.mode) ()
      [.tell (.branch true x.addr exception none x.mode)] :=
    Tells.emit fun out source => by simp [State.from, Tracker.state, State.synced, State.valid, addr, mode]
  cases x.exception with
  | false => exact line none d
  | true =>
      simp only [if_true, Exception.bytes, Exception.value]
      refine Tells.byte ?_
      by_cases more : e.first &&& 0x80 ≠ 0
      · simp only [if_pos more]
        exact Tells.byte (line _ _)
      · simp only [if_neg more]
        exact line _ _

theorem timestamp_flag (r : Bool) : decide (timestampHeader r &&& 4 ≠ 0) = r := by
  cases r <;> rfl

theorem timestamp_septets {value old : BitVec 64} {more : Nat} (most : more ≤ 8) (alike : more ≠ 8 → Alike (7 * (more + 1)) value old) :
    Tells cfg τ d (timestampBytes value more)
      (septets cfg (fun left => if left = 0 then 0xFF else 0x7F) 9 0 old) value [] := by
  have mask (j : Nat) (some_ : 0 < j) : (if j = 0 then (0xFF : BitVec 64) else 0x7F) = seven 64 := by
    rw [if_neg (by omega)]
    rfl
  unfold timestampBytes
  by_cases nine : more = 8
  · rw [if_pos nine]
    refine Reads.tells (value.extractLsb' 56 8) fun out => ?_
    rw [show τ.lines cfg [] = [] from rfl, List.append_nil]
    rw [← mix_zero value old]
    refine septets_heads (show (0 : Int) < 1 by decide) (fun j low high => mask j low) fun d' => ?_
    · refine Reads.last (.getByte (show (0 : Int) < 1 by decide)) ?_
      have whole : put (0xFF : BitVec 64) 56 ((value.extractLsb' 56 8).setWidth 64) (mix 56 value old) = value := by
        rw [put_mix (m := 8), mix_eq fun i inside beyond => absurd inside (by omega)]
        · intro i inside from_
          rw [show (0xFF : BitVec 64) = .ofNat 64 (2 ^ 8 - 1) from rfl, getLsbD_ones]
          exact decide_eq_decide.mpr (by omega)
        · intro i inside from_ within
          rw [BitVec.getLsbD_setWidth, BitVec.getLsbD_extractLsb', Nat.add_sub_cancel' from_]
          simp [show i - 56 < 64 by omega, show i - 56 < 8 by omega]
      dsimp only
      rw [if_pos rfl, whole]
      exact Reads.ite (fun _ => .pure) fun _ => .pure
  · rw [if_neg nine]
    refine Reads.tells (piece false value (7 * more)) fun out => ?_
    rw [show τ.lines cfg [] = [] from rfl, List.append_nil]
    have alike' : Alike (0 + 7 * (more + 1)) value old := by
      rw [Nat.zero_add]
      exact alike nine
    rw [← mix_zero value old, ← Nat.zero_add (7 * more)]
    exact septets_pieces (show (0 : Int) < 1 by decide) (Nat.lt_succ_of_le most) (fun j low high => mask j (by omega)) alike'

theorem Tells.timestamp {value : BitVec 64} {more : Nat} {r : Bool} (most : more ≤ 8)
    (alike : more ≠ 8 → Alike (7 * (more + 1)) value τ.timestamp) :
    Tells cfg τ (timestampHeader r) (timestampBytes value more) (timestamp cfg) () [.timestamp value r] := by
  refine Tells.get fun source out => ?_
  dsimp only [State.from, Tracker.state]
  rw [timestamp_flag, ← List.append_nil (timestampBytes value more)]
  refine (timestamp_septets most alike).read fun d => ?_
  refine Tells.act fun out source rest yields => ⟨source, ?_, yields⟩
  simp [Etm.emit, Bind.bind, Prog.modify, State.from, Tracker.state, perform, State.synced]

theorem Tells.contextid {context : Word} (alike : Alike (8 * cfg.contextidBytes) context 0) :
    Tells cfg τ d (wordBytes context cfg.contextidBytes 0) (contextid cfg) () [.tell (.contextId true context)] := by
  rw [← List.append_nil (wordBytes _ _ _)]
  exact (Tells.word alike).read fun d => Tells.emit fun _ _ => rfl

theorem Tells.vmid {v : Byte} : Tells cfg τ d [v] (vmid cfg) () [.tell (.vmid true v)] :=
  Tells.byte (Tells.emit fun _ _ => rfl)

/-! ## Synchronization -/

/-- The address that is sent has the mode; so has the byte before it. -/
structure Sync where
  mode : Mode
  addr : Word
  ib : Byte
  context : Word
deriving DecidableEq, Repr

namespace Sync

/-- Where the processor is then; what is not about places stays. -/
def tracker (x : Sync) (s : State) : Tracker where
  mode := x.mode
  addr := x.addr
  pc := x.addr
  waits := s.waitCount
  timestamp := s.timestamp
  daddr := s.daddr

def sent (x : Sync) : Word := if x.mode = .thumb then x.addr ||| 1 else x.addr

structure Fits (cfg : Config) (x : Sync) : Prop where
  jazelle : x.ib &&& 0x10 ≠ 0 ↔ x.mode = .jazelle
  even : x.mode ≠ .jazelle → x.addr &&& 1 = 0
  context : Alike (8 * cfg.contextidBytes) x.context 0

instance (cfg : Config) (x : Sync) : Decidable (x.Fits cfg) :=
  decidable_of_iff ((x.ib &&& 0x10 ≠ 0 ↔ x.mode = .jazelle) ∧ (x.mode ≠ .jazelle → x.addr &&& 1 = 0) ∧
    Alike (8 * cfg.contextidBytes) x.context 0)
    ⟨fun ⟨jazelle, even, context⟩ => ⟨jazelle, even, context⟩, fun fits => ⟨fits.jazelle, fits.even, fits.context⟩⟩

end Sync

theorem and_one {a : Word} (even : a &&& 1 = 0) : (a ||| 1) &&& 1 ≠ 0 ∧ (a ||| 1) &&& ~~~1 = a := by
  have low : a.getLsbD 0 = false := by
    have bit := congrArg (fun b : Word => b.getLsbD 0) even
    simpa using bit
  refine ⟨fun zero => ?_, ?_⟩
  · have bit := congrArg (fun b : Word => b.getLsbD 0) zero
    simp at bit
  · apply BitVec.eq_of_getLsbD_eq
    intro i inside
    rw [show (1 : Word) = 1#32 from rfl, BitVec.getLsbD_and, BitVec.getLsbD_or, BitVec.getLsbD_not, BitVec.getLsbD_one,
      decide_eq_true inside]
    by_cases first : i = 0
    · rw [first, low]
      rfl
    · simp [first]

theorem update_sent {x : Sync} (fits : x.Fits cfg) : (if x.ib &&& 0x10 ≠ 0 then (Mode.jazelle, x.sent)
      else if x.sent &&& 1 ≠ 0 then (.thumb, x.sent &&& ~~~1) else (.arm, x.sent)) = (x.mode, x.addr) := by
  obtain ⟨jazelle, even, -⟩ := fits
  unfold Sync.sent
  cases same : x.mode with
  | jazelle => rw [if_pos (jazelle.mpr same), if_neg (by decide)]
  | thumb =>
      have other : ¬x.ib &&& 0x10 ≠ 0 := fun set => by simp [jazelle.mp set] at same
      obtain ⟨odd, back⟩ := and_one (even (by simp [same]))
      rw [if_neg other, if_pos rfl, if_pos odd, back]
  | arm =>
      have other : ¬x.ib &&& 0x10 ≠ 0 := fun set => by simp [jazelle.mp set] at same
      have clear : ¬x.addr &&& 1 ≠ 0 := not_ne_iff.mpr (even (by simp [same]))
      rw [if_neg other, if_neg (by decide : Mode.arm ≠ Mode.thumb), if_neg clear]

variable (cfg) in
/-- The four bytes of an address. -/
theorem getAddr_reads (x : Word) {s : State} (synced : 0 < s.sync) :
    ∃ d, Reads cfg (wordBytes x 4 0) (getAddr cfg) x s { s with data := d } := by
  exact word_reads cfg 4 synced fun i inside beyond => absurd inside (by omega)

theorem getContextid_reads {x : Word} {s : State} (synced : 0 < s.sync) (alike : Alike (8 * cfg.contextidBytes) x 0) :
    ∃ d, Reads cfg (wordBytes x cfg.contextidBytes 0) (getContextid cfg) x s { s with data := d } := by
  exact word_reads cfg cfg.contextidBytes synced alike

theorem updateAddr_sent {x : Sync} {s : State} (fits : x.Fits cfg) : Reads cfg [] (updateAddr x.ib x.sent) () s
    { s with mode := x.mode, iaddr := x.addr, iaddrValid := 0xFFFFFFFF, pc := x.addr, branchCount := 0 } := by
  unfold updateAddr
  rw [update_sent fits]
  exact Reads.modify fun source => rfl

end Packets

/-! ## Packets in turn -/

section Run
variable {P : Type} {cfg : Config} {types : List PacketType} {fits : Tracker → P → Prop} {bytes : P → List Byte}
  {acts : P → List Act} {τ : Tracker} {d : Byte} {source : Source}

/-- Each packet is written for what those before it have told. -/
def InTurn (cfg : Config) (fits : Tracker → P → Prop) (acts : P → List Act) : Tracker → List P → Prop
  | _, [] => True
  | τ, p :: ps => fits τ p ∧ InTurn cfg fits acts (τ.after cfg (acts p)) ps

instance [∀ τ p, Decidable (fits τ p)] : ∀ (τ : Tracker) (ps : List P), Decidable (InTurn cfg fits acts τ ps)
  | _, [] => inferInstanceAs (Decidable True)
  | τ, p :: ps =>
    have : Decidable (InTurn cfg fits acts (τ.after cfg (acts p)) ps) := instDecidableInTurn (τ.after cfg (acts p)) ps
    inferInstanceAs (Decidable (_ ∧ _))

/-- What is printed at the end of the trace. -/
def Tracker.rest (τ : Tracker) : List Line := if τ.waits ≠ 0 then [.waited τ.waits] else []

variable (types τ d) in
theorem decodePacket_end (none_ : (getchar cfg source).1 = none) (out : List Line) :
    ∃ t, turn cfg types ((τ.state d out).from source) = .error t ∧ t.out = out ++ τ.rest := by
  have read : getchar cfg source = (none, (getchar cfg source).2) := Prod.ext none_ rfl
  have printed : (if τ.waits ≠ 0 then out ++ [.waited τ.waits] else out) = out ++ τ.rest := by
    unfold Tracker.rest
    split <;> simp
  refine ⟨{ (τ.state d out).from (getchar cfg source).2 with out := out ++ τ.rest }, ?_, rfl⟩
  have stopped : getByte cfg ((τ.state d out).from source) =
      (none, { (τ.state d out).from (getchar cfg source).2 with out := out ++ τ.rest }) := by
    rw [← printed]
    unfold getByte
    rw [show getchar cfg ((τ.state d out).from source).source = _ from read]
    rfl
  simp only [turn, decodePacket, Bind.bind, stopped]

theorem packets_end (each : ∀ τ d p, fits τ p → Tells cfg τ d (bytes p) (decodePacket cfg types) () (acts p))
    {ps : List P} (inTurn : InTurn cfg fits acts τ ps) (out : List Line) (yields : Yields cfg source (ps.flatMap bytes)) :
    ∃ final, Ends (turn cfg types) ((τ.state d out).from source) (.error final) ∧
      final.out = out ++ τ.lines cfg (ps.flatMap acts) ++ (τ.after cfg (ps.flatMap acts)).rest := by
  induction ps generalizing τ d out source with
  | nil =>
      obtain ⟨t, failed, printed⟩ := decodePacket_end types τ d yields out
      refine ⟨t, ends_error failed, ?_⟩
      rw [printed]
      exact congrArg (· ++ τ.rest) (List.append_nil out).symm
  | cons p ps ih =>
      obtain ⟨fit, inTurn⟩ := inTurn
      rw [List.flatMap_cons] at yields
      obtain ⟨d', source', yields, next⟩ := (each τ d p fit out).again yields
      obtain ⟨final, ended, printed⟩ := ih (d := d') inTurn (out ++ τ.lines cfg (acts p)) yields
      refine ⟨final, (next _).mpr ended, ?_⟩
      rw [printed, List.flatMap_cons, lines_append, after_append]
      simp only [List.append_assoc]

/-- What a zero byte makes of `sync`. -/
def nextSync (sync : Int) : Int := if sync ≤ 0 then if sync = -4 then 1 else sync - 1 else sync

theorem turn_zero {s : State} {bytes : List Byte} (ignored : (lookup types 0).decode = some ignore)
    (yields : Yields cfg s.source (0 :: bytes)) : ∃ source, Yields cfg source bytes ∧
      turn cfg types s = .ok (.again { s with source, data := 0, sync := nextSync s.sync }) := by
  obtain ⟨first, yields⟩ := yields
  have given : getchar cfg s.source = (some 0, (getchar cfg s.source).2) := Prod.ext first rfl
  refine ⟨_, yields, ?_⟩
  have read : getByte cfg s = (some 0, { s with source := (getchar cfg s.source).2, data := 0, sync := nextSync s.sync }) := by
    unfold getByte nextSync
    rw [given]
    simp
  simp only [turn, decodePacket, Bind.bind, read, ignored]
  rfl

variable (cfg) in
/-- Five zero bytes or more, and the decoder is in sync. -/
theorem async_start {n : Nat} {rest : List Byte} (ignored : (lookup types 0).decode = some ignore) (enough : 5 ≤ n)
    (yields : Yields cfg source (List.replicate n 0 ++ rest)) : ∃ source', Yields cfg source' rest ∧
      ∀ outcome, Ends (turn cfg types) { source } outcome ↔ Ends (turn cfg types) { source := source', sync := 1 } outcome := by
  -- one zero after the other
  have zeros (n : Nat) : ∀ (sync : Int) (source : Source), Yields cfg source (List.replicate n 0 ++ rest) →
      ∃ source', Yields cfg source' rest ∧ ∀ outcome, Ends (turn cfg types) { source, sync } outcome ↔
        Ends (turn cfg types) { source := source', sync := nextSync^[n] sync } outcome := by
    induction n with
    | zero => exact fun sync source yields => ⟨source, yields, fun outcome => .rfl⟩
    | succ n ih =>
        intro sync source yields
        obtain ⟨middle, yields, next⟩ := turn_zero (s := { source, sync }) ignored yields
        obtain ⟨source', yields, same⟩ := ih (nextSync sync) middle yields
        exact ⟨source', yields, fun outcome => (ends_again next).trans (same outcome)⟩
  obtain ⟨source', yields, same⟩ := zeros n 0 source yields
  have synced : nextSync^[n] 0 = 1 := by
    obtain ⟨m, rfl⟩ := Nat.exists_eq_add_of_le' enough
    rw [Function.iterate_add_apply, show nextSync^[5] 0 = 1 by decide]
    exact Function.iterate_fixed (by decide) m
  rw [synced] at same
  exact ⟨source', yields, same⟩

end Run

end ImxTest.Etm
