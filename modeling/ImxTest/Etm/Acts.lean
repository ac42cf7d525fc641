import ImxTest.Etm.Address

/-! What a trace tells, without its bytes. -/
namespace ImxTest.Etm
open Lib Overlay

/-- Where the processor is, as far as the trace has told. -/
structure Tracker where
  mode : Mode
  /-- The last address that was sent. -/
  addr : Word
  pc : Word
  /-- The branches since then, in a program flow trace. -/
  points : Nat := 0
  waits : Nat := 0
  timestamp : BitVec 64 := 0
  daddr : Word := 0
deriving DecidableEq, Repr

inductive Act where
  | wait (n : Nat)
  | instruction (executed : Bool)
  | goto (mode : Mode) (addr : Word)
  | cycles (count : Word)
  | timestamp (value : BitVec 64) (r : Bool)
  | daddr (addr : Word)
  | tell (line : Line)
deriving DecidableEq, Repr

/-- What comes of it, and what is printed. -/
def perform (cfg : Config) (τ : Tracker) : Act → Tracker × List Line
  | .wait n => ({ τ with waits := τ.waits + n }, [])
  | .instruction executed =>
    let points := if cfg.programFlowOnly then some (τ.points + 1) else none
    ({ τ with
        waits := 0
        pc := if cfg.programFlowOnly then τ.pc else τ.pc + 1 <<< τ.mode.shift
        points := if cfg.programFlowOnly then τ.points + 1 else τ.points },
      (if cfg.longWait.toNat < τ.waits then [.longWait] else []) ++
        [.instruction true executed τ.pc points none (if τ.waits ≠ 0 then some τ.waits else none)])
  | .goto mode addr => ({ τ with mode, addr, pc := addr, points := 0 }, [])
  | .cycles count => (τ, (if cfg.longWait < count then [.longWaitCount] else []) ++ [.cycleCount true count])
  | .timestamp value r => ({ τ with timestamp := value }, [.timestamp true value (value - τ.timestamp) r])
  | .daddr addr => ({ τ with daddr := addr }, [])
  | .tell line => (τ, [line])

def performs (cfg : Config) (τ : Tracker) : List Act → Tracker × List Line
  | [] => (τ, [])
  | act :: acts =>
    let (τ', lines) := perform cfg τ act
    let (τ'', more) := performs cfg τ' acts
    (τ'', lines ++ more)

/-- Where the acts lead. -/
def Tracker.after (cfg : Config) (τ : Tracker) (acts : List Act) : Tracker := (performs cfg τ acts).1

/-- The lines of the acts. -/
def Tracker.lines (cfg : Config) (τ : Tracker) (acts : List Act) : List Line := (performs cfg τ acts).2

/-- The decoder in sync, with all of an address known. -/
def Tracker.state (τ : Tracker) (data : Byte) (out : List Line) : State where
  source := .empty
  data
  iaddr := τ.addr
  iaddrValid := 0xFFFFFFFF
  timestamp := τ.timestamp
  waitCount := τ.waits
  pc := τ.pc
  branchCount := τ.points
  mode := τ.mode
  sync := 1
  daddr := τ.daddr
  out

/-- What goes with the address of a branch: in a program flow trace the branch itself has been executed, unless an
exception was taken. -/
def Address.acts (cfg : Config) (x : Address) : List Act :=
  (if !x.exception && cfg.programFlowOnly then [.instruction true] else []) ++ [.goto x.mode x.addr]

section Tells
variable {α β : Type} {cfg : Config} {τ : Tracker} {d ch : Byte} {bytes more : List Byte} {m : Decode α} {f : α → Decode β}
  {a : α} {b : β} {acts acts' : List Act}

theorem after_append : τ.after cfg (acts ++ acts') = (τ.after cfg acts).after cfg acts' := by
  induction acts generalizing τ with
  | nil => rfl
  | cons act acts ih => exact ih

theorem lines_append : τ.lines cfg (acts ++ acts') = τ.lines cfg acts ++ (τ.after cfg acts).lines cfg acts' := by
  induction acts generalizing τ with
  | nil => rfl
  | cons act acts ih =>
      change (perform cfg τ act).2 ++ (perform cfg τ act).1.lines cfg (acts ++ acts') = _
      rw [ih, ← List.append_assoc]
      rfl

/-- The bytes bring the program from any state to one where the processor is as the tracker says. -/
def Comes (cfg : Config) (bytes : List Byte) (m : Decode α) (a : α) (s : State) (τ : Tracker) (out : List Line) : Prop :=
  ∀ source rest, Yields cfg source (bytes ++ rest) → ∃ d source',
    m (s.from source) = (some a, (τ.state d out).from source') ∧ Yields cfg source' rest

/-- The bytes take the program through these acts; `d` is the byte before them. -/
def Tells (cfg : Config) (τ : Tracker) (d : Byte) (bytes : List Byte) (m : Decode α) (a : α) (acts : List Act) : Prop :=
  ∀ out, Comes cfg bytes m a (τ.state d out) (τ.after cfg acts) (out ++ τ.lines cfg acts)

theorem Comes.bind {s t : State} {out : List Line} (first : Reads cfg bytes m a s t)
    (second : Comes cfg more (f a) b t τ out) : Comes cfg (bytes ++ more) (m >>= f) b s τ out := by
  intro source rest yields
  rw [List.append_assoc] at yields
  obtain ⟨middle, one, yields⟩ := first source _ yields
  obtain ⟨d', last, two, yields⟩ := second middle rest yields
  refine ⟨d', last, ?_, yields⟩
  simp only [Bind.bind, one]
  exact two

theorem Reads.tells (d' : Byte)
    (reads : ∀ out, Reads cfg bytes m a (τ.state d out) ((τ.after cfg acts).state d' (out ++ τ.lines cfg acts))) :
    Tells cfg τ d bytes m a acts := fun out source rest yields => ⟨d', reads out source rest yields⟩

theorem Tells.pure : Tells cfg τ d [] (pure a : Decode α) a [] := by
  refine Reads.tells d fun out => ?_
  rw [show τ.lines cfg [] = [] from rfl, List.append_nil]
  exact .pure

theorem Tells.bind (first : Tells cfg τ d bytes m a acts)
    (second : ∀ d, Tells cfg (τ.after cfg acts) d more (f a) b acts') :
    Tells cfg τ d (bytes ++ more) (m >>= f) b (acts ++ acts') := by
  intro out source rest yields
  rw [List.append_assoc] at yields
  obtain ⟨d', middle, one, yields⟩ := first out source _ yields
  obtain ⟨d'', last, two, yields⟩ := second d' (out ++ τ.lines cfg acts) middle rest yields
  refine ⟨d'', last, ?_, yields⟩
  simp only [Bind.bind, one]
  rw [after_append, lines_append, ← List.append_assoc]
  exact two

/-- A program that reads nothing, first. -/
theorem Tells.step (first : Tells cfg τ d [] m a acts) (second : ∀ d, Tells cfg (τ.after cfg acts) d bytes (f a) b acts') :
    Tells cfg τ d bytes (m >>= f) b (acts ++ acts') := first.bind second

/-- A program that reads nothing, at last. -/
theorem Tells.last (first : Tells cfg τ d bytes m a acts) (second : ∀ d, Tells cfg (τ.after cfg acts) d [] (f a) b acts') :
    Tells cfg τ d bytes (m >>= f) b (acts ++ acts') := by
  have both := first.bind second
  rwa [List.append_nil] at both

/-- Another value is given for that of the program. -/
theorem Tells.give (first : Tells cfg τ d bytes m a acts) :
    Tells cfg τ d bytes (do let _ ← m; Pure.pure b) b acts := by
  have both : Tells cfg τ d bytes (do let _ ← m; Pure.pure b) b (acts ++ []) := first.last fun d => .pure
  rwa [List.append_nil] at both

/-- A program that only reads. -/
theorem Tells.read (first : Tells cfg τ d bytes m a []) (second : ∀ d, Tells cfg τ d more (f a) b acts) :
    Tells cfg τ d (bytes ++ more) (m >>= f) b acts := first.bind second

/-- The byte before is known. -/
theorem Tells.reads {d' : Byte} (first : ∀ out, Reads cfg bytes m a (τ.state d out) (τ.state d' out))
    (second : Tells cfg τ d' more (f a) b acts) : Tells cfg τ d (bytes ++ more) (m >>= f) b acts :=
  fun out => Comes.bind (first out) (second out)

theorem Tells.byte {f : Byte → Decode β} (next : Tells cfg τ ch more (f ch) b acts) :
    Tells cfg τ d (ch :: more) (getByte cfg >>= f) b acts :=
  Tells.reads (fun _ => .getByte (show (0 : Int) < 1 by decide)) next

theorem Tells.get {f : State → Decode β}
    (next : ∀ source out, Tells cfg τ d bytes (f ((τ.state d out).from source)) b acts) :
    Tells cfg τ d bytes (Prog.get >>= f) b acts :=
  fun out source rest yields => next source out out source rest yields

theorem Tells.act {act : Act} {m : Decode Unit} (reads : ∀ out, Reads cfg [] m () (τ.state d out)
      ((perform cfg τ act).1.state d (out ++ (perform cfg τ act).2))) :
    Tells cfg τ d [] m () [act] := by
  refine Reads.tells d fun out => ?_
  rw [show τ.lines cfg [act] = (perform cfg τ act).2 from List.append_nil _]
  exact reads out

theorem Tells.emit {line : State → Line} {l : Line} (same : ∀ out source, line ((τ.state d out).from source) = l) :
    Tells cfg τ d [] (emit line) () [.tell l] := Tells.act fun out => Reads.emit (same out)

theorem Tells.wait (n : Nat) : Tells cfg τ d [] (wait n) () [.wait n] := by
  refine Tells.act fun out => Reads.modify fun source => ?_
  simp only [perform, List.append_nil]
  rfl

/-- One instruction. -/
theorem Tells.instruction (executed : Bool) :
    Tells cfg τ d [] (printInstruction cfg executed) () [.instruction executed] := by
  refine Tells.act fun out source rest yields => ⟨source, ?_, yields⟩
  by_cases long : cfg.longWait.toNat < τ.waits <;> cases flow : cfg.programFlowOnly <;>
    simp [printInstruction, nextPc, perform, Bind.bind, Prog.get, Prog.modify, Pure.pure, Etm.emit, long, flow,
      State.from, Tracker.state, State.synced, State.valid]

theorem Tells.times {m : Decode Unit} {acts : List Act} (n : Nat) (once : ∀ τ d, Tells cfg τ d [] m () acts) :
    Tells cfg τ d [] (times n m) () (List.replicate n acts).flatten := by
  induction n generalizing τ d with
  | zero => exact .pure
  | succ n ih =>
      rw [List.replicate_succ, List.flatten_cons]
      exact (once τ d).step fun d => ih

theorem Tells.setAddr {x : Address} {mode : Mode} {addr old v : Word} {count : Nat}
    (fits : x.Fits cfg.altBranch mode old) (same : τ.mode = mode) (counted : count = x.size + 1)
    (shifted : addr <<< x.mode.shift = x.addr) :
    Tells cfg τ d [] (setAddr count (x.final cfg.altBranch) addr v) () [.goto x.mode x.addr] := by
  have known (v : Word) : ¬4294967295#32 < v := by
    have bound := v.isLt
    rw [BitVec.lt_def]
    exact Nat.not_lt.mpr (Nat.le_of_lt_succ bound)
  refine Tells.act fun out source rest yields => ⟨source, ?_, yields⟩
  by_cases five : x.size = 4
  · have count_ : count = 5 := by rw [counted, five]
    simp [Etm.setAddr, count_, Bind.bind, Prog.modify, State.from, Tracker.state, perform, Address.final_mode five,
      shifted, known]
  · have mode_ := (fits.same five).1
    have count_ : count ≠ 5 := fun equal => five (Nat.succ.inj (counted.symm.trans equal))
    rw [mode_] at shifted
    simp [Etm.setAddr, count_, Prog.modify, State.from, Tracker.state, perform, same, shifted, known, mode_]

theorem Tells.branchAddr {x : Address} (fits : x.Fits cfg.altBranch τ.mode τ.addr) :
    Tells cfg τ x.first (x.rest cfg.altBranch) (getBranchAddr cfg) x.exception (x.acts cfg) := by
  refine Tells.get fun source out => ?_
  obtain ⟨addr, v, shifted, loop⟩ := Address.addressBytes_rest fits 0x3F
  have low : put 0x3F 0 ((x.first >>> 1).setWidth 32) (τ.addr >>> τ.mode.shift) = mix 6 x.number (τ.addr >>> τ.mode.shift) :=
    Address.first_low
  rw [← List.append_nil (x.rest cfg.altBranch)]
  dsimp only [State.from, Tracker.state]
  rw [low]
  refine Tells.reads (fun out => loop (τ.state x.first out) (show (0 : Int) < 1 by decide) rfl) ?_
  refine Tells.get fun source out => ?_
  have told := Address.final_exception fits.told
  dsimp only [State.from, Tracker.state]
  simp only [told, Bool.decide_eq_true]
  unfold Address.acts
  by_cases taken : (!x.exception && cfg.programFlowOnly) = true
  · rw [if_pos taken, if_pos taken]
    refine Tells.step (.instruction true) fun d => ?_
    have shown : Tells cfg (τ.after cfg [.instruction true]) d [] (Etm.setAddr (x.size + 1) (x.final cfg.altBranch) addr v) ()
        [.goto x.mode x.addr] := Tells.setAddr fits rfl rfl shifted
    exact shown.give
  · rw [if_neg taken, if_neg taken]
    exact (Tells.setAddr fits rfl rfl shifted).give

end Tells

end ImxTest.Etm
