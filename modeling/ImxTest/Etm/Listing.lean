import ImxTest.Etm.Acts
import ImxTest.Etm.Objdump

/-! The script lists the instructions that a traced processor has executed. -/
namespace ImxTest.Etm
open Lib

/-- Where the processor goes on, as the trace has it. -/
inductive Place where
  | known (addr : Int)
  /-- Behind a branch to an address in a register. -/
  | register
  /-- Between the address of a packet and its line. -/
  | moved

def Line.plain : Line → Bool
  | .instruction true _ _ _ none _ | .branch true _ _ _ _ | .isync true _ _ _ => false
  | _ => true

/-- Nothing about the way of the processor. -/
def Act.quiet : Act → Bool
  | .instruction _ | .goto _ _ => false
  | .tell line => line.plain
  | _ => true

section Follows
variable {Obj : Type} (program : Program Obj)

/-- The instructions up to the one that is traced: in a program flow trace that is a branch. -/
def Program.upTo (flow : Bool) (addr : Int) : List Obj × Int × Option Obj :=
  if flow then program.pass addr else ([], addr, program.instr addr)

/-- Where the processor goes behind an instruction. -/
def Program.next (executed : Bool) (obj : Obj) (behind : Int) : Place :=
  if executed && program.isBranch obj then (program.branchAddr obj).elim .register .known else .known behind

/-- The address is known, or it is that of a return. -/
inductive Finds : Place → List Int → Int → List Int → Prop where
  | known (addr : Int) (stack : List Int) : Finds (.known addr) stack addr stack
  | returns (top : Int) (stack : List Int) : Finds .register (top :: stack) top stack

/-- What a branch with a link leaves on the stack of the processor's trace unit; the script knows only of returns in
ARM code, and of links that were executed. -/
def Program.linked (mode : Mode) (executed : Bool) (obj : Obj) (last : Int) (stack : List Int) : List Int :=
  if program.isBranchAndLink obj then if executed && mode = .arm then (last + 4) :: stack else [] else stack

/-- The acts that a processor's way through the program gives: `path` are the instructions, each with whether it was
executed. -/
inductive Follows (cfg : Config) : Tracker → Place → List Int → List (Obj × Bool) → List Act → Prop where
  | done (τ : Tracker) (place : Place) (stack : List Int) : Follows cfg τ place stack [] []
  | quiet {τ : Tracker} {place : Place} {stack : List Int} {path : List (Obj × Bool)} {acts : List Act} {act : Act} :
      act.quiet = true → Follows cfg (perform cfg τ act).1 place stack path acts →
        Follows cfg τ place stack path (act :: acts)
  /-- The trace unit forgets the oldest addresses. -/
  | forget {τ : Tracker} {place : Place} {stack fewer : List Int} {path : List (Obj × Bool)} {acts : List Act} :
      fewer <+: stack → Follows cfg τ place fewer path acts → Follows cfg τ place stack path acts
  | instruction {τ : Tracker} {place : Place} {stack left : List Int} {path : List (Obj × Bool)} {acts : List Act}
      {addr last : Int} {passed : List Obj} {obj : Obj} {executed : Bool} :
      Finds place stack addr left → program.upTo cfg.programFlowOnly addr = (passed, last, some obj) →
      (executed = false → program.isConditional obj = true) →
      (cfg.programFlowOnly = true → τ.mode = .arm) →
      (cfg.programFlowOnly = false → τ.pc.toNat + 1 <<< τ.mode.shift < 2 ^ 32) →
      Follows cfg (perform cfg τ (.instruction executed)).1 (program.next executed obj (last + 1 <<< τ.mode.shift))
        (program.linked τ.mode executed obj last left) path acts →
      Follows cfg τ place stack (passed.map (·, true) ++ (obj, executed) :: path) (.instruction executed :: acts)
  | goto {τ : Tracker} {place : Place} {stack : List Int} {path : List (Obj × Bool)} {acts : List Act} {mode : Mode}
      {addr : Word} : Follows cfg (perform cfg τ (.goto mode addr)).1 .moved stack path acts →
        Follows cfg τ place stack path (.goto mode addr :: acts)
  | branch {τ : Tracker} {place : Place} {stack : List Int} {path : List (Obj × Bool)} {acts : List Act} {addr : Word}
      {exception valid : Option Word} {mode : Mode} : Follows cfg τ (.known addr.toNat) stack path acts →
        Follows cfg τ place stack path (.tell (.branch true addr exception valid mode) :: acts)
  | isync {τ : Tracker} {place : Place} {stack : List Int} {path : List (Obj × Bool)} {acts : List Act} {addr : Word}
      {context : Word} {ib : Byte} : Follows cfg τ (.known addr.toNat) [] path acts →
        Follows cfg τ place stack path (.tell (.isync true context ib addr) :: acts)

end Follows

/-- The instructions of a listing. -/
def Entry.step {Obj : Type} : Entry Obj → Option (Obj × Bool)
  | .instruction executed obj _ => some (obj, executed)
  | .passed obj => some (obj, true)
  | _ => none

/-- The script could not follow. -/
def Entry.trouble {Obj : Type} : Entry Obj → Bool
  | .bare _ _ _ | .missing | .unknown _ _ | .unconditional => true
  | _ => false

/-- What the script has of the place. -/
def Script.At (s : Script) (pc : Word) : Place → Prop
  | .known addr => s.branchTarget = some addr ∨
      s.branchTarget = none ∧ s.needBranchTarget = false ∧ pc.toNat + s.addrOffset = addr
  | .register => s.branchTarget = none ∧ s.needBranchTarget = true
  | .moved => True

section Steps
variable {Obj : Type} {program : Program Obj} {cfg : Config} {τ : Tracker} {s : Script} {place : Place}
  {stack left : List Int} {addr last : Int} {passed : List Obj} {obj : Obj} {executed : Bool} {pc : Word}

/-- A listing has these instructions, and no trouble. -/
def Lists (entries : List (Entry Obj)) (path : List (Obj × Bool)) : Prop :=
  entries.filterMap Entry.step = path ∧ ∀ entry ∈ entries, entry.trouble = false

theorem Lists.append {first second : List (Entry Obj)} {path path' : List (Obj × Bool)} (one : Lists first path)
    (two : Lists second path') : Lists (first ++ second) (path ++ path') := by
  refine ⟨by rw [List.filterMap_append, one.1, two.1], fun entry mem => ?_⟩
  obtain mem | mem := List.mem_append.mp mem
  · exact one.2 entry mem
  · exact two.2 entry mem

/-- Nothing of a way is added. -/
theorem Lists.behind {first second : List (Entry Obj)} {path : List (Obj × Bool)}
    (nothing : ∀ entry ∈ first, entry.step = none ∧ entry.trouble = false) (lists : Lists second path) :
    Lists (first ++ second) path :=
  Lists.append ⟨List.filterMap_eq_nil_iff.mpr fun entry mem => (nothing entry mem).1, fun entry mem => (nothing entry mem).2⟩ lists

end Steps

section Listing
variable {Obj : Type} (program : Program Obj) (cfg : Config)

end Listing

/-- A call, its return, a branch that is not taken and one that is. -/
def calls : Program String where
  instr addr := ([(0x8000, "bl"), (0x8004, "cmp"), (0x8008, "beq"), (0x800C, "b"), (0x8100, "mov"), (0x8104, "bx")].find?
    (·.1 = addr)).map Prod.snd
  size := 0x8108
  bounded addr outside := by
    simp only [List.find?_cons, List.find?_nil]
    repeat' split
    all_goals first | rfl | (simp only [decide_eq_true_eq] at *; omega)
  isBranch obj := obj ∈ ["bl", "beq", "b", "bx"]
  isBranchAndLink obj := obj = "bl"
  isConditional obj := obj = "beq"
  branchAddr obj := if obj = "bl" then some 0x8100 else if obj = "beq" then some 0x8020 else if obj = "b" then some 0x8000 else none

end ImxTest.Etm
