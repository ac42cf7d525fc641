import ImxTest.Etm.Decoder

/-! etm-objdump.py: the instructions of a program, in the order in which a trace says that they were executed. -/
namespace ImxTest.Etm

/-- What objdump.py knows of a program; there are no instructions from `size` on. -/
structure Program (Obj : Type) where
  instr : Int → Option Obj
  size : Int
  bounded : ∀ addr, size ≤ addr → instr addr = none
  isBranch : Obj → Bool
  isBranchAndLink : Obj → Bool
  isConditional : Obj → Bool
  /-- Where a branch goes, unless that is in a register. -/
  branchAddr : Obj → Option Int

/-- What is printed. -/
inductive Entry (Obj : Type) where
  | instruction (executed : Bool) (obj : Obj) (waited : Option Nat)
  /-- On the way to a branch. -/
  | passed (obj : Obj)
  /-- There is no instruction at the address. -/
  | bare (executed : Bool) (addr : Word) (waited : Option Nat)
  | missing
  | unknown (addr offset : Int)
  | unconditional
  | blank
  | isync
  | unneeded
  | changed (sync : Bool) (old new : Int)
  | line (line : Line)

/-- The top of the stack comes first. -/
structure Script where
  addrOffset : Int := 0
  branchTarget : Option Int := none
  needBranchTarget : Bool := false
  returnStack : List Int := []
deriving DecidableEq, Repr

/-- Where the next instruction is, as `addr_offset`, and whether nothing is known of that. -/
def Script.offset (s : Script) (guessed : Int) : Script × Bool :=
  match s.branchTarget, s.needBranchTarget, s.returnStack with
  | some target, _, _ => ({ s with addrOffset := target - guessed, branchTarget := none, needBranchTarget := false }, false)
  | none, true, top :: stack => ({ s with addrOffset := top - guessed, needBranchTarget := false, returnStack := stack }, false)
  | none, true, [] => ({ s with needBranchTarget := false }, true)
  | none, false, _ => (s, false)

namespace Program
variable {Obj : Type} (program : Program Obj)

/-- The loop over instructions that are no branches: these, and where it ends. -/
def pass (addr : Int) : List Obj × Int × Option Obj :=
  match _found : program.instr addr with
  | none => ([], addr, none)
  | some obj =>
    if program.isBranch obj then ([], addr, some obj)
    else
      let (passed, last, final) := pass (addr + 4)
      (obj :: passed, last, final)
termination_by (program.size - addr).toNat
decreasing_by
  have inside : addr < program.size := by
    by_contra outside
    rw [program.bounded addr (not_lt.mp outside)] at _found
    cases _found
  omega

/-- The instruction at the address, or else at the one that the decoder has. -/
def locate (guessed : Int) (s : Script) : Script × Int × Option Obj × List (Entry Obj) :=
  let adjusted := guessed + s.addrOffset
  match program.instr adjusted with
  | some obj => (s, adjusted, some obj, [])
  | none =>
    match program.instr guessed with
    | some obj => ({ s with addrOffset := 0 }, guessed, some obj, [.unknown adjusted s.addrOffset])
    | none => (s, adjusted, none, [.unknown adjusted s.addrOffset])

/-- With branch points the script goes on to the next branch. -/
def advance (points : Bool) (guessed adjusted : Int) (obj : Option Obj) (s : Script) :
    Script × Int × Option Obj × List (Entry Obj) :=
  if points ∧ obj.isSome then
    let (passed, last, final) := program.pass adjusted
    ({ s with addrOffset := last + 4 - guessed }, last, final, passed.map .passed)
  else (s, adjusted, obj, [])

/-- What is printed of the instruction, and where it leads. -/
def conclude (executed : Bool) (adjusted : Int) (obj : Obj) (waited : Option Nat) (s : Script) : Script × List (Entry Obj) :=
  let s := if program.isBranchAndLink obj then { s with returnStack := (adjusted + 4) :: s.returnStack } else s
  let error := if !executed && !program.isConditional obj then [.unconditional] else []
  let lines := .instruction executed obj waited :: error
  if executed && program.isBranch obj then
    let s := { s with branchTarget := program.branchAddr obj }
    (if s.branchTarget = none then { s with addrOffset := 0, needBranchTarget := true } else s, lines ++ [.blank])
  else (s, lines)

/-- A line of an instruction, or with `points` that of a branch point. -/
def execute (executed : Bool) (addr : Word) (points : Bool) (waited : Option Nat) (s : Script) :
    Script × List (Entry Obj) :=
  let guessed : Int := addr.toNat
  let (s, missing) := s.offset guessed
  let (s, adjusted, obj, unknown) := program.locate guessed s
  let (s, adjusted, obj, passed) := program.advance points guessed adjusted obj s
  let before := (if missing then [.missing] else []) ++ unknown ++ passed
  match obj with
  | none => (s, before ++ [.bare executed addr waited])
  | some obj =>
    let (s, lines) := program.conclude executed adjusted obj waited s
    (s, before ++ lines)

/-- One line of the decoder. -/
def read (line : Line) (s : Script) : Script × List (Entry Obj) :=
  match line with
  | .instruction true executed addr points none waited => program.execute executed addr points.isSome waited s
  | .branch true addr _ _ _ =>
    let target : Int := addr.toNat
    ({ s with branchTarget := some target },
      match s.branchTarget with
      | some old => if old ≠ target then [.changed false old target] else [.unneeded]
      | none => [])
  | .isync true _ _ addr =>
    let target : Int := addr.toNat
    ({ s with branchTarget := some target, returnStack := [] },
      match s.branchTarget with
      | some old => if old ≠ target then [.changed true old target] else [.isync]
      | none => [.isync])
  | line => (s, [.line line])

/-- The loop over the lines. -/
def reads (s : Script) : List Line → List (Entry Obj)
  | [] => []
  | line :: lines => (program.read line s).2 ++ reads (program.read line s).1 lines

end Program

end ImxTest.Etm
