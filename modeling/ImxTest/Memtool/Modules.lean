import ImxTest.Memtool.Access

/-! The tables of registers by name, and which register memtool writes when it is given names. The
entries of a table are those before its end entry, whose name is a null pointer. -/
namespace ImxTest.Memtool

structure FieldInfo where
  name : String
  lsb : Nat
  msb : Nat
  isWritable : Bool

structure Reg where
  name : String
  width : Nat
  offset : Word
  isWritable : Bool
  fields : List FieldInfo

structure Module where
  name : String
  baseAddress : Word
  regs : List Reg

/-- What is done to a register. -/
inductive Act where
  | readm (address : Word) (width : Nat)
  | writeReg (addr : Word) (width : Nat) (value : Word)
  | writeRegMask (addr : Word) (width : Nat) (value : Word) (lsb msb : Nat)
deriving DecidableEq

def Act.Writes : Act → Prop
  | .readm .. => False
  | _ => True

structure Tables where
  mx6q : List Module
  mx6dl : List Module
  mx6sl : List Module
  mx6sx : List Module
  mx6ul : List Module
  mx7d : List Module
  mx6ull : List Module
  mx7ulp : List Module
  imx8mq7dvajz : List Module

/-- What the machine says about itself: the release of its kernel, the revision in the CPU
information of an old one, the name of the SOC from a new one. -/
structure Host where
  release : Option (Int × Int × Int)
  revision : Option Nat
  socName : Option String

def KERN_VER (a b c : Int) : Int := a * 2 ^ 16 + b * 2 ^ 8 + c

/-- `mx`, or `die`. -/
def table (tables : Tables) (host : Host) : Except Stop (List Module) :=
  match host.release with
  | none => .error .died
  | some (major, minor, rel) =>
    if KERN_VER major minor rel < KERN_VER 3 10 0 then
      match host.revision.map (· >>> 12) with
      | some 0x63 => .ok tables.mx6q
      | some 0x61 => .ok tables.mx6dl
      | some 0x60 => .ok tables.mx6sl
      | _ => .error .died
    else
      match host.socName with
      | some "i.MX6Q" => .ok tables.mx6q
      | some "i.MX6DL" => .ok tables.mx6dl
      | some "i.MX6SL" => .ok tables.mx6sl
      | some "i.MX6SX" => .ok tables.mx6sx
      | some "i.MX6UL" => .ok tables.mx6ul
      | some "i.MX7D" => .ok tables.mx7d
      | some "i.MX6ULL" => .ok tables.mx6ull
      | some "i.MX7ULP" => .ok tables.mx7ulp
      | some "i.MX8MQ" => .ok tables.imx8mq7dvajz
      | _ => .error .died

/-- `g_comp`, `g_module_match` and `g_value`. -/
structure Globals where
  comp : Bool
  moduleMatch : Bool
  value : Word

/-- What stands before a star. -/
def cut (name : String) : List Char := name.toList.takeWhile (· ≠ '*')

/-- The registers that are read for the list; completion reads none. -/
def parseReg (g : Globals) (mx : Module) (reg : Option String) : Except Stop (List Act) :=
  match reg with
  | none => .error .fault
  | some reg =>
    .ok <| mx.regs.flatMap fun sreg =>
      let act := Act.readm (mx.baseAddress + sreg.offset) sreg.width
      if g.comp then []
      else if cut reg = [] ∨ cut reg <+: sreg.name.toList ∨ (cut reg).head? = some '-' then
        act :: if (cut reg).head? = some '-' then [] else [act]
      else []

/-- The fields that have the name are written, if they can be. -/
def writeFields (g : Globals) (addr : Word) (r : Reg) (field : String) : List Act :=
  r.fields.filterMap fun f =>
    if f.name = field ∧ f.isWritable then some (.writeRegMask addr r.width g.value f.lsb f.msb) else none

/-- No field is meant. -/
def NoField (field : Option String) : Prop := field = none ∨ field = some ""

instance (field : Option String) : Decidable (NoField field) := inferInstanceAs (Decidable (_ ∨ _))

/-- What is written of a register that has the name. -/
def writeNamed (g : Globals) (mx : Module) (r : Reg) (field : Option String) : List Act :=
  if NoField field then
    if r.isWritable then [.writeReg (mx.baseAddress + r.offset) r.width g.value] else []
  else writeFields g (mx.baseAddress + r.offset) r (field.getD "")

/-- The search for the register in its module. -/
def writeRegister (g : Globals) (m : Module) (reg field : Option String) : Except Stop (List Act) :=
  match reg with
  | none => if m.regs.isEmpty then .ok [] else .error .fault
  | some reg =>
    match m.regs.find? fun r => r.name = reg with
    | some r => .ok (writeNamed g m r field)
    | none => .ok []

/-- The search when something is written: it goes on to the end entry, and compares its name. -/
def writeModule (g : Globals) (module reg field : Option String) : List Module → Except Stop (List Act)
  | [] => .error .fault
  | mx :: rest =>
    match module with
    | none => .error .fault
    | some name => if mx.name = name then writeRegister g mx reg field else writeModule g module reg field rest

/-- The search when something is listed. -/
def listModule (g : Globals) (mx : List Module) (module reg : Option String) : Except Stop (List Act) :=
  if g.comp ∧ ¬g.moduleMatch then .ok []
  else
    match module with
    | none => .ok []
    | some module =>
      if module = "" ∨ '*' ∈ module.toList then .ok []
      else
        match mx.find? fun m => m.name = module with
        | some m => parseReg g m reg
        | none => .ok []

/-- `parse_module` when the table is known. -/
def parseTable (g : Globals) (mx : List Module) (module reg field : Option String) (iswrite : Bool) :
    Except Stop (List Act) :=
  if iswrite ∧ ¬g.comp then writeModule g module reg field mx else listModule g mx module reg

def parseModule (tables : Tables) (host : Host) (g : Globals) (module reg field : Option String) (iswrite : Bool) :
    Except Stop (List Act) := do
  let mx ← table tables host
  parseTable g mx module reg field iswrite

/-! ## What is meant by the names -/

section Names
variable (g : Globals) (mx : List Module) (module reg : String) (field : Option String)

/-- The writes of all registers, or fields, that have the names and can be written. -/
def wanted : List Act :=
  mx.flatMap fun m =>
    if m.name = module then m.regs.flatMap fun r => if r.name = reg then writeNamed g m r field else []
    else []

/-- Nothing is written but one of these, if there is one, and the search ends in the table. -/
def WritesRight (outcome : Except Stop (List Act)) : Prop :=
  ∃ acts, outcome = .ok acts ∧
    ((∃ act ∈ wanted g mx module reg field, acts = [act]) ∨ wanted g mx module reg field = [] ∧ ∀ act ∈ acts, ¬act.Writes)

/-- The first register of the name in the first module of the name can be written, or has one field of
the name that can. -/
def FirstSingle : Prop :=
  ∃ m, mx.find? (fun m => m.name = module) = some m ∧ ∃ r, m.regs.find? (fun r => r.name = reg) = some r ∧
    if NoField field then r.isWritable = true
    else (r.fields.filter fun f => f.name = field.getD "" ∧ f.isWritable).length = 1

/-- No register, or field, has the names and can be written. -/
def NoneWritable : Prop :=
  ∀ m ∈ mx, m.name = module → ∀ r ∈ m.regs, r.name = reg →
    if NoField field then r.isWritable = false
    else ∀ f ∈ r.fields, f.name = field.getD "" → f.isWritable = false

end Names

section Proofs
variable {g : Globals} {mx : List Module} {module reg : String} {field : Option String}

theorem writeFields_eq_nil {addr : Word} {r : Reg} {name : String} :
    writeFields g addr r name = [] ↔ ∀ f ∈ r.fields, f.name = name → f.isWritable = false := by
  unfold writeFields
  rw [List.filterMap_eq_nil_iff]
  refine forall₂_congr fun f _ => ?_
  cases f.isWritable <;> simp

theorem writeFields_length {addr : Word} {r : Reg} {name : String} : (writeFields g addr r name).length =
    (r.fields.filter fun f => f.name = name ∧ f.isWritable).length := by
  unfold writeFields
  induction r.fields with
  | nil => rfl
  | cons f fields ih =>
    rw [List.filterMap_cons, List.filter_cons]
    by_cases named : f.name = name ∧ f.isWritable
    · rw [if_pos named, if_pos (decide_eq_true named), List.length_cons, List.length_cons, ih]
    · rw [if_neg named, if_neg (by simpa using named), ih]

theorem writeNamed_eq_nil {m : Module} {r : Reg} : writeNamed g m r field = [] ↔
    if NoField field then r.isWritable = false else ∀ f ∈ r.fields, f.name = field.getD "" → f.isWritable = false := by
  unfold writeNamed
  split_ifs with no_field writable
  · simp [writable]
  · simpa using writable
  · exact writeFields_eq_nil

theorem writeNamed_length {m : Module} {r : Reg} : (writeNamed g m r field).length = 1 ↔
    if NoField field then r.isWritable = true
    else (r.fields.filter fun f => f.name = field.getD "" ∧ f.isWritable).length = 1 := by
  unfold writeNamed
  split_ifs with no_field writable
  · simp [writable]
  · simp [writable]
  · rw [writeFields_length]

theorem wanted_eq_nil : wanted g mx module reg field = [] ↔ NoneWritable mx module reg field := by
  unfold wanted NoneWritable
  rw [List.flatMap_eq_nil_iff]
  refine forall₂_congr fun m _ => ?_
  by_cases named : m.name = module
  · rw [if_pos named, imp_iff_right named, List.flatMap_eq_nil_iff]
    refine forall₂_congr fun r _ => ?_
    by_cases named_reg : r.name = reg
    · rw [if_pos named_reg, imp_iff_right named_reg, writeNamed_eq_nil]
    · rw [if_neg named_reg]
      exact iff_of_true rfl fun same => absurd same named_reg
  · rw [if_neg named]
    exact iff_of_true rfl fun same => absurd same named

/-- What stands in the first module and the first register of these names. -/
def firstNamed (g : Globals) (mx : List Module) (module reg : String) (field : Option String) : List Act :=
  match mx.find? fun m => m.name = module with
  | none => []
  | some m =>
    match m.regs.find? fun r => r.name = reg with
    | none => []
    | some r => writeNamed g m r field

theorem writeModule_eq : writeModule g (some module) (some reg) field mx =
    if ∃ m ∈ mx, m.name = module then .ok (firstNamed g mx module reg field) else .error .fault := by
  induction mx with
  | nil => rw [if_neg (by simp)]; rfl
  | cons m rest ih =>
    rw [writeModule]
    unfold firstNamed
    by_cases named : m.name = module
    · have known : ∃ m' ∈ m :: rest, m'.name = module := ⟨m, List.mem_cons_self, named⟩
      rw [if_pos named, if_pos known, List.find?_cons_of_pos (by simpa using named)]
      unfold writeRegister
      dsimp only
      cases m.regs.find? fun r => r.name = reg <;> rfl
    · have later : (∃ m' ∈ m :: rest, m'.name = module) ↔ ∃ m' ∈ rest, m'.name = module := by simp [named]
      rw [if_neg named, ih, List.find?_cons_of_neg (by simpa using named)]
      simp only [later]
      rfl

theorem firstNamed_subset : firstNamed g mx module reg field ⊆ wanted g mx module reg field := by
  unfold firstNamed
  split
  · exact List.nil_subset _
  · rename_i m found
    split
    · exact List.nil_subset _
    · rename_i r found_reg
      intro act mem
      refine List.mem_flatMap.mpr ⟨m, List.mem_of_find?_eq_some found, ?_⟩
      rw [if_pos (by simpa using List.find?_some found)]
      refine List.mem_flatMap.mpr ⟨r, List.mem_of_find?_eq_some found_reg, ?_⟩
      rwa [if_pos (by simpa using List.find?_some found_reg)]

theorem firstNamed_length : (firstNamed g mx module reg field).length = 1 ↔ FirstSingle mx module reg field := by
  unfold firstNamed FirstSingle
  split
  · rename_i missing
    simp [missing]
  · rename_i m found
    split
    · rename_i missing
      simp [found, missing]
    · rename_i r found_reg
      simp only [found, found_reg, Option.some.injEq, exists_eq_left']
      exact writeNamed_length

/-- Completion reads no register and writes none. -/
theorem listModule_completes (comp : g.comp = true) :
    listModule g mx (some module) (some reg) = .ok [] := by
  have none_read (m : Module) : parseReg g m (some reg) = .ok [] := by
    unfold parseReg
    simp [comp]
  unfold listModule
  dsimp only
  split_ifs
  · rfl
  · rfl
  · split
    · exact none_read _
    · rfl

/-- One register of the names is written if it can be, and else none, exactly when the module is in the
table and either the first register of the name in it has just one thing to write, or nothing of these
names can be written anywhere; or in completion when nothing can be written. -/
theorem parseTable_writes_iff (g : Globals) (mx : List Module) (module reg : String) (field : Option String) :
    WritesRight g mx module reg field (parseTable g mx (some module) (some reg) field true) ↔
      if g.comp then NoneWritable mx module reg field
      else (∃ m ∈ mx, m.name = module) ∧ (FirstSingle mx module reg field ∨ NoneWritable mx module reg field) := by
  unfold parseTable WritesRight
  split_ifs with write_ comp comp
  · exact absurd comp write_.2
  · rw [writeModule_eq, ← wanted_eq_nil, ← firstNamed_length]
    split_ifs with known
    · rw [and_iff_right known]
      constructor
      · rintro ⟨acts, same, ⟨act, mem, rfl⟩ | ⟨none_, -⟩⟩
        · rw [Except.ok.inj same]
          exact .inl rfl
        · exact .inr none_
      · rintro (one | none_)
        · obtain ⟨act, single⟩ := List.length_eq_one_iff.mp one
          refine ⟨[act], by rw [single], .inl ⟨act, firstNamed_subset ?_, rfl⟩⟩
          rw [single]
          exact List.mem_singleton_self act
        · refine ⟨_, rfl, .inr ⟨none_, fun act mem => ?_⟩⟩
          have inside := firstNamed_subset mem
          rw [none_] at inside
          cases inside
    · refine iff_of_false ?_ fun both => known both.1
      rintro ⟨acts, same, -⟩
      cases same
  · rw [listModule_completes comp, ← wanted_eq_nil]
    constructor
    · rintro ⟨acts, same, ⟨act, -, rfl⟩ | ⟨none_, -⟩⟩
      · cases same
      · exact none_
    · exact fun none_ => ⟨[], rfl, .inr ⟨none_, nofun⟩⟩
  · exact absurd ⟨rfl, comp⟩ write_

/-- A module that is not in the table. -/
theorem not_parseTable_writes_missing :
    ¬WritesRight ⟨false, true, 0x12⟩ [⟨"UART1", 0x02020000, []⟩] "UART9" "UCR1" none
      (parseTable ⟨false, true, 0x12⟩ [⟨"UART1", 0x02020000, []⟩] (some "UART9") (some "UCR1") none true) := by
  rw [parseTable_writes_iff]
  simp

end Proofs

end ImxTest.Memtool
