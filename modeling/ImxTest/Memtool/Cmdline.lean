import ImxTest.Memtool.Access
import ImxTest.Nodes.Cmdline
import Mathlib.Data.List.Infix

/-! The command line of memtool. -/
namespace ImxTest.Memtool
open Nodes (isspace digits digitValue)

/-- A string of `argv`. -/
abbrev Arg := List Char

/-- What memtool is compiled for and runs on. -/
structure Platform where
  /-- The bits of an `unsigned long`. -/
  longBits : Nat
  longBits_ge : 32 ≤ longBits
  /-- `getpagesize()` is this power of two, an int. -/
  pageBits : Nat
  pageBits_le : pageBits ≤ 30

/-- Without the `0x` that may stand in front of the digits. -/
def unprefixed : Arg → Arg
  | '0' :: x :: c :: rest => if x.toLower = 'x' ∧ digitValue c < 16 then c :: rest else '0' :: x :: c :: rest
  | str => str

/-- `strtoul(str, NULL, 16)` -/
def Platform.strtoul (platform : Platform) (str : Arg) : Nat :=
  let str := str.dropWhile isspace
  let (negative, str) := match str with
    | '-' :: rest => (true, rest)
    | '+' :: rest => (false, rest)
    | str => (false, str)
  let value := digits 16 0 (unprefixed str)
  if 2 ^ platform.longBits ≤ value then 2 ^ platform.longBits - 1
  else if negative then (2 ^ platform.longBits - value) % 2 ^ platform.longBits
  else value

/-- Whether `strstr` finds the word. -/
def strstr (str : Arg) (word : String) : Bool := word.toList <:+: str

/-- What is in front of the first `c`. -/
def before (c : Char) (str : Arg) : Arg := str.takeWhile (· ≠ c)

/-- What is behind the first `c`, if `strchr` finds one. -/
def behind (c : Char) (str : Arg) : Option Arg :=
  match str.dropWhile (· ≠ c) with
  | [] => none
  | _ :: rest => some rest

/-- The variables that the command line sets. -/
structure Command where
  size : Nat := 4
  paddr : Nat := 0
  isWrite : Bool := false
  value : Word := 0
  count : Nat := 1
  isReg : Bool := false
  module : Option Arg := none
  reg : Option Arg := none
  field : Option Arg := none
  comp : Bool := false
  moduleMatch : Bool := false
deriving DecidableEq, Repr

/-- `argv[cur_arg]`, when these are the strings from there up to `argc`. -/
def look : List Arg → Except Stop Arg
  | [] => .error .fault
  | word :: _ => .ok word

def sizeFlag (word : Arg) : Option Nat :=
  if word = "-8".toList then some 1
  else if word = "-16".toList then some 2
  else if word = "-32".toList then some 4
  else none

/-- The loop over the strings that are the program or empty. -/
def skip (c : Command) : List Arg → List Arg × Command
  | [] => ([], c)
  | word :: args =>
    if strstr word "memtool" ∨ word = [] then skip { c with comp := c.comp || strstr word "memtool" } args
    else (word :: args, c)

section Parse
variable (platform : Platform)

def Command.writes (c : Command) (str : Arg) : Command :=
  { c with isWrite := true, value := .ofNat 32 (platform.strtoul str) }

/-- The names of a module, a register and a field. -/
def parseNames (c : Command) (word : Arg) : Command :=
  let c := { c with isReg := true, module := some (before '.' word) }
  match behind '.' word with
  | none => c
  | some reg =>
    let c := { c with reg := some reg, moduleMatch := true }
    match behind '.' reg with
    | none =>
      match behind '=' reg with
      | none => c
      | some value => { c with reg := some (before '=' reg) }.writes platform value
    | some field =>
      let c := { c with reg := some (before '.' reg), field := some field }
      match behind '=' field with
      | none => c
      | some value => { c with field := some (before '=' field) }.writes platform value

/-- The string behind the address. -/
def parseAmount (c : Command) : List Arg → Int × Command
  | [] => (-1, c)
  | word :: args =>
    match word with
    | '=' :: value =>
      let c := { c with isWrite := true }
      if value ≠ [] then (0, c.writes platform value)
      else
        match args with
        | [] => (-1, c)
        | value :: _ => (0, c.writes platform value)
    | word =>
      if c.isWrite then (0, c.writes platform word)
      else (0, { c with count := platform.strtoul word % 2 ^ 32 })

/-- An address, with what is written or how much is read. -/
def parseMemory (c : Command) (word : Arg) (args : List Arg) : Int × Command :=
  let c := { c with paddr := platform.strtoul word }
  if c.paddr = 0 then (-1, c)
  else
    match behind '=' word with
    | none => parseAmount platform c args
    | some [] => parseAmount platform { c with isWrite := true } args
    | some value => (0, c.writes platform value)

/-- The function behind the flags. -/
def parseWords (c : Command) : List Arg → Int × Command
  | [] => (if c.comp then 0 else -1, c)
  | word :: args =>
    if c.comp ∨ '.' ∈ word then (0, parseNames platform c word) else parseMemory platform c word args

/-- The function behind the width. -/
def parseComp (c : Command) (args : List Arg) : Except Stop (Int × Command) := do
  let word ← look args
  let (args, c) := if word = "-comp".toList then (args.tail, { c with comp := true }) else (args, c)
  let (args, c) := skip c args
  pure (parseWords platform c args)

/-- What the function returns, and the variables. -/
def parseCmdline (argv : List Arg) : Except Stop (Int × Command) :=
  if argv.length < 2 then .ok (-1, {})
  else do
    let args := argv.tail
    let word ← look args
    match sizeFlag word with
    | some size => parseComp platform { size } args.tail
    | none => parseComp platform {} args

end Parse

section Skip
variable {c : Command} {args : List Arg}

/-- What is skipped are words that say memtool, which the function notes, and empty ones. -/
theorem skip_shape (c : Command) (args : List Arg) : ∃ skipped,
    args = skipped ++ (skip c args).1 ∧
    (∀ word ∈ skipped, strstr word "memtool" ∨ word = []) ∧
    (∀ word ∈ (skip c args).1.head?, strstr word "memtool" = false ∧ word ≠ []) ∧
    (skip c args).2 = { c with comp := c.comp || skipped.any (strstr · "memtool") } := by
  induction args generalizing c with
  | nil => exact ⟨[], rfl, by simp, by simp [skip], by simp [skip]⟩
  | cons word args ih =>
      by_cases passed : strstr word "memtool" ∨ word = []
      · obtain ⟨skipped, whole, all, stopped, noted⟩ := ih { c with comp := c.comp || strstr word "memtool" }
        rw [skip, if_pos passed]
        refine ⟨word :: skipped, congrArg (word :: ·) whole, ?_, stopped, ?_⟩
        · intro other member
          obtain rfl | member := List.mem_cons.mp member
          · exact passed
          · exact all other member
        · rw [noted, List.any_cons, Bool.or_assoc]
      · rw [skip, if_neg passed]
        refine ⟨[], rfl, by simp, ?_, by simp⟩
        intro other same
        obtain rfl : word = other := by simpa using same
        simpa [not_or] using passed

theorem skip_comp (free : (skip c args).2.comp = false) : ∃ n,
    args = List.replicate n [] ++ (skip c args).1 ∧ (skip c args).2 = c ∧
    ∀ word ∈ (skip c args).1.head?, strstr word "memtool" = false ∧ word ≠ [] := by
  obtain ⟨skipped, whole, all, stopped, noted⟩ := skip_shape c args
  rw [noted, Bool.or_eq_false_iff] at free
  have blank : skipped = List.replicate skipped.length [] := by
    refine List.eq_replicate_of_mem fun word member => ?_
    have unsaid := List.any_eq_false.mp free.2 word member
    exact (all word member).resolve_left unsaid
  refine ⟨skipped.length, blank ▸ whole, ?_, stopped⟩
  rw [noted, free.2, Bool.or_false]

theorem skip_blanks {word : Arg} (c : Command) (n : Nat) (args : List Arg)
    (unsaid : strstr word "memtool" = false) (filled : word ≠ []) :
    skip c (List.replicate n [] ++ word :: args) = (word :: args, c) := by
  induction n with
  | zero => simp [skip, unsaid, filled]
  | succ n ih =>
      have clear : strstr [] "memtool" = false := by decide
      have same : { c with comp := c.comp || strstr [] "memtool" } = c := by rw [clear, Bool.or_false]
      rw [List.replicate_succ, List.cons_append, skip, if_pos (Or.inr rfl), same, ih]

end Skip

section Words
variable {platform : Platform} {c c' : Command} {word : Arg} {args : List Arg}

theorem Platform.strtoul_lt (platform : Platform) (str : Arg) : platform.strtoul str < 2 ^ platform.longBits := by
  have positive := Nat.two_pow_pos platform.longBits
  simp only [strtoul]
  split_ifs
  · omega
  · exact Nat.mod_lt _ positive
  · omega

theorem behind_none {mark : Char} {str : Arg} : behind mark str = none ↔ mark ∉ str := by
  unfold behind
  induction str with
  | nil => simp
  | cons other str ih =>
      by_cases same : other = mark
      · simp [same]
      · simpa [List.dropWhile_cons, same, Ne.symm same] using ih

theorem parseNames_isReg : (parseNames platform c word).isReg = true := by
  unfold parseNames
  repeat' split
  all_goals rfl

theorem parseNames_comp : (parseNames platform c word).comp = c.comp := by
  unfold parseNames
  repeat' split
  all_goals rfl

/-- There is a value to write, to the same place. -/
structure Command.Writes (c c' : Command) : Prop where
  isWrite : c'.isWrite = true
  size : c'.size = c.size
  paddr : c'.paddr = c.paddr
  count : c'.count = c.count

/-- What is behind an address is a value to write or, when no value is to come, how much is read. -/
theorem parseAmount_cases (accepted : parseAmount platform c args = (0, c')) :
    c.Writes c' ∨ ∃ amount rest, args = amount :: rest ∧ amount.head? ≠ some '=' ∧ c.isWrite = false ∧
      c' = { c with count := platform.strtoul amount % 2 ^ 32 } := by
  unfold parseAmount at accepted
  split at accepted
  · simp at accepted
  · rename_i word args
    split at accepted
    · left
      split at accepted
      · cases accepted
        exact ⟨rfl, rfl, rfl, rfl⟩
      · split at accepted
        · simp at accepted
        · cases accepted
          exact ⟨rfl, rfl, rfl, rfl⟩
    · rename_i other
      split at accepted
      · left
        cases accepted
        exact ⟨rfl, rfl, rfl, rfl⟩
      · rename_i free
        right
        cases accepted
        refine ⟨word, args, rfl, ?_, by simpa using free, rfl⟩
        intro head
        obtain ⟨value, same⟩ := List.head?_eq_some_iff.mp head
        exact other value same

theorem parseMemory_cases (accepted : parseMemory platform c word args = (0, c')) :
    { c with paddr := platform.strtoul word }.Writes c' ∨ ∃ amount rest, args = amount :: rest ∧ '=' ∉ word ∧
      amount.head? ≠ some '=' ∧ platform.strtoul word ≠ 0 ∧
      c' = { c with paddr := platform.strtoul word, count := platform.strtoul amount % 2 ^ 32 } := by
  simp only [parseMemory] at accepted
  by_cases address : platform.strtoul word = 0
  · simp [address] at accepted
  · rw [if_neg address] at accepted
    split at accepted
    · rename_i unmarked
      obtain writes | ⟨amount, rest, here, plain, -, same⟩ := parseAmount_cases accepted
      · exact Or.inl writes
      · exact Or.inr ⟨amount, rest, here, behind_none.mp unmarked, plain, address, same⟩
    · obtain writes | ⟨_, _, _, _, waits, _⟩ := parseAmount_cases accepted
      · exact Or.inl ⟨writes.isWrite, writes.size, writes.paddr, writes.count⟩
      · simp at waits
    · cases accepted
      exact Or.inl ⟨rfl, rfl, rfl, rfl⟩

theorem parseMemory_reads {amount : Arg} (unmarked : '=' ∉ word) (plain : amount.head? ≠ some '=')
    (address : platform.strtoul word ≠ 0) (fresh : c.isWrite = false) :
    parseMemory platform c word (amount :: args) =
      (0, { c with paddr := platform.strtoul word, count := platform.strtoul amount % 2 ^ 32 }) := by
  simp only [parseMemory, behind_none.mpr unmarked, address, if_false, parseAmount]
  split
  · exact absurd rfl plain
  · simp [fresh]

theorem parseAmount_comp : (parseAmount platform c args).2.comp = c.comp := by
  unfold parseAmount
  repeat' split
  all_goals rfl

theorem parseMemory_comp : (parseMemory platform c word args).2.comp = c.comp := by
  simp only [parseMemory]
  split
  · rfl
  · split
    · exact parseAmount_comp
    · exact parseAmount_comp
    · rfl

theorem parseWords_comp : (parseWords platform c args).2.comp = c.comp := by
  unfold parseWords
  split
  · rfl
  · split
    · exact parseNames_comp
    · exact parseMemory_comp

theorem parseComp_cons (other : word ≠ "-comp".toList) : parseComp platform c (word :: args) =
    .ok (parseWords platform (skip c (word :: args)).2 (skip c (word :: args)).1) := by
  simp only [parseComp, look, bind, Except.bind, pure, Except.pure, if_neg other]

/-- An address is found behind empty words only. -/
theorem parseComp_cases (accepted : parseComp platform c args = .ok (0, c')) (free : c'.comp = false)
    (unnamed : c'.isReg = false) : ∃ n word rest, args = List.replicate n [] ++ word :: rest ∧
      (n = 0 → word ≠ "-comp".toList) ∧ strstr word "memtool" = false ∧ '.' ∉ word ∧
      parseMemory platform c word rest = (0, c') := by
  cases args with
  | nil => simp [parseComp, look, bind, Except.bind] at accepted
  | cons first args =>
      by_cases comp : first = "-comp".toList
      · simp only [parseComp, look, bind, Except.bind, pure, Except.pure, Except.ok.injEq] at accepted
        have noted := congrArg (fun answer => answer.2.comp) accepted
        rw [if_pos comp, parseWords_comp] at noted
        obtain ⟨_, _, _, _, same⟩ := skip_shape { c with comp := true } args
        simp [same, free] at noted
      · rw [parseComp_cons comp, Except.ok.injEq] at accepted
        have noted := congrArg (fun answer => answer.2.comp) accepted
        simp only [parseWords_comp, free] at noted
        obtain ⟨n, whole, same, stopped⟩ := skip_comp noted
        rw [same] at accepted noted
        generalize (skip c (first :: args)).1 = words at accepted whole stopped
        cases words with
        | nil => simp [parseWords, noted] at accepted
        | cons word rest =>
            have unsaid := (stopped word rfl).1
            rw [parseWords] at accepted
            split at accepted
            · have named := congrArg (fun answer => answer.2.isReg) accepted
              simp [parseNames_isReg, unnamed] at named
            · rename_i plain
              rw [not_or] at plain
              refine ⟨n, word, rest, whole, ?_, unsaid, plain.2, accepted⟩
              rintro rfl rfl
              exact comp (List.cons.inj whole).1

theorem parseComp_memory {n : Nat} (fresh : c.comp = false) (filled : word ≠ [])
    (first : n = 0 → word ≠ "-comp".toList) (unsaid : strstr word "memtool" = false) (undotted : '.' ∉ word) :
    parseComp platform c (List.replicate n [] ++ word :: args) = .ok (parseMemory platform c word args) := by
  have skipped := skip_blanks c n args unsaid filled
  have words : parseWords platform c (word :: args) = parseMemory platform c word args := by
    rw [parseWords, if_neg (by simp [fresh, undotted])]
  cases n with
  | zero =>
      rw [List.replicate_zero, List.nil_append] at skipped ⊢
      rw [parseComp_cons (first rfl), skipped, words]
  | succ n =>
      rw [List.replicate_succ, List.cons_append] at skipped ⊢
      rw [parseComp_cons (by simp), skipped, words]

end Words

/-- A width and nothing behind it. -/
def LoneFlag (argv : List Arg) : Prop := ∃ name flag, argv = [name, flag] ∧ sizeFlag flag ≠ none

/-- The strings of a command line that has memory read. -/
structure Line where
  name : Arg
  flag : Option Arg
  /-- How many empty strings are in front of the address. -/
  blanks : Nat
  address : Arg
  amount : Arg
  /-- What the function does not look at. -/
  rest : List Arg

namespace Line

def argv (line : Line) : List Arg :=
  line.name :: (line.flag.toList ++ (List.replicate line.blanks [] ++ line.address :: line.amount :: line.rest))

def size (line : Line) : Nat := (line.flag.bind sizeFlag).getD 4

def paddr (platform : Platform) (line : Line) : Nat := platform.strtoul line.address

def count (platform : Platform) (line : Line) : Nat := platform.strtoul line.amount % 2 ^ 32

/-- The strings are what the function takes them for. -/
structure Proper (platform : Platform) (line : Line) : Prop where
  width : ∀ word ∈ line.flag, sizeFlag word ≠ none
  first : line.blanks = 0 → line.address ≠ "-comp".toList ∧ (line.flag = none → sizeFlag line.address = none)
  unsaid : strstr line.address "memtool" = false
  undotted : '.' ∉ line.address
  unmarked : '=' ∉ line.address
  address : line.paddr platform ≠ 0
  plain : line.amount.head? ≠ some '='

def command (platform : Platform) (line : Line) : Command :=
  { size := line.size, paddr := line.paddr platform, count := line.count platform }

end Line

section Parsed
variable {platform : Platform} {argv : List Arg} {c : Command} {line : Line}

theorem parseComp_looks {args : List Arg} : (∃ answer, parseComp platform c args = .ok answer) ↔ args ≠ [] := by
  cases args <;> simp [parseComp, look, bind, Except.bind, pure, Except.pure]

theorem parseCmdline_flag {name word : Arg} {args : List Arg} {size : Nat} (width : sizeFlag word = some size) :
    parseCmdline platform (name :: word :: args) = parseComp platform { size } args := by
  simp [parseCmdline, look, bind, Except.bind, width]

theorem parseCmdline_plain {name word : Arg} {args : List Arg} (width : sizeFlag word = none) :
    parseCmdline platform (name :: word :: args) = parseComp platform {} (word :: args) := by
  simp [parseCmdline, look, bind, Except.bind, width]

theorem parseCmdline_looks : (∃ answer, parseCmdline platform argv = .ok answer) ↔ ¬LoneFlag argv := by
  match argv with
  | [] => simp [parseCmdline, LoneFlag]
  | [name] => simp [parseCmdline, LoneFlag]
  | name :: word :: args =>
      cases width : sizeFlag word with
      | none =>
          rw [parseCmdline_plain width, parseComp_looks]
          simp [LoneFlag, width]
      | some size =>
          rw [parseCmdline_flag width, parseComp_looks]
          simp [LoneFlag, width]

theorem sizeFlag_known {word : Arg} {size : Nat} (width : sizeFlag word = some size) : Known size := by
  unfold sizeFlag at width
  split_ifs at width <;> cases width <;> decide

theorem Platform.strtoul_nil : platform.strtoul [] = 0 := by
  simp [strtoul, unprefixed, Nodes.digits]

theorem flag_known {flag : Option Arg} (width : ∀ word ∈ flag, sizeFlag word ≠ none) :
    Known ((flag.bind sizeFlag).getD 4) := by
  cases flag with
  | none => decide
  | some word =>
      obtain ⟨size, found⟩ := Option.ne_none_iff_exists'.mp (width word rfl)
      simpa [found] using sizeFlag_known found

theorem Line.Proper.known (proper : line.Proper platform) : Known line.size := flag_known proper.width

theorem Line.parse (proper : line.Proper platform) :
    parseCmdline platform line.argv = .ok (0, line.command platform) := by
  have filled : line.address ≠ [] := by
    intro empty
    have address := proper.address
    rw [Line.paddr, empty] at address
    exact address Platform.strtoul_nil
  have reads (size : Nat) : parseComp platform { size }
      (List.replicate line.blanks [] ++ line.address :: line.amount :: line.rest) =
        .ok (0, { size, paddr := line.paddr platform, count := line.count platform }) := by
    rw [parseComp_memory rfl filled (fun none => (proper.first none).1) proper.unsaid proper.undotted,
      parseMemory_reads proper.unmarked proper.plain proper.address rfl]
    rfl
  cases given : line.flag with
  | some flag =>
      obtain ⟨size, width⟩ := Option.ne_none_iff_exists'.mp (proper.width flag given)
      have wide : line.size = size := by simp [Line.size, given, width]
      rw [Line.argv, Line.command, given, wide]
      exact (parseCmdline_flag width).trans (reads size)
  | none =>
      have wide : line.size = 4 := by simp [Line.size, given]
      rw [Line.argv, Line.command, given, wide, ← reads 4]
      cases blanks : line.blanks with
      | zero => exact parseCmdline_plain ((proper.first blanks).2 given)
      | succ n => exact parseCmdline_plain (by decide)

/-- The width that may be given, and what is behind it. -/
theorem exists_flag (accepted : parseCmdline platform argv = .ok (0, c)) : ∃ name flag words,
    argv = name :: (Option.toList flag ++ words) ∧ (∀ word ∈ flag, sizeFlag word ≠ none) ∧
    (flag = none → ∀ word ∈ words.head?, sizeFlag word = none) ∧
    parseComp platform { size := (flag.bind sizeFlag).getD 4 } words = .ok (0, c) := by
  match argv with
  | [] => simp [parseCmdline] at accepted
  | [name] => simp [parseCmdline] at accepted
  | name :: word :: words =>
      cases width : sizeFlag word with
      | none =>
          rw [parseCmdline_plain width] at accepted
          exact ⟨name, none, word :: words, rfl, by simp, by simp [width], accepted⟩
      | some size =>
          rw [parseCmdline_flag width] at accepted
          exact ⟨name, some word, words, rfl, by simp [width], by simp, by simpa [width] using accepted⟩

/-- A command line that `main` is to map memory for has a value written or memory read. -/
theorem exists_line (accepted : parseCmdline platform argv = .ok (0, c)) (free : c.comp = false)
    (unnamed : c.isReg = false) : (c.isWrite = true ∧ c.count = 1 ∧ Known c.size ∧ c.paddr < 2 ^ platform.longBits) ∨
      ∃ line : Line, argv = line.argv ∧ line.Proper platform ∧ c = line.command platform := by
  obtain ⟨name, flag, words, rfl, width, unflagged, behind⟩ := exists_flag accepted
  obtain ⟨n, word, rest, rfl, first, unsaid, undotted, memory⟩ := parseComp_cases behind free unnamed
  obtain writes | ⟨amount, rest, rfl, unmarked, plain, address, rfl⟩ := parseMemory_cases memory
  · left
    refine ⟨writes.isWrite, writes.count, ?_, ?_⟩
    · rw [writes.size]
      exact flag_known width
    · rw [writes.paddr]
      exact platform.strtoul_lt word
  · right
    refine ⟨⟨name, flag, n, word, amount, rest⟩, rfl, ?_, rfl⟩
    refine ⟨width, ?_, unsaid, undotted, unmarked, address, plain⟩
    rintro rfl
    exact ⟨first rfl, fun none => unflagged none word rfl⟩

end Parsed

end ImxTest.Memtool
