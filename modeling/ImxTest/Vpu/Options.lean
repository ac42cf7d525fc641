import ImxTest.Nodes.Cmdline
import Mathlib.Data.List.Infix

/-! The lines of a configuration file as parse_options of mxc_vpu_test/utils.c takes them. -/
namespace ImxTest.Vpu.Options
open Nodes

def MAX_PATH : Nat := 256
def PATH_FILE : Int := 1
def PATH_NET : Int := 2

/-- The fields of `struct cmd_line` that lines set. -/
structure CmdLine where
  input : Word
  output : Word
  srcScheme : Int
  dstScheme : Int
  width : Int
  height : Int
  format : Int
  deblockEn : Int
  deringEn : Int
  rotEn : Int
  extRotEn : Int
  rotAngle : Int
  mirror : Int
  chromaInterleave : Int
  bitrate : Int
  gop : Int
  count : Int
  prescan : Int
  bsMode : Int
  port : Int
  mp4H264Class : Int
  quantParam : Int

/-- What `parse_options` writes to: `*cmd` and `*mode`. -/
structure State where
  cmd : CmdLine
  mode : Int

/-- `strtol(str, NULL, 10)` -/
def strtol10 (str : Word) : Int :=
  let str := str.dropWhile isspace
  let (negative, str) := match str with
    | '-' :: rest => (true, rest)
    | '+' :: rest => (false, rest)
    | str => (false, str)
  let value : Int := digits 10 0 str
  if negative then max (-2 ^ 63) (-value) else min (2 ^ 63 - 1) value

/-- The same in an `int`. -/
def number (str : Word) : Int := toInt (strtol10 str)

/-- The array behind `strncpy(dst, src, n)`. -/
def strncpy (dst src : Word) (n : Nat) : Word :=
  src.take n ++ List.replicate (n - src.length) '\x00' ++ dst.drop n

/-- Whether `strstr` finds the word. -/
def strstr (buf : Word) (word : String) : Bool := word.toList <:+: buf

/-- What stands behind the first `=`, unless nothing does. -/
def valueText (buf : Word) : Option Word :=
  match buf.dropWhile (· ≠ '=') with
  | _ :: c :: str => some (c :: str)
  | _ => none

/-- The words that a line may set an option by, in the order they are looked for. -/
inductive Key where
  | operation | input | output | port | format | rotation | ext_rot | ip | count | chromaInterleave | mp4Class
  | deblock | dering | mirror | width | height | bitrate | prescan | gop | quantParam
deriving DecidableEq, Repr

def keys : List Key :=
  [.operation, .input, .output, .port, .format, .rotation, .ext_rot, .ip, .count, .chromaInterleave, .mp4Class,
    .deblock, .dering, .mirror, .width, .height, .bitrate, .prescan, .gop, .quantParam]

def Key.word : Key → String
  | .operation => "operation"
  | .input => "input"
  | .output => "output"
  | .port => "port"
  | .format => "format"
  | .rotation => "rotation"
  | .ext_rot => "ext_rot"
  | .ip => "ip"
  | .count => "count"
  | .chromaInterleave => "chromaInterleave"
  | .mp4Class => "mp4Class"
  | .deblock => "deblock"
  | .dering => "dering"
  | .mirror => "mirror"
  | .width => "width"
  | .height => "height"
  | .bitrate => "bitrate"
  | .prescan => "prescan"
  | .gop => "gop"
  | .quantParam => "quantParam"

/-- The innermost statements of the word's branch. -/
def Key.set (str : Word) (s : State) : Key → State
  | .operation => { s with mode := number str }
  | .input => { s with cmd.input := strncpy s.cmd.input str MAX_PATH, cmd.srcScheme := PATH_FILE }
  | .output => { s with cmd.output := strncpy s.cmd.output str MAX_PATH, cmd.dstScheme := PATH_FILE }
  | .port => { s with cmd.port := strtol10 str % 2 ^ 16 }
  | .format => { s with cmd.format := number str }
  | .rotation => { s with cmd.rotEn := 1, cmd.rotAngle := number str }
  | .ext_rot =>
    let s := { s with cmd.extRotEn := number str }
    if s.cmd.extRotEn = 1 then { s with cmd.rotEn := 0 } else s
  | .ip => { s with cmd.output := strncpy s.cmd.output str 64, cmd.dstScheme := PATH_NET }
  | .count => { s with cmd.count := number str }
  | .chromaInterleave => { s with cmd.chromaInterleave := number str }
  | .mp4Class => { s with cmd.mp4H264Class := number str }
  | .deblock => { s with cmd.deblockEn := number str }
  | .dering => { s with cmd.deringEn := number str }
  | .mirror => { s with cmd.mirror := number str }
  | .width => { s with cmd.width := number str }
  | .height => { s with cmd.height := number str }
  | .bitrate => { s with cmd.bitrate := number str }
  | .prescan => { s with cmd.bsMode := number str, cmd.prescan := number str }
  | .gop => { s with cmd.gop := number str }
  | .quantParam => { s with cmd.quantParam := number str }

/-- The branches look for one word after the other and differ in nothing but what they set. -/
def parseOptions (buf : Word) (s : State) : Int × State :=
  if strstr buf "end" then (100, s)
  else
    match keys.find? fun key => strstr buf key.word with
    | none => (0, s)
    | some key =>
      match valueText buf with
      | none => (0, s)
      | some str => (0, key.set str s)

/-! ## What a line is to set -/

inductive Field where
  | mode | input | srcScheme | output | dstScheme | port | format | rotEn | rotAngle | extRotEn | count
  | chromaInterleave | mp4H264Class | deblockEn | deringEn | mirror | width | height | bitrate | bsMode | prescan
  | gop | quantParam
deriving DecidableEq, Repr

inductive Content where
  | num (n : Int)
  | text (cells : Word)
deriving DecidableEq, Repr

def State.get (s : State) : Field → Content
  | .mode => .num s.mode
  | .input => .text s.cmd.input
  | .srcScheme => .num s.cmd.srcScheme
  | .output => .text s.cmd.output
  | .dstScheme => .num s.cmd.dstScheme
  | .port => .num s.cmd.port
  | .format => .num s.cmd.format
  | .rotEn => .num s.cmd.rotEn
  | .rotAngle => .num s.cmd.rotAngle
  | .extRotEn => .num s.cmd.extRotEn
  | .count => .num s.cmd.count
  | .chromaInterleave => .num s.cmd.chromaInterleave
  | .mp4H264Class => .num s.cmd.mp4H264Class
  | .deblockEn => .num s.cmd.deblockEn
  | .deringEn => .num s.cmd.deringEn
  | .mirror => .num s.cmd.mirror
  | .width => .num s.cmd.width
  | .height => .num s.cmd.height
  | .bitrate => .num s.cmd.bitrate
  | .bsMode => .num s.cmd.bsMode
  | .prescan => .num s.cmd.prescan
  | .gop => .num s.cmd.gop
  | .quantParam => .num s.cmd.quantParam

/-- The field that a key is named after or decides alone, but for `output` and `ip`. -/
def Key.own : Key → Field
  | .operation => .mode
  | .input => .srcScheme
  | .output => .dstScheme
  | .port => .port
  | .format => .format
  | .rotation => .rotAngle
  | .ext_rot => .extRotEn
  | .ip => .dstScheme
  | .count => .count
  | .chromaInterleave => .chromaInterleave
  | .mp4Class => .mp4H264Class
  | .deblock => .deblockEn
  | .dering => .deringEn
  | .mirror => .mirror
  | .width => .width
  | .height => .height
  | .bitrate => .bitrate
  | .prescan => .prescan
  | .gop => .gop
  | .quantParam => .quantParam

/-- What that field is to be. -/
def Key.ownNumber (str : Word) : Key → Int
  | .input | .output => PATH_FILE
  | .ip => PATH_NET
  | .port => strtol10 str % 2 ^ 16
  | _ => number str

/-- What the fields that belong to a key besides are to be. -/
def Key.further (str : Word) (s : State) : Key → List (Field × Content)
  | .input => [(.input, .text (strncpy s.cmd.input str MAX_PATH))]
  | .output => [(.output, .text (strncpy s.cmd.output str MAX_PATH))]
  | .ip => [(.output, .text (strncpy s.cmd.output str 64))]
  | .rotation => [(.rotEn, .num 1)]
  | .ext_rot => if number str = 1 then [(.rotEn, .num 0)] else []
  | .prescan => [(.bsMode, .num (number str))]
  | _ => []

/-- The fields that belong to the key are set from the value, and no others. -/
def Assigns (key : Key) (str : Word) (s s' : State) : Prop :=
  ∀ field, s'.get field =
    (((key.own, Content.num (key.ownNumber str)) :: key.further str s).lookup field).getD (s.get field)

/-- The words looked for before this one. -/
def Key.earlier (key : Key) : List String := "end" :: (keys.takeWhile (· ≠ key)).map Key.word

/-- The line `key=value`. -/
def line (key : Key) (str : Word) : Word := key.word.toList ++ '=' :: str

/-! ## Assignment -/

theorem set_assigns (key : Key) (str : Word) (s : State) : Assigns key str s (key.set str s) := by
  intro field
  cases key with
  | ext_rot =>
    by_cases one : number str = 1
    · have written : Key.ext_rot.set str s = { s with cmd.extRotEn := number str, cmd.rotEn := 0 } := if_pos one
      have further : Key.ext_rot.further str s = [(.rotEn, .num 0)] := if_pos one
      rw [written, further]
      cases field <;> rfl
    · have written : Key.ext_rot.set str s = { s with cmd.extRotEn := number str } := if_neg one
      have further : Key.ext_rot.further str s = [] := if_neg one
      rw [written, further]
      cases field <;> rfl
  | _ => cases field <;> rfl

theorem Assigns.own {key : Key} {str : Word} {s s' : State} (assigns : Assigns key str s s') :
    s'.get key.own = .num (key.ownNumber str) := by
  rw [assigns, List.lookup_cons_self]
  rfl

/-- Every number is `n`. -/
def State.all (n : Int) : State where
  cmd := ⟨[], [], n, n, n, n, n, n, n, n, n, n, n, n, n, n, n, n, n, n, n, n⟩
  mode := n

theorem all_own (key : Key) (n : Int) : (State.all n).get key.own = .num n := by
  cases key <;> rfl

theorem mem_keys (key : Key) : key ∈ keys := by
  cases key <;> decide

theorem own_inj {key other : Key} (same : key.own = other.own) :
    key = other ∨ key = .output ∧ other = .ip ∨ key = .ip ∧ other = .output := by
  have all : ∀ key ∈ keys, ∀ other ∈ keys, key.own = other.own →
      key = other ∨ key = .output ∧ other = .ip ∨ key = .ip ∧ other = .output := by decide
  exact all key (mem_keys key) other (mem_keys other) same

theorem further_own (key other : Key) (str : Word) (s : State) : (other.further str s).lookup key.own = none := by
  cases other with
  | ext_rot =>
    unfold Key.further
    dsimp only
    split
    · cases key <;> rfl
    · rfl
  | _ => cases key <;> rfl

/-- Another branch does not set the key's own field, except for the one of `output` and `ip`. -/
theorem set_own {key other : Key} (differ : key ≠ other) (str : Word) (s : State) :
    (other.set str s).get key.own = s.get key.own ∨
      (other.set str s).get key.own = .num PATH_FILE ∧ key.ownNumber str = PATH_NET ∨
      (other.set str s).get key.own = .num PATH_NET ∧ key.ownNumber str = PATH_FILE := by
  by_cases same : key.own = other.own
  · obtain rfl | ⟨rfl, rfl⟩ | ⟨rfl, rfl⟩ := own_inj same
    · exact absurd rfl differ
    · exact .inr (.inr ⟨rfl, rfl⟩)
    · exact .inr (.inl ⟨rfl, rfl⟩)
  · refine .inl ?_
    rw [set_assigns, List.lookup_cons, beq_false_of_ne same, further_own]
    rfl

/-! ## The line -/

theorem infix_split {α : Type} {word a b : List α} {sep : α} (plain : sep ∉ word) :
    word <:+: a ++ sep :: b ↔ word <:+: a ∨ word <:+: b := by
  rw [List.infix_append_iff, List.infix_cons_iff]
  have empty {part : List α} (inside : ∀ x ∈ part, x ∈ word) (starts : part <+: sep :: b) : part = [] := by
    cases part with
    | nil => rfl
    | cons x part =>
      obtain ⟨rfl, -⟩ := List.cons_prefix_cons.mp starts
      exact absurd (inside x (List.mem_cons_self ..)) plain
  constructor
  · rintro (left | (starts | right) | ⟨l, r, rfl, ends, starts⟩)
    · exact .inl left
    · rw [empty (fun _ => id) starts]
      exact .inl (List.nil_infix)
    · exact .inr right
    · rw [empty (fun _ => List.mem_append_right l) starts, List.append_nil]
      exact .inl ends.isInfix
  · rintro (left | right)
    · exact .inl left
    · exact .inr (.inl (.inr right))

/-- The first that a property holds of is a given one when it holds of none before that. -/
theorem find_eq_iff {α : Type} [DecidableEq α] {l : List α} {x : α} {p : α → Bool} (mem : x ∈ l) (holds : p x = true) :
    l.find? p = some x ↔ ∀ y ∈ l.takeWhile (· ≠ x), p y = false := by
  induction l with
  | nil => simp at mem
  | cons y l ih =>
    by_cases here : y = x
    · subst here
      simp [holds]
    · have later : x ∈ l := (List.mem_cons.mp mem).resolve_left (Ne.symm here)
      cases first : p y with
      | true => simp [first, here]
      | false => simp [first, here, ih later]

theorem key_words : ∀ key ∈ keys, '=' ∉ key.word.toList ∧ ¬ "end".toList <:+: key.word.toList ∧
    ∀ other ∈ keys.takeWhile (· ≠ key), ¬ other.word.toList <:+: key.word.toList := by
  decide

theorem strstr_line {key : Key} {word : String} (str : Word) (plain : '=' ∉ word.toList)
    (absent : ¬ word.toList <:+: key.word.toList) : strstr (line key str) word ↔ word.toList <:+: str := by
  unfold strstr line
  rw [decide_eq_true_iff, infix_split plain]
  exact or_iff_right absent

theorem valueText_line (key : Key) {str : Word} (some_char : str ≠ []) : valueText (line key str) = some str := by
  have behind : (line key str).dropWhile (· ≠ '=') = '=' :: str := by
    have plain := (key_words key (mem_keys key)).1
    unfold line
    rw [List.dropWhile_append_of_pos]
    · simp
    · intro c mem
      simp only [ne_eq, decide_not, Bool.not_eq_true', decide_eq_false_iff_not]
      rintro rfl
      exact plain mem
  unfold valueText
  rw [behind]
  cases str with
  | nil => exact absurd rfl some_char
  | cons c str => rfl

/-- The branch that a line takes when it is not the end. -/
theorem find_line (key : Key) (str : Word) : ∃ first, keys.find? (fun other => strstr (line key str) other.word) = some first ∧
    (first = key ↔ ∀ other ∈ keys.takeWhile (· ≠ key), ¬ other.word.toList <:+: str) := by
  have itself : strstr (line key str) key.word = true := decide_eq_true (List.infix_append' [] _ _)
  have present : (keys.find? fun other => strstr (line key str) other.word).isSome :=
    List.find?_isSome.mpr ⟨key, mem_keys key, itself⟩
  obtain ⟨first, found⟩ := Option.isSome_iff_exists.mp present
  refine ⟨first, found, ?_⟩
  have exactly := @find_eq_iff _ _ keys key (fun other => strstr (line key str) other.word) (mem_keys key) itself
  rw [found, Option.some.injEq] at exactly
  rw [exactly]
  refine forall₂_congr fun other before => ?_
  have plain := (key_words other (mem_keys other)).1
  have absent := (key_words key (mem_keys key)).2.2 other before
  rw [← Bool.not_eq_true, strstr_line str plain absent]

theorem parseOptions_line {key first : Key} {str : Word} (some_char : str ≠ []) (open_ : ¬ "end".toList <:+: str)
    (found : keys.find? (fun other => strstr (line key str) other.word) = some first) (s : State) :
    parseOptions (line key str) s = (0, first.set str s) := by
  have absent := (key_words key (mem_keys key)).2.1
  have goes : ¬ strstr (line key str) "end" := by rwa [strstr_line str (by decide) absent]
  unfold parseOptions
  rw [if_neg goes, found, valueText_line key some_char]

/-- A number other than the one the key's own field is to get. -/
def Key.otherNumber (str : Word) (key : Key) : Int := if key.ownNumber str = 0 then 1 else 0

theorem otherNumber_ne (str : Word) (key : Key) : key.otherNumber str ≠ key.ownNumber str := by
  unfold Key.otherNumber
  split <;> omega

/-- Which lines set their option and nothing else. -/
theorem parseOptions_assigns_iff (key : Key) {str : Word} (some_char : str ≠ []) :
    (∀ s, Assigns key str s (parseOptions (line key str) s).2) ↔ ∀ word ∈ key.earlier, ¬ word.toList <:+: str := by
  obtain ⟨first, found, exactly⟩ := find_line key str
  have absent := (key_words key (mem_keys key)).2.1
  simp only [Key.earlier, List.forall_mem_cons, List.forall_mem_map]
  rw [← exactly]
  constructor
  · intro assigns
    have own := (assigns (State.all (key.otherNumber str))).own
    have differs := otherNumber_ne str key
    have open_ : ¬ "end".toList <:+: str := by
      intro inside
      have ended : parseOptions (line key str) (State.all (key.otherNumber str)) = (100, State.all (key.otherNumber str)) :=
        if_pos ((strstr_line str (by decide) absent).mpr inside)
      rw [ended, all_own, Content.num.injEq] at own
      exact differs own
    refine ⟨open_, ?_⟩
    by_contra other
    rw [parseOptions_line some_char open_ found] at own
    obtain kept | ⟨file, net⟩ | ⟨net, file⟩ := set_own (Ne.symm other) str (State.all (key.otherNumber str))
    · rw [own, all_own, Content.num.injEq] at kept
      exact differs kept.symm
    · rw [own, net] at file
      exact absurd file (by decide)
    · rw [own, file] at net
      exact absurd net (by decide)
  · rintro ⟨open_, rfl⟩ s
    rw [parseOptions_line some_char open_ found]
    exact set_assigns first str s

/-- A name without a word in it. -/
theorem parseOptions_assigns_stream : Assigns .input "/root/a.264".toList (.all 0)
    (parseOptions (line .input "/root/a.264".toList) (.all 0)).2 :=
  (parseOptions_assigns_iff .input (by decide)).mpr (by decide) (.all 0)

/-- A name with the word that ends an instance's lines: nothing is set. -/
theorem parseOptions_render : (parseOptions (line .input "render.264".toList) (.all 0)).1 = 100 ∧
    ¬ ∀ s, Assigns .input "render.264".toList s (parseOptions (line .input "render.264".toList) s).2 := by
  have ended (s : State) : parseOptions (line .input "render.264".toList) s = (100, s) := if_pos (by decide)
  refine ⟨congrArg Prod.fst (ended _), fun assigns => ?_⟩
  have own := (assigns (.all 0)).own
  rw [ended] at own
  exact absurd own (by decide)

end ImxTest.Vpu.Options
