import ImxTest.Pitcher.PixFmt

/-! The command line of mxc_v4l2_vpu_enc.c: subcommands with options, each of
them a node of the table. The subcommands of libraries that may be missing when
it is built are left out. -/
namespace ImxTest.Nodes
open Pitcher

/-- A word of `argv`. -/
abbrev Word := List Char

/-- `!strcasecmp(a, b)` -/
def strcaseEq (a b : Word) : Bool := a.map Char.toLower == b.map Char.toLower

/-! ## Numbers -/

def isspace (c : Char) : Bool := c == ' ' || (9 ≤ c.toNat && c.toNat ≤ 13)

/-- What a digit stands for, whatever the base. -/
def digitValue (c : Char) : Nat :=
  if c.isDigit then c.toNat - '0'.toNat
  else if c.toLower.isAlpha then c.toLower.toNat - 'a'.toNat + 10
  else 36

/-- The number that the digits in front stand for. -/
def digits (base value : Nat) : Word → Nat
  | [] => value
  | c :: rest => if digitValue c < base then digits base (value * base + digitValue c) rest else value

/-- The base that a number shows by how it begins, and its digits. -/
def prefixed : Word → Nat × Word
  | '0' :: x :: c :: rest =>
    if x.toLower = 'x' ∧ digitValue c < 16 then (16, c :: rest) else (8, '0' :: x :: c :: rest)
  | '0' :: rest => (8, '0' :: rest)
  | word => (10, word)

/-- `strtol(word, NULL, 0)` -/
def strtol (word : Word) : Int :=
  let word := word.dropWhile isspace
  let (negative, word) := match word with
    | '-' :: rest => (true, rest)
    | '+' :: rest => (false, rest)
    | word => (false, word)
  let (base, word) := prefixed word
  let value : Int := digits base 0 word
  if negative then max (-2 ^ 63) (-value) else min (2 ^ 63 - 1) value

/-- A `long` stored in an `int`. -/
def toInt (value : Int) : Int := value.bmod (2 ^ 32)

/-- A `long` stored in an `uint32_t`. -/
def toUInt32 (value : Int) : UInt32 := .ofInt value

/-! ## Formats -/

/-- The formats in their order and with the names of `pix_fmt_descriptors`. -/
def formatNames : List (PixelFormat × String) :=
  [(.i420, "i420"), (.nv12, "nv12"), (.nv21, "nv21"), (.nv16, "nv16"), (.yuyv, "yuyv"),
    (.yuv24, "yuv24"), (.i420_10le, "yuv420p10le"), (.nv12_10le, "yuv420sp10le"),
    (.nv12_8l128, "na12"), (.nv12_10be_8l128, "nt12"), (.dtrc, "dtrc"), (.dtrc10, "dtrc10"),
    (.p010, "p010"), (.p012, "p012"), (.p016, "p016"), (.nvx2, "nvx2"), (.rfc, "rfc"),
    (.rfcx, "rfcx"), (.rgb24, "rgb888"), (.rgb565, "rgb565"), (.bgr565, "bgr565"),
    (.rgb555, "rgb555"), (.rgba, "rgba"), (.bgr32, "bgr32"), (.argb, "argb"), (.rgbx, "rgbx"),
    (.bgr24, "bgr"), (.abgr, "abgr"), (.bgr48_12, "bgr48_12"), (.abgr64_12, "abgr64_12"),
    (.gray, "gray"), (.y012, "y012"), (.y16, "y16"), (.y212, "y212"), (.yuv48_12, "yuv48_12"),
    (.h264, "h264"), (.h265, "h265"), (.vp8, "vp8"), (.vp9, "vp9"), (.vp6, "vp6"), (.vc1l, "vc1l"),
    (.vc1g, "vc1g"), (.xvid, "xvid"), (.divx, "divx"), (.mpeg4, "mpeg4"), (.mpeg2, "mpeg2"),
    (.h263, "h263"), (.avs, "avs"), (.spk, "spk"), (.rv30, "rv30"), (.rv40, "rv40"),
    (.jpeg, "jpeg")]

def pitcherGetFormatByName (name : Word) : PixelFormat :=
  if strcaseEq name "yuv420p".toList then .i420
  else match formatNames.find? fun entry => strcaseEq name entry.2.toList with
    | some (format, _) => format
    | none => .none

/-! ## Subcommands and options -/

inductive Subcmd where
  | ifile | camera | encoder | decoder | ofile | convert | parser | dma
deriving DecidableEq, Repr

def Subcmd.name : Subcmd → String
  | .ifile => "ifile"
  | .camera => "camera"
  | .encoder => "encoder"
  | .decoder => "decoder"
  | .ofile => "ofile"
  | .convert => "convert"
  | .parser => "parser"
  | .dma => "dma"

def subcmds : List Subcmd :=
  [.ifile, .camera, .encoder, .decoder, .ofile, .convert, .parser, .dma]

def findSubcmd (name : Word) : Option Subcmd :=
  subcmds.find? fun subcmd => strcaseEq subcmd.name.toList name

/-- `struct mxc_vpu_test_option` -/
structure Opt where
  name : String
  argNum : Nat
deriving DecidableEq, Repr

def Subcmd.option : Subcmd → List Opt
  | .ifile => [⟨"key", 1⟩, ⟨"name", 1⟩, ⟨"fmt", 1⟩, ⟨"size", 2⟩, ⟨"alignment", 1⟩, ⟨"framenum", 1⟩,
      ⟨"loop", 1⟩]
  | .ofile => [⟨"key", 1⟩, ⟨"name", 1⟩, ⟨"source", 1⟩]
  | .camera => [⟨"key", 1⟩, ⟨"device", 1⟩, ⟨"fmt", 1⟩, ⟨"size", 2⟩, ⟨"framerate", 1⟩,
      ⟨"framenum", 1⟩, ⟨"transtype", 1⟩]
  | .encoder => [⟨"key", 1⟩, ⟨"source", 1⟩, ⟨"device", 1⟩, ⟨"size", 2⟩, ⟨"framerate", 1⟩,
      ⟨"profile", 1⟩, ⟨"level", 1⟩, ⟨"gop", 1⟩, ⟨"mode", 1⟩, ⟨"qp", 1⟩, ⟨"qprange", 2⟩,
      ⟨"chroma_qp_offset", 1⟩, ⟨"bitrate", 1⟩, ⟨"peak", 1⟩, ⟨"bframes", 1⟩, ⟨"crop", 4⟩, ⟨"fmt", 1⟩,
      ⟨"roi", 5⟩, ⟨"ipcm", 4⟩, ⟨"force", 1⟩, ⟨"nbr", 2⟩, ⟨"seqhdr", 1⟩, ⟨"cpbsize", 1⟩,
      ⟨"quality", 1⟩]
  | .decoder => [⟨"key", 1⟩, ⟨"source", 1⟩, ⟨"device", 1⟩, ⟨"bs", 1⟩, ⟨"framemode", 1⟩,
      ⟨"disreorder", 1⟩, ⟨"dis_delay", 1⟩, ⟨"fmt", 1⟩]
  | .convert => [⟨"key", 1⟩, ⟨"source", 1⟩, ⟨"fmt", 1⟩]
  | .parser => [⟨"key", 1⟩, ⟨"name", 1⟩, ⟨"fmt", 1⟩, ⟨"size", 2⟩, ⟨"framenum", 1⟩, ⟨"loop", 1⟩,
      ⟨"skip", 1⟩, ⟨"seek", 3⟩, ⟨"show", 0⟩]
  | .dma => [⟨"key", 1⟩, ⟨"source", 1⟩]

def findOption (options : List Opt) (name : Word) : Option Opt :=
  options.find? fun option => strcaseEq option.name.toList name

/-! ## Nodes -/

/-- `struct test_node` and what is kept around it. An encoder and a decoder have
`chnno` in their `capture`, and `output` in their `output`; the others have no
`output`. -/
structure TestNode where
  type : Subcmd
  key : Int := -1
  source : Int := -1
  pixelformat : PixelFormat := .i420
  width : UInt32 := 0
  height : UInt32 := 0
  filename : Option Word := none
  devnode : Option Word := none
  chnno : Int := -1
  output : Int := -1
  /-- whether `desc` has been filled in -/
  desc : Bool := false
deriving DecidableEq

def allocNode : Subcmd → TestNode
  | .ifile => { type := .ifile, pixelformat := .nv12, width := 1920, height := 1080 }
  | .camera => { type := .camera, pixelformat := .nv12, width := 1920, height := 1080 }
  | .encoder => { type := .encoder, pixelformat := .h264, width := 8192, height := 8192 }
  | .decoder => { type := .decoder, pixelformat := .none }
  | .ofile => { type := .ofile }
  | .convert => { type := .convert, pixelformat := .nv12 }
  | .parser => { type := .parser, pixelformat := .h264 }
  | .dma => { type := .dma }

/-- What an option sets in a node, if it is one of `names`. With `strict` a format
without a name is an error. -/
def setOption (names : List String) (strict : Bool) (node : TestNode) (option : Opt)
    (argv : List Word) : Option TestNode :=
  if option.name ∉ names then some node
  else if option.name = "key" then some { node with key := toInt (strtol (argv.getD 0 [])) }
  else if option.name = "source" then some { node with source := toInt (strtol (argv.getD 0 [])) }
  else if option.name = "name" then some { node with filename := some (argv.getD 0 []) }
  else if option.name = "device" then some { node with devnode := some (argv.getD 0 []) }
  else if option.name = "size" then
    some { node with
      width := toUInt32 (strtol (argv.getD 0 []))
      height := toUInt32 (strtol (argv.getD 1 [])) }
  else
    let fmt := pitcherGetFormatByName (argv.getD 0 [])
    if fmt ≠ .none then some { node with pixelformat := fmt }
    else if strict then none
    else some node

def parseIfileOption := setOption ["key", "name", "fmt", "size"] true
def parseCameraOption := setOption ["key", "device", "fmt", "size"] true
def parseEncoderOption := setOption ["key", "source", "device", "size", "fmt"] false
def parseDecoderOption := setOption ["key", "source", "device", "fmt"] true
def parseOfileOption := setOption ["key", "name", "source"] true
def parseConvertOption := setOption ["key", "source", "fmt"] true
def parseParserOption := setOption ["key", "name", "fmt", "size"] true
def parseDmanodeOption := setOption ["key", "source"] true

def Subcmd.parseOption : Subcmd → TestNode → Opt → List Word → Option TestNode
  | .ifile => parseIfileOption
  | .camera => parseCameraOption
  | .encoder => parseEncoderOption
  | .decoder => parseDecoderOption
  | .ofile => parseOfileOption
  | .convert => parseConvertOption
  | .parser => parseParserOption
  | .dma => parseDmanodeOption

/-! ## Parsing -/

/-- An option that was found at word `index`, and the words it was handed. The
code keeps no list of them. -/
structure Use where
  index : Nat
  option : Opt
  args : List Word
deriving DecidableEq

/-- The loop of `parse_args` from word `i` on, where nothing stands for an error. -/
def argsLoop (subcmd : Subcmd) (argv : List Word) (stop i : Nat) (node : TestNode)
    (uses : List Use) : Option TestNode × List Use :=
  if i < stop then
    let word := argv.getD i []
    if word.length < 2 then argsLoop subcmd argv stop (i + 1) node uses
    else if word.getD 0 ' ' ≠ '-' ∧ word.getD 1 ' ' ≠ '-' then
      argsLoop subcmd argv stop (i + 1) node uses
    else match findOption subcmd.option (word.drop 2) with
      | none => argsLoop subcmd argv stop (i + 1) node uses
      | some option =>
        if i + option.argNum ≥ argv.length then (none, uses)
        else
          let uses := uses ++ [⟨i, option, (argv.drop (i + 1)).take option.argNum⟩]
          match subcmd.parseOption node option (argv.drop (i + 1)) with
          | none => (none, uses)
          | some node => argsLoop subcmd argv stop (i + option.argNum + 1) node uses
  else (some node, uses)
termination_by stop - i

def MAX_NODE_COUNT : Nat := 32

def checkKeyIsValid (bitmask : Nat) (key : Int) : Bool :=
  decide (0 ≤ key ∧ key < MAX_NODE_COUNT) && !bitmask.testBit key.toNat

def findIdleKey (bitmask : Nat) : Int :=
  match (List.range MAX_NODE_COUNT).find? fun i : Nat => checkKeyIsValid bitmask i with
  | some i => i
  | none => -1

def setKey (bitmask : Nat) (key : Int) : Nat := bitmask ||| 1 <<< key.toNat

/-- One subcommand: the word it starts at, the word in front of which its options
end, what was found between them and the node this gave. The code keeps no list
of them. -/
structure Segment where
  subcmd : Subcmd
  cmdIndex : Nat
  stop : Nat
  uses : List Use
  node : Option TestNode

/-- What `parse_subcmds` has made so far. -/
structure Cmdline where
  nodes : Nat → Option TestNode := fun _ => none
  bitmask : Nat := 0
  segments : List Segment := []
  starts : List Nat := []

/-- `parse_args`, and where its node goes; nothing, where there is none. -/
def parseArgs (subcmd : Subcmd) (argv : List Word) (cmdIndex stop : Nat) (cmd : Cmdline) :
    Option TestNode × Cmdline :=
  let (parsed, uses) := argsLoop subcmd argv stop (cmdIndex + 1) (allocNode subcmd) []
  let cmd := { cmd with
    segments := cmd.segments ++ [⟨subcmd, cmdIndex, stop, uses, parsed⟩] }
  match parsed with
  | none => (none, cmd)
  | some node =>
    let key := if node.key < 0 then findIdleKey cmd.bitmask else node.key
    if checkKeyIsValid cmd.bitmask key then
      (some { node with key }, { cmd with bitmask := setKey cmd.bitmask key })
    else (none, cmd)

/-- The options of the subcommand that is open are parsed, if there is one, up to
word `index`. -/
def closeSubcmd (argv : List Word) (index : Nat) (cmd : Cmdline) :
    Option (Subcmd × Nat) → Ret × Cmdline
  | none => (.OK, cmd)
  | some (subcmd, cmdIndex) =>
    match parseArgs subcmd argv cmdIndex index cmd with
    | (some node, cmd) =>
      (.OK, { cmd with nodes := Function.update cmd.nodes node.key.toNat (some node) })
    | (none, cmd) => (.E_INVAL, cmd)

/-- The loop of `parse_subcmds` over the words from `index` on, and the call behind it. -/
def subcmdsLoop (argv : List Word) (index : Nat) (subcmd : Option (Subcmd × Nat)) (cmd : Cmdline) :
    List Word → Ret × Cmdline
  | [] => closeSubcmd argv index cmd subcmd
  | word :: rest =>
    match findSubcmd word with
    | none => subcmdsLoop argv (index + 1) subcmd cmd rest
    | some curcmd =>
      match closeSubcmd argv index cmd subcmd with
      | (.OK, cmd) =>
        subcmdsLoop argv (index + 1) (some (curcmd, index))
          { cmd with starts := cmd.starts ++ [index] } rest
      | (ret, cmd) => (ret, cmd)

def parseSubcmds (argv : List Word) : Ret × Cmdline := subcmdsLoop argv 0 none {} argv

end ImxTest.Nodes
