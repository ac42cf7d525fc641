import ImxTest.Nodes.Cmdline
import ImxTest.Lib.Prog
import ImxTest.Lib.Runs

/-! The table of nodes in mxc_v4l2_vpu_enc.c, from the command line on: how `main`
initialises and connects its nodes, and what is connected while they run. -/
namespace ImxTest.Nodes
open Pitcher Lib

/-- What the table is being looked into for. -/
inductive Place where
  | init | connect | alloc | scan | poll
deriving DecidableEq

structure Table where
  nodes : Nat → Option TestNode
  place : Place := .init
  /-- Each index that `nodes` was accessed at for the source of a node. The code
  keeps no such list. -/
  log : List (Place × Int) := []
  /-- What the calls that leave this file will answer, one after the other. -/
  answers : Nat → Int := fun _ => 0
  asked : Nat := 0

abbrev M := Prog Table

/-- A call that leaves this file. -/
def ask : M Int := do
  let table ← Prog.get
  Prog.modify fun table => { table with asked := table.asked + 1 }
  return table.answers table.asked

/-- `nodes[source]`. Nothing is known of the run behind an access out of range. -/
def access (source : Int) : M (Option TestNode) := do
  let table ← Prog.get
  Prog.modify fun table => { table with log := table.log ++ [(table.place, source)] }
  if 0 ≤ source ∧ source < MAX_NODE_COUNT then return table.nodes source.toNat
  else Prog.stop

/-- The node that a pointer from slot `key` points to. -/
def deref (key : Nat) : M TestNode := do
  let table ← Prog.get
  match table.nodes key with
  | some node => return node
  | none => Prog.stop

def setNode (key : Nat) (node : TestNode) : M Unit :=
  Prog.modify fun table => { table with nodes := Function.update table.nodes key (some node) }

/-! ## Channels -/

/-- `pitcher_register_chn` for a node with one channel, which `pitcher_new_unit`
refuses with `-RET_E_INVAL` before `desc` is filled in. -/
def registerChn (key : Nat) : M Int := do
  let node ← deref key
  let ret ← (if node.desc then ask else pure (-2))
  setNode key { node with chnno := ret }
  return ret

/-- The channel of a node that has to wait for its source's, whose number
`getSource` finds. -/
def waitChnno (lookup : Int → M (Option TestNode)) (orphan : Int → M Int) (getSource : Nat → M Int)
    (key : Nat) : M Int := do
  let node ← deref key
  if 0 ≤ node.chnno then return node.chnno
  else
    match ← lookup node.source with
    | none => orphan node.chnno
    | some _ =>
      let schn ← getSource node.source.toNat
      if schn < 0 then return node.chnno
      else registerChn key

/-- `get_test_node` -/
def getTestNode (key : Int) : M (Option TestNode) :=
  if 0 ≤ key ∧ key < MAX_NODE_COUNT then access key
  else return none

/-- Without a source node these two follow a null pointer. -/
def getConvertChnno := waitChnno access fun _ => Prog.stop

def getOfileChnno := waitChnno access fun _ => Prog.stop

def getDmanodeChnno := waitChnno getTestNode fun chnno => return chnno

/-- `get_source_chnno` of a node, through at most so many nodes. Where that is not
enough they are their own source, and the calls never end. -/
def getSourceChnno : Nat → Nat → M Int
  | 0, _ => Prog.stop
  | fuel + 1, key => do
    let node ← deref key
    match node.type with
    | .ofile => Prog.stop
    | .convert => getConvertChnno (getSourceChnno fuel) key
    | .dma => getDmanodeChnno (getSourceChnno fuel) key
    | _ => return node.chnno

def sourceChnno : Nat → M Int := getSourceChnno (MAX_NODE_COUNT + 1)

/-- `get_sink_chnno` of a node. -/
def getSinkChnno (key : Nat) : M Int := do
  let node ← deref key
  match node.type with
  | .encoder | .decoder => return node.output
  | .ofile => getOfileChnno sourceChnno key
  | .convert => getConvertChnno sourceChnno key
  | .dma => getDmanodeChnno sourceChnno key
  | _ => Prog.stop

def hasSource (node : TestNode) : Bool := node.type != .ofile

def hasSink (node : TestNode) : Bool :=
  node.type != .ifile && node.type != .camera && node.type != .parser

/-! ## Initialisation, with `false` for an error -/

/-- A node that opens what it reads from and registers. -/
def initReader (key : Nat) (node : TestNode) : M Bool := do
  if (← ask) < 0 then return false
  else
    let ret ← ask
    if ret < 0 then return false
    else
      setNode key { node with chnno := ret, desc := true }
      return true

def initCameraNode (key : Nat) (node : TestNode) : M Bool :=
  if node.devnode = none then return false
  else initReader key node

def initIfileNode (key : Nat) (node : TestNode) : M Bool :=
  if node.filename = none then return false
  else if node.pixelformat = .jpeg then initReader key { node with width := 0, height := 0 }
  else initReader key node

/-- The size is that of the stream, where the parser finds one. -/
def initParserNode (key : Nat) (node : TestNode) : M Bool := do
  if node.filename = none then return false
  else
    let width ← ask
    let height ← ask
    if width ≠ 0 then
      initReader key { node with width := toUInt32 width, height := toUInt32 height }
    else initReader key node

def initEncoderNode (key : Nat) (node : TestNode) : M Bool := do
  if (← ask) < 0 then return false
  else
    let capture ← ask
    if capture < 0 then return false
    else
      let output ← ask
      if output < 0 then
        setNode key { node with chnno := -1, desc := true }
        return false
      else
        setNode key { node with chnno := capture, output, desc := true }
        return 0 ≤ (← ask)

def initDecoderNode (key : Nat) (node : TestNode) : M Bool := do
  if (← ask) < 0 then return false
  else
    let output ← ask
    if output < 0 then return false
    else
      setNode key { node with output, desc := true }
      return 0 ≤ (← ask)

def initOfileNode (key : Nat) (node : TestNode) : M Bool := do
  if node.filename = none then return false
  else if (← ask) < 0 then return false
  else
    setNode key { node with desc := true }
    return true

def initConvertNode (key : Nat) (node : TestNode) : M Bool := do
  let src ← (if node.width = 0 ∨ node.height = 0 then access node.source else pure none)
  if src.any fun src => src.type == .ifile then return false
  else
    setNode key { node with desc := true }
    return true

def initDmanode (key : Nat) (node : TestNode) : M Bool := do
  setNode key { node with desc := true }
  return true

def initNode (key : Nat) : M Bool := do
  let node ← deref key
  match node.type with
  | .ifile => initIfileNode key node
  | .camera => initCameraNode key node
  | .encoder => initEncoderNode key node
  | .decoder => initDecoderNode key node
  | .ofile => initOfileNode key node
  | .convert => initConvertNode key node
  | .parser => initParserNode key node
  | .dma => initDmanode key node

/-! ## Connections -/

/-- `ALIGN(size, 8)` -/
def align8 (size : UInt32) : UInt32 := .ofNat (align size.toNat 8)

/-- `set_source` of a node, as far as it is kept: `false`, where it is an error. -/
def setSource (key : Nat) (src : TestNode) : M Bool := do
  let node ← deref key
  match node.type with
  | .decoder => return src.pixelformat.compressed && src.pixelformat != .none
  | .ofile | .dma =>
    setNode key { node with
      width := src.width, height := src.height, pixelformat := src.pixelformat }
    return true
  | .convert =>
    setNode key { node with width := align8 src.width, height := align8 src.height }
    return true
  | _ => return true

/-- `connect_node`, from slot `src` to slot `dst`, with `false` for an error. -/
def connectNode (src dst : Nat) : M Bool := do
  let srcNode ← deref src
  let dstNode ← deref dst
  if !hasSource srcNode || !hasSink dstNode then return false
  else
    let schn ← sourceChnno src
    if schn < 0 then return true
    else if !(← setSource dst (← deref src)) then return false
    else
      let sink ← getSinkChnno dst
      let ready ← (if sink < 0 then initNode dst else pure true)
      if !ready then return false
      else if (← getSinkChnno dst) < 0 then return false
      else return 0 ≤ (← ask)

/-- A turn of the loop of `scan_and_connect_sink`. -/
def scanSink (src dst : Nat) : M Unit := do
  match (← Prog.get).nodes dst with
  | none => return ()
  | some node =>
    let found ← access node.source
    if found = none ∨ node.source ≠ src then return ()
    else
      let schn ← sourceChnno src
      if schn < 0 then return ()
      else
        let _ ← getSinkChnno dst
        -- `pitcher_get_source(dchn) == schn`
        if (← ask) = schn then return ()
        else
          let _ ← connectNode src dst
          return ()

def keys : List Nat := List.range MAX_NODE_COUNT

def scanAndConnectSink (src : Nat) : M Unit := keys.forM (scanSink src)

/-- A turn of the first loop of `check_ctrl_ready`. -/
def ctrlSink (dst : Nat) : M Unit := do
  match (← Prog.get).nodes dst with
  | none => return ()
  | some node =>
    match ← getTestNode node.source with
    | none => return ()
    | some src =>
      if !hasSource src then Prog.stop
      else
        let schn ← sourceChnno node.source.toNat
        if schn < 0 then return ()
        else
          let _ ← getSinkChnno dst
          if (← ask) = schn then return ()
          else
            let _ ← connectNode node.source.toNat dst
            return ()

/-- Whether `pitcher_get_status` gives `PITCHER_STATE_STOPPED`, where there is a
channel. -/
def isStopped (chnno : Int) : M Bool := do
  if 0 ≤ chnno then return (← ask) = 0
  else return true

def checkNodeIsStopped (key : Nat) : M Bool := do
  let node ← deref key
  let sink ← (if hasSink node then getSinkChnno key else pure (-1))
  if !(← isStopped sink) then return false
  else
    let source ← (if hasSource node then sourceChnno key else pure (-1))
    isStopped source

/-- The second loop of `check_ctrl_ready`. -/
def pollNodes : List Nat → M Unit
  | [] => return ()
  | key :: rest => do
    match (← Prog.get).nodes key with
    | none => pollNodes rest
    | some _ => if ← checkNodeIsStopped key then pollNodes rest else return ()

def setPlace (place : Place) : M Unit := Prog.modify fun table => { table with place }

def checkCtrlReady : M Unit := do
  setPlace .connect
  keys.forM ctrlSink
  setPlace .poll
  pollNodes keys

/-- `alloc_convert_buffer`, as far as the table goes. -/
def allocConvertBuffer (key : Nat) : M Unit := do
  setPlace .alloc
  let node ← deref key
  match ← access node.source with
  | none => return ()
  | some src =>
    if node.width ≠ src.width ∨ node.height ≠ src.height then
      let _ ← setSource key src
      return ()
    else return ()

/-- What a decoder learns of its pictures when its capture is started. -/
structure Picture where
  width : UInt32
  height : UInt32
  pixelformat : PixelFormat

/-- `handle_decoder_resolution_change`, where there is one. -/
def handleDecoderResolutionChange (key : Nat) (picture : Picture) : M Unit := do
  setPlace .scan
  let node ← deref key
  if node.chnno < 0 then
    let ret ← ask
    if ret < 0 then return ()
    else
      setNode key { node with chnno := ret }
      scanAndConnectSink key
      syncInfo
  else syncInfo
where
  /-- The capture is started if it is stopped, and the node takes over its picture. -/
  syncInfo : M Unit := do
    if (← ask) = 0 then
      let node ← deref key
      setNode key { node with
        width := picture.width, height := picture.height, pixelformat := picture.pixelformat }
    else return ()

/-! ## main -/

/-- Where `main` is: in a turn of one of its loops, in `pitcher_run`, on its way out,
or beyond what is known. -/
inductive Stage where
  | init (i : Nat)
  | connect (i : Nat)
  | running
  | exit
  | gone
deriving DecidableEq

structure Main where
  table : Table
  stage : Stage

/-- A turn of the first loop of `main`: whether it goes on. -/
def initTurn (i : Nat) : M Bool := do
  setPlace .init
  match (← Prog.get).nodes i with
  | none => return true
  | some node =>
    match ← getTestNode node.source with
    | some _ => return true
    | none => initNode i

/-- A turn of the second loop. -/
def connectTurn (i : Nat) : M Bool := do
  setPlace .connect
  match (← Prog.get).nodes i with
  | none => return true
  | some node =>
    match ← getTestNode node.source with
    | none => return true
    | some _ => connectNode node.source.toNat i

inductive Event where
  | turn
  | ctrl
  | resolution (key : Nat) (picture : Picture)
  | alloc (key : Nat)

/-- What happens next, and the answers it gets. -/
structure Label where
  event : Event
  answers : Nat → Int

/-- Where `main` is behind a program. -/
def Main.after (main : Main) (answers : Nat → Int) (program : M Stage) : Main :=
  match program { main.table with answers, asked := 0 } with
  | (some stage, table) => { table, stage }
  | (none, table) => { table, stage := .gone }

def Main.isDecoder (main : Main) (key : Nat) : Bool :=
  (main.table.nodes key).any fun node => node.type == .decoder && 0 ≤ node.output

def Main.isConvert (main : Main) (key : Nat) : Bool :=
  (main.table.nodes key).any fun node => node.type == .convert && 0 ≤ node.chnno

def step (main : Main) (l : Label) : Option Main :=
  match main.stage, l.event with
  | .init i, .turn =>
    if i < MAX_NODE_COUNT then
      main.after l.answers do return if ← initTurn i then .init (i + 1) else .exit
    else some { main with stage := .connect 0 }
  | .connect i, .turn =>
    if i < MAX_NODE_COUNT then
      main.after l.answers do return if ← connectTurn i then .connect (i + 1) else .exit
    -- `pitcher_start`
    else some { main with stage := if l.answers 0 < 0 then .exit else .running }
  | .running, .ctrl => main.after l.answers do checkCtrlReady; return .running
  | .running, .resolution key picture =>
    if key < MAX_NODE_COUNT ∧ main.isDecoder key then
      main.after l.answers do handleDecoderResolutionChange key picture; return .running
    else none
  | .running, .alloc key =>
    if key < MAX_NODE_COUNT ∧ main.isConvert key then
      main.after l.answers do allocConvertBuffer key; return .running
    else none
  | _, _ => none

def Step (main : Main) (l : Label) (next : Main) : Prop := step main l = some next

/-- `main` behind `parse_subcmds`, or on its way out where it shows the help or the
words are refused. -/
def start (argv : List Word) : Main :=
  if argv.length < 2 ∨ strcaseEq "help".toList (argv.getD 1 []) then
    { table := { nodes := fun _ => none }, stage := .exit }
  else
    match parseSubcmds argv with
    | (.OK, cmd) => { table := { nodes := cmd.nodes }, stage := .init 0 }
    | (_, cmd) => { table := { nodes := cmd.nodes }, stage := .exit }

end ImxTest.Nodes
