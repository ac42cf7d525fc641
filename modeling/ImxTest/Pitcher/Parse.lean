import ImxTest.Lib.Cut
import ImxTest.Pitcher.Def

/-! The start-code scan of pitcher/parse.c. A parser holds the memory from
`virt` on and the size of the file in it; bytes at and past `size` exist in the
address space but are not the file's. A `check_frame` callback may keep state
between calls and may abort, as an assertion in it does. -/
namespace ImxTest.Pitcher

inductive ParserType where
  | UNKNOWN | CONFIG | FRAME
deriving DecidableEq, Repr

/-- `offset` is an `unsigned int` and `size` an `unsigned long`. -/
structure PitcherFrame where
  idx : Nat
  size : Nat
  offset : Nat
deriving DecidableEq, Repr

structure PitcherParser where
  virt : Nat → UInt8
  size : Nat
  number : Nat := 0
  frameCnt : Nat := 0
  width : Nat := 0
  height : Nat := 0
  queue : List PitcherFrame := []
  /-- The `(offset, size)` arguments of `pitcher_parser_push_new_frame`, before
  they are stored in the narrower fields of a frame. -/
  handed : List (Int × Int) := []

def pitcherParserPush (p : PitcherParser) (frame : PitcherFrame) : PitcherParser :=
  { p with queue := p.queue ++ [frame], frameCnt := p.frameCnt + 1 }

def pitcherParserPushNewFrame (p : PitcherParser) (offset size : Int) (idx : Nat) :
    PitcherParser :=
  pitcherParserPush { p with handed := p.handed ++ [(offset, size)] }
    ⟨idx % 2 ^ 32, (size % 2 ^ 64).toNat, (offset % 2 ^ 32).toNat⟩

/-- The numbers of `struct pitcher_parser_scode`. -/
structure Scode where
  scode : Nat
  mask : Nat
  num : Nat
  extraNum : Nat := 0
  extraCode : Nat := 0
  extraMask : Nat := 0
  forceExtraOnFirst : Bool := false
deriving DecidableEq, Repr

/-- A callback is given the memory, the position of `current` in it, the
`uint32_t` size and its state. -/
abbrev CheckFrame (ε σ : Type) := (Nat → UInt8) → Nat → Nat → σ → Except ε (ParserType × σ)

/-- The size argument of a callback: what is left of the file, in 32 bits. -/
def leftSize (size pos : Nat) : Nat := (size - pos) % 2 ^ 32

namespace Scan
variable {ε σ : Type}

/-- The local variables of `pitcher_parse_startcode`; `offset` is written before
each of its uses and is not one of them. -/
structure Locals (σ : Type) where
  sc : Scode
  state : Nat := 0
  start : Int := -1
  stop : Int := -1
  type : ParserType := .FRAME
  index : Nat := 0
  frameCount : Int := 0
  priv : σ
  parser : PitcherParser

/-- The first test of the loop body: too few bytes read for a code to end here. -/
def tooEarly (sc : Scode) (i : Nat) : Bool :=
  if sc.forceExtraOnFirst && decide (i < sc.extraNum - 1) then true else decide (i < sc.num - 1)

/-- The second test: the shift register holds no code. -/
def noCode (sc : Scode) (state : Nat) : Bool :=
  if sc.forceExtraOnFirst then state &&& sc.extraMask != sc.extraCode
  else state &&& sc.mask != sc.scode

def codeOffset (sc : Scode) (state i : Nat) : Int :=
  if sc.extraNum ≤ i + 1 ∧ state &&& sc.extraMask = sc.extraCode then i + 1 - sc.extraNum
  else i + 1 - sc.num

/-- What follows an accepted code in the loop body, up to the frame limit test. -/
def accept (v : Locals σ) (i : Nat) : Locals σ :=
  let v := { v with sc := { v.sc with forceExtraOnFirst := false } }
  let offset := codeOffset v.sc v.state i
  let v := if v.start < 0 then { v with start := offset } else v
  let v := if 0 < v.frameCount ∧ v.stop < 0 then { v with stop := offset } else v
  let v := if v.type = .FRAME then { v with frameCount := v.frameCount + 1 } else v
  if 1 < v.frameCount then
    { v with
      frameCount := v.frameCount - 1
      parser := pitcherParserPushNewFrame v.parser v.start (v.stop - v.start) v.index
      index := v.index + 1
      start := v.stop
      stop := -1 }
  else v

def limitReached (p : PitcherParser) : Bool :=
  decide (0 < p.number) && decide (p.number ≤ p.frameCnt)

/-- The loop body; `true` is the jump to `end`. -/
def body (check : Option (CheckFrame ε σ)) (i : Nat) (v : Locals σ) :
    Except ε (Locals σ × Bool) :=
  let v := { v with state := (v.state <<< 8 ||| (v.parser.virt i).toNat) % 2 ^ 32 }
  if tooEarly v.sc i then .ok (v, false)
  else if noCode v.sc v.state then .ok (v, false)
  else match check with
    | none => .ok (accept v i, limitReached (accept v i).parser)
    | some f => do
      let (type, priv) ← f v.parser.virt (i + 1) (leftSize v.parser.size (i + 1)) v.priv
      let v := { v with type, priv }
      if type = .UNKNOWN then .ok (v, false)
      else .ok (accept v i, limitReached (accept v i).parser)

/-- `todo` iterations from index `i` on. -/
def loop (check : Option (CheckFrame ε σ)) : (todo i : Nat) → Locals σ →
    Except ε (Locals σ × Bool)
  | 0, _, v => .ok (v, false)
  | todo + 1, i, v => do
    let (v, done) ← body check i v
    if done then .ok (v, true) else loop check todo (i + 1) v

/-- The rest of the file, when the loop ran to its end. -/
def tail (v : Locals σ) : Locals σ :=
  let v := { v with stop := v.parser.size }
  if 0 ≤ v.start ∧ v.start < v.stop then
    { v with
      frameCount := v.frameCount - 1
      parser := pitcherParserPushNewFrame v.parser v.start (v.stop - v.start) v.index
      index := v.index + 1
      start := v.stop }
  else v

/-- The local copy of the descriptor: without an extra code, the plain code
stands in for it. -/
def normalize (psc : Scode) : Scode :=
  if psc.num < psc.extraNum then psc
  else { psc with
    extraNum := psc.num, extraCode := psc.scode, extraMask := psc.mask
    forceExtraOnFirst := false }

end Scan

/-- `priv` is the state of the callback when the scan starts, and the result
holds its state when the scan ends. Allocations succeed. -/
def pitcherParseStartcode {ε σ : Type} (parser : PitcherParser) (psc : Scode)
    (check : Option (CheckFrame ε σ)) (priv : σ) : Except ε (Ret × PitcherParser × σ) :=
  if psc.num = 0 then .ok (.E_INVAL, parser, priv)
  else if psc.num < psc.extraNum ∧ psc.extraCode &&& psc.mask ≠ psc.scode then
    .ok (.E_INVAL, parser, priv)
  else do
    let (v, done) ← Scan.loop check parser.size 0 { sc := Scan.normalize psc, priv, parser }
    let v := if done then v else Scan.tail v
    .ok (.OK, v.parser, v.priv)

/-! The descriptors the parsers pass, without their callbacks. -/

def h263Scode : Scode := { scode := 0x000080, mask := 0xfffffc, num := 3 }
def spkScode : Scode := { scode := 0x000080, mask := 0xfffff8, num := 3 }
def jpegScode : Scode := { scode := 0xFFD8, mask := 0xFFFF, num := 2 }
def mpeg2Scode : Scode := { scode := 0x000001, mask := 0xffffff, num := 3 }
def mpeg4Scode : Scode := { scode := 0x000001, mask := 0xffffff, num := 3 }
def avsScode : Scode := { scode := 0x000001, mask := 0xffffff, num := 3 }
def vc1gScode : Scode := { scode := 0x000001, mask := 0xffffff, num := 3 }
def h264Scode : Scode :=
  { scode := 0x000001, mask := 0xffffff, num := 3
    extraNum := 4, extraCode := 0x00000001, extraMask := 0xffffffff }
def h265Scode : Scode :=
  { scode := 0x000001, mask := 0xffffff, num := 3
    extraNum := 4, extraCode := 0x00000001, extraMask := 0xffffffff }

def scodes : List Scode :=
  [h263Scode, spkScode, jpegScode, mpeg2Scode, mpeg4Scode, avsScode, vc1gScode, h264Scode, h265Scode]

end ImxTest.Pitcher
