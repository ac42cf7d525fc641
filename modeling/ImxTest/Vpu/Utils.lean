import ImxTest.Lib.Runs

/-! Reading and writing of mxc_vpu_test/utils.c: a file, or datagrams with a
header of their own. -/
namespace ImxTest.Vpu

def DEFAULT_PKT_SIZE : Nat := 0x28000

/-- `sizeof(struct nethdr)` -/
def hdrlen : Nat := 12

def EAGAIN : Int := 11

/-- A `struct nethdr` and the bytes behind it. -/
structure Packet where
  seqno : Int32
  iframe : Int32
  len : Int
  data : List UInt8
deriving DecidableEq

/-- `struct cmd_line`, as far as the network buffer. -/
structure CmdLine where
  nbuf : Packet := { seqno := 0, iframe := 0, len := 0, data := [] }
  nlen : Int := 0
  noffset : Nat := 0
  seqNo : Int32 := 0
  iframe : Int32 := 0
  /-- Each data packet that came, and whether its bytes were taken. The code
  keeps no such list. -/
  log : List (Packet × Bool) := []

/-- `udp_send` up to its `sendto`, or nothing where it does not get there. What
is on the stack is the flag of the last packet. -/
def udpSend (cmd : CmdLine) (stack : Int32) (buf : List UInt8) : Option (Packet × CmdLine) :=
  if buf.length + hdrlen > DEFAULT_PKT_SIZE then none
  else if buf.length = 0 then
    let net_h : Packet := { seqno := -1, iframe := stack, len := 0, data := [] }
    some (net_h, { cmd with nbuf := net_h })
  else
    let net_h : Packet :=
      { seqno := cmd.seqNo, iframe := cmd.iframe, len := buf.length, data := buf }
    some (net_h, { cmd with nbuf := net_h, seqNo := cmd.seqNo + 1 })

/-- What `select` and `recvfrom` answer. -/
inductive Event where
  | timeout (quitflag : Bool)
  | datagram (p : Packet)
  | error

/-- A datagram is cut at the size of the buffer it is received in. -/
def recvfrom (p : Packet) : Packet := { p with data := p.data.take (DEFAULT_PKT_SIZE - hdrlen) }

structure Received where
  ret : Int
  buf : List UInt8
  cmd : CmdLine
  rest : List Event

/-- Whether a packet's bytes are taken, and the number expected behind it. -/
def checkSeqno (seqNo : Int32) (net_h : Packet) : Bool × Int32 :=
  if seqNo ≠ net_h.seqno then
    if net_h.iframe = 1 then (true, net_h.seqno + 1) else (false, seqNo + 1)
  else (true, seqNo + 1)

/-- The loop of `udp_recv`; nothing, where it waits for more than has come. -/
def recvLoop (complete : Bool) (n : Nat) (cmd : CmdLine) (buf : List UInt8) (nleft ntotal : Nat) :
    List Event → Option Received
  | [] => if nleft = 0 then some ⟨n, buf, cmd, []⟩ else none
  | event :: rest =>
    if nleft = 0 then some ⟨n, buf, cmd, event :: rest⟩
    else match event with
      | .error => some ⟨-1, buf, cmd, rest⟩
      | .timeout quitflag =>
        if quitflag then some ⟨ntotal, buf, cmd, rest⟩
        else if complete then recvLoop complete n cmd buf nleft ntotal rest
        else if ntotal = 0 then some ⟨-EAGAIN, buf, cmd, rest⟩
        else some ⟨ntotal, buf, cmd, rest⟩
      | .datagram p =>
        let net_h := recvfrom p
        let cmd := { cmd with nbuf := net_h }
        if net_h.len = 0 then some ⟨n - nleft, buf, { cmd with nlen := -1 }, rest⟩
        else
          let nactual := net_h.data.length
          let (taken, seqNo) := checkSeqno cmd.seqNo net_h
          let cmd := { cmd with seqNo, log := cmd.log ++ [(net_h, taken)] }
          if !taken then recvLoop complete n cmd buf nleft ntotal rest
          else
            let (nremain, cmd) :=
              if nactual > nleft then
                (nleft, { cmd with nlen := nactual - nleft, noffset := nleft + hdrlen })
              else (nactual, cmd)
            recvLoop complete n cmd (buf ++ net_h.data.take nremain) (nleft - nremain)
              (ntotal + nremain) rest

/-- `n` bytes of `cmd->nbuf + cmd->noffset`. -/
def CmdLine.at (cmd : CmdLine) (n : Nat) : List UInt8 :=
  (cmd.nbuf.data.drop (cmd.noffset - hdrlen)).take n

def udpRecv (complete : Bool) (cmd : CmdLine) (n : Nat) (events : List Event) : Option Received :=
  if cmd.nlen ≠ 0 then
    if cmd.nlen = -1 then some ⟨0, [], cmd, events⟩
    else if cmd.nlen > n then
      some ⟨n, cmd.at n, { cmd with nlen := cmd.nlen - n, noffset := cmd.noffset + n }, events⟩
    else
      let nlen := cmd.nlen.toNat
      recvLoop complete n { cmd with nlen := 0 } (cmd.at nlen) (n - nlen) nlen events
  else recvLoop complete n cmd [] n 0 events

/-- `freadn` where the file has these bytes for one `read` after the other,
nothing standing for an error. -/
def freadn (n : Nat) (buf : List UInt8) : List (Option (List UInt8)) → Option (Int × List UInt8)
  | [] => if n ≤ buf.length then some (buf.length, buf) else none
  | answer :: rest =>
    if n ≤ buf.length then some (buf.length, buf)
    else match answer with
      | none => some (-1, buf)
      | some [] => some (buf.length, buf)
      | some (b :: bs) => freadn n (buf ++ (b :: bs).take (n - buf.length)) rest

/-- `fwriten` where `write` takes this many bytes at most, call after call, and
fails from then on. What was written comes with the result. -/
def fwriten (n : Nat) (ptr written : List UInt8) : List Nat → Int × List UInt8
  | [] => if ptr = [] then (n, written) else (-1, written)
  | nwrite :: rest =>
    if ptr = [] then (n, written)
    else if nwrite = 0 then (-1, written)
    else fwriten n (ptr.drop nwrite) (written ++ ptr.take nwrite) rest

end ImxTest.Vpu
