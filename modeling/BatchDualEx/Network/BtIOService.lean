import BatchDualEx.Common.ByteStream
import BatchDualEx.Lib.Serial
import BatchDualEx.Network.Message

/- `BtIOService`: the sends and the receives of two sockets that are connected to each other. TCP
   carries the bytes of either direction in order, in pieces of any size. -/
namespace BatchDualEx

open Bytes Serial

inductive SendOp where
  | SendData (data : List Byte)
  | CloseSend
  deriving DecidableEq

/-- The size is that of the buffer, none that of a `ChannelBuffer` that takes any message. -/
inductive RecvOp where
  | RecvData (size : Option Nat)
  | CloseRecv
  deriving DecidableEq

/-- What has been read of the header, or of the `mSize` bytes after it. -/
inductive Reading where
  | header (got : List Byte)
  | data (mSize : Nat) (got : List Byte)
  deriving DecidableEq

namespace Reading

def taken : Reading → List Byte
  | header got => got
  | data mSize got => encodeU32 mSize ++ got

def missing : Reading → Nat
  | header got => 4 - got.length
  | data mSize got => mSize - got.length

def add (bytes : List Byte) : Reading → Reading
  | header got => header (got ++ bytes)
  | data mSize got => data mSize (got ++ bytes)

end Reading

def loadU32 (bytes : List Byte) : Nat :=
  (bytes.getD 0 0).toNat + 256 * (bytes.getD 1 0).toNat + 65536 * (bytes.getD 2 0).toNat +
    16777216 * (bytes.getD 3 0).toNat

abbrev SendQueue := Queue SendOp (List Byte)
abbrev RecvQueue := Queue RecvOp Reading

namespace BtIOService

def buffers (data : List Byte) : List Byte := encodeU32 data.length ++ data

def sendBegin : SendOp → Option (List Byte)
  | .SendData data => some (buffers data)
  | .CloseSend => none

def receiveBegin : RecvOp → Option Reading
  | .RecvData _ => some (.header [])
  | .CloseRecv => none

def sendOne : SendQueue → SendQueue := Queue.startOne sendBegin

def receiveOne : RecvQueue → RecvQueue := Queue.startOne receiveBegin

end BtIOService

open BtIOService

/-- One direction between two sockets: the send queue of one, the bytes it has written, of which the
    first `readCount` have been read, and the receive queue of the other. `results` are the messages
    with which receives were completed. -/
structure Link where
  sender : SendQueue
  written : List Byte
  readCount : Nat
  receiver : RecvQueue
  results : List (List Byte)

namespace Link

def start : Link := ⟨.empty, [], 0, .empty, []⟩

/-- The handler of a header. Where the buffer does not fit the promise has its exception, and
    nothing removes the operation. -/
def header (l : Link) (i : Nat) (size : Option Nat) (mSize : Nat) : Link :=
  if size = none ∨ size = some mSize then
    { l with receiver := l.receiver.advance i (.data mSize []) }
  else { l with receiver := l.receiver.abandon i }

/-- What happens on its own: the strands run what was posted or dispatched to them, bytes move, and
    the handlers of completed operations run, in any order. -/
inductive Step : Link → Link → Prop
  | sendPost (l : Link) (some : l.sender.posts ≠ []) :
      Step l { l with sender := l.sender.runPost sendOne }
  | sendPop (l : Link) (asked : 0 < l.sender.pops) :
      Step l { l with sender := l.sender.runPop sendOne }
  | write (l : Link) (i : Nat) (op : SendOp) (left : List Byte) (n : Nat)
      (started : l.sender.running[i]? = some (op, left)) (some : 0 < n) (fits : n ≤ left.length) :
      Step l { l with
        sender := l.sender.advance i (left.drop n)
        written := l.written ++ left.take n }
  | wrote (l : Link) (i : Nat) (op : SendOp) (started : l.sender.running[i]? = some (op, [])) :
      Step l { l with sender := l.sender.complete i }
  | recvPost (l : Link) (some : l.receiver.posts ≠ []) :
      Step l { l with receiver := l.receiver.runPost receiveOne }
  | recvPop (l : Link) (asked : 0 < l.receiver.pops) :
      Step l { l with receiver := l.receiver.runPop receiveOne }
  | read (l : Link) (i : Nat) (op : RecvOp) (r : Reading) (n : Nat)
      (started : l.receiver.running[i]? = some (op, r)) (some : 0 < n) (fits : n ≤ r.missing)
      (arrived : l.readCount + n ≤ l.written.length) :
      Step l { l with
        receiver := l.receiver.advance i (r.add ((l.written.drop l.readCount).take n))
        readCount := l.readCount + n }
  | header (l : Link) (i : Nat) (size : Option Nat) (got : List Byte)
      (started : l.receiver.running[i]? = some (.RecvData size, .header got))
      (whole : got.length = 4) : Step l (l.header i size (loadU32 got))
  | received (l : Link) (i : Nat) (op : RecvOp) (mSize : Nat) (got : List Byte)
      (started : l.receiver.running[i]? = some (op, .data mSize got))
      (whole : got.length = mSize) :
      Step l { l with receiver := l.receiver.complete i, results := l.results ++ [got] }

def postSend (l : Link) (op : SendOp) : Link := { l with sender := l.sender.post op }

def postRecv (l : Link) (op : RecvOp) : Link := { l with receiver := l.receiver.post op }

end Link

/-- How far `BtChannel::close` is. It sets `mStopped` first, and waits when both are posted. -/
inductive Closing where
  | opened
  | recvPosted
  | sendPosted
  deriving DecidableEq

/-- Two channels. Channel `s` sends on link `s` and receives on the other. -/
structure Net where
  closing : Bool → Closing
  link : Bool → Link

namespace Net

def start : Net := ⟨fun _ => .opened, fun _ => .start⟩

def setLink (net : Net) (s : Bool) (l : Link) : Net :=
  { net with link := Function.update net.link s l }

def setClosing (net : Net) (s : Bool) (c : Closing) : Net :=
  { net with closing := Function.update net.closing s c }

inductive Internal : Net → Net → Prop
  | link (net : Net) (s : Bool) (l : Link) (step : (net.link s).Step l) :
      Internal net (net.setLink s l)

/-- A channel is used until it is closed. A size from 1 to 2^32 - 1 is posted as it is. -/
inductive Step : Net → Net → Prop
  | internal (net net' : Net) (step : Internal net net') : Step net net'
  | asyncSend (net : Net) (s : Bool) (data : List Byte) (opened : net.closing s = .opened)
      (accepted : BtChannel.asyncSend data = .ok data) :
      Step net (net.setLink s ((net.link s).postSend (.SendData data)))
  | asyncRecv (net : Net) (s : Bool) (size : Option Nat) (opened : net.closing s = .opened)
      (some : size ≠ some 0) :
      Step net (net.setLink (!s) ((net.link (!s)).postRecv (.RecvData size)))
  | closeRecv (net : Net) (s : Bool) (opened : net.closing s = .opened) :
      Step net ((net.setLink (!s) ((net.link (!s)).postRecv .CloseRecv)).setClosing s .recvPosted)
  | closeSend (net : Net) (s : Bool) (closing : net.closing s = .recvPosted) :
      Step net ((net.setLink s ((net.link s).postSend .CloseSend)).setClosing s .sendPosted)

inductive Reachable : Net → Prop
  | start : Reachable start
  | step (net net' : Net) (reached : Reachable net) (step : Step net net') : Reachable net'

end Net

end BatchDualEx
