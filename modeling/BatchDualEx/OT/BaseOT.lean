import BatchDualEx.Common.ByteStream
import BatchDualEx.Crypto.PRNG
import BatchDualEx.Network.Message
import Mathlib.Algebra.Module.NatInt

/- `BaseOT::exec_base` and the dual mode cryptosystem under it. The curve is an abelian group
   `P`; MIRACL's conversions, SHA1 and the generators are arbitrary functions. -/
namespace BatchDualEx

open Bytes Result

def BASE_OT_COUNT : Nat := 128

inductive OTRole where
  | Receiver
  | Sender
  | Both
  deriving DecidableEq, Repr

namespace OTRole

def bits : OTRole → BitVec 8
  | Receiver => 0x01
  | Sender => 0x10
  | Both => 0x11

def has (role flag : OTRole) : Bool := role.bits &&& flag.bits != 0

end OTRole

def INV_ROLE (role : OTRole) : OTRole :=
  if role = .Receiver then .Sender
  else if role = .Sender then .Receiver
  else .Both

abbrev csprng := Stream' Nat

def strongRand (RNG : csprng) : Nat × csprng := (RNG.head, RNG.tail)

/-- The conversions of MIRACL: `ECn::get`, `ECn(x, y)`, `to_binary` and `from_binary`. -/
structure Miracl (P : Type) where
  get : P → Nat × Nat
  ECn : Nat → Nat → P
  toBinary : Nat → List Byte
  fromBinary : List Byte → Nat

structure CRS (P : Type) where
  g : Bool → P
  h : Bool → P

structure PK (P : Type) where
  g : P
  h : P

section

variable {P : Type} [AddCommGroup P]

def KeyGen (sigma : Bool) (crs : CRS P) (RNG : csprng) : Nat × PK P × csprng :=
  let (sk, RNG) := strongRand RNG
  (sk, ⟨sk • crs.g sigma, sk • crs.h sigma⟩, RNG)

def Randomize (g h gd hd : P) (RNG : csprng) : P × P × csprng :=
  let (s, RNG) := strongRand RNG
  let (t, RNG) := strongRand RNG
  (s • g + t • h, s • gd + t • hd, RNG)

def PK.Encrypt (pk : PK P) (m : P) (branch : Bool) (crs : CRS P) (RNG : csprng) :
    P × P × csprng :=
  let (c0, c1, RNG) := Randomize (crs.g branch) (crs.h branch) pk.g pk.h RNG
  (c0, c1 + m, RNG)

def Decrypt (sk : Nat) (c0 c1 : P) : P := c1 - sk • c0

end

namespace Miracl

variable {P : Type} (M : Miracl P)

def packBig (s : ByteStream) (z : Nat) : ByteStream := s.storeBytes (M.toBinary z)

/-- The bytes go into a buffer of 50. -/
def unpackBig (s : ByteStream) : Except Fault (Nat × ByteStream) := do
  let (data, s) ← s.getBytes
  require (data.length ≤ 50) Fault.undefined
  return (M.fromBinary data, s)

def pack (s : ByteStream) (p : P) : ByteStream := M.packBig (M.packBig s (M.get p).1) (M.get p).2

def unpack (s : ByteStream) : Except Fault (P × ByteStream) := do
  let (x, s) ← M.unpackBig s
  let (y, s) ← M.unpackBig s
  return (M.ECn x y, s)

end Miracl

namespace BaseOT

/-- A stream, and beside it the points that were packed into it or unpacked from it, in order. -/
structure Logged (P : Type) where
  strm : ByteStream
  points : List P

section

variable {P : Type} (M : Miracl P)

def Logged.pack (s : Logged P) (p : P) : Logged P := ⟨M.pack s.strm p, s.points ++ [p]⟩

def Logged.unpack (s : Logged P) : Except Fault (P × Logged P) := do
  let (p, strm) ← M.unpack s.strm
  return (p, ⟨strm, s.points ++ [p]⟩)

end

structure Keys (P : Type) where
  out : Logged P
  sk : List Nat
  RNG : csprng

structure Transfers (P : Type) where
  keys : Logged P
  out : Logged P
  Miracl_Sender_Inputs : List (P × P)
  RNG : csprng

structure Outputs (P : Type) where
  ciphertexts : Logged P
  Miracl_Receiver_Outputs : List P

/-- Why a party does not return: undefined or an exception, or a message that never comes. -/
inductive Stop where
  | fault (f : Fault)
  | waiting
  deriving DecidableEq

def lift {α : Type} (run : Except Fault α) : Except Stop α := run.mapError Stop.fault

/-- One end of the channel: the messages on their way to it, and those it has sent. -/
structure Channel where
  incoming : List (List Byte)
  sent : List (List Byte)

namespace Channel

def asyncSendCopy (c : Channel) (data : List Byte) : Except Stop Channel := do
  let message ← lift (BtChannel.asyncSend data)
  return { c with sent := c.sent ++ [message] }

def recv (c : Channel) : Except Stop (ByteStream × Channel) :=
  match c.incoming with
  | [] => .error .waiting
  | message :: incoming => .ok (.received message, { c with incoming := incoming })

end Channel

def sendIfOtReceiver (channel : Channel) (os0 os1 : ByteStream) :
    OTRole → Except Stop (ByteStream × Channel)
  | .Receiver => do
    let channel ← channel.asyncSendCopy os0.unread
    return (os1, channel)
  | .Sender => channel.recv
  | .Both => do
    let channel ← channel.asyncSendCopy os0.unread
    channel.recv

def sendIfOtSender (channel : Channel) (os0 os1 : ByteStream) :
    OTRole → Except Stop (ByteStream × Channel)
  | .Sender => do
    let channel ← channel.asyncSendCopy os0.mData
    return (os1, channel)
  | .Receiver => channel.recv
  | .Both => do
    let channel ← channel.asyncSendCopy os0.unread
    channel.recv

structure Executed (P : Type) where
  OT_Receiver_Inputs : BitVector
  keys : Keys P
  transfers : Transfers P
  outputs : Outputs P
  channel : Channel

variable {P : Type} [AddCommGroup P] (M : Miracl P) (crs : CRS P)

def keyStep (OT_Receiver_Inputs : BitVector) (s : Keys P) (i : Nat) : Keys P :=
  let (sk, pk, RNG) := KeyGen (OT_Receiver_Inputs.get i) crs s.RNG
  { out := (s.out.pack M pk.g).pack M pk.h
    sk := s.sk.set i sk
    RNG := RNG }

def transferStep (s : Transfers P) (i : Nat) : Except Fault (Transfers P) := do
  let (z0, RNG) := strongRand s.RNG
  let (z1, RNG) := strongRand RNG
  let m0 := z0 • crs.g false
  let m1 := z1 • crs.g false
  let (g, keys) ← s.keys.unpack M
  let (h, keys) ← keys.unpack M
  let (c0, c1, RNG) := PK.Encrypt ⟨g, h⟩ m0 false crs RNG
  let out := (s.out.pack M c0).pack M c1
  let (c0, c1, RNG) := PK.Encrypt ⟨g, h⟩ m1 true crs RNG
  let out := (out.pack M c0).pack M c1
  return {
    keys := keys
    out := out
    Miracl_Sender_Inputs := s.Miracl_Sender_Inputs.set i (m0, m1)
    RNG := RNG }

def decryptStep (OT_Receiver_Inputs : BitVector) (sk : List Nat) (s : Outputs P) (i : Nat) :
    Except Fault (Outputs P) := do
  let (c0, ciphertexts) ← s.ciphertexts.unpack M
  let (c1, ciphertexts) ← ciphertexts.unpack M
  let outputs :=
    if OT_Receiver_Inputs.get i = false then
      s.Miracl_Receiver_Outputs.set i (Decrypt (sk.getD i 0) c0 c1)
    else s.Miracl_Receiver_Outputs
  let (c0, ciphertexts) ← ciphertexts.unpack M
  let (c1, ciphertexts) ← ciphertexts.unpack M
  let outputs :=
    if OT_Receiver_Inputs.get i = true then outputs.set i (Decrypt (sk.getD i 0) c0 c1)
    else outputs
  return { ciphertexts := ciphertexts, Miracl_Receiver_Outputs := outputs }

def makeKeys (OT_Receiver_Inputs : BitVector) (n : Nat) (RNG : csprng) : Keys P :=
  (List.range n).foldl (keyStep M crs OT_Receiver_Inputs)
    { out := ⟨.empty, []⟩, sk := List.replicate n 0, RNG := RNG }

def makeTransfers (n : Nat) (strm0 strm1 : ByteStream) (RNG : csprng) :
    Except Fault (Transfers P) :=
  (List.range n).foldlM (transferStep M crs)
    { keys := ⟨strm1, []⟩
      out := ⟨strm0.setp0, []⟩
      Miracl_Sender_Inputs := List.replicate n (0, 0)
      RNG := RNG }

def decryptAll (OT_Receiver_Inputs : BitVector) (sk : List Nat) (n : Nat) (strm1 : ByteStream) :
    Except Fault (Outputs P) :=
  (List.range n).foldlM (decryptStep M OT_Receiver_Inputs sk)
    { ciphertexts := ⟨strm1, []⟩, Miracl_Receiver_Outputs := List.replicate n 0 }

/-- The passes that a role makes through the loops of `flag`. -/
def passes (role flag : OTRole) (n : Nat) : Nat := if role.has flag then n else 0

def choices (OT_Receiver_Inputs : BitVector) (G : PRNG) (role : OTRole) : BitVector :=
  if role.has .Receiver then (OT_Receiver_Inputs.randomize G).1 else OT_Receiver_Inputs

def Exec_OT (OT_Receiver_Inputs : BitVector) (Miracl_RNG : csprng) (G : PRNG) (channel : Channel)
    (role : OTRole) : Except Stop (Executed P) := do
  let n := OT_Receiver_Inputs.size
  let OT_Receiver_Inputs := choices OT_Receiver_Inputs G role
  let keys := makeKeys M crs OT_Receiver_Inputs (passes role .Receiver n) Miracl_RNG
  let (strm1, channel) ← sendIfOtReceiver channel keys.out.strm ByteStream.empty.setp0 role
  let transfers ←
    lift (makeTransfers M crs (passes role .Sender n) keys.out.strm strm1 keys.RNG)
  let (strm1, channel) ← sendIfOtSender channel transfers.out.strm transfers.keys.strm.setp0 role
  let outputs ← lift (decryptAll M OT_Receiver_Inputs keys.sk (passes role .Receiver n) strm1)
  return {
    OT_Receiver_Inputs := OT_Receiver_Inputs
    keys := keys
    transfers := transfers
    outputs := outputs
    channel := channel }

def hashPoint (SHA1 : List Byte → BitVec 160) (p : P) : Block :=
  (SHA1 (M.pack .empty p).mData).setWidth 128

end BaseOT

/-- The members that `exec_base` fills, and the state in which `Exec_OT` has returned. -/
structure BaseOT (P : Type) where
  receiver_inputs : BitVector
  sender_inputs : List (Block × Block)
  receiver_outputs : List Block
  executed : BaseOT.Executed P

namespace BaseOT

variable {P : Type} [AddCommGroup P] (M : Miracl P) (crs : CRS P)

/-- `receiver_inputs.reset(nOT)` is in the constructor. -/
def exec_base (SHA1 : List Byte → BitVec 160) (strong_init : List UInt8 → csprng) (role : OTRole)
    (G : PRNG) (incoming : List (List Byte)) : Except Stop (BaseOT P) := do
  let (data, G) := G.getU8s 100
  let e ← Exec_OT M crs (BitVector.empty.reset BASE_OT_COUNT) (strong_init data) G ⟨incoming, []⟩
    role
  return {
    receiver_inputs := e.OT_Receiver_Inputs
    sender_inputs :=
      if role.has .Sender then
        e.transfers.Miracl_Sender_Inputs.map fun (m0, m1) =>
          (hashPoint M SHA1 m0, hashPoint M SHA1 m1)
      else []
    receiver_outputs :=
      if role.has .Receiver then e.outputs.Miracl_Receiver_Outputs.map (hashPoint M SHA1) else []
    executed := e }

end BaseOT

end BatchDualEx
