import Sm8850.Qrtr.SendPath

/-! The receive side of net/qrtr/af_qrtr.c: `qrtr_endpoint_post`. -/
namespace Sm8850.Qrtr

open Memory
open Sm8850.Ns (U32 SockaddrQrtr EINVAL ENODEV ENOMEM)

def hdrV2Size : Nat := 16
def ctrlPktSize : Nat := 20

/-- `struct qrtr_cb`; `type` has eight bits. -/
structure Cb where
  srcNode : U32
  srcPort : U32
  dstNode : U32
  dstPort : U32
  type : Nat
  confirmRx : Bool
  deriving DecidableEq

/-- The little-endian word of `k` bytes at offset `o`. -/
def word (bytes : List UInt8) (o k : Nat) : Nat := leNat ((bytes.drop o).take k)

/-- A 16-bit port number, with the control port widened. -/
def portV2 (port : Nat) : U32 := if port = 0xfffe then portCtrl else BitVec.ofNat 32 port

/-- The header fields, the header length and the payload size, for either version. -/
def parseHdr (bytes : List UInt8) : Option (Cb × Nat × Nat) :=
  let ver := word bytes 0 1
  if ver = protoVer1 then
    if bytes.length < hdrMaxSize then none
    else some (⟨BitVec.ofNat 32 (word bytes 8 4), BitVec.ofNat 32 (word bytes 12 4),
      BitVec.ofNat 32 (word bytes 24 4), BitVec.ofNat 32 (word bytes 28 4),
      word bytes 4 4 % 256, word bytes 16 4 ≠ 0⟩, hdrMaxSize, word bytes 20 4)
  else if ver = protoVer2 then
    if bytes.length < hdrV2Size then none
    else some (⟨BitVec.ofNat 32 (word bytes 8 2), portV2 (word bytes 10 2),
      BitVec.ofNat 32 (word bytes 12 2), portV2 (word bytes 14 2),
      word bytes 1 1, word bytes 2 1 % 2 ≠ 0⟩, hdrV2Size + word bytes 3 1, word bytes 4 4)
  else none

/-- What the receiver meets: whether a buffer can be allocated, its own node id, the bound
ports, and whether the socket's queue takes the packet. -/
structure Peer where
  alloc : Bool
  localNid : U32
  portLookup : U32 → Bool
  queueRcv : Bool

/-- A packet that was queued, for the worker or for a socket. -/
structure Queued where
  cb : Cb
  data : List UInt8
  toSocket : Bool
  deriving DecidableEq

def endpointPost (peer : Peer) (bytes : List UInt8) : Except Int Queued :=
  if bytes.length = 0 ∨ bytes.length % 4 ≠ 0 then .error (-EINVAL)
  else if !peer.alloc then .error (-ENOMEM)
  else
    match parseHdr bytes with
    | none => .error (-EINVAL)
    | some (cb, hdrlen, size) =>
      let cb := if cb.dstPort = portCtrlLegacy then { cb with dstPort := portCtrl } else cb
      if size = 0 ∨ bytes.length ≠ align size 4 + hdrlen then .error (-EINVAL)
      else if (cb.type = typeNewServer ∨ cb.type = typeResumeTx) ∧ size < ctrlPktSize then
        .error (-EINVAL)
      else if cb.dstPort ≠ portCtrl ∧ cb.type ≠ typeData ∧ cb.type ≠ typeResumeTx then
        .error (-EINVAL)
      else
        let data := (bytes.drop hdrlen).take size
        if cb.type ≠ typeData ∨ cb.dstNode ≠ peer.localNid then .ok ⟨cb, data, false⟩
        else if !peer.portLookup cb.dstPort then .error (-ENODEV)
        else if !peer.queueRcv then .error (-EINVAL)
        else .ok ⟨cb, data, true⟩

/-- The port a packet to `port` is delivered to. -/
def rxPort (port : U32) : U32 := if port = portCtrlLegacy then portCtrl else port

/-- The peer has memory, and has a bound and willing socket for packets to itself. -/
structure Peer.Ready (peer : Peer) (dst : SockaddrQrtr) : Prop where
  alloc : peer.alloc = true
  bound : dst.sqNode = peer.localNid → peer.portLookup (rxPort dst.sqPort) = true
  queueRcv : peer.queueRcv = true

end Sm8850.Qrtr
