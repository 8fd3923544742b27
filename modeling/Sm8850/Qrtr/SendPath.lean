import Sm8850.Lib.Memory
import Sm8850.Ns.Model

/-! The data path of net/qrtr/af_qrtr.c from `qrtr_sendmsg` to the endpoint, and the parsing
of a packet by the peer's `qrtr_endpoint_post`. -/
namespace Sm8850.Qrtr

open Memory
open Sm8850.Ns (U32 SockaddrQrtr)

def pageSize : Nat := 4096
def maxSkbFrags : Nat := 17

/-- The larger of the two header sizes, that of version 1. -/
def hdrMaxSize : Nat := 32

/-- SKB_MAX_ALLOC depends on the size of the shared info; the build checks the first bound,
and cache line alignment gives the second. -/
structure Geometry where
  skbMaxAlloc : Nat
  page_le : pageSize ≤ skbMaxAlloc
  aligned : 4 ∣ skbMaxAlloc

def align (x a : Nat) : Nat := (x + (a - 1)) / a * a

/-- A page-backed fragment; its bytes start at the beginning of its first page. -/
structure Frag where
  size : Nat
  mem : Nat → UInt8

/-- `struct sk_buff`: the linear buffer with its pointers, the fragments, and the two
lengths the code keeps by hand. -/
structure Skb where
  head : Nat → UInt8
  data : Nat
  tail : Nat
  limit : Nat
  frags : List Frag
  len : Nat
  dataLen : Nat

def skbHeadlen (skb : Skb) : Nat := skb.len - skb.dataLen

def skbReserve (skb : Skb) (n : Nat) : Skb := { skb with data := skb.data + n, tail := skb.tail + n }

def skbPut (skb : Skb) (n : Nat) : Skb := { skb with tail := skb.tail + n, len := skb.len + n }

def skbPush (skb : Skb) (n : Nat) : Skb := { skb with data := skb.data - n, len := skb.len + n }

def fragByte : List Frag → Nat → UInt8
  | [], _ => 0
  | f :: fs, i => if i < f.size then f.mem i else fragByte fs (i - f.size)

/-- The byte at offset `i` of the packet, as `skb_copy_bits` finds it. -/
def Skb.byte (skb : Skb) (i : Nat) : UInt8 :=
  if i < skbHeadlen skb then skb.head (skb.data + i) else fragByte skb.frags (i - skbHeadlen skb)

/-- The packet as the transport reads it. -/
def Skb.bytes (skb : Skb) : List UInt8 := peek skb.byte 0 skb.len

structure Request where
  header : Nat
  data : Nat

def fragsSize (frags : List Frag) : Nat := (frags.map Frag.size).sum

/-- What `sock_alloc_send_pskb` may return: a linear buffer of at least the header size, and
fragments of whole pages that make up the data size. -/
structure Fresh (r : Request) (skb : Skb) : Prop where
  data : skb.data = 0
  tail : skb.tail = 0
  len : skb.len = 0
  dataLen : skb.dataLen = 0
  room : r.header ≤ skb.limit
  pages : ∀ f ∈ skb.frags, 0 < f.size ∧ pageSize ∣ f.size
  total : fragsSize skb.frags = r.data

def isPrimary (nid : U32) : Bool := nid = 1 || nid = 2

section
variable (g : Geometry) (alloc : Request → Option Skb)

/-- The linear part holds the message from the start, the fragments the last `dataLen`
bytes. -/
def allocLinear (len plen dataLen pdataLen : Nat) : Option Skb :=
  (alloc ⟨hdrMaxSize + (plen - dataLen), pdataLen⟩).map (fun skb =>
    let skb := skbPut (skbReserve skb hdrMaxSize) (len - dataLen)
    { skb with dataLen := dataLen, len := len })

def sockAllocSkbSend (nid : U32) (len : Nat) : Option Skb :=
  let plen := align len 4
  if isPrimary nid then
    let dataLen :=
      if g.skbMaxAlloc < plen then min (plen - g.skbMaxAlloc) (maxSkbFrags * pageSize) else 0
    let pdataLen := if g.skbMaxAlloc < plen then align dataLen pageSize else 0
    allocLinear alloc len plen dataLen pdataLen
  else
    let dataLen := if pageSize < plen then min (plen - pageSize) (maxSkbFrags * pageSize) else 0
    let pdataLen := if pageSize < plen then align dataLen pageSize else 0
    if dataLen ≠ 0 then
      (alloc ⟨hdrMaxSize, plen - dataLen + pdataLen⟩).map (fun skb =>
        { skbReserve skb hdrMaxSize with
          dataLen := plen - dataLen + pdataLen - hdrMaxSize
          len := plen - dataLen + pdataLen })
    else allocLinear alloc len plen dataLen pdataLen

end

def fillFrags : List Frag → List UInt8 → List Frag
  | [], _ => []
  | f :: fs, bs => { f with mem := poke f.mem 0 (bs.take f.size) } :: fillFrags fs (bs.drop f.size)

/-- `skb_copy_datagram_from_iter` at offset zero; none if the packet has no room. -/
def skbCopyFromIter (skb : Skb) (bs : List UInt8) : Option Skb :=
  if bs.length ≤ skbHeadlen skb + fragsSize skb.frags then
    some { skb with
      head := poke skb.head skb.data (bs.take (skbHeadlen skb))
      frags := fillFrags skb.frags (bs.drop (skbHeadlen skb)) }
  else none

def zeros (n : Nat) : List UInt8 := List.replicate n 0

/-- The counters of `qrtr_pad_word_pskb`. -/
structure PadState where
  count : Nat
  paddingLen : Nat
  len : Nat
  dataLen : Nat

/-- Offset and length in the fragment of each of its pages. -/
def fragPages (size : Nat) : List (Nat × Nat) :=
  (List.range ((size + (pageSize - 1)) / pageSize)).map
    (fun j => (j * pageSize, min pageSize (size - j * pageSize)))

/-- A subtraction of 32-bit unsigned numbers. -/
def subU32 (x y : Nat) : Nat := (x + 2 ^ 32 - y % 2 ^ 32) % 2 ^ 32

/-- The pages of a fragment that can hold all the padding. -/
def padFit (padto : Nat) : List (Nat × Nat) → PadState → (Nat → UInt8) → PadState × (Nat → UInt8)
  | [], st, mem => (st, mem)
  | (off, pLen) :: ps, st, mem =>
    if st.count + pLen < padto then padFit padto ps { st with count := st.count + pLen } mem
    else
      let dOff := subU32 st.len st.count
      ({ st with
          count := st.count + (dOff + st.paddingLen)
          len := padto
          dataLen := st.dataLen + st.paddingLen },
        poke mem (off + dOff) (zeros st.paddingLen))

/-- The pages of a fragment that ends before the padding does. -/
def padSplit (padto : Nat) : List (Nat × Nat) → PadState → (Nat → UInt8) → PadState × (Nat → UInt8)
  | [], st, mem => (st, mem)
  | (off, pLen) :: ps, st, mem =>
    if st.count + pLen < st.len then padSplit padto ps { st with count := st.count + pLen } mem
    else if st.count + pLen < padto then
      let dOff := subU32 st.len st.count
      let dLen := subU32 pLen dOff
      let paddingLen := subU32 st.paddingLen dLen
      padSplit padto ps ⟨st.count + pLen, paddingLen, st.len + dLen, st.dataLen + paddingLen⟩
        (poke mem (off + dOff) (zeros dLen))
    else
      let dOff := if st.count < st.len then st.len - st.count else 0
      padSplit padto ps
        { st with
          count := st.count + (dOff + st.paddingLen)
          len := st.len + st.paddingLen
          dataLen := st.dataLen + st.paddingLen }
        (poke mem (off + dOff) (zeros st.paddingLen))

def padFrags (padto : Nat) : List Frag → PadState → List Frag × PadState
  | [], st => ([], st)
  | f :: fs, st =>
    if st.count + f.size < st.len then
      let (fs, st) := padFrags padto fs { st with count := st.count + f.size }
      (f :: fs, st)
    else
      let (st, mem) :=
        if padto ≤ st.count + f.size then padFit padto (fragPages f.size) st f.mem
        else padSplit padto (fragPages f.size) st f.mem
      if st.len = padto then ({ f with mem := mem } :: fs, st)
      else
        let (fs, st) := padFrags padto fs st
        ({ f with mem := mem } :: fs, st)

def padWordPskb (skb : Skb) : Skb :=
  let padto := align skb.len 4
  let paddingLen := padto - skb.len
  if paddingLen = 0 then skb
  else
    let (frags, st) := padFrags padto skb.frags ⟨skbHeadlen skb, paddingLen, skb.len, skb.dataLen⟩
    { skb with frags := frags, len := st.len, dataLen := st.dataLen }

/-- `skb_put_padto` on a linear packet. Without tail room the buffer is reallocated, which
may fail. -/
def skbPutPadto (expand : Bool) (skb : Skb) (n : Nat) : Option Skb :=
  if n ≤ skb.len then some skb
  else if skb.tail + (n - skb.len) ≤ skb.limit ∨ expand then
    let head := poke skb.head (skb.data + skb.len) (zeros (n - skb.len))
    some (skbPut { skb with head := head } (n - skb.len))
  else none

def protoVer1 : Nat := 1
def protoVer2 : Nat := 3
def portCtrlLegacy : U32 := 0xffff
def portCtrl : U32 := 0xfffffffe

def typeData : Nat := 1
def typeHello : Nat := 2
def typeNewServer : Nat := 4
def typeResumeTx : Nat := 7

/-- `struct qrtr_hdr_v1`, eight little-endian words. -/
def hdrV1 (type : Nat) (src dst : SockaddrQrtr) (confirmRx size : Nat) : List UInt8 :=
  [protoVer1, type, src.sqNode.toNat, src.sqPort.toNat, confirmRx, size, dst.sqNode.toNat,
    dst.sqPort.toNat].flatMap (leBytes 4)

/-- What `qrtr_node_enqueue` meets: the node's id, whether HELLO was sent, the result of
`qrtr_tx_wait`, the endpoint, and the result of a reallocation. -/
structure NodeEnv where
  nid : U32
  helloSent : Bool
  txWait : Int
  ep : Bool
  expand : Bool

/-- The packet handed to the endpoint; none if there is none. -/
def nodeEnqueue (env : NodeEnv) (skb : Skb) (type : Nat) (src dst : SockaddrQrtr) : Option Skb :=
  if env.helloSent = (type == typeHello) then none
  else if env.txWait < 0 then none
  else
    let len := skb.len
    let skb := skbPush skb hdrMaxSize
    let dst := if dst.sqPort = portCtrl then ⟨env.nid, portCtrl⟩ else dst
    let hdr := hdrV1 type src dst (if env.txWait ≠ 0 then 1 else 0) len
    let skb := { skb with head := poke skb.head skb.data hdr }
    let padded :=
      if skb.dataLen ≠ 0 then some (padWordPskb skb)
      else skbPutPadto env.expand skb (align len 4 + hdrMaxSize)
    if env.ep then padded else none

/-- A DATA message on its way through `qrtr_sendmsg` and `qrtr_node_enqueue`. -/
def sendData (g : Geometry) (alloc : Request → Option Skb) (env : NodeEnv) (localNid : U32)
    (src dst : SockaddrQrtr) (msg : List UInt8) : Option Skb := do
  let skb ← sockAllocSkbSend g alloc localNid msg.length
  let skb ← skbCopyFromIter skb msg
  nodeEnqueue env skb typeData src dst

end Sm8850.Qrtr
