import Sm8850.Lib.Memory
import Sm8850.Lib.Rounds
import Sm8850.Glink.Fifo

/-! The receive path of drivers/rpmsg/qcom_glink_native.c: `qcom_glink_native_rx` and the handlers of
the commands it reads from the FIFO. -/
namespace Sm8850.Glink.Rx
open Function List

open Memory (leNat leBytes peek poke)

def ENOENT : Int := 2
def ENXIO : Int := 6
def EAGAIN : Int := 11
def ENOMEM : Int := 12
def EINVAL : Int := 22

/-- `struct glink_core_rx_intent`. `data` is the buffer's memory, if there is one. -/
structure Intent where
  data : Option (Nat → U8)
  id : U32
  size : U64
  reuse : Bool
  inUse : Bool
  offset : U32
  cbIrqDone : Bool

/-- `kzalloc(sizeof(*intent))`. -/
def Intent.zero : Intent := ⟨none, 0, 0, false, false, 0, false⟩

/-- `struct glink_channel`, as far as the receive path uses it. Local intents stand in several
lists, so they are kept by their address. -/
structure Channel where
  lcid : U32
  liids : U32 → Option Nat
  riids : U32 → Option Intent
  deferIntents : List Nat
  rxQueue : List Nat
  buf : Option Nat
  cb : Bool
  cbIrq : Bool
  openAck : Bool
  intentReqResult : Bool
  intentReceived : Bool
  intentTimeoutCount : Nat
  remoteSignals : U32

/-- `struct qcom_glink` with the memory its channels and intents stand in. `handed` and `sent` are
the history: what the callbacks were given, by channel, and the messages sent in reply. -/
structure Edge where
  rxPipe : Pipe
  intentless : Bool
  zeroCopy : Bool
  lcids : U32 → Option Nat
  rcids : U32 → Option Nat
  channels : Nat → Channel
  intents : Nat → Intent
  nextIntent : Nat
  rxQueue : List (List U8)
  handed : List (Nat × List U8)
  sent : List (List U8)

/-- What one iteration meets outside: whether its allocations succeed, in order, what the
callback and the transmission of an RX_DONE return, and the memory behind a device address. -/
structure Env where
  alloc : Nat → Bool
  idrAlloc : Nat → Bool
  cb : Int
  tx : Int
  daForCpu : U64 → U32 → Option (Nat → U8)

def le16 (bs : List U8) (off : Nat) : U16 := BitVec.ofNat 16 (leNat ((bs.drop off).take 2))
def le32 (bs : List U8) (off : Nat) : U32 := BitVec.ofNat 32 (leNat ((bs.drop off).take 4))
def le64 (bs : List U8) (off : Nat) : U64 := BitVec.ofNat 64 (leNat ((bs.drop off).take 8))

def sizeofMsg : U64 := 8

def Edge.advance (g : Edge) (count : U64) : Edge := { g with rxPipe := rxAdvance g.rxPipe count }

def Edge.setChannel (g : Edge) (ch : Nat) (f : Channel → Channel) : Edge :=
  { g with channels := update g.channels ch (f (g.channels ch)) }

def Edge.setIntent (g : Edge) (a : Nat) (f : Intent → Intent) : Edge :=
  { g with intents := update g.intents a (f (g.intents a)) }

/-- Bytes of the FIFO copied into a buffer that was zeroed. -/
def Edge.peek (g : Edge) (offset : U32) (count : Nat) : List U8 :=
  rxPeek g.rxPipe (replicate count 0) offset count

def rxDefer (e : Env) (g : Edge) (extra : U64) : Edge × Int :=
  let extra := align8 extra
  if rxAvail g.rxPipe < sizeofMsg + extra then (g, - ENXIO)
  else if !e.alloc 0 then (g, -ENOMEM)
  else
    let dcmd := g.peek 0 (sizeofMsg + extra).toNat
    ({ g with rxQueue := g.rxQueue ++ [dcmd] }.advance (sizeofMsg + extra), 0)

def rxOpenAck (g : Edge) (lcid : U32) : Edge × Int :=
  let g := g.advance (align8 sizeofMsg)
  match g.lcids lcid with
  | none => (g, -EINVAL)
  | some ch => (g.setChannel ch ({ · with openAck := true }), 0)

def glinkIrqIterationLimits : U32 := 10
def rpmsgDefer : Int := 1

/-- `qcom_glink_send_rx_done` without waiting. -/
def sendRxDone (e : Env) (g : Edge) (ch a : Nat) : Edge × Int :=
  let it := g.intents a
  let cmd := leBytes 2 (if it.reuse then 14 else 6) ++ leBytes 2 (g.channels ch).lcid.toNat ++
    leBytes 4 it.id.toNat
  let g := g.setIntent a ({ · with offset := 0 })
  if e.tx ≠ 0 then (g, e.tx)
  else
    let g := if it.size = 0 then g.setIntent a ({ · with data := none }) else g
    ({ g with sent := g.sent ++ [cmd] }, 0)

/-- `__qcom_glink_rx_done` without waiting. -/
def rxDone (e : Env) (g : Edge) (ch a : Nat) : Edge × Int :=
  if g.intentless then (g, 0)
  else
    let it := g.intents a
    let g := if it.reuse then g
      else g.setChannel ch (fun c => { c with liids := update c.liids it.id none })
    let g := g.setChannel ch (fun c => { c with deferIntents := c.deferIntents.erase a })
    sendRxDone e g ch a

/-- Leave the intent to the channel's thread. -/
def queueIntent (g : Edge) (ch a : Nat) : Edge :=
  g.setChannel ch (fun c => { c with rxQueue := c.rxQueue ++ [a] })

/-- Call the channel's callback, if there is one, with what the intent holds. -/
def callCb (e : Env) (g : Edge) (ch a : Nat) : Edge × Int :=
  let it := g.intents a
  if (g.channels ch).cb then
    ({ g with handed := g.handed ++
        [(ch, peek (it.data.getD (fun _ => 0)) 0 it.offset.toNat)] }, e.cb)
  else (g, 0)

def rxDataHandler (e : Env) (g : Edge) (ch a : Nat) (iters : U32) : Edge :=
  let c := g.channels ch
  if c.cbIrq ∧ iters < glinkIrqIterationLimits ∧ c.rxQueue = [] then
    let g := if g.intentless then g
      else g.setChannel ch (fun c => { c with deferIntents := c.deferIntents ++ [a] })
    let (g, ret) := callCb e g ch a
    let g := g.setIntent a ({ · with offset := 0 })
    if g.zeroCopy ∧ ret = rpmsgDefer then g.setChannel ch ({ · with buf := none })
    else
      let (g, ret) := rxDone e g ch a
      if ret < 0 then queueIntent (g.setIntent a ({ · with cbIrqDone := true })) ch a
      else g.setChannel ch ({ · with buf := none })
  else queueIntent g ch a

/-- How `qcom_glink_rx_data` goes on after looking for the intent: it returns without advancing,
drops the message, or fills the intent at an address. -/
inductive Found where
  | fail (ret : Int)
  | drop (ret : Int)
  | intent (a : Nat)

def findIntent (e : Env) (g : Edge) (ch : Nat) (liid chunkSize leftSize : U32) : Edge × Found :=
  if g.intentless then
    match (g.channels ch).buf with
    | some a => (g, .intent a)
    | none =>
      if !e.alloc 0 then (g, .fail (-ENOMEM))
      else if !e.alloc 1 then (g, .fail (-ENOMEM))
      else
        let a := g.nextIntent
        let g := { g with nextIntent := a + 1 }
        let g := g.setIntent a (fun _ => { Intent.zero with
          data := some (fun _ => 0), id := 0xbabababa, size := (chunkSize + leftSize).setWidth 64 })
        (g.setChannel ch ({ · with buf := some a }), .intent a)
  else
    match (g.channels ch).liids liid with
    | none => (g, .drop (-ENOENT))
    | some a => (g, .intent a)

def rxDataHdr : U64 := 16

def rxData (e : Env) (g : Edge) (avail : U64) (iters : U32) : Edge × Int :=
  if avail < rxDataHdr then (g, -EAGAIN)
  else
    let hdr := g.peek 0 16
    let chunkSize := le32 hdr 8
    let leftSize := le32 hdr 12
    if avail < rxDataHdr + chunkSize.setWidth 64 then (g, -EAGAIN)
    else
      let count := align8 (rxDataHdr + chunkSize.setWidth 64)
      match g.rcids ((le16 hdr 2).setWidth 32) with
      | none => (g.advance count, 0)
      | some ch =>
        match findIntent e g ch (le32 hdr 4) chunkSize leftSize with
        | (g, .fail ret) => (g, ret)
        | (g, .drop ret) => (g.advance count, ret)
        | (g, .intent a) =>
          let it := g.intents a
          if it.size - it.offset.setWidth 64 < chunkSize.setWidth 64 then (g.advance count, 0)
          else
            let payload := g.peek 16 chunkSize.toNat
            let g := g.setIntent a (fun it => { it with
              data := it.data.map (poke · it.offset.toNat payload), offset := it.offset + chunkSize })
            let g := if leftSize = 0 then rxDataHandler e g ch a iters else g
            (g.advance count, 0)

def rxDataZeroCopy (e : Env) (g : Edge) (avail : U64) : Edge × Int :=
  if avail < 24 then (g, -EAGAIN)
  else
    let hdr := g.peek 0 24
    let dropped := (g.advance (align8 24), 0)
    if g.intentless then dropped
    else
      match g.rcids ((le16 hdr 2).setWidth 32) with
      | none => dropped
      | some ch =>
        match (g.channels ch).liids (le32 hdr 4) with
        | none => dropped
        | some a =>
          if (g.intents a).size ≠ 0 then dropped
          else
            match e.daForCpu (le64 hdr 16) (le32 hdr 12) with
            | none => dropped
            | some data =>
              let g := g.setIntent a ({ · with data := some data, offset := le32 hdr 12 })
              ((queueIntent g ch a).advance (align8 24), 0)

def rxReadNotif (g : Edge) : Edge := g.advance (align8 sizeofMsg)

/-- The loop that stores the advertised intents, from index `i` on. An id that is taken or
negative as an int is refused, and the loop goes on. -/
def storeIntents (e : Env) (i : Nat) (riids : U32 → Option Intent) :
    List (U32 × U32) → (U32 → Option Intent)
  | [] => riids
  | (size, id) :: rest =>
    if !e.alloc (i + 1) then riids
    else
      let riids := if !id.msb ∧ riids id = none ∧ e.idrAlloc i then
          update riids id (some { Intent.zero with id, size := size.setWidth 64 })
        else riids
      storeIntents e (i + 1) riids rest

/-- `struct_size(msg, intents, count)`. -/
def intentMsglen (count : U32) : U64 := sizeofMsg + 8 * count.setWidth 64

def handleIntent (e : Env) (g : Edge) (cid count : U32) (avail : U64) : Edge :=
  let msglen := intentMsglen count
  if avail < msglen then g
  else
    match g.rcids cid with
    | none => g.advance (align8 msglen)
    | some ch =>
      if !e.alloc 0 then g
      else
        let msg := g.peek 0 msglen.toNat
        let intents := (range count.toNat).map
          (fun i => (le32 msg (8 + 8 * i), le32 msg (12 + 8 * i)))
        let g := g.setChannel ch (fun c =>
          { c with riids := storeIntents e 0 c.riids intents, intentReceived := true })
        g.advance (align8 msglen)

def handleRxDone (g : Edge) (cid iid : U32) (reuse : Bool) : Edge :=
  let g := g.advance (align8 sizeofMsg)
  match g.rcids cid with
  | none => g
  | some ch =>
    match (g.channels ch).riids iid with
    | none => g
    | some intent =>
      g.setChannel ch (fun c =>
        if reuse then
          { c with
            riids := update c.riids iid (some { intent with inUse := false })
            intentReceived := true }
        else { c with riids := update c.riids intent.id none })

def handleIntentReqAck (g : Edge) (cid : U32) (granted : Bool) : Edge :=
  let g := g.advance (align8 sizeofMsg)
  match g.rcids cid with
  | none => g
  | some ch => g.setChannel ch ({ · with intentReqResult := granted, intentTimeoutCount := 0 })

/-- The four signals of the remote side and the bits they have locally. -/
def signalBits : List (U32 × U32) :=
  [(0x80000000, 0x100), (0x40000000, 0x020), (0x20000000, 0x040), (0x10000000, 0x080)]

def handleSignals (g : Edge) (rcid signals : U32) : Edge × Int :=
  let g := g.advance (align8 sizeofMsg)
  match g.rcids rcid with
  | none => (g, -EINVAL)
  | some ch =>
    let signals := signalBits.foldl
      (fun s b => if s &&& b.1 ≠ 0 then s ||| b.2 else s) signals
    (g.setChannel ch ({ · with remoteSignals := signals &&& 0x0fff }), 0)

/-- The local variables of `qcom_glink_native_rx` across its iterations, and the edge. -/
structure Loop where
  edge : Edge
  msg : List U8
  iters : U32
  retry : Nat

/-- What follows a handler that returned `ret`: an error ends the loop. -/
def Loop.handled (l : Loop) (r : Edge × Int) : Except Edge Loop :=
  if r.2 ≠ 0 then .error r.1 else .ok { l with edge := r.1, iters := l.iters + 1 }

/-- The switch over the command of the message that was read. -/
def dispatch (e : Env) (l : Loop) (avail : U64) : Except Edge Loop :=
  let g := l.edge
  let param1 : U32 := (le16 l.msg 2).setWidth 32
  let param2 := le32 l.msg 4
  match (le16 l.msg 0).toNat with
  | 0 | 1 | 3 | 11 | 7 => l.handled (rxDefer e g 0)
  | 4 => l.handled (rxOpenAck g param1)
  | 2 => l.handled (rxDefer e g (param2.setWidth 64))
  | 9 | 12 => l.handled (rxData e g avail l.iters)
  | 10 => l.handled (rxDataZeroCopy e g avail)
  | 13 => l.handled (rxReadNotif g, 0)
  | 5 => l.handled (handleIntent e g param1 param2 avail, 0)
  | 6 => l.handled (handleRxDone g param1 param2 false, 0)
  | 14 => l.handled (handleRxDone g param1 param2 true, 0)
  | 8 => l.handled (handleIntentReqAck g param1 (param2 ≠ 0), 0)
  | 15 => l.handled ((handleSignals g param1 param2).1, 0)
  | _ => if l.retry + 1 < 5 then .ok { l with retry := l.retry + 1 } else .error g

/-- One iteration of the loop, which ends with the edge as it leaves it, or goes on. -/
def rxIteration (e : Env) (l : Loop) : Except Edge Loop :=
  let avail : U32 := (rxAvail l.edge.rxPipe).setWidth 32
  if avail.setWidth 64 < sizeofMsg then .error l.edge
  else dispatch e { l with msg := rxPeek l.edge.rxPipe l.msg 0 8 } (avail.setWidth 64)

/-- The loop when it is entered; `msg` is not yet read. -/
def rxEnter (g : Edge) : Loop := ⟨g, replicate 8 0, 0, 0⟩

/-- The loop before iteration `i`, or the edge as it left it when it returned earlier. -/
def nativeRx (env : Nat → Env) (g : Edge) : Nat → Except Edge Loop :=
  Rounds.before (fun i => rxIteration (env i)) (rxEnter g)

end Sm8850.Glink.Rx
