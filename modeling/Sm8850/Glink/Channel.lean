import Sm8850.Lib.Mux
import Sm8850.Glink.Intents

/-! A channel of drivers/rpmsg/qcom_glink_native.c with intents at both its ends: `__qcom_glink_send` on any
number of threads at one, the receive path, the channel's thread and the client at the other. -/
namespace Sm8850.Glink.Channel

open Intents (Send RIntent Sender)
open Fragments (Piece gather rest absorb completed)

/-- A TX_DATA or TX_DATA_CONT packet of the channel; its key is the intent. -/
abbrev Frag := Piece Nat U8

/-- A local intent; the bytes up to `offset` are `data`. -/
structure LIntent where
  size : Nat
  reuse : Bool
  data : List U8
  deriving DecidableEq, Repr

/-- What stands in the channel's `rx_queue`: an intent with a message, one whose callback was called but
whose RX_DONE could not be sent (`cb_irq_done`), or one that is to be allocated. -/
inductive Item where
  | message (iid : Nat)
  | done (iid : Nat) (reuse : Bool)
  | alloc (size : Nat) (reuse : Bool)
  deriving DecidableEq, Repr

/-- The commands that go back. -/
inductive Control where
  | rxDone (iid : Nat) (reuse : Bool)
  | intent (size iid : Nat)
  deriving DecidableEq, Repr

/-- The two FIFOs of an edge. -/
inductive Lane where
  | data
  | control
  deriving DecidableEq

abbrev Lane.Msg : Lane → Type
  | .data => Frag
  | .control => Control

/-- Messages put on the one FIFO or the other. -/
def onData (l : List Frag) : (k : Lane) → List k.Msg
  | .data => l
  | .control => []

def onControl (l : List Control) : (k : Lane) → List k.Msg
  | .data => []
  | .control => l

/-- A channel at both its ends. `sent` are the messages whose send returns success, in the order of their
last fragments, and `handed` those the callback was given. `thread` is what the thread has taken off the
queue; `held` are the intents whose message was handed over and for which no RX_DONE was sent, `fresh`
those not yet advertised. -/
structure Chan where
  tx : Sender
  sent : List (List U8)
  liids : XArray LIntent
  rxQueue : List Item
  thread : Option Item
  held : List Nat
  fresh : List Nat
  cbIrq : Bool
  handed : List (List U8)

def Chan.initial (cbIrq : Bool) : Chan := ⟨.initial, [], .empty, [], none, [], [], cbIrq, []⟩

def glinkIrqIterationLimits : Nat := 10

/-- The callback is called in irq context. -/
def Chan.Direct (c : Chan) (iters : Nat) : Prop := c.cbIrq = true ∧ iters < glinkIrqIterationLimits ∧ c.rxQueue = []

instance (c : Chan) (iters : Nat) : Decidable (c.Direct iters) := by
  unfold Chan.Direct
  infer_instance

def rxDataHandler (c : Chan) (iid iters : Nat) (it : LIntent) : Chan :=
  if c.Direct iters then
    { c with liids := c.liids.store iid { it with data := [] }, held := c.held ++ [iid], handed := c.handed ++ [it.data] }
  else { c with rxQueue := c.rxQueue ++ [.message iid] }

def rxData (c : Chan) (p : Frag) (iters : Nat) : Chan :=
  match c.liids.load p.key with
  | none => c
  | some it =>
    if it.size - it.data.length < p.data.length then c
    else
      let it := { it with data := it.data ++ p.data }
      let c := { c with liids := c.liids.store p.key it }
      if p.left = 0 then rxDataHandler c p.key iters it else c

/-- `__qcom_glink_rx_done` up to the transmission: an intent that is not reused leaves the set, and the offset
of one that is starts again. -/
def release (liids : XArray LIntent) (iid : Nat) (reuse : Bool) : XArray LIntent :=
  if reuse then
    match liids.load iid with
    | none => liids
    | some it => liids.store iid { it with data := [] }
  else liids.erase iid

/-- What comes of sending an RX_DONE: it is sent, fails in irq context and is left to the thread, or fails
after waiting. -/
inductive Outcome where
  | sent
  | retry
  | lost

def Outcome.queue (o : Outcome) (iid : Nat) (reuse : Bool) : List Item :=
  match o with
  | .retry => [.done iid reuse]
  | _ => []

def Outcome.control (o : Outcome) (iid : Nat) (reuse : Bool) : List Control :=
  match o with
  | .sent => [.rxDone iid reuse]
  | _ => []

inductive Event where
  | tx (e : Intents.Event)
  | rx (iters : Nat)
  | request (size : Nat) (reuse : Bool)
  | wake
  | callback
  | redo (sent : Bool)
  | alloc (iid : Nat)
  | nomem
  | advertise (iid : Nat) (sent : Bool)
  | done (iid : Nat) (o : Outcome)

/-- The steps that take nothing from a FIFO. -/
inductive Act : Chan → Event → ((k : Lane) → List k.Msg) → Chan → Prop
  | start {c : Chan} {data : List U8} {wait : Bool} {tx : Sender} (h : Intents.Step c.tx (.start data wait) tx) :
      Act c (.tx (.start data wait)) (onData []) { c with tx := tx, sent := if data = [] then c.sent ++ [[]] else c.sent }
  | put {c : Chan} {x : Send} {tx : Sender} (h : Intents.Step c.tx (.put x) tx) :
      Act c (.tx (.put x)) (onData [x.piece x.iid])
        { c with tx := tx, sent := if (x.piece x.iid).left = 0 then c.sent ++ [x.data] else c.sent }
  | fail {c : Chan} {x : Send} {tx : Sender} (h : Intents.Step c.tx (.fail x) tx) :
      Act c (.tx (.fail x)) (onData []) { c with tx := tx }
  /-- `qcom_glink_queue_rx_intent_alloc`, on a request of the peer or of the client. -/
  | request {c : Chan} {size : Nat} {reuse : Bool} :
      Act c (.request size reuse) (onData []) { c with rxQueue := c.rxQueue ++ [.alloc size reuse] }
  | wake {c : Chan} {i : Item} {q : List Item} (hidle : c.thread = none) (hqueue : c.rxQueue = i :: q) :
      Act c .wake (onData []) { c with thread := some i, rxQueue := q }
  | callback {c : Chan} {iid : Nat} {it : LIntent} (hthread : c.thread = some (.message iid))
      (hfound : c.liids.load iid = some it) :
      Act c .callback (onData []) { c with handed := c.handed ++ [it.data], held := c.held ++ [iid], thread := none }
  | redo {c : Chan} {iid : Nat} {reuse sent : Bool} (hthread : c.thread = some (.done iid reuse)) :
      Act c (.redo sent) (onControl (if sent then [.rxDone iid reuse] else []))
        { c with liids := release c.liids iid reuse, thread := none }
  /-- `qcom_glink_alloc_intent_data`. -/
  | alloc {c : Chan} {size iid : Nat} {reuse : Bool} (hthread : c.thread = some (.alloc size reuse))
      (hfree : c.liids.load iid = none) :
      Act c (.alloc iid) (onData []) { c with liids := c.liids.store iid ⟨size, reuse, []⟩, fresh := c.fresh ++ [iid], thread := none }
  | nomem {c : Chan} {size : Nat} {reuse : Bool} (hthread : c.thread = some (.alloc size reuse)) :
      Act c .nomem (onData []) { c with rxQueue := .alloc size reuse :: c.rxQueue, thread := none }
  /-- `qcom_glink_advertise_intent`; a failing transmission is not noticed. -/
  | advertise {c : Chan} {iid : Nat} {it : LIntent} {sent : Bool} (hfresh : iid ∈ c.fresh) (hfound : c.liids.load iid = some it) :
      Act c (.advertise iid sent) (onControl (if sent then [.intent it.size iid] else [])) { c with fresh := c.fresh.erase iid }
  /-- `__qcom_glink_rx_done`, of the receive path, the thread or the client. -/
  | done {c : Chan} {iid : Nat} {it : LIntent} {o : Outcome} (hheld : iid ∈ c.held) (hfound : c.liids.load iid = some it) :
      Act c (.done iid o) (onControl (o.control iid it.reuse))
        { c with liids := release c.liids iid it.reuse, held := c.held.erase iid, rxQueue := c.rxQueue ++ o.queue iid it.reuse }

/-- The head of a FIFO is received. -/
inductive Take : Chan → (k : Lane) → k.Msg → Event → Chan → Prop
  | rx {c : Chan} {p : Frag} {iters : Nat} : Take c .data p (.rx iters) (rxData c p iters)
  | rxDone {c : Chan} {iid : Nat} {reuse : Bool} {tx : Sender} (h : Intents.Step c.tx (.rxDone iid reuse) tx) :
      Take c .control (.rxDone iid reuse) (.tx (.rxDone iid reuse)) { c with tx := tx }
  | intent {c : Chan} {size iid : Nat} {tx : Sender} (h : Intents.Step c.tx (.intent size iid) tx) :
      Take c .control (.intent size iid) (.tx (.intent size iid)) { c with tx := tx }

def behaviour : Mux.Behaviour Lane Chan Lane.Msg Event := ⟨Act, Take⟩

/-- A channel that has the FIFOs to itself. -/
abbrev Line := Mux.Alone Lane Chan Lane.Msg

/-- All the channels of an edge, with the FIFOs they share. -/
abbrev Edge := Mux.Shared Nat Lane Chan Lane.Msg

def Edge.initial (cbIrq : Nat → Bool) : Edge := ⟨fun ch => .initial (cbIrq ch), fun _ => []⟩

end Sm8850.Glink.Channel
