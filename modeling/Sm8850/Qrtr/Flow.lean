import Sm8850.Lib.Path
import Sm8850.Ns.Model

/-! The transmit flow control of net/qrtr/af_qrtr.c: the lock-protected steps of any number
of concurrent send calls on one node, and of the arrival of RESUME_TX. -/
namespace Sm8850.Qrtr

open Sm8850.Ns (U32 SockaddrQrtr ENOMEM)

abbrev U64 := BitVec 64

def txFlowHigh : Nat := 10
def txFlowLow : Nat := 5

def ERESTARTSYS : Int := 512
def EAGAIN : Int := 11
def EPIPE : Int := 32

/-- `struct qrtr_tx_flow`. The wait queue is the set of processes asleep on the flow, and
`epoch` counts the resets of the pending counter. -/
structure Flow where
  pending : Nat
  txFailed : Bool
  waiters : List Nat
  epoch : Nat

def flowInit : Flow := ⟨0, false, [], 0⟩

/-- `(u64)node << 32 | port`, with both operands unsigned. -/
def flowKey (a : SockaddrQrtr) : U64 := a.sqNode.setWidth 64 <<< 32 ||| a.sqPort.setWidth 64

/-- The same expression in `qrtr_tx_flow_failed`, whose parameters are of type int. -/
def flowFailedKey (a : SockaddrQrtr) : U64 :=
  a.sqNode.signExtend 64 <<< 32 ||| a.sqPort.signExtend 64

/-- What `qrtr_node_enqueue` is called with: the destination, the sending socket, whether
the packet is of type DATA and whether the socket may sleep. -/
structure Call where
  dest : SockaddrQrtr
  sk : Nat
  isData : Bool
  timeo : Bool
  deriving DecidableEq

/-- A packet on its way to the endpoint. `epoch` is that of its flow when its confirm_rx
flag was decided, or none if it went past the flow control. -/
structure Msg where
  dest : SockaddrQrtr
  confirmRx : Bool
  epoch : Option Nat
  deriving DecidableEq

/-- Where a send call stands. -/
inductive Pc where
  | idle
  | atFlow (c : Call)
  | asleep (c : Call)
  | woken (c : Call)
  | issued (m : Msg)
  | sent (m : Msg)
  | lost (m : Msg)
  | failed (m : Msg)
  | refused (ret : Int)
  deriving DecidableEq

structure State where
  ep : Bool
  flows : XArray Flow
  pc : Nat → Pc

def init (ep : Bool) : State := ⟨ep, .empty, fun _ => .idle⟩

def State.flow (s : State) (key : U64) : Option Flow := s.flows.load key.toNat

def State.setPc (s : State) (i : Nat) (pc : Pc) : State :=
  { s with pc := Function.update s.pc i pc }

def State.setFlow (s : State) (key : U64) (flow : Flow) : State :=
  { s with flows := s.flows.store key.toNat flow }

/-- The part of `qrtr_tx_wait` under qrtr_tx_lock. -/
def txWaitFlow (s : State) (i : Nat) (c : Call) (alloc : Bool) : State :=
  if !c.isData then s.setPc i (.issued ⟨c.dest, false, none⟩)
  else
    match s.flow (flowKey c.dest) with
    | some _ => s.setPc i (.atFlow c)
    | none =>
      if alloc then (s.setFlow (flowKey c.dest) flowInit).setPc i (.atFlow c)
      else s.setPc i (.issued ⟨c.dest, true, none⟩)

/-- The condition that ends the wait. -/
def mayProceed (ep : Bool) (flow : Flow) : Bool :=
  flow.pending < txFlowHigh || flow.txFailed || !ep

/-- The part of `qrtr_tx_wait` after the wait, under the flow's lock; `ret` is the result
of the wait. -/
def txDecide (ep : Bool) (flow : Flow) (sk : Nat) (ret : Int) (alloc : Bool) : Flow × Int :=
  if ret < 0 then (flow, ret)
  else if !ep then (flow, -EPIPE)
  else if flow.txFailed then ({ flow with txFailed := false }, 1)
  else if ret = 0 ∧ txFlowHigh ≤ flow.pending then
    if sk ∈ flow.waiters then (flow, -EAGAIN)
    else if !alloc then (flow, -ENOMEM)
    else ({ flow with waiters := flow.waiters ++ [sk] }, -EAGAIN)
  else
    ({ flow with pending := flow.pending + 1 },
      if flow.pending + 1 = txFlowLow then 1 else 0)

/-- The call leaves `qrtr_tx_wait`: a negative result ends it, otherwise the packet goes on
with confirm_rx set to the result. -/
def leaveWait (s : State) (i : Nat) (c : Call) (flow : Flow) (ret : Int) (alloc : Bool) :
    State :=
  let (flow, ret) := txDecide s.ep flow c.sk ret alloc
  (s.setFlow (flowKey c.dest) flow).setPc i
    (if ret < 0 then .refused ret else .issued ⟨c.dest, ret ≠ 0, some flow.epoch⟩)

/-- The condition is evaluated while time is left. -/
def checkWait (s : State) (i : Nat) (c : Call) (flow : Flow) (alloc : Bool) : State :=
  if mayProceed s.ep flow then leaveWait s i c flow 1 alloc
  else if c.timeo then s.setPc i (.asleep c)
  else leaveWait s i c flow 0 alloc

/-- The condition is evaluated for the last time, when the wait ends with `ret`. -/
def endWait (s : State) (i : Nat) (c : Call) (flow : Flow) (ret : Int) (alloc : Bool) : State :=
  leaveWait s i c flow (if mayProceed s.ep flow then 1 else ret) alloc

/-- Flows live as long as the node, so the lookup and the update need not be two steps. -/
def txFlowFailed (s : State) (dest : SockaddrQrtr) : State :=
  match s.flow (flowFailedKey dest) with
  | none => s
  | some flow => s.setFlow (flowFailedKey dest) { flow with txFailed := true }

/-- `wake_up_interruptible_all` on the flow with this key. -/
def wakeUp (key : U64) : Pc → Pc
  | .asleep c => if flowKey c.dest = key then .woken c else .asleep c
  | pc => pc

def txResume (s : State) (src : SockaddrQrtr) : State :=
  match s.flow (flowKey src) with
  | none => s
  | some flow =>
    let s := s.setFlow (flowKey src) { flow with pending := 0, waiters := [], epoch := flow.epoch + 1 }
    { s with pc := fun i => wakeUp (flowKey src) (s.pc i) }

inductive Action where
  | call (i : Nat) (c : Call) (alloc : Bool)
  | forward (i : Nat) (dest : SockaddrQrtr) (confirmRx : Bool)
  | check (i : Nat) (alloc : Bool)
  | timeout (i : Nat) (alloc : Bool)
  | signal (i : Nat) (alloc : Bool)
  | xmit (i : Nat) (ok : Bool)
  | flowFailed (i : Nat)
  | resume (src : SockaddrQrtr)

/-- The flow a call has found and the call itself, if it is in one of the given places. -/
def State.waiting (s : State) (i : Nat) : Option (Call × Flow) :=
  match s.pc i with
  | .atFlow c | .asleep c | .woken c => (s.flow (flowKey c.dest)).map (fun flow => (c, flow))
  | _ => none

/-- One lock-protected step; none if the action is not possible. A sleeping call evaluates
the condition again when it is woken, when its time is over or when a signal arrives. -/
def step (s : State) : Action → Option State
  | .call i c alloc => if s.pc i = .idle then some (txWaitFlow s i c alloc) else none
  | .forward i dest confirmRx =>
    if s.pc i = .idle then some (s.setPc i (.issued ⟨dest, confirmRx, none⟩)) else none
  | .check i alloc =>
    match s.pc i, s.waiting i with
    | .asleep _, _ => none
    | _, some (c, flow) => some (checkWait s i c flow alloc)
    | _, none => none
  | .timeout i alloc =>
    match s.pc i, s.waiting i with
    | .atFlow _, _ => none
    | _, some (c, flow) => some (endWait s i c flow 0 alloc)
    | _, none => none
  | .signal i alloc =>
    match s.waiting i with
    | some (c, flow) => if c.timeo then some (endWait s i c flow (-ERESTARTSYS) alloc) else none
    | none => none
  | .xmit i ok =>
    match s.pc i with
    | .issued m =>
      if ok then if s.ep then some (s.setPc i (.sent m)) else none
      else some (s.setPc i (if m.confirmRx then .lost m else .failed m))
    | _ => none
  | .flowFailed i =>
    match s.pc i with
    | .lost m => some ((txFlowFailed s m.dest).setPc i (.failed m))
    | _ => none
  | .resume src => some (txResume s src)

def Step (s : State) (a : Action) (t : State) : Prop := step s a = some t

end Sm8850.Qrtr
