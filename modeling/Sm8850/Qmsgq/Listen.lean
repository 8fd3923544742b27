import Mathlib.Algebra.Group.Nat.Defs
import Mathlib.Data.List.Basic

/-! A connection request that arrives at a listening socket (qmsgq_transport.c). -/
namespace Sm8850.Qmsgq

structure Addr where
  cid : Nat
  port : Nat
  deriving DecidableEq

/-- A socket: its addresses and the endpoint it is assigned to. -/
structure Sock where
  localAddr : Addr
  remoteAddr : Addr
  ep : Option Nat
  deriving DecidableEq

/-- The listening socket with its backlog and accept queue, and the table of connected sockets. -/
structure Listener where
  sock : Sock
  ackBacklog : Nat
  maxAckBacklog : Nat
  acceptQueue : List Sock
  connected : List Sock

/-- What the calls made on the way return. -/
structure Env where
  create : Bool
  registeredEp : Option Nat
  moduleGet : Bool
  seqpacketAllow : Bool
  init : Int
  build : Bool
  send : Bool

/-- What is done: a response is sent, or something is done to the socket `sk_child` points to, if it was set. -/
inductive Act where
  | respond (dst : Addr) (status : Nat)
  | lock (child : Option Sock)
  | release (child : Option Sock)
  | put (child : Option Sock)
  deriving DecidableEq

/-- `-ENOMEM` as a `u16`. -/
def enomem : Nat := 2 ^ 16 - 12

/-- `qmsgq_assign_ep`, with no result for an error. -/
def assignEp (env : Env) (x : Sock) : Option Sock :=
  match env.registeredEp with
  | none => none
  | some ep =>
    if x.ep = some ep then some x
    else if env.moduleGet ∧ env.seqpacketAllow ∧ env.init = 0 then some { x with ep := some ep } else none

/-- `qmsgq_transport_seqpacket_send_op_pkt`, and whether it returns 0. -/
def sendOpPkt (env : Env) (rsp : Sock) (status : Nat) : List Act × Bool :=
  if rsp.ep = none then ([], false) else ([.respond rsp.remoteAddr status], env.send)

/-- From the label `resp` on, and whether the connection is established. -/
def answer (env : Env) (rsp : Sock) (child : Option Sock) (status : Nat) : List Act × Bool :=
  if env.build ∧ (sendOpPkt env rsp status).2 ∧ status = 0 then ((sendOpPkt env rsp status).1 ++ [.release child], true)
  else ((if env.build then (sendOpPkt env rsp status).1 else []) ++ [.release child, .put child], false)

/-- `qmsgq_transport_seqpacket_recv_listen` for a connection request. -/
def recvListen (env : Env) (l : Listener) (src dst : Addr) : Listener × List Act × Bool :=
  if l.maxAckBacklog < l.ackBacklog then (l, answer env l.sock none enomem)
  else if env.create = false then (l, answer env l.sock none enomem)
  else
    let child : Sock := ⟨dst, src, none⟩
    match assignEp env child with
    | none =>
      let r := answer env l.sock (some child) enomem
      ({ l with ackBacklog := l.ackBacklog + 1 }, .lock (some child) :: r.1, r.2)
    | some child =>
      let r := answer env child (some child) 0
      (⟨l.sock, l.ackBacklog + 1, l.maxAckBacklog, l.acceptQueue ++ [child], child :: l.connected⟩,
        .lock (some child) :: r.1, r.2)

def Act.response : Act → Option Addr
  | .respond dst _ => some dst
  | _ => none

/-- The child an act is on has been created. -/
def Act.OnChild : Act → Prop
  | .respond .. => True
  | .lock child | .release child | .put child => child ≠ none

/-- One response to the peer, no act on a child that is not there, and nothing left of a failure. -/
structure Handled (l : Listener) (src : Addr) (r : Listener × List Act × Bool) : Prop where
  answered : r.2.1.filterMap Act.response = [src]
  created : ∀ a ∈ r.2.1, a.OnChild
  unwound : r.2.2 = false → r.1 = l

/-- Nothing fails on the way. -/
def Succeeds (env : Env) (l : Listener) (src dst : Addr) : Prop :=
  l.ackBacklog ≤ l.maxAckBacklog ∧ env.create = true ∧ assignEp env ⟨dst, src, none⟩ ≠ none ∧ env.build = true ∧
    env.send = true

variable {env : Env} {l : Listener} {src dst : Addr} {x : Sock} {child : Option Sock} {status : Nat}

/-- Without success the socket `sk_child` points to is released. -/
theorem release_mem : .release child ∈ (answer env x child status).1 := by
  unfold answer
  split <;> simp

theorem answer_enomem : (answer env x child enomem).2 = false := by simp [answer, enomem]

theorem assignEp_some {y : Sock} (h : assignEp env x = some y) : y.ep ≠ none ∧ y.remoteAddr = x.remoteAddr := by
  unfold assignEp at h
  split at h
  · cases h
  · split_ifs at h <;> cases h <;> simp_all

/-- With a child that has an endpoint, only a failure to respond is left to go wrong. -/
theorem answer_child (env : Env) (hep : x.ep ≠ none) (hremote : x.remoteAddr = src) :
    ((answer env x (some x) 0).1.filterMap Act.response = [src] ∧ (answer env x (some x) 0).2 ↔
      env.build ∧ env.send) ∧ ∀ a ∈ (answer env x (some x) 0).1, a.OnChild := by
  cases hb : env.build <;> cases hs : env.send <;> simp [answer, sendOpPkt, hep, hb, hs, hremote, Act.response, Act.OnChild]

/-- A connection request is handled as it should be exactly if nothing fails. -/
theorem recvListen_handled_iff (env : Env) (l : Listener) (src dst : Addr) :
    Handled l src (recvListen env l src dst) ↔ Succeeds env l src dst := by
  unfold recvListen Succeeds
  split_ifs with hfull hcreate
  · exact iff_of_false (fun h => h.created _ release_mem rfl) (fun h => by omega)
  · exact iff_of_false (fun h => h.created _ release_mem rfl) (fun h => by simp [hcreate] at h)
  · dsimp only
    cases hep : assignEp env ⟨dst, src, none⟩ with
    | none =>
      refine iff_of_false (fun h => ?_) (fun h => h.2.2.1 rfl)
      have hkept := congrArg Listener.ackBacklog (h.unwound answer_enomem)
      simp at hkept
    | some child =>
      obtain ⟨hchild, hremote⟩ := assignEp_some hep
      obtain ⟨hiff, hon⟩ := answer_child env hchild hremote
      refine ⟨fun h => ⟨by omega, by simpa using hcreate, by simp, hiff.mp ⟨h.answered, ?_⟩⟩, ?_⟩
      · by_contra hfail
        have hkept := congrArg Listener.ackBacklog (h.unwound (by simpa using hfail))
        simp at hkept
      · rintro ⟨-, -, -, hok⟩
        obtain ⟨hans, hdone⟩ := hiff.mpr hok
        refine ⟨hans, ?_, fun hfail => by simp [hdone] at hfail⟩
        simpa [Act.OnChild] using hon

/-- With a full accept queue, the response goes to the address the listener itself is connected to, and a socket
that was never created is unlocked and released. -/
theorem full_queue_releases_nothing :
    (recvListen ⟨true, some 0, true, true, 0, true, true⟩ ⟨⟨⟨2, 7⟩, ⟨0, 0⟩, some 0⟩, 1, 0, [], []⟩ ⟨3, 9⟩ ⟨2, 7⟩).2.1 =
      [.respond ⟨0, 0⟩ enomem, .release none, .put none] := by
  decide

end Sm8850.Qmsgq
