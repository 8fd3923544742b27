import Sm8850.Lib.XArray
import Mathlib.Data.BitVec

/-! The QRTR nameservice of net/qrtr/ns.c: its tables, its control message handlers and
the packets they send. -/
namespace Sm8850.Ns

abbrev U32 := BitVec 32

structure SockaddrQrtr where
  sqNode : U32
  sqPort : U32
  deriving DecidableEq, Repr

structure Server where
  service : U32
  inst : U32
  node : U32
  port : U32
  deriving DecidableEq, Repr

structure ServerFilter where
  service : U32
  inst : U32
  ifilter : U32

/-- A registered lookup. The list entry's address `li` tells two lookups with the same
fields apart. -/
structure Lookup where
  li : Nat
  service : U32
  inst : U32
  sq : SockaddrQrtr
  deriving DecidableEq, Repr

structure Node where
  id : U32
  servers : XArray Server

/-- The control packets the nameservice sends. -/
inductive CtrlPkt where
  | hello
  | bye (node : U32)
  | newServer (server : Server)
  | delServer (server : Server)
  | delClient (node port : U32)
  deriving DecidableEq, Repr

/-- A packet that was sent, with the lookup (if any) it was sent through. -/
structure Sent where
  dest : SockaddrQrtr
  pkt : CtrlPkt
  via : Option Nat
  deriving DecidableEq, Repr

structure State where
  localNode : U32
  nodes : XArray Node
  lookups : List Lookup
  nextLi : Nat
  sent : List Sent

/-- What the handling of one message meets outside this file: the results of
`kernel_sendmsg` and of the allocations. -/
structure Env where
  sendmsg : SockaddrQrtr → CtrlPkt → Int
  allocNode : U32 → Bool
  allocServer : Bool
  storeServer : Bool
  allocLookup : Bool

def ENOENT : Int := 2
def ENOMEM : Int := 12
def ENODEV : Int := 19
def EINVAL : Int := 22

def nodeBcast : U32 := 0xffffffff
def portCtrl : U32 := 0xfffffffe

def bcastSq : SockaddrQrtr := ⟨nodeBcast, portCtrl⟩

def init (localNode : U32) : State := ⟨localNode, .empty, [], 0, []⟩

section
variable (env : Env)

def kernelSendmsg (s : State) (dest : SockaddrQrtr) (pkt : CtrlPkt) (via : Option Nat) :
    State × Int :=
  let ret := env.sendmsg dest pkt
  (if 0 ≤ ret then { s with sent := s.sent ++ [⟨dest, pkt, via⟩] } else s, ret)

/-- A node pointer of the source is the index at which `nodes` holds the node. -/
def nodeGet (s : State) (nodeId : U32) : State × Option Node :=
  match s.nodes.load nodeId.toNat with
  | some node => (s, some node)
  | none =>
    if env.allocNode nodeId then
      ({ s with nodes := s.nodes.store nodeId.toNat ⟨nodeId, .empty⟩ }, some ⟨nodeId, .empty⟩)
    else (s, none)

def serverMatch (srv : Server) (f : ServerFilter) : Bool :=
  if f.service ≠ 0 ∧ srv.service ≠ f.service then false
  else
    let ifilter := if f.ifilter = 0 ∧ f.inst ≠ 0 then ~~~(0 : U32) else f.ifilter
    (srv.inst &&& ifilter) == f.inst

def serviceAnnounceNew (s : State) (dest : SockaddrQrtr) (srv : Server) : State × Int :=
  kernelSendmsg env s dest (.newServer srv) none

def serviceAnnounceDel (s : State) (dest : SockaddrQrtr) (srv : Server) : State :=
  (kernelSendmsg env s dest (.delServer srv) none).1

/-- Without a server the packet stays zeroed: the end of a listing. -/
def lookupNotify (s : State) (li : Nat) (dest : SockaddrQrtr) (srv : Option Server)
    (new : Bool) : State :=
  let srv := srv.getD ⟨0, 0, 0, 0⟩
  (kernelSendmsg env s dest (if new then .newServer srv else .delServer srv) (some li)).1

/-- The comparison that both notification loops make before they notify a lookup. -/
def Lookup.wants (lookup : Lookup) (service inst : U32) : Bool :=
  !(lookup.service ≠ 0 ∧ lookup.service ≠ service) && !(lookup.inst ≠ 0 ∧ lookup.inst ≠ inst)

def notifyLookups (s : State) (srv : Server) (new : Bool) : State :=
  s.lookups.foldl (fun s lookup =>
    if lookup.wants srv.service srv.inst then
      lookupNotify env s lookup.li lookup.sq (some srv) new
    else s) s

def announceNode (sq : SockaddrQrtr) : State → List (Nat × Server) → State × Int
  | s, [] => (s, 0)
  | s, (_, srv) :: rest =>
    let (s, ret) := serviceAnnounceNew env s sq srv
    if ret < 0 ∧ ret ≠ -ENODEV then (s, ret) else announceNode sq s rest

def announceNodes (sq : SockaddrQrtr) : State → List (Nat × Node) → State × Int
  | s, [] => (s, 0)
  | s, (_, node) :: rest =>
    if node.id = sq.sqNode then announceNodes sq s rest
    else
      let (s, ret) := announceNode env sq s node.servers.entries
      if ret < 0 then (s, ret) else announceNodes sq s rest

def announceServers (s : State) (sq : SockaddrQrtr) : State × Int :=
  announceNodes env sq s s.nodes.entries

def serverAdd (s : State) (service inst nodeId port : U32) : State × Option Server :=
  if service = 0 ∨ port = 0 then (s, none)
  else if !env.allocServer then (s, none)
  else
    let srv : Server := ⟨service, inst, nodeId, port⟩
    match nodeGet env s nodeId with
    | (s, none) => (s, none)
    | (s, some node) =>
      if !env.storeServer then (s, none)
      else
        let node := { node with servers := node.servers.store port.toNat srv }
        ({ s with nodes := s.nodes.store nodeId.toNat node }, some srv)

def serverDel (s : State) (nodeId port : U32) (bcast : Bool) : State :=
  match s.nodes.load nodeId.toNat with
  | none => s
  | some node =>
    match node.servers.load port.toNat with
    | none => s
    | some srv =>
      let node := { node with servers := node.servers.erase port.toNat }
      let s := { s with nodes := s.nodes.store nodeId.toNat node }
      let s := if srv.node = s.localNode ∧ bcast then serviceAnnounceDel env s bcastSq srv else s
      notifyLookups env s srv false

def sayHello (s : State) (dest : SockaddrQrtr) : State × Int :=
  kernelSendmsg env s dest .hello none

def ctrlCmdHello (s : State) (sq : SockaddrQrtr) : State × Int :=
  let (s, ret) := sayHello env s sq
  if ret < 0 then (s, ret) else announceServers env s sq

/-- Send one packet to each server registered on the local node. -/
def sendLocalServers (s : State) (pkt : CtrlPkt) : State :=
  match nodeGet env s s.localNode with
  | (s, none) => s
  | (s, some node) =>
    node.servers.entries.foldl
      (fun s e => (kernelSendmsg env s ⟨e.2.node, e.2.port⟩ pkt none).1) s

/-- The loop deletes the entry it visits and no other, so it visits the entries the node
has when the loop starts. -/
def ctrlCmdBye (s : State) (sender : SockaddrQrtr) : State × Int :=
  match nodeGet env s sender.sqNode with
  | (s, none) => (s, 0)
  | (s, some node) =>
    let s := node.servers.entries.foldl
      (fun s e => serverDel env s sender.sqNode e.2.port true) s
    (sendLocalServers env s (.bye sender.sqNode), 0)

def ctrlCmdDelClient (s : State) (sender : SockaddrQrtr) (nodeId port : U32) : State × Int :=
  if sender.sqNode ≠ nodeId then (s, -EINVAL)
  else if sender.sqNode = s.localNode ∧ sender.sqPort ≠ port then (s, -EINVAL)
  else
    let lookups := s.lookups.filter (fun l => !(l.sq.sqNode = nodeId ∧ l.sq.sqPort = port))
    let s : State := { s with lookups }
    let s := match nodeGet env s nodeId with
      | (s, none) => s
      | (s, some _) => serverDel env s nodeId port false
    (sendLocalServers env s (.delClient nodeId port), 0)

def ctrlCmdNewServer (s : State) (sender : SockaddrQrtr) (service inst nodeId port : U32) :
    State × Int :=
  let nodeId := if sender.sqNode = s.localNode then sender.sqNode else nodeId
  let port := if sender.sqNode = s.localNode then sender.sqPort else port
  match serverAdd env s service inst nodeId port with
  | (s, none) => (s, -EINVAL)
  | (s, some srv) =>
    if srv.node = s.localNode then
      let (s, ret) := serviceAnnounceNew env s bcastSq srv
      if ret < 0 then (s, ret) else (notifyLookups env s srv true, ret)
    else (notifyLookups env s srv true, 0)

def ctrlCmdDelServer (s : State) (sender : SockaddrQrtr) (_service _inst nodeId port : U32) :
    State × Int :=
  let nodeId := if sender.sqNode = s.localNode then sender.sqNode else nodeId
  let port := if sender.sqNode = s.localNode then sender.sqPort else port
  if sender.sqNode = s.localNode ∧ sender.sqPort ≠ port then (s, -EINVAL)
  else
    match nodeGet env s nodeId with
    | (s, none) => (s, -ENOENT)
    | (s, some _) => (serverDel env s nodeId port true, 0)

/-- All registered servers, in the order the two nested iterations visit them. -/
def State.servers (s : State) : List Server :=
  s.nodes.entries.flatMap (fun e => e.2.servers.entries.map Prod.snd)

def ctrlCmdNewLookup (s : State) (sender : SockaddrQrtr) (service inst : U32) : State × Int :=
  if sender.sqNode ≠ s.localNode then (s, -EINVAL)
  else if !env.allocLookup then (s, -ENOMEM)
  else
    let li := s.nextLi
    let lookup : Lookup := ⟨li, service, inst, sender⟩
    let s : State := { s with lookups := s.lookups ++ [lookup], nextLi := li + 1 }
    let filter : ServerFilter := ⟨service, inst, 0⟩
    let s := s.servers.foldl (fun s srv =>
      if serverMatch srv filter then lookupNotify env s li sender (some srv) true else s) s
    (lookupNotify env s li sender none true, 0)

def ctrlCmdDelLookup (s : State) (sender : SockaddrQrtr) (service inst : U32) : State :=
  { s with lookups := s.lookups.filter (fun l =>
      !(l.sq.sqNode = sender.sqNode ∧ l.sq.sqPort = sender.sqPort ∧ l.service = service ∧
        ¬(l.inst ≠ 0 ∧ l.inst ≠ inst))) }

end

/-- The control messages the worker dispatches on. `other` stands for the commands it
ignores. -/
inductive Msg where
  | hello
  | bye
  | delClient (node port : U32)
  | newServer (service inst node port : U32)
  | delServer (service inst node port : U32)
  | newLookup (service inst : U32)
  | delLookup (service inst : U32)
  | other

structure Event where
  sender : SockaddrQrtr
  msg : Msg
  env : Env

/-- One iteration of the loop in `qrtr_ns_worker`. -/
def worker (s : State) (e : Event) : State :=
  match e.msg with
  | .hello => (ctrlCmdHello e.env s e.sender).1
  | .bye => (ctrlCmdBye e.env s e.sender).1
  | .delClient node port => (ctrlCmdDelClient e.env s e.sender node port).1
  | .newServer service inst node port =>
    (ctrlCmdNewServer e.env s e.sender service inst node port).1
  | .delServer service inst node port =>
    (ctrlCmdDelServer e.env s e.sender service inst node port).1
  | .newLookup service inst => (ctrlCmdNewLookup e.env s e.sender service inst).1
  | .delLookup service inst => ctrlCmdDelLookup s e.sender service inst
  | .other => s

/-- The nameservice as a labelled transition system. -/
def Step (s : State) (e : Event) (t : State) : Prop := t = worker s e

end Sm8850.Ns
