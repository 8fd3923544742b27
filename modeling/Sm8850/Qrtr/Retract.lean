import Sm8850.Qrtr.SendPath

/-! Which nodes learn that a socket of net/qrtr/af_qrtr.c is closed: the state word that
`qrtr_sendmsg` keeps and `qrtr_send_del_client` reads. -/
namespace Sm8850.Qrtr.Retract
open List Option

open Sm8850.Ns (U32 SockaddrQrtr nodeBcast)

def typeDelClient : Nat := 6

/-- QRTR_EP_NID_AUTO. -/
def nidAuto : U32 := 0xffffffff

/-- QRTR_STATE_MULTI and QRTR_STATE_INIT, as the int that they are kept in. -/
def stateMulti : U32 := -2
def stateInit : U32 := -1

/-- The nodes: the tree by node id, the id and the net id of each node, the list of endpoints and
whether HELLO was sent. A node in the tree has an endpoint and an id. -/
structure World where
  lookup : U32 → Option Nat
  nid : Nat → U32
  netId : Nat → U32
  epts : List Nat
  hello : Nat → Bool
  registered : ∀ r n, lookup r = some n → n ∈ epts ∧ nid n ≠ nidAuto

/-- `struct qrtr_sock` without its state: its address, whether it is not bound, and its peer. -/
structure Local where
  us : SockaddrQrtr
  zapped : Bool
  peer : Option SockaddrQrtr

open Local

structure Sock where
  loc : Local
  state : U32

/-- A call of `qrtr_sendmsg` and what it meets: the nodes, the result of an automatic bind, the
allocations, and what becomes of a packet that `qrtr_node_enqueue` lets pass. -/
structure SendCall where
  world : World
  localNid : U32
  valid : Bool
  name : Option SockaddrQrtr
  len : Nat
  autobind : Option U32
  alloc : Bool
  copied : Bool
  cmd : Nat
  server : U32
  copies : Nat
  transmitted : Nat → Bool

inductive Event
  | connect (addr : SockaddrQrtr) (autobind : Option U32)
  | send (c : SendCall)

section

/-- The check of `hello_sent` in `qrtr_node_enqueue`. -/
def World.passes (w : World) (type n : Nat) : Bool := w.hello n != (type == typeHello)

/-- The nodes that `qrtr_bcast_enqueue` goes through, until a copy fails. -/
def bcastNodes (w : World) (type : Nat) : (copies : Nat) → List Nat → List Nat
  | _, [] => []
  | copies, n :: ns =>
    if w.nid n = nidAuto ∧ type ≠ typeHello then bcastNodes w type copies ns
    else
      match copies with
      | 0 => []
      | copies + 1 => n :: bcastNodes w type copies ns

def mustForward (w : World) (src dst : Option Nat) (type : Nat) : Bool :=
  match src, dst with
  | none, _ => true
  | some _, none => false
  | some src, some dst =>
    if type = typeHello ∨ type = typeResumeTx then false
    else if dst = src ∨ w.nid dst = nidAuto then false
    else 1 < (w.netId dst - w.netId src).toInt.natAbs

end

section

def Local.bind (l : Local) (autobind : Option U32) : Option Local :=
  if l.zapped then autobind.map (fun port => { l with us := { l.us with sqPort := port }, zapped := false })
  else some l

/-- The checks at the start of `qrtr_sendmsg`: the socket, bound now, and the destination. -/
def target (c : SendCall) (l : Local) : Option (Local × SockaddrQrtr) :=
  if !c.valid ∨ 65535 < c.len then none
  else
    match c.name with
    | some addr => (l.bind c.autobind).map (fun l => (l, addr))
    | none => l.peer.map (fun addr => (l, addr))

inductive Route
  | bcast
  | loc
  | remote (n : Nat)

def route (c : SendCall) (l : Local) (addr : SockaddrQrtr) : Option Route :=
  if addr.sqNode = nodeBcast then
    if addr.sqPort ≠ portCtrl ∧ c.localNid ≠ nodeBcast then none else some .bcast
  else if addr.sqNode = l.us.sqNode then some .loc
  else (c.world.lookup addr.sqNode).map .remote

def Route.node : Route → Option Nat
  | .remote n => some n
  | _ => none

/-- A node is noted in the state word. -/
def noteNode (state nid : U32) : U32 :=
  if stateInit.slt state ∧ state ≠ nid then stateMulti
  else if state = stateInit then nid
  else state

/-- The type of the packet; control messages carry it. -/
def packetType (c : SendCall) (l : Local) (addr : SockaddrQrtr) : Option Nat :=
  if !c.alloc ∨ !c.copied then none
  else if l.us.sqPort = portCtrl ∨ addr.sqPort = portCtrl then
    if c.len < 4 then none else some c.cmd
  else some typeData

/-- The remote node ids that the packet is sent to. -/
def enqueue (c : SendCall) (addr : SockaddrQrtr) (type : Nat) : Route → List U32
  | .bcast => ((bcastNodes c.world type c.copies c.world.epts).filter
      (fun n => c.world.passes type n && c.transmitted n)).map c.world.nid
  | .loc => []
  | .remote n => if c.world.passes type n && c.transmitted n then [addr.sqNode] else []

/-- `qrtr_sendmsg`, with the remote node ids that the message is sent to. -/
def sendmsg (c : SendCall) (sk : Sock) : Sock × List U32 :=
  match target c sk.loc with
  | none => (sk, [])
  | some (l, addr) =>
    match route c l addr with
    | none => (⟨l, sk.state⟩, [])
    | some r =>
      let state :=
        match r.node with
        | some n => noteNode sk.state (c.world.nid n)
        | none => sk.state
      match packetType c l addr with
      | none => (⟨l, state⟩, [])
      | some type =>
        if addr.sqPort = portCtrl ∧ type = typeNewServer then
          if mustForward c.world (c.world.lookup c.server) r.node type then
            (⟨l, stateMulti⟩, enqueue c addr type r)
          else (⟨l, stateMulti⟩, [])
        else (⟨l, state⟩, enqueue c addr type r)

/-- `qrtr_connect` drops the peer before it binds. -/
def Local.connect (l : Local) (addr : SockaddrQrtr) (autobind : Option U32) : Local :=
  match ({ l with peer := none } : Local).bind autobind with
  | none => { l with peer := none }
  | some l => { l with peer := some addr }

def Event.apply (ev : Event) (sk : Sock) : Sock × List U32 :=
  match ev with
  | .connect addr autobind => (⟨sk.loc.connect addr autobind, sk.state⟩, [])
  | .send c => sendmsg c sk

/-- A history, with all the remote node ids that a message was sent to. -/
def history : Sock → List Event → Sock × List U32
  | sk, [] => (sk, [])
  | sk, ev :: evs =>
    let r := ev.apply sk
    let rs := history r.1 evs
    (rs.1, r.2 ++ rs.2)

end

section

/-- What the release of a socket meets: the nodes and the allocations. -/
structure ReleaseEnv where
  world : World
  alloc : Bool
  clone : Bool
  copies : Nat

/-- A DEL_CLIENT for `client` that goes to the endpoint of `node`. -/
structure DelClient where
  node : Nat
  client : SockaddrQrtr
  deriving DecidableEq

def sendDelClient (e : ReleaseEnv) (w : World) (sk : Sock) : List DelClient :=
  let nodes :=
    if !e.alloc then []
    else if sk.state = stateMulti then bcastNodes w typeDelClient e.copies w.epts
    else if stateInit.slt sk.state then
      match w.lookup sk.state with
      | none => []
      | some n => if e.clone then [n] else []
    else []
  (nodes.filter (w.passes typeDelClient)).map (fun n => ⟨n, sk.loc.us⟩)

/-- `qrtr_release`; with the control socket all nodes forget their HELLO. -/
def release (e : ReleaseEnv) (sk : Sock) : List DelClient :=
  let w := if sk.loc.us.sqPort = portCtrl then { e.world with hello := fun _ => false } else e.world
  if sk.loc.zapped then [] else sendDelClient e w sk

/-- Every remote node that a message was sent to, and that can still be reached, gets a
DEL_CLIENT for the socket. -/
def Retracted (e : ReleaseEnv) (r : Sock × List U32) : Prop :=
  ∀ id ∈ r.2, ∀ n, e.world.lookup id = some n → e.world.hello n = true →
    ⟨n, r.1.loc.us⟩ ∈ release e r.1

end

section

/-- What a call leaves in the state word: a node, or the announcement of a server. -/
inductive Mark
  | node (nid : U32)
  | announce
  deriving DecidableEq

def note (state : U32) : Mark → U32
  | .node nid => noteNode state nid
  | .announce => stateMulti

/-- The marks of a call: the node of a unicast that was found, and a NEW_SERVER to a control
port. -/
def Event.marks (ev : Event) (l : Local) : List Mark :=
  match ev with
  | .connect _ _ => []
  | .send c =>
    match target c l with
    | none => []
    | some (l, addr) =>
      match route c l addr with
      | none => []
      | some r => (r.node.map (fun n => Mark.node (c.world.nid n))).toList ++
          if addr.sqPort = portCtrl ∧ packetType c l addr = some typeNewServer then [.announce] else []

/-- The address of the socket after a call. -/
def Event.loc (ev : Event) (l : Local) : Local :=
  match ev with
  | .connect addr autobind => l.connect addr autobind
  | .send c => ((target c l).map Prod.fst).getD l

def marks : Local → List Event → List Mark
  | _, [] => []
  | l, ev :: evs => ev.marks l ++ marks (ev.loc l) evs

def finalLoc : Local → List Event → Local
  | l, [] => l
  | l, ev :: evs => finalLoc (ev.loc l) evs

/-- The id of the first node that was noted. -/
def firstNode : List Mark → Option U32
  | [] => none
  | .node nid :: _ => some nid
  | .announce :: ms => firstNode ms

/-- The socket has announced a server, or its first node has an id below 2^31 and another one was
noted, or its first node has the id 0xfffffffe. -/
def Widened (ms : List Mark) : Prop :=
  .announce ∈ ms ∨ ∃ nid, firstNode ms = some nid ∧
    (nid = stateMulti ∨ (nid.toNat < 2 ^ 31 ∧ ∃ nid', .node nid' ∈ ms ∧ nid' ≠ nid))

variable {state nid : U32} {ms : List Mark}

theorem slt_init : stateInit.slt state ↔ state.toNat < 2 ^ 31 := by
  have hinit : stateInit.toInt = -1 := by decide
  rw [BitVec.slt_iff_toInt_lt, hinit, BitVec.toInt_eq_toNat_cond]
  have := state.isLt
  split <;> omega

theorem foldl_multi (ms : List Mark) : ms.foldl note stateMulti = stateMulti := by
  induction ms with
  | nil => rfl
  | cons m ms ih =>
    have hm : note stateMulti m = stateMulti := by
      cases m with
      | announce => rfl
      | node nid =>
        have hneg : stateInit.slt stateMulti = false := by decide
        have hne : stateMulti ≠ stateInit := by decide
        simp [note, noteNode, hneg, hne]
    rw [foldl_cons, hm, ih]

/-- Behind its first node the state word is that node, or says that there are several. -/
theorem foldl_noted (hne : nid ≠ stateInit) (ms : List Mark) :
    (.announce ∈ ms ∨ (nid.toNat < 2 ^ 31 ∧ ∃ nid', .node nid' ∈ ms ∧ nid' ≠ nid) → ms.foldl note nid = stateMulti) ∧
    (¬ (.announce ∈ ms ∨ (nid.toNat < 2 ^ 31 ∧ ∃ nid', .node nid' ∈ ms ∧ nid' ≠ nid)) → ms.foldl note nid = nid) := by
  induction ms with
  | nil => simp
  | cons m ms ih =>
    rw [foldl_cons]
    cases m with
    | announce =>
      refine ⟨fun _ => foldl_multi ms, fun h => absurd (.inl (by simp)) h⟩
    | node nid' =>
      by_cases hwide : nid.toNat < 2 ^ 31 ∧ nid' ≠ nid
      · have hstep : note nid (.node nid') = stateMulti := by
          rw [note, noteNode, if_pos ⟨slt_init.mpr hwide.1, hwide.2.symm⟩]
        rw [hstep]
        refine ⟨fun _ => foldl_multi ms, fun h => ?_⟩
        exact absurd (.inr ⟨hwide.1, nid', by simp, hwide.2⟩) h
      · have hstep : note nid (.node nid') = nid := by
          rw [note, noteNode, if_neg (fun h => hwide ⟨slt_init.mp h.1, h.2.symm⟩), if_neg hne]
        rw [hstep]
        have hiff : (.announce ∈ Mark.node nid' :: ms ∨
              (nid.toNat < 2 ^ 31 ∧ ∃ q, .node q ∈ Mark.node nid' :: ms ∧ q ≠ nid)) ↔
            (.announce ∈ ms ∨ (nid.toNat < 2 ^ 31 ∧ ∃ q, .node q ∈ ms ∧ q ≠ nid)) := by
          constructor
          · rintro (h | ⟨hlt, q, hq, hqne⟩)
            · exact .inl (by simpa using h)
            · rcases mem_cons.mp hq with heq | hq
              · cases heq
                exact absurd ⟨hlt, hqne⟩ hwide
              · exact .inr ⟨hlt, q, hq, hqne⟩
          · rintro (h | ⟨hlt, q, hq, hqne⟩)
            · exact .inl (mem_cons_of_mem _ h)
            · exact .inr ⟨hlt, q, mem_cons_of_mem _ hq, hqne⟩
        rw [hiff]
        exact ih

/-- What the state word says after the marks. -/
theorem foldl_note (ms : List Mark) (hauto : ∀ nid, .node nid ∈ ms → nid ≠ nidAuto) :
    (Widened ms → ms.foldl note stateInit = stateMulti) ∧
    (¬ Widened ms → ms.foldl note stateInit = (firstNode ms).getD stateInit) := by
  cases ms with
  | nil => simp [Widened, firstNode]
  | cons m ms =>
    cases m with
    | announce =>
      refine ⟨fun _ => foldl_multi ms, fun h => absurd (.inl (by simp)) h⟩
    | node nid =>
      have hne : nid ≠ stateInit := hauto nid (by simp)
      have hstep : note stateInit (.node nid) = nid := by
        have hneg : stateInit.slt stateInit = false := by decide
        simp [note, noteNode, hneg]
      rw [foldl_cons, hstep, firstNode, getD_some]
      obtain ⟨hwide, hone⟩ := foldl_noted hne ms
      have hrest : (∃ nid', .node nid' ∈ Mark.node nid :: ms ∧ nid' ≠ nid) ↔
          ∃ nid', .node nid' ∈ ms ∧ nid' ≠ nid := by
        constructor
        · rintro ⟨q, hq, hqne⟩
          rcases mem_cons.mp hq with heq | hq
          · cases heq
            exact absurd rfl hqne
          · exact ⟨q, hq, hqne⟩
        · rintro ⟨q, hq, hqne⟩
          exact ⟨q, mem_cons_of_mem _ hq, hqne⟩
      have hiff : Widened (.node nid :: ms) ↔ nid = stateMulti ∨
          (.announce ∈ ms ∨ (nid.toNat < 2 ^ 31 ∧ ∃ nid', .node nid' ∈ ms ∧ nid' ≠ nid)) := by
        unfold Widened
        have hann : .announce ∈ Mark.node nid :: ms ↔ .announce ∈ ms := by simp
        simp only [firstNode, some.injEq, exists_eq_left', hrest, hann]
        exact or_left_comm
      rw [hiff]
      constructor
      · rintro (rfl | h)
        · exact foldl_multi ms
        · exact hwide h
      · intro h
        exact hone (fun h' => h (.inr h'))

end

section
variable {sk : Sock} {ev : Event} {evs : List Event} {l : Local} {c : SendCall} {e : ReleaseEnv} {n : Nat}
  {id : U32}

/-- A call changes the address and notes its marks. -/
theorem apply_sock (ev : Event) (sk : Sock) :
    (ev.apply sk).1 = ⟨ev.loc sk.loc, (ev.marks sk.loc).foldl note sk.state⟩ := by
  cases ev with
  | connect addr autobind => rfl
  | send c =>
    simp only [Event.apply, sendmsg, Event.loc, Event.marks]
    cases htarget : target c sk.loc with
    | none => rfl
    | some r =>
      obtain ⟨l, addr⟩ := r
      simp only [map_some, getD_some]
      cases hroute : route c l addr with
      | none => rfl
      | some r =>
        have hstate : (match r.node with
            | some n => noteNode sk.state (c.world.nid n)
            | none => sk.state) =
            ((r.node.map (fun n => Mark.node (c.world.nid n))).toList).foldl note sk.state := by
          cases r.node with
          | none => rfl
          | some n => rfl
        simp only [foldl_append, hstate]
        cases htype : packetType c l addr with
        | none => simp
        | some type =>
          by_cases hann : addr.sqPort = portCtrl ∧ type = typeNewServer
          · have hmarks : addr.sqPort = portCtrl ∧ some type = some typeNewServer :=
              ⟨hann.1, congrArg some hann.2⟩
            simp only [if_pos hann, if_pos hmarks]
            split <;> rfl
          · have hmarks : ¬ (addr.sqPort = portCtrl ∧ some type = some typeNewServer) :=
              fun h => hann ⟨h.1, some.inj h.2⟩
            simp only [if_neg hann, if_neg hmarks]
            rfl

theorem history_sock (sk : Sock) (evs : List Event) :
    (history sk evs).1 = ⟨finalLoc sk.loc evs, (marks sk.loc evs).foldl note sk.state⟩ := by
  induction evs generalizing sk with
  | nil => rfl
  | cons ev evs ih =>
    show (history (ev.apply sk).1 evs).1 = _
    rw [ih, apply_sock, finalLoc, marks, foldl_append]

/-- No mark has the id of a node that has none. -/
theorem marks_notAuto {nid : U32} (h : .node nid ∈ marks l evs) : nid ≠ nidAuto := by
  induction evs generalizing l with
  | nil => cases h
  | cons ev evs ih =>
    rcases mem_append.mp h with h | h
    · cases ev with
      | connect addr autobind => cases h
      | send c =>
        simp only [Event.marks] at h
        split at h
        · cases h
        split at h
        · cases h
        · rename_i l' addr _ r hroute
          rcases mem_append.mp h with h | h
          · cases r with
            | bcast => cases h
            | loc => cases h
            | remote m =>
              cases mem_singleton.mp h
              unfold route at hroute
              split at hroute
              · split at hroute <;> cases hroute
              split at hroute
              · cases hroute
              · obtain ⟨k, hk, heq⟩ := map_eq_some_iff.mp hroute
                cases heq
                exact (c.world.registered _ _ hk).2
          · split at h
            · cases mem_singleton.mp h
            · cases h
    · exact ih h

/-- A connected socket is bound. -/
def Local.Ok (l : Local) : Prop := l.peer.isSome = true → l.zapped = false

theorem Local.bind_bound {l' : Local} {autobind : Option U32} (h : l.bind autobind = some l') : l'.zapped = false := by
  unfold bind at h
  split at h
  · obtain ⟨port, -, rfl⟩ := map_eq_some_iff.mp h
    rfl
  · rename_i hz
    cases h
    simpa using hz

theorem target_bound (hl : l.Ok) {l' : Local} {addr : SockaddrQrtr} (h : target c l = some (l', addr)) :
    l'.zapped = false := by
  unfold target at h
  split at h
  · cases h
  split at h
  · obtain ⟨l'', hbind, heq⟩ := map_eq_some_iff.mp h
    cases heq
    exact bind_bound hbind
  · obtain ⟨addr', hpeer, heq⟩ := map_eq_some_iff.mp h
    cases heq
    exact hl (by simp [hpeer])

theorem loc_ok (hl : l.Ok) (ev : Event) : (ev.loc l).Ok := by
  cases ev with
  | connect addr autobind =>
    simp only [Event.loc, connect]
    split
    · intro h
      cases h
    · rename_i l' hbind
      intro _
      show l'.zapped = false
      exact bind_bound hbind
  | send c =>
    simp only [Event.loc]
    cases htarget : target c l with
    | none => exact hl
    | some r => exact fun _ => target_bound hl htarget

theorem loc_bound (hl : l.Ok) (hb : l.zapped = false) (ev : Event) : (ev.loc l).zapped = false := by
  cases ev with
  | connect addr autobind =>
    simp only [Event.loc, connect]
    split
    · exact hb
    · rename_i l' hbind
      show l'.zapped = false
      exact bind_bound hbind
  | send c =>
    simp only [Event.loc]
    cases htarget : target c l with
    | none => exact hb
    | some r => exact target_bound hl htarget

theorem finalLoc_bound (hl : l.Ok) (hb : l.zapped = false) : (finalLoc l evs).zapped = false := by
  induction evs generalizing l with
  | nil => exact hb
  | cons ev evs ih => exact ih (loc_ok hl ev) (loc_bound hl hb ev)

/-- A socket that has sent a message is bound. -/
theorem history_bound (hl : sk.loc.Ok) (h : id ∈ (history sk evs).2) : (finalLoc sk.loc evs).zapped = false := by
  induction evs generalizing sk with
  | nil => cases h
  | cons ev evs ih =>
    have hloc : (ev.apply sk).1.loc = ev.loc sk.loc := by rw [apply_sock]
    rcases mem_append.mp (show id ∈ (ev.apply sk).2 ++ (history (ev.apply sk).1 evs).2 from h) with h | h
    · refine finalLoc_bound (l := ev.loc sk.loc) (loc_ok hl ev) ?_
      cases ev with
      | connect addr autobind => cases h
      | send c =>
        simp only [Event.apply, sendmsg] at h
        simp only [Event.loc]
        cases htarget : target c sk.loc with
        | none =>
          rw [htarget] at h
          cases h
        | some r => exact target_bound hl htarget
    · have hrest := @ih (ev.apply sk).1 (by rw [hloc]; exact loc_ok hl ev) h
      rwa [hloc] at hrest

end

section
variable {e : ReleaseEnv} {l : Local} {evs : List Event} {n : Nat}

/-- The nodes that a broadcast goes to. -/
def World.eligible (w : World) : List Nat := w.epts.filter (fun n => w.nid n ≠ nidAuto)

theorem bcastNodes_eq (w : World) {type : Nat} (htype : type ≠ typeHello) (copies : Nat) (ns : List Nat) :
    bcastNodes w type copies ns = (ns.filter (fun n => w.nid n ≠ nidAuto)).take copies := by
  induction ns generalizing copies with
  | nil => simp [bcastNodes]
  | cons n ns ih =>
    rw [bcastNodes.eq_def]
    dsimp only
    by_cases hauto : w.nid n = nidAuto
    · rw [if_pos ⟨hauto, htype⟩, ih, filter_cons_of_neg (by simp [hauto])]
    · rw [if_neg (fun h => hauto h.1), filter_cons_of_pos (by simp [hauto])]
      cases copies with
      | zero => rfl
      | succ copies => rw [take_succ_cons, ← ih]

/-- The node is told: the socket is not the control socket, there are buffers, and either the
DEL_CLIENT is broadcast and gets there, or it goes to the socket's first node, which is this one and
has an id below 2^31. -/
def Told (e : ReleaseEnv) (l : Local) (evs : List Event) (n : Nat) : Prop :=
  e.alloc = true ∧ (finalLoc l evs).us.sqPort ≠ portCtrl ∧
    ((Widened (marks l evs) ∧ n ∈ e.world.eligible.take e.copies) ∨
      (¬ Widened (marks l evs) ∧ e.clone = true ∧ ∃ nid, firstNode (marks l evs) = some nid ∧
        nid.toNat < 2 ^ 31 ∧ e.world.lookup nid = some n))

theorem mem_sendDelClient (e : ReleaseEnv) {w : World} (sk : Sock) (hello : w.hello n) :
    ⟨n, sk.loc.us⟩ ∈ sendDelClient e w sk ↔ e.alloc ∧ ((sk.state = stateMulti ∧ n ∈ w.eligible.take e.copies) ∨
        (sk.state ≠ stateMulti ∧ sk.state.toNat < 2 ^ 31 ∧ e.clone ∧ w.lookup sk.state = some n)) := by
  have hpass : w.passes typeDelClient n := by
    rw [World.passes, hello]
    decide
  have hmem : ∀ nodes : List Nat, (⟨n, sk.loc.us⟩ : DelClient) ∈
      (nodes.filter (w.passes typeDelClient)).map (fun n => ⟨n, sk.loc.us⟩) ↔ n ∈ nodes := by
    intro nodes
    simp [hpass]
  rw [sendDelClient, hmem]
  cases halloc : e.alloc with
  | false => simp
  | true =>
    simp only [Bool.not_true, Bool.false_eq_true, if_false, true_and]
    by_cases hmulti : sk.state = stateMulti
    · rw [if_pos hmulti, bcastNodes_eq w (by decide)]
      simp [hmulti, World.eligible]
    · rw [if_neg hmulti]
      by_cases hlt : stateInit.slt sk.state
      · have hnat := slt_init.mp hlt
        rw [if_pos hlt]
        cases hlook : w.lookup sk.state with
        | none => simp [hmulti]
        | some m =>
          cases hclone : e.clone with
          | false => simp [hmulti]
          | true =>
            simp only [if_true, mem_singleton, hmulti, false_and, false_or, not_false_eq_true, true_and,
              some.injEq, hnat, ne_eq]
            exact eq_comm
      · rw [if_neg hlt]
        simp only [not_mem_nil, hmulti, false_and, false_or, false_iff]
        exact fun h => hlt (slt_init.mpr h.2.1)

/-- Which nodes the release of a socket tells. -/
theorem mem_release_iff (hbound : (finalLoc l evs).zapped = false) (hello : e.world.hello n) :
    ⟨n, (finalLoc l evs).us⟩ ∈ release e (history ⟨l, stateInit⟩ evs).1 ↔ Told e l evs n := by
  have hnotes := foldl_note (marks l evs) (fun nid hnid => marks_notAuto hnid)
  rw [history_sock, release, if_neg (by simp [hbound])]
  dsimp only
  by_cases hctrl : (finalLoc l evs).us.sqPort = portCtrl
  · rw [if_pos hctrl]
    constructor
    · intro h
      obtain ⟨m, hm, -⟩ := mem_map.mp h
      have hpass := (mem_filter.mp hm).2
      simp [World.passes, typeDelClient, typeHello] at hpass
    · exact fun h => absurd hctrl h.2.1
  · rw [if_neg hctrl]
    have hmem := mem_sendDelClient e ⟨finalLoc l evs, (marks l evs).foldl note stateInit⟩ hello
    rw [hmem, Told]
    dsimp only
    by_cases hwide : Widened (marks l evs)
    · rw [hnotes.1 hwide]
      simp [hwide, hctrl]
    · rw [hnotes.2 hwide]
      have hnone : ∀ nid, firstNode (marks l evs) = some nid → nid ≠ stateMulti :=
        fun nid hnid hmulti => hwide (.inr ⟨nid, hnid, .inl hmulti⟩)
      cases hfirst : firstNode (marks l evs) with
      | none =>
        have hinit : stateInit ≠ stateMulti := by decide
        have hneg : ¬ stateInit.toNat < 2 ^ 31 := by decide
        simp only [getD_none, hinit, hneg, hwide, false_and, and_false, or_false, reduceCtorEq, exists_const]
      | some nid =>
        simp only [getD_some, hwide, hctrl, hnone nid hfirst, some.injEq, exists_eq_left',
          not_false_eq_true, ne_eq, true_and, false_and, false_or]
        tauto

end

/-- A socket that is released is retracted from every node it sent a message to and that can still
be reached, exactly if each of these nodes is told. -/
theorem retracted_iff (l : Local) (hl : l.Ok) (evs : List Event) (e : ReleaseEnv) :
    Retracted e (history ⟨l, stateInit⟩ evs) ↔
      ∀ id ∈ (history ⟨l, stateInit⟩ evs).2, ∀ n, e.world.lookup id = some n → e.world.hello n = true →
        Told e l evs n := by
  have hloc : (history ⟨l, stateInit⟩ evs).1.loc = finalLoc l evs := by rw [history_sock]
  unfold Retracted
  rw [hloc]
  refine forall_congr' (fun id => forall_congr' (fun hid => forall_congr' (fun n => ?_)))
  refine forall_congr' (fun _ => forall_congr' (fun hello => ?_))
  exact mem_release_iff (history_bound hl hid) hello

section

/-- Two neighbours. -/
def twoNodes (a b : U32) (ha : a ≠ nidAuto) (hb : b ≠ nidAuto) : World where
  lookup := fun r => if r = a then some 0 else if r = b then some 1 else none
  nid := fun n => if n = 0 then a else b
  netId := fun _ => 0
  epts := [0, 1]
  hello := fun _ => true
  registered := by
    intro r n h
    split at h
    · cases h
      exact ⟨by simp, ha⟩
    · split at h
      · cases h
        exact ⟨by simp, hb⟩
      · cases h

def sendTo (w : World) (node : U32) : Event :=
  .send ⟨w, 1, true, some ⟨node, 7⟩, 4, some 0x4000, true, true, typeData, 0, 0, fun _ => true⟩

def newSocket : Local := ⟨⟨1, 0⟩, true, none⟩

def neighbours : World := twoNodes 2 3 (by decide) (by decide)

theorem both_neighbours_told : (history ⟨newSocket, stateInit⟩ [sendTo neighbours 2, sendTo neighbours 3]).2 = [2, 3] ∧
      Retracted ⟨neighbours, true, true, 2⟩
        (history ⟨newSocket, stateInit⟩ [sendTo neighbours 2, sendTo neighbours 3]) := by
  refine ⟨by decide, (retracted_iff newSocket nofun _ _).mpr (fun id _ n hn _ => ?_)⟩
  refine ⟨rfl, by decide, .inl ⟨.inr ⟨2, rfl, .inr ⟨by decide, 3, by decide, by decide⟩⟩, ?_⟩⟩
  show n ∈ [0, 1]
  unfold neighbours twoNodes at hn
  dsimp only at hn
  split at hn
  · cases hn
    decide
  · split at hn
    · cases hn
      decide
    · cases hn

def farNodes : World := twoNodes 0x80000005 3 (by decide) (by decide)

/-- A node whose id is negative as an int is not told. -/
theorem far_node_not_told :
    ¬ Retracted ⟨farNodes, true, true, 2⟩ (history ⟨newSocket, stateInit⟩ [sendTo farNodes 0x80000005]) := by
  intro h
  have hsent : (0x80000005 : U32) ∈ (history ⟨newSocket, stateInit⟩ [sendTo farNodes 0x80000005]).2 := by
    decide
  have htold := h _ hsent 0 rfl rfl
  have hnone : release ⟨farNodes, true, true, 2⟩
      (history ⟨newSocket, stateInit⟩ [sendTo farNodes 0x80000005]).1 = [] := by
    decide
  rw [hnone] at htold
  cases htold

end

end Sm8850.Qrtr.Retract
