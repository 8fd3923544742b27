import Sm8850.Ns.Consistency

/-! What a remote node can do to the registrations of the local node. -/
namespace Sm8850.Ns
open Lts

variable {s t : State} {env : Env} {srv : Server} {e : Event} {n : U32}

def LocalServer (s : State) (srv : Server) : Prop := Registered s srv ∧ srv.node = s.localNode

def LocalLookup (s : State) (l : Lookup) : Prop := l ∈ s.lookups ∧ l.sq.sqNode = s.localNode

/-- The same servers under the local node id and the same lookups of local sockets. -/
structure SameLocal (s t : State) : Prop where
  localNode : t.localNode = s.localNode
  servers : ∀ srv, LocalServer t srv ↔ LocalServer s srv
  lookups : ∀ l, LocalLookup t l ↔ LocalLookup s l

theorem SameLocal.refl (s : State) : SameLocal s s := ⟨rfl, fun _ => Iff.rfl, fun _ => Iff.rfl⟩

theorem SameLocal.trans {u : State} (h : SameLocal s t) (h' : SameLocal t u) : SameLocal s u where
  localNode := h'.localNode.trans h.localNode
  servers := fun srv => (h'.servers srv).trans (h.servers srv)
  lookups := fun l => (h'.lookups l).trans (h.lookups l)

theorem SameLocal.symm (h : SameLocal s t) : SameLocal t s where
  localNode := h.localNode.symm
  servers := fun srv => (h.servers srv).symm
  lookups := fun l => (h.lookups l).symm

theorem SameLocal.registered {x : Server} (h : SameLocal s t) (hx : x.node = s.localNode) :
    Registered t x ↔ Registered s x := by
  have hserver := h.servers x
  rwa [LocalServer, LocalServer, h.localNode, and_iff_left hx, and_iff_left hx] at hserver

theorem sameLocal_of (hnode : t.localNode = s.localNode)
    (hserver : ∀ x : Server, x.node = s.localNode → (Registered t x ↔ Registered s x))
    (hlook : ∀ l : Lookup, l.sq.sqNode = s.localNode → (l ∈ t.lookups ↔ l ∈ s.lookups)) : SameLocal s t := by
  refine ⟨hnode, fun x => ?_, fun l => ?_⟩
  · rw [LocalServer, LocalServer, hnode]
    exact and_congr_left (hserver x)
  · rw [LocalLookup, LocalLookup, hnode]
    exact and_congr_left (hlook l)

theorem Quiet.sameLocal (h : Quiet s t) : SameLocal s t :=
  sameLocal_of h.localNode (fun x _ => h.registered x) fun l _ => by rw [h.lookups]

/-- A change that keeps the tables well formed and touches only the servers and the lookups
of node `n`. -/
structure Confined (n : U32) (s t : State) : Prop where
  localNode : t.localNode = s.localNode
  registered : ∀ srv : Server, srv.node ≠ n → (Registered t srv ↔ Registered s srv)
  lookups : ∀ l : Lookup, l.sq.sqNode ≠ n → (l ∈ t.lookups ↔ l ∈ s.lookups)
  wf : Wf t

theorem Quiet.confined (h : Quiet s t) (hw : Wf s) : Confined n s t where
  localNode := h.localNode
  registered := fun srv _ => h.registered srv
  lookups := fun l _ => by rw [h.lookups]
  wf := h.wf hw

theorem Confined.trans {u : State} (h : Confined n s t) (h' : Confined n t u) : Confined n s u where
  localNode := h'.localNode.trans h.localNode
  registered := fun srv hne => (h'.registered srv hne).trans (h.registered srv hne)
  lookups := fun l hne => (h'.lookups l hne).trans (h.lookups l hne)
  wf := h'.wf

theorem Confined.quiet {u : State} (h : Confined n s t) (hq : Quiet t u) : Confined n s u :=
  h.trans (hq.confined h.wf)

theorem tracks_confined (n : U32) : Tracks (fun s t => Wf s → Confined n s t) where
  quiet := Quiet.confined
  trans := fun h h' hw => (h hw).trans (h' (h hw).wf)

theorem Confined.sameLocal (h : Confined n s t) (hn : n ≠ s.localNode) : SameLocal s t :=
  sameLocal_of h.localNode (fun x hx => h.registered x (hx ▸ hn.symm)) fun l hl => h.lookups l (hl ▸ hn.symm)

/-- Dropping lookups of sockets on node `n`. -/
theorem confined_filter (hw : Wf s) (keep : Lookup → Bool) (hkeep : ∀ l : Lookup, l.sq.sqNode ≠ n → keep l) :
    Confined n s { s with lookups := s.lookups.filter keep } where
  localNode := rfl
  registered := fun _ _ => Iff.rfl
  lookups := by
    intro l hne
    simp [hkeep l hne]
  wf := (sound_filter s keep).wf hw

theorem confined_notifyLookups (new : Bool) (hw : Wf s) : Confined n s (notifyLookups env s srv new) where
  localNode := notifyLookups_localNode
  registered := fun _ _ => registered_notifyLookups
  lookups := fun l _ => by rw [notifyLookups_lookups]
  wf := wf_notifyLookups hw

theorem confined_unlinked {p : U32} {node : Node} (hw : Wf s)
    (hn : s.nodes.load n.toNat = some node) (hp : node.servers.load p.toNat = some srv) :
    Confined n s (unlinked s n p node) where
  localNode := rfl
  registered := by
    intro x hne
    rw [registered_unlinked hw hn hp]
    refine and_iff_left_of_imp fun _ => ?_
    rintro rfl
    exact hne (BitVec.eq_of_toNat_eq (hw.keyed _ node hn _ x hp).1)
  lookups := fun _ _ => Iff.rfl
  wf := wf_unlinked hw hn

theorem confined_serverDel (p : U32) (bcast : Bool) (hw : Wf s) : Confined n s (serverDel env s n p bcast) := by
  rcases serverDel_cases env s n p bcast with ⟨he, _⟩ | ⟨node, srv, u, hn, hp, hq, he⟩
  · rw [he]
    exact (Quiet.refl s).confined hw
  · rw [he]
    have hu := (confined_unlinked hw hn hp).quiet hq
    exact hu.trans (confined_notifyLookups false hu.wf)

theorem serverDel_lookups (env : Env) (s : State) (p : U32) (bcast : Bool) :
    (serverDel env s n p bcast).lookups = s.lookups := by
  rcases serverDel_cases env s n p bcast with ⟨he, _⟩ | ⟨node, srv, u, hn, hp, hq, he⟩
  · rw [he]
  · rw [he, notifyLookups_lookups, hq.lookups]
    rfl

theorem registered_serverDel {p : U32} {bcast : Bool} {x : Server} (hw : Wf s) :
    Registered (serverDel env s n p bcast) x ↔ Registered s x ∧ ¬(x.node = n ∧ x.port = p) := by
  have hplace : (x.node = n ∧ x.port = p) ∧ Registered s x ↔ replaced s n p = some x := by
    rw [replaced_iff hw, and_comm]
  rcases serverDel_cases env s n p bcast with ⟨he, hnone⟩ | ⟨node, srv, u, hn, hp, hq, he⟩
  · rw [he]
    refine (and_iff_left_of_imp fun hr hx => ?_).symm
    cases hnone.symm.trans (hplace.mp ⟨hx, hr⟩)
  · have hsrv : replaced s n p = some srv := by simp [replaced, hn, hp]
    rw [he, registered_notifyLookups, hq.registered, registered_unlinked hw hn hp]
    refine and_congr_right fun hr => not_congr ?_
    constructor
    · rintro rfl
      exact (hplace.mpr hsrv).1
    · exact fun hx => Option.some.inj ((hplace.mp ⟨hx, hr⟩).symm.trans hsrv)

theorem Linked.confined (hl : Linked s t srv) : Confined srv.node s t where
  localNode := hl.localNode
  registered := by
    intro x hne
    rw [hl.registered]
    constructor
    · rintro (rfl | ⟨hr, _⟩)
      · exact absurd rfl hne
      · exact hr
    · exact fun hr => .inr ⟨hr, fun h => hne h.1⟩
  lookups := fun l _ => by rw [hl.lookups]
  wf := hl.wf

theorem confined_ctrlCmdBye (env : Env) (sender : SockaddrQrtr) (hw : Wf s) :
    Confined sender.sqNode s (ctrlCmdBye env s sender).1 :=
  (tracks_confined _).ctrlCmdBye (fun _ p hu => confined_serverDel p true hu) s hw

theorem confined_ctrlCmdDelClient (env : Env) (sender : SockaddrQrtr) (node port : U32)
    (hw : Wf s) : Confined sender.sqNode s (ctrlCmdDelClient env s sender node port).1 :=
  (tracks_confined _).ctrlCmdDelClient (fun _ hu => confined_serverDel port false hu)
    (fun hs => confined_filter hs _ (fun l hne => by simp [hne])) hw

theorem confined_ctrlCmdDelLookup (sender : SockaddrQrtr) (service inst : U32) (hw : Wf s) :
    Confined sender.sqNode s (ctrlCmdDelLookup s sender service inst) :=
  confined_filter hw _ (fun l hne => by simp [hne])

/-- The node whose servers a withdrawal may touch. -/
def withdrawn (s : State) (sender : SockaddrQrtr) (node : U32) : U32 :=
  if sender.sqNode = s.localNode then sender.sqNode else node

theorem confined_ctrlCmdDelServer (env : Env) (sender : SockaddrQrtr) (service inst node port : U32) (hw : Wf s) :
    Confined (withdrawn s sender node) s (ctrlCmdDelServer env s sender service inst node port).1 :=
  (tracks_confined _).ctrlCmdDelServer (fun _ p hu => confined_serverDel p true hu) hw

theorem confined_ctrlCmdNewServer (env : Env) (sender : SockaddrQrtr) (service inst node port : U32) (hw : Wf s) :
    Confined (announced s sender service inst node port).node s
      (ctrlCmdNewServer env s sender service inst node port).1 := by
  rcases ctrlCmdNewServer_cases env s sender service inst node port rfl with
    ⟨hq, _⟩ | ⟨_, hlink⟩
  · exact hq.confined hw
  · obtain ⟨u, hu, ⟨he, _⟩ | he⟩ := hlink hw
    · rw [he]
      exact hu.confined
    · rw [he]
      exact hu.confined.trans (confined_notifyLookups true hu.wf)

theorem wf_ctrlCmdNewLookup (env : Env) (sender : SockaddrQrtr) (service inst : U32)
    (hw : Wf s) : Wf (ctrlCmdNewLookup env s sender service inst).1 := by
  unfold ctrlCmdNewLookup
  split
  · exact hw
  · split
    · exact hw
    · exact (frame_listing env s sender service inst).2.2 hw

/-- The tables stay well formed whatever is received and whichever sends fail. -/
theorem wf_worker (e : Event) (hw : Wf s) : Wf (worker s e) := by
  unfold worker
  cases e.msg with
  | hello => exact (quiet_ctrlCmdHello e.env s e.sender).wf hw
  | bye => exact (confined_ctrlCmdBye e.env e.sender hw).wf
  | delClient node port => exact (confined_ctrlCmdDelClient e.env e.sender node port hw).wf
  | newServer service inst node port =>
    exact (confined_ctrlCmdNewServer e.env e.sender service inst node port hw).wf
  | delServer service inst node port =>
    exact (confined_ctrlCmdDelServer e.env e.sender service inst node port hw).wf
  | newLookup service inst => exact wf_ctrlCmdNewLookup e.env e.sender service inst hw
  | delLookup service inst => exact (confined_ctrlCmdDelLookup e.sender service inst hw).wf
  | other => exact hw

section
variable (hr : e.sender.sqNode ≠ s.localNode)

/-- What keeps a message of a remote node away from the local registrations: it does not
register a server under the local node id that is not there already, and it does not
withdraw a local port that holds one. -/
def LeavesLocal (s : State) (e : Event) : Prop :=
  match e.msg with
  | .newServer service inst node port => node = s.localNode →
      Storable e.env s ⟨service, inst, node, port⟩ → Registered s ⟨service, inst, node, port⟩
  | .delServer _ _ node port => node = s.localNode → replaced s node port = none
  | _ => True

include hr

theorem newServer_sameLocal_iff (hw : Wf s) (service inst node port : U32) :
    SameLocal s (ctrlCmdNewServer e.env s e.sender service inst node port).1 ↔
      (node = s.localNode → Storable e.env s ⟨service, inst, node, port⟩ →
        Registered s ⟨service, inst, node, port⟩) := by
  have hsrv : announced s e.sender service inst node port = ⟨service, inst, node, port⟩ :=
    if_neg hr
  have hconf := confined_ctrlCmdNewServer e.env e.sender service inst node port hw
  rw [hsrv] at hconf
  by_cases hnode : node = s.localNode
  · rcases ctrlCmdNewServer_cases e.env s e.sender service inst node port hsrv with
      ⟨hq, hno⟩ | ⟨hst, hlink⟩
    · exact ⟨fun _ _ hst => absurd hst hno, fun _ => hq.sameLocal⟩
    · obtain ⟨u, hu, hval⟩ := hlink hw
      have hreg : ∀ x, Registered (ctrlCmdNewServer e.env s e.sender service inst node port).1 x ↔
          Registered u x := by
        intro x
        rcases hval with ⟨he, _⟩ | he
        · rw [he]
        · rw [he]
          exact registered_notifyLookups
      have hlook : (ctrlCmdNewServer e.env s e.sender service inst node port).1.lookups =
          s.lookups := by
        rcases hval with ⟨he, _⟩ | he
        · rw [he, hu.lookups]
        · rw [he, notifyLookups_lookups, hu.lookups]
      constructor
      · intro hsame _ _
        exact (hsame.registered hnode).mp ((hreg _).mpr ((hu.registered _).mpr (.inl rfl)))
      · intro hthere
        have hold := hthere hnode hst
        refine sameLocal_of hconf.localNode (fun x _ => ?_) fun l _ => by rw [hlook]
        rw [hreg, hu.registered]
        constructor
        · rintro (rfl | ⟨hx, _⟩)
          · exact hold
          · exact hx
        · intro hx
          by_cases hplace : x.node = node ∧ x.port = port
          · have hx' := (replaced_iff hw).mpr ⟨hx, hplace.1, hplace.2⟩
            have hold' := (replaced_iff hw).mpr ⟨hold, rfl, rfl⟩
            exact .inl (Option.some.inj (hx'.symm.trans hold'))
          · exact .inr ⟨hx, hplace⟩
  · exact ⟨fun _ h => absurd h hnode, fun _ => hconf.sameLocal hnode⟩

theorem delServer_sameLocal_iff (hw : Wf s) (service inst node port : U32) :
    SameLocal s (ctrlCmdDelServer e.env s e.sender service inst node port).1 ↔
      (node = s.localNode → replaced s node port = none) := by
  have hconf := confined_ctrlCmdDelServer e.env e.sender service inst node port hw
  rw [withdrawn, if_neg hr] at hconf
  by_cases hnode : node = s.localNode
  · have hget := quiet_nodeGet e.env s node
    cases hn : nodeGet e.env s node with
    | mk u found =>
      rw [hn] at hget
      cases found with
      | none =>
        have hval : (ctrlCmdDelServer e.env s e.sender service inst node port).1 = u := by
          simp [ctrlCmdDelServer, hr, hn]
        rw [hval]
        refine ⟨fun _ _ => ?_, fun _ => hget.sameLocal⟩
        simp [replaced, (nodeGet_none hn).1]
      | some found =>
        have hval : (ctrlCmdDelServer e.env s e.sender service inst node port).1 = serverDel e.env u node port true := by
          simp [ctrlCmdDelServer, hr, hn]
        have hreg : ∀ x, Registered (ctrlCmdDelServer e.env s e.sender service inst node port).1 x ↔
            Registered s x ∧ ¬(x.node = node ∧ x.port = port) := by
          intro x
          rw [hval, registered_serverDel (hget.wf hw), hget.registered]
        have hlook : (ctrlCmdDelServer e.env s e.sender service inst node port).1.lookups =
            s.lookups := by
          rw [hval, serverDel_lookups, hget.lookups]
        constructor
        · intro hsame _
          cases hold : replaced s node port with
          | none => rfl
          | some x =>
            obtain ⟨hx, hxn, hxp⟩ := (replaced_iff hw).mp hold
            have hkept := (hsame.registered (hxn.trans hnode)).mpr hx
            exact absurd ⟨hxn, hxp⟩ ((hreg x).mp hkept).2
        · intro hfree
          refine sameLocal_of hconf.localNode (fun x _ => ?_) fun l _ => by rw [hlook]
          rw [hreg]
          refine and_iff_left_of_imp fun hx hplace => ?_
          have hold := (replaced_iff hw).mpr ⟨hx, hplace.1, hplace.2⟩
          cases (hfree hnode).symm.trans hold
  · exact ⟨fun _ h => absurd h hnode, fun _ => hconf.sameLocal hnode⟩

/-- One message of a remote node keeps the local registrations exactly when it leaves the
local node's servers alone. -/
theorem worker_sameLocal_iff (hw : Wf s) : SameLocal s (worker s e) ↔ LeavesLocal s e := by
  unfold worker LeavesLocal
  cases e.msg with
  | hello => exact ⟨fun _ => trivial, fun _ => (quiet_ctrlCmdHello e.env s e.sender).sameLocal⟩
  | bye =>
    exact ⟨fun _ => trivial, fun _ => (confined_ctrlCmdBye e.env e.sender hw).sameLocal hr⟩
  | delClient node port =>
    exact ⟨fun _ => trivial, fun _ => (confined_ctrlCmdDelClient e.env e.sender node port hw).sameLocal hr⟩
  | newServer service inst node port => exact newServer_sameLocal_iff hr hw service inst node port
  | delServer service inst node port => exact delServer_sameLocal_iff hr hw service inst node port
  | newLookup service inst =>
    refine ⟨fun _ => trivial, fun _ => ?_⟩
    simp only [ctrlCmdNewLookup, ne_eq, hr, not_false_eq_true, if_true]
    exact .refl s
  | delLookup service inst =>
    exact ⟨fun _ => trivial, fun _ => (confined_ctrlCmdDelLookup e.sender service inst hw).sameLocal hr⟩
  | other => exact ⟨fun _ => trivial, fun _ => .refl s⟩

end

/-- A worker step on a message whose source address is a remote node. -/
def RemoteStep (s : State) (e : Event) (t : State) : Prop :=
  Step s e t ∧ e.sender.sqNode ≠ s.localNode

/-- From any state the worker reaches, a run of remote messages keeps the local servers and
the local lookups as they were exactly when each of its messages leaves the local node's
servers alone. -/
theorem remote_run_keeps_local_iff {before run : List (Event × State)} (hbefore : Lts.Path Step (init n) before)
    (hrun : Lts.Path RemoteStep (final (init n) before) run) : (∀ u ∈ final (init n) before :: run.map Prod.snd,
        SameLocal (final (init n) before) u) ↔ Steps LeavesLocal (final (init n) before) run := by
  have hw : Wf (final (init n) before) := by
    refine Lts.Path.invariant ?_ hbefore (wf_init n) _ (final_mem _ _)
    rintro s e t rfl hs
    exact wf_worker e hs
  refine Lts.Path.always_iff_steps (I := Wf) ?_ ?_ hrun hw (.refl _)
  · rintro s e t ⟨rfl, _⟩ hs _ _
    exact wf_worker e hs
  · rintro s e t ⟨rfl, hr⟩ hs hsame
    rw [← worker_sameLocal_iff hr hs]
    exact ⟨hsame.symm.trans, hsame.trans⟩

/-- A local service registers itself on port 9. -/
def localService : List Event := [⟨⟨1, 9⟩, .newServer 5 1 0 0, envOk⟩]

/-- Node 2 registers a server of its own and asks to withdraw a free port of node 1. -/
def remoteTraffic : List Event :=
  [⟨⟨2, 7⟩, .newServer 5 1 2 7, envOk⟩, ⟨⟨2, 7⟩, .delServer 0 0 1 8, envOk⟩, ⟨⟨2, 7⟩, .bye, envOk⟩]

theorem path_step_trace (s : State) (es : List Event) : Lts.Path Step s (trace s es) := by
  induction es generalizing s with
  | nil => trivial
  | cons e es ih => exact ⟨rfl, ih (worker s e)⟩

theorem remoteTraffic_remote : Lts.Path RemoteStep (final (init 1) (trace (init 1) localService))
      (trace (final (init 1) (trace (init 1) localService)) remoteTraffic) :=
  ⟨⟨rfl, by decide⟩, ⟨rfl, by decide⟩, ⟨rfl, by decide⟩, trivial⟩

theorem remoteTraffic_leaves_local : Steps LeavesLocal (final (init 1) (trace (init 1) localService))
      (trace (final (init 1) (trace (init 1) localService)) remoteTraffic) := by
  refine ⟨fun h => ?_, fun _ => ?_, trivial, trivial⟩
  · exact absurd h (by decide)
  · decide

theorem remoteTraffic_keeps_local : Lts.Path Step (init 1) (trace (init 1) localService) ∧
    ∀ u ∈ final (init 1) (trace (init 1) localService) ::
        (trace (final (init 1) (trace (init 1) localService)) remoteTraffic).map Prod.snd,
      SameLocal (final (init 1) (trace (init 1) localService)) u :=
  ⟨path_step_trace _ _, (remote_run_keeps_local_iff (path_step_trace _ _)
    remoteTraffic_remote).mpr remoteTraffic_leaves_local⟩

/-- Node 2 withdraws the local service: `ctrl_cmd_del_server` takes the node and the port
from the packet. -/
theorem remote_withdraws_local : Lts.Path RemoteStep (final (init 1) (trace (init 1) localService))
      (trace (final (init 1) (trace (init 1) localService)) [⟨⟨2, 7⟩, .delServer 5 1 1 9, envOk⟩]) ∧
    LocalServer (final (init 1) (trace (init 1) localService)) ⟨5, 1, 1, 9⟩ ∧
    ¬ LocalServer (worker (final (init 1) (trace (init 1) localService))
      ⟨⟨2, 7⟩, .delServer 5 1 1 9, envOk⟩) ⟨5, 1, 1, 9⟩ := by
  refine ⟨⟨⟨rfl, by decide⟩, trivial⟩, ⟨?_, by decide⟩, ?_⟩
  · exact mem_servers.mp (by decide)
  · rintro ⟨hreg, _⟩
    exact absurd (mem_servers.mpr hreg) (by decide)

theorem registered_serverDels (l : List (Nat × Server)) (hw : Wf s) :
    Registered (l.foldl (fun s e => serverDel env s n e.2.port true) s) srv ↔
      Registered s srv ∧ ∀ e ∈ l, ¬(srv.node = n ∧ srv.port = e.2.port) := by
  induction l generalizing s with
  | nil => simp
  | cons e l ih =>
    rw [List.foldl_cons, ih (wf_serverDel n _ true hw), registered_serverDel hw, and_assoc, List.forall_mem_cons]

/-- Whatever was received before and whichever sends fail, a BYE unregisters the servers of the node that
says it, and no others. -/
theorem bye_unregisters_node (n : U32) (es : List Event) (env : Env) (sender : SockaddrQrtr) (srv : Server) :
    let s := es.foldl worker (init n)
    Registered (ctrlCmdBye env s sender).1 srv ↔ Registered s srv ∧ srv.node ≠ sender.sqNode := by
  intro s
  have hw : Wf s := List.foldlRecOn es _ (wf_init n) fun _ hw e _ => wf_worker e hw
  by_cases hnode : srv.node = sender.sqNode
  · refine iff_of_false ?_ fun h => h.2 hnode
    have hquiet := quiet_nodeGet env s sender.sqNode
    unfold ctrlCmdBye
    cases hn : nodeGet env s sender.sqNode with
    | mk u node =>
      rw [hn] at hquiet
      cases node with
      | none =>
        rw [hquiet.registered, registered_iff hw, hnode, (nodeGet_none hn).1]
        simp
      | some node =>
        rw [(quiet_sendLocalServers env _ _).registered, registered_serverDels _ (hquiet.wf hw)]
        rintro ⟨hreg, hno⟩
        obtain ⟨node', hload, hport⟩ := (registered_iff (hquiet.wf hw)).mp hreg
        rw [hnode, nodeGet_load hn] at hload
        cases hload
        exact hno _ (XArray.mem_entries.mpr hport) ⟨hnode, rfl⟩
  · rw [(confined_ctrlCmdBye env sender hw).registered srv hnode, and_iff_left hnode]

end Sm8850.Ns
