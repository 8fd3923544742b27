import Sm8850.Ns.Observers

/-! Observer consistency across the message handlers and along runs of the worker. -/
namespace Sm8850.Ns
open List Nat Prod Lts

variable {s t : State} {env : Env} {srv x : Server} {e : Event}

/-- A relation between states that composes and holds across every quiet change. -/
structure Tracks (R : State → State → Prop) : Prop where
  quiet : ∀ {s t}, Quiet s t → R s t
  trans : ∀ {s t u}, R s t → R t u → R s u

section
variable {R : State → State → Prop} (hR : Tracks R) {sender : SockaddrQrtr} {nodeId port : U32}
include hR

theorem Tracks.foldl {β : Type} {f : State → β → State} (hf : ∀ u b, R u (f u b)) (l : List β) (s : State) :
    R s (l.foldl f s) := by
  induction l generalizing s with
  | nil => exact hR.quiet (.refl s)
  | cons b l ih => exact hR.trans (hf s b) (ih (f s b))

theorem Tracks.ctrlCmdBye (hdel : ∀ u p, R u (serverDel env u sender.sqNode p true)) (s : State) :
    R s (ctrlCmdBye env s sender).1 := by
  have hget := hR.quiet (quiet_nodeGet env s sender.sqNode)
  unfold Ns.ctrlCmdBye
  cases hn : nodeGet env s sender.sqNode with
  | mk u node =>
    rw [hn] at hget
    cases node with
    | none => exact hget
    | some node =>
      have hall := hR.foldl (fun u (e : Nat × Server) => hdel u e.2.port) node.servers.entries u
      exact hR.trans (hR.trans hget hall) (hR.quiet (quiet_sendLocalServers env _ _))

theorem Tracks.ctrlCmdDelClient (hdel : ∀ u, R u (serverDel env u sender.sqNode port false))
    (hdrop : R s { s with lookups := s.lookups.filter (fun l => !(l.sq.sqNode = sender.sqNode ∧ l.sq.sqPort = port)) }) :
    R s (ctrlCmdDelClient env s sender nodeId port).1 := by
  unfold Ns.ctrlCmdDelClient
  split
  · exact hR.quiet (.refl s)
  · rename_i hnode
    obtain rfl := not_not.mp hnode
    split
    · exact hR.quiet (.refl s)
    · refine hR.trans hdrop (hR.trans ?_ (hR.quiet (quiet_sendLocalServers env _ _)))
      generalize State.mk s.localNode s.nodes _ s.nextLi s.sent = u
      have hget := hR.quiet (quiet_nodeGet env u sender.sqNode)
      cases hn : nodeGet env u sender.sqNode with
      | mk v node =>
        rw [hn] at hget
        cases node with
        | none => exact hget
        | some node => exact hR.trans hget (hdel v)

theorem Tracks.ctrlCmdDelServer {service inst : U32}
    (hdel : ∀ u p, R u (serverDel env u (if sender.sqNode = s.localNode then sender.sqNode else nodeId) p true)) :
    R s (ctrlCmdDelServer env s sender service inst nodeId port).1 := by
  unfold Ns.ctrlCmdDelServer
  dsimp only
  generalize (if sender.sqNode = s.localNode then sender.sqNode else nodeId) = n at hdel ⊢
  generalize (if sender.sqNode = s.localNode then sender.sqPort else port) = p
  split
  · exact hR.quiet (.refl s)
  · have hget := hR.quiet (quiet_nodeGet env s n)
    cases hn : nodeGet env s n with
    | mk u node =>
      rw [hn] at hget
      cases node with
      | none => exact hget
      | some node => exact hR.trans hget (hdel u _)
end

/-- A change that keeps the observers' knowledge in step with the tables. -/
structure Sound (s t : State) : Prop where
  wf : Wf s → Wf t
  consistent : Wf s → Consistent s → Consistent t

theorem Sound.refl (s : State) : Sound s s := ⟨id, fun _ => id⟩

theorem Sound.trans {u : State} (h : Sound s t) (h' : Sound t u) : Sound s u where
  wf := h'.wf ∘ h.wf
  consistent := fun hw hc => h'.consistent (h.wf hw) (h.consistent hw hc)

theorem Quiet.sound (h : Quiet s t) : Sound s t := ⟨h.wf, fun _ hc => h.consistent.mpr hc⟩

theorem tracks_sound : Tracks Sound := ⟨Quiet.sound, Sound.trans⟩

theorem sound_serverDel (hok : ∀ dest pkt, 0 ≤ env.sendmsg dest pkt) (s : State) (n p : U32)
    (bcast : Bool) : Sound s (serverDel env s n p bcast) :=
  ⟨wf_serverDel n p bcast, consistent_serverDel hok n p bcast⟩

/-- Dropping lookups never makes an owner's knowledge wrong. -/
theorem sound_filter (s : State) (keep : Lookup → Bool) : Sound s { s with lookups := s.lookups.filter keep } where
  wf := by
    intro h
    refine ⟨h.keyed, ?_, ?_, h.logged⟩
    · intro l hl
      exact h.fresh l (mem_filter.mp hl).1
    · exact h.distinct.sublist (filter_sublist.map _)
  consistent := by
    intro _ hc l hl
    exact hc l (mem_filter.mp hl).1

section
variable (hok : ∀ dest pkt, 0 ≤ env.sendmsg dest pkt)
include hok

theorem sound_ctrlCmdBye (s : State) (sender : SockaddrQrtr) : Sound s (ctrlCmdBye env s sender).1 :=
  tracks_sound.ctrlCmdBye (fun u _ => sound_serverDel hok u _ _ _) s

theorem sound_ctrlCmdDelClient (s : State)
    (sender : SockaddrQrtr) (nodeId port : U32) : Sound s (ctrlCmdDelClient env s sender nodeId port).1 :=
  tracks_sound.ctrlCmdDelClient (fun u => sound_serverDel hok u _ _ _) (sound_filter s _)

theorem sound_ctrlCmdDelServer (s : State) (sender : SockaddrQrtr) (service inst nodeId port : U32) :
    Sound s (ctrlCmdDelServer env s sender service inst nodeId port).1 :=
  tracks_sound.ctrlCmdDelServer (fun u _ => sound_serverDel hok u _ _ _)

end

section
variable {li : Nat} {sq : SockaddrQrtr}

/-- The lookup's owner is listed one server, if it matches. -/
def listOne (env : Env) (li : Nat) (sq : SockaddrQrtr) (filter : ServerFilter) (s : State)
    (srv : Server) : State :=
  if serverMatch srv filter then lookupNotify env s li sq (some srv) true else s

theorem told_listFold (hok : ∀ dest pkt, 0 ≤ env.sendmsg dest pkt) (filter : ServerFilter)
    (l : List Server) (hl : ∀ srv ∈ l, srv ≠ endOfList) (s : State) (lj : Nat) :
    x ∈ told lj (l.foldl (listOne env li sq filter) s).sent ↔
      x ∈ told lj s.sent ∨ (lj = li ∧ x ∈ l ∧ serverMatch x filter) := by
  induction l generalizing s with
  | nil => simp
  | cons srv l ih =>
    have hsrv : srv ≠ endOfList := hl srv (by simp)
    rw [foldl_cons, ih (fun y hy => hl y (.tail _ hy))]
    by_cases hm : serverMatch srv filter
    · simp only [listOne, hm, if_true, lookupNotify_told hok hsrv]
      by_cases hj : lj = li
      · simp only [hj, if_true, retell, Finset.mem_insert, true_and, mem_cons]
        constructor
        · rintro ((rfl | h) | ⟨h, h'⟩)
          · exact .inr ⟨.inl rfl, hm⟩
          · exact .inl h
          · exact .inr ⟨.inr h, h'⟩
        · rintro (h | ⟨rfl | h, h'⟩)
          · exact .inl (.inr h)
          · exact .inl (.inl rfl)
          · exact .inr ⟨h, h'⟩
      · simp [hj]
    · simp only [listOne, if_neg hm, mem_cons]
      constructor
      · rintro (h | ⟨hj, h, h'⟩)
        · exact .inl h
        · exact .inr ⟨hj, .inr h, h'⟩
      · rintro (h | ⟨hj, rfl | h, h'⟩)
        · exact .inl h
        · exact absurd h' hm
        · exact .inr ⟨hj, h, h'⟩

theorem frame_listFold (env : Env) (li : Nat) (sq : SockaddrQrtr) (filter : ServerFilter)
    (l : List Server) (s : State) : (l.foldl (listOne env li sq filter) s).nodes = s.nodes ∧
    (l.foldl (listOne env li sq filter) s).lookups = s.lookups ∧
    (l.foldl (listOne env li sq filter) s).nextLi = s.nextLi ∧
    (Wf s → li < s.nextLi → Wf (l.foldl (listOne env li sq filter) s)) := by
  induction l generalizing s with
  | nil => exact ⟨rfl, rfl, rfl, fun h _ => h⟩
  | cons srv l ih =>
    obtain ⟨h₁, h₂, h₃, h₄⟩ := ih (listOne env li sq filter s srv)
    have hone : (listOne env li sq filter s srv).nodes = s.nodes ∧
        (listOne env li sq filter s srv).lookups = s.lookups ∧ (listOne env li sq filter s srv).nextLi = s.nextLi ∧
        (Wf s → li < s.nextLi → Wf (listOne env li sq filter s srv)) := by
      unfold listOne lookupNotify
      split
      · refine ⟨by simp, by simp, by simp, fun h hli => wf_kernelSendmsg h ?_⟩
        rintro _ ⟨rfl⟩
        exact hli
      · exact ⟨rfl, rfl, rfl, fun h _ => h⟩
    refine ⟨h₁.trans hone.1, h₂.trans hone.2.1, h₃.trans hone.2.2.1, fun h hli => ?_⟩
    exact h₄ (hone.2.2.2 h hli) (hone.2.2.1.symm ▸ hli)

theorem mem_servers : x ∈ s.servers ↔ Registered s x := by
  constructor
  · intro hx
    obtain ⟨⟨n, node⟩, hn, hx⟩ := mem_flatMap.mp hx
    obtain ⟨⟨p, srv⟩, hp, rfl⟩ := mem_map.mp hx
    exact ⟨n, node, p, XArray.mem_entries.mp hn, XArray.mem_entries.mp hp⟩
  · rintro ⟨n, node, p, hn, hp⟩
    refine mem_flatMap.mpr ⟨(n, node), XArray.mem_entries.mpr hn, ?_⟩
    exact mem_map.mpr ⟨(p, x), XArray.mem_entries.mpr hp, rfl⟩

/-- Nothing was ever sent through a lookup that is not registered yet. -/
theorem told_nextLi (h : Wf s) : told s.nextLi s.sent = ∅ := by
  have hlog : ∀ log : List Sent, (∀ y ∈ log, ∀ li, y.via = some li → li < s.nextLi) →
      ∀ known, log.foldl (tell s.nextLi) known = known := by
    intro log hlog
    induction log with
    | nil => intro known; rfl
    | cons y log ih =>
      intro known
      have hy : y.via ≠ some s.nextLi := by
        intro hvia
        exact absurd (hlog y (by simp) _ hvia) (lt_irrefl _)
      rw [foldl_cons, ih (fun z hz => hlog z (.tail _ hz))]
      exact if_neg hy
  exact hlog s.sent h.logged ∅

/-- The state in which `ctrl_cmd_new_lookup` starts the listing. -/
def enlisted (s : State) (sq : SockaddrQrtr) (service inst : U32) : State :=
  { s with lookups := s.lookups ++ [⟨s.nextLi, service, inst, sq⟩], nextLi := s.nextLi + 1 }

theorem wf_enlisted {service inst : U32} (h : Wf s) : Wf (enlisted s sq service inst) where
  keyed := h.keyed
  fresh := by
    intro l hl
    rcases mem_append.mp hl with hl | hl
    · exact lt_succ_of_lt (h.fresh l hl)
    · obtain rfl := mem_singleton.mp hl
      exact lt_succ_self _
  distinct := by
    have hnew : s.nextLi ∉ s.lookups.map Lookup.li := by
      intro hmem
      obtain ⟨l, hl, he⟩ := mem_map.mp hmem
      exact absurd (h.fresh l hl) (by omega)
    simpa [enlisted, nodup_append, h.distinct] using hnew
  logged := by
    intro y hy li hli
    exact lt_succ_of_lt (h.logged y hy li hli)

theorem registered_enlisted {service inst : U32} : Registered (enlisted s sq service inst) x ↔ Registered s x := Iff.rfl

theorem told_lookupNotify_end (hok : ∀ dest pkt, 0 ≤ env.sendmsg dest pkt) (lj : Nat) :
    told lj (lookupNotify env s li sq none true).sent = told lj s.sent := by
  unfold lookupNotify
  rw [kernelSendmsg_told (hok _ _)]
  simp [tell, endOfList]

/-- The listing as `ctrl_cmd_new_lookup` sends it, the end marker included. -/
def listing (env : Env) (s : State) (sq : SockaddrQrtr) (service inst : U32) : State :=
  let u := enlisted s sq service inst
  lookupNotify env (u.servers.foldl (listOne env s.nextLi sq ⟨service, inst, 0⟩) u)
    s.nextLi sq none true

theorem told_listing (hok : ∀ dest pkt, 0 ≤ env.sendmsg dest pkt) (h : Wf s) (service inst : U32) (lj : Nat) :
    x ∈ told lj (listing env s sq service inst).sent ↔ x ∈ told lj s.sent ∨
      (lj = s.nextLi ∧ Registered s x ∧ serverMatch x ⟨service, inst, 0⟩) := by
  have hends : ∀ srv ∈ (enlisted s sq service inst).servers, srv ≠ endOfList := by
    intro srv hsrv
    exact registered_ne_endOfList h (registered_enlisted.mp (mem_servers.mp hsrv))
  unfold listing
  rw [told_lookupNotify_end hok, told_listFold hok _ _ hends, mem_servers, registered_enlisted]
  rfl

theorem frame_listing (env : Env) (s : State) (sq : SockaddrQrtr) (service inst : U32) :
    (listing env s sq service inst).nodes = s.nodes ∧
    (listing env s sq service inst).lookups = s.lookups ++ [⟨s.nextLi, service, inst, sq⟩] ∧
    (Wf s → Wf (listing env s sq service inst)) := by
  obtain ⟨hnodes, hlookups, hnext, hwf⟩ := frame_listFold env s.nextLi sq
    ⟨service, inst, 0⟩ (enlisted s sq service inst).servers (enlisted s sq service inst)
  unfold listing lookupNotify
  refine ⟨?_, ?_, fun h => ?_⟩
  · rw [kernelSendmsg_nodes]
    exact hnodes
  · rw [kernelSendmsg_lookups]
    exact hlookups
  refine wf_kernelSendmsg (hwf (wf_enlisted h) (lt_succ_self _)) ?_
  rintro _ ⟨rfl⟩
  rw [hnext]
  exact lt_succ_self _

theorem consistent_listing (hok : ∀ dest pkt, 0 ≤ env.sendmsg dest pkt) (h : Wf s)
    (hc : Consistent s) (service inst : U32) : Consistent (listing env s sq service inst) := by
  obtain ⟨hnodes, hlookups, _⟩ := frame_listing env s sq service inst
  intro l hl x
  have hreg : Registered (listing env s sq service inst) x ↔ Registered s x := by
    simp only [Registered, hnodes]
  rw [told_listing hok h, hreg]
  rw [hlookups] at hl
  rcases mem_append.mp hl with hl | hl
  · have hne : l.li ≠ s.nextLi := Nat.ne_of_lt (h.fresh l hl)
    simp [hne, hc l hl x]
  · obtain rfl := mem_singleton.mp hl
    have hmatch : serverMatch x ⟨service, inst, 0⟩ = _ :=
      serverMatch_eq_wants ⟨s.nextLi, service, inst, sq⟩
    simp only [told_nextLi h, hmatch, Lookup.Wants, Finset.notMem_empty, false_or, true_and]

theorem sound_ctrlCmdNewLookup (hok : ∀ dest pkt, 0 ≤ env.sendmsg dest pkt) (s : State)
    (sq : SockaddrQrtr) (service inst : U32) : Sound s (ctrlCmdNewLookup env s sq service inst).1 := by
  unfold ctrlCmdNewLookup
  split
  · exact .refl s
  · split
    · exact .refl s
    · exact ⟨(frame_listing env s sq service inst).2.2, fun h hc => consistent_listing hok h hc service inst⟩

end

section
variable {service inst n p : U32}

theorem nodeGet_load {node : Node} (hn : nodeGet env s n = (t, some node)) : t.nodes.load n.toNat = some node := by
  cases hl : s.nodes.load n.toNat with
  | none =>
    simp only [nodeGet, hl] at hn
    split at hn
    · obtain ⟨rfl, hnode⟩ := mk.inj hn
      simpa using hnode
    · cases (mk.inj hn).2
  | some node' =>
    simp only [nodeGet, hl] at hn
    obtain ⟨rfl, hnode⟩ := mk.inj hn
    exact hl.trans hnode

/-- The registration passes the checks of `server_add` and every allocation on its way. -/
def Storable (env : Env) (s : State) (srv : Server) : Prop :=
  srv.service ≠ 0 ∧ srv.port ≠ 0 ∧ env.allocServer = true ∧ env.storeServer = true ∧
    (env.allocNode srv.node = true ∨ ∃ node, s.nodes.load srv.node.toNat = some node)

theorem nodeGet_none (hn : nodeGet env s n = (t, none)) : s.nodes.load n.toNat = none ∧ env.allocNode n = false := by
  cases hl : s.nodes.load n.toNat with
  | some node => simp [nodeGet, hl] at hn
  | none =>
    cases ha : env.allocNode n with
    | true => simp [nodeGet, hl, ha] at hn
    | false => exact ⟨rfl, rfl⟩

theorem nodeGet_some {node : Node} (hn : nodeGet env s n = (t, some node)) :
    env.allocNode n ∨ ∃ node, s.nodes.load n.toNat = some node := by
  cases hl : s.nodes.load n.toNat with
  | some node => exact .inr ⟨node, rfl⟩
  | none =>
    cases ha : env.allocNode n with
    | true => exact .inl rfl
    | false => simp [nodeGet, hl, ha] at hn

/-- A registration either leaves the tables alone or links exactly the new server. -/
theorem serverAdd_cases (env : Env) (s : State) (service inst n p : U32) :
    (Quiet s (serverAdd env s service inst n p).1 ∧ (serverAdd env s service inst n p).2 = none ∧
      ¬ Storable env s ⟨service, inst, n, p⟩) ∨ (Storable env s ⟨service, inst, n, p⟩ ∧
      (serverAdd env s service inst n p).2 = some ⟨service, inst, n, p⟩ ∧
      (Wf s → Linked s (serverAdd env s service inst n p).1 ⟨service, inst, n, p⟩)) := by
  by_cases hz : service = 0 ∨ p = 0
  · have he : serverAdd env s service inst n p = (s, none) := if_pos hz
    rw [he]
    refine .inl ⟨.refl s, rfl, ?_⟩
    rintro ⟨hs, hp, _⟩
    rcases hz with hz | hz
    · exact hs hz
    · exact hp hz
  obtain ⟨hs, hp⟩ := not_or.mp hz
  have hget := quiet_nodeGet env s n
  unfold serverAdd
  rw [if_neg hz]
  cases ha : env.allocServer with
  | false => exact .inl ⟨.refl s, rfl, fun h => nomatch ha.symm.trans h.2.2.1⟩
  | true =>
    cases hn : nodeGet env s n with
    | mk u node =>
      rw [hn] at hget
      cases node with
      | none =>
        obtain ⟨hload, halloc⟩ := nodeGet_none hn
        refine .inl ⟨hget, rfl, ?_⟩
        rintro ⟨_, _, _, _, hnode | ⟨node, hnode⟩⟩
        · cases halloc.symm.trans hnode
        · cases hload.symm.trans hnode
      | some node =>
        cases hst : env.storeServer with
        | false => exact .inl ⟨hget, rfl, fun h => nomatch hst.symm.trans h.2.2.2.1⟩
        | true =>
          refine .inr ⟨⟨hs, hp, ha, hst, nodeGet_some hn⟩, rfl, fun h => ?_⟩
          have hlink : Linked u _ ⟨service, inst, n, p⟩ :=
            linked_store (hget.wf h) hs (nodeGet_load hn)
          exact hget.linked hlink

/-- Telling the matching observers of a linked server makes them right about it, and they
stay wrong about the server it replaced. -/
theorem consistent_linked_iff {u : State} (hok : ∀ dest pkt, 0 ≤ env.sendmsg dest pkt)
    (h : Wf s) (hc : Consistent s) (hl : Linked s u srv) (hs : srv.service ≠ 0) :
    Consistent (notifyLookups env u srv true) ↔ ∀ old, replaced s srv.node srv.port = some old → old ≠ srv →
        ∀ l ∈ s.lookups, ¬ l.Wants old := by
  have hsrv : srv ≠ endOfList := by
    rintro rfl
    exact hs rfl
  have hknows : ∀ l ∈ s.lookups, ∀ x, x ∈ told l.li (notifyLookups env u srv true).sent ↔
      (x = srv ∧ l.Wants srv) ∨ (Registered s x ∧ l.Wants x) := by
    intro l hmem x
    rw [told_notifyLookups hok hl.wf hsrv (hl.lookups.symm ▸ hmem), hl.told]
    by_cases hw : l.Wants srv
    · simp [hw, retell, hc l hmem x]
    · simp [hw, hc l hmem x, false_or]
  constructor
  · intro hc' old hold hne l hmem hw
    obtain ⟨hr, hn, hp⟩ := (replaced_iff h).mp hold
    have hmem' : l ∈ (notifyLookups env u srv true).lookups := by
      rw [notifyLookups_lookups, hl.lookups]
      exact hmem
    have hreg := (hc' l hmem' old).mp ((hknows l hmem old).mpr (.inr ⟨hr, hw⟩))
    rw [registered_notifyLookups, hl.registered] at hreg
    rcases hreg.1 with heq | ⟨_, hplace⟩
    · exact hne heq
    · exact hplace ⟨hn, hp⟩
  · intro hold l hmem x
    rw [notifyLookups_lookups, hl.lookups] at hmem
    rw [hknows l hmem x, registered_notifyLookups, hl.registered]
    constructor
    · rintro (⟨rfl, hw⟩ | ⟨hr, hw⟩)
      · exact ⟨.inl rfl, hw⟩
      · by_cases heq : x = srv
        · exact ⟨.inl heq, hw⟩
        · refine ⟨.inr ⟨hr, ?_⟩, hw⟩
          rintro ⟨hn, hp⟩
          exact hold x ((replaced_iff h).mpr ⟨hr, hn, hp⟩) heq l hmem hw
    · rintro ⟨rfl | ⟨hr, _⟩, hw⟩
      · exact .inl ⟨rfl, hw⟩
      · exact .inr ⟨hr, hw⟩

/-- The registration of `srv`, if the message leads to one, retracts nothing that an
observer was told. -/
def ReplacesUnseen (env : Env) (s : State) (srv : Server) : Prop :=
  srv.service ≠ 0 → srv.port ≠ 0 → env.allocServer = true → env.storeServer = true →
    ∀ old, replaced s srv.node srv.port = some old → old ≠ srv →
      ∀ l ∈ s.lookups, ¬ l.Wants old

/-- The server a NEW_SERVER message names: local senders only speak for their own port. -/
def announced (s : State) (sender : SockaddrQrtr) (service inst nodeId port : U32) : Server :=
  if sender.sqNode = s.localNode then ⟨service, inst, sender.sqNode, sender.sqPort⟩
  else ⟨service, inst, nodeId, port⟩

/-- Whatever the sends return, a message that can be stored links the server it names; the
observers are told unless the broadcast fails. -/
theorem ctrlCmdNewServer_cases (env : Env) (s : State) (sender : SockaddrQrtr)
    (service inst nodeId port : U32) {srv : Server} (hsrv : announced s sender service inst nodeId port = srv) :
    (Quiet s (ctrlCmdNewServer env s sender service inst nodeId port).1 ∧ ¬ Storable env s srv) ∨
    (Storable env s srv ∧ (Wf s → ∃ u, Linked s u srv ∧
      ((ctrlCmdNewServer env s sender service inst nodeId port).1 = u ∧ (∃ dest pkt, env.sendmsg dest pkt < 0) ∨
        (ctrlCmdNewServer env s sender service inst nodeId port).1 = notifyLookups env u srv true))) := by
  have hplace : srv = ⟨service, inst, if sender.sqNode = s.localNode then sender.sqNode else nodeId,
      if sender.sqNode = s.localNode then sender.sqPort else port⟩ := by
    rw [← hsrv]
    unfold announced
    split <;> rfl
  unfold ctrlCmdNewServer
  generalize (if sender.sqNode = s.localNode then sender.sqNode else nodeId) = n at hplace ⊢
  generalize (if sender.sqNode = s.localNode then sender.sqPort else port) = p at hplace ⊢
  subst hplace
  dsimp only
  rcases serverAdd_cases env s service inst n p with ⟨hq, hnone, hno⟩ | ⟨hst, hsome, hlink⟩
  · left
    generalize serverAdd env s service inst n p = r at hq hnone
    obtain ⟨u, _⟩ := r
    subst hnone
    exact ⟨hq, hno⟩
  · right
    refine ⟨hst, fun h => ?_⟩
    replace hlink := hlink h
    generalize serverAdd env s service inst n p = r at hsome hlink
    obtain ⟨u, _⟩ := r
    subst hsome
    dsimp only
    split
    · have hsent := hlink.quiet (quiet_kernelSendmsg env u bcastSq (.newServer ⟨service, inst, n, p⟩))
      by_cases hret : (serviceAnnounceNew env u bcastSq ⟨service, inst, n, p⟩).2 < 0
      · refine ⟨_, hsent, .inl ⟨?_, _, _, hret⟩⟩
        rw [if_pos hret]
        rfl
      · refine ⟨_, hsent, .inr ?_⟩
        rw [if_neg hret]
        rfl
    · exact ⟨u, hlink, .inr rfl⟩

end

/-- The step does not overwrite a server that some observer was told about by a different
one. -/
def StepOk (s : State) (e : Event) : Prop :=
  match e.msg with
  | .newServer service inst nodeId port =>
    ReplacesUnseen e.env s (announced s e.sender service inst nodeId port)
  | _ => True

theorem worker_newServer (hok : SendsOk e) (h : Wf s) {service inst nodeId port : U32}
    (hmsg : e.msg = .newServer service inst nodeId port) :
    Wf (worker s e) ∧ (Consistent s → (Consistent (worker s e) ↔ StepOk s e)) := by
  simp only [worker, StepOk, hmsg]
  rcases ctrlCmdNewServer_cases e.env s e.sender service inst nodeId port rfl with
    ⟨hq, hno⟩ | ⟨⟨hs, hp, ha, hst, _⟩, hlink⟩
  · refine ⟨hq.wf h, fun hc => ?_⟩
    rw [hq.consistent]
    refine ⟨fun _ => ?_, fun _ => hc⟩
    intro hs hp ha hst old hold
    obtain ⟨node, hnode, _⟩ := Option.bind_eq_some_iff.mp hold
    exact absurd ⟨hs, hp, ha, hst, .inr ⟨node, hnode⟩⟩ hno
  · obtain ⟨u, hu, ⟨_, dest, pkt, hfail⟩ | he⟩ := hlink h
    · exact absurd (hok dest pkt) (not_le.mpr hfail)
    rw [he]
    refine ⟨wf_notifyLookups hu.wf, fun hc => ?_⟩
    rw [consistent_linked_iff hok h hc hu hs]
    exact ⟨fun hold _ _ _ _ => hold, fun hun => hun hs hp ha hst⟩

theorem sound_worker (hok : SendsOk e) (s : State)
    (hmsg : ∀ service inst nodeId port, e.msg ≠ .newServer service inst nodeId port) :
    Sound s (worker s e) ∧ StepOk s e := by
  unfold worker StepOk
  cases hm : e.msg with
  | hello => exact ⟨(quiet_ctrlCmdHello e.env s e.sender).sound, trivial⟩
  | bye => exact ⟨sound_ctrlCmdBye hok s e.sender, trivial⟩
  | delClient node port => exact ⟨sound_ctrlCmdDelClient hok s e.sender node port, trivial⟩
  | newServer service inst node port => exact absurd hm (hmsg service inst node port)
  | delServer service inst node port =>
    exact ⟨sound_ctrlCmdDelServer hok s e.sender service inst node port, trivial⟩
  | newLookup service inst => exact ⟨sound_ctrlCmdNewLookup hok s e.sender service inst, trivial⟩
  | delLookup service inst => exact ⟨sound_filter s _, trivial⟩
  | other => exact ⟨.refl s, trivial⟩

/-- One message keeps the observers right exactly when it overwrites nothing they know. -/
theorem consistent_step (hok : SendsOk e) (hst : Step s e t) (h : Wf s) :
    Wf t ∧ (Consistent s → (Consistent t ↔ StepOk s e)) := by
  subst hst
  by_cases hmsg : ∃ service inst nodeId port, e.msg = .newServer service inst nodeId port
  · obtain ⟨service, inst, nodeId, port, hmsg⟩ := hmsg
    exact worker_newServer hok h hmsg
  · obtain ⟨hsound, hstep⟩ := sound_worker hok s (fun service inst nodeId port hm =>
      hmsg ⟨service, inst, nodeId, port, hm⟩)
    exact ⟨hsound.wf h, fun hc => ⟨fun _ => hstep, fun _ => hsound.consistent h hc⟩⟩

/-- A worker step all of whose sends succeed. -/
def StepSent (s : State) (e : Event) (t : State) : Prop := Step s e t ∧ SendsOk e

/-- The states the worker passes through on a list of messages. -/
def trace (s : State) : List Event → List (Event × State)
  | [] => []
  | e :: es => (e, worker s e) :: trace (worker s e) es

theorem path_trace (s : State) (es : List Event) (h : ∀ e ∈ es, SendsOk e) : Lts.Path StepSent s (trace s es) := by
  induction es generalizing s with
  | nil => trivial
  | cons e es ih =>
    have hes : ∀ e' ∈ es, SendsOk e' := fun e' he' => h e' (.tail _ he')
    exact ⟨⟨rfl, h e (by simp)⟩, ih (worker s e) hes⟩

/-- From the empty tables, every observer is right in every state of a run exactly when no
registration of the run overwrites a different server that an observer was told about. -/
theorem observers_consistent_iff {n : U32} {run : List (Event × State)} (hrun : Lts.Path StepSent (init n) run) :
    (∀ u ∈ init n :: run.map snd, Consistent u) ↔ Steps StepOk (init n) run := by
  refine Lts.Path.always_iff_steps (I := Wf) ?_ ?_ hrun (wf_init n) (consistent_init n)
  · intro s e t hst hw _ _
    exact (consistent_step hst.2 hst.1 hw).1
  · intro s e t hst hw hc
    exact (consistent_step hst.2 hst.1 hw).2 hc

def envOk : Env := ⟨fun _ _ => 0, fun _ => true, true, true, true⟩

/-- A local client looks service 5 up, and node 2 offers it on port 7. -/
def lookupThenServer : List Event :=
  [⟨⟨1, 0x4000⟩, .newLookup 5 0, envOk⟩, ⟨⟨2, 7⟩, .newServer 5 1 2 7, envOk⟩]

theorem lookupThenServer_sent : ∀ e ∈ lookupThenServer, SendsOk e := by
  intro e he
  have henv : e.env = envOk := by
    simp only [lookupThenServer, mem_cons, not_mem_nil, or_false] at he
    rcases he with rfl | rfl <;> rfl
  intro dest pkt
  rw [henv]
  exact le_refl 0

theorem lookupThenServer_consistent : Lts.Path StepSent (init 1) (trace (init 1) lookupThenServer) ∧
    ((∀ u ∈ init 1 :: (trace (init 1) lookupThenServer).map snd, Consistent u) ↔
      Steps StepOk (init 1) (trace (init 1) lookupThenServer)) :=
  ⟨path_trace _ _ lookupThenServer_sent, observers_consistent_iff (path_trace _ _ lookupThenServer_sent)⟩

/-- Node 2 then offers service 6 on the same port: the observer keeps service 5. -/
def portReused : List Event :=
  lookupThenServer ++ [⟨⟨2, 7⟩, .newServer 6 1 2 7, envOk⟩]

theorem portReused_inconsistent : Lts.Path StepSent (init 1) (trace (init 1) portReused) ∧
    ¬ ∀ u ∈ init 1 :: (trace (init 1) portReused).map snd, Consistent u := by
  constructor
  · apply path_trace
    intro e he
    rcases List.mem_append.mp he with he | he
    · exact lookupThenServer_sent e he
    · obtain rfl := List.mem_singleton.mp he
      intro _ _
      exact le_refl 0
  · intro hall
    have hlast := hall (final (init 1) (trace (init 1) portReused)) (final_mem _ _)
    have hlookup : (⟨0, 5, 0, ⟨1, 0x4000⟩⟩ : Lookup) ∈
        (final (init 1) (trace (init 1) portReused)).lookups := by decide
    have htold : (⟨5, 1, 2, 7⟩ : Server) ∈
        told 0 (final (init 1) (trace (init 1) portReused)).sent := by decide
    have hgone : (⟨5, 1, 2, 7⟩ : Server) ∉
        (final (init 1) (trace (init 1) portReused)).servers := by decide
    exact hgone (mem_servers.mpr ((hlast _ hlookup _).mp htold).1)

end Sm8850.Ns
