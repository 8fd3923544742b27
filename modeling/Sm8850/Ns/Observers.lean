import Sm8850.Lib.Path
import Sm8850.Ns.Model

/-! What the owners of lookups have been told, against what the tables hold. -/
namespace Sm8850.Ns
open Option XArray BitVec List

variable {s t : State} {env : Env} {srv x : Server} {e : Event} {li : Nat}

/-- The zeroed packet that ends a listing names no server. -/
def endOfList : Server := ⟨0, 0, 0, 0⟩

def tell (li : Nat) (told : Finset Server) (x : Sent) : Finset Server :=
  if x.via = some li then
    match x.pkt with
    | .newServer srv => if srv = endOfList then told else insert srv told
    | .delServer srv => told.erase srv
    | _ => told
  else told

/-- The servers announced through the lookup `li` and not retracted through it since. -/
def told (li : Nat) (log : List Sent) : Finset Server := log.foldl (tell li) ∅

@[simp] theorem told_append (log : List Sent) (y : Sent) :
    told li (log ++ [y]) = tell li (told li log) y := by simp [told]

def Registered (s : State) (srv : Server) : Prop :=
  ∃ n node p, s.nodes.load n = some node ∧ node.servers.load p = some srv

def Lookup.Wants (l : Lookup) (srv : Server) : Prop := l.wants srv.service srv.inst = true

instance (l : Lookup) (srv : Server) : Decidable (l.Wants srv) :=
  inferInstanceAs (Decidable (_ = true))

/-- Every owner of a registered lookup knows exactly the matching servers. -/
def Consistent (s : State) : Prop :=
  ∀ l ∈ s.lookups, ∀ srv, srv ∈ told l.li s.sent ↔ Registered s srv ∧ l.Wants srv

def SendsOk (e : Event) : Prop := ∀ dest pkt, 0 ≤ e.env.sendmsg dest pkt

/-- Tables are keyed by the fields of their entries, and a lookup's identity is never
used before the lookup is registered. -/
structure Wf (s : State) : Prop where
  keyed : ∀ n node, s.nodes.load n = some node → ∀ p srv, node.servers.load p = some srv →
    srv.node.toNat = n ∧ srv.port.toNat = p ∧ srv.service ≠ 0
  fresh : ∀ l ∈ s.lookups, l.li < s.nextLi
  distinct : (s.lookups.map Lookup.li).Nodup
  logged : ∀ y ∈ s.sent, ∀ li, y.via = some li → li < s.nextLi

theorem wf_init (n : U32) : Wf (init n) where
  keyed := by simp [init]
  fresh := by simp [init]
  distinct := by simp [init]
  logged := by simp [init]

theorem consistent_init (n : U32) : Consistent (init n) := by simp [Consistent, init]

theorem registered_iff (h : Wf s) : Registered s srv ↔ ∃ node, s.nodes.load srv.node.toNat = some node ∧
      node.servers.load srv.port.toNat = some srv := by
  constructor
  · rintro ⟨n, node, p, hn, hp⟩
    obtain ⟨rfl, rfl, _⟩ := h.keyed n node hn p srv hp
    exact ⟨node, hn, hp⟩
  · rintro ⟨node, hn, hp⟩
    exact ⟨_, node, _, hn, hp⟩

theorem registered_ne_endOfList (h : Wf s) (hr : Registered s srv) : srv ≠ endOfList := by
  obtain ⟨n, node, p, hn, hp⟩ := hr
  obtain ⟨_, _, hs⟩ := h.keyed n node hn p srv hp
  rintro rfl
  exact hs rfl

/-- The two match predicates of the source agree: the listing's filter mask is zero. -/
theorem serverMatch_eq_wants (l : Lookup) : serverMatch srv ⟨l.service, l.inst, 0⟩ = l.wants srv.service srv.inst := by
  have hmask : srv.inst &&& 4294967295#32 = srv.inst := and_allOnes
  have hcomm : (srv.inst == l.inst) = decide (l.inst = srv.inst) := by
    rw [Bool.eq_iff_iff, beq_iff_eq, decide_eq_true_iff, eq_comm]
  unfold serverMatch Lookup.wants
  by_cases hs : l.service = 0#32
  · by_cases hi : l.inst = 0#32
    · simp [hs, hi]
    · simp [hs, hi, hmask, hcomm]
  · by_cases hm : srv.service = l.service
    · by_cases hi : l.inst = 0#32
      · simp [hm, hi]
      · simp [hm, hi, hmask, hcomm]
    · have hm' : ¬ l.service = srv.service := fun h => hm h.symm
      simp [hs, hm, hm']

section
variable {dest : SockaddrQrtr} {pkt : CtrlPkt} {via : Option Nat}

@[simp] theorem kernelSendmsg_localNode : (kernelSendmsg env s dest pkt via).1.localNode = s.localNode := by
  unfold kernelSendmsg; dsimp only; split <;> rfl

@[simp] theorem kernelSendmsg_nodes : (kernelSendmsg env s dest pkt via).1.nodes = s.nodes := by
  unfold kernelSendmsg; dsimp only; split <;> rfl

@[simp] theorem kernelSendmsg_lookups : (kernelSendmsg env s dest pkt via).1.lookups = s.lookups := by
  unfold kernelSendmsg; dsimp only; split <;> rfl

@[simp] theorem kernelSendmsg_nextLi : (kernelSendmsg env s dest pkt via).1.nextLi = s.nextLi := by
  unfold kernelSendmsg; dsimp only; split <;> rfl

theorem kernelSendmsg_mem {y : Sent} (hy : y ∈ (kernelSendmsg env s dest pkt via).1.sent) :
    y ∈ s.sent ∨ y.via = via := by
  unfold kernelSendmsg at hy
  dsimp only at hy
  split at hy
  · rcases mem_append.mp hy with hy | hy
    · exact .inl hy
    · exact .inr (by simp_all)
  · exact .inl hy

theorem kernelSendmsg_told (hok : 0 ≤ env.sendmsg dest pkt) :
    told li (kernelSendmsg env s dest pkt via).1.sent = tell li (told li s.sent) ⟨dest, pkt, via⟩ := by
  simp [kernelSendmsg, hok]

@[simp] theorem kernelSendmsg_told_none : told li (kernelSendmsg env s dest pkt none).1.sent = told li s.sent := by
  unfold kernelSendmsg
  dsimp only
  split <;> simp [tell]

theorem wf_kernelSendmsg (h : Wf s) (hv : ∀ li, via = some li → li < s.nextLi) :
    Wf (kernelSendmsg env s dest pkt via).1 where
  keyed := by simpa using h.keyed
  fresh := by simpa using h.fresh
  distinct := by simpa using h.distinct
  logged := by
    intro y hy li hli
    rw [kernelSendmsg_nextLi]
    rcases kernelSendmsg_mem hy with hy | hy
    · exact h.logged y hy li hli
    · exact hv li (hy ▸ hli)

end

/-- A change that registers and retracts nothing and tells no observer anything. -/
structure Quiet (s t : State) : Prop where
  localNode : t.localNode = s.localNode
  registered : ∀ srv, Registered t srv ↔ Registered s srv
  lookups : t.lookups = s.lookups
  told : ∀ li, told li t.sent = told li s.sent
  wf : Wf s → Wf t

theorem Quiet.refl (s : State) : Quiet s s := ⟨rfl, fun _ => Iff.rfl, rfl, fun _ => rfl, id⟩

variable {u : State} {n p : U32} {node : Node}

theorem Quiet.trans (h : Quiet s t) (h' : Quiet t u) : Quiet s u where
  localNode := h'.localNode.trans h.localNode
  registered := fun srv => (h'.registered srv).trans (h.registered srv)
  lookups := h'.lookups.trans h.lookups
  told := fun li => (h'.told li).trans (h.told li)
  wf := h'.wf ∘ h.wf

theorem Quiet.consistent (h : Quiet s t) : Consistent t ↔ Consistent s := by
  simp [Consistent, h.lookups, h.told, h.registered]

theorem Quiet.foldl {β : Type} (f : State → β → State) (hf : ∀ s b, Quiet s (f s b))
    (l : List β) (s : State) : Quiet s (l.foldl f s) := by
  induction l generalizing s with
  | nil => exact .refl s
  | cons b l ih => exact (hf s b).trans (ih (f s b))

theorem quiet_kernelSendmsg (env : Env) (s : State) (dest : SockaddrQrtr) (pkt : CtrlPkt) :
    Quiet s (kernelSendmsg env s dest pkt none).1 where
  localNode := by simp
  registered := by simp [Registered]
  lookups := by simp
  told := by simp
  wf := fun h => wf_kernelSendmsg h (by simp)

theorem quiet_nodeGet (env : Env) (s : State) (n : U32) : Quiet s (nodeGet env s n).1 := by
  unfold nodeGet
  split
  · exact .refl s
  · rename_i hn
    split
    · refine ⟨rfl, ?_, rfl, fun _ => rfl, ?_⟩
      · intro srv
        constructor
        · rintro ⟨m, node, p, hm, hp⟩
          by_cases hmn : m = n.toNat
          · subst hmn
            simp only [load_store, if_pos, some.injEq] at hm
            subst hm
            simp at hp
          · simp only [load_store, if_neg hmn] at hm
            exact ⟨m, node, p, hm, hp⟩
        · rintro ⟨m, node, p, hm, hp⟩
          refine ⟨m, node, p, ?_, hp⟩
          have hmn : m ≠ n.toNat := by rintro rfl; simp [hn] at hm
          simpa [hmn] using hm
      · intro h
        refine ⟨?_, h.fresh, h.distinct, h.logged⟩
        intro m node hm p srv hp
        by_cases hmn : m = n.toNat
        · subst hmn
          simp only [load_store, if_pos, some.injEq] at hm
          subst hm
          simp at hp
        · simp only [load_store, if_neg hmn] at hm
          exact h.keyed m node hm p srv hp
    · exact .refl s

theorem quiet_announceNode (env : Env) (sq : SockaddrQrtr) (l : List (Nat × Server))
    (s : State) : Quiet s (announceNode env sq s l).1 := by
  induction l generalizing s with
  | nil => exact .refl s
  | cons z l ih =>
    have hq := quiet_kernelSendmsg env s sq (.newServer z.2)
    simp only [announceNode]
    split
    · exact hq
    · exact hq.trans (ih _)

theorem quiet_announceNodes (env : Env) (sq : SockaddrQrtr) (l : List (Nat × Node))
    (s : State) : Quiet s (announceNodes env sq s l).1 := by
  induction l generalizing s with
  | nil => exact .refl s
  | cons z l ih =>
    have hq := quiet_announceNode env sq z.2.servers.entries s
    simp only [announceNodes]
    split
    · exact ih s
    · split
      · exact hq
      · exact hq.trans (ih _)

theorem quiet_ctrlCmdHello (env : Env) (s : State) (sq : SockaddrQrtr) : Quiet s (ctrlCmdHello env s sq).1 := by
  have hq := quiet_kernelSendmsg env s sq .hello
  simp only [ctrlCmdHello]
  split
  · exact hq
  · exact hq.trans (quiet_announceNodes env sq _ _)

theorem quiet_sendLocalServers (env : Env) (s : State) (pkt : CtrlPkt) : Quiet s (sendLocalServers env s pkt) := by
  have hq := quiet_nodeGet env s s.localNode
  unfold sendLocalServers
  split
  · rename_i heq
    simpa [heq] using hq
  · rename_i heq
    rw [heq] at hq
    exact hq.trans (Quiet.foldl _ (fun s e => quiet_kernelSendmsg env s _ pkt) _ _)

/-- What one notification adds to or takes from what an owner knows. -/
def retell (new : Bool) (srv : Server) (known : Finset Server) : Finset Server :=
  if new then insert srv known else known.erase srv

theorem retell_idem (new : Bool) (known : Finset Server) :
    retell new srv (retell new srv known) = retell new srv known := by
  cases new <;> simp [retell]

theorem lookupNotify_told {sq : SockaddrQrtr} {lj : Nat} {new : Bool}
    (hok : ∀ dest pkt, 0 ≤ env.sendmsg dest pkt) (hsrv : srv ≠ endOfList) :
    told li (lookupNotify env s lj sq (some srv) new).sent =
      if li = lj then retell new srv (told li s.sent) else told li s.sent := by
  unfold lookupNotify
  rw [kernelSendmsg_told (hok _ _)]
  by_cases h : li = lj
  · subst h
    cases new <;> simp [tell, retell, hsrv]
  · simp [tell, h, Ne.symm h]

section
variable {new : Bool}

/-- The body of the notification loops. -/
def notifyOne (env : Env) (srv : Server) (new : Bool) (s : State) (l : Lookup) : State :=
  if l.wants srv.service srv.inst then lookupNotify env s l.li l.sq (some srv) new else s

theorem notifyOne_frame (l : Lookup) : (notifyOne env srv new s l).localNode = s.localNode ∧
    (notifyOne env srv new s l).nodes = s.nodes ∧ (notifyOne env srv new s l).lookups = s.lookups ∧
    (notifyOne env srv new s l).nextLi = s.nextLi := by
  unfold notifyOne lookupNotify
  split <;> simp

theorem wf_notifyOne (l : Lookup) (h : Wf s) (hl : l.li < s.nextLi) : Wf (notifyOne env srv new s l) := by
  unfold notifyOne lookupNotify
  split
  · exact wf_kernelSendmsg h (by rintro _ ⟨rfl⟩; exact hl)
  · exact h

theorem notifyFold_frame (ls : List Lookup) (s : State) : (ls.foldl (notifyOne env srv new) s).localNode = s.localNode ∧
    (ls.foldl (notifyOne env srv new) s).nodes = s.nodes ∧ (ls.foldl (notifyOne env srv new) s).lookups = s.lookups ∧
    (ls.foldl (notifyOne env srv new) s).nextLi = s.nextLi := by
  induction ls generalizing s with
  | nil => simp
  | cons l ls ih =>
    obtain ⟨h₁, h₂, h₃, h₄⟩ := ih (notifyOne env srv new s l)
    have hone : (notifyOne env srv new s l).localNode = s.localNode ∧ (notifyOne env srv new s l).nodes = s.nodes ∧
        (notifyOne env srv new s l).lookups = s.lookups ∧
        (notifyOne env srv new s l).nextLi = s.nextLi := notifyOne_frame l
    exact ⟨h₁.trans hone.1, h₂.trans hone.2.1, h₃.trans hone.2.2.1, h₄.trans hone.2.2.2⟩

theorem wf_notifyFold (ls : List Lookup) (s : State) (h : Wf s)
    (hl : ∀ l ∈ ls, l.li < s.nextLi) : Wf (ls.foldl (notifyOne env srv new) s) := by
  induction ls generalizing s with
  | nil => exact h
  | cons l ls ih =>
    apply ih _ (wf_notifyOne l h (hl l (by simp)))
    intro l' hl'
    rw [(notifyOne_frame l).2.2.2]
    exact hl l' (.tail _ hl')

theorem notifyFold_told (hok : ∀ dest pkt, 0 ≤ env.sendmsg dest pkt) (hsrv : srv ≠ endOfList)
    (ls : List Lookup) (s : State) : told li (ls.foldl (notifyOne env srv new) s).sent =
      if ∃ l ∈ ls, l.li = li ∧ l.Wants srv then retell new srv (told li s.sent) else told li s.sent := by
  induction ls generalizing s with
  | nil => simp
  | cons l ls ih =>
    have hone : told li (notifyOne env srv new s l).sent =
        if l.li = li ∧ l.Wants srv then retell new srv (told li s.sent) else told li s.sent := by
      unfold notifyOne Lookup.Wants
      by_cases hw : l.wants srv.service srv.inst
      · by_cases hl : l.li = li
        · simp [hw, hl, lookupNotify_told hok hsrv]
        · simp [hw, hl, lookupNotify_told hok hsrv, Ne.symm hl]
      · simp [hw]
    rw [foldl_cons, ih, hone]
    by_cases h₁ : l.li = li ∧ l.Wants srv
    · by_cases h₂ : ∃ l ∈ ls, l.li = li ∧ l.Wants srv
      · simp [h₁, h₂, retell_idem]
      · simp [h₁, h₂]
    · by_cases h₂ : ∃ l ∈ ls, l.li = li ∧ l.Wants srv
      · simp [h₁, h₂]
      · simp [h₁, h₂]

theorem notifyLookups_eq : notifyLookups env s srv new = s.lookups.foldl (notifyOne env srv new) s := rfl

theorem wf_notifyLookups (h : Wf s) : Wf (notifyLookups env s srv new) :=
  wf_notifyFold _ _ h h.fresh

theorem registered_notifyLookups : Registered (notifyLookups env s srv new) x ↔ Registered s x := by
  simp [Registered, notifyLookups_eq, (notifyFold_frame s.lookups s).2.1]

theorem notifyLookups_localNode : (notifyLookups env s srv new).localNode = s.localNode :=
  (notifyFold_frame s.lookups s).1

theorem notifyLookups_lookups : (notifyLookups env s srv new).lookups = s.lookups :=
  (notifyFold_frame s.lookups s).2.2.1

/-- Identities are distinct, so a registered lookup is told exactly when it matches. -/
theorem told_notifyLookups (hok : ∀ dest pkt, 0 ≤ env.sendmsg dest pkt) (h : Wf s)
    (hsrv : srv ≠ endOfList) {l : Lookup} (hl : l ∈ s.lookups) : told l.li (notifyLookups env s srv new).sent =
      if l.Wants srv then retell new srv (told l.li s.sent) else told l.li s.sent := by
  have hex : (∃ l' ∈ s.lookups, l'.li = l.li ∧ l'.Wants srv) ↔ l.Wants srv := by
    constructor
    · rintro ⟨l', hl', he, hw⟩
      exact inj_on_of_nodup_map h.distinct hl' hl he ▸ hw
    · exact fun hw => ⟨l, hl, rfl, hw⟩
  rw [notifyLookups_eq, notifyFold_told hok hsrv]
  by_cases hw : l.Wants srv <;> simp [hex, hw]

end

/-- The state in which `server_del` announces the removal. -/
def unlinked (s : State) (nodeId port : U32) (node : Node) : State :=
  let node := { node with servers := node.servers.erase port.toNat }
  { s with nodes := s.nodes.store nodeId.toNat node }

theorem wf_unlinked (h : Wf s) (hn : s.nodes.load n.toNat = some node) : Wf (unlinked s n p node) := by
  refine ⟨?_, h.fresh, h.distinct, h.logged⟩
  intro m node' hm q srv' hq
  by_cases hmn : m = n.toNat
  · subst hmn
    simp only [unlinked, load_store, if_pos, some.injEq] at hm
    subst hm
    by_cases hqp : q = p.toNat
    · simp [hqp] at hq
    · simp only [load_erase, if_neg hqp] at hq
      exact h.keyed _ node hn q srv' hq
  · simp only [unlinked, load_store, if_neg hmn] at hm
    exact h.keyed m node' hm q srv' hq

theorem registered_unlinked (h : Wf s) (hn : s.nodes.load n.toNat = some node)
    (hp : node.servers.load p.toNat = some srv) : Registered (unlinked s n p node) x ↔ Registered s x ∧ x ≠ srv := by
  obtain ⟨hsn, hsp, _⟩ := h.keyed _ node hn _ srv hp
  constructor
  · rintro ⟨m, node', q, hm, hq⟩
    by_cases hmn : m = n.toNat
    · subst hmn
      simp only [unlinked, load_store, if_pos, some.injEq] at hm
      subst hm
      by_cases hqp : q = p.toNat
      · simp [hqp] at hq
      · simp only [load_erase, if_neg hqp] at hq
        refine ⟨⟨_, node, q, hn, hq⟩, ?_⟩
        rintro rfl
        exact hqp ((h.keyed _ node hn q x hq).2.1.symm.trans hsp)
    · simp only [unlinked, load_store, if_neg hmn] at hm
      refine ⟨⟨m, node', q, hm, hq⟩, ?_⟩
      rintro rfl
      exact hmn ((h.keyed m node' hm q x hq).1.symm.trans hsn)
  · rintro ⟨⟨m, node', q, hm, hq⟩, hx⟩
    by_cases hmn : m = n.toNat
    · subst hmn
      obtain rfl : node = node' := some.inj (hn.symm.trans hm)
      have hqp : q ≠ p.toNat := by
        rintro rfl
        exact hx (some.inj (hq.symm.trans hp))
      refine ⟨n.toNat, { node with servers := node.servers.erase p.toNat }, q, ?_, ?_⟩
      · simp [unlinked]
      · simpa [hqp] using hq
    · exact ⟨m, node', q, by simpa [unlinked, hmn] using hm, hq⟩

/-- The server a port holds: a registration there overwrites it. -/
def replaced (s : State) (nodeId port : U32) : Option Server :=
  (s.nodes.load nodeId.toNat).bind (fun node => node.servers.load port.toNat)

theorem serverDel_cases (env : Env) (s : State) (n p : U32) (bcast : Bool) :
    (serverDel env s n p bcast = s ∧ replaced s n p = none) ∨
    ∃ node srv u, s.nodes.load n.toNat = some node ∧ node.servers.load p.toNat = some srv ∧
      Quiet (unlinked s n p node) u ∧ serverDel env s n p bcast = notifyLookups env u srv false := by
  cases hn : s.nodes.load n.toNat with
  | none => exact .inl ⟨by simp [serverDel, hn], by simp [replaced, hn]⟩
  | some node =>
    cases hp : node.servers.load p.toNat with
    | none => exact .inl ⟨by simp [serverDel, hn, hp], by simp [replaced, hn, hp]⟩
    | some srv =>
      by_cases hb : srv.node = s.localNode ∧ bcast
      · refine .inr ⟨node, srv, serviceAnnounceDel env (unlinked s n p node) bcastSq srv,
          rfl, hp, quiet_kernelSendmsg env _ bcastSq (.delServer srv), ?_⟩
        simp [serverDel, hn, hp, hb, unlinked]
      · refine .inr ⟨node, srv, unlinked s n p node, rfl, hp, .refl _, ?_⟩
        simp [serverDel, hn, hp, unlinked, if_neg hb]

theorem wf_serverDel (n p : U32) (bcast : Bool) (h : Wf s) : Wf (serverDel env s n p bcast) := by
  rcases serverDel_cases env s n p bcast with ⟨he, _⟩ | ⟨node, srv, u, hn, _, hq, he⟩
  · rwa [he]
  · rw [he]
    exact wf_notifyLookups (hq.wf (wf_unlinked h hn))

/-- A removal is announced to exactly the observers that know the server. -/
theorem consistent_serverDel (hok : ∀ dest pkt, 0 ≤ env.sendmsg dest pkt) (n p : U32)
    (bcast : Bool) (h : Wf s) (hc : Consistent s) : Consistent (serverDel env s n p bcast) := by
  rcases serverDel_cases env s n p bcast with ⟨he, _⟩ | ⟨node, srv, u, hn, hp, hq, he⟩
  · rwa [he]
  · rw [he]
    have hu := hq.wf (wf_unlinked h hn)
    have hsrv : srv ≠ endOfList := registered_ne_endOfList h ⟨_, node, _, hn, hp⟩
    have hlookups : u.lookups = s.lookups := hq.lookups
    intro l hl x
    rw [notifyLookups_lookups] at hl
    rw [told_notifyLookups hok hu hsrv hl, registered_notifyLookups, hq.registered, registered_unlinked h hn hp]
    have hold : x ∈ told l.li u.sent ↔ Registered s x ∧ l.Wants x := by
      rw [hq.told]
      exact hc l (hlookups ▸ hl) x
    by_cases hw : l.Wants srv
    · simp only [hw, if_true, retell, Bool.false_eq_true, if_false, Finset.mem_erase, hold]
      tauto
    · simp only [hw, if_false, hold]
      constructor
      · rintro ⟨hr, hx⟩
        exact ⟨⟨hr, by rintro rfl; exact hw hx⟩, hx⟩
      · rintro ⟨⟨hr, _⟩, hx⟩
        exact ⟨hr, hx⟩

theorem replaced_iff (h : Wf s) : replaced s n p = some x ↔ Registered s x ∧ x.node = n ∧ x.port = p := by
  constructor
  · intro hr
    obtain ⟨node, hn, hp⟩ := bind_eq_some_iff.mp hr
    obtain ⟨hxn, hxp, _⟩ := h.keyed _ node hn _ x hp
    exact ⟨⟨_, node, _, hn, hp⟩, eq_of_toNat_eq hxn, eq_of_toNat_eq hxp⟩
  · rintro ⟨hr, rfl, rfl⟩
    obtain ⟨node, hn, hp⟩ := (registered_iff h).mp hr
    simp [replaced, hn, hp]

/-- A state that differs from `s` in holding `srv` under its own node and port. -/
structure Linked (s t : State) (srv : Server) : Prop where
  localNode : t.localNode = s.localNode
  registered : ∀ x, Registered t x ↔
    x = srv ∨ (Registered s x ∧ ¬(x.node = srv.node ∧ x.port = srv.port))
  lookups : t.lookups = s.lookups
  told : ∀ li, told li t.sent = told li s.sent
  wf : Wf t

theorem linked_store (h : Wf s) (hs : srv.service ≠ 0) (hn : s.nodes.load srv.node.toNat = some node) :
    Linked s { s with nodes := s.nodes.store srv.node.toNat
                        { node with servers := node.servers.store srv.port.toNat srv } } srv where
  localNode := rfl
  registered := by
    intro x
    constructor
    · rintro ⟨m, node', q, hm, hq⟩
      by_cases hmn : m = srv.node.toNat
      · subst hmn
        simp only [load_store, if_pos, some.injEq] at hm
        subst hm
        by_cases hqp : q = srv.port.toNat
        · simp only [load_store, if_pos hqp, some.injEq] at hq
          exact .inl hq.symm
        · simp only [load_store, if_neg hqp] at hq
          refine .inr ⟨⟨_, node, q, hn, hq⟩, ?_⟩
          rintro ⟨_, hp⟩
          exact hqp ((h.keyed _ node hn q x hq).2.1.symm.trans (congrArg _ hp))
      · simp only [load_store, if_neg hmn] at hm
        refine .inr ⟨⟨m, node', q, hm, hq⟩, ?_⟩
        rintro ⟨hx, _⟩
        exact hmn ((h.keyed m node' hm q x hq).1.symm.trans (congrArg _ hx))
    · rintro (rfl | ⟨hr, hx⟩)
      · exact ⟨_, _, x.port.toNat, load_store.trans (if_pos rfl), by simp⟩
      · obtain ⟨node', hm, hq⟩ := (registered_iff h).mp hr
        by_cases hmn : x.node = srv.node
        · have hqp : x.port.toNat ≠ srv.port.toNat := by
            intro hq'
            exact hx ⟨hmn, eq_of_toNat_eq hq'⟩
          rw [hmn] at hm
          obtain rfl : node = node' := some.inj (hn.symm.trans hm)
          refine ⟨_, _, x.port.toNat, load_store.trans (if_pos rfl), ?_⟩
          simpa [hqp] using hq
        · have hmn' : x.node.toNat ≠ srv.node.toNat := fun he => hmn (eq_of_toNat_eq he)
          refine ⟨x.node.toNat, node', _, ?_, hq⟩
          simpa [hmn'] using hm
  lookups := rfl
  told := fun _ => rfl
  wf := by
    refine ⟨?_, h.fresh, h.distinct, h.logged⟩
    intro m node' hm q x hq
    by_cases hmn : m = srv.node.toNat
    · subst hmn
      simp only [load_store, if_pos, some.injEq] at hm
      subst hm
      by_cases hqp : q = srv.port.toNat
      · simp only [load_store, if_pos hqp, some.injEq] at hq
        exact hq ▸ ⟨rfl, hqp.symm, hs⟩
      · simp only [load_store, if_neg hqp] at hq
        exact h.keyed _ node hn q x hq
    · simp only [load_store, if_neg hmn] at hm
      exact h.keyed m node' hm q x hq

theorem Quiet.linked (hq : Quiet s t) (hl : Linked t u srv) : Linked s u srv where
  localNode := hl.localNode.trans hq.localNode
  registered := by
    intro x
    rw [hl.registered, hq.registered]
  lookups := hl.lookups.trans hq.lookups
  told := fun li => (hl.told li).trans (hq.told li)
  wf := hl.wf

theorem Linked.quiet (hl : Linked s t srv) (hq : Quiet t u) : Linked s u srv where
  localNode := hq.localNode.trans hl.localNode
  registered := by
    intro x
    rw [hq.registered, hl.registered]
  lookups := hq.lookups.trans hl.lookups
  told := fun li => (hq.told li).trans (hl.told li)
  wf := hq.wf hl.wf

end Sm8850.Ns
