import Sm8850.Lib.Path
import Sm8850.Qrtr.SendPath

/-! The port table of net/qrtr/af_qrtr.c: binding, automatic binding and release of any number of
sockets. -/
namespace Sm8850.Qrtr.Ports
open Option List Function BitVec Prod Lts

open Sm8850.Ns (U32 SockaddrQrtr EINVAL ENOMEM)

def minEphSocket : Nat := 0x4000
def maxEphSocket : Nat := 0x7fff

def EACCES : Int := 13
def EBUSY : Int := 16
def EADDRINUSE : Int := 98

/-- `struct qrtr_sock`: its address, and whether it is not bound and was reset. -/
structure Sock where
  us : SockaddrQrtr
  zapped : Bool
  netReset : Bool

/-- `qrtr_ports` with the place where the next automatic port is looked for, and the open
sockets. -/
structure State where
  localNid : U32
  ports : XArray Nat
  portsNext : Nat
  socks : Nat → Option Sock

def init (localNid : U32) : State := ⟨localNid, .empty, 0, fun _ => none⟩

/-- What a call meets: whether the caller may use low ports, and whether the array can be extended,
at the first and at the second attempt. -/
structure Caller where
  admin : Bool
  mem : Bool
  memAgain : Bool

/-- A port is an int, and its index an unsigned long; the control port is kept at index 0. -/
def portIndex (port : U32) : Nat := if port = portCtrl then 0 else (port.signExtend 64).toNat

def portLookup (s : State) (port : U32) : Option Nat := s.ports.load (portIndex port)

/-- `xa_insert`. -/
def xaInsert (x : XArray Nat) (i v : Nat) (mem : Bool) : Except Int (XArray Nat) :=
  if (x.load i).isSome then .error (-EBUSY)
  else if mem then .ok (x.store i v)
  else .error (-ENOMEM)

/-- The first index from `lo` to `hi` that is free. -/
def freeIndex (x : XArray Nat) (lo hi : Nat) : Option Nat :=
  (range' lo (hi + 1 - lo)).find? (fun i => (x.load i).isNone)

/-- `xa_alloc`. -/
def xaAlloc (x : XArray Nat) (v lo hi : Nat) (mem : Bool) : Except Int (XArray Nat × Nat) :=
  match freeIndex x lo hi with
  | none => .error (-EBUSY)
  | some i => if mem then .ok (x.store i v, i) else .error (-ENOMEM)

/-- `xa_alloc_cyclic`: from the place behind the last one, and then from the start. -/
def xaAllocCyclic (x : XArray Nat) (v lo hi next : Nat) (c : Caller) : Except Int (XArray Nat × Nat) :=
  match xaAlloc x v (max lo next) hi c.mem with
  | .ok r => .ok r
  | .error e => if lo < max lo next then xaAlloc x v lo hi c.memAgain else .error e

/-- `qrtr_port_assign` before its error codes are translated. -/
def portInsert (s : State) (id : Nat) (port : U32) (c : Caller) : Except Int (State × U32) :=
  if port = 0 then
    (xaAllocCyclic s.ports id minEphSocket maxEphSocket s.portsNext c).map (fun r =>
      ({ s with ports := r.1, portsNext := r.2 + 1 }, BitVec.ofNat 32 r.2))
  else if port.toInt < minEphSocket ∧ !c.admin then .error (-EACCES)
  else (xaInsert s.ports (portIndex port) id c.mem).map (fun x => ({ s with ports := x }, port))

def portAssign (s : State) (id : Nat) (port : U32) (c : Caller) : Except Int (State × U32) :=
  match portInsert s id port c with
  | .ok r => .ok r
  | .error e => if e = -EBUSY then .error (-EADDRINUSE) else .error e

def State.setSock (s : State) (id : Nat) (sk : Option Sock) : State :=
  { s with socks := update s.socks id sk }

/-- Every socket behind index 0 gets an error. -/
def resetPorts (s : State) : State :=
  { s with socks := fun id => (s.socks id).map (fun sk =>
      if s.ports.entries.any (fun e => e.1 ≠ 0 ∧ e.2 = id) then { sk with netReset := true } else sk) }

def portRemove (s : State) (port : U32) : State := { s with ports := s.ports.erase (portIndex port) }

/-- `__qrtr_bind` of an open socket. -/
def bindPort (s : State) (id : Nat) (sk : Sock) (port : U32) (c : Caller) : State × Int :=
  if !sk.zapped ∧ port = sk.us.sqPort then (s, 0)
  else
    match portAssign s id port c with
    | .error e => (s, e)
    | .ok (s, port) =>
      let s := if port = portCtrl then resetPorts s else s
      let s := if !sk.zapped then portRemove s sk.us.sqPort else s
      ({ s with socks := update s.socks id ((s.socks id).map (fun sk =>
          { sk with us := { sk.us with sqPort := port }, zapped := false })) }, 0)

inductive Action
  | create (id : Nat)
  | bind (id : Nat) (addr : SockaddrQrtr) (c : Caller)
  | autobind (id : Nat) (c : Caller)
  | release (id : Nat)

/-- One call, with its result; none if the socket is not open, or already is. A send binds a
socket that is not bound. -/
def step (s : State) : Action → Option (State × Int)
  | .create id =>
    match s.socks id with
    | none => some (s.setSock id (some ⟨⟨s.localNid, 0⟩, true, false⟩), 0)
    | some _ => none
  | .bind id addr c =>
    match s.socks id with
    | none => none
    | some sk =>
      if addr.sqNode ≠ sk.us.sqNode then some (s, -EINVAL) else some (bindPort s id sk addr.sqPort c)
  | .autobind id c =>
    match s.socks id with
    | none => none
    | some sk => if sk.zapped then some (bindPort s id sk 0 c) else some (s, 0)
  | .release id =>
    match s.socks id with
    | none => none
    | some sk =>
      let s := if !sk.zapped then portRemove s sk.us.sqPort else s
      some (s.setSock id none, 0)

def Step (s : State) (a : Action) (t : State) : Prop := ∃ rc, step s a = some (t, rc)

variable {s t : State} {a : Action} {sk : Sock} {port q : U32} {c : Caller} {id i j lo hi next v : Nat}
  {x y : XArray Nat} {rc e : Int}

section

theorem signExtend_inj (h : port.signExtend 64 = q.signExtend 64) : port = q := by
  have hlow : ∀ p : U32, (p.signExtend 64).setWidth 32 = p := by
    intro p
    ext k hk
    have h64 : k < 64 := by omega
    rw [getElem_setWidth, getLsbD_signExtend]
    simp [hk, h64]
  rw [← hlow port, ← hlow q, h]

/-- Ports other than 0 have different indices. -/
theorem portIndex_inj (hp : port ≠ 0) (hq : q ≠ 0) (h : portIndex port = portIndex q) : port = q := by
  have hzero : ∀ p : U32, (p.signExtend 64).toNat = 0 → p = 0 := by
    intro p h0
    exact signExtend_inj (eq_of_toNat_eq (h0.trans (by decide)))
  unfold portIndex at h
  split at h
  · rename_i hpc
    split at h
    · rename_i hqc
      rw [hpc, hqc]
    · exact absurd (hzero q h.symm) hq
  · split at h
    · exact absurd (hzero port h) hp
    · exact signExtend_inj (eq_of_toNat_eq h)

theorem portIndex_zero : portIndex 0 = 0 := by decide

theorem portIndex_ctrl : portIndex portCtrl = 0 := by decide

theorem portIndex_eph (hlo : minEphSocket ≤ i) (hhi : i ≤ maxEphSocket) :
    portIndex (BitVec.ofNat 32 i) = i ∧ BitVec.ofNat 32 i ≠ 0 ∧ BitVec.ofNat 32 i ≠ portCtrl := by
  unfold minEphSocket at hlo
  unfold maxEphSocket at hhi
  have hnat : (BitVec.ofNat 32 i).toNat = i := by
    rw [toNat_ofNat, Nat.mod_eq_of_lt (by omega)]
  have hctrl : BitVec.ofNat 32 i ≠ portCtrl := by
    intro h
    have := congrArg BitVec.toNat h
    rw [hnat] at this
    have hc : portCtrl.toNat = 0xfffffffe := rfl
    omega
  refine ⟨?_, ?_, hctrl⟩
  · have hmsb : (BitVec.ofNat 32 i).msb = false := by
      rw [msb_eq_false_iff_two_mul_lt, hnat]
      omega
    rw [portIndex, if_neg hctrl, signExtend_eq_setWidth_of_msb_false hmsb, toNat_setWidth, hnat,
      Nat.mod_eq_of_lt (by omega)]
  · intro h
    have := congrArg BitVec.toNat h
    rw [hnat] at this
    have hz : (0 : U32).toNat = 0 := rfl
    omega

end

section

theorem xaInsert_ok {mem : Bool} (h : xaInsert x i v mem = .ok y) : x.load i = none ∧ y = x.store i v := by
  unfold xaInsert at h
  split at h
  · cases h
  · rename_i hfree
    split at h
    · cases h
      exact ⟨by simpa using hfree, rfl⟩
    · cases h

theorem xaAlloc_ok {mem : Bool} (h : xaAlloc x v lo hi mem = .ok (y, i)) :
    x.load i = none ∧ y = x.store i v ∧ lo ≤ i ∧ i ≤ hi := by
  unfold xaAlloc at h
  split at h
  · cases h
  · rename_i k hfree
    split at h
    · cases h
      have hnone := find?_some hfree
      have hmem := mem_range'_1.mp (mem_of_find?_eq_some hfree)
      exact ⟨by simpa using hnone, rfl, hmem.1, by omega⟩
    · cases h

theorem xaAllocCyclic_ok (h : xaAllocCyclic x v lo hi next c = .ok (y, i)) :
    x.load i = none ∧ y = x.store i v ∧ lo ≤ i ∧ i ≤ hi := by
  unfold xaAllocCyclic at h
  split at h
  · rename_i r hfirst
    cases h
    obtain ⟨hfree, hy, hlo, hhi⟩ := xaAlloc_ok hfirst
    exact ⟨hfree, hy, by omega, hhi⟩
  · split at h
    · exact xaAlloc_ok h
    · cases h

/-- A port that is assigned was free, and is an index of its own. -/
theorem portAssign_ok (h : portAssign s id port c = .ok (t, q)) :
    q ≠ 0 ∧ s.ports.load (portIndex q) = none ∧ t.ports = s.ports.store (portIndex q) id ∧
      t.socks = s.socks ∧ t.localNid = s.localNid ∧ (port ≠ 0 → q = port) := by
  unfold portAssign at h
  split at h
  · rename_i r hins
    cases h
    unfold portInsert at hins
    split at hins
    · rename_i hzero
      cases hcyc : xaAllocCyclic s.ports id minEphSocket maxEphSocket s.portsNext c with
      | error e =>
        rw [hcyc] at hins
        cases hins
      | ok r =>
        obtain ⟨y, i⟩ := r
        rw [hcyc] at hins
        cases hins
        obtain ⟨hfree, rfl, hlo, hhi⟩ := xaAllocCyclic_ok hcyc
        obtain ⟨hindex, hne, -⟩ := portIndex_eph hlo hhi
        refine ⟨hne, ?_, ?_, rfl, rfl, fun h => absurd hzero h⟩
        · rw [hindex]
          exact hfree
        · rw [hindex]
    · rename_i hzero
      split at hins
      · cases hins
      · cases hxa : xaInsert s.ports (portIndex port) id c.mem with
        | error e =>
          rw [hxa] at hins
          cases hins
        | ok y =>
          rw [hxa] at hins
          cases hins
          obtain ⟨hfree, rfl⟩ := xaInsert_ok hxa
          exact ⟨hzero, hfree, rfl, rfl, rfl, fun _ => rfl⟩
  · split at h
    · cases h
    · cases h

end

section

/-- The port that an open socket is bound to. -/
def boundPort (s : State) (id : Nat) : Option U32 :=
  match s.socks id with
  | none => none
  | some sk => if sk.zapped then none else some sk.us.sqPort

/-- The table holds the bound sockets and nothing else, each at the index of its port. -/
structure Inv (s : State) : Prop where
  table : ∀ i id, s.ports.load i = some id ↔ ∃ port, boundPort s id = some port ∧ i = portIndex port
  nonzero : ∀ id port, boundPort s id = some port → port ≠ 0

/-- The table without the entry of a port. -/
def dropPort (x : XArray Nat) : Option U32 → XArray Nat
  | none => x
  | some port => x.erase (portIndex port)

theorem load_dropPort (x : XArray Nat) (old : Option U32) (i : Nat) :
    (dropPort x old).load i = if old.map portIndex = some i then none else x.load i := by
  cases old with
  | none => simp [dropPort]
  | some port =>
    simp [dropPort, eq_comm]

/-- What a call does to the table and to the ports of the sockets. -/
inductive Effect (s t : State) : Prop
  | same (hports : t.ports = s.ports) (hsocks : ∀ j, boundPort t j = boundPort s j)
  | bound (id : Nat) (q : U32) (hne : q ≠ 0) (hfree : s.ports.load (portIndex q) = none)
      (hports : t.ports = dropPort (s.ports.store (portIndex q) id) (boundPort s id))
      (hsocks : ∀ j, boundPort t j = if j = id then some q else boundPort s j)
  | released (id : Nat) (hports : t.ports = dropPort s.ports (boundPort s id))
      (hsocks : ∀ j, boundPort t j = if j = id then none else boundPort s j)

theorem boundPort_of_sock (h : s.socks id = some sk) :
    boundPort s id = if sk.zapped then none else some sk.us.sqPort := by
  simp [boundPort, h]

theorem boundPort_resetPorts (s : State) (j : Nat) : boundPort (resetPorts s) j = boundPort s j := by
  unfold boundPort resetPorts
  dsimp only
  cases s.socks j with
  | none => rfl
  | some sk =>
    simp only [map_some]
    split <;> rfl

theorem bindPort_effect (hsk : s.socks id = some sk) (port : U32) (c : Caller) :
    Effect s (bindPort s id sk port c).1 := by
  unfold bindPort
  split
  · exact .same rfl (fun _ => rfl)
  split
  · exact .same rfl (fun _ => rfl)
  · rename_i s' q hassign
    obtain ⟨hne, hfree, hports, hsocks, -⟩ := portAssign_ok hassign
    have hold : boundPort s id = if sk.zapped then none else some sk.us.sqPort := boundPort_of_sock hsk
    have hreset : ∀ j, boundPort (if q = portCtrl then resetPorts s' else s') j = boundPort s j := by
      intro j
      have hsame : boundPort s' j = boundPort s j := by simp only [boundPort, hsocks]
      split
      · rw [boundPort_resetPorts, hsame]
      · exact hsame
    have hopen : ∃ sk', (if q = portCtrl then resetPorts s' else s').socks id = some sk' := by
      split
      · simp only [resetPorts, hsocks, hsk, map_some]
        exact ⟨_, rfl⟩
      · exact ⟨sk, by rw [hsocks, hsk]⟩
    have htable : (if q = portCtrl then resetPorts s' else s').ports = s'.ports := by
      split <;> rfl
    generalize (if q = portCtrl then resetPorts s' else s') = u at hreset hopen htable
    obtain ⟨sk', hsk'⟩ := hopen
    refine .bound id q hne hfree ?_ (fun j => ?_)
    · rw [hold, ← hports, ← htable]
      cases sk.zapped <;> rfl
    · have hsocksu : (if !sk.zapped then portRemove u sk.us.sqPort else u).socks = u.socks := by
        split <;> rfl
      rw [← hreset j]
      unfold boundPort
      dsimp only
      rw [hsocksu, update_apply]
      by_cases hj : j = id
      · simp [hj, hsk']
      · simp [hj]

theorem step_effect (h : Step s a t) : Effect s t := by
  obtain ⟨rc, h⟩ := h
  cases a with
  | create id =>
    simp only [step] at h
    split at h
    · rename_i hnone
      cases h
      refine .same rfl (fun j => ?_)
      simp only [boundPort, State.setSock, update_apply]
      by_cases hj : j = id
      · subst hj
        simp [hnone]
      · simp [hj]
    · cases h
  | bind id addr c =>
    simp only [step] at h
    split at h
    · cases h
    · rename_i sk hsk
      split at h
      · cases h
        exact .same rfl (fun _ => rfl)
      · have heffect := bindPort_effect hsk addr.sqPort c
        rwa [some.inj h] at heffect
  | autobind id c =>
    simp only [step] at h
    split at h
    · cases h
    · rename_i sk hsk
      split at h
      · have heffect := bindPort_effect hsk 0 c
        rwa [some.inj h] at heffect
      · cases h
        exact .same rfl (fun _ => rfl)
  | release id =>
    simp only [step] at h
    split at h
    · cases h
    · rename_i sk hsk
      cases h
      have hold : boundPort s id = if sk.zapped then none else some sk.us.sqPort := boundPort_of_sock hsk
      refine .released id ?_ (fun j => ?_)
      · rw [hold]
        cases sk.zapped <;> rfl
      · have hsocks : (if !sk.zapped then portRemove s sk.us.sqPort else s).socks = s.socks := by
          split <;> rfl
        simp only [boundPort, State.setSock, hsocks, update_apply]
        by_cases hj : j = id
        · simp [hj]
        · simp [hj]

theorem inv_init (localNid : U32) : Inv (init localNid) where
  table := by
    intro i id
    simp [init, boundPort]
  nonzero := by
    intro id port h
    simp [init, boundPort] at h

theorem Inv.load_of_bound (hI : Inv s) (h : boundPort s id = some port) :
    s.ports.load (portIndex port) = some id := (hI.table _ id).mpr ⟨port, h, rfl⟩

/-- The entry that is dropped with a port is the socket's own. -/
theorem Inv.load_of_dropped (hI : Inv s) (h : (boundPort s id).map portIndex = some i) : s.ports.load i = some id := by
  obtain ⟨port, hport, rfl⟩ := map_eq_some_iff.mp h
  exact hI.load_of_bound hport

theorem Inv.load_dropPort_iff (hI : Inv s) :
    (dropPort s.ports (boundPort s id)).load i = some j ↔ s.ports.load i = some j ∧ j ≠ id := by
  rw [load_dropPort]
  split
  · rename_i hdrop
    rw [hI.load_of_dropped hdrop]
    simp [eq_comm]
  · rename_i hdrop
    refine (and_iff_left_of_imp ?_).symm
    rintro hload rfl
    obtain ⟨port, hport, hi⟩ := (hI.table i j).mp hload
    exact hdrop (by rw [hport, hi, map_some])

theorem inv_step (h : Step s a t) (hI : Inv s) : Inv t := by
  cases step_effect h with
  | same hports hsocks =>
    refine ⟨fun i id => ?_, fun id port hport => ?_⟩
    · rw [hports, hI.table]
      simp [hsocks]
    · rw [hsocks] at hport
      exact hI.nonzero id port hport
  | released id hports hsocks =>
    refine ⟨fun i j => ?_, fun j port hport => ?_⟩
    · rw [hports, hI.load_dropPort_iff, hI.table, hsocks]
      by_cases hj : j = id
      · simp [hj]
      · simp [hj]
    · rw [hsocks] at hport
      split at hport
      · cases hport
      · exact hI.nonzero j port hport
  | bound id q hne hfree hports hsocks =>
    -- the old port of the socket is another one, so it may as well be dropped first
    have hload : ∀ i, t.ports.load i = if i = portIndex q then some id else (dropPort s.ports (boundPort s id)).load i := by
      intro i
      rw [hports, load_dropPort, load_dropPort, XArray.load_store]
      by_cases hi : i = portIndex q
      · subst hi
        rw [if_neg fun hdrop => (by cases hfree.symm.trans (hI.load_of_dropped hdrop)), if_pos rfl, if_pos rfl]
      · rw [if_neg hi, if_neg hi]
    refine ⟨fun i j => ?_, fun j port hport => ?_⟩
    · rw [hload, hsocks]
      by_cases hi : i = portIndex q
      · subst hi
        have hother := hI.table (portIndex q) j
        rw [hfree] at hother
        by_cases hj : j = id
        · simp [hj]
        · simpa [hj, Ne.symm hj] using hother
      · rw [if_neg hi, hI.load_dropPort_iff, hI.table]
        by_cases hj : j = id
        · simp [hj, hi]
        · simp [hj]
    · rw [hsocks] at hport
      split at hport
      · cases hport
        exact hne
      · exact hI.nonzero j port hport

/-- Which ports find a socket. -/
theorem portLookup_iff (hI : Inv s) : portLookup s port = some id ↔
    ∃ q, boundPort s id = some q ∧ (port = q ∨ (port = 0 ∧ q = portCtrl)) := by
  rw [portLookup, hI.table]
  constructor
  · rintro ⟨q, hq, hindex⟩
    refine ⟨q, hq, ?_⟩
    have hne := hI.nonzero id q hq
    by_cases hzero : port = 0
    · refine .inr ⟨hzero, ?_⟩
      rw [hzero, portIndex_zero] at hindex
      exact (portIndex_inj hne (by decide) (hindex.symm.trans portIndex_ctrl.symm))
    · exact .inl (portIndex_inj hzero hne hindex)
  · rintro ⟨q, hq, rfl | ⟨rfl, rfl⟩⟩
    · exact ⟨port, hq, rfl⟩
    · exact ⟨portCtrl, hq, portIndex_zero.trans portIndex_ctrl.symm⟩

/-- A call that fails changes nothing. -/
theorem step_error (h : step s a = some (t, rc)) (hrc : rc < 0) : t = s := by
  have hbind : ∀ {id sk port c}, bindPort s id sk port c = (t, rc) → t = s := by
    intro id sk port c h
    unfold bindPort at h
    split at h
    · cases h
      rfl
    split at h
    · cases h
      rfl
    · cases h
      exact absurd hrc (by decide)
  cases a with
  | create id =>
    simp only [step] at h
    split at h
    · cases h
      exact absurd hrc (by decide)
    · cases h
  | bind id addr c =>
    simp only [step] at h
    split at h
    · cases h
    · split at h
      · cases h
        rfl
      · exact hbind (some.inj h)
  | autobind id c =>
    simp only [step] at h
    split at h
    · cases h
    · split at h
      · exact hbind (some.inj h)
      · cases h
        rfl
  | release id =>
    simp only [step] at h
    split at h
    · cases h
    · cases h
      exact absurd hrc (by decide)

end

/-- What is said of the port table: it is in bijection with the bound sockets, a socket is found
under its own port, the control socket under port 0 as well, and under no other, a socket that is
not open under none, and a call that fails changes nothing. -/
structure Consistent (s : State) : Prop where
  bijection : ∀ i id, s.ports.load i = some id ↔ ∃ port, boundPort s id = some port ∧ i = portIndex port
  distinct : ∀ id id' port, boundPort s id = some port → boundPort s id' = some port → id = id'
  found : ∀ id port, portLookup s port = some id ↔
    ∃ q, boundPort s id = some q ∧ (port = q ∨ (port = 0 ∧ q = portCtrl))
  closed : ∀ id, s.socks id = none → ∀ port, portLookup s port ≠ some id
  failed : ∀ a t rc, step s a = some (t, rc) → rc < 0 → t = s

/-- The port table is consistent in every state of a run. -/
theorem port_table_consistent {localNid : U32} {run : List (Action × State)}
    (hrun : Lts.Path Step (init localNid) run) : ∀ u ∈ init localNid :: run.map snd, Consistent u := by
  have hinv := hrun.invariant (fun _ _ _ hstep hI => inv_step hstep hI) (inv_init localNid)
  intro u hu
  have hI := hinv u hu
  refine ⟨hI.table, fun id id' port h h' => ?_, fun id port => portLookup_iff hI, fun id hnone port h => ?_,
    fun a t rc => step_error⟩
  · exact Option.some.inj ((hI.load_of_bound h).symm.trans (hI.load_of_bound h'))
  · obtain ⟨q, hq, -⟩ := (portLookup_iff hI).mp h
    simp [boundPort, hnone] at hq

section

def root : Caller := ⟨true, true, true⟩

/-- A control socket and one with an automatic port, which is then bound to another port. -/
def rebinding : List Action :=
  [.create 0, .bind 0 ⟨1, portCtrl⟩ root, .create 1, .autobind 1 root, .bind 1 ⟨1, 77⟩ root]

theorem rebinding_consistent : ∃ run, Lts.Path Step (init 1) run ∧ (∀ u ∈ init 1 :: run.map snd, Consistent u) ∧
      boundPort (final (init 1) run) 1 = some 77 := by
  obtain ⟨t, ht, hport⟩ : ∃ t, exec (fun s a => (step s a).map fst) (init 1) rebinding = some t ∧
      boundPort t 1 = some 77 := ⟨_, rfl, rfl⟩
  obtain ⟨run, hpath, hfinal⟩ := path_of_exec ht
  have hrun : Lts.Path Step (init 1) run := by
    refine hpath.mono (fun s a t h => ?_)
    obtain ⟨r, hr, rfl⟩ := Option.map_eq_some_iff.mp h
    exact ⟨r.2, hr⟩
  exact ⟨run, hrun, port_table_consistent hrun, hfinal ▸ hport⟩

/-- The control socket is found under port 0. -/
theorem control_found_at_zero :
    ∃ t, exec (fun s a => (step s a).map fst) (init 1) [.create 0, .bind 0 ⟨1, portCtrl⟩ root] =
      some t ∧ boundPort t 0 = some portCtrl ∧ portLookup t 0 = some 0 :=
  ⟨_, rfl, rfl, rfl⟩

end

end Sm8850.Qrtr.Ports
