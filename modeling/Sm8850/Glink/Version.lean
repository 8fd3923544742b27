import Sm8850.Lib.Path
import Sm8850.Glink.Fifo

/-! Version negotiation of drivers/rpmsg/qcom_glink_native.c between two peers that both run it. -/
namespace Sm8850.Glink.Version

open Lts List

inductive Cmd where
  | version
  | versionAck
  deriving DecidableEq, Repr

/-- `struct glink_msg` of one of the two commands. -/
structure Msg where
  cmd : Cmd
  param1 : U16
  param2 : U32
  deriving DecidableEq, Repr

def glinkVersion1 : U16 := 1

/-- The message of `qcom_glink_send_version`. -/
def sendVersion (features : U64) : Msg := ⟨.version, glinkVersion1, features.setWidth 32⟩

/-- The message of `qcom_glink_send_version_ack`. -/
def sendVersionAck (features : U64) : Msg := ⟨.versionAck, glinkVersion1, features.setWidth 32⟩

/-- `qcom_glink_receive_version`: the features afterwards, and what it sends. -/
def receiveVersion (own : U64) (version features : U32) : U64 × Option Msg :=
  match version.toNat with
  | 0 => (own, none)
  | 1 =>
    let own := own &&& features.setWidth 64
    (own, some (sendVersionAck own))
  | _ => (own, some (sendVersionAck own))

/-- `qcom_glink_receive_version_ack`. -/
def receiveVersionAck (own : U64) (version features : U32) : U64 × Option Msg :=
  match version.toNat with
  | 0 => (own, none)
  | 1 =>
    if features.setWidth 64 = own then (own, none)
    else
      let own := own &&& features.setWidth 64
      (own, some (sendVersion own))
  | _ => (own, some (sendVersion own))

/-- The two commands as `qcom_glink_work` dispatches them. -/
def work (own : U64) (m : Msg) : U64 × Option Msg :=
  match m.cmd with
  | .version => receiveVersion own (m.param1.setWidth 32) m.param2
  | .versionAck => receiveVersionAck own (m.param1.setWidth 32) m.param2

/-! ### Two peers -/

inductive Peer where
  | one
  | two
  deriving DecidableEq, Repr

open Peer

def Peer.other : Peer → Peer
  | .one => .two
  | .two => .one

@[simp] theorem Peer.other_other (p : Peer) : p.other.other = p := by cases p <;> rfl
@[simp] theorem Peer.other_ne (p : Peer) : p.other ≠ p := by cases p <;> decide
@[simp] theorem Peer.ne_other (p : Peer) : p ≠ p.other := by cases p <;> decide

theorem Peer.eq_or_other (p q : Peer) : q = p ∨ q = p.other := by cases p <;> cases q <;> decide

/-- How far `qcom_glink_native_start` has come. -/
inductive Start where
  | idle
  | ready (m : Msg)
  | sent
  deriving DecidableEq, Repr

/-- One peer: its features, its start, and the message its work item is about to send. `inbox` are
the messages under way to it, those it has deferred included. -/
structure Node where
  features : U64
  start : Start
  reply : Option Msg
  inbox : List Msg

open Node

abbrev Link := Peer → Node

def Link.set (s : Link) (p : Peer) (f : Node → Node) : Link := Function.update s p (f (s p))

@[simp] theorem Link.set_self (s : Link) (p : Peer) (f : Node → Node) : s.set p f p = f (s p) := by
  simp [Link.set]

@[simp] theorem Link.set_other (s : Link) (p : Peer) (f : Node → Node) : s.set p f p.other = s p.other := by
  simp [Link.set]

@[simp] theorem Link.set_of_other (s : Link) (p : Peer) (f : Node → Node) : s.set p.other f p = s p := by
  simp [Link.set]

def Node.deliver (m : Msg) (n : Node) : Node := { n with inbox := n.inbox ++ [m] }

/-- The peer after its work item took the first message. -/
def Node.taken (m : Msg) (rest : List Msg) (n : Node) : Node :=
  { n with features := (work n.features m).1, reply := (work n.features m).2, inbox := rest }

inductive Event where
  | read (p : Peer)
  | start (p : Peer)
  | take (p : Peer)
  | reply (p : Peer)
  deriving DecidableEq, Repr

/-- The start reads the features and sends later. The work item takes one message at a time; it
updates the features and sends its answer later. -/
inductive Step : Link → Event → Link → Prop
  | read {s : Link} {p : Peer} : (s p).start = .idle →
      Step s (.read p) (s.set p ({ · with start := .ready (sendVersion (s p).features) }))
  | start {s : Link} {p : Peer} {m : Msg} : (s p).start = .ready m →
      Step s (.start p) ((s.set p ({ · with start := .sent })).set p.other (Node.deliver m))
  | take {s : Link} {p : Peer} {m : Msg} {rest : List Msg} : (s p).reply = none → (s p).inbox = m :: rest →
      Step s (.take p) (s.set p (Node.taken m rest))
  | reply {s : Link} {p : Peer} {m : Msg} : (s p).reply = some m →
      Step s (.reply p) ((s.set p ({ · with reply := none })).set p.other (Node.deliver m))

/-- Before either peer has started. -/
def init (mask : Peer → U32) : Link := fun p => ⟨(mask p).setWidth 64, .idle, none, []⟩

/-- No message is under way or about to be sent by a work item. -/
def Quiet (s : Link) : Prop := ∀ p, (s p).reply = none ∧ (s p).inbox = []

/-- A peer has sent its first message. -/
def Started (s : Link) : Prop := ∃ p, (s p).start = .sent

/-! ### Masks -/

def common (mask : Peer → U32) : U64 := (mask .one &&& mask .two).setWidth 64

section
variable {mask : Peer → U32} {p : Peer} {f g : U64}

theorem common_eq (mask : Peer → U32) (p : Peer) : common mask = (mask p &&& mask p.other).setWidth 64 := by
  cases p
  · rfl
  · rw [common, BitVec.and_comm]
    rfl

/-- What `p` may hold: no more than its own mask and no less than the common one. -/
def Between (mask : Peer → U32) (p : Peer) (f : U64) : Prop :=
  ∃ g : U32, f = g.setWidth 64 ∧ g &&& mask p = g ∧ mask p &&& mask p.other &&& g = mask p &&& mask p.other

theorem between_of_and (mask : Peer → U32) (p : Peer) (c : U32) (hc : mask p.other &&& c = mask p.other) :
    Between mask p ((mask p &&& c).setWidth 64) := by
  refine ⟨mask p &&& c, rfl, ?_, ?_⟩
  · rw [BitVec.and_comm, ← BitVec.and_assoc, BitVec.and_self]
  · calc mask p &&& mask p.other &&& (mask p &&& c)
        = mask p &&& mask p &&& (mask p.other &&& c) := by ac_rfl
      _ = mask p &&& mask p.other := by rw [hc, BitVec.and_self]

theorem between_mask (mask : Peer → U32) (p : Peer) : Between mask p ((mask p).setWidth 64) := by
  have h := between_of_and mask p (BitVec.allOnes 32) (BitVec.and_allOnes)
  rwa [BitVec.and_allOnes] at h

theorem between_common (mask : Peer → U32) (p : Peer) : Between mask p (common mask) := by
  rw [common_eq mask p]
  exact between_of_and mask p _ BitVec.and_self

theorem setWidth_wire (g : U32) : ((g.setWidth 64 : U64).setWidth 32 : U32) = g := by
  rw [BitVec.setWidth_setWidth_of_le _ (by decide), BitVec.setWidth_eq]

theorem Between.wire (h : Between mask p f) : ((f.setWidth 32 : U32).setWidth 64 : U64) = f := by
  obtain ⟨g, rfl, -⟩ := h
  rw [setWidth_wire]

/-- The features of the other peer cut the own ones to the common mask. -/
theorem Between.meet (hf : Between mask p f) (hg : Between mask p.other g) : f &&& g = common mask := by
  obtain ⟨a, rfl, ha, ha'⟩ := hf
  obtain ⟨b, rfl, hb, hb'⟩ := hg
  rw [common_eq mask p, ← BitVec.setWidth_and]
  congr 1
  rw [other_other, BitVec.and_comm (mask p.other)] at hb'
  calc a &&& b = (a &&& mask p) &&& (b &&& mask p.other) := by rw [ha, hb]
    _ = (mask p &&& mask p.other &&& a) &&& b := by ac_rfl
    _ = mask p &&& mask p.other := by rw [ha', hb']

/-- A message as `p` may have sent it. -/
inductive Fair (mask : Peer → U32) (p : Peer) : Msg → Prop
  | version {g : U64} : Between mask p g → Fair mask p (sendVersion g)
  | ack : Fair mask p (sendVersionAck (common mask))

section
variable (hf : Between mask p f)
include hf

theorem work_version (hg : Between mask p.other g) :
    work f (sendVersion g) = (common mask, some (sendVersionAck (common mask))) := by
  have hmeet : f &&& (g.setWidth 32).setWidth 64 = common mask := by rw [hg.wire, hf.meet hg]
  change (f &&& (g.setWidth 32).setWidth 64, some (sendVersionAck (f &&& (g.setWidth 32).setWidth 64))) = _
  rw [hmeet]

theorem work_ack : work f (sendVersionAck (common mask)) =
      (common mask, if common mask = f then none else some (sendVersion (common mask))) := by
  have hc := between_common mask p.other
  have hmeet : f &&& ((common mask).setWidth 32).setWidth 64 = common mask := by rw [hc.wire, hf.meet hc]
  change (if ((common mask).setWidth 32).setWidth 64 = f then (f, none)
    else (f &&& ((common mask).setWidth 32).setWidth 64,
      some (sendVersion (f &&& ((common mask).setWidth 32).setWidth 64)))) = _
  rw [hmeet, hc.wire]
  split
  · next h => rw [h]
  · rfl

/-- Whatever a peer takes, it then holds the common mask. -/
theorem work_features {m : Msg} (hm : Fair mask p.other m) : (work f m).1 = common mask := by
  cases hm with
  | version hg => rw [work_version hf hg]
  | ack => rw [work_ack hf]

theorem work_fair {m r : Msg} (hm : Fair mask p.other m) (hr : (work f m).2 = some r) : Fair mask p r := by
  cases hm with
  | version hg =>
    rw [work_version hf hg] at hr
    cases hr
    exact .ack
  | ack =>
    rw [work_ack hf] at hr
    split at hr
    · cases hr
    · cases hr
      exact .version (between_common mask p)

end

end

/-! ### The invariant -/

section
variable {mask : Peer → U32} {s t : Link} {e : Event} {p : Peer} {m : Msg}

/-- A message of `p` that is under way or about to be sent by its work item. -/
def Wire (s : Link) (p : Peer) (m : Msg) : Prop := m ∈ (s p.other).inbox ∨ (s p).reply = some m

/-- After its start, a version of `p` is under way, or the other peer has answered one. -/
def Answered (mask : Peer → U32) (s : Link) (p : Peer) : Prop :=
  (∃ m, Wire s p m ∧ m.cmd = .version) ∨
    (s p.other).features = common mask ∧
      ((s p).features = common mask ∨ ∃ m, Wire s p.other m ∧ m.cmd = .versionAck)

structure Inv (mask : Peer → U32) (s : Link) : Prop where
  features : ∀ p, Between mask p (s p).features
  ready : ∀ p m, (s p).start = .ready m → ∃ g, Between mask p g ∧ m = sendVersion g
  fair : ∀ p m, Wire s p m → Fair mask p m
  answered : ∀ p, (s p).start = .sent → Answered mask s p

theorem inv_init (mask : Peer → U32) : Inv mask (init mask) where
  features := between_mask mask
  ready := by
    intro p m h
    cases h
  fair := by
    rintro p m (h | h)
    · cases h
    · cases h
  answered := by
    intro p h
    cases h

theorem Answered.mono (h : Answered mask s p) (hf : ∀ p, (t p).features = (s p).features)
    (hw : ∀ p m, Wire s p m → Wire t p m) : Answered mask t p := by
  rcases h with ⟨m, hm, hv⟩ | ⟨ho, h⟩
  · exact .inl ⟨m, hw _ _ hm, hv⟩
  · refine .inr ⟨(hf _).trans ho, ?_⟩
    rcases h with h | ⟨m, hm, hv⟩
    · exact .inl ((hf _).trans h)
    · exact .inr ⟨m, hw _ _ hm, hv⟩

/-- A step that hands a message of `p` to the other peer leaves all others where they are. -/
theorem wire_deliver (s : Link) (p : Peer) (f : Node → Node) (hin : (f (s p)).inbox = (s p).inbox) {q : Peer}
    {m r : Msg} : Wire ((s.set p f).set p.other (deliver r)) q m ↔ m ∈ (s q.other).inbox ∨ (q = p ∧ m = r) ∨
        (if q = p then (f (s p)).reply else (s q).reply) = some m := by
  unfold Wire
  rcases p.eq_or_other q with rfl | rfl
  · simp [deliver, or_assoc]
  · simp [deliver, hin]

theorem inv_deliver {f : Node → Node} {r : Msg} (hI : Inv mask s) (hin : (f (s p)).inbox = (s p).inbox)
    (hf : (f (s p)).features = (s p).features) (hr : Fair mask p r)
    (hready : ∀ m, (f (s p)).start = .ready m → (s p).start = .ready m)
    (hold : ∀ m, (f (s p)).reply = some m → (s p).reply = some m)
    (hkeep : ∀ m, (s p).reply = some m → (f (s p)).reply = some m ∨ m = r)
    (hsent : (f (s p)).start = .sent → (s p).start = .sent ∨ r.cmd = .version) :
    Inv mask ((s.set p f).set p.other (deliver r)) := by
  have hfeat : ∀ q, ((s.set p f).set p.other (deliver r) q).features = (s q).features := by
    intro q
    rcases p.eq_or_other q with rfl | rfl
    · simp [hf]
    · simp [deliver]
  have hwire : ∀ q m, Wire s q m → Wire ((s.set p f).set p.other (deliver r)) q m := by
    intro q m h
    rw [wire_deliver s p f hin]
    rcases h with h | h
    · exact .inl h
    · by_cases hq : q = p
      · subst hq
        rw [if_pos rfl]
        rcases hkeep m h with h | h
        · exact .inr (.inr h)
        · exact .inr (.inl ⟨rfl, h⟩)
      · rw [if_neg hq]
        exact .inr (.inr h)
  refine ⟨fun q => by rw [hfeat]; exact hI.features q, fun q m h => ?_, fun q m h => ?_, fun q h => ?_⟩
  · rcases p.eq_or_other q with rfl | rfl
    · exact hI.ready _ m (hready m (by simpa using h))
    · exact hI.ready _ m (by simpa [deliver] using h)
  · rw [wire_deliver s p f hin] at h
    rcases h with h | ⟨rfl, rfl⟩ | h
    · exact hI.fair q m (.inl h)
    · exact hr
    · by_cases hq : q = p
      · subst hq
        rw [if_pos rfl] at h
        exact hI.fair q m (.inr (hold m h))
      · rw [if_neg hq] at h
        exact hI.fair q m (.inr h)
  · rcases p.eq_or_other q with rfl | rfl
    · rcases hsent (by simpa using h) with h | h
      · exact (hI.answered _ h).mono hfeat hwire
      · exact .inl ⟨r, (wire_deliver s _ f hin).mpr (.inr (.inl ⟨rfl, rfl⟩)), h⟩
    · exact (hI.answered _ (by simpa [deliver] using h)).mono hfeat hwire

theorem answered_take {rest : List Msg} (hI : Inv mask s) (hreply : (s p).reply = none)
    (hin : (s p).inbox = m :: rest) (q : Peer) (h : Answered mask s q) :
    Answered mask (s.set p (taken m rest)) q := by
  have hm : Fair mask p.other m := hI.fair p.other m (.inl (by simp [hin]))
  have hfeat : (s.set p (taken m rest) p).features = common mask := by
    rw [Link.set_self]
    exact work_features (hI.features p) hm
  -- messages of `p` itself are still under way
  have hown : ∀ r, Wire s p r → Wire (s.set p (taken m rest)) p r := by
    rintro r (h | h)
    · exact .inl (by simpa using h)
    · rw [hreply] at h
      cases h
  -- of those of the other peer, only `m` is gone
  have hother : ∀ r, Wire s p.other r → r = m ∨ Wire (s.set p (taken m rest)) p.other r := by
    rintro r (h | h)
    · rw [other_other, hin] at h
      rcases mem_cons.mp h with rfl | h
      · exact .inl rfl
      · exact .inr (.inl (by simpa [taken] using h))
    · exact .inr (.inr (by simpa using h))
  rcases p.eq_or_other q with rfl | rfl
  · rcases h with ⟨r, hr, hv⟩ | ⟨ho, -⟩
    · exact .inl ⟨r, hown r hr, hv⟩
    · exact .inr ⟨by simpa using ho, .inl hfeat⟩
  · rcases h with ⟨r, hr, hv⟩ | ⟨-, h⟩
    · rcases hother r hr with rfl | hr
      · refine .inr ⟨by rwa [other_other], .inr ⟨sendVersionAck (common mask), ?_, rfl⟩⟩
        rw [other_other]
        cases hm with
        | version hg =>
          refine .inr ?_
          rw [Link.set_self, taken, work_version (hI.features p) hg]
        | ack => cases hv
      · exact .inl ⟨r, hr, hv⟩
    · refine .inr ⟨by rwa [other_other], h.imp (fun h => by simpa using h) ?_⟩
      rintro ⟨r, hr, hv⟩
      rw [other_other] at hr ⊢
      exact ⟨r, hown r hr, hv⟩

theorem inv_take {rest : List Msg} (hI : Inv mask s) (hreply : (s p).reply = none)
    (hin : (s p).inbox = m :: rest) : Inv mask (s.set p (taken m rest)) := by
  have hm : Fair mask p.other m := hI.fair p.other m (.inl (by simp [hin]))
  refine ⟨fun q => ?_, fun q r h => ?_, fun q r h => ?_, fun q h => ?_⟩
  · rcases p.eq_or_other q with rfl | rfl
    · rw [Link.set_self, taken, work_features (hI.features q) hm]
      exact between_common mask q
    · simpa using hI.features p.other
  · rcases p.eq_or_other q with rfl | rfl
    · exact hI.ready _ r (by simpa [taken] using h)
    · exact hI.ready _ r (by simpa using h)
  · rcases p.eq_or_other q with rfl | rfl
    · rcases h with h | h
      · exact hI.fair q r (.inl (by simpa using h))
      · exact work_fair (hI.features q) hm (by simpa [taken] using h)
    · rcases h with h | h
      · have : r ∈ rest := by simpa [taken] using h
        exact hI.fair _ r (.inl (by simp [hin, this]))
      · exact hI.fair _ r (.inr (by simpa using h))
  · refine answered_take hI hreply hin q (hI.answered q ?_)
    rcases p.eq_or_other q with rfl | rfl
    · simpa [taken] using h
    · simpa using h

theorem inv_read (hI : Inv mask s) (hidle : (s p).start = .idle) :
    Inv mask (s.set p ({ · with start := .ready (sendVersion (s p).features) })) := by
  have hfeat : ∀ q, (s.set p ({ · with start := .ready (sendVersion (s p).features) }) q).features =
      (s q).features := by
    intro q
    rcases p.eq_or_other q with rfl | rfl <;> simp
  have hwire : ∀ q m, Wire (s.set p ({ · with start := .ready (sendVersion (s p).features) })) q m ↔ Wire s q m := by
    intro q m
    unfold Wire
    rcases p.eq_or_other q with rfl | rfl <;> simp
  refine ⟨fun q => by rw [hfeat]; exact hI.features q, fun q r h => ?_,
    fun q r h => hI.fair q r ((hwire q r).mp h), fun q h => ?_⟩
  · rcases p.eq_or_other q with rfl | rfl
    · rw [Link.set_self] at h
      cases h
      exact ⟨_, hI.features q, rfl⟩
    · exact hI.ready _ r (by simpa using h)
  · refine (hI.answered q ?_).mono hfeat (fun q m => (hwire q m).mpr)
    rcases p.eq_or_other q with rfl | rfl
    · rw [Link.set_self] at h
      cases h
    · simpa using h

theorem inv_step (h : Step s e t) (hI : Inv mask s) : Inv mask t := by
  cases h with
  | read hidle => exact inv_read hI hidle
  | start hready =>
    obtain ⟨g, hg, rfl⟩ := hI.ready _ _ hready
    refine inv_deliver hI rfl rfl (.version hg) ?_ (fun m h => h) (fun m h => .inl h) (fun _ => .inr rfl)
    intro m h
    cases h
  | take hreply hin => exact inv_take hI hreply hin
  | reply hreply =>
    refine inv_deliver hI rfl rfl (hI.fair _ _ (.inr hreply)) (fun m h => h) ?_ (fun m h => ?_) (fun h => .inl h)
    · intro m h
      cases h
    · exact .inr (Option.some.inj (h.symm.trans hreply))

/-! ### The work that is left -/

/-- Steps that follow from a message: taking it, and for a version its answer. -/
def Msg.work (m : Msg) : Nat :=
  match m.cmd with
  | .version => 3
  | .versionAck => 1

def Start.work : Start → Nat
  | .idle => 5
  | .ready _ => 4
  | .sent => 0

/-- A peer that does not hold the common mask yet may send one more version. -/
def excess (mask : Peer → U32) (features : U64) : Nat := if features = common mask then 0 else 4

theorem excess_le (mask : Peer → U32) (features : U64) : excess mask features ≤ 4 := by
  unfold excess
  split <;> decide

def Node.work (mask : Peer → U32) (n : Node) : Nat :=
  n.start.work + (n.reply.elim 0 (fun m => m.work + 1)) + (n.inbox.map Msg.work).sum + excess mask n.features

def Link.work (mask : Peer → U32) (s : Link) : Nat := (s .one).work mask + (s .two).work mask

theorem link_work (mask : Peer → U32) (s : Link) (p : Peer) :
    s.work mask = (s p).work mask + (s p.other).work mask := by
  cases p
  · rfl
  · exact add_comm _ _

theorem node_work_deliver (n : Node) (m : Msg) : (n.deliver m).work mask = n.work mask + m.work := by
  simp only [Node.work, deliver, map_append, sum_append, map_cons, map_nil, sum_cons, sum_nil]
  omega

/-- An answer is worth less than the message it answers. -/
theorem node_work_taken {rest : List Msg} {n : Node} (hf : Between mask p n.features)
    (hm : Fair mask p.other m) (hreply : n.reply = none) (hin : n.inbox = m :: rest) :
    (n.taken m rest).work mask < n.work mask := by
  have hfeat := work_features hf hm
  have hzero : excess mask (common mask) = 0 := if_pos rfl
  simp only [Node.work, taken, hfeat, hzero, hreply, hin, map_cons, sum_cons, Option.elim_none]
  cases hm with
  | version hg =>
    rw [work_version hf hg]
    simp only [Option.elim_some, Msg.work, sendVersion, sendVersionAck]
    omega
  | ack =>
    rw [work_ack hf]
    by_cases hc : n.features = common mask
    · simp only [hc, if_true, Option.elim_none, Msg.work, sendVersionAck]
      omega
    · have hfour : excess mask n.features = 4 := if_neg hc
      simp only [hfour, Ne.symm hc, if_false, Option.elim_some, Msg.work, sendVersion, sendVersionAck]
      omega

theorem work_step (h : Step s e t) (hI : Inv mask s) : t.work mask < s.work mask := by
  cases h with
  | @read p hidle =>
    rw [link_work _ _ p, link_work _ s p, Link.set_self, Link.set_other]
    simp only [Node.work, hidle, Start.work]
    omega
  | @start p m hready =>
    rw [link_work _ _ p, link_work _ s p, Link.set_self, Link.set_of_other, Link.set_self, Link.set_other,
      node_work_deliver]
    obtain ⟨g, -, rfl⟩ := hI.ready _ _ hready
    simp only [Node.work, hready, Start.work, Msg.work, sendVersion]
    omega
  | @take p m rest hreply hin =>
    have hm : Fair mask p.other m := hI.fair p.other m (.inl (by simp [hin]))
    have hlt := node_work_taken (hI.features p) hm hreply hin
    rw [link_work _ _ p, link_work _ s p, Link.set_self, Link.set_other]
    exact Nat.add_lt_add_right hlt _
  | @reply p m hreply =>
    rw [link_work _ _ p, link_work _ s p, Link.set_self, Link.set_of_other, Link.set_self, Link.set_other,
      node_work_deliver]
    simp only [Node.work, hreply, Option.elim_some, Option.elim_none]
    omega

end

theorem work_init (mask : Peer → U32) : (init mask).work mask ≤ 18 := by
  have hone := excess_le mask ((mask .one).setWidth 64)
  have htwo := excess_le mask ((mask .two).setWidth 64)
  simp only [Link.work, Node.work, init, Start.work, Option.elim_none, map_nil, sum_nil]
  omega

theorem Inv.agree {mask : Peer → U32} {s : Link} (hI : Inv mask s) (hstart : Started s) (hquiet : Quiet s) (p : Peer) :
    (s p).features = common mask := by
  obtain ⟨q, hq⟩ := hstart
  have hnone : ∀ p m, ¬ Wire s p m := by
    rintro p m (h | h)
    · rw [(hquiet p.other).2] at h
      cases h
    · rw [(hquiet p).1] at h
      cases h
  rcases hI.answered q hq with ⟨m, hm, -⟩ | ⟨ho, h | ⟨m, hm, -⟩⟩
  · exact absurd hm (hnone _ _)
  · rcases q.eq_or_other p with rfl | rfl
    · exact h
    · exact ho
  · exact absurd hm (hnone _ _)

/-- The negotiation ends after at most 18 steps, and whenever it rests both peers hold the features
both had at first. -/
theorem negotiation_converges (mask : Peer → U32) {run : List (Event × Link)} (hrun : Path Step (init mask) run) :
    run.length ≤ 18 ∧ ∀ s ∈ init mask :: run.map Prod.snd, Started s → Quiet s →
      ∀ p, (s p).features = (mask .one &&& mask .two).setWidth 64 := by
  have hstep : ∀ s e t, Step s e t → Inv mask s → Inv mask t := fun _ _ _ => inv_step
  refine ⟨?_, fun s hs hstart hquiet p => ?_⟩
  · have hle := hrun.length_le hstep (fun _ _ _ => work_step) (inv_init mask)
    exact hle.trans (work_init mask)
  · exact (hrun.invariant hstep (inv_init mask) s hs).agree hstart hquiet p

/-- Three features and four of which two are common. -/
def someMasks : Peer → U32
  | .one => 7
  | .two => 27

theorem negotiation_converges_some : ∃ run : List (Event × Link), run.length = 9 ∧
    ∀ p, (final (init someMasks) run p).features = 3 := by
  have hrun : ∃ run : List (Event × Link), Path Step (init someMasks) run ∧ run.length = 9 ∧
      Started (final (init someMasks) run) ∧ Quiet (final (init someMasks) run) := by
    refine ⟨[(.read .one, _), (.start .one, _), (.take .two, _), (.reply .two, _), (.take .one, _),
      (.reply .one, _), (.take .two, _), (.reply .two, _), (.take .one, _)],
      ⟨.read rfl, .start rfl, .take (m := sendVersion 7) rfl rfl, .reply (m := sendVersionAck 3) rfl,
        .take (m := sendVersionAck 3) rfl rfl, .reply (m := sendVersion 3) rfl,
        .take (m := sendVersion 3) rfl rfl, .reply (m := sendVersionAck 3) rfl,
        .take (m := sendVersionAck 3) rfl rfl, trivial⟩, rfl, ⟨.one, rfl⟩, ?_⟩
    rintro (_ | _)
    · exact ⟨rfl, rfl⟩
    · exact ⟨rfl, rfl⟩
  obtain ⟨run, hpath, hlen, hstart, hquiet⟩ := hrun
  refine ⟨run, hlen, fun p => ?_⟩
  rw [(negotiation_converges someMasks hpath).2 _ (final_mem _ _) hstart hquiet p]
  decide

/-- A step leaves the features of a peer alone, or makes them the common ones. -/
def Cuts (mask : Peer → U32) (s : Link) (_ : Event) (t : Link) : Prop :=
  ∀ p, (t p).features = (s p).features ∨ (t p).features = common mask

theorem cuts_step {mask : Peer → U32} {s t : Link} {e : Event} (h : Step s e t) (hI : Inv mask s) : Cuts mask s e t := by
  intro p
  cases h with
  | @take q m rest hreply hin =>
    rcases q.eq_or_other p with rfl | rfl
    · right
      rw [Link.set_self]
      exact work_features (hI.features _) (hI.fair _ m (.inl (by simp [hin])))
    · simp
  | @read q _ => rcases q.eq_or_other p with rfl | rfl <;> simp
  | @start q _ _ => rcases q.eq_or_other p with rfl | rfl <;> simp [deliver]
  | @reply q _ _ => rcases q.eq_or_other p with rfl | rfl <;> simp [deliver]

/-- The features of a peer change at most once in a negotiation, to those that both peers had at first. -/
theorem features_cut_once (mask : Peer → U32) {run : List (Event × Link)} (hrun : Path Step (init mask) run) :
    Path (Cuts mask) (init mask) run :=
  hrun.good (fun _ _ _ h hI => ⟨cuts_step h hI, inv_step h hI⟩) (inv_init mask)

theorem features_cut_once_some : ∃ run : List (Event × Link), run.length = 3 ∧ Path (Cuts someMasks) (init someMasks) run :=
  ⟨[(.read .one, _), (.start .one, _), (.take .two, _)], rfl,
    features_cut_once someMasks ⟨.read rfl, .start rfl, .take (m := sendVersion 7) rfl rfl, trivial⟩⟩

end Sm8850.Glink.Version
