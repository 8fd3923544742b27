import Sm8850.Lib.XArray
import Sm8850.Lib.Path

/-! Opening a channel in drivers/rpmsg/qcom_glink_native.c: `qcom_glink_create_ept` on a thread for each name,
`qcom_glink_rx_open` on the receive work item, and the acknowledgements, in any order. -/
namespace Sm8850.Glink.Open
open Function List Option XArray Prod

/-- `struct glink_channel`, as far as opening it goes. `openReq` and `openAck` are completions. -/
structure Channel where
  name : String
  lcid : Nat
  rcid : Nat
  openReq : Bool
  openAck : Bool
  deriving DecidableEq, Repr

/-- Where a call of `qcom_glink_create_ept` is: it has scanned the remote ids, waits for the acknowledgement
in `qcom_glink_create_local` or `qcom_glink_create_remote`, waits for the remote OPEN in the former, or has
returned. -/
inductive Opener where
  | idle
  | scanned (found : Option Nat)
  | waitAck (a : Nat) (isLocal : Bool)
  | waitReq (a : Nat)
  | done (a : Nat)
  | failed
  deriving DecidableEq, Repr

/-- Where the work item is in `qcom_glink_rx_open`: it has scanned for the name, or has entered the
channel under its remote id. -/
inductive Worker where
  | idle
  | scanned (rcid : Nat) (name : String) (found : Option Nat)
  | inserted (a : Nat)

/-- The edge. Channels are kept by address. `opens` are the OPEN commands on their way to the work item,
`acks` the local OPENs that the peer has not acknowledged, and `peer` all the OPENs of the peer. -/
structure State where
  chans : Nat → Option Channel
  next : Nat
  lcids : XArray Nat
  rcids : XArray Nat
  opener : String → Opener
  worker : Worker
  opens : List (Nat × String)
  acks : List Nat
  peer : List (Nat × String)

def State.initial : State := ⟨fun _ => none, 0, .empty, .empty, fun _ => .idle, .idle, [], [], []⟩

def State.setOpener (s : State) (name : String) (o : Opener) : State := { s with opener := update s.opener name o }

def State.setChan (s : State) (a : Nat) (c : Channel) : State := { s with chans := update s.chans a (some c) }

/-- The scan of the remote ids for a name, in `qcom_glink_create_ept` and in `qcom_glink_rx_open`. -/
def State.findByName (s : State) (name : String) : Option Nat :=
  (s.rcids.entries.map snd).find? fun a => (s.chans a).any fun c => c.name = name

/-- `qcom_glink_send_open_req`: the channel gets a local id, and the OPEN is sent. -/
def State.sendOpenReq (s : State) (a : Nat) (c : Channel) (lcid : Nat) : State :=
  { s.setChan a { c with lcid := lcid } with lcids := s.lcids.store lcid a, acks := s.acks ++ [lcid] }

/-- The channel is entered under its remote id. -/
def State.insert (s : State) (a : Nat) (c : Channel) (rcid : Nat) : State :=
  { s.setChan a { c with rcid := rcid } with rcids := s.rcids.store rcid a, worker := .inserted a }

/-- `qcom_glink_alloc_channel`. -/
def allocChannel (name : String) : Channel := ⟨name, 0, 0, false, false⟩

inductive Event where
  | peerOpen (rcid : Nat) (name : String)
  | scan (name : String)
  | register (name : String)
  | acked (name : String)
  | requested (name : String)
  | timeout (name : String)
  | work
  | insert
  | complete
  | ack (lcid : Nat)

inductive Step : State → Event → State → Prop
  /-- The peer opens a channel, with an id and a name it has not used. -/
  | peerOpen {s : State} {rcid : Nat} {name : String} (hid : rcid ∉ s.peer.map fst) (hname : name ∉ s.peer.map snd) :
      Step s (.peerOpen rcid name) { s with opens := s.opens ++ [(rcid, name)], peer := (rcid, name) :: s.peer }
  | scan {s : State} {name : String} (hidle : s.opener name = .idle) :
      Step s (.scan name) (s.setOpener name (.scanned (s.findByName name)))
  | createLocal {s : State} {name : String} {lcid : Nat} (hop : s.opener name = .scanned none) (hfree : s.lcids.load lcid = none) :
      Step s (.register name)
        ({ s.sendOpenReq s.next (allocChannel name) lcid with next := s.next + 1 }.setOpener name (.waitAck s.next true))
  | createRemote {s : State} {name : String} {a lcid : Nat} {c : Channel} (hop : s.opener name = .scanned (some a))
      (hchan : s.chans a = some c) (hfree : s.lcids.load lcid = none) :
      Step s (.register name) ((s.sendOpenReq a c lcid).setOpener name (.waitAck a false))
  | acked {s : State} {name : String} {a : Nat} {isLocal : Bool} {c : Channel} (hop : s.opener name = .waitAck a isLocal)
      (hchan : s.chans a = some c) (hack : c.openAck = true) :
      Step s (.acked name) (s.setOpener name (if isLocal then .waitReq a else .done a))
  | requested {s : State} {name : String} {a : Nat} {c : Channel} (hop : s.opener name = .waitReq a)
      (hchan : s.chans a = some c) (hreq : c.openReq = true) : Step s (.requested name) (s.setOpener name (.done a))
  /-- `qcom_glink_create_local` gives up: the channel leaves the local ids and is released. -/
  | timeoutLocal {s : State} {name : String} {a : Nat} {c : Channel} (hchan : s.chans a = some c)
      (hop : s.opener name = .waitAck a true ∧ c.openAck = false ∨ s.opener name = .waitReq a ∧ c.openReq = false) :
      Step s (.timeout name)
        ({ s with lcids := s.lcids.erase c.lcid, chans := update s.chans a none }.setOpener name .failed)
  /-- `qcom_glink_create_remote` gives up, and sends a close request. -/
  | timeoutRemote {s : State} {name : String} {a : Nat} {c : Channel} (hchan : s.chans a = some c)
      (hop : s.opener name = .waitAck a false) (hack : c.openAck = false) : Step s (.timeout name) (s.setOpener name .failed)
  | work {s : State} {rcid : Nat} {name : String} {rest : List (Nat × String)} (hidle : s.worker = .idle)
      (hopens : s.opens = (rcid, name) :: rest) :
      Step s .work { s with opens := rest, worker := .scanned rcid name (s.findByName name) }
  | insertNew {s : State} {rcid : Nat} {name : String} (hworker : s.worker = .scanned rcid name none)
      (hfree : s.rcids.load rcid = none) :
      Step s .insert { s.insert s.next (allocChannel name) rcid with next := s.next + 1 }
  | insertFound {s : State} {rcid a : Nat} {name : String} {c : Channel} (hworker : s.worker = .scanned rcid name (some a))
      (hchan : s.chans a = some c) (hfree : s.rcids.load rcid = none) : Step s .insert (s.insert a c rcid)
  /-- The remote id is taken: a channel allocated for it is released. -/
  | refuse {s : State} {rcid b : Nat} {name : String} {found : Option Nat} (hworker : s.worker = .scanned rcid name found)
      (htaken : s.rcids.load rcid = some b) : Step s .insert { s with worker := .idle }
  | complete {s : State} {a : Nat} {c : Channel} (hworker : s.worker = .inserted a) (hchan : s.chans a = some c) :
      Step s .complete { s.setChan a { c with openReq := true } with worker := .idle }
  | ack {s : State} {lcid a : Nat} {c : Channel} {pre post : List Nat} (hacks : s.acks = pre ++ lcid :: post)
      (hfound : s.lcids.load lcid = some a) (hchan : s.chans a = some c) :
      Step s (.ack lcid) { s.setChan a { c with openAck := true } with acks := pre ++ post }
  | ackInvalid {s : State} {lcid : Nat} {pre post : List Nat} (hacks : s.acks = pre ++ lcid :: post)
      (hnone : s.lcids.load lcid = none) : Step s (.ack lcid) { s with acks := pre ++ post }

/-! ### What holds -/

/-- The channel a local open is about. -/
def Opener.chan : Opener → Option Nat
  | .scanned found => found
  | .waitAck a _ | .waitReq a | .done a => some a
  | .idle | .failed => none

/-- The channel is in the table of the remote ids. -/
def State.Remote (s : State) (name : String) (a : Nat) : Prop :=
  ∃ c, s.chans a = some c ∧ c.name = name ∧ s.rcids.load c.rcid = some a

/-- The channel is in the table of the local ids. -/
def State.Registered (s : State) (a : Nat) : Prop := ∃ c, s.chans a = some c ∧ s.lcids.load c.lcid = some a

/-- No local open has failed, and those that have begun are about the channel that the remote OPEN of
their name has made. -/
def Together (s : State) : Prop :=
  ∀ name, s.opener name ≠ .failed ∧ ∀ a, s.Remote name a → s.opener name = .idle ∨ (s.opener name).chan = some a

/-- The condition for a step: a remote OPEN is entered only while the local open of its name has not yet
scanned for it, and no wait of a local open times out. -/
def Proper (s : State) : Event → Prop
  | .insert => ∀ rcid name found, s.worker = .scanned rcid name found → s.opener name = .idle
  | .timeout _ => False
  | _ => True

/-- The remote OPEN of the name has been handled, and the local one has been sent and acknowledged. -/
def Answered (s : State) (name : String) : Prop :=
  (∃ a, s.Remote name a) ∧
  ∃ a c, (s.opener name = .done a ∨ s.opener name = .waitReq a ∨ ∃ isLocal, s.opener name = .waitAck a isLocal) ∧
    s.chans a = some c ∧ c.openAck = true

/-- Both opens are on one channel, which has both its ids and is found under both. There is no other of
the name, and the local open has returned it or does so without waiting. -/
def Symmetric (s : State) (name : String) : Prop :=
  ∃ a c, s.chans a = some c ∧ c.name = name ∧ s.lcids.load c.lcid = some a ∧ s.rcids.load c.rcid = some a ∧
    (∀ b d, s.chans b = some d → d.name = name → b = a) ∧
    (s.opener name = .done a ∨ Step s (.acked name) (s.setOpener name (.done a)))

/-! ### Invariant -/

/-- The local open has made the channel itself. -/
def Opener.Own (o : Opener) (a : Nat) : Prop := o = .waitAck a true ∨ o = .waitReq a

/-- The local open has entered the channel in the table of the local ids. -/
def Opener.Sent (o : Opener) (a : Nat) : Prop := o.Own a ∨ o = .waitAck a false ∨ o = .done a

/-- The OPEN that the work item has scanned for. -/
def Worker.pending : Worker → List (Nat × String)
  | .scanned rcid name _ => [(rcid, name)]
  | _ => []

/-- The OPENs that are not yet entered. -/
def State.pending (s : State) : List (Nat × String) := s.worker.pending ++ s.opens

structure Inv (s : State) : Prop where
  ids : (s.peer.map fst).Nodup
  names : (s.peer.map snd).Nodup
  pending : s.pending.Nodup ∧ ∀ e ∈ s.pending, e ∈ s.peer ∧ s.rcids.load e.1 = none
  absent : ∀ rcid name found, s.worker = .scanned rcid name found → found = none
  inserted : ∀ a, s.worker = .inserted a → ∃ rcid, s.rcids.load rcid = some a
  remote : ∀ rcid a, s.rcids.load rcid = some a → ∃ c, s.chans a = some c ∧ c.rcid = rcid ∧ (rcid, c.name) ∈ s.peer
  fresh : ∀ a c, s.chans a = some c → a < s.next
  object : ∀ a c, s.chans a = some c → s.rcids.load c.rcid = some a ∨ (s.opener c.name).Own a
  own : ∀ name a, (s.opener name).Own a →
    ∃ c, s.chans a = some c ∧ c.name = name ∧ c.openReq = false ∧ ∀ rcid, s.rcids.load rcid ≠ some a
  scanned : ∀ name a, s.opener name = .scanned (some a) → s.Remote name a
  adopted : ∀ name a, s.opener name = .waitAck a false ∨ s.opener name = .done a → s.Remote name a
  sent : ∀ name a, (s.opener name).Sent a → s.Registered a
  lcids : ∀ lcid a, s.lcids.load lcid = some a → ∃ c, s.chans a = some c ∧ c.lcid = lcid ∧ (s.opener c.name).Sent a

theorem inv_initial : Inv .initial := by
  constructor <;> simp [State.initial, State.pending, Worker.pending, Opener.Own, Opener.Sent]

section
variable {s t : State} {name : String} {a b rcid lcid : Nat} {c : Channel} {o : Opener}

/-- The channel that the peer's OPEN of a name has made is the only one. -/
theorem Inv.remote_unique (h : Inv s) (ha : s.Remote name a) (hb : s.Remote name b) : a = b := by
  obtain ⟨c, hc, rfl, hra⟩ := ha
  obtain ⟨d, hd, hname, hrb⟩ := hb
  have hpa := h.remote _ _ hra
  have hpb := h.remote _ _ hrb
  have hinj := inj_on_of_nodup_map h.names
  grind

theorem findByName_some (h : s.findByName name = some a) : ∃ rcid c, s.rcids.load rcid = some a ∧ s.chans a = some c ∧ c.name = name := by
  have hmem := mem_of_find?_eq_some h
  have hname := find?_some h
  obtain ⟨⟨rcid, a'⟩, hentry, rfl⟩ := mem_map.mp hmem
  cases hc : s.chans a' with
  | none =>
    rw [hc] at hname
    cases hname
  | some c =>
    rw [hc] at hname
    exact ⟨rcid, c, mem_entries.mp hentry, rfl, of_decide_eq_true hname⟩

theorem Inv.findByName_some (h : Inv s) (hfind : s.findByName name = some a) : s.Remote name a := by
  obtain ⟨rcid, c, hr, hc, hn⟩ := Open.findByName_some hfind
  obtain ⟨c', hc', rfl, -⟩ := h.remote _ _ hr
  obtain rfl : c = c' := some.inj (hc.symm.trans hc')
  exact ⟨c, hc, hn, hr⟩

theorem findByName_none (h : s.findByName name = none) : ¬ s.Remote name a := by
  rintro ⟨c, hc, hn, hr⟩
  unfold State.findByName at h
  rw [find?_eq_none] at h
  have hmem : a ∈ s.rcids.entries.map snd := mem_map.mpr ⟨_, mem_entries.mpr hr, rfl⟩
  refine h a hmem ?_
  rw [hc]
  simpa using hn

/-- A pending OPEN has no channel yet. -/
theorem Inv.pending_absent (h : Inv s) (hp : (rcid, name) ∈ s.pending) : ¬ s.Remote name a := by
  rintro ⟨c, hc, rfl, hr⟩
  have hpeer := h.remote _ _ hr
  have hpend := h.pending.2 _ hp
  have hinj := inj_on_of_nodup_map h.names
  grind

theorem Inv.findByName_pending (h : Inv s) (hp : (rcid, name) ∈ s.pending) : s.findByName name = none := by
  cases hfind : s.findByName name with
  | none => rfl
  | some a => exact absurd (h.findByName_some hfind) (h.pending_absent hp)

end

/-! ### Steps -/

section
variable {s t : State} {name : String} {a b rcid lcid : Nat} {c : Channel} {o : Opener}

@[simp] theorem pending_idle : Worker.idle.pending = [] := rfl

@[simp] theorem pending_inserted : (Worker.inserted a).pending = [] := rfl

@[simp] theorem pending_scanned {found : Option Nat} : (Worker.scanned rcid name found).pending = [(rcid, name)] := rfl

attribute [local simp] State.setOpener State.setChan State.insert State.sendOpenReq allocChannel State.Remote
  State.Registered Opener.Own Opener.Sent load_store update_apply State.pending

/-- The channel of a local open that has begun exists. -/
theorem Inv.chan_lt (h : Inv s) (ha : (s.opener name).chan = some a) : a < s.next := by
  have hown := h.own name a
  have hscanned := h.scanned name a
  have hadopted := h.adopted name a
  suffices ∃ c, s.chans a = some c from this.elim (h.fresh a)
  cases hop : s.opener name with
  | waitAck b isLocal => cases isLocal <;> simp_all [Opener.chan] <;> grind
  | _ => simp_all [Opener.chan] <;> grind

theorem Inv.next_none (h : Inv s) : s.chans s.next = none := by
  cases hc : s.chans s.next with
  | none => rfl
  | some c => exact absurd (h.fresh _ c hc) (lt_irrefl _)

/-- A local open goes on without another channel. -/
theorem Inv.setOpener (h : Inv s) (hown : ∀ a, o.Own a ↔ (s.opener name).Own a) (hsent : ∀ a, o.Sent a ↔ (s.opener name).Sent a)
    (hremote : ∀ a, o = .scanned (some a) ∨ o = .waitAck a false ∨ o = .done a → s.Remote name a) :
    Inv (s.setOpener name o) := by
  obtain ⟨hids, hnames, hpending, habsent, hinserted, hremote, hfresh, hobject, hown, hscanned, hadopted, hsent, hlcids⟩ := h
  refine ⟨hids, hnames, hpending, habsent, hinserted, hremote, hfresh, ?_, ?_, ?_, ?_, ?_, ?_⟩ <;> simp at * <;> grind

/-- A completion of a channel is done; that of the remote OPEN only where there is one. -/
theorem Inv.setChan {c' : Channel} (h : Inv s) (hc : s.chans a = some c) (hname : c'.name = c.name) (hlcid : c'.lcid = c.lcid)
    (hrcid : c'.rcid = c.rcid) (hreq : c'.openReq = c.openReq ∨ ∃ rcid, s.rcids.load rcid = some a) : Inv (s.setChan a c') := by
  obtain ⟨hids, hnames, hpending, habsent, hinserted, hremote, hfresh, hobject, hown, hscanned, hadopted, hsent, hlcids⟩ := h
  refine ⟨hids, hnames, hpending, habsent, hinserted, ?_, ?_, ?_, ?_, ?_, ?_, ?_, ?_⟩ <;> simp at * <;> grind

/-- The local open enters a new channel in the table of the local ids. -/
theorem Inv.createLocal (h : Inv s) (hop : s.opener name = .scanned none) (hfree : s.lcids.load lcid = none) :
    Inv ({ s.sendOpenReq s.next (allocChannel name) lcid with next := s.next + 1 }.setOpener name (.waitAck s.next true)) := by
  have hnew := h.next_none
  refine ⟨h.ids, h.names, h.pending, h.absent, h.inserted, ?_, ?_, ?_, ?_, ?_, ?_, ?_, ?_⟩
  · have hremote := h.remote
    simp; grind
  · have hfresh := h.fresh
    simp; grind
  · have hobject := h.object
    simp at *; grind
  · intro n b hb
    have hown := h.own n b
    have hremote := h.remote
    by_cases hn : n = name <;> by_cases hb : b = s.next <;> simp_all <;> grind
  · have hscanned := h.scanned
    simp at *; grind
  · have hadopted := h.adopted
    simp at *; grind
  · intro n b hb
    have hsent := h.sent n b
    have hlcids := h.lcids
    by_cases hn : n = name <;> by_cases hb : b = s.next <;> simp_all <;> grind
  · intro l b hb
    have hlcids := h.lcids l b
    by_cases hl : l = lcid <;> by_cases hb : b = s.next <;> simp_all <;> grind

/-- The local open enters the channel it has found. -/
theorem Inv.createRemote (h : Inv s) (hop : s.opener name = .scanned (some a)) (hchan : s.chans a = some c)
    (hfree : s.lcids.load lcid = none) : Inv ((s.sendOpenReq a c lcid).setOpener name (.waitAck a false)) := by
  obtain ⟨hids, hnames, hpending, habsent, hinserted, hremote, hfresh, hobject, hown, hscanned, hadopted, hsent, hlcids⟩ := h
  refine ⟨hids, hnames, hpending, habsent, hinserted, ?_, ?_, ?_, ?_, ?_, ?_, ?_, ?_⟩ <;> simp at * <;> grind

/-- The work item enters a new channel under its remote id. -/
theorem Inv.insertNew (h : Inv s) (hworker : s.worker = .scanned rcid name none) (hfree : s.rcids.load rcid = none) :
    Inv { s.insert s.next (allocChannel name) rcid with next := s.next + 1 } := by
  have hnew := h.next_none
  have hpending := h.pending
  simp [hworker] at hpending
  refine ⟨h.ids, h.names, ?_, ?_, ?_, ?_, ?_, ?_, ?_, ?_, ?_, ?_, ?_⟩
  · have hinj := inj_on_of_nodup_map h.ids
    simp; grind
  · simp
  · simp; grind
  · intro r b hb
    have hremote := h.remote r b
    by_cases hr : r = rcid <;> by_cases hb : b = s.next <;> simp_all
  · have hfresh := h.fresh
    simp; grind
  · have hobject := h.object
    simp at *; grind
  · have hown := h.own
    simp at *; grind
  · have hscanned := h.scanned
    simp at *; grind
  · have hadopted := h.adopted
    simp at *; grind
  · have hsent := h.sent
    simp at *; grind
  · have hlcids := h.lcids
    simp at *; grind

theorem Inv.peerOpen (h : Inv s) (hid : rcid ∉ s.peer.map fst) (hname : name ∉ s.peer.map snd) :
    Inv { s with opens := s.opens ++ [(rcid, name)], peer := (rcid, name) :: s.peer } := by
  have hremote := h.remote
  have hfree : s.rcids.load rcid = none := by
    cases hr : s.rcids.load rcid with
    | none => rfl
    | some a =>
      obtain ⟨c, -, -, hp⟩ := hremote rcid a hr
      exact absurd (mem_map_of_mem hp) hid
  have hpending := h.pending
  refine ⟨nodup_cons.mpr ⟨hid, h.ids⟩, nodup_cons.mpr ⟨hname, h.names⟩, ?_, h.absent, h.inserted, ?_, h.fresh,
    h.object, h.own, h.scanned, h.adopted, h.sent, h.lcids⟩
  · simp only [State.pending, ← append_assoc] at *
    generalize s.worker.pending ++ s.opens = l at *
    simp [nodup_append] at *; grind
  · simp; grind

theorem Inv.work {rest : List (Nat × String)} (h : Inv s) (hidle : s.worker = .idle) (hopens : s.opens = (rcid, name) :: rest) :
    Inv { s with opens := rest, worker := .scanned rcid name (s.findByName name) } := by
  have hmem : (rcid, name) ∈ s.pending := by simp [hopens]
  have hfind := h.findByName_pending hmem
  have hpending := h.pending
  refine ⟨h.ids, h.names, ?_, ?_, ?_, h.remote, h.fresh, h.object, h.own, h.scanned, h.adopted, h.sent, h.lcids⟩
  · simpa [hidle, hopens] using hpending
  · simp [hfind]
  · simp

theorem Inv.complete (h : Inv s) (hworker : s.worker = .inserted a) (hchan : s.chans a = some c) :
    Inv { s.setChan a { c with openReq := true } with worker := .idle } := by
  have h' : Inv (s.setChan a { c with openReq := true }) := h.setChan hchan rfl rfl rfl (.inr (h.inserted a hworker))
  have hpending := h.pending
  refine ⟨h.ids, h.names, ?_, ?_, ?_, h'.remote, h'.fresh, h'.object, h'.own, h'.scanned, h'.adopted, h'.sent, h'.lcids⟩
  · simpa [hworker] using hpending
  · simp
  · simp

theorem Inv.withAcks {acks : List Nat} (h : Inv s) : Inv { s with acks := acks } :=
  ⟨h.ids, h.names, h.pending, h.absent, h.inserted, h.remote, h.fresh, h.object, h.own, h.scanned, h.adopted, h.sent, h.lcids⟩

/-- Nothing changes for the local opens where no channel gets a remote id. -/
theorem Together.frame (hP : Together s) (hop : t.opener = s.opener) (hremote : ∀ n a, t.Remote n a → s.Remote n a) :
    Together t := by
  intro n
  rw [hop]
  exact ⟨(hP n).1, fun a ha => (hP n).2 a (hremote n a ha)⟩

/-- A local open goes on with a channel. -/
theorem Together.setOpener (hP : Together s) (hopener : t.opener = update s.opener name o)
    (hremote : ∀ n a, t.Remote n a → s.Remote n a) (hfailed : o ≠ .failed)
    (hchan : ∀ a, s.Remote name a → o.chan = some a) : Together t := by
  intro n
  rw [hopener]
  by_cases hn : n = name
  · subst hn
    rw [update_self]
    exact ⟨hfailed, fun a ha => .inr (hchan a (hremote n a ha))⟩
  · rw [update_of_ne hn]
    exact ⟨(hP n).1, fun a ha => (hP n).2 a (hremote n a ha)⟩

/-- The channel with the remote id that a local open which has begun is about. -/
theorem Together.chan (hP : Together s) (hop : s.opener name = o) (hbegun : o ≠ .idle) (ha : s.Remote name a) : o.chan = some a :=
  hop ▸ ((hP name).2 a ha).resolve_left (hop ▸ hbegun)

/-- A new channel under a remote id keeps the opens together exactly when the local open of its name has
not begun. -/
theorem together_insertNew (h : Inv s) (hP : Together s) :
    Together { s.insert s.next (allocChannel name) rcid with next := s.next + 1 } ↔ s.opener name = .idle := by
  constructor
  · intro hT
    rcases (hT name).2 s.next (by simp) with hidle | hchan
    · exact hidle
    · exact absurd (h.chan_lt hchan) (lt_irrefl _)
  · intro hidle n
    refine ⟨(hP n).1, fun b hb => ?_⟩
    have hold := (hP n).2 b
    by_cases hbn : b = s.next <;> simp_all <;> grind

/-- A step from a state where the opens are together leaves them so exactly when it is proper. -/
theorem together_step {e : Event} (hstep : Step s e t) (h : Inv s) (hP : Together s) :
    (Together t ↔ Proper s e) ∧ (Together t → Inv t) := by
  cases hstep with
  | peerOpen hid hname => exact ⟨iff_of_true (hP.frame rfl fun _ _ => id) trivial, fun _ => h.peerOpen hid hname⟩
  | @scan name hidle =>
    have hchan : ∀ a, s.Remote name a → (Opener.scanned (s.findByName name)).chan = some a := by
      intro a ha
      cases hfind : s.findByName name with
      | none => exact absurd ha (findByName_none hfind)
      | some b => exact congrArg some (h.remote_unique (h.findByName_some hfind) ha)
    refine ⟨iff_of_true (hP.setOpener rfl (fun _ _ => id) (by simp) hchan) trivial, fun _ => h.setOpener ?_ ?_ ?_⟩
    · simp [hidle]
    · simp [hidle]
    · rintro a (ha | ⟨⟨⟩⟩ | ⟨⟨⟩⟩)
      exact h.findByName_some (Opener.scanned.inj ha)
  | createLocal hop hfree =>
    have hnew := h.next_none
    have hremote := h.remote
    refine ⟨iff_of_true (hP.setOpener rfl ?_ (by simp) fun a ha => ?_) trivial, fun _ => h.createLocal hop hfree⟩
    · simp; grind
    · cases hP.chan hop (by simp) ha
  | createRemote hop hchan hfree =>
    refine ⟨iff_of_true (hP.setOpener rfl ?_ (by simp) fun b hb => ?_) trivial, fun _ => h.createRemote hop hchan hfree⟩
    · simp; grind
    · have hof := hP.chan hop (by simp) hb
      exact hof
  | @acked name a isLocal c hop hchan hack =>
    have hadopted := h.adopted name
    refine ⟨iff_of_true (hP.setOpener rfl (fun _ _ => id) ?_ fun b hb => ?_) trivial, fun _ => h.setOpener ?_ ?_ ?_⟩
    · cases isLocal <;> simp
    · have hof := hP.chan hop (by simp) hb
      cases isLocal <;> exact hof
    · cases isLocal <;> simp [hop]
    · cases isLocal <;> simp [hop]
    · cases isLocal <;> simp_all
  | @requested name a c hop hchan hreq =>
    have hown := h.own name a (.inr hop)
    grind
  | timeoutLocal | timeoutRemote =>
    have hne : ∀ {u : State} {n : String}, ¬ Together (u.setOpener n .failed) := fun hT => (hT _).1 (update_self ..)
    exact ⟨iff_of_false hne id, fun hT => absurd hT hne⟩
  | work hidle hopens => exact ⟨iff_of_true (hP.frame rfl fun _ _ => id) trivial, fun _ => h.work hidle hopens⟩
  | insertNew hworker hfree =>
    refine ⟨(together_insertNew h hP).trans ?_, fun _ => h.insertNew hworker hfree⟩
    simp [Proper, hworker]
  | insertFound hworker hchan hfree => cases h.absent _ _ _ hworker
  | @refuse rcid b name found hworker htaken =>
    have hpending := h.pending.2 (rcid, name)
    simp_all
  | complete hworker hchan =>
    refine ⟨iff_of_true (hP.frame rfl ?_) trivial, fun _ => h.complete hworker hchan⟩
    simp; grind
  | ack hacks hfound hchan =>
    refine ⟨iff_of_true (hP.frame rfl ?_) trivial, fun _ => Inv.withAcks (h.setChan hchan rfl rfl rfl (.inl rfl))⟩
    simp; grind
  | ackInvalid hacks hnone => exact ⟨iff_of_true (hP.frame rfl fun _ _ => id) trivial, fun _ => h.withAcks⟩

/-- Where the opens are together and both have been answered, they are on one channel. -/
theorem Together.symmetric (hP : Together s) (h : Inv s) (hans : Answered s name) : Symmetric s name := by
  obtain ⟨⟨a, ha⟩, b, c, hop, hchan, hack⟩ := hans
  have hof : (s.opener name).chan = some b := by
    rcases hop with hop | hop | ⟨isLocal, hop⟩ <;> rw [hop] <;> rfl
  have hbegun : s.opener name ≠ .idle := by
    intro hidle
    rw [hidle] at hof
    cases hof
  obtain rfl : b = a := some.inj (hof.symm.trans (hP.chan rfl hbegun ha))
  obtain ⟨c', hc', hname, hr⟩ := id ha
  obtain rfl : c = c' := some.inj (hchan.symm.trans hc')
  have hnot : ¬ (s.opener name).Own b := by
    intro hown
    obtain ⟨d, -, -, -, hnr⟩ := h.own name b hown
    exact hnr _ hr
  have hadopted : s.opener name = .waitAck b false ∨ s.opener name = .done b := by
    rcases hop with hop | hop | ⟨isLocal, hop⟩
    · exact .inr hop
    · exact absurd (.inr hop) hnot
    · cases isLocal with
      | true => exact absurd (.inl hop) hnot
      | false => exact .inl hop
  obtain ⟨c'', hc'', hl⟩ := h.sent name b (.inr hadopted)
  obtain rfl : c = c'' := some.inj (hchan.symm.trans hc'')
  refine ⟨b, c, hchan, hname, hl, hr, ?_, ?_⟩
  · rintro b' d hd rfl
    rcases h.object b' d hd with hrd | hown
    · exact h.remote_unique ⟨d, hd, rfl, hrd⟩ ha
    · rcases hadopted with hop' | hop' <;> rw [hop'] at hown <;> rcases hown with ⟨⟨⟩⟩ | ⟨⟨⟩⟩
  · rcases hadopted with hop' | hop'
    · exact .inr (.acked hop' hchan hack)
    · exact .inl hop'

end

theorem together_initial : Together .initial := by
  intro name
  refine ⟨by rintro ⟨⟩, fun a ha => .inl rfl⟩

/-- The local opens are together with the remote ones in every state of a run exactly when all its steps
are proper. Where both opens of a name have been answered they are then on one channel. -/
theorem open_symmetric_iff {run : List (Event × State)} (hrun : Lts.Path Step .initial run) :
    ((∀ u ∈ State.initial :: run.map snd, Together u) ↔ Lts.Steps Proper .initial run) ∧
    (Lts.Steps Proper .initial run →
      ∀ u ∈ State.initial :: run.map snd, ∀ name, Answered u name → Symmetric u name) := by
  have hstep : ∀ s e t, Step s e t → Inv s → Together s → Together t → Inv t :=
    fun _ _ _ hstep h hP hT => (together_step hstep h hP).2 hT
  have hiff : ∀ s e t, Step s e t → Inv s → Together s → (Together t ↔ Proper s e) :=
    fun _ _ _ hstep h hP => (together_step hstep h hP).1
  refine ⟨hrun.always_iff_steps hstep hiff inv_initial together_initial, fun hok u hu name hans => ?_⟩
  have hboth : ∀ u ∈ State.initial :: run.map snd, Inv u ∧ Together u := by
    refine hrun.invariant_of_steps (fun s e t h hok ⟨hI, hP⟩ => ?_) hok ⟨inv_initial, together_initial⟩
    have hT := (hiff s e t h hI hP).mpr hok
    exact ⟨hstep s e t h hI hP hT, hT⟩
  exact (hboth u hu).2.symmetric (hboth u hu).1 hans

/-! The remote OPEN is entered before the local open begins. -/

def opened : State := { State.initial with opens := [(1, "ch")], peer := [(1, "ch")] }
def working : State := { opened with opens := [], worker := .scanned 1 "ch" none }
def entered : State := { working.insert 0 (allocChannel "ch") 1 with next := 1 }
def completed : State := { entered.setChan 0 ⟨"ch", 0, 1, true, false⟩ with worker := .idle }
def found : State := completed.setOpener "ch" (.scanned (some 0))
def asked : State := (found.sendOpenReq 0 ⟨"ch", 0, 1, true, false⟩ 1).setOpener "ch" (.waitAck 0 false)
def answered : State := { asked.setChan 0 ⟨"ch", 1, 1, true, true⟩ with acks := [] }
def returned : State := answered.setOpener "ch" (.done 0)

def remoteFirst : List (Event × State) :=
  [(.peerOpen 1 "ch", opened), (.work, working), (.insert, entered), (.complete, completed), (.scan "ch", found),
    (.register "ch", asked), (.ack 1, answered), (.acked "ch", returned)]

theorem path_remoteFirst : Lts.Path Step .initial remoteFirst :=
  ⟨.peerOpen (by decide) (by decide), .work rfl rfl, .insertNew rfl rfl, .complete (c := ⟨"ch", 0, 1, false, false⟩) rfl rfl,
    .scan rfl, .createRemote (c := ⟨"ch", 0, 1, true, false⟩) rfl rfl rfl,
    .ack (a := 0) (c := ⟨"ch", 1, 1, true, false⟩) (show asked.acks = [] ++ 1 :: [] from rfl) rfl rfl,
    .acked (show answered.opener "ch" = .waitAck 0 false from rfl) rfl rfl, trivial⟩

/-- The local open returns the channel that the remote OPEN has made. -/
theorem open_symmetric_remoteFirst : Symmetric returned "ch" := by
  refine (open_symmetric_iff path_remoteFirst).2 ?_ returned (by simp [remoteFirst]) "ch" ?_
  · refine ⟨trivial, trivial, ?_, trivial, trivial, trivial, trivial, trivial, trivial⟩
    rintro rcid name found -
    rfl
  · exact ⟨⟨0, ⟨"ch", 1, 1, true, true⟩, rfl, rfl, rfl⟩, 0, ⟨"ch", 1, 1, true, true⟩, .inl rfl, rfl, rfl⟩

/-! The local open begins first. -/

def begun : State := State.initial.setOpener "ch" (.scanned none)
def requestedFirst : State := { begun.sendOpenReq 0 (allocChannel "ch") 1 with next := 1 }.setOpener "ch" (.waitAck 0 true)
def ackedFirst : State := { requestedFirst.setChan 0 ⟨"ch", 1, 0, false, true⟩ with acks := [] }
def waiting : State := ackedFirst.setOpener "ch" (.waitReq 0)
def openedNext : State := { waiting with opens := [(1, "ch")], peer := [(1, "ch")] }
def workingNext : State := { openedNext with opens := [], worker := .scanned 1 "ch" none }
def enteredNext : State := { workingNext.insert 1 (allocChannel "ch") 1 with next := 2 }
def completedNext : State := { enteredNext.setChan 1 ⟨"ch", 0, 1, true, false⟩ with worker := .idle }

def localFirst : List (Event × State) :=
  [(.scan "ch", begun), (.register "ch", requestedFirst), (.ack 1, ackedFirst), (.acked "ch", waiting),
    (.peerOpen 1 "ch", openedNext), (.work, workingNext), (.insert, enteredNext), (.complete, completedNext)]

theorem path_localFirst : Lts.Path Step .initial localFirst :=
  ⟨.scan rfl, .createLocal rfl rfl, .ack (a := 0) (c := ⟨"ch", 1, 0, false, false⟩) (show requestedFirst.acks = [] ++ 1 :: [] from rfl) rfl rfl,
    .acked (show ackedFirst.opener "ch" = .waitAck 0 true from rfl) rfl rfl, .peerOpen (by decide) (by decide), .work rfl rfl,
    .insertNew rfl rfl, .complete (c := ⟨"ch", 0, 1, false, false⟩) rfl rfl, trivial⟩

/-- Both opens have been handled and acknowledged. There are two channels of the name, and the local open
waits for a completion that nothing will do. -/
theorem localFirst_two_channels : Lts.Path Step .initial localFirst ∧ Answered completedNext "ch" ∧
    completedNext.opener "ch" = .waitReq 0 ∧ completedNext.chans 0 = some ⟨"ch", 1, 0, false, true⟩ ∧
    completedNext.chans 1 = some ⟨"ch", 0, 1, true, false⟩ :=
  ⟨path_localFirst, ⟨⟨1, ⟨"ch", 0, 1, true, false⟩, rfl, rfl, rfl⟩, 0, ⟨"ch", 1, 0, false, true⟩, .inr (.inl rfl), rfl, rfl⟩,
    rfl, rfl, rfl⟩

end Sm8850.Glink.Open
