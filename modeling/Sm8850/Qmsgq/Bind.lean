import Mathlib.Data.List.Count
import Sm8850.Lib.Path
import Sm8850.Qmsgq.Listen

/-! The table of bound sockets (af_qmsgq.c): bind, the bind that connect makes itself, and release. -/
namespace Sm8850.Qmsgq.Bind
open Prod Lts
open Function (update update_self update_of_ne update_apply)
open List

/-- `VMADDR_CID_ANY` and `VMADDR_PORT_ANY`. -/
def any : Nat := 2 ^ 32 - 1

def minEphSocket : Nat := 0x4000

def maxEphSocket : Nat := 0x7fff

/-- `QMSGQ_HASH`. -/
def hash (a : Addr) : Nat := a.port % 251

/-- `vsock_addr_bound`. -/
def addrBound (a : Addr) : Bool := a.port != any

/-- What `__qmsgq_find_bound_socket` compares. -/
def conflicts (a b : Addr) : Bool := a == b || (a.port == b.port && (b.cid == any || a.cid == any))

/-- Of a socket: its file is open, it has sent a request, it has a connection, it has been released and
waits for the close handshake, it has been released and taken out of the tables. -/
inductive Phase where
  | unconnected
  | connecting
  | established
  | closing
  | released
  deriving DecidableEq

/-- The chains of `qmsgq_bind_table`, and of each socket its address, the references held for its chain,
whether `bound_table` is not empty, and its phase. A `list_add` of a node that is linked already leaves
the chain it was in leading to it. -/
structure State where
  chains : Nat → List Nat
  localAddr : Nat → Addr
  refs : Nat → Nat
  linked : Nat → Bool
  phase : Nat → Phase
  port : Nat

open State

def State.initial : State := ⟨fun _ => [], fun _ => ⟨any, any⟩, fun _ => 0, fun _ => false, fun _ => .unconnected, 0⟩

/-- `__qmsgq_find_bound_socket`. -/
def State.findBoundSocket (s : State) (a : Addr) : Option Nat :=
  (s.chains (hash a)).find? fun x => conflicts a (s.localAddr x)

/-- `__qmsgq_insert_bound` in the chain of the socket's address. -/
def State.insertBound (s : State) (x : Nat) : State :=
  { s with
    refs := update s.refs x (s.refs x + 1)
    chains := update s.chains (hash (s.localAddr x)) (x :: s.chains (hash (s.localAddr x)))
    linked := update s.linked x true }

/-- The chains after `list_del_init` of the socket. -/
def State.unlink (s : State) (x : Nat) : Nat → List Nat :=
  update s.chains (hash (s.localAddr x)) ((s.chains (hash (s.localAddr x))).erase x)

/-- `qmsgq_remove_bound`. -/
def State.removeBound (s : State) (x : Nat) : State :=
  if s.linked x then { s with chains := s.unlink x, linked := update s.linked x false, refs := update s.refs x (s.refs x - 1) }
  else s

def Ephemeral (port : Nat) : Prop := minEphSocket ≤ port ∧ port ≤ maxEphSocket

/-- `port++` of the search, within the ephemeral range. -/
def nextPort (port : Nat) : Nat := if maxEphSocket ≤ port + 1 then minEphSocket else port + 1

/-- The loop of `__qmsgq_connectible_bind` over the ephemeral ports: the port it stops at, if one is free,
and the next to try. -/
def State.ephemeral (s : State) (cid : Nat) : Nat → Nat → Option Nat × Nat
  | 0, port => (none, port)
  | n + 1, port =>
    if s.findBoundSocket ⟨cid, port⟩ = none then (some port, nextPort port) else s.ephemeral cid n (nextPort port)

/-- The static `port` of `__qmsgq_connectible_bind`, drawn at first. -/
def State.startPort (s : State) (drawn : Nat) : Nat := if s.port = 0 then drawn else s.port

/-- The port that `__qmsgq_connectible_bind` settles on, and the next to try. -/
def State.choosePort (s : State) (a : Addr) (drawn : Nat) : Option Nat × Nat :=
  if a.port = any then s.ephemeral a.cid (maxEphSocket - minEphSocket) (s.startPort drawn)
  else (if s.findBoundSocket a = none then some a.port else none, s.startPort drawn)

/-- `__qmsgq_connectible_bind`. -/
def State.connectibleBind (s : State) (x : Nat) (a : Addr) (drawn : Nat) : Int × State :=
  match s.choosePort a drawn with
  | (none, next) => (if a.port = any then -99 else -98, { s with port := next })
  | (some p, next) => (0, { s with localAddr := update s.localAddr x ⟨a.cid, p⟩, port := next }.insertBound x)

/-- `__qmsgq_bind`, with the context id of the registered endpoint. -/
def State.bind (s : State) (x : Nat) (a : Addr) (localCid : Option Nat) (drawn : Nat) : Int × State :=
  if a.cid ≠ any ∧ localCid ≠ some a.cid then (-99, s) else s.connectibleBind x a drawn

/-- `qmsgq_autobind`. -/
def State.autobind (s : State) (x : Nat) (localCid : Option Nat) (drawn : Nat) : Int × State :=
  if addrBound (s.localAddr x) then (0, s) else s.bind x ⟨any, any⟩ localCid drawn

/-- A call or the answer of a peer. A connect may fail before it binds. -/
inductive Event where
  | bind (x : Nat) (a : Addr) (localCid : Option Nat) (drawn : Nat)
  | connect (x : Nat) (early : Bool) (localCid : Option Nat) (drawn : Nat)
  | answer (x : Nat) (accepted : Bool)
  | release (x : Nat)
  | closed (x : Nat)

def State.setPhase (s : State) (x : Nat) (p : Phase) : State := { s with phase := update s.phase x p }

/-- `qmsgq_connect`, as far as the request. -/
def State.connect (s : State) (x : Nat) (early : Bool) (localCid : Option Nat) (drawn : Nat) : State :=
  if early then s
  else if (s.autobind x localCid drawn).1 = 0 then (s.autobind x localCid drawn).2.setPhase x .connecting
  else (s.autobind x localCid drawn).2

/-- `__qmsgq_release`: the transport keeps a connected socket until the close handshake is over. -/
def State.release (s : State) (x : Nat) : State :=
  if s.phase x = .established then s.setPhase x .closing else (s.removeBound x).setPhase x .released

def State.next (s : State) : Event → State
  | .bind x a localCid drawn => (s.bind x a localCid drawn).2
  | .connect x early localCid drawn => s.connect x early localCid drawn
  | .answer x accepted => s.setPhase x (if accepted then .established else .unconnected)
  | .release x => s.release x
  | .closed x => (s.removeBound x).setPhase x .released

/-- The socket still has its file. -/
def Phase.Live (p : Phase) : Prop := p ≠ .closing ∧ p ≠ .released

def State.Enabled (s : State) : Event → Prop
  | .bind x _ _ drawn | .connect x _ _ drawn => (s.phase x).Live ∧ Ephemeral drawn
  | .answer x _ => s.phase x = .connecting
  | .release x => (s.phase x).Live
  | .closed x => s.phase x = .closing

def Step (s : State) (e : Event) (t : State) : Prop := s.Enabled e ∧ t = s.next e

/-- The bound sockets of the given phases are each linked once, in the chain of their port, with one
reference, and their addresses are apart. The others are in no chain. -/
structure Sound (live : Phase → Prop) (s : State) : Prop where
  linked : ∀ x, live (s.phase x) → addrBound (s.localAddr x) →
    (∀ i, (s.chains i).count x = if i = hash (s.localAddr x) then 1 else 0) ∧ s.refs x = 1
  apart : ∀ x y, x ≠ y → live (s.phase x) → live (s.phase y) → addrBound (s.localAddr x) → addrBound (s.localAddr y) →
    conflicts (s.localAddr x) (s.localAddr y) = false
  gone : ∀ x, ¬ live (s.phase x) → ∀ i, x ∉ s.chains i

/-- The context id is not the local one, or there is no port to give. -/
def Refused (s : State) (a : Addr) (localCid : Option Nat) (drawn : Nat) : Prop :=
  (a.cid ≠ any ∧ localCid ≠ some a.cid) ∨ (s.choosePort a drawn).1 = none

/-- A socket that has an address already is refused another. -/
def Fresh (s : State) : Event → Prop
  | .bind x a localCid drawn => addrBound (s.localAddr x) → Refused s a localCid drawn
  | _ => True

/-- Nor is a socket released while it has a connection. -/
def Proper (s : State) (e : Event) : Prop := Fresh s e ∧ ∀ x, e = .release x → s.phase x ≠ .established

/-! ### Invariant -/

structure Inv (s : State) : Prop extends Sound (· ≠ .released) s where
  flag : ∀ x, s.linked x = true ↔ addrBound (s.localAddr x) ∧ s.phase x ≠ .released
  unbound : ∀ x, addrBound (s.localAddr x) = false → (∀ i, x ∉ s.chains i) ∧ s.refs x = 0
  connected : ∀ x, s.phase x = .connecting ∨ s.phase x = .established ∨ s.phase x = .closing → addrBound (s.localAddr x)
  port : s.port = 0 ∨ Ephemeral s.port

theorem inv_initial : Inv .initial := by
  refine ⟨⟨?_, ?_, ?_⟩, ?_, ?_, ?_, ?_⟩ <;> simp [initial, addrBound]

section
variable {s t : State} {x y : Nat} {a : Addr} {localCid : Option Nat} {drawn p next cid n : Nat} {ph : Phase}

attribute [local simp] State.insertBound State.removeBound State.setPhase update_apply Phase.Live

theorem conflicts_port {a b : Addr} (h : conflicts a b) : a.port = b.port := by
  simp [conflicts] at h
  grind

theorem conflicts_comm (a b : Addr) : conflicts a b = conflicts b a := by
  rw [Bool.eq_iff_iff]
  simp [conflicts]
  grind

/-- An address that the lookup does not find is apart from those of the bound sockets. -/
theorem Inv.apart_of_find (h : Inv s) (hfind : s.findBoundSocket a = none) (hy : s.phase y ≠ .released)
    (hbound : addrBound (s.localAddr y)) : conflicts a (s.localAddr y) = false := by
  by_contra hc
  rw [Bool.not_eq_false] at hc
  have hcount := (h.linked y hy hbound).1 (hash a)
  have hhash : hash a = hash (s.localAddr y) := congrArg (· % 251) (conflicts_port hc)
  have hmem : y ∈ s.chains (hash a) := by
    rw [← count_pos_iff, hcount, if_pos hhash]
    exact Nat.one_pos
  simp [findBoundSocket] at hfind
  grind

theorem ephemeral_nextPort (hp : Ephemeral p) : Ephemeral (nextPort p) := by
  unfold Ephemeral nextPort minEphSocket maxEphSocket at *
  split <;> omega

theorem ephemeral_spec (hp : Ephemeral p) : Ephemeral (s.ephemeral cid n p).2 ∧
    ∀ q, (s.ephemeral cid n p).1 = some q → Ephemeral q ∧ s.findBoundSocket ⟨cid, q⟩ = none := by
  induction n generalizing p with
  | zero => simp [ephemeral, hp]
  | succ k ih =>
    unfold ephemeral
    split
    · next hfree =>
      refine ⟨ephemeral_nextPort hp, ?_⟩
      rintro q ⟨⟩
      exact ⟨hp, hfree⟩
    · exact ih (ephemeral_nextPort hp)

/-- The port that is settled on is one, and free. -/
theorem Inv.choosePort (h : Inv s) (hd : Ephemeral drawn) : Ephemeral (s.choosePort a drawn).2 ∧
    ∀ p, (s.choosePort a drawn).1 = some p → p ≠ any ∧ s.findBoundSocket ⟨a.cid, p⟩ = none := by
  have hstart : Ephemeral (s.startPort drawn) := by
    unfold startPort
    split
    · exact hd
    · next h0 => exact h.port.resolve_left h0
  unfold State.choosePort
  split
  · have hspec := @ephemeral_spec s _ a.cid (maxEphSocket - minEphSocket) hstart
    refine ⟨hspec.1, fun p hp => ⟨?_, (hspec.2 p hp).2⟩⟩
    rintro rfl
    exact absurd (hspec.2 _ hp).1.2 (by decide)
  · next hany =>
    refine ⟨hstart, fun p hp => ?_⟩
    cases hfree : s.findBoundSocket a with
    | none =>
      obtain rfl : a.port = p := by simpa [hfree] using hp
      exact ⟨hany, hfree⟩
    | some y => simp [hfree] at hp

theorem Inv.withPort (h : Inv s) (hn : Ephemeral next) : Inv { s with port := next } :=
  ⟨⟨h.linked, h.apart, h.gone⟩, h.flag, h.unbound, h.connected, .inr hn⟩

/-- A socket without an address is entered under one that is free. -/
theorem Inv.insert (h : Inv s) (hlive : (s.phase x).Live) (hx : addrBound (s.localAddr x) = false) (hp : p ≠ any)
    (hfind : s.findBoundSocket ⟨cid, p⟩ = none) :
    Inv ({ s with localAddr := update s.localAddr x ⟨cid, p⟩ }.insertBound x) := by
  have hnew := h.unbound x hx
  have hapart := fun y => h.apart_of_find (y := y) hfind
  have hb : addrBound ⟨cid, p⟩ := by simpa [addrBound] using hp
  have hold := h.unbound
  refine ⟨⟨?_, ?_, ?_⟩, ?_, ?_, ?_, h.port⟩
  · intro y hy hbound
    have hlink := h.linked y hy
    by_cases hyx : y = x
    · have hcount := fun i => count_eq_zero_of_not_mem (hnew.1 i)
      simp_all
      grind
    · simp_all
      grind
  · have hcomm := conflicts_comm
    have := h.apart
    simp
    grind
  · have := h.gone
    simp at *
    grind
  · have := h.flag
    simp at *
    grind
  · simp
    grind
  · have := h.connected
    simp
    grind

/-- A socket is taken out of its chain. -/
theorem Inv.remove (h : Inv s) (hx : s.phase x ≠ .released) : Inv ((s.removeBound x).setPhase x .released) := by
  cases hb : addrBound (s.localAddr x) with
  | true =>
    have hlink := h.linked x hx hb
    have hflag : s.linked x := (h.flag x).mpr ⟨hb, hx⟩
    have hcount : ∀ y i, (s.unlink x i).count y = if y = x then 0 else (s.chains i).count y := by
      intro y i
      by_cases hi : i = hash (s.localAddr x) <;> by_cases hy : y = x <;> simp_all [unlink, count_erase_of_ne]
    have hmem : ∀ y i, y ∈ s.unlink x i → y ≠ x ∧ y ∈ s.chains i := by
      intro y i hy
      rw [← count_pos_iff, hcount] at hy
      rw [← count_pos_iff]
      grind
    rw [removeBound, if_pos hflag]
    generalize s.unlink x = chains at *
    obtain ⟨⟨hlinked, hapart, hgone⟩, hflag, hunbound, hconnected, hport⟩ := h
    refine ⟨⟨?_, ?_, ?_⟩, ?_, ?_, ?_, hport⟩ <;> simp at * <;> grind
  | false =>
    have hflag : s.linked x = false := by
      have := h.flag x
      simp_all
    have hold := h.unbound x hb
    obtain ⟨⟨hlinked, hapart, hgone⟩, hflag, hunbound, hconnected, hport⟩ := h
    refine ⟨⟨?_, ?_, ?_⟩, ?_, ?_, ?_, ?_⟩ <;> simp_all <;> grind

theorem Inv.setPhase (h : Inv s) (hx : s.phase x ≠ .released) (hp : ph ≠ .released)
    (hb : ph ≠ .unconnected → addrBound (s.localAddr x)) : Inv (s.setPhase x ph) := by
  obtain ⟨⟨hlinked, hapart, hgone⟩, hflag, hunbound, hconnected, hport⟩ := h
  refine ⟨⟨?_, ?_, ?_⟩, ?_, ?_, ?_, hport⟩ <;> simp at * <;> grind

/-- A bind is refused and leaves the table, or enters the socket under the port that it settles on. -/
theorem bind_cases (s : State) (x : Nat) (a : Addr) (localCid : Option Nat) (drawn : Nat) :
    (Refused s a localCid drawn ∧ (s.bind x a localCid drawn).1 ≠ 0 ∧
      ((s.bind x a localCid drawn).2 = s ∨ (s.bind x a localCid drawn).2 = { s with port := (s.choosePort a drawn).2 })) ∨
    ¬ Refused s a localCid drawn ∧ ∃ p, (s.choosePort a drawn).1 = some p ∧ s.bind x a localCid drawn =
      (0, { s with port := (s.choosePort a drawn).2, localAddr := update s.localAddr x ⟨a.cid, p⟩ }.insertBound x) := by
  unfold State.bind connectibleBind Refused
  by_cases hcid : a.cid ≠ any ∧ localCid ≠ some a.cid
  · simp [hcid]
  · obtain ⟨port, next⟩ := s.choosePort a drawn
    cases port <;> grind

theorem Inv.bind (h : Inv s) (hlive : (s.phase x).Live) (hd : Ephemeral drawn)
    (hfresh : Fresh s (.bind x a localCid drawn)) : Inv (s.bind x a localCid drawn).2 := by
  obtain ⟨hnext, hfree⟩ := h.choosePort (a := a) hd
  obtain ⟨-, -, ht | ht⟩ | ⟨hnot, p, hp, ht⟩ := bind_cases s x a localCid drawn
  · rwa [ht]
  · rw [ht]
    exact h.withPort hnext
  · rw [ht]
    have hx : addrBound (s.localAddr x) = false := Bool.eq_false_iff.mpr fun hx => hnot (hfresh hx)
    exact (h.withPort hnext).insert hlive hx (hfree p hp).1 (hfree p hp).2

theorem Inv.connect {early : Bool} (h : Inv s) (hlive : (s.phase x).Live) (hd : Ephemeral drawn) :
    Inv (s.connect x early localCid drawn) := by
  unfold State.connect autobind
  by_cases hearly : early
  · rwa [if_pos hearly]
  by_cases hx : addrBound (s.localAddr x)
  · simp only [if_neg hearly, if_pos hx]
    exact h.setPhase hlive.2 (by decide) fun _ => hx
  · have hbind : Inv (s.bind x ⟨any, any⟩ localCid drawn).2 := h.bind hlive hd fun hb => absurd hb hx
    have hfree := (h.choosePort (a := ⟨any, any⟩) hd).2
    simp only [if_neg hearly, if_neg hx]
    obtain ⟨-, hr, -⟩ | ⟨-, p, hp, ht⟩ := bind_cases s x ⟨any, any⟩ localCid drawn
    · rwa [if_neg hr]
    · rw [ht] at hbind ⊢
      refine hbind.setPhase hlive.2 (by decide) fun _ => ?_
      simpa [addrBound] using (hfree p hp).1

/-- A step that binds no socket twice keeps the invariant. -/
theorem Inv.step {e : Event} (hstep : Step s e t) (hfresh : Fresh s e) (h : Inv s) : Inv t := by
  obtain ⟨hen, rfl⟩ := hstep
  cases e with
  | bind x a localCid drawn => exact h.bind hen.1 hen.2 hfresh
  | connect x early localCid drawn => exact h.connect hen.1 hen.2
  | answer x accepted =>
    refine h.setPhase (by rw [hen]; decide) (by cases accepted <;> decide) fun _ => h.connected x (.inl hen)
  | release x =>
    by_cases hest : s.phase x = .established
    · simp only [State.next, release, if_pos hest]
      exact h.setPhase hen.2 (by decide) fun _ => h.connected x (.inr (.inl hest))
    · simp only [State.next, release, if_neg hest]
      exact h.remove hen.2
  | closed x => exact h.remove (by rw [hen]; decide)

/-- Where no socket waits for a close handshake, the released ones are all out of the chains. -/
theorem Inv.sound_iff (h : Inv s) : Sound Phase.Live s ↔ ∀ x, s.phase x ≠ .closing := by
  constructor
  · intro hs x hx
    have hcount := (h.linked x (by rw [hx]; decide) (h.connected x (.inr (.inr hx)))).1 (hash (s.localAddr x))
    refine hs.gone x (by simp [hx]) (hash (s.localAddr x)) ?_
    rw [← count_pos_iff, hcount, if_pos rfl]
    exact Nat.one_pos
  · intro hs
    refine ⟨fun x hx => h.linked x hx.2, fun x y hne hx hy => h.apart x y hne hx.2 hy.2, fun x hx => h.gone x ?_⟩
    simp_all

/-- A second bind of a socket takes a second reference. -/
theorem Sound.fresh (hs : Sound Phase.Live s) (hlive : (s.phase x).Live) (ht : Sound Phase.Live (s.bind x a localCid drawn).2)
    (hd : Ephemeral drawn) (h : Inv s) : Fresh s (.bind x a localCid drawn) := by
  intro hx
  have hfree := (h.choosePort (a := a) hd).2
  by_contra hnot
  obtain ⟨hr, -⟩ | ⟨-, p, hp, hbind⟩ := bind_cases s x a localCid drawn
  · exact hnot hr
  · rw [hbind] at ht
    have hone := (hs.linked x hlive hx).2
    have htwo := (ht.linked x hlive (by simpa [addrBound] using (hfree p hp).1)).2
    simp [hone] at htwo

theorem bind_phase : (s.bind x a localCid drawn).2.phase = s.phase := by
  obtain ⟨-, -, ht | ht⟩ | ⟨-, p, -, ht⟩ := bind_cases s x a localCid drawn <;> rw [ht] <;> rfl

theorem connect_phase {early : Bool} : (s.connect x early localCid drawn).phase y = s.phase y ∨
    (s.connect x early localCid drawn).phase y = .connecting := by
  have hb : (s.bind x ⟨any, any⟩ localCid drawn).2.phase = s.phase := bind_phase
  unfold State.connect autobind
  split_ifs <;> simp_all <;> grind

theorem removeBound_phase : (s.removeBound x).phase = s.phase := by
  unfold removeBound
  split <;> rfl

theorem sound_step {e : Event} (hstep : Step s e t) (h : Inv s) (hs : Sound Phase.Live s) :
    Sound Phase.Live t ↔ Proper s e := by
  have hclosing := h.sound_iff.mp hs
  by_cases hfresh : Fresh s e
  · rw [(h.step hstep hfresh).sound_iff]
    obtain ⟨hen, rfl⟩ := hstep
    cases e with
    | bind x a localCid drawn => simp_all [State.next, bind_phase, Proper]
    | connect x early localCid drawn =>
      have := fun y => @connect_phase s x y localCid drawn early
      simp [State.next, Proper, hfresh]
      grind
    | answer x accepted => cases accepted <;> simp_all [State.next, Proper] <;> grind
    | release x =>
      by_cases hest : s.phase x = .established
      · simp [State.next, release, Proper, hest]
        exact ⟨x, absurd rfl⟩
      · simp_all [State.next, release, Proper, removeBound_phase, -removeBound]
        grind
    | closed x => exact absurd hen (hclosing x)
  · refine iff_of_false (fun ht => hfresh ?_) (fun hp => hfresh hp.1)
    obtain ⟨hen, rfl⟩ := hstep
    cases e with
    | bind x a localCid drawn => exact hs.fresh hen.1 ht hen.2 h
    | _ => trivial

end

theorem sound_initial (live : Phase → Prop) : Sound live .initial := by
  constructor <;> simp [initial, addrBound]

/-- The bind table is sound in every state of a run exactly when no step binds a socket again or releases
one that has a connection. Where no socket is bound again, a socket is out of the chains once its close
handshake is over. -/
theorem bind_table_sound {run : List (Event × State)} (hrun : Lts.Path Step .initial run) :
    ((∀ u ∈ State.initial :: run.map snd, Sound Phase.Live u) ↔ Steps Proper .initial run) ∧
    (Steps Fresh .initial run → ∀ u ∈ State.initial :: run.map snd, Sound (· ≠ .released) u) := by
  constructor
  · refine hrun.always_iff_steps (fun s e t hstep h hs ht => ?_) (fun s e t => sound_step) inv_initial (sound_initial _)
    exact h.step hstep ((sound_step hstep h hs).mp ht).1
  · intro hfresh u hu
    have hstep : ∀ s e t, Step s e t → Fresh s e → Inv s → Inv t := fun s e t => Inv.step
    exact (hrun.invariant_of_steps hstep hfresh inv_initial u hu).toSound

/-- Two binds of a socket to ports of its context. -/
def bindTwice : List (Event × State) :=
  let s := State.initial.next (.bind 0 ⟨any, 5⟩ none minEphSocket)
  [(.bind 0 ⟨any, 5⟩ none minEphSocket, s), (.bind 0 ⟨any, 6⟩ none minEphSocket, s.next (.bind 0 ⟨any, 6⟩ none minEphSocket))]

theorem path_bindTwice : Lts.Path Step .initial bindTwice :=
  ⟨⟨⟨⟨by decide, by decide⟩, by decide, by decide⟩, rfl⟩, ⟨⟨⟨by decide, by decide⟩, by decide, by decide⟩, rfl⟩, trivial⟩

/-- After the first of them the table is sound. -/
theorem bind_table_sound_once : Lts.Path Step .initial (bindTwice.take 1) ∧
    ∀ u ∈ State.initial :: (bindTwice.take 1).map snd, Sound Phase.Live u := by
  have hpath : Lts.Path Step .initial (bindTwice.take 1) := ⟨path_bindTwice.1, trivial⟩
  refine ⟨hpath, (bind_table_sound hpath).1.mpr ⟨⟨fun h => absurd h (by decide), nofun⟩, trivial⟩⟩

/-- After the second the socket is in the chains of both ports, and holds two references. -/
theorem bindTwice_two_chains : Lts.Path Step .initial bindTwice ∧ (final .initial bindTwice).localAddr 0 = ⟨any, 6⟩ ∧
    (final .initial bindTwice).chains 5 = [0] ∧ (final .initial bindTwice).chains 6 = [0] ∧
    (final .initial bindTwice).refs 0 = 2 :=
  ⟨path_bindTwice, by decide, by decide, by decide, by decide⟩

end Sm8850.Qmsgq.Bind
