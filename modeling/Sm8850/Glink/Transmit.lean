import Sm8850.Lib.Path
import Sm8850.Glink.Fifo

/-! `qcom_glink_tx` of drivers/rpmsg/qcom_glink_native.c on any number of threads, beside a remote
reader of the FIFO. Every store to the FIFO is a step of its own. -/
namespace Sm8850.Glink.Tx
open List Function Option Ring BitVec Nat Prod Lts

def EIO : Int := 5
def EAGAIN : Int := 11
def EINVAL : Int := 22

/-- The arguments of one call. -/
structure Call where
  hdr : List U8
  data : List U8
  wait : Bool

def Call.msg (c : Call) : List U8 := c.hdr ++ c.data

/-- `unsigned int tlen = hlen + dlen`. -/
def Call.tlen (c : Call) : U32 := BitVec.ofNat 32 (c.hdr.length + c.data.length)

/-- Where a thread stands in its call. The stores a write has still to make and the head it
publishes after them stand with it. -/
inductive Pc where
  | returned (ret : Int)
  | enter (c : Call)
  | entered (c : Call)
  | check (c : Call)
  | stalled (c : Call)
  | notifying (c : Call) (todo : List (U8 × Nat)) (head : U32)
  | release (c : Call)
  | waiting (c : Call)
  | woken (c : Call)
  | writing (c : Call) (todo : List (U8 × Nat)) (head : U32)
  | leave (ret : Int)

/-- The edge and its threads. `written` and `consumed` are the history: the messages whose head
was published, and the bytes the reader has passed. -/
structure State (τ : Type) where
  pipe : Pipe
  sentReadNotify : Bool
  abortTx : Bool
  txLock : Option τ
  calls : τ → Pc
  written : List (List U8)
  consumed : Nat

variable {τ : Type}

/-- `GLINK_CMD_READ_NOTIF` with zero parameters. -/
def readNotif : List U8 := [13, 0, 0, 0, 0, 0, 0, 0]

def State.goto [DecidableEq τ] (s : State τ) (t : τ) (pc : Pc) : State τ :=
  { s with calls := update s.calls t pc }

def State.store (s : State τ) (e : U8 × Nat) : State τ :=
  { s with pipe := { s.pipe with fifo := update s.pipe.fifo e.2 e.1 } }

/-- The last statement of `glink_smem_tx_write`. -/
def State.publish (s : State τ) (msg : List U8) (head : U32) : State τ :=
  { s with pipe := { s.pipe with head }, written := s.written ++ [msg] }

/-- The next step of a thread inside `qcom_glink_tx`. The wait ends at any time: it has a
timeout. -/
def run [DecidableEq τ] (s : State τ) (t : τ) : Option (State τ) :=
  match s.calls t with
  | .returned _ => none
  | .enter c => if s.txLock = none then some ({ s with txLock := some t }.goto t (.entered c)) else none
  | .entered c => some (s.goto t (if s.abortTx then .leave (- EIO) else .check c))
  | .check c =>
    if txAvail s.pipe < c.tlen then some (s.goto t (.stalled c))
    else
      let w := txWrite s.pipe.length s.pipe.head c.hdr c.data
      some (s.goto t (.writing c w.1 w.2))
  | .stalled c =>
    if !c.wait then some (s.goto t (.leave (-EAGAIN)))
    else if s.abortTx then some (s.goto t (.leave (- EIO)))
    else if s.sentReadNotify then some (s.goto t (.release c))
    else
      let w := txWrite s.pipe.length s.pipe.head readNotif []
      some ({ s with sentReadNotify := true }.goto t (.notifying c w.1 w.2))
  | .notifying c (e :: todo) head => some ((s.store e).goto t (.notifying c todo head))
  | .notifying c [] head => some ((s.publish readNotif head).goto t (.release c))
  | .release c => some ({ s with txLock := none }.goto t (.waiting c))
  | .waiting c => if s.txLock = none then some ({ s with txLock := some t }.goto t (.woken c)) else none
  | .woken c =>
    let sent := if c.tlen ≤ txAvail s.pipe then false else s.sentReadNotify
    some ({ s with sentReadNotify := sent }.goto t (.check c))
  | .writing c (e :: todo) head => some ((s.store e).goto t (.writing c todo head))
  | .writing c [] head => some ((s.publish c.msg head).goto t (.leave 0))
  | .leave ret => some ({ s with txLock := none }.goto t (.returned ret))

inductive Event (τ : Type) where
  | call (t : τ) (c : Call)
  | run (t : τ)
  | read (n : U64)
  | abort

/-- One event. A message is no larger than the FIFO, and the reader advances in multiples of 8
within the data it sees. -/
def step [DecidableEq τ] (s : State τ) : Event τ → Option (State τ)
  | .call t c =>
    match s.calls t with
    | .returned _ =>
      if c.hdr.length + c.data.length ≤ s.pipe.length.toNat then
        some (s.goto t (if s.pipe.length ≤ c.tlen.setWidth 64 then .returned (-EINVAL) else .enter c))
      else none
    | _ => none
  | .run t => run s t
  | .read n =>
    if n.toNat % 8 = 0 ∧ n ≤ rxAvail s.pipe then
      some { s with pipe := rxAdvance s.pipe n, consumed := s.consumed + n.toNat }
    else none
  | .abort => some { s with abortTx := true }

def Step [DecidableEq τ] (s : State τ) (e : Event τ) (t : State τ) : Prop := step s e = some t

def init (length : U64) (fifo : Nat → U8) : State τ :=
  ⟨⟨length, fifo, 0, 0⟩, false, false, none, fun _ => .returned 0, [], 0⟩

/-- The frames that were written and not yet consumed. -/
def State.pending (s : State τ) : List (Option U8) := (s.written.flatMap frame).drop s.consumed

/-- What one byte of the FIFO shows of a frame: a byte that was written, or padding. -/
def Shows (cell : Option U8) (b : U8) : Prop := ∀ a, cell = some a → b = a

/-- What the reader sees is what was written and not consumed, in order, and an empty FIFO looks
different from every other. -/
structure Faithful (s : State τ) : Prop where
  avail : (rxAvail s.pipe).toNat = s.pending.length
  bytes : ∀ (buf : List U8) (offset : U32) (count : Nat), offset.toNat + count ≤ s.pending.length →
    Forall₂ Shows ((s.pending.drop offset.toNat).take count) (rxPeek s.pipe buf offset count)
  below : s.pending.length < s.pipe.length.toNat
  empty : s.pipe.head = s.pipe.tail ↔ s.pending = []

/-- A thread that holds the lock. -/
def Pc.Critical : Pc → Prop
  | .returned _ | .enter _ | .waiting _ => False
  | _ => True

/-- The shared part: the FIFO holds what is pending, and the reserves are kept. -/
structure Shared (s : State τ) : Prop where
  wf : s.pipe.Wf
  consumed : s.consumed ≤ (s.written.flatMap frame).length
  used : s.pending.length = s.pipe.used
  holds : Holds s.pipe.length.toNat s.pipe.fifo s.pipe.tail.toNat s.pending
  room : s.pending.length + 8 ≤ s.pipe.length.toNat
  spare : s.sentReadNotify = false → s.pending.length + 16 ≤ s.pipe.length.toNat

/-- A write of `msg` that still has the stores `todo` to make keeps to the free cells, and leaves
the reserves when it is published. -/
structure Writing (s : State τ) (msg : List U8) (todo : List (U8 × Nat)) (head : U32) : Prop where
  room : s.pending.length + (frame msg).length + 8 ≤ s.pipe.length.toNat
  spare : s.sentReadNotify = false →
    s.pending.length + (frame msg).length + 16 ≤ s.pipe.length.toNat
  head_eq : head.toNat = (s.pipe.head.toNat + (frame msg).length) % s.pipe.length.toNat
  free : ∀ e ∈ todo, ∃ i, i < (frame msg).length ∧
    e.2 = (s.pipe.head.toNat + i) % s.pipe.length.toNat
  holds : Holds s.pipe.length.toNat (write s.pipe.fifo todo) s.pipe.head.toNat (frame msg)

/-- What a thread knows at its place. -/
def Pc.Knows (s : State τ) : Pc → Prop
  | .returned _ | .leave _ => True
  | .enter c | .entered c | .check c => c.msg.length ≤ s.pipe.length.toNat
  | .stalled c | .release c | .waiting c | .woken c =>
    c.msg.length ≤ s.pipe.length.toNat ∧ 0 < c.msg.length
  | .notifying c todo head =>
    (c.msg.length ≤ s.pipe.length.toNat ∧ 0 < c.msg.length) ∧ s.sentReadNotify = true ∧
      Writing s readNotif todo head
  | .writing c todo head => Writing s c.msg todo head

structure Inv (s : State τ) : Prop where
  shared : Shared s
  owner : ∀ t, (s.calls t).Critical → s.txLock = some t
  knows : ∀ t, (s.calls t).Knows s

variable {s s' : State τ} {t : τ} {pc pc₀ : Pc} {c : Call} {msg : List U8} {todo : List (U8 × Nat)}
  {head : U32} {e : U8 × Nat}

theorem init_inv (length : U64) (hf : Fits length) (fifo : Nat → U8) : Inv (init length fifo : State τ) where
  shared :=
    { wf := ⟨hf, by have := hf.reserve; simp [init]; omega, rfl, by have := hf.reserve; simp [init]; omega, rfl⟩
      consumed := le_refl 0
      used := rfl
      holds := holds_nil
      room := by have := hf.reserve; simp [init, State.pending]; omega
      spare := fun _ => by simpa [init, State.pending] using hf.reserve }
  owner := fun _ h => h.elim
  knows := fun _ => trivial

/-! What the threads know survives the steps of the others. -/

theorem Writing.congr (h : Writing s msg todo head) (hpipe : s'.pipe = s.pipe)
    (hsent : s'.sentReadNotify = s.sentReadNotify) (hpend : s'.pending = s.pending) : Writing s' msg todo head := by
  obtain ⟨hroom, hspare, hhead, hfree, hholds⟩ := h
  constructor
  · rwa [hpipe, hpend]
  · rwa [hpipe, hpend, hsent]
  · rwa [hpipe]
  · rwa [hpipe]
  · rwa [hpipe]

theorem Pc.Knows.congr (h : pc.Knows s) (hpipe : s'.pipe = s.pipe)
    (hsent : s'.sentReadNotify = s.sentReadNotify) (hpend : s'.pending = s.pending) : pc.Knows s' := by
  cases pc with
  | notifying c todo head =>
    obtain ⟨hlen, hs, hw⟩ := h
    exact ⟨by rwa [hpipe], by rwa [hsent], hw.congr hpipe hsent hpend⟩
  | writing c todo head => exact Writing.congr h hpipe hsent hpend
  | returned ret => trivial
  | leave ret => trivial
  | _ => simpa only [Pc.Knows, hpipe] using h

theorem Pc.Knows.frame (h : pc.Knows s) (hc : ¬ pc.Critical) (hlen : s'.pipe.length = s.pipe.length) : pc.Knows s' := by
  cases pc with
  | returned ret => trivial
  | enter c => simpa only [Pc.Knows, hlen] using h
  | waiting c => simpa only [Pc.Knows, hlen] using h
  | _ => exact absurd trivial hc

theorem Shared.congr (h : Shared s) (hpipe : s'.pipe = s.pipe)
    (hsent : s'.sentReadNotify = s.sentReadNotify) (hwritten : s'.written = s.written)
    (hcons : s'.consumed = s.consumed) : Shared s' := by
  have hpend : s'.pending = s.pending := by rw [State.pending, State.pending, hwritten, hcons]
  obtain ⟨hwf, hconsumed, hused, hholds, hroom, hspare⟩ := h
  constructor
  · rwa [hpipe]
  · rwa [hwritten, hcons]
  · rwa [hpipe, hpend]
  · rwa [hpipe, hpend]
  · rwa [hpipe, hpend]
  · rwa [hpipe, hpend, hsent]

/-- A step of one thread, from what it does to the shared part and what the thread knows after
it. -/
theorem Inv.move [DecidableEq τ] (hcalls : s'.calls = update s.calls t pc)
    (hshared : Shared s') (howner : pc.Critical → s'.txLock = some t) (hknows : pc.Knows s')
    (hothers : ∀ t', t' ≠ t → ((s.calls t').Critical → s'.txLock = some t') ∧ (s.calls t').Knows s') : Inv s' where
  shared := hshared
  owner := by
    intro t' hc
    by_cases ht : t' = t
    · subst ht
      rw [hcalls, update_self] at hc
      exact howner hc
    · rw [hcalls, update_of_ne ht] at hc
      exact (hothers t' ht).1 hc
  knows := by
    intro t'
    by_cases ht : t' = t
    · subst ht
      rw [hcalls, update_self]
      exact hknows
    · rw [hcalls, update_of_ne ht]
      exact (hothers t' ht).2

/-- A step that leaves the shared part alone but for the lock. -/
theorem Inv.goto [DecidableEq τ] (h : Inv s) {lock : Option τ} (hown : pc.Critical → lock = some t)
    (hkeep : ∀ t', t' ≠ t → s.txLock = some t' → lock = some t') (hknows : pc.Knows s) :
    Inv ({ s with txLock := lock }.goto t pc) := by
  refine Inv.move rfl (h.shared.congr rfl rfl rfl rfl) hown (hknows.congr rfl rfl rfl) ?_
  intro t' ht
  exact ⟨fun hc => hkeep t' ht (h.owner t' hc), (h.knows t').congr rfl rfl rfl⟩

section
variable (h : Inv s) (hpc : s.calls t = pc₀) (hc : pc₀.Critical)
include h hpc hc

/-- A step of the thread that holds the lock: no other thread depends on more than the FIFO's
length. -/
theorem Inv.owned [DecidableEq τ] (hcalls : s'.calls = update s.calls t pc) (hlock : s'.txLock = s.txLock)
    (hlen : s'.pipe.length = s.pipe.length) (hshared : Shared s') (hknows : pc.Knows s') : Inv s' := by
  have ht := h.owner t (hpc ▸ hc)
  refine Inv.move hcalls hshared (fun _ => hlock.trans ht) hknows ?_
  intro t' hne
  have hfree : ¬ (s.calls t').Critical := by
    intro hc'
    exact hne (some.inj ((h.owner t' hc').symm.trans ht))
  exact ⟨fun hc' => absurd hc' hfree, (h.knows t').frame hfree hlen⟩

/-- A step of the thread that holds the lock and changes nothing else. -/
theorem Inv.stay [DecidableEq τ] (hknows : pc.Knows s) : Inv (s.goto t pc) :=
  h.owned hpc hc rfl rfl rfl (h.shared.congr rfl rfl rfl rfl) (hknows.congr rfl rfl rfl)

/-- The thread that holds the lock gives it up. -/
theorem Inv.unlock [DecidableEq τ] (hfree : ¬ pc.Critical)
    (hknows : pc.Knows s) : Inv ({ s with txLock := none }.goto t pc) := by
  refine h.goto (fun hc' => absurd hc' hfree) ?_ hknows
  intro t' hne hl
  exact absurd (some.inj (hl.symm.trans (h.owner t (hpc ▸ hc)))) hne

end

/-! What the steps do to the FIFO. -/

theorem Call.tlen_toNat {length : U64} (hf : Fits length) (hc : c.msg.length ≤ length.toNat) :
    c.tlen.toNat = c.msg.length := by
  have hs := hf.small
  rw [Call.msg, length_append] at hc ⊢
  rw [Call.tlen, toNat_ofNat, mod_eq_of_lt (by omega)]

theorem holds_frame {length start : Nat} {mem : Nat → U8} (hm : msg.length ≤ length) :
    Holds length (write mem (stores length start msg)) start (frame msg) :=
  holds_append.mpr ⟨holds_stores hm, holds_replicate_none _⟩

/-- The stores of `glink_smem_tx_write` are a write of the message. -/
theorem writing_start (h : Shared s) {hdr data : List U8}
    (hroom : s.pending.length + (frame (hdr ++ data)).length + 8 ≤ s.pipe.length.toNat)
    (hspare : s.sentReadNotify = false → s.pending.length + (frame (hdr ++ data)).length + 16 ≤ s.pipe.length.toNat) :
    Writing s (hdr ++ data) (txWrite s.pipe.length s.pipe.head hdr data).1
      (txWrite s.pipe.length s.pipe.head hdr data).2 := by
  have hfr := length_frame (hdr ++ data)
  have hle : (hdr ++ data).length ≤ s.pipe.length.toNat := by omega
  obtain ⟨hst, hhead⟩ := txWrite_eq h.wf.fits h.wf.head_lt h.wf.head_aligned
    (hdr.length_append ▸ hle)
  refine ⟨hroom, hspare, hhead, ?_, ?_⟩
  · intro e he
    rw [hst] at he
    obtain ⟨i, hi, hpos⟩ := mem_stores he
    exact ⟨i, by omega, hpos⟩
  · rw [hst]
    exact holds_frame hle

theorem message_room (h : Shared s) (hc : c.msg.length ≤ s.pipe.length.toNat) (havail : ¬ txAvail s.pipe < c.tlen) :
    s.pending.length + (frame c.msg).length + 8 ≤ s.pipe.length.toNat ∧ (s.sentReadNotify = false →
      s.pending.length + (frame c.msg).length + 16 ≤ s.pipe.length.toNat) := by
  have hfr := length_frame c.msg
  have hal := h.wf.fits.aligned
  have hua := h.wf.used_aligned
  have hused := h.used
  rw [lt_def, txAvail_toNat h.wf, Call.tlen_toNat h.wf.fits hc] at havail
  have hroom := h.room
  by_cases hzero : c.msg.length = 0
  · rw [hzero] at hfr
    exact ⟨by omega, fun hs => by have := h.spare hs; omega⟩
  · exact ⟨by omega, fun _ => by omega⟩

/-- A store of a write falls behind what is pending. -/
theorem store_shared (h : Shared s) (hw : Writing s msg (e :: todo) head) :
    Shared (s.store e) ∧ Writing (s.store e) msg todo head := by
  obtain ⟨i, hi, hpos⟩ := hw.free e (by simp)
  have hroom := hw.room
  have hused := h.used
  constructor
  · refine ⟨⟨h.wf.fits, h.wf.head_lt, h.wf.head_aligned, h.wf.tail_lt, h.wf.tail_aligned⟩,
      h.consumed, h.used, ?_, h.room, h.spare⟩
    refine Holds.store h.holds ?_
    intro j hj heq
    replace hj : j < s.pending.length := hj
    rw [hpos, h.wf.head_eq, mod_add_mod, add_assoc] at heq
    have hji : j = s.pipe.used + i :=
      position_injective (show j < s.pipe.length.toNat by omega)
        (show s.pipe.used + i < s.pipe.length.toNat by omega) heq
    omega
  · exact ⟨hw.room, hw.spare, hw.head_eq, fun f hf => hw.free f (.tail _ hf), hw.holds⟩

theorem used_eq {p : Pipe} {n : Nat} (h : p.Wf) (hn : n < p.length.toNat)
    (hhead : p.head.toNat = (p.tail.toNat + n) % p.length.toNat) : p.used = n :=
  position_injective h.used_lt hn (h.head_eq.symm.trans hhead)

theorem pending_publish (h : Shared s) (msg : List U8) (head : U32) :
    (s.publish msg head).pending = s.pending ++ frame msg := by
  show ((s.written ++ [msg]).flatMap frame).drop s.consumed = _
  rw [flatMap_append, drop_append_of_le_length h.consumed]
  simp [State.pending]

/-- Once all its stores are made, publishing the head adds the frame to what is pending. -/
theorem publish_shared (h : Shared s) (hw : Writing s msg [] head) : Shared (s.publish msg head) := by
  have hpend := pending_publish h msg head
  have hused := h.used
  have hroom := hw.room
  have hal := h.wf.fits.aligned
  have hmod := length_frame_mod msg
  have hhead : head.toNat =
      (s.pipe.tail.toNat + (s.pending.length + (frame msg).length)) % s.pipe.length.toNat := by
    rw [hw.head_eq, h.wf.head_eq, mod_add_mod, hused, add_assoc]
  have hwf : (s.publish msg head).pipe.Wf := by
    refine ⟨h.wf.fits, ?_, ?_, h.wf.tail_lt, h.wf.tail_aligned⟩
    · show head.toNat < s.pipe.length.toNat
      rw [hw.head_eq]
      exact mod_lt _ (by omega)
    · show head.toNat % 8 = 0
      have hha := h.wf.head_aligned
      rw [hw.head_eq, mod_mod_of_dvd _ (dvd_of_mod_eq_zero hal)]
      omega
  refine ⟨hwf, ?_, ?_, ?_, ?_, ?_⟩
  · show s.consumed ≤ ((s.written ++ [msg]).flatMap frame).length
    rw [flatMap_append, length_append]
    exact le_add_right_of_le h.consumed
  · rw [hpend, length_append]
    exact (used_eq hwf (show _ < s.pipe.length.toNat by omega) hhead).symm
  · rw [hpend]
    refine holds_append.mpr ⟨h.holds, ?_⟩
    rw [hused, ← holds_mod]
    show Holds s.pipe.length.toNat s.pipe.fifo
      ((s.pipe.tail.toNat + s.pipe.used) % s.pipe.length.toNat) (frame msg)
    rw [← h.wf.head_eq]
    exact hw.holds
  · rw [hpend, length_append]
    exact hw.room
  · rw [hpend, length_append]
    exact hw.spare

/-- The state after the reader has taken `n` bytes. -/
def State.take (s : State τ) (n : U64) : State τ :=
  { s with pipe := rxAdvance s.pipe n, consumed := s.consumed + n.toNat }

theorem pending_take (n : U64) : (s.take n).pending = s.pending.drop n.toNat := by
  rw [State.pending, State.pending, drop_drop]
  rfl

theorem take_shared {n : U64} (h : Shared s) (hn : n.toNat % 8 = 0) (hle : n.toNat ≤ s.pipe.used) :
    Shared (s.take n) := by
  have hused := h.used
  have htail := rxAdvance_tail h.wf hle
  have hal := h.wf.fits.aligned
  have hlen : (s.take n).pending.length = s.pending.length - n.toNat := by
    rw [pending_take, length_drop]
  have hwf : (s.take n).pipe.Wf := by
    refine ⟨h.wf.fits, h.wf.head_lt, h.wf.head_aligned, ?_, ?_⟩
    · show (rxAdvance s.pipe n).tail.toNat < s.pipe.length.toNat
      rw [htail]
      have := h.wf.tail_lt
      exact mod_lt _ (by omega)
    · show (rxAdvance s.pipe n).tail.toNat % 8 = 0
      have hta := h.wf.tail_aligned
      rw [htail, mod_mod_of_dvd _ (dvd_of_mod_eq_zero hal)]
      omega
  have hroom := h.room
  refine ⟨hwf, ?_, ?_, ?_, ?_, ?_⟩
  · have hpend : s.pending.length = (s.written.flatMap frame).length - s.consumed :=
      length_drop
    have hcons := h.consumed
    show s.consumed + n.toNat ≤ (s.written.flatMap frame).length
    omega
  · rw [hlen]
    refine (used_eq hwf (show _ < s.pipe.length.toNat by omega) ?_).symm
    show s.pipe.head.toNat = ((rxAdvance s.pipe n).tail.toNat + _) % s.pipe.length.toNat
    rw [htail, mod_add_mod, h.wf.head_eq, hused]
    congr 1
    omega
  · rw [pending_take]
    show Holds s.pipe.length.toNat s.pipe.fifo (rxAdvance s.pipe n).tail.toNat _
    rw [htail, holds_mod]
    exact h.holds.drop n.toNat (by omega)
  · rw [hlen]
    show s.pending.length - n.toNat + 8 ≤ s.pipe.length.toNat
    omega
  · intro hs
    have := h.spare hs
    rw [hlen]
    show s.pending.length - n.toNat + 16 ≤ s.pipe.length.toNat
    omega

theorem Writing.take (h : Writing s msg todo head) (n : U64) : Writing (s.take n) msg todo head := by
  have hlen : (s.take n).pending.length ≤ s.pending.length := by
    rw [pending_take, length_drop]
    omega
  obtain ⟨hroom, hspare, hhead, hfree, hholds⟩ := h
  refine ⟨?_, fun hs => ?_, hhead, hfree, hholds⟩
  · show _ ≤ s.pipe.length.toNat
    omega
  · have := hspare hs
    show _ ≤ s.pipe.length.toNat
    omega

theorem Pc.Knows.take (h : pc.Knows s) (n : U64) : pc.Knows (s.take n) := by
  cases pc with
  | notifying c todo head => exact ⟨h.1, h.2.1, h.2.2.take n⟩
  | writing c todo head => exact Writing.take h n
  | _ => exact h

section
variable [DecidableEq τ]

/-- Every step of a thread keeps the invariant. -/
theorem run_inv (h : Inv s) (hrun : run s t = some s') : Inv s' := by
  have hk := h.knows t
  unfold run at hrun
  cases hpc : s.calls t with
  | returned ret => simp [hpc] at hrun
  | enter c =>
    rw [hpc] at hk
    simp only [hpc, ite_none_right_eq_some, some.injEq] at hrun
    obtain ⟨hfree, rfl⟩ := hrun
    exact h.goto (fun _ => rfl) (fun t' _ hl => nomatch hfree.symm.trans hl) hk
  | entered c =>
    rw [hpc] at hk
    simp only [hpc, some.injEq] at hrun
    subst hrun
    refine h.stay hpc trivial ?_
    split
    · trivial
    · exact hk
  | check c =>
    rw [hpc] at hk
    replace hk : c.msg.length ≤ s.pipe.length.toNat := hk
    simp only [hpc] at hrun
    split at hrun
    · rename_i havail
      cases hrun
      refine h.stay hpc trivial ⟨hk, ?_⟩
      rw [lt_def, Call.tlen_toNat h.shared.wf.fits hk] at havail
      omega
    · rename_i havail
      cases hrun
      obtain ⟨hroom, hspare⟩ := message_room h.shared hk havail
      exact h.stay hpc trivial (writing_start h.shared hroom hspare)
  | stalled c =>
    rw [hpc] at hk
    simp only [hpc] at hrun
    split at hrun
    · cases hrun
      exact h.stay hpc trivial trivial
    split at hrun
    · cases hrun
      exact h.stay hpc trivial trivial
    split at hrun
    · cases hrun
      exact h.stay hpc trivial hk
    · rename_i hsent
      cases hrun
      have hspare := h.shared.spare (Bool.not_eq_true _ ▸ hsent)
      have hshared : Shared { s with sentReadNotify := true } :=
        ⟨h.shared.wf, h.shared.consumed, h.shared.used, h.shared.holds, h.shared.room, fun hs => nomatch hs⟩
      have hw : Writing { s with sentReadNotify := true } (readNotif ++ []) _ _ :=
        writing_start hshared hspare (fun hs => nomatch hs)
      refine h.owned hpc trivial rfl rfl rfl (hshared.congr rfl rfl rfl rfl) ?_
      exact ⟨hk, rfl, hw.congr rfl rfl rfl⟩
  | notifying c todo head =>
    rw [hpc] at hk
    obtain ⟨hlen, hsent, hw⟩ := hk
    cases todo with
    | nil =>
      simp only [hpc, some.injEq] at hrun
      subst hrun
      exact h.owned hpc trivial rfl rfl rfl ((publish_shared h.shared hw).congr rfl rfl rfl rfl) hlen
    | cons e todo =>
      simp only [hpc, some.injEq] at hrun
      subst hrun
      obtain ⟨hshared, hw'⟩ := store_shared h.shared hw
      exact h.owned hpc trivial rfl rfl rfl (hshared.congr rfl rfl rfl rfl)
        ⟨hlen, hsent, hw'.congr rfl rfl rfl⟩
  | release c =>
    rw [hpc] at hk
    simp only [hpc, some.injEq] at hrun
    subst hrun
    exact h.unlock hpc trivial id hk
  | waiting c =>
    rw [hpc] at hk
    simp only [hpc, ite_none_right_eq_some, some.injEq] at hrun
    obtain ⟨hfree, rfl⟩ := hrun
    exact h.goto (fun _ => rfl) (fun t' _ hl => nomatch hfree.symm.trans hl) hk
  | woken c =>
    rw [hpc] at hk
    obtain ⟨hlen, hpos⟩ := hk
    simp only [hpc, some.injEq] at hrun
    subst hrun
    refine h.owned hpc trivial rfl rfl rfl ?_ hlen
    refine ⟨h.shared.wf, h.shared.consumed, h.shared.used, h.shared.holds, h.shared.room, ?_⟩
    -- the flag is cleared only when there is room for a message that is not empty
    intro hs
    by_cases havail : c.tlen ≤ txAvail s.pipe
    · rw [le_def, txAvail_toNat h.shared.wf, Call.tlen_toNat h.shared.wf.fits hlen, ← h.shared.used] at havail
      show s.pending.length + 16 ≤ s.pipe.length.toNat
      omega
    · refine h.shared.spare ?_
      simpa [State.goto, havail] using hs
  | writing c todo head =>
    rw [hpc] at hk
    cases todo with
    | nil =>
      simp only [hpc, some.injEq] at hrun
      subst hrun
      exact h.owned hpc trivial rfl rfl rfl ((publish_shared h.shared hk).congr rfl rfl rfl rfl) trivial
    | cons e todo =>
      simp only [hpc, some.injEq] at hrun
      subst hrun
      obtain ⟨hshared, hw'⟩ := store_shared h.shared hk
      exact h.owned hpc trivial rfl rfl rfl (hshared.congr rfl rfl rfl rfl) (hw'.congr rfl rfl rfl)
  | leave ret =>
    simp only [hpc, some.injEq] at hrun
    subst hrun
    exact h.unlock hpc trivial id trivial

theorem step_inv {e : Event τ} (hstep : Step s e s') (h : Inv s) : Inv s' := by
  cases e with
  | call t c =>
    simp only [Step, step] at hstep
    split at hstep
    · rename_i ret hpc
      simp only [ite_none_right_eq_some, some.injEq] at hstep
      obtain ⟨hlen, rfl⟩ := hstep
      refine h.goto (fun hc => ?_) (fun _ _ hl => hl) ?_
      · split at hc <;> exact hc.elim
      · split
        · trivial
        · show c.msg.length ≤ _
          rwa [Call.msg, length_append]
    · cases hstep
  | run t => exact run_inv h hstep
  | read n =>
    simp only [Step, step, ite_none_right_eq_some, some.injEq] at hstep
    obtain ⟨⟨hmod, hle⟩, rfl⟩ := hstep
    rw [le_def, rxAvail_toNat h.shared.wf] at hle
    exact ⟨take_shared h.shared hmod hle, h.owner, fun t => (h.knows t).take n⟩
  | abort =>
    obtain rfl := some.inj hstep
    exact ⟨h.shared.congr rfl rfl rfl rfl, h.owner, fun t => (h.knows t).congr rfl rfl rfl⟩

end

theorem Shared.faithful (h : Shared s) : Faithful s where
  avail := (rxAvail_toNat h.wf).trans h.used.symm
  bytes := by
    intro buf offset count hn
    have hroom := h.room
    rw [rxPeek_eq h.wf buf (by omega), forall₂_iff_get]
    refine ⟨by simp; omega, ?_⟩
    intro i h₁ h₂ a ha
    simp only [get_eq_getElem, getElem_take, getElem_drop] at ha
    simp only [get_eq_getElem, getElem_map, getElem_range, add_assoc]
    refine h.holds _ a ?_
    rw [← ha]
    exact getElem?_eq_getElem _
  below := by
    have := h.room
    omega
  empty := by
    have ht := h.wf.tail_lt
    have hused := h.used
    rw [← length_eq_zero_iff, hused, Pipe.used]
    constructor
    · intro he
      rw [he]
      simp
    · intro hz
      split at hz <;> bv_omega

/-- For every FIFO length that is a multiple of 8, is at least 16 and does not let an index wrap,
and for every interleaving of transmissions with the reader: in every state the reader sees exactly
the frames that were written and not consumed, in order, and never a full FIFO as an empty one. -/
theorem tx_fifo_faithful [DecidableEq τ] (length : U64) (hal : length.toNat % 8 = 0)
    (hmin : 16 ≤ length.toNat) (hmax : length.toNat ≤ 2 ^ 31) (fifo : Nat → U8)
    {run : List (Event τ × State τ)} (hrun : Lts.Path Step (init length fifo) run) :
    ∀ u ∈ init length fifo :: run.map snd, Faithful u := by
  intro u hu
  have hinv := Lts.Path.invariant (fun s e t hstep hs => step_inv hstep hs) hrun
    (init_inv length ⟨hal, hmin, hmax⟩ fifo) u hu
  exact hinv.shared.faithful

/-- A message of 12 bytes fills the FIFO up to its reserves, so a second sender asks to be
notified; the reader takes the first message. -/
def twoSenders : List (Event Bool) :=
  [.call true ⟨[9, 0, 1, 0, 7, 0, 0, 0], [1, 2, 3, 4], true⟩] ++ replicate 17 (.run true) ++
  [.call false ⟨[13, 0, 0, 0, 0, 0, 0, 0], [], true⟩] ++ replicate 14 (.run false) ++ [.read 16]

theorem twoSenders_faithful : ∃ run, Lts.Path Step (init 32 (fun _ => 0) : State Bool) run ∧
    (final (init 32 (fun _ => 0)) run).pending = frame readNotif ∧
    ∀ u ∈ init 32 (fun _ => 0) :: run.map snd, Faithful u := by
  have hval : (exec step (init 32 (fun _ => 0)) twoSenders).map State.pending =
      some (frame readNotif) := by decide +kernel
  obtain ⟨u, hexec, hpend⟩ := Option.map_eq_some_iff.mp hval
  obtain ⟨run, hrun, hfinal⟩ := path_of_exec hexec
  exact ⟨run, hrun, hfinal ▸ hpend, tx_fifo_faithful 32 (by decide) (by decide) (by decide) (fun _ => 0) hrun⟩

/-- In a FIFO of 8 bytes the read-notify request alone fills the ring: the head is back at the tail
with 8 bytes pending. -/
theorem eight_byte_fifo_confused : ∃ run, Lts.Path Step (init 8 (fun _ => 0) : State Unit) run ∧
    ¬ Faithful (final (init 8 (fun _ => 0)) run) := by
  have hval : (exec step (init 8 (fun _ => 0))
      (.call () ⟨[1], [], true⟩ :: replicate 13 (.run ()))).map
        (fun u => (u.pipe.head, u.pipe.tail, u.pending.length)) = some (0, 0, 8) := by
    decide +kernel
  obtain ⟨u, hexec, hu⟩ := Option.map_eq_some_iff.mp hval
  obtain ⟨run, hrun, hfinal⟩ := path_of_exec hexec
  refine ⟨run, hrun, fun hf => ?_⟩
  rw [hfinal] at hf
  obtain ⟨hhead, htail, hlen⟩ := by simpa only [mk.injEq] using hu
  have hnil := hf.empty.mp (hhead.trans htail.symm)
  rw [hnil] at hlen
  cases hlen

end Sm8850.Glink.Tx
