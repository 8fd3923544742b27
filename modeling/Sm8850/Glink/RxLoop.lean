import Sm8850.Glink.Receive

/-! When the receive loop returns: which iterations make progress on the FIFO, and which do not. -/
namespace Sm8850.Glink.Rx
open BitVec Nat

variable {p : Pipe} {e : Env} {g g' : Edge} {l l' : Loop} {n : U64}

/-- Both indices are positions of a FIFO whose size is a 32-bit number. -/
structure Inside (p : Pipe) : Prop where
  small : p.length.toNat < 2 ^ 32
  head_lt : p.head.toNat < p.length.toNat
  tail_lt : p.tail.toNat < p.length.toNat

theorem rxAvail_inside (h : Inside p) : (rxAvail p).toNat = p.used := by
  have hh := h.head_lt
  have ht := h.tail_lt
  unfold rxAvail Pipe.used
  simp only [lt_def]
  split <;> split <;> bv_omega

/-- How far the tail is from the head, counted so that passing the end of the FIFO counts as
progress whatever the index becomes. -/
def rank (p : Pipe) : Nat :=
  if p.tail.toNat ≤ p.head.toNat then p.head.toNat - p.tail.toNat
  else 2 ^ 33 - p.tail.toNat

theorem rxAdvance_inside (h : Inside p) (n : U64) : Inside (rxAdvance p n) := by
  have hs := h.small
  have ht := h.tail_lt
  refine ⟨hs, h.head_lt, ?_⟩
  unfold rxAdvance
  dsimp only
  split
  · rw [toNat_setWidth, toNat_umod]
    have hlt : ((p.tail + n.setWidth 32).setWidth 64).toNat % p.length.toNat < p.length.toNat :=
      mod_lt _ (by omega)
    rw [mod_eq_of_lt (by omega)]
    exact hlt
  · bv_omega

theorem rxAdvance_tail_toNat (h : Inside p) (n : U64) :
    (rxAdvance p n).tail.toNat = if p.length.toNat ≤ (p.tail.toNat + n.toNat) % 2 ^ 32
      then (p.tail.toNat + n.toNat) % 2 ^ 32 % p.length.toNat else (p.tail.toNat + n.toNat) % 2 ^ 32 := by
  have ht := h.tail_lt
  have hsum : (p.tail + n.setWidth 32).toNat = (p.tail.toNat + n.toNat) % 2 ^ 32 := by
    bv_omega
  have hwide : ((p.tail + n.setWidth 32).setWidth 64).toNat = (p.tail.toNat + n.toNat) % 2 ^ 32 := by bv_omega
  unfold rxAdvance
  simp only [le_def, hwide]
  split
  · rw [toNat_setWidth, toNat_umod, hwide]
    have hlt : (p.tail.toNat + n.toNat) % 2 ^ 32 % p.length.toNat < p.length.toNat :=
      mod_lt _ (by omega)
    exact mod_eq_of_lt (by omega)
  · exact hsum

/-- The edge after its tail has moved within the data present, by a multiple of the alignment. -/
def Advances (g g' : Edge) : Prop :=
  ∃ n : U64, 0 < n.toNat ∧ n.toNat % 8 = 0 ∧ n.toNat ≤ g.rxPipe.used ∧
    g'.rxPipe = rxAdvance g.rxPipe n

@[simp] theorem setIntent_rxPipe (a : Nat) (f : Intent → Intent) : (g.setIntent a f).rxPipe = g.rxPipe := rfl

@[simp] theorem advance_rxPipe (n : U64) : (g.advance n).rxPipe = rxAdvance g.rxPipe n := rfl

theorem align8_toNat {x : U64} (hx : x.toNat + 7 < 2 ^ 64) : (align8 x).toNat = (x.toNat + 7) / 8 * 8 := by
  have hsum : (x + 7).toNat = x.toNat + 7 := by bv_omega
  rw [← hsum]
  exact Words.toNat_and_not_mask (x + 7) 3

/-- The first message of the FIFO. -/
def Edge.front (g : Edge) : List U8 := g.peek 0 8

/-- An INTENT message at the front of which not all intents are there, or for whose copy there
is no memory: the handler returns without advancing and without an error. -/
def Stalled (e : Env) (g : Edge) : Prop :=
  8 ≤ (rxAvail g.rxPipe).toNat ∧ (le16 g.front 0).toNat = 5 ∧
    (rxAvail g.rxPipe < intentMsglen (le32 g.front 4) ∨
      (g.rcids ((le16 g.front 2).setWidth 32)).isSome = true ∧ e.alloc 0 = false)

/-- A data message at the front that is there, but not the padding behind it: the handler
advances past the head. -/
def Overruns (g : Edge) : Prop :=
  ((le16 g.front 0).toNat = 9 ∨ (le16 g.front 0).toNat = 12) ∧
    rxDataHdr + (le32 (g.peek 0 16) 8).setWidth 64 ≤ rxAvail g.rxPipe ∧
    rxAvail g.rxPipe < align8 (rxDataHdr + (le32 (g.peek 0 16) 8).setWidth 64)

theorem advances_of_le (h : Inside g.rxPipe) {n : U64} (hpos : 0 < n.toNat)
    (hmod : n.toNat % 8 = 0) (hle : n ≤ rxAvail g.rxPipe) (hpipe : g'.rxPipe = rxAdvance g.rxPipe n) : Advances g g' := by
  refine ⟨n, hpos, hmod, ?_, hpipe⟩
  rwa [← rxAvail_inside h, ← le_def]

theorem rxDefer_advances (h : Inside g.rxPipe) {extra : U64} (hx : extra.toNat < 2 ^ 32) :
    (rxDefer e g extra).2 ≠ 0 ∨ Advances g (rxDefer e g extra).1 := by
  have ha := align8_toNat (show extra.toNat + 7 < 2 ^ 64 by omega)
  unfold rxDefer
  dsimp only
  split
  · exact .inl (show - ENXIO ≠ 0 by decide)
  split
  · exact .inl (show -ENOMEM ≠ 0 by decide)
  · rename_i hav _
    have hlen : (sizeofMsg + align8 extra).toNat = 8 + (extra.toNat + 7) / 8 * 8 := by
      unfold sizeofMsg
      bv_omega
    exact .inr (advances_of_le h (by omega) (by omega) (BitVec.not_lt.mp hav) rfl)

/-- A handler that advances past the header of a message that is there. -/
theorem advances_msg (h : Inside g.rxPipe) (hav : 8 ≤ (rxAvail g.rxPipe).toNat)
    (hpipe : g'.rxPipe = rxAdvance g.rxPipe 8) : Advances g g' :=
  advances_of_le h (show 0 < (8 : U64).toNat by decide) (by decide) (le_def.mpr hav) hpipe

theorem rxOpenAck_pipe (lcid : U32) : (rxOpenAck g lcid).1.rxPipe = rxAdvance g.rxPipe 8 := by
  unfold rxOpenAck
  dsimp only
  split <;> rfl

theorem handleRxDone_pipe (cid iid : U32) (reuse : Bool) :
    (handleRxDone g cid iid reuse).rxPipe = rxAdvance g.rxPipe 8 := by
  unfold handleRxDone
  dsimp only
  split
  · rfl
  · split <;> rfl

theorem handleIntentReqAck_pipe (cid : U32) (granted : Bool) :
    (handleIntentReqAck g cid granted).rxPipe = rxAdvance g.rxPipe 8 := by
  unfold handleIntentReqAck
  dsimp only
  split <;> rfl

theorem handleSignals_pipe (rcid signals : U32) : (handleSignals g rcid signals).1.rxPipe = rxAdvance g.rxPipe 8 := by
  unfold handleSignals
  dsimp only
  split <;> rfl

theorem rxDone_pipe (ch a : Nat) : (rxDone e g ch a).1.rxPipe = g.rxPipe := by
  unfold rxDone sendRxDone
  dsimp only
  split
  · rfl
  · split <;> split <;> (try split) <;> rfl

theorem callCb_pipe (ch a : Nat) : (callCb e g ch a).1.rxPipe = g.rxPipe := by
  unfold callCb
  split <;> rfl

theorem rxDataHandler_pipe (ch a : Nat) (iters : U32) : (rxDataHandler e g ch a iters).rxPipe = g.rxPipe := by
  unfold rxDataHandler
  dsimp only
  split
  · have hdefer : (if g.intentless then g else g.setChannel ch
        (fun c => { c with deferIntents := c.deferIntents ++ [a] })).rxPipe = g.rxPipe := by
      split <;> rfl
    generalize (if g.intentless then g else g.setChannel ch
        (fun c => { c with deferIntents := c.deferIntents ++ [a] })) = g₁ at hdefer ⊢
    have hcb := (callCb_pipe (e := e) (g := g₁) ch a).trans hdefer
    split
    · exact hcb
    · split
      · exact (rxDone_pipe ch a).trans hcb
      · exact (rxDone_pipe ch a).trans hcb
  · rfl

theorem findIntent_pipe (ch : Nat) (liid chunkSize leftSize : U32) :
    (findIntent e g ch liid chunkSize leftSize).1.rxPipe = g.rxPipe := by
  unfold findIntent
  split
  · split
    · rfl
    · split
      · rfl
      · split <;> rfl
  · split <;> rfl

theorem findIntent_fail {ch : Nat} {liid chunkSize leftSize : U32} {ret : Int}
    (hf : findIntent e g ch liid chunkSize leftSize = (g', .fail ret)) : ret ≠ 0 := by
  unfold findIntent at hf
  split at hf
  · split at hf
    · cases hf
    · split at hf
      · cases hf
        decide
      · split at hf
        · cases hf
          decide
        · cases hf
  · split at hf <;> cases hf

/-- A data message is refused, or is all there and the tail moves past it and its padding. -/
theorem rxData_pipe (avail : U64) (iters : U32) : (rxData e g avail iters).2 ≠ 0 ∨
    (rxDataHdr + (le32 (g.peek 0 16) 8).setWidth 64 ≤ avail ∧ (rxData e g avail iters).1.rxPipe =
      rxAdvance g.rxPipe (align8 (rxDataHdr + (le32 (g.peek 0 16) 8).setWidth 64))) := by
  unfold rxData
  split
  · exact .inl (show -EAGAIN ≠ 0 by decide)
  dsimp only
  split
  · exact .inl (show -EAGAIN ≠ 0 by decide)
  rename_i hav
  replace hav := BitVec.not_lt.mp hav
  split
  · exact .inr ⟨hav, rfl⟩
  · rename_i ch _
    have hfound := findIntent_pipe (e := e) (g := g) ch (le32 (g.peek 0 16) 4)
      (le32 (g.peek 0 16) 8) (le32 (g.peek 0 16) 12)
    split
    · rename_i ret hf
      exact .inl (findIntent_fail hf)
    · rename_i g₁ ret hf
      rw [hf] at hfound
      exact .inr ⟨hav, by rw [advance_rxPipe, hfound]⟩
    · rename_i g₁ a hf
      rw [hf] at hfound
      split
      · exact .inr ⟨hav, by rw [advance_rxPipe, hfound]⟩
      · refine .inr ⟨hav, ?_⟩
        rw [advance_rxPipe]
        split
        · rw [rxDataHandler_pipe, setIntent_rxPipe, hfound]
        · rw [setIntent_rxPipe, hfound]

/-- The bytes of the FIFO that a data message takes. -/
theorem dataLen_toNat : (rxDataHdr + (le32 (g.peek 0 16) 8).setWidth 64).toNat = 16 + (le32 (g.peek 0 16) 8).toNat ∧
    (align8 (rxDataHdr + (le32 (g.peek 0 16) 8).setWidth 64)).toNat =
      (16 + (le32 (g.peek 0 16) 8).toNat + 7) / 8 * 8 := by
  have hsum : (rxDataHdr + (le32 (g.peek 0 16) 8).setWidth 64).toNat =
      16 + (le32 (g.peek 0 16) 8).toNat := by
    unfold rxDataHdr
    bv_omega
  refine ⟨hsum, ?_⟩
  rw [align8_toNat (by omega), hsum]

theorem rxData_advances (h : Inside g.rxPipe) (iters : U32)
    (hpad : rxDataHdr + (le32 (g.peek 0 16) 8).setWidth 64 ≤ rxAvail g.rxPipe →
      align8 (rxDataHdr + (le32 (g.peek 0 16) 8).setWidth 64) ≤ rxAvail g.rxPipe) :
    (rxData e g (rxAvail g.rxPipe) iters).2 ≠ 0 ∨ Advances g (rxData e g (rxAvail g.rxPipe) iters).1 := by
  rcases rxData_pipe (e := e) (g := g) (rxAvail g.rxPipe) iters with hret | ⟨hle, hpipe⟩
  · exact .inl hret
  · have hlen := dataLen_toNat (g := g)
    exact .inr (advances_of_le h (by omega) (by omega) (hpad hle) hpipe)

theorem rxDataZeroCopy_advances (h : Inside g.rxPipe) : (rxDataZeroCopy e g (rxAvail g.rxPipe)).2 ≠ 0 ∨
      Advances g (rxDataZeroCopy e g (rxAvail g.rxPipe)).1 := by
  unfold rxDataZeroCopy
  split
  · exact .inl (show -EAGAIN ≠ 0 by decide)
  rename_i hav
  have hadv : ∀ g' : Edge, g'.rxPipe = g.rxPipe → Advances g (g'.advance (align8 24)) := by
    intro g' hp
    exact advances_of_le h (show 0 < (align8 24).toNat by decide) (by decide)
      (BitVec.not_lt.mp hav) (by rw [advance_rxPipe, hp])
  right
  dsimp only
  split
  · exact hadv g rfl
  split
  · exact hadv g rfl
  split
  · exact hadv g rfl
  split
  · exact hadv g rfl
  split
  · exact hadv g rfl
  · exact hadv _ rfl

theorem intentMsglen_toNat (count : U32) : (intentMsglen count).toNat = 8 + 8 * count.toNat := by
  unfold intentMsglen sizeofMsg
  bv_omega

/-- An INTENT message that is all there and can be copied, or has no channel, is passed. -/
theorem handleIntent_advances (h : Inside g.rxPipe) {cid count : U32} (hall : intentMsglen count ≤ rxAvail g.rxPipe)
    (hmem : (g.rcids cid).isSome → e.alloc 0) :
    Advances g (handleIntent e g cid count (rxAvail g.rxPipe)) := by
  have hlen := intentMsglen_toNat count
  have hal : align8 (intentMsglen count) = intentMsglen count := by
    apply eq_of_toNat_eq
    rw [align8_toNat (by omega)]
    omega
  have hadv : ∀ g' : Edge, g'.rxPipe = g.rxPipe → Advances g (g'.advance (align8 (intentMsglen count))) := by
    intro g' hp
    rw [hal]
    exact advances_of_le h (by omega) (by omega) hall (by rw [advance_rxPipe, hp])
  unfold handleIntent
  rw [if_neg (BitVec.not_lt.mpr hall)]
  split
  · exact hadv g rfl
  · rename_i ch hch
    rw [hmem (by rw [hch]; rfl)]
    exact hadv _ rfl

/-! One iteration. -/

theorem avail_inside (h : Inside g.rxPipe) : ((rxAvail g.rxPipe).setWidth 32).setWidth 64 = rxAvail g.rxPipe := by
  have hs := h.small
  have hav := rxAvail_inside h
  have hlt : g.rxPipe.used < g.rxPipe.length.toNat := by
    have := h.head_lt
    unfold Pipe.used
    split <;> omega
  bv_omega

/-- Inside the FIFO, what is peeked does not depend on what the buffer held. -/
theorem rxPeek_front (h : Inside g.rxPipe) (buf : List U8) : rxPeek g.rxPipe buf 0 8 = g.front := by
  have ht := h.tail_lt
  unfold Edge.front Edge.peek rxPeek
  rw [if_neg (by bv_omega), if_neg (by bv_omega)]

/-- An iteration that finds a message, with the FIFO's indices inside it. -/
theorem rxIteration_inside (h : Inside l.edge.rxPipe) (hav : 8 ≤ (rxAvail l.edge.rxPipe).toNat) :
    rxIteration e l = dispatch e { l with msg := l.edge.front } (rxAvail l.edge.rxPipe) := by
  unfold rxIteration
  dsimp only
  rw [avail_inside h, rxPeek_front h, if_neg (by unfold sizeofMsg; bv_omega)]

/-- Past a handler that returns no error, the loop goes on with the edge as it is left. -/
theorem handled_ok {r : Edge × Int} (hok : l.handled r = .ok l') : r.2 = 0 ∧ l'.edge = r.1 ∧ l'.retry = l.retry := by
  unfold Loop.handled at hok
  split at hok
  · cases hok
  · rename_i hret
    cases hok
    exact ⟨not_not.mp hret, rfl, rfl⟩

/-- What an iteration does that goes on without being stalled and without overrunning the data. -/
def Progress (l l' : Loop) : Prop :=
  (Advances l.edge l'.edge ∧ l'.retry = l.retry) ∨
    (l'.edge = l.edge ∧ l'.retry = l.retry + 1 ∧ l'.retry < 5)

theorem progress_of_handled {r : Edge × Int} {msg : List U8}
    (hok : Loop.handled { l with msg } r = .ok l') (hadv : r.2 ≠ 0 ∨ Advances l.edge r.1) : Progress l l' := by
  obtain ⟨hret, hedge, hretry⟩ := handled_ok hok
  rcases hadv with hadv | hadv
  · exact absurd hret hadv
  · exact .inl ⟨hedge ▸ hadv, hretry⟩

section
variable (h : Inside l.edge.rxPipe)
include h

theorem avail_of_ok (hok : rxIteration e l = .ok l') : 8 ≤ (rxAvail l.edge.rxPipe).toNat := by
  by_contra hlt
  unfold rxIteration at hok
  dsimp only at hok
  rw [avail_inside h, if_pos (by unfold sizeofMsg; bv_omega)] at hok
  cases hok

theorem rxIteration_progress (hst : ¬ Stalled e l.edge)
    (hov : ¬ Overruns l.edge) (hok : rxIteration e l = .ok l') : Progress l l' := by
  have hav := avail_of_ok h hok
  rw [rxIteration_inside h hav] at hok
  have hmsg : ∀ g' : Edge, g'.rxPipe = rxAdvance l.edge.rxPipe 8 → Advances l.edge g' :=
    fun g' hp => advances_msg h hav hp
  have hdata : ((le16 l.edge.front 0).toNat = 9 ∨ (le16 l.edge.front 0).toNat = 12) →
      (rxData e l.edge (rxAvail l.edge.rxPipe) l.iters).2 ≠ 0 ∨
        Advances l.edge (rxData e l.edge (rxAvail l.edge.rxPipe) l.iters).1 := by
    intro hcmd
    refine rxData_advances h l.iters fun hle => ?_
    by_contra hlt
    exact hov ⟨hcmd, hle, BitVec.not_le.mp hlt⟩
  unfold dispatch at hok
  split at hok
  iterate 5 exact progress_of_handled hok (rxDefer_advances h (by decide))
  · exact progress_of_handled hok (.inr (hmsg _ (rxOpenAck_pipe _)))
  · refine progress_of_handled hok (rxDefer_advances h ?_)
    bv_omega
  · exact progress_of_handled hok (hdata (.inl ‹_›))
  · exact progress_of_handled hok (hdata (.inr ‹_›))
  · exact progress_of_handled hok (rxDataZeroCopy_advances h)
  · exact progress_of_handled hok (.inr (hmsg _ rfl))
  · rename_i hcmd
    refine progress_of_handled hok (.inr (handleIntent_advances h ?_ ?_))
    · by_contra hlt
      exact hst ⟨hav, hcmd, .inl (BitVec.not_le.mp hlt)⟩
    · intro hch
      by_contra hmem
      exact hst ⟨hav, hcmd, .inr ⟨hch, Bool.not_eq_true _ ▸ hmem⟩⟩
  · exact progress_of_handled hok (.inr (hmsg _ (handleRxDone_pipe _ _ _)))
  · exact progress_of_handled hok (.inr (hmsg _ (handleRxDone_pipe _ _ _)))
  · exact progress_of_handled hok (.inr (hmsg _ (handleIntentReqAck_pipe _ _)))
  · exact progress_of_handled hok (.inr (hmsg _ (handleSignals_pipe _ _)))
  · split at hok
    · cases hok
      exact .inr ⟨rfl, rfl, ‹_›⟩
    · cases hok

/-- A stalled iteration changes nothing but the count of iterations. -/
theorem rxIteration_stalled (hst : Stalled e l.edge) :
    ∃ l', rxIteration e l = .ok l' ∧ (l'.edge, l'.retry) = (l.edge, l.retry) := by
  obtain ⟨hav, hcmd, hwhy⟩ := hst
  have hsame : handleIntent e l.edge ((le16 l.edge.front 2).setWidth 32) (le32 l.edge.front 4)
      (rxAvail l.edge.rxPipe) = l.edge := by
    unfold handleIntent
    dsimp only
    split
    · rfl
    · rename_i hall
      rcases hwhy with hlt | ⟨hch, hmem⟩
      · exact absurd hlt hall
      · obtain ⟨ch, hch⟩ := Option.isSome_iff_exists.mp hch
        rw [hch, hmem]
        rfl
  rw [rxIteration_inside h hav, dispatch]
  rw [hcmd, hsame]
  exact ⟨_, rfl, rfl⟩

/-- An iteration on a data message moves the tail past it, if it goes on. -/
theorem rxIteration_data (hcmd : (le16 l.edge.front 0).toNat = 9 ∨ (le16 l.edge.front 0).toNat = 12)
    (hok : rxIteration e l = .ok l') : ∃ n, l'.edge.rxPipe = rxAdvance l.edge.rxPipe n := by
  rw [rxIteration_inside h (avail_of_ok h hok), dispatch] at hok
  have hdata : Loop.handled { l with msg := l.edge.front }
      (rxData e l.edge (rxAvail l.edge.rxPipe) l.iters) = .ok l' := by
    rcases hcmd with hcmd | hcmd
    · simpa only [hcmd] using hok
    · simpa only [hcmd] using hok
  obtain ⟨hret, hedge, _⟩ := handled_ok hdata
  rcases rxData_pipe (e := e) (g := l.edge) (rxAvail l.edge.rxPipe) l.iters with hbad | ⟨_, hpipe⟩
  · exact absurd hret hbad
  · exact ⟨_, hedge ▸ hpipe⟩

theorem rxIteration_keeps_inside (hok : rxIteration e l = .ok l') : Inside l'.edge.rxPipe := by
  by_cases hst : Stalled e l.edge
  · obtain ⟨l'', hl, hsame⟩ := rxIteration_stalled h hst
    obtain rfl := Except.ok.inj (hl.symm.trans hok)
    rw [(Prod.mk.inj hsame).1]
    exact h
  by_cases hov : Overruns l.edge
  · obtain ⟨n, hpipe⟩ := rxIteration_data h hov.1 hok
    rw [hpipe]
    exact rxAdvance_inside h n
  · rcases rxIteration_progress h hst hov hok with ⟨⟨n, _, _, _, hpipe⟩, _⟩ | ⟨hsame, _⟩
    · rw [hpipe]
      exact rxAdvance_inside h n
    · rw [hsame]
      exact h

end

/-! A FIFO of which the remote writes whole aligned messages is never overrun. -/

structure Aligned (p : Pipe) : Prop where
  length : p.length.toNat % 8 = 0
  head : p.head.toNat % 8 = 0
  tail : p.tail.toNat % 8 = 0

theorem rxAdvance_aligned (h : Inside p) (ha : Aligned p) (hn : n.toNat % 8 = 0) : Aligned (rxAdvance p n) := by
  have hl := ha.length
  have ht := ha.tail
  refine ⟨hl, ha.head, ?_⟩
  rw [rxAdvance_tail_toNat h]
  split
  · rw [mod_mod_of_dvd _ (dvd_of_mod_eq_zero hl)]
    omega
  · omega

theorem Aligned.not_overruns (ha : Aligned g.rxPipe) (h : Inside g.rxPipe) : ¬ Overruns g := by
  rintro ⟨_, hle, hlt⟩
  obtain ⟨hlen, hpad⟩ := dataLen_toNat (g := g)
  have hl := ha.length
  have hh := ha.head
  have ht := ha.tail
  have hused : g.rxPipe.used % 8 = 0 := by
    unfold Pipe.used
    split <;> omega
  rw [le_def, rxAvail_inside h, hlen] at hle
  rw [lt_def, rxAvail_inside h, hpad] at hlt
  omega

section
variable {env : Nat → Env} {i : Nat}

theorem nativeRx_aligned (h : Inside g.rxPipe) (ha : Aligned g.rxPipe)
    (hl : nativeRx env g i = .ok l) : ¬ Overruns l.edge := by
  have hboth : Inside l.edge.rxPipe ∧ Aligned l.edge.rxPipe := by
    refine Rounds.before_invariant
      (I := fun l : Loop => Inside l.edge.rxPipe ∧ Aligned l.edge.rxPipe) ⟨h, ha⟩ ?_ hl
    rintro i l l' ⟨hin, hal⟩ hok
    refine ⟨rxIteration_keeps_inside hin hok, ?_⟩
    by_cases hst : Stalled (env i) l.edge
    · obtain ⟨l'', hl', hsame⟩ := rxIteration_stalled hin hst
      obtain rfl := Except.ok.inj (hl'.symm.trans hok)
      rw [(Prod.mk.inj hsame).1]
      exact hal
    · rcases rxIteration_progress hin hst (hal.not_overruns hin) hok with
        ⟨⟨n, _, hmod, _, hpipe⟩, _⟩ | ⟨hsame, _⟩
      · rw [hpipe]
        exact rxAdvance_aligned hin hal hmod
      · rw [hsame]
        exact hal
  exact hboth.2.not_overruns hboth.1

end

/-- An edge without channels whose FIFO of 64 bytes holds `msg`. -/
def received (msg : List U8) : Edge where
  rxPipe := ⟨64, fun i => msg.getD i 0, BitVec.ofNat 32 msg.length, 0⟩
  intentless := false
  zeroCopy := true
  lcids := fun _ => none
  rcids := fun _ => none
  channels := fun _ => ⟨0, fun _ => none, fun _ => none, [], [], none, false, false, false, false,
    false, 0, 0⟩
  intents := fun _ => Intent.zero
  nextIntent := 0
  rxQueue := []
  handed := []
  sent := []

def envOk : Env := ⟨fun _ => true, fun _ => true, 0, 0, fun _ _ => none⟩

/-- A READ_NOTIF and a command that is not known. -/
def notifThenUnknown : List U8 := [13, 0, 0, 0, 0, 0, 0, 0] ++ [99, 0, 0, 0, 0, 0, 0, 0]

theorem notifThenUnknown_aligned : ∃ l, nativeRx (fun _ => envOk) (received notifThenUnknown) 2 = .ok l ∧
    ¬ Overruns l.edge := by
  have hin : Inside (received notifThenUnknown).rxPipe := ⟨by decide, by decide, by decide⟩
  have hl : nativeRx (fun _ => envOk) (received notifThenUnknown) 2 = .ok _ := rfl
  exact ⟨_, hl, nativeRx_aligned hin ⟨rfl, rfl, rfl⟩ hl⟩

end Sm8850.Glink.Rx
