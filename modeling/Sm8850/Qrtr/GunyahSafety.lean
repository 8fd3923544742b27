import Sm8850.Lib.Path
import Sm8850.Qrtr.Gunyah

/-! Every access of the transport to the FIFO and to its reassembly buffer, against a peer that
stores any word at any time: each load of a shared word is an argument of the step it is made in. -/
namespace Sm8850.Qrtr.Gunyah
open Lts List

variable {head tail : U32} {count n : Nat} {c : Copy}

/-! ### Accesses -/

inductive Access where
  | fifo (off len : Nat)
  | buf (off len : Nat)
  deriving DecidableEq

/-- The access lies in the FIFO, or in the reassembly buffer. -/
def Access.Inside : Access → Prop
  | .fifo off len => off + len ≤ fifoSize
  | .buf off len => off + len ≤ maxPktSz

/-- The accesses of copies between the FIFO and the reassembly buffer from `base` on. -/
def toBuf (base : Nat) (cs : List Copy) : List Access :=
  cs.flatMap fun c => [.fifo c.fifo c.len, .buf (base + c.data) c.len]

def toFifo (cs : List Copy) : List Access := cs.map fun c => .fifo c.fifo c.len

/-- `struct gunyah_ring`, without the buffer itself. -/
structure Ring where
  len : Nat
  offset : Nat

/-- The driver: what `qrtr_gunyah_send` has left to send, and the packet that is being put together. -/
structure Driver where
  left : Nat
  ring : Ring

/-- One round of a loop, with the words it loads, in the order it loads them. -/
inductive Round where
  /-- `qrtr_gunyah_send` is called. -/
  | send (len : Nat)
  /-- A round of it: `gunyah_tx_avail`, then `gunyah_tx_write` or `gunyah_sg_write`. -/
  | chunk (head₁ tail₁ head₂ : U32)
  /-- `qrtr_gunyah_read_new`: the peek at the header, `gunyah_rx_avail`, the peek at the packet. -/
  | readNew (tail₁ : U32) (hdr : Nat → UInt8) (head₂ tail₂ tail₃ : U32)
  /-- `qrtr_gunyah_read_frag`. -/
  | readFrag (head₁ tail₁ tail₂ : U32)

/-- The bytes that a round of `qrtr_gunyah_send` writes. -/
def chunkSize (left : Nat) (head tail : U32) : Nat := min (txAvail head tail) left

/-- The packet at the tail is one the driver takes. -/
def sizeOk (hdr : Nat → UInt8) : Bool := 0 ≤ peekPktSize hdr && peekPktSize hdr ≤ maxPktSz

/-- What `qrtr_gunyah_read_new` reads of a packet. -/
def newSize (hdr : Nat → UInt8) (head tail : U32) : Nat := min (rxAvail head tail) (peekPktSize hdr).toNat

/-- What `qrtr_gunyah_read_frag` reads of it. -/
def fragSize (ring : Ring) (head tail : U32) : Nat :=
  if ring.len < rxAvail head tail + ring.offset then ring.len - ring.offset else rxAvail head tail

/-- The accesses of a round. A packet that is complete is read by `qrtr_endpoint_post`. -/
def Driver.accesses (d : Driver) : Round → List Access
  | .send _ => []
  | .chunk head₁ tail₁ head₂ => toFifo ((txWrite head₂ (chunkSize d.left head₁ tail₁)).getD [])
  | .readNew tail₁ hdr head₂ tail₂ tail₃ =>
    toFifo (rxPeak tail₁ 0 32) ++
      if sizeOk hdr then
        toBuf 0 (rxPeak tail₃ 0 (newSize hdr head₂ tail₂)) ++
          if newSize hdr head₂ tail₂ = (peekPktSize hdr).toNat then [.buf 0 (peekPktSize hdr).toNat] else []
      else []
  | .readFrag head₁ tail₁ tail₂ =>
    toBuf d.ring.offset (rxPeak tail₂ 0 (fragSize d.ring head₁ tail₁)) ++
      if fragSize d.ring head₁ tail₁ + d.ring.offset = d.ring.len then [.buf 0 d.ring.len] else []

/-- The driver after a round. -/
def Driver.next (d : Driver) : Round → Driver
  | .send len => { d with left := len }
  | .chunk head₁ tail₁ _ => { d with left := d.left - chunkSize d.left head₁ tail₁ }
  | .readNew _ hdr head₂ tail₂ _ =>
    if sizeOk hdr && newSize hdr head₂ tail₂ != (peekPktSize hdr).toNat then
      { d with ring := ⟨(peekPktSize hdr).toNat, newSize hdr head₂ tail₂⟩ }
    else d
  | .readFrag head₁ tail₁ _ =>
    if fragSize d.ring head₁ tail₁ + d.ring.offset = d.ring.len then { d with ring := ⟨0, 0⟩ }
    else { d with ring := ⟨d.ring.len, d.ring.offset + fragSize d.ring head₁ tail₁⟩ }

/-- The rounds that can be next: the loops send what is left, and go on with a packet in parts. -/
def Driver.enabled (d : Driver) : Round → Prop
  | .send _ => d.left = 0
  | .chunk head₁ tail₁ _ => 0 < d.left ∧ txAvail head₁ tail₁ ≠ 0
  | .readNew .. => d.ring.offset = 0
  | .readFrag .. => d.ring.offset ≠ 0

def Step (d : Driver) (r : Round) (d' : Driver) : Prop := d.enabled r ∧ d' = d.next r

def Safe (d : Driver) (r : Round) (_ : Driver) : Prop := ∀ a ∈ d.accesses r, a.Inside

/-! ### Bounds of the helpers -/

theorem rxAvail_le (head tail : U32) : rxAvail head tail ≤ fifoSize := by
  have hcut : ∀ len : U64, (if BitVec.ofNat 64 fifoSize < len then 0 else len.toNat) ≤ fifoSize := by
    intro len
    split
    · exact Nat.zero_le _
    · rename_i h
      exact BitVec.not_lt.mp h
  exact hcut _

variable {pos : Nat} {cs : List Copy} {d d' : Driver} {r : Round}

theorem mem_copies (h : c ∈ copies pos count) : c = ⟨pos, 0, min count (fifoSize - pos)⟩ ∨
      c = ⟨0, min count (fifoSize - pos), count - min count (fifoSize - pos)⟩ ∧ fifoSize - pos < count := by
  unfold copies at h
  dsimp only at h
  rcases mem_append.mp h with h | h
  · split at h
    · exact .inl (mem_singleton.mp h)
    · cases h
  · split at h
    · exact .inr ⟨mem_singleton.mp h, by omega⟩
    · cases h

/-- The second copy starts at the start of the FIFO, and is the one that can be too long. -/
theorem copies_inside_iff (hpos : pos ≤ fifoSize) :
    (∀ c ∈ copies pos count, c.fifo + c.len ≤ fifoSize) ↔ count ≤ 2 * fifoSize - pos := by
  constructor
  · intro h
    by_contra hlt
    have hne : min count (fifoSize - pos) ≠ count := by omega
    have hmem : (⟨0, min count (fifoSize - pos), count - min count (fifoSize - pos)⟩ : Copy) ∈ copies pos count :=
      mem_append_right _ (by rw [if_pos hne]; exact mem_singleton_self _)
    have hlen := h _ hmem
    dsimp only at hlen
    omega
  · intro h c hc
    rcases mem_copies hc with rfl | ⟨rfl, _⟩
    · dsimp only
      omega
    · dsimp only
      omega

theorem copies_data_le (h : c ∈ copies pos count) : c.data + c.len ≤ count := by
  rcases mem_copies h with rfl | ⟨rfl, _⟩
  · dsimp only
    omega
  · dsimp only
    omega

theorem rxPeak_inside (hcount : count ≤ fifoSize) (h : c ∈ rxPeak tail 0 count) :
    c.fifo + c.len ≤ fifoSize ∧ c.data + c.len ≤ count := by
  have hcut : ∀ pos, c ∈ (if fifoSize < pos then [] else copies pos count) →
      c.fifo + c.len ≤ fifoSize ∧ c.data + c.len ≤ count := by
    intro pos h
    split at h
    · cases h
    · rename_i hpos
      exact ⟨(copies_inside_iff (Nat.le_of_not_lt hpos)).mpr (by omega) c h, copies_data_le h⟩
  exact hcut _ h

theorem toBuf_inside {base : Nat} (h : ∀ c ∈ cs, c.fifo + c.len ≤ fifoSize)
    (hbuf : ∀ c ∈ cs, base + (c.data + c.len) ≤ maxPktSz) : ∀ a ∈ toBuf base cs, a.Inside := by
  intro a ha
  obtain ⟨c, hc, ha⟩ := mem_flatMap.mp ha
  rcases mem_cons.mp ha with rfl | ha
  · exact h c hc
  · obtain rfl := mem_singleton.mp ha
    have := hbuf c hc
    change base + c.data + c.len ≤ maxPktSz
    omega

theorem toFifo_inside_iff : (∀ a ∈ toFifo cs, a.Inside) ↔ ∀ c ∈ cs, c.fifo + c.len ≤ fifoSize := by
  simp [toFifo, Access.Inside]

/-! ### The packet that is being put together -/

/-- It fits the buffer, and what is there of it is a part of it. -/
structure RingOk (ring : Ring) : Prop where
  len : ring.offset ≠ 0 → ring.len ≤ maxPktSz
  part : ring.offset ≠ 0 → ring.offset ≤ ring.len

theorem sizeOk_iff {hdr : Nat → UInt8} (h : sizeOk hdr) : (peekPktSize hdr).toNat ≤ maxPktSz := by
  simp only [sizeOk, Bool.and_eq_true, decide_eq_true_eq] at h
  omega

theorem fragSize_le {ring : Ring} : fragSize ring head tail ≤ fifoSize := by
  have := rxAvail_le head tail
  unfold fragSize
  split
  · omega
  · exact this

theorem fragSize_add_le (ring : Ring) (head tail : U32) (h : ring.offset ≤ ring.len) : fragSize ring head tail + ring.offset ≤ ring.len := by
  unfold fragSize
  split
  · omega
  · omega

theorem step_ringOk (h : Step d r d') (hd : RingOk d.ring) : RingOk d'.ring := by
  obtain ⟨hen, rfl⟩ := h
  cases r with
  | send len => exact hd
  | chunk head₁ tail₁ head₂ => exact hd
  | readNew tail₁ hdr head₂ tail₂ tail₃ =>
    unfold Driver.next
    dsimp only
    split
    · rename_i hok
      have hsize := sizeOk_iff (Bool.and_eq_true _ _ ▸ hok).1
      exact ⟨fun _ => hsize, fun _ => min_le_right _ _⟩
    · exact hd
  | readFrag head₁ tail₁ tail₂ =>
    unfold Driver.next
    dsimp only
    split
    · exact ⟨fun h => absurd rfl h, fun h => absurd rfl h⟩
    · refine ⟨fun _ => hd.len hen, fun _ => ?_⟩
      have := fragSize_add_le d.ring head₁ tail₁ (hd.part hen)
      dsimp only
      omega

/-! ### Safety -/

/-- The condition on a round: where the peer has put the tail beyond the head, either the bytes left
or the bytes up to that tail are few enough for the rest of the FIFO and one round through it. -/
def PeerOk (d : Driver) : Round → Prop
  | .chunk head₁ tail₁ head₂ => fifoSize < head₂.toNat ∨ tail₁.toNat ≤ head₁.toNat ∨
      d.left ≤ 2 * fifoSize - head₂.toNat ∨ tail₁.toNat - head₁.toNat ≤ 2 * fifoSize - head₂.toNat + 8
  | _ => True

theorem txAvail_of_le (hle : tail.toNat ≤ head.toNat) : txAvail head tail ≤ fifoSize := by
  unfold txAvail
  rw [if_pos (BitVec.le_def.mpr hle)]
  dsimp only
  by_cases hhead : fifoSize < head.toNat
  · rw [if_pos hhead]
    exact Nat.zero_le _
  · rw [if_neg hhead]
    have havail : (BitVec.ofNat 32 fifoSize - head + tail).toNat ≤ fifoSize := by
      unfold fifoSize at *
      bv_omega
    split
    · exact Nat.zero_le _
    · rename_i h8
      have : (BitVec.ofNat 32 fifoSize - head + tail - fullReserve).toNat ≤
          (BitVec.ofNat 32 fifoSize - head + tail).toNat := by
        unfold fullReserve at *
        bv_omega
      omega

theorem txAvail_of_lt (hlt : head.toNat < tail.toNat) (hne : txAvail head tail ≠ 0) :
    txAvail head tail = tail.toNat - head.toNat - 8 := by
  unfold txAvail at *
  rw [if_neg (fun h => absurd (BitVec.le_def.mp h) (by omega))] at *
  dsimp only at *
  by_cases hhead : fifoSize < head.toNat
  · rw [if_pos hhead] at hne
    exact absurd rfl hne
  · rw [if_neg hhead] at *
    split at hne
    · exact absurd rfl hne
    · rename_i h8
      rw [if_neg h8]
      unfold fullReserve at *
      bv_omega

/-- A round is safe exactly under the condition. -/
theorem safe_iff (h : Step d r d') (hd : RingOk d.ring) : Safe d r d' ↔ PeerOk d r := by
  obtain ⟨hen, -⟩ := h
  cases r with
  | send len => exact iff_of_true nofun trivial
  | chunk head₁ tail₁ head₂ =>
    have hchunk : chunkSize d.left head₁ tail₁ = min (txAvail head₁ tail₁) d.left := rfl
    change (∀ a ∈ toFifo _, a.Inside) ↔ _
    rw [toFifo_inside_iff, txWrite]
    by_cases hfar : fifoSize < head₂.toNat
    · rw [if_pos hfar]
      exact iff_of_true nofun (.inl hfar)
    · rw [if_neg hfar]
      change (∀ c ∈ copies _ _, _) ↔ _
      rw [copies_inside_iff (Nat.le_of_not_lt hfar)]
      unfold PeerOk
      by_cases hle : tail₁.toNat ≤ head₁.toNat
      · have := txAvail_of_le hle
        exact iff_of_true (by omega) (.inr (.inl hle))
      · have := txAvail_of_lt (Nat.lt_of_not_le hle) hen.2
        omega
  | readNew tail₁ hdr head₂ tail₂ tail₃ =>
    refine iff_of_true (fun a ha => ?_) trivial
    have hpeek : ∀ a ∈ toFifo (rxPeak tail₁ 0 32), a.Inside :=
      toFifo_inside_iff.mpr fun c hc => (rxPeak_inside (by decide) hc).1
    rcases mem_append.mp ha with ha | ha
    · exact hpeek a ha
    · split at ha
      · rename_i hok
        have hsize := sizeOk_iff hok
        have hnew : newSize hdr head₂ tail₂ ≤ fifoSize := (min_le_left _ _).trans (rxAvail_le _ _)
        have hpart : newSize hdr head₂ tail₂ ≤ (peekPktSize hdr).toNat := min_le_right _ _
        rcases mem_append.mp ha with ha | ha
        · refine toBuf_inside (fun c hc => (rxPeak_inside hnew hc).1) (fun c hc => ?_) a ha
          have := (rxPeak_inside hnew hc).2
          omega
        · split at ha
          · obtain rfl := mem_singleton.mp ha
            change 0 + _ ≤ maxPktSz
            omega
          · cases ha
      · cases ha
  | readFrag head₁ tail₁ tail₂ =>
    refine iff_of_true (fun a ha => ?_) trivial
    have hlen := hd.len hen
    have hpart := fragSize_add_le d.ring head₁ tail₁ (hd.part hen)
    rcases mem_append.mp ha with ha | ha
    · refine toBuf_inside (fun c hc => (rxPeak_inside fragSize_le hc).1) (fun c hc => ?_) a ha
      have := (rxPeak_inside fragSize_le hc).2
      omega
    · split at ha
      · obtain rfl := mem_singleton.mp ha
        change 0 + d.ring.len ≤ maxPktSz
        omega
      · cases ha

/-- Every access of a run is inside its area exactly if every round of `qrtr_gunyah_send` meets the
condition. -/
theorem gunyah_inside_iff {left : Nat} {run : List (Round × Driver)} (hrun : Path Step ⟨left, ⟨0, 0⟩⟩ run) :
    Path Safe ⟨left, ⟨0, 0⟩⟩ run ↔ Steps PeerOk ⟨left, ⟨0, 0⟩⟩ run :=
  hrun.good_iff_steps (I := fun d => RingOk d.ring) (fun _ _ _ h hd _ => step_ringOk h hd) (fun _ _ _ h hd => safe_iff h hd)
    ⟨fun h => absurd rfl h, fun h => absurd rfl h⟩

/-- A packet of 100 bytes around the end of the FIFO, the tail behind the head. -/
theorem gunyah_inside_short :
    Path Safe ⟨0, ⟨0, 0⟩⟩ [(.send 100, ⟨100, ⟨0, 0⟩⟩), (.chunk 0x3ff0 0x3000 0x3ff0, ⟨0, ⟨0, 0⟩⟩)] := by
  have hrun : Path Step ⟨0, ⟨0, 0⟩⟩ [(.send 100, ⟨100, ⟨0, 0⟩⟩), (.chunk 0x3ff0 0x3000 0x3ff0, ⟨0, ⟨0, 0⟩⟩)] :=
    ⟨⟨rfl, rfl⟩, ⟨⟨by decide, by decide⟩, rfl⟩, trivial⟩
  exact (gunyah_inside_iff hrun).mpr ⟨trivial, .inr (.inl (by decide)), trivial⟩

/-- A packet of 64K is sent to a peer that has stored 0xffffffff as its tail. -/
theorem gunyah_overruns : ∃ run, Path Step ⟨0, ⟨0, 0⟩⟩ run ∧ ¬ Path Safe ⟨0, ⟨0, 0⟩⟩ run := by
  refine ⟨[(.send 0x10000, ⟨0x10000, ⟨0, 0⟩⟩), (.chunk 0 0xffffffff 0, ⟨0, ⟨0, 0⟩⟩)],
    ⟨⟨rfl, rfl⟩, ⟨⟨by decide, by decide⟩, rfl⟩, trivial⟩, ?_⟩
  rintro ⟨-, hsafe, -⟩
  have hin := hsafe (.fifo 0 0xc000) (by decide)
  exact absurd hin (by unfold Access.Inside; decide)

end Sm8850.Qrtr.Gunyah
