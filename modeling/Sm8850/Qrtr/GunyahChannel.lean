import Sm8850.Qrtr.GunyahSafety

/-! One direction of the transport between two honest sides: `qrtr_gunyah_send` cuts packets at
whatever is free, `qrtr_gunyah_read` puts them together again, and the copies of the two interleave
in any pieces. -/
namespace Sm8850.Qrtr.Gunyah
open Memory Stream Lts List Bool

/-! ### Packets -/

/-- A header of a known version that declares the length of the packet. -/
def validPkt (pkt : List UInt8) : Bool :=
  (leNat (peek (streamBuf pkt) 0 1) == protoVer1 || leNat (peek (streamBuf pkt) 0 1) == protoVer2) &&
    pkt.length == align (declaredSize (streamBuf pkt)) 4 + declaredHdrlen (streamBuf pkt) && pkt.length ≤ maxPktSz

/-- The bytes of a header that tell the length of its packet. -/
def sizeBytes (version : UInt8) : Nat := if version = 1 then 24 else 8

/-! ### The two sides -/

/-- A chunk that `gunyah_tx_write` is writing. -/
structure Writing where
  count : Nat
  left : List Copy

/-- A call of `qrtr_gunyah_send`. -/
structure Sending where
  pkt : List UInt8
  offset : Nat
  write : Option Writing

/-- Where `qrtr_gunyah_read` stands. -/
inductive Reader where
  | idle
  /-- In `qrtr_gunyah_read_new`, at the peek at the header. -/
  | new (hdr : Nat → UInt8) (left : List Copy)
  /-- At the start of `qrtr_gunyah_read_frag`. -/
  | frag
  /-- In either of them, at the copy of `n` bytes to the buffer from `base` on. -/
  | take (isNew : Bool) (pktLen base n : Nat) (left : List Copy)

/-- Both sides of a pipe, the packets that were sent and those that were posted. -/
structure Chan where
  fifo : Nat → UInt8
  head : U32
  tail : U32
  sending : Option Sending
  reader : Reader
  ring : Ring
  buf : Nat → UInt8
  sent : List (List UInt8)
  posted : List (List UInt8)

inductive Act where
  | send (pkt : List UInt8)
  | txBegin
  | txCopy (m : Nat)
  | txEnd
  | sendEnd
  | rxBegin (hdr : Nat → UInt8)
  | rxHdr (m : Nat)
  | rxSize
  | rxFrag
  | rxCopy (m : Nat)
  | rxEnd

/-- What is left of a list of copies when `m` bytes of the first one are done. -/
def restOf (m : Nat) (c : Copy) (cs : List Copy) : List Copy :=
  if m = c.len then cs else ⟨c.fifo + m, c.data + m, c.len - m⟩ :: cs

/-- One action of either side. A copy is made in pieces of any length. -/
def Chan.next (s : Chan) : Act → Option Chan
  | .send pkt =>
    match s.sending with
    | none => if validPkt pkt then some { s with sending := some ⟨pkt, 0, none⟩, sent := s.sent ++ [pkt] } else none
    | some _ => none
  | .txBegin =>
    match s.sending with
    | some ⟨pkt, offset, none⟩ =>
      let count := min (txAvail s.head s.tail) (pkt.length - offset)
      if count = 0 then none
      else some { s with sending := some ⟨pkt, offset, some ⟨count, (txWrite s.head count).getD []⟩⟩ }
    | _ => none
  | .txCopy m =>
    match s.sending with
    | some ⟨pkt, offset, some ⟨count, c :: cs⟩⟩ =>
      if 0 < m ∧ m ≤ c.len then
        some { s with
          fifo := poke s.fifo c.fifo ((pkt.drop (offset + c.data)).take m)
          sending := some ⟨pkt, offset, some ⟨count, restOf m c cs⟩⟩ }
      else none
    | _ => none
  | .txEnd =>
    match s.sending with
    | some ⟨pkt, offset, some ⟨count, []⟩⟩ =>
      some { s with
        head := if fifoSize < s.head.toNat then s.head else txHead s.head count
        sending := some ⟨pkt, offset + count, none⟩ }
    | _ => none
  | .sendEnd =>
    match s.sending with
    | some ⟨pkt, offset, none⟩ => if offset = pkt.length then some { s with sending := none } else none
    | _ => none
  | .rxBegin hdr =>
    match s.reader with
    | .idle =>
      if rxAvail s.head s.tail = 0 then none
      else some { s with reader := if s.ring.offset ≠ 0 then .frag else .new hdr (rxPeak s.tail 0 32) }
    | _ => none
  | .rxHdr m =>
    match s.reader with
    | .new hdr (c :: cs) =>
      if 0 < m ∧ m ≤ c.len then
        some { s with reader := .new (poke hdr c.data (peek s.fifo c.fifo m)) (restOf m c cs) }
      else none
    | _ => none
  | .rxSize =>
    match s.reader with
    | .new hdr [] =>
      if sizeOk hdr then
        let n := newSize hdr s.head s.tail
        some { s with reader := .take true (peekPktSize hdr).toNat 0 n (rxPeak s.tail 0 n) }
      else some { s with tail := rxAdvance s.tail (rxAvail s.head s.tail), reader := .idle }
    | _ => none
  | .rxFrag =>
    match s.reader with
    | .frag =>
      let n := fragSize s.ring s.head s.tail
      some { s with reader := .take false s.ring.len s.ring.offset n (rxPeak s.tail 0 n) }
    | _ => none
  | .rxCopy m =>
    match s.reader with
    | .take isNew pktLen base n (c :: cs) =>
      if 0 < m ∧ m ≤ c.len then
        some { s with
          buf := poke s.buf (base + c.data) (peek s.fifo c.fifo m)
          reader := .take isNew pktLen base n (restOf m c cs) }
      else none
    | _ => none
  | .rxEnd =>
    match s.reader with
    | .take isNew pktLen base n [] =>
      let s := { s with tail := rxAdvance s.tail n, reader := .idle }
      if n + base = pktLen then
        some { s with ring := if isNew then s.ring else ⟨0, 0⟩, posted := s.posted ++ [peek s.buf 0 pktLen] }
      else some { s with ring := ⟨pktLen, base + n⟩ }
    | _ => none

def ChanStep (s : Chan) (a : Act) (s' : Chan) : Prop := s.next a = some s'

/-- `qrtr_gunyah_fifo_init` has reset the pipe. -/
def fresh (fifo buf : Nat → UInt8) : Chan := ⟨fifo, 0, 0, none, .idle, ⟨0, 0⟩, buf, [], []⟩

/-- The condition on an action: when `qrtr_gunyah_read_new` begins, the part of the header that tells
the length of the packet is in the FIFO. -/
def HdrThere (s : Chan) : Act → Prop
  | .rxBegin _ => s.ring.offset = 0 → sizeBytes (s.fifo s.tail.toNat) ≤ rxAvail s.head s.tail
  | _ => True

/-! ### Positions in the stream -/

open Nat

section
variable {S R : Nat} {head tail : U32}

theorem rxAvail_eq (hh : head.toNat = S % fifoSize) (ht : tail.toNat = R % fifoSize) (hle : R ≤ S)
    (hlt : S < R + fifoSize) : rxAvail head tail = S - R := by
  unfold rxAvail
  unfold fifoSize at *
  dsimp only
  by_cases h : head < tail
  · have h' := BitVec.lt_def.mp h
    have hlen : (BitVec.ofNat 64 0x4000 - tail.setWidth 64 + head.setWidth 64).toNat = S - R := by
      rw [BitVec.toNat_add, BitVec.toNat_sub, BitVec.toNat_setWidth, BitVec.toNat_setWidth, BitVec.toNat_ofNat]
      omega
    rw [if_pos h, if_neg, hlen]
    rw [BitVec.lt_def, hlen, BitVec.toNat_ofNat]
    omega
  · have h' := BitVec.not_lt.mp h
    have h'' := BitVec.le_def.mp h'
    have hlen : ((head - tail).setWidth 64).toNat = S - R := by
      rw [BitVec.toNat_setWidth, BitVec.toNat_sub_of_le h']
      omega
    rw [if_neg h, if_neg, hlen]
    rw [BitVec.lt_def, hlen, BitVec.toNat_ofNat]
    omega

/-- The reserve is taken off what is free. -/
theorem reserved_eq {avail : U32} {n : Nat} (h : avail.toNat = n) (hle : 8 ≤ n) :
    (if avail < 8 then 0 else avail - 8 : U32).toNat = n - 8 := by
  have hge : (8 : U32) ≤ avail := by
    rw [BitVec.le_def, h]
    exact hle
  rw [if_neg (BitVec.not_lt.mpr hge), BitVec.toNat_sub_of_le hge, h]
  rfl

theorem txAvail_eq (hh : head.toNat = S % fifoSize) (ht : tail.toNat = R % fifoSize) (hle : R ≤ S)
    (hlt : S + 8 ≤ R + fifoSize) : txAvail head tail = R + fifoSize - 8 - S := by
  unfold txAvail fullReserve
  unfold fifoSize at *
  dsimp only
  rw [if_neg (show ¬ 0x4000 < head.toNat by omega)]
  by_cases h : tail ≤ head
  · have h' := BitVec.le_def.mp h
    have havail : (BitVec.ofNat 32 0x4000 - head + tail).toNat = R + 0x4000 - S := by
      rw [BitVec.toNat_add, BitVec.toNat_sub, BitVec.toNat_ofNat]
      omega
    rw [if_pos h, reserved_eq havail (by omega)]
    omega
  · have h' := BitVec.lt_def.mp (BitVec.not_le.mp h)
    have havail : (tail - head).toNat = R + 0x4000 - S := by
      rw [BitVec.toNat_sub_of_le (BitVec.le_def.mpr (by omega))]
      omega
    rw [if_neg h, reserved_eq havail (by omega)]
    omega

theorem toNat_add_count {p : U32} {n : Nat} (h : p.toNat = R % fifoSize) (hn : n ≤ fifoSize) :
    (p + BitVec.ofNat 32 n).toNat = R % fifoSize + n := by
  unfold fifoSize at *
  rw [BitVec.toNat_add, BitVec.toNat_ofNat]
  omega

theorem rxAdvance_eq {n : Nat} (ht : tail.toNat = R % fifoSize) (hn : n ≤ fifoSize) :
    (rxAdvance tail n).toNat = (R + n) % fifoSize := by
  have hadd := toNat_add_count ht hn
  unfold rxAdvance
  unfold fifoSize at *
  dsimp only
  rw [hadd]
  split
  · rw [BitVec.toNat_ofNat]
    omega
  · rw [hadd]
    omega

theorem txHead_eq {n : Nat} (hh : head.toNat = S % fifoSize) (hn : n ≤ fifoSize) :
    (txHead head n).toNat = (S + n) % fifoSize := by
  have hadd := toNat_add_count hh hn
  unfold txHead
  unfold fifoSize at *
  dsimp only
  rw [hadd]
  split
  · rw [BitVec.toNat_sub, hadd, BitVec.toNat_ofNat]
    omega
  · rw [hadd]
    omega

/-- The copies are those of `n` bytes from position `pos` of the stream and offset `data` of the
buffer on. -/
def Covers (pos data n : Nat) : List Copy → Prop
  | [] => n = 0
  | c :: cs => c.fifo = pos % fifoSize ∧ c.data = data ∧ c.fifo + c.len ≤ fifoSize ∧ c.len ≤ n ∧
      Covers (pos + c.len) (data + c.len) (n - c.len) cs

theorem covers_copies {pos n : Nat} (hn : n ≤ fifoSize) : Covers pos 0 n (copies (pos % fifoSize) n) := by
  have hlt : pos % fifoSize < fifoSize := mod_lt _ (by decide)
  unfold copies
  dsimp only
  by_cases h0 : min n (fifoSize - pos % fifoSize) = 0
  · have hn0 : n = 0 := by omega
    subst hn0
    simp [Covers]
  · rw [if_pos h0]
    refine ⟨rfl, rfl, by dsimp only; omega, by dsimp only; omega, ?_⟩
    dsimp only
    by_cases h1 : min n (fifoSize - pos % fifoSize) = n
    · rw [if_neg (not_not.mpr h1), h1]
      exact Nat.sub_self n
    · rw [if_pos h1]
      refine ⟨?_, by simp, by dsimp only; omega, le_rfl, Nat.sub_self _⟩
      dsimp only
      unfold fifoSize at *
      omega

theorem Covers.rest {pos data n m : Nat} {c : Copy} {cs : List Copy} (h : Covers pos data n (c :: cs))
    (hm : m ≤ c.len) : Covers (pos + m) (data + m) (n - m) (restOf m c cs) := by
  obtain ⟨hf, hd, hfit, hn, hcs⟩ := h
  unfold restOf
  split
  · rename_i heq
    rw [heq]
    exact hcs
  · refine ⟨?_, by rw [hd], by dsimp only; omega, by dsimp only; omega, ?_⟩
    · dsimp only
      exact cell_add hf (by omega)
    · dsimp only
      rw [add_assoc, Nat.add_sub_cancel' hm, add_assoc, Nat.add_sub_cancel' hm, Nat.sub_sub, Nat.add_sub_cancel' hm]
      exact hcs

end

/-! ### Sizes -/

theorem leNat_byte (buf : Nat → UInt8) : leNat (peek buf 0 1) = (buf 0).toNat := by
  simp [peek, leNat]

/-- The size is a matter of the first bytes of the header. -/
theorem peekPktSize_of_bytes {pkt : List UInt8} {hdr : Nat → UInt8}
    (h : ∀ i < sizeBytes (streamBuf pkt 0), hdr i = streamBuf pkt i) : peekPktSize hdr = peekPktSize (streamBuf pkt) := by
  have hword : ∀ off k, off + k ≤ sizeBytes (streamBuf pkt 0) → peek hdr off k = peek (streamBuf pkt) off k :=
    fun off k hk => peek_congr (fun i _ hi => h i (by omega))
  have hfirst : peek hdr 0 1 = peek (streamBuf pkt) 0 1 := hword 0 1 (by unfold sizeBytes; split <;> omega)
  unfold peekPktSize
  rw [hfirst]
  by_cases h1 : leNat (peek (streamBuf pkt) 0 1) = protoVer1
  · have hv : streamBuf pkt 0 = 1 := by
      rw [leNat_byte] at h1
      exact UInt8.toNat_inj.mp h1
    rw [if_pos h1, if_pos h1, hword 20 4 (by rw [hv]; decide)]
  · have hv : streamBuf pkt 0 ≠ 1 := by
      intro hv
      rw [leNat_byte, hv] at h1
      exact h1 rfl
    have hb : sizeBytes (streamBuf pkt 0) = 8 := if_neg hv
    dsimp only
    rw [if_neg h1, if_neg h1, hword 3 1 (by omega), hword 4 4 (by omega)]

/-- What a valid packet's header says. -/
theorem validPkt_spec {pkt : List UInt8} (h : validPkt pkt) :
    peekPktSize (streamBuf pkt) = pkt.length ∧ sizeBytes (streamBuf pkt 0) ≤ pkt.length ∧ pkt.length ≤ maxPktSz := by
  simp only [validPkt, and_eq_true, or_eq_true, beq_iff_eq, decide_eq_true_eq] at h
  obtain ⟨⟨hver, hlen⟩, hmax⟩ := h
  refine ⟨?_, ?_, hmax⟩
  · rw [peekPktSize_eq hver (by unfold maxPktSz at hmax; omega), hlen]
  · have hhdr : sizeBytes (streamBuf pkt 0) ≤ declaredHdrlen (streamBuf pkt) := by
      unfold sizeBytes declaredHdrlen hdrMaxSize hdrV2Size
      rw [leNat_byte]
      by_cases hv : streamBuf pkt 0 = 1
      · rw [if_pos hv, if_pos (by rw [hv]; rfl)]
        omega
      · have hv' : (streamBuf pkt 0).toNat ≠ protoVer1 := fun h => hv (UInt8.toNat_inj.mp h)
        rw [if_neg hv, if_neg hv']
        omega
    omega

theorem validPkt_pos {pkt : List UInt8} (h : validPkt pkt) : 0 < pkt.length := by
  have hlen := (validPkt_spec h).2.1
  have hpos : 0 < sizeBytes (streamBuf pkt 0) := by
    unfold sizeBytes
    split <;> omega
  omega

theorem sizeOk_valid {pkt : List UInt8} {hdr : Nat → UInt8} (hv : validPkt pkt)
    (h : peekPktSize hdr = pkt.length) : sizeOk hdr := by
  have := (validPkt_spec hv).2.2
  simp only [sizeOk, h, and_eq_true, decide_eq_true_eq]
  omega

/-! ### The invariant -/

/-- The FIFO holds what is published and not released, `S` and `R` bytes of the stream. -/
structure FifoOk (s : Chan) (S R : Nat) : Prop where
  head : s.head.toNat = S % fifoSize
  tail : s.tail.toNat = R % fifoSize
  order : R ≤ S
  full : S + 8 ≤ R + fifoSize
  within : S ≤ s.sent.flatten.length
  held : Holds fifoSize 0 s.fifo s.sent.flatten R S

/-- The chunk under way follows what is published; `k` bytes of it are in place. -/
def WritingOk (fifo : Nat → UInt8) (stream : List UInt8) (S R : Nat) (w : Sending) : Prop :=
  ∀ wr, w.write = some wr → w.offset + wr.count ≤ w.pkt.length ∧ S + wr.count + 8 ≤ R + fifoSize ∧
    ∃ k, k ≤ wr.count ∧ Covers (S + k) k (wr.count - k) wr.left ∧ Holds fifoSize 0 fifo stream R (S + k)

/-- Everything is published but for the rest of the packet that is being sent. -/
def SenderOk (fifo : Nat → UInt8) (sent : List (List UInt8)) (S R : Nat) : Option Sending → Prop
  | none => S = sent.flatten.length
  | some w => ∃ before, sent = before ++ [w.pkt] ∧ S = before.flatten.length + w.offset ∧
      w.offset ≤ w.pkt.length ∧ WritingOk fifo sent.flatten S R w

/-- The first `n` bytes of the packet are in the buffer. -/
def BufOk (buf : Nat → UInt8) (pkt : List UInt8) (n : Nat) : Prop := ∀ i < n, buf i = streamBuf pkt i

/-- The packets are posted up to the one that is released in part. -/
structure RingHolds (s : Chan) (R : Nat) (rest : List (List UInt8)) : Prop where
  sent : s.sent = s.posted ++ rest
  released : R = s.posted.flatten.length + s.ring.offset
  part : s.ring.offset ≠ 0 → ∃ pkt more, rest = pkt :: more ∧ s.ring.len = pkt.length ∧ s.ring.offset < pkt.length ∧
    BufOk s.buf pkt s.ring.offset

/-- Where the reader stands in the next packet. -/
def ReaderOk (ring : Ring) (buf : Nat → UInt8) (S R : Nat) (rest : List (List UInt8)) : Reader → Prop
  | .idle => True
  | .new hdr left => ring.offset = 0 ∧ ∃ pkt more, rest = pkt :: more ∧ R + sizeBytes (streamBuf pkt 0) ≤ S ∧
      ∃ k, k ≤ 32 ∧ Covers (R + k) k (32 - k) left ∧ ∀ i < k, i < sizeBytes (streamBuf pkt 0) → hdr i = streamBuf pkt i
  | .frag => ring.offset ≠ 0
  | .take isNew pktLen base n left => (isNew = true → ring.offset = 0) ∧ base = ring.offset ∧
      ∃ pkt more, rest = pkt :: more ∧ pktLen = pkt.length ∧ base + n ≤ pktLen ∧ R + n ≤ S ∧
      ∃ k, k ≤ n ∧ Covers (R + k) k (n - k) left ∧ BufOk buf pkt (base + k)

structure ChanInv (s : Chan) (S R : Nat) : Prop where
  valid : ∀ pkt ∈ s.sent, validPkt pkt = true
  fifo : FifoOk s S R
  sender : SenderOk s.fifo s.sent S R s.sending
  ring : ∃ rest, RingHolds s R rest ∧ ReaderOk s.ring s.buf S R rest s.reader

theorem ReaderOk.mono {ring : Ring} {buf : Nat → UInt8} {S S' R : Nat} {rest more : List (List UInt8)} {r : Reader}
    (h : ReaderOk ring buf S R rest r) (hS : S ≤ S') : ReaderOk ring buf S' R (rest ++ more) r := by
  cases r with
  | idle => trivial
  | new hdr left =>
    obtain ⟨h0, pkt, tail, rfl, hsize, hk⟩ := h
    exact ⟨h0, pkt, tail ++ more, rfl, by omega, hk⟩
  | frag => exact h
  | take isNew pktLen base n left =>
    obtain ⟨h0, hbase, pkt, tail, rfl, hlen, hn, hR, hk⟩ := h
    exact ⟨h0, hbase, pkt, tail ++ more, rfl, hlen, hn, by omega, hk⟩

section
variable {s : Chan} {S R : Nat} {pkt : List UInt8} {offset count m : Nat} {c : Copy} {cs : List Copy}

/-- The sender goes on in the same FIFO. -/
theorem ChanInv.setSending {w : Option Sending} (hI : ChanInv s S R) (hw : SenderOk s.fifo s.sent S R w) :
    ChanInv { s with sending := w } S R := by
  obtain ⟨hvalid, hfifo, -, rest, hring, hreader⟩ := hI
  exact ⟨hvalid, ⟨hfifo.head, hfifo.tail, hfifo.order, hfifo.full, hfifo.within, hfifo.held⟩, hw, rest,
    ⟨hring.sent, hring.released, hring.part⟩, hreader⟩

/-- The reader goes on in the same FIFO. -/
theorem ChanInv.setReader {rest : List (List UInt8)} {r : Reader} (hI : ChanInv s S R) (hring : RingHolds s R rest)
    (hr : ReaderOk s.ring s.buf S R rest r) : ChanInv { s with reader := r } S R := by
  obtain ⟨hvalid, hfifo, hsender, -⟩ := hI
  exact ⟨hvalid, ⟨hfifo.head, hfifo.tail, hfifo.order, hfifo.full, hfifo.within, hfifo.held⟩, hsender, rest,
    ⟨hring.sent, hring.released, hring.part⟩, hr⟩

theorem FifoOk.avail (h : FifoOk s S R) : rxAvail s.head s.tail = S - R :=
  rxAvail_eq h.head h.tail h.order (by have := h.full; omega)

section
variable (hI : ChanInv s S R)
include hI

theorem ChanInv.send (hs : s.sending = none) (hv : validPkt pkt) :
    ChanInv { s with sending := some ⟨pkt, 0, none⟩, sent := s.sent ++ [pkt] } S R := by
  obtain ⟨hvalid, hfifo, hsender, rest, hring, hreader⟩ := hI
  rw [hs] at hsender
  have hS : S = s.sent.flatten.length := hsender
  have hflat : (s.sent ++ [pkt]).flatten = s.sent.flatten ++ pkt := by simp
  refine ⟨fun p hp => ?_, ⟨hfifo.head, hfifo.tail, hfifo.order, hfifo.full, ?_, ?_⟩,
    ⟨s.sent, rfl, hS, Nat.zero_le _, nofun⟩, rest ++ [pkt], ⟨?_, hring.released, fun h => ?_⟩,
    hreader.mono le_rfl⟩
  · rcases mem_append.mp hp with hp | hp
    · exact hvalid p hp
    · rwa [mem_singleton.mp hp]
  · dsimp only
    rw [hflat, length_append]
    omega
  · dsimp only
    rw [hflat]
    exact hfifo.held.append hfifo.within
  · dsimp only
    rw [hring.sent, append_assoc]
  · obtain ⟨p, more, rfl, hp⟩ := hring.part h
    exact ⟨p, more ++ [pkt], rfl, hp⟩

theorem ChanInv.txBegin (hs : s.sending = some ⟨pkt, offset, none⟩)
    (hcount : count = min (txAvail s.head s.tail) (pkt.length - offset)) :
    ChanInv { s with sending := some ⟨pkt, offset, some ⟨count, (txWrite s.head count).getD []⟩⟩ } S R := by
  have hfifo := hI.fifo
  have hsender := hI.sender
  rw [hs] at hsender
  obtain ⟨before, hsent, hS, hoff, -⟩ := hsender
  have hfull := hfifo.full
  have hoff' : offset ≤ pkt.length := hoff
  rw [txAvail_eq hfifo.head hfifo.tail hfifo.order hfull] at hcount
  refine hI.setSending ⟨before, hsent, hS, hoff, fun wr hwr => ?_⟩
  cases hwr
  refine ⟨by dsimp only; omega, by dsimp only; omega, 0, Nat.zero_le _, ?_, hfifo.held⟩
  have hlt : s.head.toNat < fifoSize := hfifo.head ▸ mod_lt _ (by decide)
  have horder := hfifo.order
  rw [txWrite, if_neg (by omega), hfifo.head]
  exact covers_copies (by dsimp only; omega)

theorem ChanInv.txCopy (hs : s.sending = some ⟨pkt, offset, some ⟨count, c :: cs⟩⟩) (hm : m ≤ c.len) :
    ChanInv { s with
      fifo := poke s.fifo c.fifo ((pkt.drop (offset + c.data)).take m)
      sending := some ⟨pkt, offset, some ⟨count, restOf m c cs⟩⟩ } S R := by
  obtain ⟨hvalid, hfifo, hsender, hring⟩ := hI
  rw [hs] at hsender
  obtain ⟨before, hsent, hS, hoff, hw⟩ := hsender
  obtain ⟨hfit, hroom, k, hk, hcov, hheld⟩ := hw _ rfl
  have hrest := hcov.rest hm
  obtain ⟨hf, hd, hend, hlen, -⟩ := hcov
  dsimp only at hfit hroom hk hlen hS hoff
  have hbytes : ((pkt.drop (offset + c.data)).take m).length = m := by
    rw [length_take, length_drop]
    omega
  -- the bytes of the chunk are those of the stream behind what is published
  have hget : ∀ i < ((pkt.drop (offset + c.data)).take m).length,
      s.sent.flatten[S + k + i]? = ((pkt.drop (offset + c.data)).take m)[i]? := by
    intro i hi
    rw [hbytes] at hi
    rw [hsent, flatten_append, getElem?_append_right (by omega), getElem?_take_of_lt hi, getElem?_drop]
    simp only [flatten_singleton]
    congr 1
    omega
  have hmore := hheld.poke (f := c.fifo) (by rw [zero_add]; exact hf) (by rw [hbytes]; omega) (by rw [hbytes]; omega) hget
  rw [hbytes] at hmore
  refine ⟨hvalid, ⟨hfifo.head, hfifo.tail, hfifo.order, hfifo.full, hfifo.within, hmore.mono le_rfl (by omega)⟩,
    ⟨before, hsent, hS, hoff, fun wr hwr => ?_⟩, ?_⟩
  · cases hwr
    refine ⟨hfit, hroom, k + m, by dsimp only; omega, ?_, ?_⟩
    · dsimp only
      rw [← add_assoc, sub_add_eq]
      exact hrest
    · rw [← add_assoc]
      exact hmore
  · obtain ⟨rest, hh, hreader⟩ := hring
    exact ⟨rest, ⟨hh.sent, hh.released, hh.part⟩, hreader⟩

theorem ChanInv.txEnd (hs : s.sending = some ⟨pkt, offset, some ⟨count, []⟩⟩) :
    ChanInv { s with
      head := if fifoSize < s.head.toNat then s.head else txHead s.head count
      sending := some ⟨pkt, offset + count, none⟩ } (S + count) R := by
  obtain ⟨hvalid, hfifo, hsender, rest, hring, hreader⟩ := hI
  rw [hs] at hsender
  obtain ⟨before, hsent, hS, hoff, hw⟩ := hsender
  obtain ⟨hfit, hroom, k, hk, hcov, hheld⟩ := hw _ rfl
  dsimp only at hfit hroom hk hS hoff
  have hdone : count - k = 0 := hcov
  have hlt : s.head.toNat < fifoSize := hfifo.head ▸ mod_lt _ (by decide)
  have horder := hfifo.order
  refine ⟨hvalid, ⟨?_, hfifo.tail, by omega, by omega, ?_, ?_⟩, ⟨before, hsent, ?_, hfit, nofun⟩,
    rest, ⟨hring.sent, hring.released, hring.part⟩, ?_⟩
  · dsimp only
    rw [if_neg (by omega)]
    exact txHead_eq hfifo.head (by omega)
  · dsimp only
    rw [hsent, flatten_append, length_append]
    simp only [flatten_singleton]
    omega
  · exact hheld.mono le_rfl (by omega)
  · dsimp only
    omega
  · have hmono : ReaderOk s.ring s.buf (S + count) R (rest ++ []) s.reader := hreader.mono (Nat.le_add_right S count)
    rwa [append_nil] at hmono

theorem ChanInv.sendEnd (hs : s.sending = some ⟨pkt, offset, none⟩) (hoff : offset = pkt.length) :
    ChanInv { s with sending := none } S R := by
  have hsender := hI.sender
  rw [hs] at hsender
  obtain ⟨before, hsent, hS, -, -⟩ := hsender
  refine hI.setSending ?_
  change S = s.sent.flatten.length
  rw [hsent, flatten_append, length_append, hS, hoff]
  simp

end

end

section
variable {s : Chan} {S R : Nat} {hdr : Nat → UInt8} {m : Nat} {c : Copy} {cs : List Copy} {rest : List (List UInt8)}

/-- The bytes of the next packet are in the stream behind those that are released of it. -/
theorem RingHolds.getElem? {pkt : List UInt8} {more : List (List UInt8)} (h : RingHolds s R (pkt :: more))
    {i : Nat} (hi : s.ring.offset + i < pkt.length) :
    s.sent.flatten[R + i]? = some (streamBuf pkt (s.ring.offset + i)) := by
  have hR := h.released
  rw [h.sent, flatten_append, flatten_cons, getElem?_append_right (by omega),
    show R + i - s.posted.flatten.length = s.ring.offset + i by omega, getElem?_append_left hi,
    getElem?_eq_getElem hi, streamBuf, getD_eq_getElem?_getD, getElem?_eq_getElem hi]
  rfl

/-- A byte that is read from the FIFO where it is published. -/
theorem ChanInv.byte_eq {pkt : List UInt8} {more : List (List UInt8)} (hfifo : FifoOk s S R)
    (hring : RingHolds s R (pkt :: more)) {f k i : Nat} (hf : f = (R + k) % fifoSize) (hfit : f + i < fifoSize)
    (hpub : R + (k + i) < S) (hi : s.ring.offset + (k + i) < pkt.length) :
    s.fifo (f + i) = streamBuf pkt (s.ring.offset + (k + i)) := by
  have hcell := hfifo.held (R + (k + i)) _ (Nat.le_add_right _ _) hpub (hring.getElem? hi)
  rw [zero_add, ← add_assoc, ← cell_add hf hfit] at hcell
  exact hcell

/-- With something to read there is a next packet. -/
theorem RingHolds.next (h : RingHolds s R rest) (hfifo : FifoOk s S R) (hlt : R < S) :
    ∃ pkt more, rest = pkt :: more := by
  cases rest with
  | nil =>
    have hwithin := hfifo.within
    have hR := h.released
    rw [h.sent, append_nil] at hwithin
    omega
  | cons pkt more => exact ⟨pkt, more, rfl⟩

theorem rxPeak_covers (hfifo : FifoOk s S R) {n : Nat} (hn : n ≤ fifoSize) : Covers R 0 n (rxPeak s.tail 0 n) := by
  have hlt : s.tail.toNat < fifoSize := hfifo.tail ▸ mod_lt _ (by decide)
  have htail : s.tail + 0 = s.tail := BitVec.add_zero _
  unfold rxPeak
  dsimp only
  rw [htail, if_neg (show ¬ fifoSize ≤ s.tail.toNat by omega), if_neg (show ¬ fifoSize < s.tail.toNat by omega),
    hfifo.tail]
  exact covers_copies hn

section
variable (hI : ChanInv s S R)
include hI

theorem ChanInv.rxNew (havail : rxAvail s.head s.tail ≠ 0) (h0 : s.ring.offset = 0)
    (hhdr : sizeBytes (s.fifo s.tail.toNat) ≤ rxAvail s.head s.tail) :
    ChanInv { s with reader := .new hdr (rxPeak s.tail 0 32) } S R := by
  obtain ⟨hvalid, hfifo, -, rest, hring, -⟩ := id hI
  rw [hfifo.avail] at havail hhdr
  obtain ⟨pkt, more, rfl⟩ := hring.next hfifo (by omega)
  have hv := hvalid pkt (by rw [hring.sent]; simp)
  have hlen := validPkt_pos hv
  -- the first byte of the packet is there, and tells how much of the header is needed
  have hfirst : s.fifo s.tail.toNat = streamBuf pkt 0 := by
    have hb := ChanInv.byte_eq (k := 0) (i := 0) hfifo hring hfifo.tail
      (by rw [hfifo.tail]; exact mod_lt _ (by decide)) (by omega) (by omega)
    rw [h0] at hb
    exact hb
  rw [hfirst] at hhdr
  exact hI.setReader hring ⟨h0, pkt, more, rfl, by omega, 0, Nat.zero_le _, rxPeak_covers hfifo (by decide),
    nofun⟩

theorem ChanInv.rxHdr (hr : s.reader = .new hdr (c :: cs)) (hm : m ≤ c.len) :
    ChanInv { s with reader := .new (poke hdr c.data (peek s.fifo c.fifo m)) (restOf m c cs) } S R := by
  obtain ⟨hvalid, hfifo, -, rest, hring, hreader⟩ := id hI
  rw [hr] at hreader
  obtain ⟨h0, pkt, more, rfl, hsize, k, hk, hcov, hhdr⟩ := hreader
  have hrest := hcov.rest hm
  obtain ⟨hf, hd, hend, hlen, -⟩ := hcov
  have hv := (validPkt_spec (hvalid pkt (by rw [hring.sent]; simp))).2.1
  refine hI.setReader hring ⟨h0, pkt, more, rfl, hsize, k + m, by omega, ?_, fun i hi hs => ?_⟩
  · rw [← add_assoc, sub_add_eq]
    exact hrest
  · by_cases hik : i < k
    · rw [poke_outside (.inl (by omega))]
      exact hhdr i hik hs
    · obtain ⟨j, rfl⟩ : ∃ j, i = k + j := ⟨i - k, by omega⟩
      have hb := ChanInv.byte_eq (i := j) hfifo hring hf (by omega) (by omega) (by omega)
      rw [h0, zero_add] at hb
      rw [hd, poke_inside (by rw [length_peek]; omega), ← hb]
      simp [peek]

theorem ChanInv.rxSize (hr : s.reader = .new hdr []) :
    sizeOk hdr ∧
      ChanInv { s with
        reader := .take true (peekPktSize hdr).toNat 0 (newSize hdr s.head s.tail)
          (rxPeak s.tail 0 (newSize hdr s.head s.tail)) } S R := by
  obtain ⟨hvalid, hfifo, -, rest, hring, hreader⟩ := id hI
  rw [hr] at hreader
  obtain ⟨h0, pkt, more, rfl, hsize, k, hk, hcov, hhdr⟩ := hreader
  have hdone : 32 - k = 0 := hcov
  have hv := hvalid pkt (by rw [hring.sent]; simp)
  have hneed : sizeBytes (streamBuf pkt 0) ≤ 24 := by
    unfold sizeBytes
    split <;> omega
  have hpeek : peekPktSize hdr = pkt.length := by
    rw [peekPktSize_of_bytes fun i hi => hhdr i (by omega) hi, (validPkt_spec hv).1]
  have hnew : newSize hdr s.head s.tail = min (S - R) pkt.length := by
    rw [newSize, hfifo.avail, hpeek, Int.toNat_natCast]
  have hfull := hfifo.full
  have horder := hfifo.order
  refine ⟨sizeOk_valid hv hpeek, hI.setReader hring ⟨fun _ => h0, h0.symm, pkt, more, rfl, ?_, ?_, ?_, 0,
    Nat.zero_le _, rxPeak_covers hfifo ?_, nofun⟩⟩
  · rw [hpeek, Int.toNat_natCast]
  · rw [hnew, hpeek, Int.toNat_natCast]
    omega
  · omega
  · omega

theorem ChanInv.rxFrag (hr : s.reader = .frag) :
    ChanInv { s with
      reader := .take false s.ring.len s.ring.offset (fragSize s.ring s.head s.tail)
        (rxPeak s.tail 0 (fragSize s.ring s.head s.tail)) } S R := by
  obtain ⟨-, hfifo, -, rest, hring, hreader⟩ := id hI
  rw [hr] at hreader
  obtain ⟨pkt, more, rfl, hlen, hlt, hbuf⟩ := hring.part hreader
  have hle : fragSize s.ring s.head s.tail ≤ S - R := by
    unfold fragSize
    rw [hfifo.avail]
    split <;> omega
  have hfull := hfifo.full
  have horder := hfifo.order
  have hadd := fragSize_add_le s.ring s.head s.tail (by omega)
  exact hI.setReader hring ⟨fun h => absurd h (by decide), rfl, pkt, more, rfl, hlen, by omega, by omega, 0,
    Nat.zero_le _, rxPeak_covers hfifo (by omega), hbuf⟩

theorem ChanInv.rxCopy {isNew : Bool} {pktLen base n : Nat}
    (hr : s.reader = .take isNew pktLen base n (c :: cs)) (hm : m ≤ c.len) :
    ChanInv { s with
      buf := poke s.buf (base + c.data) (peek s.fifo c.fifo m)
      reader := .take isNew pktLen base n (restOf m c cs) } S R := by
  obtain ⟨hvalid, hfifo, hsender, rest, hring, hreader⟩ := hI
  rw [hr] at hreader
  obtain ⟨hnew, hbase, pkt, more, rfl, hlen, hn, hpub, k, hk, hcov, hbuf⟩ := hreader
  have hrest := hcov.rest hm
  obtain ⟨hf, hd, hend, hle, -⟩ := hcov
  have hcopied : BufOk (poke s.buf (base + c.data) (peek s.fifo c.fifo m)) pkt (base + (k + m)) := by
    intro i hi
    by_cases hik : i < base + k
    · rw [poke_outside (.inl (by omega))]
      exact hbuf i hik
    · obtain ⟨j, rfl⟩ : ∃ j, i = base + k + j := ⟨i - (base + k), by omega⟩
      have hb := ChanInv.byte_eq (i := j) hfifo hring hf (by omega) (by omega) (by omega)
      rw [hd, poke_inside (by rw [length_peek]; omega)]
      rw [← hbase, ← add_assoc] at hb
      rw [← hb]
      simp [peek]
  refine ⟨hvalid, ⟨hfifo.head, hfifo.tail, hfifo.order, hfifo.full, hfifo.within, hfifo.held⟩, hsender, pkt :: more,
    ⟨hring.sent, hring.released, fun h => ?_⟩, hnew, hbase, pkt, more, rfl, hlen, hn, hpub, k + m, by omega, ?_, hcopied⟩
  · obtain ⟨p, tl, heq, hp⟩ := hring.part h
    cases heq
    exact ⟨pkt, more, rfl, hp.1, hp.2.1, fun i hi => hcopied i (by dsimp only at hi; omega)⟩
  · rw [← add_assoc, sub_add_eq]
    exact hrest

end

/-- Releasing bytes takes nothing from the sender. -/
theorem SenderOk.release {fifo : Nat → UInt8} {sent : List (List UInt8)} {w : Option Sending} {n : Nat}
    (h : SenderOk fifo sent S R w) : SenderOk fifo sent S (R + n) w := by
  cases w with
  | none => exact h
  | some w =>
    obtain ⟨before, hsent, hS, hoff, hw⟩ := h
    refine ⟨before, hsent, hS, hoff, fun wr hwr => ?_⟩
    obtain ⟨hfit, hroom, k, hk, hcov, hheld⟩ := hw wr hwr
    exact ⟨hfit, by omega, k, hk, hcov, hheld.mono (by omega) le_rfl⟩

theorem peek_buf {buf : Nat → UInt8} {pkt : List UInt8} (h : BufOk buf pkt pkt.length) :
    peek buf 0 pkt.length = pkt := by
  refine ext_getElem (length_peek _ _ _) fun i _ hi => ?_
  have hb := h i hi
  rw [streamBuf, getD_eq_getElem?_getD, getElem?_eq_getElem hi] at hb
  simpa [peek] using hb

section
variable {isNew : Bool} {pktLen base n : Nat} (hI : ChanInv s S R) (hr : s.reader = .take isNew pktLen base n [])
include hI hr

/-- The next packet is complete. -/
theorem ChanInv.rxPost (hend : n + base = pktLen) :
    ChanInv { s with
      tail := rxAdvance s.tail n
      reader := .idle
      ring := if isNew then s.ring else ⟨0, 0⟩
      posted := s.posted ++ [peek s.buf 0 pktLen] } S (R + n) := by
  obtain ⟨hvalid, hfifo, hsender, rest, hring, hreader⟩ := hI
  rw [hr] at hreader
  obtain ⟨hnew, hbase, pkt, more, rfl, hlen, hn, hpub, k, hk, hcov, hbuf⟩ := hreader
  have hdone : n - k = 0 := hcov
  have hfull := hfifo.full
  have horder := hfifo.order
  have hR := hring.released
  have hpkt : peek s.buf 0 pktLen = pkt := by
    rw [hlen]
    exact peek_buf fun i hi => hbuf i (by omega)
  have hzero : (if isNew then s.ring else ⟨0, 0⟩ : Ring).offset = 0 := by
    cases isNew with
    | false => rfl
    | true => exact hnew rfl
  refine ⟨hvalid, ⟨hfifo.head, rxAdvance_eq hfifo.tail (by omega), by omega, by omega, hfifo.within,
    hfifo.held.mono (by omega) le_rfl⟩, hsender.release, more, ⟨?_, ?_, fun h => absurd hzero h⟩, trivial⟩
  · dsimp only
    rw [hpkt, hring.sent, append_assoc]
    rfl
  · dsimp only
    rw [hzero, hpkt, flatten_append, length_append]
    simp only [flatten_singleton]
    omega

/-- There is more of it to come. -/
theorem ChanInv.rxKeep (hend : n + base ≠ pktLen) :
    ChanInv { s with
      tail := rxAdvance s.tail n
      reader := .idle
      ring := ⟨pktLen, base + n⟩ } S (R + n) := by
  obtain ⟨hvalid, hfifo, hsender, rest, hring, hreader⟩ := hI
  rw [hr] at hreader
  obtain ⟨hnew, hbase, pkt, more, rfl, hlen, hn, hpub, k, hk, hcov, hbuf⟩ := hreader
  have hdone : n - k = 0 := hcov
  have hfull := hfifo.full
  have horder := hfifo.order
  have hR := hring.released
  refine ⟨hvalid, ⟨hfifo.head, rxAdvance_eq hfifo.tail (by omega), by omega, by omega, hfifo.within,
    hfifo.held.mono (by omega) le_rfl⟩, hsender.release, pkt :: more, ⟨hring.sent, ?_, fun _ => ?_⟩, trivial⟩
  · dsimp only
    omega
  · exact ⟨pkt, more, rfl, hlen, by dsimp only; omega, fun i hi => hbuf i (by dsimp only at hi; omega)⟩

end

end

/-! ### Runs -/

/-- One action, under the condition. -/
theorem chanStep_inv {s s' : Chan} {a : Act} (h : ChanStep s a s') (hok : HdrThere s a) (hI : ∃ S R, ChanInv s S R) :
    ∃ S R, ChanInv s' S R := by
  obtain ⟨S, R, hI⟩ := hI
  unfold ChanStep Chan.next at h
  cases a with
  | send pkt =>
    dsimp only at h
    split at h
    · rename_i hs
      split at h
      · rename_i hv
        cases h
        exact ⟨S, R, hI.send hs hv⟩
      · cases h
    · cases h
  | txBegin =>
    dsimp only at h
    split at h
    · rename_i pkt offset hs
      split at h
      · cases h
      · cases h
        exact ⟨S, R, hI.txBegin hs rfl⟩
    · cases h
  | txCopy m =>
    dsimp only at h
    split at h
    · rename_i hs
      split at h
      · rename_i hm
        cases h
        exact ⟨S, R, hI.txCopy hs hm.2⟩
      · cases h
    · cases h
  | txEnd =>
    dsimp only at h
    split at h
    · rename_i hs
      cases h
      exact ⟨_, R, hI.txEnd hs⟩
    · cases h
  | sendEnd =>
    dsimp only at h
    split at h
    · rename_i hs
      split at h
      · rename_i hoff
        cases h
        exact ⟨S, R, hI.sendEnd hs hoff⟩
      · cases h
    · cases h
  | rxBegin hdr =>
    dsimp only at h
    split at h
    · rename_i hr
      split at h
      · cases h
      · rename_i havail
        cases h
        by_cases h0 : s.ring.offset = 0
        · rw [if_neg (not_not.mpr h0)]
          exact ⟨S, R, hI.rxNew havail h0 (hok h0)⟩
        · rw [if_pos h0]
          obtain ⟨rest, hring, -⟩ := hI.ring
          exact ⟨S, R, hI.setReader hring h0⟩
    · cases h
  | rxHdr m =>
    dsimp only at h
    split at h
    · rename_i hr
      split at h
      · rename_i hm
        cases h
        exact ⟨S, R, hI.rxHdr hr hm.2⟩
      · cases h
    · cases h
  | rxSize =>
    dsimp only at h
    split at h
    · rename_i hr
      obtain ⟨hsize, hI'⟩ := hI.rxSize hr
      rw [if_pos hsize] at h
      cases h
      exact ⟨S, R, hI'⟩
    · cases h
  | rxFrag =>
    dsimp only at h
    split at h
    · rename_i hr
      cases h
      exact ⟨S, R, hI.rxFrag hr⟩
    · cases h
  | rxCopy m =>
    dsimp only at h
    split at h
    · rename_i hr
      split at h
      · rename_i hm
        cases h
        exact ⟨S, R, hI.rxCopy hr hm.2⟩
      · cases h
    · cases h
  | rxEnd =>
    dsimp only at h
    split at h
    · rename_i hr
      split at h
      · rename_i hend
        cases h
        exact ⟨S, _, hI.rxPost hr hend⟩
      · rename_i hend
        cases h
        exact ⟨S, _, hI.rxKeep hr hend⟩
    · cases h

theorem chanInv_fresh (fifo buf : Nat → UInt8) : ChanInv (fresh fifo buf) 0 0 := by
  refine ⟨fun pkt h => ?_, ⟨rfl, rfl, le_rfl, by decide, le_rfl, holds_empty le_rfl⟩, rfl, [],
    ⟨rfl, rfl, fun h => absurd rfl h⟩, trivial⟩
  cases h

/-- The posted packets are the first of those sent, and all of them when nothing is under way. -/
structure Delivers (s : Chan) : Prop where
  inOrder : s.posted <+: s.sent
  all : s.sending = none → s.reader = .idle → rxAvail s.head s.tail = 0 → s.posted = s.sent

theorem ChanInv.delivers {s : Chan} {S R : Nat} (hI : ChanInv s S R) : Delivers s := by
  obtain ⟨hvalid, hfifo, hsender, rest, hring, -⟩ := hI
  refine ⟨⟨rest, hring.sent.symm⟩, fun hs _ havail => ?_⟩
  rw [hs] at hsender
  have hS : S = s.sent.flatten.length := hsender
  have hR := hring.released
  have horder := hfifo.order
  rw [hfifo.avail] at havail
  cases rest with
  | nil => rw [hring.sent, append_nil]
  | cons pkt more =>
    have hpos := validPkt_pos (hvalid pkt (by rw [hring.sent]; simp))
    have hlen : s.sent.flatten.length = s.posted.flatten.length + (pkt.length + more.flatten.length) := by
      rw [hring.sent, flatten_append, length_append, flatten_cons, length_append]
    by_cases h0 : s.ring.offset = 0
    · omega
    · obtain ⟨p, tl, heq, -, hlt, -⟩ := hring.part h0
      cases heq
      omega

/-- From a new pipe on, whatever the chunks and however the copies interleave, the packets that are
posted are those that were sent. -/
theorem gunyah_delivers {fifo buf : Nat → UInt8} {run : List (Act × Chan)} (hrun : Path ChanStep (fresh fifo buf) run)
    (hok : Steps HdrThere (fresh fifo buf) run) : ∀ s ∈ fresh fifo buf :: run.map Prod.snd, Delivers s := by
  intro s hs
  have hstep : ∀ s a s', ChanStep s a s' → HdrThere s a → (∃ S R, ChanInv s S R) → ∃ S R, ChanInv s' S R :=
    fun _ _ _ h hok hI => chanStep_inv h hok hI
  obtain ⟨S, R, hI⟩ := hrun.invariant_of_steps hstep hok ⟨0, 0, chanInv_fresh fifo buf⟩ s hs
  exact hI.delivers

/-! ### Small runs -/

instance (s : Chan) (a : Act) : Decidable (HdrThere s a) := by
  unfold HdrThere
  cases a <;> infer_instance

/-- A version 2 packet with `size` bytes of zeros, below 2^16. -/
def zeros (size : Nat) : List UInt8 :=
  [3, 1, 0, 0, UInt8.ofNat (size % 256), UInt8.ofNat (size / 256), 0, 0, 0, 0, 0, 0, 0, 0, 0, 0] ++ replicate size 0

def silence : Nat → UInt8 := fun _ => 0

/-- A packet in two pieces of each copy. -/
def onePacket : List Act :=
  [.send (zeros 4), .txBegin, .txCopy 7, .txCopy 13, .txEnd, .sendEnd, .rxBegin silence, .rxHdr 32, .rxSize, .rxCopy 9,
    .rxCopy 11, .rxEnd]

theorem gunyah_delivers_one : ∃ s, s.posted = [zeros 4] ∧ s.sent = [zeros 4] ∧ Delivers s := by
  have hrun : ∃ s, exec (fun s a => if HdrThere s a then s.next a else none) (fresh silence silence) onePacket = some s ∧
      s.posted = [zeros 4] ∧ s.sent = [zeros 4] := by
    have hsome : (exec (fun s a => if HdrThere s a then s.next a else none) (fresh silence silence) onePacket).any
        (fun s => s.posted == [zeros 4] && s.sent == [zeros 4]) = true := by decide +kernel
    obtain ⟨s, hs, hp⟩ := Option.any_eq_true _ _ |>.mp hsome
    simp only [and_eq_true, beq_iff_eq] at hp
    exact ⟨s, hs, hp⟩
  obtain ⟨s, hexec, hposted, hsent⟩ := hrun
  obtain ⟨p, hpath, hok, rfl⟩ := steps_of_exec hexec
  exact ⟨_, hposted, hsent, gunyah_delivers hpath hok _ (final_mem _ p)⟩

/-- A packet fills the FIFO but for four bytes, so that the header of the next one is cut behind
them, and the reader takes its size from what the FIFO held before. -/
def cutHeader : List Act :=
  [.send (zeros 16356), .txBegin, .txCopy 16372, .txEnd, .sendEnd, .send (zeros 4), .txBegin, .txCopy 4, .txEnd,
    .rxBegin silence, .rxHdr 32, .rxSize, .rxCopy 16372, .rxEnd, .rxBegin silence, .rxHdr 12, .rxHdr 20, .rxSize,
    .rxCopy 4, .rxEnd, .txBegin, .txCopy 8, .txCopy 8, .txEnd, .sendEnd, .rxBegin silence, .rxFrag, .rxCopy 8, .rxCopy 4,
    .rxEnd]

theorem gunyah_cuts_header : ∃ run, Path ChanStep (fresh silence silence) run ∧
    ∃ s ∈ fresh silence silence :: run.map Prod.snd, ¬ s.posted <+: s.sent := by
  have hrun : ∃ s, exec Chan.next (fresh silence silence) cutHeader = some s ∧
      s.posted.map length = [16372, 16] ∧ s.sent.map length = [16372, 20] := by
    have hsome : (exec Chan.next (fresh silence silence) cutHeader).any
        (fun s => s.posted.map length == [16372, 16] && s.sent.map length == [16372, 20]) = true := by
      decide +kernel
    obtain ⟨s, hs, hp⟩ := Option.any_eq_true _ _ |>.mp hsome
    simp only [and_eq_true, beq_iff_eq] at hp
    exact ⟨s, hs, hp⟩
  obtain ⟨s, hexec, hposted, hsent⟩ := hrun
  obtain ⟨p, hpath, rfl⟩ := path_of_exec hexec
  refine ⟨p, hpath, _, final_mem _ p, fun hpre => ?_⟩
  have hlen := hpre.map length
  rw [hposted, hsent] at hlen
  exact absurd hlen (by decide)

end Sm8850.Qrtr.Gunyah
