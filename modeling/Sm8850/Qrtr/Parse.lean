import Sm8850.Lib.Run
import Sm8850.Qrtr.Delivery

/-! The two parsers of a packet header in net/qrtr/af_qrtr.c: `qrtr_endpoint_post`, with every
byte that it reads, and `qrtr_peek_pkt_size`, by which a stream transport cuts its packets. -/
namespace Sm8850.Qrtr

open Memory List Run
open Sm8850.Ns (U32 EINVAL ENODEV ENOMEM)

variable {buf stream : Nat → UInt8} {len size hdrlen : Nat} {skb : Skb} {bytes rest : List UInt8}

/-- A read of the buffer. -/
structure Read where
  off : Nat
  len : Nat

abbrev Rx := Run Read Int

/-- What the receiver meets: the packet buffer, allocated or from the backup queues, its own node
id, the bound ports, and whether the socket's queue takes the packet. -/
structure RxEnv where
  skb : Option Skb
  localNid : U32
  portLookup : U32 → Bool
  queueRcv : Bool

/-- A packet that was queued, and the node ids that were assigned to the endpoint. -/
structure Posted where
  cb : Cb
  skb : Skb
  toSocket : Bool
  assigned : List U32

section
variable (buf : Nat → UInt8)

/-- The little-endian word of `k` bytes at offset `off`. -/
def readWord (off k : Nat) : Rx Nat := do
  emit ⟨off, k⟩
  pure (leNat (peek buf off k))

def readHdrV1 : Rx (Cb × Nat × Nat) := do
  let type ← readWord buf 4 4
  let srcNode ← readWord buf 8 4
  let srcPort ← readWord buf 12 4
  let confirmRx ← readWord buf 16 4
  let dstNode ← readWord buf 24 4
  let dstPort ← readWord buf 28 4
  let size ← readWord buf 20 4
  pure (⟨BitVec.ofNat 32 srcNode, BitVec.ofNat 32 srcPort, BitVec.ofNat 32 dstNode,
    BitVec.ofNat 32 dstPort, type % 256, confirmRx ≠ 0⟩, hdrMaxSize, size)

def readHdrV2 : Rx (Cb × Nat × Nat) := do
  let optlen ← readWord buf 3 1
  let type ← readWord buf 1 1
  let flags ← readWord buf 2 1
  let srcNode ← readWord buf 8 2
  let srcPort ← readWord buf 10 2
  let dstNode ← readWord buf 12 2
  let dstPort ← readWord buf 14 2
  let size ← readWord buf 4 4
  pure (⟨BitVec.ofNat 32 srcNode, portV2 srcPort, BitVec.ofNat 32 dstNode, portV2 dstPort, type,
    flags % 2 ≠ 0⟩, hdrV2Size + optlen, size)

def readHdr (len : Nat) : Rx (Cb × Nat × Nat) := do
  let ver ← readWord buf 0 1
  if ver = protoVer1 then if len < hdrMaxSize then fail (-EINVAL) else readHdrV1 buf
  else if ver = protoVer2 then if len < hdrV2Size then fail (-EINVAL) else readHdrV2 buf
  else fail (-EINVAL)

/-- `skb_store_bits` at the start of the packet; it writes nothing where there is no room. -/
def skbStoreBits (skb : Skb) (bs : List UInt8) : Skb :=
  if skb.len < bs.length then skb
  else { skb with
    head := poke skb.head skb.data (bs.take (skbHeadlen skb))
    frags := fillFrags skb.frags (bs.drop (skbHeadlen skb)) }

/-- A NEW_SERVER packet may name a node behind the endpoint. -/
def readAssigned (cb : Cb) (hdrlen : Nat) : Rx (List U32) :=
  if cb.type = typeNewServer then do
    let node ← readWord buf (hdrlen + 12) 4
    pure [cb.srcNode, BitVec.ofNat 32 node]
  else pure [cb.srcNode]

/-- `qrtr_endpoint_post` of the `len` bytes at the start of `buf`. -/
def endpointPostSkb (env : RxEnv) (len : Nat) : Rx Posted :=
  if len = 0 ∨ len % 4 ≠ 0 then fail (-EINVAL)
  else
    match env.skb with
    | none => fail (-ENOMEM)
    | some skb => do
      let skb := skbReserve skb hdrMaxSize
      let (cb, hdrlen, size) ← readHdr buf len
      let cb := if cb.dstPort = portCtrlLegacy then { cb with dstPort := portCtrl } else cb
      if size = 0 ∨ len ≠ align size 4 + hdrlen then fail (-EINVAL)
      else if (cb.type = typeNewServer ∨ cb.type = typeResumeTx) ∧ size < ctrlPktSize then
        fail (-EINVAL)
      else if cb.dstPort ≠ portCtrl ∧ cb.type ≠ typeData ∧ cb.type ≠ typeResumeTx then
        fail (-EINVAL)
      else do
        emit ⟨hdrlen, size⟩
        let skb := skbStoreBits { skb with dataLen := size, len := size } (peek buf hdrlen size)
        let assigned ← readAssigned buf cb hdrlen
        if cb.type ≠ typeData ∨ cb.dstNode ≠ env.localNid then pure ⟨cb, skb, false, assigned⟩
        else if !env.portLookup cb.dstPort then fail (-ENODEV)
        else if !env.queueRcv then fail (-EINVAL)
        else pure ⟨cb, skb, true, assigned⟩

/-- `ALIGN(x, 4)` of an unsigned int. -/
def alignU32 (x : Nat) : Nat := (x + 3) % 2 ^ 32 / 4 * 4

/-- An unsigned int returned as an int. -/
def toInt32 (x : Nat) : Int := (BitVec.ofNat 32 x).toInt

def peekPktSize : Int :=
  let ver := leNat (peek buf 0 1)
  if ver = protoVer1 then toInt32 (alignU32 (leNat (peek buf 20 4)) + hdrMaxSize)
  else if ver = protoVer2 then
    toInt32 (alignU32 (leNat (peek buf 4 4)) + (hdrV2Size + leNat (peek buf 3 1)))
  else -EINVAL

/-- The header length and the size that the header declares. -/
def declaredHdrlen : Nat :=
  if leNat (peek buf 0 1) = protoVer1 then hdrMaxSize else hdrV2Size + leNat (peek buf 3 1)

def declaredSize : Nat :=
  if leNat (peek buf 0 1) = protoVer1 then leNat (peek buf 20 4) else leNat (peek buf 4 4)

end

/-- What the allocation may return for a packet of `len` bytes: fragments with room for it. -/
structure RxFresh (len : Nat) (skb : Skb) : Prop where
  room : len ≤ fragsSize skb.frags

/-- The receiver as the delivery of messages sees it. -/
def RxEnv.peer (env : RxEnv) : Peer := ⟨env.skb.isSome, env.localNid, env.portLookup, env.queueRcv⟩

def Posted.queued (r : Posted) : Queued := ⟨r.cb, r.skb.bytes, r.toSocket⟩

section
variable {P : Read → Prop} {E : Int → Prop} {Q : Cb × Nat × Nat → Prop}

theorem readWord_bind_meets {α : Type} {off k : Nat} {f : Nat → Rx α} {Q : α → Prop} (h : P ⟨off, k⟩)
    (hf : (f (leNat (peek buf off k))).Meets P E Q) : (readWord buf off k >>= f).Meets P E Q := by
  rw [readWord, bind_assoc]
  exact meets_emit_bind h hf

/-- The header is read inside the buffer, and tells the version, the header length and the size. -/
theorem readHdr_meets (hlen : 0 < len) : (readHdr buf len).Meets (fun r => r.off + r.len ≤ len) (fun _ => True)
      (fun h => (leNat (peek buf 0 1) = protoVer1 ∨ leNat (peek buf 0 1) = protoVer2) ∧
        h.2.1 = declaredHdrlen buf ∧ h.2.2 = declaredSize buf) := by
  refine readWord_bind_meets hlen ?_
  by_cases h1 : leNat (peek buf 0 1) = protoVer1
  · rw [if_pos h1]
    by_cases hshort : len < hdrMaxSize
    · rw [if_pos hshort]
      exact meets_fail trivial
    · have hroom : 32 ≤ len := not_lt.mp hshort
      rw [if_neg hshort]
      iterate 7 refine readWord_bind_meets (by dsimp only; omega) ?_
      refine meets_pure ⟨.inl h1, ?_, ?_⟩
      · rw [declaredHdrlen, if_pos h1]
      · rw [declaredSize, if_pos h1]
  · rw [if_neg h1]
    by_cases h2 : leNat (peek buf 0 1) = protoVer2
    · rw [if_pos h2]
      by_cases hshort : len < hdrV2Size
      · rw [if_pos hshort]
        exact meets_fail trivial
      · have hroom : 16 ≤ len := not_lt.mp hshort
        rw [if_neg hshort]
        iterate 8 refine readWord_bind_meets (by dsimp only; omega) ?_
        refine meets_pure ⟨.inr h2, ?_, ?_⟩
        · rw [declaredHdrlen, if_neg h1]
        · rw [declaredSize, if_neg h1]
    · rw [if_neg h2]
      exact meets_fail trivial

theorem readAssigned_meets {cb : Cb} (h : cb.type = typeNewServer → P ⟨hdrlen + 12, 4⟩) :
    (readAssigned buf cb hdrlen).Meets P E (fun _ => True) := by
  unfold readAssigned
  split
  · rename_i htype
    exact readWord_bind_meets (h htype) (meets_pure trivial)
  · exact meets_pure trivial

end

section

/-- A buffer with room for it holds the packet. -/
theorem bytes_skbStoreBits (hroom : bytes.length ≤ fragsSize skb.frags) :
    (skbStoreBits { skb with dataLen := bytes.length, len := bytes.length } bytes).bytes = bytes := by
  have hhead : skbHeadlen { skb with dataLen := bytes.length, len := bytes.length } = 0 :=
    Nat.sub_self _
  rw [skbStoreBits, if_neg (lt_irrefl _), hhead]
  refine ext_getElem (length_peek _ _ _) (fun i h₁ h₂ => ?_)
  have hget : fragByte (fillFrags skb.frags bytes) i = bytes[i] := fragByte_fillFrags hroom h₂
  rw [← hget]
  simp [Skb.bytes, peek, Skb.byte, skbHeadlen]

/-- The packet behind a header is stored in a buffer with room for it. -/
theorem bytes_stored (buf : Nat → UInt8) (hdrlen : Nat) (hroom : size ≤ fragsSize skb.frags) :
    (skbStoreBits { skbReserve skb hdrMaxSize with dataLen := size, len := size } (peek buf hdrlen size)).bytes =
      peek buf hdrlen size := by
  have hstored : (peek buf hdrlen size).length = size := length_peek _ _ _
  have hbytes := bytes_skbStoreBits (show _ ≤ fragsSize (skbReserve skb hdrMaxSize).frags from hroom.trans' hstored.le)
  rwa [hstored] at hbytes

end

section

/-- The padded size and the header length, where they do not overflow. -/
theorem toInt32_align (h : align size 4 + hdrlen < 2 ^ 31) :
    toInt32 (alignU32 size + hdrlen) = ↑(align size 4 + hdrlen) := by
  have halign : alignU32 size = align size 4 := by
    unfold align at h
    unfold alignU32 align
    rw [Nat.mod_eq_of_lt (by omega)]
  have hnat : (BitVec.ofNat 32 (align size 4 + hdrlen)).toNat = align size 4 + hdrlen := by
    rw [BitVec.toNat_ofNat, Nat.mod_eq_of_lt (by omega)]
  rw [toInt32, halign, BitVec.toInt_eq_toNat_of_lt (by omega), hnat]

theorem peekPktSize_eq (hver : leNat (peek buf 0 1) = protoVer1 ∨ leNat (peek buf 0 1) = protoVer2)
    (h : align (declaredSize buf) 4 + declaredHdrlen buf < 2 ^ 31) :
    peekPktSize buf = ↑(align (declaredSize buf) 4 + declaredHdrlen buf) := by
  unfold declaredSize declaredHdrlen at h ⊢
  by_cases h1 : leNat (peek buf 0 1) = protoVer1
  · rw [if_pos h1, if_pos h1] at h ⊢
    rw [peekPktSize, if_pos h1, toInt32_align h]
  · have h2 := hver.resolve_left h1
    rw [if_neg h1, if_neg h1] at h ⊢
    rw [peekPktSize, if_neg h1, if_pos h2, toInt32_align h]

/-- The size is a matter of the header alone. -/
theorem peekPktSize_congr (h : ∀ i < declaredHdrlen buf, stream i = buf i) : peekPktSize stream = peekPktSize buf := by
  have hword : ∀ off k, off + k ≤ declaredHdrlen buf → peek stream off k = peek buf off k :=
    fun off k hk => peek_congr (fun i _ hi => h i (by omega))
  unfold declaredHdrlen hdrMaxSize hdrV2Size at hword
  unfold peekPktSize
  by_cases h1 : leNat (peek buf 0 1) = protoVer1
  · rw [if_pos h1] at hword
    rw [hword 0 1 (by omega), hword 20 4 (by omega), if_pos h1, if_pos h1]
  · rw [if_neg h1] at hword
    rw [hword 0 1 (by omega), hword 3 1 (by omega), hword 4 4 (by omega)]
    simp [if_neg h1]

end

section

/-- What `qrtr_endpoint_post` reads, and what it has checked when it queues a packet. -/
theorem endpointPostSkb_meets (env : RxEnv) (hfresh : ∀ skb ∈ env.skb, RxFresh len skb) :
    (endpointPostSkb buf env len).Meets (fun r => r.off + r.len ≤ len) (fun _ => True)
      (fun r => (leNat (peek buf 0 1) = protoVer1 ∨ leNat (peek buf 0 1) = protoVer2) ∧
        len = align (declaredSize buf) 4 + declaredHdrlen buf ∧ r.skb.len = declaredSize buf ∧
        r.skb.bytes = peek buf (declaredHdrlen buf) (declaredSize buf)) := by
  unfold endpointPostSkb
  by_cases hlen : len = 0 ∨ len % 4 ≠ 0
  · rw [if_pos hlen]
    exact meets_fail trivial
  rw [if_neg hlen]
  cases hskb : env.skb with
  | none => exact meets_fail trivial
  | some skb =>
    have hroom := (hfresh skb hskb).room
    refine (readHdr_meets (by omega)).bind ?_
    rintro ⟨cb, hdrlen, size⟩ ⟨hver, hhdrlen, hsize⟩
    dsimp only at hhdrlen hsize ⊢
    generalize (if cb.dstPort = portCtrlLegacy then { cb with dstPort := portCtrl } else cb) = cb
    split
    · exact meets_fail trivial
    rename_i hframe
    split
    · exact meets_fail trivial
    rename_i hctrl
    split
    · exact meets_fail trivial
    obtain ⟨-, hframe⟩ := not_or.mp hframe
    have hframe := Decidable.not_not.mp hframe
    have halign := (align_four size).1
    have hbytes := bytes_stored buf hdrlen (show size ≤ fragsSize skb.frags by omega)
    refine meets_emit_bind (by dsimp only; omega) ?_
    refine (readAssigned_meets (fun htype => ?_)).bind (fun assigned _ => ?_)
    · have hge : ¬ size < ctrlPktSize := fun hlt => hctrl ⟨.inl htype, hlt⟩
      unfold ctrlPktSize at hge
      dsimp only
      omega
    have hdone : (leNat (peek buf 0 1) = protoVer1 ∨ leNat (peek buf 0 1) = protoVer2) ∧
        len = align (declaredSize buf) 4 + declaredHdrlen buf ∧
        (skbStoreBits { skbReserve skb hdrMaxSize with dataLen := size, len := size }
          (peek buf hdrlen size)).len = declaredSize buf ∧
        (skbStoreBits { skbReserve skb hdrMaxSize with dataLen := size, len := size }
          (peek buf hdrlen size)).bytes = peek buf (declaredHdrlen buf) (declaredSize buf) := by
      rw [← hhdrlen, ← hsize]
      refine ⟨hver, hframe, ?_, hbytes⟩
      rw [skbStoreBits, if_neg (by rw [length_peek]; exact lt_irrefl _)]
    split
    · exact meets_pure hdone
    split
    · exact meets_fail trivial
    split
    · exact meets_fail trivial
    · exact meets_pure hdone

theorem take_drop_peek {off k : Nat} (h : off + k ≤ len) : ((peek buf 0 len).drop off).take k = peek buf off k := by
  obtain ⟨j, rfl⟩ : ∃ j, len = off + (k + j) := ⟨len - off - k, by omega⟩
  rw [peek_add, drop_left' (length_peek _ _ _), zero_add, peek_add, take_left' (length_peek _ _ _)]

theorem word_peek {off k : Nat} (h : off + k ≤ len) : word (peek buf 0 len) off k = leNat (peek buf off k) :=
  congrArg leNat (take_drop_peek h)

theorem readAssigned_ok (buf : Nat → UInt8) (cb : Cb) (hdrlen : Nat) : ∃ ids, (readAssigned buf cb hdrlen).res = .ok ids := by
  unfold readAssigned
  split
  · exact ⟨_, rfl⟩
  · exact ⟨_, rfl⟩

theorem res_readWord_bind {α : Type} (off k : Nat) (f : Nat → Rx α) :
    (readWord buf off k >>= f).res = (f (leNat (peek buf off k))).res := rfl

theorem readHdr_res (hlen : 0 < len) : (readHdr buf len).res = match parseHdr (peek buf 0 len) with
    | none => .error (-EINVAL) | some h => .ok h := by
  have hword : ∀ off k, off + k ≤ len → word (peek buf 0 len) off k = leNat (peek buf off k) :=
    fun _ _ => word_peek
  rw [readHdr, res_readWord_bind, parseHdr, hword 0 1 hlen, length_peek]
  by_cases h1 : leNat (peek buf 0 1) = protoVer1
  · rw [if_pos h1, if_pos h1]
    by_cases hshort : len < hdrMaxSize
    · rw [if_pos hshort, if_pos hshort]
      rfl
    · have hroom : 32 ≤ len := not_lt.mp hshort
      rw [if_neg hshort, if_neg hshort, hword 8 4 (by omega), hword 12 4 (by omega), hword 24 4 (by omega),
        hword 28 4 (by omega), hword 4 4 (by omega), hword 16 4 (by omega), hword 20 4 (by omega)]
      rfl
  · rw [if_neg h1, if_neg h1]
    by_cases h2 : leNat (peek buf 0 1) = protoVer2
    · rw [if_pos h2, if_pos h2]
      by_cases hshort : len < hdrV2Size
      · rw [if_pos hshort, if_pos hshort]
        rfl
      · have hroom : 16 ≤ len := not_lt.mp hshort
        rw [if_neg hshort, if_neg hshort, hword 8 2 (by omega), hword 10 2 (by omega), hword 12 2 (by omega),
          hword 14 2 (by omega), hword 1 1 (by omega), hword 2 1 (by omega), hword 3 1 (by omega), hword 4 4 (by omega)]
        rfl
    · rw [if_neg h2, if_neg h2]
      rfl

/-- The receiver that delivers messages is the one that reads the buffer. -/
theorem endpointPostSkb_refines (env : RxEnv) (hfresh : ∀ skb ∈ env.skb, RxFresh len skb) :
    (endpointPostSkb buf env len).res.map Posted.queued = endpointPost env.peer (peek buf 0 len) := by
  unfold endpointPostSkb endpointPost
  rw [length_peek]
  by_cases hlen : len = 0 ∨ len % 4 ≠ 0
  · rw [if_pos hlen, if_pos hlen]
    rfl
  rw [if_neg hlen, if_neg hlen]
  cases hskb : env.skb with
  | none =>
    simp only [RxEnv.peer, hskb]
    rfl
  | some skb =>
    have hroom := (hfresh skb hskb).room
    have hread : (readHdr buf len).res = _ := readHdr_res (by omega)
    simp only [RxEnv.peer, hskb, Option.isSome_some, Bool.not_true, Bool.false_eq_true, if_false]
    cases hparse : parseHdr (peek buf 0 len) with
    | none =>
      rw [hparse] at hread
      rw [bind_of_error hread]
      rfl
    | some h =>
      obtain ⟨cb, hdrlen, size⟩ := h
      rw [hparse] at hread
      rw [res_bind_of_ok hread]
      dsimp only
      generalize (if cb.dstPort = portCtrlLegacy then { cb with dstPort := portCtrl } else cb) = cb
      split
      · rfl
      rename_i hframe
      split
      · rfl
      split
      · rfl
      obtain ⟨-, hframe⟩ := not_or.mp hframe
      have hframe := Decidable.not_not.mp hframe
      have halign := (align_four size).1
      have hbytes := bytes_stored buf hdrlen (show size ≤ fragsSize skb.frags by omega)
      obtain ⟨ids, hids⟩ := readAssigned_ok buf cb hdrlen
      rw [take_drop_peek (by omega), res_bind_of_ok (m := emit _) (a := ()) rfl, res_bind_of_ok hids]
      split
      · exact congrArg (fun bs => Except.ok (⟨cb, bs, false⟩ : Queued)) hbytes
      split
      · rfl
      split
      · rfl
      · exact congrArg (fun bs => Except.ok (⟨cb, bs, true⟩ : Queued)) hbytes

/-- The bytes of the stream, with anything behind them. -/
def streamBuf (bytes : List UInt8) : Nat → UInt8 := fun i => bytes.getD i 0

/-- A stream transport takes the next packet off the stream, if it is there. -/
def cutPacket (bytes : List UInt8) : Option (List UInt8 × List UInt8) :=
  if 0 ≤ peekPktSize (streamBuf bytes) ∧ peekPktSize (streamBuf bytes) ≤ bytes.length then
    some (bytes.splitAt (peekPktSize (streamBuf bytes)).toNat)
  else none

theorem streamBuf_append {i : Nat} (h : i < len) : streamBuf (peek buf 0 len ++ rest) i = buf i := by
  have hget : (peek buf 0 len)[i]? = some (buf (0 + i)) := getElem?_peek h
  rw [streamBuf, getD_eq_getElem?_getD, getElem?_append_left (by rwa [length_peek]), hget,
    zero_add, Option.getD_some]

theorem cutPacket_of_peek (h : peekPktSize (streamBuf (peek buf 0 len ++ rest)) = (len : Int)) :
    cutPacket (peek buf 0 len ++ rest) = some (peek buf 0 len, rest) := by
  have hlen : (peek buf 0 len ++ rest).length = len + rest.length := by
    rw [length_append, length_peek]
  rw [cutPacket, h, if_pos ⟨by omega, by omega⟩, Int.toNat_natCast, splitAt_eq,
    take_left' (length_peek _ _ _), drop_left' (length_peek _ _ _)]

end

/-- A packet that `qrtr_endpoint_post` accepts is read inside its buffer and queued with the bytes
that its header declares, and `qrtr_peek_pkt_size` gives its length, so that it is cut off a stream
as a whole. -/
theorem accepted_packet_framed (buf : Nat → UInt8) (env : RxEnv) (len : Nat) (hlen : len < 2 ^ 31)
    (hfresh : ∀ skb ∈ env.skb, RxFresh len skb) (r : Posted) (hres : (endpointPostSkb buf env len).res = .ok r) :
    (∀ a ∈ (endpointPostSkb buf env len).log, a.off + a.len ≤ len) ∧
    declaredHdrlen buf + declaredSize buf ≤ len ∧ r.skb.len = declaredSize buf ∧
    r.skb.bytes = peek buf (declaredHdrlen buf) (declaredSize buf) ∧
    (∀ stream : Nat → UInt8, (∀ i < declaredHdrlen buf, stream i = buf i) → peekPktSize stream = (len : Int)) ∧
    ∀ rest, cutPacket (peek buf 0 len ++ rest) = some (peek buf 0 len, rest) := by
  have hmeets : (endpointPostSkb buf env len).Meets _ _ _ := endpointPostSkb_meets env hfresh
  obtain ⟨hver, hframe, hskb, hbytes⟩ := hmeets.returned r hres
  have halign := (align_four (declaredSize buf)).1
  have hpeek : ∀ stream : Nat → UInt8, (∀ i < declaredHdrlen buf, stream i = buf i) →
      peekPktSize stream = (len : Int) := by
    intro stream h
    rw [peekPktSize_congr h, peekPktSize_eq hver (by omega), ← hframe]
  refine ⟨hmeets.logged, by omega, hskb, hbytes, hpeek, fun rest => cutPacket_of_peek ?_⟩
  exact hpeek _ (fun i hi => streamBuf_append (by omega))

section

/-- A version 2 packet with four bytes of options and five bytes of payload. -/
def v2Packet : Nat → UInt8 :=
  streamBuf [3, 1, 0, 4, 5, 0, 0, 0, 2, 0, 9, 0, 1, 0, 7, 0, 0xee, 0xee, 0xee, 0xee,
    10, 11, 12, 13, 14, 0, 0, 0]

def onePage : Skb := ⟨fun _ => 0, 0, 0, 32, [⟨4096, fun _ => 0⟩], 0, 0⟩

def listening : RxEnv := ⟨some onePage, 1, fun _ => true, true⟩

theorem v2Packet_framed : ∃ r, (endpointPostSkb v2Packet listening 28).res = .ok r ∧ r.toSocket = true ∧
      r.skb.bytes = [10, 11, 12, 13, 14] ∧ peekPktSize v2Packet = 28 := by
  refine ⟨_, rfl, rfl, ?_⟩
  have hfresh : ∀ skb ∈ listening.skb, RxFresh 28 skb := by
    intro skb hskb
    cases hskb
    exact ⟨by decide⟩
  obtain ⟨-, -, -, hbytes, hpeek, -⟩ :=
    accepted_packet_framed v2Packet listening 28 (by decide) hfresh _ rfl
  exact ⟨hbytes.trans (by decide), hpeek v2Packet (fun _ _ => rfl)⟩

theorem v2Packet_refines : (endpointPostSkb v2Packet listening 28).res.map Posted.queued =
    endpointPost listening.peer (peek v2Packet 0 28) := by
  refine endpointPostSkb_refines listening fun skb hskb => ?_
  cases hskb
  exact ⟨by decide⟩

end

end Sm8850.Qrtr
