import Sm8850.Qrtr.Receive

/-! For which message lengths the send path hands the transport a packet that the peer
takes as it was sent. -/
namespace Sm8850.Qrtr

open Memory List Option
open Sm8850.Ns (U32 SockaddrQrtr)

variable {fs : List Frag} {bs msg : List UInt8} {skb : Skb} {i len : Nat}

section

theorem align_four (x : Nat) : x ≤ align x 4 ∧ align x 4 < x + 4 ∧ align x 4 % 4 = 0 := by
  unfold align
  omega

theorem align_page (x : Nat) :
    x ≤ align x pageSize ∧ align x pageSize < x + pageSize ∧ pageSize ∣ align x pageSize := by
  unfold align pageSize
  omega

theorem subU32_eq {x y : Nat} (hyx : y ≤ x) (hx : x < 2 ^ 32) : subU32 x y = x - y := by
  unfold subU32
  omega

end

section

theorem fragsSize_cons (f : Frag) (fs : List Frag) : fragsSize (f :: fs) = f.size + fragsSize fs := by
  simp [fragsSize]

theorem fragsSize_fillFrags (fs : List Frag) (bs : List UInt8) : fragsSize (fillFrags fs bs) = fragsSize fs := by
  induction fs generalizing bs with
  | nil => rfl
  | cons f fs ih => rw [fillFrags, fragsSize_cons, fragsSize_cons, ih]

theorem pages_fillFrags {p : Nat → Prop} (h : ∀ f ∈ fs, p f.size) (bs : List UInt8) :
    ∀ f ∈ fillFrags fs bs, p f.size := by
  induction fs generalizing bs with
  | nil => simp [fillFrags]
  | cons f fs ih =>
    intro f' hf'
    rcases mem_cons.mp hf' with rfl | hf'
    · exact h f (by simp)
    · exact ih (fun f hf => h f (.tail _ hf)) _ f' hf'

/-- Filled fragments hold the bytes in order. -/
theorem fragByte_fillFrags (hroom : bs.length ≤ fragsSize fs) (hi : i < bs.length) :
    fragByte (fillFrags fs bs) i = bs[i] := by
  induction fs generalizing bs i with
  | nil =>
    have hzero : bs.length ≤ 0 := hroom
    omega
  | cons f fs ih =>
    rw [fragsSize_cons] at hroom
    simp only [fillFrags, fragByte]
    by_cases hf : i < f.size
    · have hlen : i < (bs.take f.size).length := by
        rw [length_take]
        omega
      have hget : poke f.mem 0 (bs.take f.size) (0 + i) = (bs.take f.size)[i] := poke_inside hlen
      rw [zero_add] at hget
      rw [if_pos hf, hget, getElem_take]
    · have hlen : i - f.size < (bs.drop f.size).length := by
        rw [length_drop]
        omega
      rw [if_neg hf, ih (by rw [length_drop]; omega) hlen, getElem_drop]
      congr 1
      omega

end

section
variable {H x pad D j k m : Nat}

/-- `k` whole pages from page `j` on. -/
def pagesFrom (j k : Nat) : List (Nat × Nat) :=
  (range' j k).map (fun j => (j * pageSize, pageSize))

theorem pagesFrom_zero (j : Nat) : pagesFrom j 0 = [] := rfl

theorem pagesFrom_succ (j k : Nat) : pagesFrom j (k + 1) = (j * pageSize, pageSize) :: pagesFrom (j + 1) k := by
  simp [pagesFrom, range'_succ]

theorem fragPages_eq (m : Nat) : fragPages (m * pageSize) = pagesFrom 0 m := by
  have hm : (m * pageSize + (pageSize - 1)) / pageSize = m := by
    unfold pageSize
    omega
  rw [fragPages, hm, pagesFrom, ← range_eq_range']
  refine map_congr_left (fun j hj => ?_)
  have hj' : j < m := mem_range.mp hj
  have hle : (j + 1) * pageSize ≤ m * pageSize := Nat.mul_le_mul_right _ hj'
  rw [min_eq_left (by unfold pageSize at *; omega)]

/-- The padding is written right behind the last byte of the packet. -/
theorem padFit_pages (mem : Nat → UInt8) (hx : x % 4 = 0) (hpad : 0 < pad ∧ pad < 4) (hlo : j * pageSize ≤ x)
    (hhi : x + pad ≤ (j + k) * pageSize) (h32 : H + x < 2 ^ 32) :
    ∃ c, padFit (H + x + pad) (pagesFrom j k) ⟨H + j * pageSize, pad, H + x, D⟩ mem =
      (⟨c, pad, H + x + pad, D + pad⟩, poke mem x (zeros pad)) := by
  induction k generalizing j with
  | zero =>
    rw [add_zero] at hhi
    omega
  | succ k ih =>
    have hsucc : (j + 1) * pageSize = j * pageSize + pageSize := Nat.succ_mul j pageSize
    have hfour : (j * pageSize) % 4 = 0 := by
      unfold pageSize
      omega
    simp only [pagesFrom_succ, padFit]
    by_cases hnext : H + j * pageSize + pageSize < H + x + pad
    · rw [if_pos hnext]
      have hpage : pageSize % 4 = 0 := rfl
      have hle : (j + 1) * pageSize ≤ x := by omega
      have hhi' : x + pad ≤ (j + 1 + k) * pageSize := by
        rw [add_right_comm, add_assoc]
        exact hhi
      obtain ⟨c, hc⟩ := ih hle hhi'
      refine ⟨c, ?_⟩
      rw [← hc, hsucc, add_assoc H (j * pageSize)]
    · have hoff : subU32 (H + x) (H + j * pageSize) = x - j * pageSize := by
        rw [subU32_eq (by omega) h32]
        omega
      have hx' : j * pageSize + (x - j * pageSize) = x := by omega
      refine ⟨H + j * pageSize + (x - j * pageSize + pad), ?_⟩
      rw [if_neg hnext]
      simp [hoff, hx']

theorem fragByte_poke {f : Frag} (hx : x + bs.length ≤ f.size) :
    fragByte ({ f with mem := poke f.mem x bs } :: fs) i =
      if x ≤ i then (bs[i - x]?).getD (fragByte (f :: fs) i) else fragByte (f :: fs) i := by
  simp only [fragByte]
  by_cases hi : i < f.size
  · rw [if_pos hi, if_pos hi]
    rfl
  · rw [if_neg hi, if_neg hi, getElem?_eq_none (by omega), getD_none, ite_self]

/-- Where the last page has room, the fragments get the zeros behind the last byte. -/
theorem padFrags_fit (hpages : ∀ f ∈ fs, 0 < f.size ∧ pageSize ∣ f.size) (hx : x % 4 = 0)
    (hpad : 0 < pad ∧ pad < 4) (hpage : x % pageSize ≠ 0) (hroom : x ≤ fragsSize fs) (h32 : H + x < 2 ^ 32) :
    ∃ fs' c, padFrags (H + x + pad) fs ⟨H, pad, H + x, D⟩ = (fs', ⟨c, pad, H + x + pad, D + pad⟩) ∧
      ∀ i, fragByte fs' i = if x ≤ i then ((zeros pad)[i - x]?).getD (fragByte fs i) else fragByte fs i := by
  induction fs generalizing H x with
  | nil =>
    have hzero : x = 0 := by simpa [fragsSize] using hroom
    simp [hzero] at hpage
  | cons f fs ih =>
    obtain ⟨hpos, m, hm⟩ := hpages f (by simp)
    rw [mul_comm] at hm
    rw [fragsSize_cons] at hroom
    simp only [padFrags]
    by_cases hskip : H + f.size < H + x
    · rw [if_pos hskip]
      have hsum : H + f.size + (x - f.size) = H + x := by omega
      obtain ⟨fs', c, hfs, hbyte⟩ := ih (H := H + f.size) (x := x - f.size)
        (fun f hf => hpages f (.tail _ hf)) (by unfold pageSize at hm; omega)
        (by unfold pageSize at *; omega) (by omega) (by omega)
      rw [hsum] at hfs
      refine ⟨f :: fs', c, by simp only [hfs], ?_⟩
      intro i
      simp only [fragByte, hbyte]
      by_cases hi : i < f.size
      · rw [if_pos hi, if_pos hi, if_neg (show ¬ x ≤ i by omega)]
      · rw [if_neg hi, if_neg hi]
        by_cases hxi : x ≤ i
        · have hidx : i - f.size - (x - f.size) = i - x := by omega
          rw [if_pos (show x - f.size ≤ i - f.size by omega), if_pos hxi, hidx]
        · rw [if_neg (show ¬ x - f.size ≤ i - f.size by omega), if_neg hxi]
    · have hfit : x + pad ≤ f.size := by
        unfold pageSize at *
        omega
      have hle : H + x + pad ≤ H + f.size := by omega
      rw [if_neg hskip]
      simp only [if_pos hle]
      rw [hm, fragPages_eq]
      obtain ⟨c, hc⟩ := padFit_pages (H := H) (j := 0) (k := m) (D := D) f.mem hx hpad
        (by omega) (by rw [zero_add]; omega) h32
      rw [zero_mul, add_zero] at hc
      simp only [hc, if_true]
      refine ⟨{ f with mem := poke f.mem x (zeros pad) } :: fs, c, by rw [hm], ?_⟩
      intro i
      exact fragByte_poke (by simpa [zeros] using hfit)

theorem fragsSize_eq_zero (hpages : ∀ f ∈ fs, 0 < f.size ∧ pageSize ∣ f.size) (h : fragsSize fs = 0) : fs = [] := by
  cases fs with
  | nil => rfl
  | cons f fs =>
    have hpos := (hpages f (by simp)).1
    rw [fragsSize_cons] at h
    omega

/-- In a fragment that the packet fills, no padding is written and the length stays. -/
theorem padSplit_full (mem : Nat → UInt8) (hpad : 0 < pad) (hk : 0 < k) (h32 : H + (j + k) * pageSize < 2 ^ 32) :
    (padSplit (H + (j + k) * pageSize + pad) (pagesFrom j k)
      ⟨H + j * pageSize, pad, H + (j + k) * pageSize, D⟩ mem).1.len = H + (j + k) * pageSize := by
  induction k generalizing j with
  | zero => omega
  | succ k ih =>
    have hsucc : (j + 1) * pageSize = j * pageSize + pageSize := Nat.succ_mul j pageSize
    have hswap : j + 1 + k = j + (k + 1) := by omega
    simp only [pagesFrom_succ, padSplit]
    by_cases hlast : k = 0
    · subst hlast
      rw [zero_add] at h32 ⊢
      have hoff : subU32 (H + (j + 1) * pageSize) (H + j * pageSize) = pageSize := by
        rw [subU32_eq (by omega) h32]
        omega
      have hnone : subU32 pageSize pageSize = 0 := by
        rw [subU32_eq (le_rfl) (by decide), Nat.sub_self]
      rw [if_neg (by omega), if_pos (by omega)]
      simp [hoff, hnone, pagesFrom_zero, padSplit]
    · have hlt : (j + 1) * pageSize < (j + (k + 1)) * pageSize :=
        Nat.mul_lt_mul_of_pos_right (by omega) (by decide)
      rw [if_pos (by omega)]
      have ih' := ih (j := j + 1) (by omega) (by rw [hswap]; exact h32)
      rw [hswap, hsucc, ← add_assoc H] at ih'
      exact ih'

/-- Where the packet fills the fragments, `qrtr_pad_word_pskb` leaves its length as it was. -/
theorem padFrags_full (hpages : ∀ f ∈ fs, 0 < f.size ∧ pageSize ∣ f.size) (hpad : 0 < pad)
    (hfull : fragsSize fs = x) (h32 : H + x < 2 ^ 32) :
    (padFrags (H + x + pad) fs ⟨H, pad, H + x, D⟩).2.len = H + x := by
  induction fs generalizing H x with
  | nil => rfl
  | cons f fs ih =>
    obtain ⟨hpos, m, hm⟩ := hpages f (by simp)
    rw [mul_comm] at hm
    have htail : ∀ f ∈ fs, 0 < f.size ∧ pageSize ∣ f.size :=
      fun f hf => hpages f (.tail _ hf)
    rw [fragsSize_cons] at hfull
    simp only [padFrags]
    by_cases hskip : H + f.size < H + x
    · have hsum : H + f.size + fragsSize fs = H + x := by omega
      rw [if_pos hskip]
      have ih' := ih (H := H + f.size) htail rfl (by omega)
      rw [hsum] at ih'
      exact ih'
    · have hnil : fs = [] := fragsSize_eq_zero htail (by omega)
      have hx : x = m * pageSize := by
        rw [← hm, ← hfull, hnil]
        rfl
      have hm0 : 0 < m := Nat.pos_of_ne_zero (fun h => by simp [h] at hm; omega)
      have hsplit := padSplit_full (H := H) (j := 0) (k := m) (D := D) f.mem hpad hm0
        (by rw [zero_add, ← hx]; exact h32)
      rw [zero_mul, add_zero, zero_add, ← hx, ← fragPages_eq, ← hm] at hsplit
      rw [if_neg hskip]
      simp only [if_neg (show ¬ H + x + pad ≤ H + f.size by omega)]
      rw [if_neg (by omega), hnil]
      exact hsplit

end

section
variable {type c size : Nat} {src dst : SockaddrQrtr} {rest : List UInt8}

theorem length_hdrV1 : (hdrV1 type src dst c size).length = hdrMaxSize := by
  simp [hdrV1, hdrMaxSize]

theorem word_hdrV1 {bytes : List UInt8} {k w : Nat} (hb : bytes = hdrV1 type src dst c size ++ rest)
    (hk : [protoVer1, type, src.sqNode.toNat, src.sqPort.toNat, c, size, dst.sqNode.toNat,
      dst.sqPort.toNat][k]? = some w) (hw : w < 2 ^ 32) : word bytes (4 * k) 4 = w := by
  obtain ⟨hlt, hget⟩ := List.getElem?_eq_some_iff.mp hk
  rw [hb, word, hdrV1, take_drop_words _ _ hlt, hget]
  exact leNat_leBytes_of_lt hw

theorem parseHdr_hdrV1 {bytes : List UInt8} (hb : bytes = hdrV1 type src dst c size ++ rest)
    (htype : type < 256) (hsize : size < 2 ^ 32) (hc : c < 2) : parseHdr bytes =
      some (⟨src.sqNode, src.sqPort, dst.sqNode, dst.sqPort, type, c ≠ 0⟩, hdrMaxSize, size) := by
  have hver : word bytes 0 1 = protoVer1 := by
    simp [hb, word, hdrV1, leBytes_succ, leNat, protoVer1]
  have hlen : ¬ bytes.length < hdrMaxSize := by
    rw [hb, length_append, length_hdrV1]
    omega
  have htyp : word bytes 4 4 = type := word_hdrV1 (k := 1) hb rfl (by omega)
  have hsrcNode : word bytes 8 4 = src.sqNode.toNat := word_hdrV1 (k := 2) hb rfl src.sqNode.isLt
  have hsrcPort : word bytes 12 4 = src.sqPort.toNat := word_hdrV1 (k := 3) hb rfl src.sqPort.isLt
  have hconf : word bytes 16 4 = c := word_hdrV1 (k := 4) hb rfl (by omega)
  have hsiz : word bytes 20 4 = size := word_hdrV1 (k := 5) hb rfl hsize
  have hdstNode : word bytes 24 4 = dst.sqNode.toNat := word_hdrV1 (k := 6) hb rfl dst.sqNode.isLt
  have hdstPort : word bytes 28 4 = dst.sqPort.toNat := word_hdrV1 (k := 7) hb rfl dst.sqPort.isLt
  rw [parseHdr, if_pos hver, if_neg hlen, htyp, hsrcNode, hsrcPort, hconf, hsiz, hdstNode, hdstPort,
    Nat.mod_eq_of_lt htype]
  simp

end

/-- What the transport and the peer are to get for `msg`, where the header names `dst`. -/
structure Delivered (dst : SockaddrQrtr) (msg : List UInt8) (skb : Skb) : Prop where
  size : word skb.bytes 20 4 = msg.length
  total : skb.len = align msg.length 4 + hdrMaxSize
  payload : (skb.bytes.drop hdrMaxSize).take msg.length = msg
  pad : ∀ b ∈ skb.bytes.drop (hdrMaxSize + msg.length), b = 0
  linear : skb.len - skb.dataLen = skb.tail - skb.data
  accepted : ∀ peer : Peer, peer.Ready dst →
    ∃ q, endpointPost peer skb.bytes = .ok q ∧ q.data = msg

section
variable {c : Nat} {src dst : SockaddrQrtr} {bytes : List UInt8}

theorem rx_cb (srcNode srcPort dstNode port : U32) (type : Nat) (confirmRx : Bool) :
    (if port = portCtrlLegacy then (⟨srcNode, srcPort, dstNode, portCtrl, type, confirmRx⟩ : Cb)
      else ⟨srcNode, srcPort, dstNode, port, type, confirmRx⟩) =
      ⟨srcNode, srcPort, dstNode, rxPort port, type, confirmRx⟩ := by
  unfold rxPort
  by_cases h : port = portCtrlLegacy
  · rw [if_pos h, if_pos h]
  · rw [if_neg h, if_neg h]

theorem endpointPost_accepts {peer : Peer} {pad : Nat} (hpeer : peer.Ready dst)
    (h1 : 1 ≤ msg.length) (h2 : msg.length ≤ 65535) (hc : c < 2) (hpad : msg.length + pad = align msg.length 4)
    (hb : bytes = hdrV1 typeData src dst c msg.length ++ (msg ++ zeros pad)) :
    ∃ q, endpointPost peer bytes = .ok q ∧ q.data = msg := by
  have halign := align_four msg.length
  have hlen : bytes.length = align msg.length 4 + hdrMaxSize := by
    rw [hb, length_append, length_hdrV1, length_append, zeros, length_replicate, hpad, add_comm]
  have hdata : (bytes.drop hdrMaxSize).take msg.length = msg := by
    rw [hb, drop_left' length_hdrV1, take_left]
  have hparse := parseHdr_hdrV1 hb (by decide) (by omega) hc
  have hnonempty : ¬ (bytes.length = 0 ∨ bytes.length % 4 ≠ 0) := by
    unfold hdrMaxSize at hlen
    omega
  have hsize : ¬ (msg.length = 0 ∨ bytes.length ≠ align msg.length 4 + hdrMaxSize) := by omega
  have hctrl : ¬ ((typeData = typeNewServer ∨ typeData = typeResumeTx) ∧ msg.length < ctrlPktSize) := by
    simp [typeData, typeNewServer, typeResumeTx]
  rw [endpointPost, if_neg hnonempty, hpeer.alloc, hparse]
  simp only [Bool.not_true, Bool.false_eq_true, if_false, rx_cb, if_neg hsize, if_neg hctrl, hdata,
    ne_eq, not_true_eq_false, false_and, and_false, false_or]
  by_cases hlocal : dst.sqNode = peer.localNid
  · rw [if_neg (not_not_intro hlocal), hpeer.bound hlocal, hpeer.queueRcv]
    exact ⟨_, rfl, rfl⟩
  · rw [if_pos hlocal]
    exact ⟨_, rfl, rfl⟩

theorem delivered_of_bytes {pad : Nat} (h1 : 1 ≤ msg.length) (h2 : msg.length ≤ 65535) (hc : c < 2)
    (hpad : msg.length + pad = align msg.length 4)
    (hb : skb.bytes = hdrV1 typeData src dst c msg.length ++ (msg ++ zeros pad))
    (hlinear : skb.len - skb.dataLen = skb.tail - skb.data) : Delivered dst msg skb where
  size := word_hdrV1 (k := 5) hb rfl (by omega)
  total := by
    have hlen : skb.bytes.length = skb.len := length_peek _ _ _
    rw [← hlen, hb, length_append, length_hdrV1, length_append, zeros, length_replicate, hpad, add_comm]
  payload := by rw [hb, drop_left' length_hdrV1, take_left]
  pad := by
    intro b hbmem
    rw [hb, ← drop_drop, drop_left' length_hdrV1, drop_left] at hbmem
    exact eq_of_mem_replicate hbmem
  linear := hlinear
  accepted := fun _ hpeer => endpointPost_accepts hpeer h1 h2 hc hpad hb

end

section
variable {hdr : List UInt8} {x : Nat}

/-- The packet with its header and the message in it, of which the last `x` bytes are in the
fragments. -/
def loaded (skb : Skb) (hdr msg : List UInt8) (x : Nat) : Skb where
  head := poke (poke skb.head hdrMaxSize (msg.take (msg.length - x))) 0 hdr
  data := 0
  tail := hdrMaxSize + (msg.length - x)
  limit := skb.limit
  frags := fillFrags skb.frags (msg.drop (msg.length - x))
  len := msg.length + hdrMaxSize
  dataLen := x

theorem bytes_loaded (hhdr : hdr.length = hdrMaxSize) (hx : x ≤ msg.length)
    (hroom : x ≤ fragsSize skb.frags) : (loaded skb hdr msg x).bytes = hdr ++ msg := by
  have hheadlen : skbHeadlen (loaded skb hdr msg x) = hdrMaxSize + (msg.length - x) := by
    simp only [skbHeadlen, loaded]
    omega
  refine ext_getElem ?_ (fun i h₁ h₂ => ?_)
  · rw [Skb.bytes, length_peek, length_append, hhdr]
    exact add_comm _ _
  · rw [length_append] at h₂
    have hbyte : (loaded skb hdr msg x).bytes[i] = (loaded skb hdr msg x).byte (0 + i) := by
      simp [Skb.bytes, peek]
    rw [hbyte, Skb.byte, hheadlen]
    by_cases hi : i < hdr.length
    · rw [if_pos (by omega), getElem_append_left hi]
      show poke _ 0 hdr (0 + (0 + i)) = hdr[i]
      rw [zero_add i, poke_inside hi]
    · rw [getElem_append_right (by omega)]
      obtain ⟨k, rfl⟩ : ∃ k, i = hdrMaxSize + k := ⟨i - hdrMaxSize, by omega⟩
      have hk : hdrMaxSize + k - hdr.length = k := by omega
      simp only [hk, zero_add]
      by_cases hlin : k < msg.length - x
      · have hlen : k < (msg.take (msg.length - x)).length := by
          rw [length_take]
          omega
        rw [if_pos (by omega)]
        show poke (poke skb.head hdrMaxSize _) 0 hdr (0 + (hdrMaxSize + k)) = msg[k]
        rw [zero_add, poke_outside (by omega), poke_inside hlen, getElem_take]
      · have hlen : hdrMaxSize + k - (hdrMaxSize + (msg.length - x)) <
            (msg.drop (msg.length - x)).length := by
          rw [length_drop]
          omega
        rw [if_neg (by omega)]
        show fragByte (fillFrags skb.frags _) _ = msg[k]
        rw [fragByte_fillFrags (by rw [length_drop]; omega) hlen, getElem_drop]
        congr 1
        omega

/-- The destination that the header names. -/
def hdrDst (env : NodeEnv) (dst : SockaddrQrtr) : SockaddrQrtr :=
  if dst.sqPort = portCtrl then ⟨env.nid, portCtrl⟩ else dst

/-- HELLO was sent, the flow has room and the endpoint is there. -/
structure NodeEnv.Open (env : NodeEnv) : Prop where
  helloSent : env.helloSent = true
  txWait : 0 ≤ env.txWait
  ep : env.ep = true

def confirmRx (env : NodeEnv) : Nat := if env.txWait ≠ 0 then 1 else 0

theorem nodeEnqueue_data {env : NodeEnv} (henv : env.Open) (src dst : SockaddrQrtr) :
    nodeEnqueue env skb typeData src dst =
      let skb' := { skbPush skb hdrMaxSize with
        head := poke skb.head (skb.data - hdrMaxSize)
          (hdrV1 typeData src (hdrDst env dst) (confirmRx env) skb.len) }
      if skb.dataLen ≠ 0 then some (padWordPskb skb')
      else skbPutPadto env.expand skb' (align skb.len 4 + hdrMaxSize) := by
  have hhello : ¬ env.helloSent = (typeData == typeHello) := by
    rw [henv.helloSent]
    decide
  have htx : ¬ env.txWait < 0 := not_lt.mpr henv.txWait
  rw [nodeEnqueue, if_neg hhello, if_neg htx, henv.ep]
  rfl

theorem skbCopyFromIter_some (h : bs.length ≤ skbHeadlen skb + fragsSize skb.frags) :
    skbCopyFromIter skb bs = some { skb with
      head := poke skb.head skb.data (bs.take (skbHeadlen skb))
      frags := fillFrags skb.frags (bs.drop (skbHeadlen skb)) } :=
  if_pos h

/-- Up to the padding, the message is in the packet as it should be. -/
theorem sendData_loaded {g : Geometry} {alloc : Request → Option Skb} {env : NodeEnv} {nid : U32}
    {src dst : SockaddrQrtr} {plen pdataLen : Nat} (henv : env.Open) (hx : x ≤ msg.length)
    (hroom : x ≤ pdataLen)
    (hsock : sockAllocSkbSend g alloc nid msg.length = allocLinear alloc msg.length plen x pdataLen)
    (halloc : alloc ⟨hdrMaxSize + (plen - x), pdataLen⟩ = some skb)
    (hfresh : Fresh ⟨hdrMaxSize + (plen - x), pdataLen⟩ skb) :
    sendData g alloc env nid src dst msg =
      let skb' := loaded skb (hdrV1 typeData src (hdrDst env dst) (confirmRx env) msg.length) msg x
      if x ≠ 0 then some (padWordPskb skb')
      else skbPutPadto env.expand skb' (align msg.length 4 + hdrMaxSize) := by
  have htotal : fragsSize skb.frags = pdataLen := hfresh.total
  have hcopy : msg.length ≤ msg.length - x + fragsSize skb.frags := by omega
  rw [sendData, hsock, allocLinear, halloc]
  simp only [map_some, bind_eq_bind, bind_some, skbPut, skbReserve, hfresh.data, hfresh.tail]
  rw [skbCopyFromIter_some hcopy, bind_some, nodeEnqueue_data henv]
  rfl

theorem bytes_padded {skb' : Skb} {k : Nat} (hlen : skb'.len = skb.len + k)
    (hold : ∀ i < skb.len, skb'.byte i = skb.byte i)
    (hnew : ∀ i < k, skb'.byte (skb.len + i) = 0) : skb'.bytes = skb.bytes ++ zeros k := by
  rw [Skb.bytes, hlen, peek_add, Skb.bytes]
  congr 1
  · exact peek_congr (fun i _ hi => hold i (by omega))
  · refine eq_replicate_of_mem (fun b hb => ?_) |>.trans (by rw [length_peek, zeros])
    obtain ⟨i, hi, rfl⟩ := mem_map.mp hb
    rw [zero_add]
    exact hnew i (mem_range.mp hi)

theorem byte_linear (h : i < skbHeadlen skb) : skb.byte i = skb.head (skb.data + i) := if_pos h

theorem byte_frags (h : ¬ i < skbHeadlen skb) : skb.byte i = fragByte skb.frags (i - skbHeadlen skb) := if_neg h

theorem getElem?_zeros {k : Nat} (h : i < k) : (zeros k)[i]? = some 0 := by
  simp [zeros, h]

theorem skbPutPadto_linear (expand : Bool) (skb : Skb) {k : Nat} (hlin : skb.dataLen = 0)
    (htail : skb.data + skb.len = skb.tail) (hroom : skb.tail + k ≤ skb.limit) :
    ∃ skb', skbPutPadto expand skb (skb.len + k) = some skb' ∧
      skb'.bytes = skb.bytes ++ zeros k ∧ skb'.len - skb'.dataLen = skb'.tail - skb'.data := by
  rw [skbPutPadto, Nat.add_sub_cancel_left]
  by_cases h0 : k = 0
  · subst h0
    rw [if_pos (by omega)]
    exact ⟨skb, rfl, by simp [zeros], by omega⟩
  · rw [if_neg (by omega), if_pos (.inl hroom)]
    refine ⟨_, rfl, bytes_padded rfl (fun i hi => ?_) (fun i hi => ?_), ?_⟩
    · rw [byte_linear (show i < skb.len - skb.dataLen by omega),
        byte_linear (show i < skb.len + k - skb.dataLen by omega)]
      exact poke_outside (.inl (by show skb.data + i < skb.data + skb.len; omega))
    · rw [byte_linear (show skb.len + i < skb.len + k - skb.dataLen by omega)]
      show poke skb.head (skb.data + skb.len) (zeros k) (skb.data + (skb.len + i)) = 0
      rw [← add_assoc, poke, if_pos (by omega), Nat.add_sub_cancel_left, getElem?_zeros hi]
      rfl
    · show skb.len + k - skb.dataLen = skb.tail + k - skb.data
      omega

/-- `qrtr_pad_word_pskb`, where the last page has room for the padding. -/
theorem padWordPskb_fit {k : Nat} (hk : skb.len + k = align skb.len 4)
    (hpages : ∀ f ∈ skb.frags, 0 < f.size ∧ pageSize ∣ f.size) (hx : skb.dataLen ≤ skb.len)
    (hroom : skb.dataLen ≤ fragsSize skb.frags) (hx4 : skb.dataLen % 4 = 0)
    (hpage : k = 0 ∨ skb.dataLen % pageSize ≠ 0) (h32 : skb.len < 2 ^ 32) :
    ∃ frags, padWordPskb skb = { skb with frags := frags, len := skb.len + k, dataLen := skb.dataLen + k } ∧
      (padWordPskb skb).bytes = skb.bytes ++ zeros k := by
  have halign := align_four skb.len
  have hsum : skbHeadlen skb + skb.dataLen = skb.len := Nat.sub_add_cancel hx
  rw [padWordPskb]
  simp only [← hk, Nat.add_sub_cancel_left]
  by_cases h0 : k = 0
  · subst h0
    exact ⟨skb.frags, by simp, by simp [zeros]⟩
  · obtain ⟨fs, c, hfs, hbyte⟩ := padFrags_fit (H := skbHeadlen skb) (D := skb.dataLen) hpages hx4
      ⟨Nat.pos_of_ne_zero h0, by omega⟩ (hpage.resolve_left h0) hroom (by omega)
    rw [hsum] at hfs
    rw [if_neg h0, hfs]
    have hheadlen : skb.len + k - (skb.dataLen + k) = skbHeadlen skb := by
      unfold skbHeadlen
      omega
    refine ⟨fs, rfl, bytes_padded rfl (fun i hi => ?_) (fun i hi => ?_)⟩
    · by_cases hlin : i < skbHeadlen skb
      · rw [byte_linear hlin]
        exact byte_linear (by rw [skbHeadlen, hheadlen]; exact hlin)
      · rw [byte_frags hlin, byte_frags (by rw [skbHeadlen, hheadlen]; exact hlin), skbHeadlen,
          hheadlen, hbyte, if_neg (by omega)]
    · rw [byte_frags (by rw [skbHeadlen, hheadlen]; omega), skbHeadlen, hheadlen, hbyte,
        if_pos (by omega), show skb.len + i - skbHeadlen skb - skb.dataLen = i by omega, getElem?_zeros hi]
      rfl

/-- Where the packet fills the fragments, the padding is not accounted for. -/
theorem padWordPskb_full {k : Nat} (hk : skb.len + k = align skb.len 4) (hk0 : 0 < k)
    (hpages : ∀ f ∈ skb.frags, 0 < f.size ∧ pageSize ∣ f.size) (hx : skb.dataLen ≤ skb.len)
    (hfull : fragsSize skb.frags = skb.dataLen) (h32 : skb.len < 2 ^ 32) : (padWordPskb skb).len = skb.len := by
  have hsum : skbHeadlen skb + skb.dataLen = skb.len := Nat.sub_add_cancel hx
  have hlen := padFrags_full (H := skbHeadlen skb) (D := skb.dataLen) hpages hk0 hfull (by omega)
  rw [hsum] at hlen
  rw [padWordPskb]
  simp only [← hk, Nat.add_sub_cancel_left]
  rw [if_neg (by omega)]
  exact hlen

end

section
variable {g : Geometry} {alloc : Request → Option Skb} {env : NodeEnv} {nid : U32}
  {src dst : SockaddrQrtr}

/-- The message lengths for which allocation and padding go together: from a primary node,
padding needs room in the last page of the fragments; from any other node, the message has
to stay linear. -/
def SendsWhole (g : Geometry) (nid : U32) (len : Nat) : Prop :=
  if isPrimary nid then
    align len 4 ≤ g.skbMaxAlloc ∨ len % 4 = 0 ∨ (align len 4 - g.skbMaxAlloc) % pageSize ≠ 0
  else align len 4 ≤ pageSize

instance (g : Geometry) (nid : U32) (len : Nat) : Decidable (SendsWhole g nid len) := by
  unfold SendsWhole
  infer_instance

/-- Every request for whole pages is met. -/
def Allocates (alloc : Request → Option Skb) : Prop :=
  ∀ r, pageSize ∣ r.data → ∃ skb, alloc r = some skb ∧ Fresh r skb

theorem align_add_hdr (len : Nat) : align (len + hdrMaxSize) 4 = align len 4 + hdrMaxSize := by
  unfold align hdrMaxSize
  omega

theorem confirmRx_lt (env : NodeEnv) : confirmRx env < 2 := by
  unfold confirmRx
  split <;> omega

section
variable (halloc : Allocates alloc) (henv : env.Open) (h1 : 1 ≤ msg.length) (h2 : msg.length ≤ 65535)
include halloc henv h1 h2

theorem delivered_linear
    (hsock : sockAllocSkbSend g alloc nid msg.length = allocLinear alloc msg.length (align msg.length 4) 0 0) :
    ∃ skb, sendData g alloc env nid src dst msg = some skb ∧ Delivered (hdrDst env dst) msg skb := by
  obtain ⟨skb, hskb, hfresh⟩ := halloc ⟨hdrMaxSize + (align msg.length 4 - 0), 0⟩ (dvd_zero _)
  obtain ⟨k, hk⟩ : ∃ k, msg.length + k = align msg.length 4 :=
    ⟨_, Nat.add_sub_cancel' (align_four msg.length).1⟩
  have hroom : hdrMaxSize + (align msg.length 4 - 0) ≤ skb.limit := hfresh.room
  have hto : align msg.length 4 + hdrMaxSize = msg.length + hdrMaxSize + k := by omega
  rw [sendData_loaded henv (Nat.zero_le _) (Nat.zero_le _) hsock hskb hfresh]
  simp only [ne_eq, not_true_eq_false, if_false, hto]
  obtain ⟨skb', hsend, hbytes, hlinear⟩ := skbPutPadto_linear (k := k) env.expand
    (loaded skb (hdrV1 typeData src (hdrDst env dst) (confirmRx env) msg.length) msg 0) rfl
    (by show 0 + (msg.length + hdrMaxSize) = hdrMaxSize + (msg.length - 0); omega)
    (by show hdrMaxSize + (msg.length - 0) + k ≤ skb.limit; omega)
  rw [bytes_loaded length_hdrV1 (Nat.zero_le _) (Nat.zero_le _), append_assoc] at hbytes
  exact ⟨skb', hsend, delivered_of_bytes h1 h2 (confirmRx_lt env) hk hbytes hlinear⟩

/-- A packet with fragments is delivered unless there is padding and the fragments are full. -/
theorem delivered_frags_iff {x : Nat} (hx0 : x ≠ 0) (hx : x ≤ msg.length) (hx4 : x % 4 = 0)
    (hsock : sockAllocSkbSend g alloc nid msg.length =
      allocLinear alloc msg.length (align msg.length 4) x (align x pageSize)) :
    (∃ skb, sendData g alloc env nid src dst msg = some skb ∧ Delivered (hdrDst env dst) msg skb) ↔
      msg.length % 4 = 0 ∨ x % pageSize ≠ 0 := by
  obtain ⟨hle, -, hdvd⟩ := align_page x
  obtain ⟨skb, hskb, hfresh⟩ := halloc ⟨hdrMaxSize + (align msg.length 4 - x), align x pageSize⟩ hdvd
  have hal := align_four msg.length
  obtain ⟨k, hk⟩ : ∃ k, msg.length + k = align msg.length 4 := ⟨_, Nat.add_sub_cancel' hal.1⟩
  rw [sendData_loaded henv hx hle hsock hskb hfresh]
  simp only [if_pos hx0]
  obtain ⟨s, hs⟩ : ∃ s,
    loaded skb (hdrV1 typeData src (hdrDst env dst) (confirmRx env) msg.length) msg x = s := ⟨_, rfl⟩
  have hlen : s.len = msg.length + hdrMaxSize := by rw [← hs]; rfl
  have hdata : s.dataLen = x := by rw [← hs]; rfl
  have htotal : fragsSize s.frags = align x pageSize := by
    rw [← hs]
    exact (fragsSize_fillFrags _ _).trans hfresh.total
  have hpages : ∀ f ∈ s.frags, 0 < f.size ∧ pageSize ∣ f.size := by
    rw [← hs]
    exact pages_fillFrags (p := fun n => 0 < n ∧ pageSize ∣ n) hfresh.pages _
  have hpad : s.len + k = align s.len 4 := by
    rw [hlen, align_add_hdr]
    omega
  have h32 : s.len < 2 ^ 32 := by
    rw [hlen, hdrMaxSize]
    omega
  rw [hs]
  constructor
  · rintro ⟨skb', hsend, hdel⟩
    by_contra hcon
    have hfull : align x pageSize = x := by
      unfold align pageSize
      unfold pageSize at hcon
      omega
    have hlen' := padWordPskb_full hpad (by omega) hpages (by omega) (by omega) h32
    rw [some.inj hsend, hdel.total] at hlen'
    omega
  · intro hcond
    obtain ⟨frags, heq, hbytes⟩ := padWordPskb_fit hpad hpages (by omega) (by omega) (by omega)
      (hcond.imp (fun h => by omega) (fun h => by rwa [hdata])) h32
    rw [← hs, bytes_loaded length_hdrV1 hx (by rw [hfresh.total]; exact hle), append_assoc, hs] at hbytes
    refine ⟨_, rfl, delivered_of_bytes h1 h2 (confirmRx_lt env) hk hbytes ?_⟩
    have htail : s.tail = hdrMaxSize + (msg.length - x) := by rw [← hs]; rfl
    have hzero : s.data = 0 := by rw [← hs]; rfl
    rw [heq]
    show s.len + k - (s.dataLen + k) = s.tail - s.data
    omega

end

/-- From a node that is not primary, the lengths of a packet with fragments do not fit its
linear part: the header is counted as if it came on top of a linear part that `skb_put` never
made. -/
theorem linear_mismatch (g : Geometry) (halloc : Allocates alloc) (henv : env.Open) (nid : U32)
    (hnid : isPrimary nid = false) (src dst : SockaddrQrtr) (msg : List UInt8)
    (h2 : msg.length ≤ 65535) (hlong : pageSize < align msg.length 4) :
    ∃ skb, sendData g alloc env nid src dst msg = some skb ∧
      skb.len - skb.dataLen = 2 * hdrMaxSize ∧ skb.tail - skb.data = hdrMaxSize := by
  have hal := align_four msg.length
  have hmin : min (align msg.length 4 - pageSize) (maxSkbFrags * pageSize) =
      align msg.length 4 - pageSize := by
    unfold maxSkbFrags pageSize
    omega
  have hx0 : align msg.length 4 - pageSize ≠ 0 := by omega
  have hback : align msg.length 4 - (align msg.length 4 - pageSize) = pageSize := by omega
  obtain ⟨hle, -, hdvd⟩ := align_page (align msg.length 4 - pageSize)
  obtain ⟨T, hT⟩ : ∃ T, pageSize + align (align msg.length 4 - pageSize) pageSize = T := ⟨_, rfl⟩
  have hTdvd : pageSize ∣ T := hT ▸ Nat.dvd_add (dvd_refl _) hdvd
  have hT32 : hdrMaxSize < T := by
    unfold hdrMaxSize
    unfold pageSize at hT
    omega
  obtain ⟨skb, hskb, hfresh⟩ := halloc ⟨hdrMaxSize, T⟩ hTdvd
  have hcopy : msg.length ≤ T - (T - hdrMaxSize) + fragsSize skb.frags := by
    rw [hfresh.total]
    show msg.length ≤ T - (T - hdrMaxSize) + T
    omega
  have hdata : T - hdrMaxSize ≠ 0 := by omega
  have haligned : align (T + hdrMaxSize) 4 - (T + hdrMaxSize) = 0 := by
    have hfour : T % 4 = 0 := by
      unfold pageSize at hTdvd
      omega
    unfold align hdrMaxSize
    omega
  rw [sendData, sockAllocSkbSend, hnid]
  simp only [Bool.false_eq_true, if_false, if_pos hlong, hmin, if_pos hx0, hback, hT, hskb,
    map_some, bind_eq_bind, bind_some, skbReserve, hfresh.data, hfresh.tail]
  rw [skbCopyFromIter_some hcopy, bind_some, nodeEnqueue_data henv]
  simp only [if_pos hdata, padWordPskb, skbPush, haligned, if_true]
  refine ⟨_, rfl, ?_, ?_⟩
  · show T + hdrMaxSize - (T - hdrMaxSize) = 2 * hdrMaxSize
    omega
  · show 0 + hdrMaxSize - (0 + hdrMaxSize - hdrMaxSize) = hdrMaxSize
    omega

/-- Exactly the messages whose length `SendsWhole` admits are delivered. -/
theorem send_delivers_iff (g : Geometry) (alloc : Request → Option Skb) (halloc : Allocates alloc)
    (env : NodeEnv) (henv : env.Open) (nid : U32) (src dst : SockaddrQrtr) (msg : List UInt8)
    (h1 : 1 ≤ msg.length) (h2 : msg.length ≤ 65535) :
    (∃ skb, sendData g alloc env nid src dst msg = some skb ∧ Delivered (hdrDst env dst) msg skb) ↔
      SendsWhole g nid msg.length := by
  have hal := align_four msg.length
  have hpage := g.page_le
  have hfour := g.aligned
  unfold SendsWhole
  by_cases hnid : isPrimary nid = true
  · rw [if_pos hnid]
    by_cases hlong : g.skbMaxAlloc < align msg.length 4
    · have hmin : min (align msg.length 4 - g.skbMaxAlloc) (maxSkbFrags * pageSize) =
          align msg.length 4 - g.skbMaxAlloc := by
        unfold maxSkbFrags pageSize
        omega
      have hsock : sockAllocSkbSend g alloc nid msg.length =
          allocLinear alloc msg.length (align msg.length 4) (align msg.length 4 - g.skbMaxAlloc)
            (align (align msg.length 4 - g.skbMaxAlloc) pageSize) := by
        simp [sockAllocSkbSend, if_pos hnid, if_pos hlong, hmin]
      rw [delivered_frags_iff halloc henv h1 h2 (by omega) (by unfold pageSize at hpage; omega)
        (by omega) hsock]
      exact ⟨.inr, fun h => h.resolve_left (by omega)⟩
    · have hsock : sockAllocSkbSend g alloc nid msg.length =
          allocLinear alloc msg.length (align msg.length 4) 0 0 := by
        simp [sockAllocSkbSend, if_pos hnid, if_neg hlong]
      exact ⟨fun _ => .inl (by omega), fun _ => delivered_linear halloc henv h1 h2 hsock⟩
  · rw [if_neg hnid]
    by_cases hlong : pageSize < align msg.length 4
    · refine ⟨?_, fun h => by omega⟩
      rintro ⟨skb, hsend, hdel⟩
      obtain ⟨skb', hsend', hlen, htail⟩ := linear_mismatch g halloc henv nid
        (Bool.not_eq_true _ ▸ hnid) src dst msg h2 hlong
      obtain rfl : skb = skb' := Option.some.inj (hsend.symm.trans hsend')
      have hlin := hdel.linear
      rw [hlen, htail, hdrMaxSize] at hlin
      omega
    · have hsock : sockAllocSkbSend g alloc nid msg.length =
          allocLinear alloc msg.length (align msg.length 4) 0 0 := by
        simp [sockAllocSkbSend, if_neg hnid, if_neg hlong, ne_eq]
      exact ⟨fun _ => by omega, fun _ => delivered_linear halloc henv h1 h2 hsock⟩

end

section

def geometry : Geometry := ⟨16064, by decide, by decide⟩

/-- An allocator that always succeeds and uses one fragment. -/
def oneFrag (r : Request) : Option Skb :=
  some ⟨fun _ => 0, 0, 0, r.header, if r.data = 0 then [] else [⟨r.data, fun _ => 0⟩], 0, 0⟩

theorem oneFrag_allocates : Allocates oneFrag := by
  intro r hr
  refine ⟨_, rfl, rfl, rfl, rfl, rfl, le_rfl, ?_, ?_⟩
  · intro f hf
    by_cases h0 : r.data = 0
    · simp [h0] at hf
    · simp only [if_neg h0, mem_singleton] at hf
      subst hf
      exact ⟨Nat.pos_of_ne_zero h0, hr⟩
  · by_cases h0 : r.data = 0
    · simp [h0, fragsSize]
    · simp [h0, fragsSize]

def openEnv : NodeEnv := ⟨7, true, 0, true, true⟩

theorem openEnv_open : openEnv.Open := ⟨rfl, by decide, rfl⟩

theorem shortMessage_delivered : ∃ skb, sendData geometry oneFrag openEnv 3 ⟨3, 20⟩ ⟨7, 30⟩ [1, 2, 3] = some skb ∧
      Delivered ⟨7, 30⟩ [1, 2, 3] skb :=
  (send_delivers_iff geometry oneFrag oneFrag_allocates openEnv openEnv_open 3 ⟨3, 20⟩ ⟨7, 30⟩
    [1, 2, 3] (by decide) (by decide)).mpr (by decide)

/-- 5000 bytes from node 3: the lengths say that 64 bytes are linear, and only 32 are. -/
theorem longMessage_undelivered :
    ∃ skb, sendData geometry oneFrag openEnv 3 ⟨3, 20⟩ ⟨7, 30⟩ (replicate 5000 1) = some skb ∧
      skb.len - skb.dataLen = 64 ∧ skb.tail - skb.data = 32 ∧ ¬ Delivered ⟨7, 30⟩ (replicate 5000 1) skb := by
  have hlen : (replicate 5000 (1 : UInt8)).length = 5000 := length_replicate
  obtain ⟨skb, hsend, hl, ht⟩ := linear_mismatch geometry oneFrag_allocates openEnv_open 3 rfl
    ⟨3, 20⟩ ⟨7, 30⟩ (replicate 5000 1) (by omega) (by rw [hlen]; decide)
  refine ⟨skb, hsend, hl, ht, ?_⟩
  intro hdel
  have hlin := hdel.linear
  rw [hl, ht, hdrMaxSize] at hlin
  omega

end

end Sm8850.Qrtr
