import Sm8850.Hab.Pipe

/-! The pipe as a byte stream: what reads return is what was committed, whatever the size of the
buffer and wherever the counters wrap. -/
namespace Sm8850.Hab
open Lts Stream List Function Nat Prod

variable {bufSize c₀ i₀ index n : U32} {p p' : Pipe} {h h' : History} {c : Copy} {pos k : Nat} {a : Act}
  {s s' : Pipe × History}

/-! ### Copies as positions of the stream -/

/-- The copies are those of `n` bytes from position `pos` of the stream on. -/
structure CopyAt (bufSize i₀ : U32) (c : Copy) (pos : Nat) (n : U32) : Prop where
  total : c.total = n
  cell : ∀ k < n.toNat, c.cell k = (i₀.toNat + (pos + k)) % bufSize.toNat
  next : (readIndex c).toNat = (i₀.toNat + (pos + n.toNat)) % bufSize.toNat
  inside : readIndex c < bufSize

theorem split_count1 (hindex : index < bufSize) :
    (split bufSize index n).count1.toNat = min n.toNat (bufSize.toNat - index.toNat) := by
  change (if n ≤ bufSize - index then n else bufSize - index).toNat = _
  split <;> bv_omega

theorem split_total (bufSize index n : U32) : (split bufSize index n).total = n := by
  change (split bufSize index n).count1 + (n - (split bufSize index n).count1) = n
  bv_omega

theorem split_second (hindex : index < bufSize) (hn : 0 < n) :
    (split bufSize index n).second = wrap bufSize (index + (split bufSize index n).count1) := by
  have hcount := split_count1 (n := n) hindex
  refine if_pos ?_
  change 0 < (split bufSize index n).count1
  bv_omega

theorem toNat_wrap : (wrap bufSize index).toNat = if bufSize.toNat ≤ index.toNat then 0 else index.toNat := by
  unfold wrap
  by_cases h : bufSize ≤ index
  · rw [if_pos h, if_pos (BitVec.le_def.mp h)]
    rfl
  · rw [if_neg h, if_neg (fun h' => h (BitVec.le_def.mpr h'))]

theorem split_at (hB : 0 < bufSize) (hindex : index.toNat = (i₀.toNat + pos) % bufSize.toNat) (hn : 0 < n)
    (hle : n ≤ bufSize) : CopyAt bufSize i₀ (split bufSize index n) pos n := by
  have hlen : 0 < bufSize.toNat := BitVec.lt_def.mp hB
  have hlt : index.toNat < bufSize.toNat := hindex ▸ mod_lt _ hlen
  have hn' : n.toNat ≤ bufSize.toNat := BitVec.le_def.mp hle
  have htotal := split_total bufSize index n
  have hcount := split_count1 (n := n) (BitVec.lt_def.mpr hlt)
  have hsecond := congrArg BitVec.toNat (split_second (BitVec.lt_def.mpr hlt) hn)
  have hmove := index_add hindex (show index.toNat + (split bufSize index n).count1.toNat ≤ bufSize.toNat by omega)
  have hend : (i₀.toNat + (pos + n.toNat)) % bufSize.toNat = (index.toNat + n.toNat) % bufSize.toNat := by
    rw [hindex, mod_add_mod, add_assoc]
  have hstart : (split bufSize index n).start = index := rfl
  generalize split bufSize index n = c at htotal hcount hsecond hmove hstart
  have hcount2 : c.count2.toNat = n.toNat - c.count1.toNat := by
    have : c.count1 + c.count2 = n := htotal
    bv_omega
  have hadd : (index + c.count1).toNat = index.toNat + c.count1.toNat := by
    rw [BitVec.toNat_add, mod_eq_of_lt]
    omega
  rw [toNat_wrap, hadd] at hsecond
  have hzero : c.count1.toNat < n.toNat → c.second.toNat = 0 := by
    intro h
    rw [hsecond, if_pos (by omega)]
  -- the second copy ends before the place where the first one began
  have hnext : (readIndex c).toNat = (i₀.toNat + (pos + n.toNat)) % bufSize.toNat := by
    unfold readIndex
    by_cases h2 : 0 < c.count2
    · have h2' : 0 < c.count2.toNat := BitVec.lt_def.mp h2
      have hsum : (c.second + c.count2).toNat = c.count2.toNat := by
        rw [BitVec.toNat_add, hzero (by omega), zero_add, mod_eq_of_lt c.count2.isLt]
      rw [if_pos h2, hsum, hend, show index.toNat + n.toNat = bufSize.toNat + c.count2.toNat by omega,
        add_mod_left, mod_eq_of_lt (by omega)]
    · have h2' : c.count2.toNat = 0 := Nat.eq_zero_of_not_pos fun h => h2 (BitVec.lt_def.mpr h)
      rw [if_neg h2, hsecond, hmove, show c.count1.toNat = n.toNat by omega, add_assoc]
  refine ⟨htotal, fun k hk => ?_, hnext, BitVec.lt_def.mpr (hnext ▸ mod_lt _ hlen)⟩
  rw [← add_assoc]
  exact cell_split hlen (hstart ▸ hindex) hn' hk (hstart ▸ hcount) hzero

theorem CopyAt.writeEnd_index {tx : TxInfo} (h : CopyAt bufSize i₀ c pos n) :
    (writeEnd tx bufSize c).index = readIndex c := by
  have hinside := h.inside
  unfold writeEnd readIndex at *
  split_ifs at hinside ⊢ with h2
  · exact if_neg (BitVec.not_le.mpr hinside)
  · rfl

theorem CopyAt.writeEnd_count {tx : TxInfo} (h : CopyAt bufSize i₀ c pos n) :
    (writeEnd tx bufSize c).wrCount = tx.wrCount + n := by
  rw [← h.total]
  exact BitVec.add_assoc _ _ _

/-! ### Headers -/

theorem signature_congr {f g : Nat → Byte} (h : ∀ i < 20, f i = g i) : signature f = signature g := by
  unfold signature
  rw [h 12 (by omega), h 13 (by omega), h 14 (by omega), h 15 (by omega)]

theorem Reading.isHead_size (r : Reading) (h : r.isHead) : r.size.toNat = 20 := by
  simp only [isHead, Bool.and_eq_true, beq_iff_eq] at h
  rw [h.2]
  rfl

/-! ### The invariant -/

/-- A write under way: it fits behind what is unread, and the bytes copied so far are in place. -/
structure WritingOk (bufSize i₀ : U32) (data : Nat → Byte) (h : History) (w : Writing) : Prop where
  length : w.bytes.length < 2 ^ 32
  copy : CopyAt bufSize i₀ w.copy h.sent.length (BitVec.ofNat 32 w.bytes.length)
  fits : h.sent.length + w.bytes.length ≤ h.returned.length + bufSize.toNat
  done : w.done ≤ w.bytes.length
  held : Holds bufSize.toNat i₀.toNat data (h.sent ++ w.bytes) h.returned.length (h.sent.length + w.done)

/-- A read under way: it is for committed bytes, and those copied so far are right. -/
structure ReadingOk (bufSize i₀ : U32) (h : History) (r : Reading) : Prop where
  copy : CopyAt bufSize i₀ r.copy h.returned.length r.size
  within : h.returned.length + r.size.toNat ≤ h.committed
  done : r.done ≤ r.size.toNat
  buf : ∀ i < r.done, r.buf i = h.sent.getD (h.returned.length + i) 0
  head : r.isHead = true → signature (fun i => h.sent.getD (h.returned.length + i) 0) = headSignature
  first : r.again = false

structure Inv (bufSize c₀ i₀ : U32) (p : Pipe) (h : History) : Prop where
  order : h.returned.length ≤ h.committed ∧ h.committed ≤ h.sent.length
  full : h.sent.length ≤ h.returned.length + bufSize.toNat
  txCount : p.tx.wrCount = c₀ + BitVec.ofNat 32 h.sent.length
  wrCount : p.sh.wrCount = c₀ + BitVec.ofNat 32 h.committed
  rdCount : p.sh.rdCount = c₀ + BitVec.ofNat 32 h.returned.length
  txIndex : p.tx.index.toNat = (i₀.toNat + h.sent.length) % bufSize.toNat
  rxIndex : p.rxIndex.toNat = (i₀.toNat + h.returned.length) % bufSize.toNat
  returned : h.returned <+: h.sent
  held : Holds bufSize.toNat i₀.toNat p.sh.data h.sent h.returned.length h.sent.length
  mismatch : p.mismatch = false
  writing : ∀ w, p.writing = some w → WritingOk bufSize i₀ p.sh.data h w
  reading : ∀ r, p.reading = some r → ReadingOk bufSize i₀ h r

/-! ### Counters -/

section
variable (hI : Inv bufSize c₀ i₀ p h)
include hI

theorem Inv.unread : (p.tx.wrCount - p.sh.rdCount).toNat = h.sent.length - h.returned.length := by
  have := hI.full
  obtain ⟨h₁, h₂⟩ := hI.order
  rw [hI.txCount, hI.rdCount]
  exact counter_sub c₀ (by omega) (by omega)

theorem Inv.avail : (p.sh.wrCount - p.sh.rdCount).toNat = h.committed - h.returned.length := by
  have := hI.full
  obtain ⟨h₁, h₂⟩ := hI.order
  rw [hI.wrCount, hI.rdCount]
  exact counter_sub c₀ (by omega) (by omega)

/-- A write goes ahead exactly if there is something to write and room for it. -/
theorem Inv.writeBegin_eq (n : U32) : writeBegin p.tx p.sh.rdCount bufSize n =
      if 0 < n.toNat ∧ h.sent.length + n.toNat ≤ h.returned.length + bufSize.toNat then
        some (split bufSize p.tx.index n) else none := by
  have hunread := hI.unread
  have hfull := hI.full
  obtain ⟨h₁, h₂⟩ := hI.order
  have hle : p.tx.wrCount - p.sh.rdCount ≤ bufSize := by
    rw [BitVec.le_def, hunread]
    omega
  have hspace : (bufSize - (p.tx.wrCount - p.sh.rdCount)).toNat =
      bufSize.toNat - (h.sent.length - h.returned.length) := by
    rw [BitVec.toNat_sub_of_le hle, hunread]
  unfold writeBegin
  rw [if_neg (BitVec.not_lt.mpr hle)]
  by_cases hok : 0 < n.toNat ∧ h.sent.length + n.toNat ≤ h.returned.length + bufSize.toNat
  · have hB : 0 < bufSize.toNat := by omega
    have hindex : p.tx.index.toNat < bufSize.toNat := hI.txIndex ▸ mod_lt _ hB
    rw [if_pos hok, if_neg, if_neg]
    · rintro (h | h)
      · exact absurd (BitVec.lt_def.mp h) (by omega)
      · exact absurd (BitVec.lt_def.mp h) (by omega)
    · rintro (h | rfl)
      · exact absurd (BitVec.lt_def.mp h) (by omega)
      · exact absurd hok.1 (lt_irrefl 0)
  · rw [if_neg hok, if_pos]
    by_cases h0 : n = 0
    · exact .inr h0
    · have hpos : n.toNat ≠ 0 := fun h => h0 (BitVec.eq_of_toNat_eq h)
      exact .inl (BitVec.lt_def.mpr (by omega))

/-- A read of committed bytes goes ahead for as many as it asks for. -/
theorem Inv.readBegin_eq {size : U32} (hsize : size.toNat ≤ h.committed - h.returned.length) :
    readBegin p.rxIndex p.sh.wrCount p.sh.rdCount bufSize size =
      if 0 < size.toNat then some (split bufSize p.rxIndex size) else none := by
  have havail := hI.avail
  have hfull := hI.full
  obtain ⟨h₁, h₂⟩ := hI.order
  unfold readBegin
  by_cases h0 : 0 < size.toNat
  · have hB : 0 < bufSize.toNat := by omega
    have hindex : p.rxIndex.toNat < bufSize.toNat := hI.rxIndex ▸ mod_lt _ hB
    rw [if_pos h0, if_neg, if_neg]
    · intro h
      exact absurd (BitVec.lt_def.mp h) (by omega)
    · rintro (h | rfl | h)
      · rw [h] at havail
        change 0 = _ at havail
        omega
      · exact absurd h0 (lt_irrefl 0)
      · exact absurd (BitVec.lt_def.mp h) (by omega)
  · rw [if_neg h0, if_pos]
    exact .inr (.inl (BitVec.eq_of_toNat_eq (Nat.eq_zero_of_not_pos h0)))

end

/-! ### One action -/

theorem toNat_length {bytes : List Byte} (h : bytes.length < 2 ^ 32) :
    (BitVec.ofNat 32 bytes.length).toNat = bytes.length := by
  rw [BitVec.toNat_ofNat, mod_eq_of_lt h]

section
variable (hI : Inv bufSize c₀ i₀ p h)
include hI

theorem Inv.writeBegin {bytes : List Byte} (hlen : bytes.length < 2 ^ 32)
    (hc : writeBegin p.tx p.sh.rdCount bufSize (BitVec.ofNat 32 bytes.length) = some c) :
    Inv bufSize c₀ i₀ { p with writing := some ⟨bytes, c, 0⟩ } h := by
  refine { hI with writing := fun w hw => ?_ }
  cases hw
  rw [hI.writeBegin_eq, toNat_length hlen] at hc
  split at hc
  · rename_i hok
    cases hc
    obtain ⟨h₁, h₂⟩ := hI.order
    have hn : (BitVec.ofNat 32 bytes.length).toNat = bytes.length := toNat_length hlen
    exact ⟨hlen, split_at (BitVec.lt_def.mpr (show 0 < bufSize.toNat by omega)) hI.txIndex
      (BitVec.lt_def.mpr (by rw [hn]; exact hok.1)) (BitVec.le_def.mpr (by rw [hn]; omega)), hok.2, Nat.zero_le _,
      hI.held.append le_rfl⟩
  · cases hc

theorem Inv.writeByte {w : Writing} {b : Byte} (hw : p.writing = some w)
    (hb : w.bytes[w.done]? = some b) :
    Inv bufSize c₀ i₀ { p.store (w.copy.cell w.done) b with writing := some { w with done := w.done + 1 } } h := by
  obtain ⟨hlen, hcopy, hfits, hdone, hheld⟩ := hI.writing w hw
  have hlt : w.done < w.bytes.length := (List.getElem?_eq_some_iff.mp hb).1
  have hcell := hcopy.cell w.done (by rw [toNat_length hlen]; exact hlt)
  refine { hI with held := ?_, writing := fun w' hw' => ?_ }
  · rw [hcell]
    exact hI.held.store_other (by omega) (by omega)
  · cases hw'
    refine ⟨hlen, hcopy, hfits, hlt, ?_⟩
    rw [hcell]
    refine hheld.store (by omega) ?_
    rw [getElem?_append_right (by omega), Nat.add_sub_cancel_left]
    exact hb

theorem Inv.writeEnd {w : Writing} (hw : p.writing = some w)
    (hdone : w.done = w.bytes.length) :
    Inv bufSize c₀ i₀ { p with tx := writeEnd p.tx bufSize w.copy, writing := none }
      { h with sent := h.sent ++ w.bytes } := by
  obtain ⟨hlen, hcopy, hfits, -, hheld⟩ := hI.writing w hw
  obtain ⟨h₁, h₂⟩ := hI.order
  have hlength : (h.sent ++ w.bytes).length = h.sent.length + w.bytes.length := length_append
  have hget : ∀ i, i < h.committed → (h.sent ++ w.bytes).getD i 0 = h.sent.getD i 0 := by
    intro i hi
    rw [getD_eq_getElem?_getD, getElem?_append_left (by omega), ← getD_eq_getElem?_getD]
  exact
    { order := ⟨h₁, by dsimp only; omega⟩
      full := by dsimp only; omega
      txCount := by
        rw [hcopy.writeEnd_count, hI.txCount, hlength, BitVec.ofNat_add, BitVec.add_assoc]
      wrCount := hI.wrCount
      rdCount := hI.rdCount
      txIndex := by
        rw [hcopy.writeEnd_index, hcopy.next, toNat_length hlen, hlength]
      rxIndex := hI.rxIndex
      returned := hI.returned.trans (prefix_append _ _)
      held := by
        rw [hlength, ← hdone]
        exact hheld
      mismatch := hI.mismatch
      writing := nofun
      reading := fun r hr => by
        obtain ⟨hrc, hwithin, hrd, hbuf, hhead, hfirst⟩ := hI.reading r hr
        refine ⟨hrc, hwithin, hrd, fun i hi => ?_, fun hh => ?_, hfirst⟩
        · exact (hbuf i hi).trans (hget _ (by omega)).symm
        · rw [← hhead hh]
          have hsize := r.isHead_size hh
          exact signature_congr fun i hi => hget (h.returned.length + i) (by omega) }

theorem Inv.commit (hw : p.writing = none) :
    Inv bufSize c₀ i₀ { p with sh := { p.sh with wrCount := p.tx.wrCount } } { h with committed := h.sent.length } := by
  obtain ⟨h₁, h₂⟩ := hI.order
  refine { hI with
    order := ⟨h₁.trans h₂, le_rfl⟩
    wrCount := hI.txCount
    writing := fun w hw' => ?_
    reading := fun r hr => ?_ }
  · rw [hw] at hw'
    cases hw'
  · exact { hI.reading r hr with within := (hI.reading r hr).within.trans h₂ }

theorem Inv.readBegin {size : U32} {clear : Bool} {buf : Nat → Byte}
    (hsize : size.toNat ≤ h.committed - h.returned.length) (hhead : clear → size = headerSize →
      signature (fun i => h.sent.getD (h.returned.length + i) 0) = headSignature)
    (hc : readBegin p.rxIndex p.sh.wrCount p.sh.rdCount bufSize size = some c) :
    Inv bufSize c₀ i₀ { p with reading := some ⟨c, size, clear, buf, 0, 0, false⟩ } h := by
  refine { hI with reading := fun r hr => ?_ }
  cases hr
  rw [hI.readBegin_eq hsize] at hc
  split at hc
  · rename_i hpos
    cases hc
    obtain ⟨h₁, h₂⟩ := hI.order
    have hfull := hI.full
    refine ⟨split_at (BitVec.lt_def.mpr (show 0 < bufSize.toNat by omega)) hI.rxIndex (BitVec.lt_def.mpr hpos)
      (BitVec.le_def.mpr (by omega)), by dsimp only; omega, Nat.zero_le _, nofun,
      fun hh => ?_, rfl⟩
    simp only [Reading.isHead, Bool.and_eq_true, beq_iff_eq] at hh
    exact hhead hh.1 hh.2
  · cases hc

theorem Inv.readByte {r : Reading} (hr : p.reading = some r)
    (hlt : r.done < r.copy.total.toNat) :
    Inv bufSize c₀ i₀ { p with reading := some { r with
      buf := update r.buf r.done (p.sh.data (r.copy.cell r.done)), done := r.done + 1 } } h := by
  obtain ⟨hcopy, hwithin, hdone, hbuf, hhead, hfirst⟩ := hI.reading r hr
  obtain ⟨h₁, h₂⟩ := hI.order
  rw [hcopy.total] at hlt
  refine { hI with reading := fun r' hr' => ?_ }
  cases hr'
  refine ⟨hcopy, hwithin, hlt, fun i hi => ?_, hhead, hfirst⟩
  rcases lt_or_eq_of_le (le_of_lt_succ hi) with hi | rfl
  · change update r.buf r.done _ i = _
    rw [update_of_ne (Nat.ne_of_lt hi)]
    exact hbuf i hi
  · change update r.buf r.done _ r.done = _
    have hget : h.sent[h.returned.length + r.done]? = some (h.sent.getD (h.returned.length + r.done) 0) := by
      rw [getD_eq_getElem?_getD, getElem?_eq_getElem (by omega)]
      rfl
    rw [update_self, hcopy.cell _ hlt]
    exact hI.held _ _ (Nat.le_add_right _ _) (by omega) hget

end

section
variable {r : Reading} (hr : ReadingOk bufSize i₀ h r) (hdone : r.done = r.copy.total.toNat)
include hr hdone

/-- When everything is copied, the signature of a header is right. -/
theorem ReadingOk.signature_eq (hh : r.isHead) : signature r.buf = headSignature := by
  rw [← hr.head hh]
  refine signature_congr fun i hi => hr.buf i ?_
  rw [hdone, hr.copy.total, r.isHead_size hh]
  exact hi

theorem ReadingOk.not_retries : r.retries = false := by
  cases hh : r.isHead with
  | false => simp [Reading.retries, hh]
  | true => simp [Reading.retries, hr.signature_eq hdone hh]

theorem ReadingOk.verdict : r.verdict false = false := by
  cases hh : r.isHead with
  | false => simp [Reading.verdict, hh]
  | true => simp [Reading.verdict, hr.signature_eq hdone hh, hr.first]

/-- The bytes of a completed read are the next ones of the stream. -/
theorem ReadingOk.bytes (hcom : h.committed ≤ h.sent.length) :
    (range r.size.toNat).map r.buf = (h.sent.drop h.returned.length).take r.size.toNat := by
  have hwithin := hr.within
  rw [hr.copy.total] at hdone
  refine ext_getElem (by simp; omega) fun i hi _ => ?_
  simp only [length_map, length_range] at hi
  simp only [getElem_map, getElem_range, getElem_take, getElem_drop]
  rw [hr.buf i (by omega), getD_eq_getElem?_getD, getElem?_eq_getElem (by omega)]
  rfl

end

theorem Inv.readEnd (hI : Inv bufSize c₀ i₀ p h) {r : Reading} (hr : p.reading = some r)
    (hdone : r.done = r.copy.total.toNat) :
    Inv bufSize c₀ i₀
      { p with
        rxIndex := readIndex r.copy
        sh := { p.sh with rdCount := p.sh.rdCount + r.copy.total }
        mismatch := false
        reading := none }
      { h with returned := h.returned ++ (range r.copy.total.toNat).map r.buf } := by
  have hok := hI.reading r hr
  obtain ⟨h₁, h₂⟩ := hI.order
  have hfull := hI.full
  have hwithin := hok.within
  have hbytes := hok.bytes hdone h₂
  rw [hok.copy.total, hbytes]
  have hlength : (h.returned ++ (h.sent.drop h.returned.length).take r.size.toNat).length =
      h.returned.length + r.size.toNat := by
    rw [length_append, length_take, length_drop]
    omega
  exact
    { order := ⟨by dsimp only; omega, h₂⟩
      full := by dsimp only; omega
      txCount := hI.txCount
      wrCount := hI.wrCount
      rdCount := by
        rw [hI.rdCount, hlength, BitVec.ofNat_add, BitVec.ofNat_toNat, BitVec.setWidth_eq, BitVec.add_assoc]
      txIndex := hI.txIndex
      rxIndex := by
        rw [hlength]
        exact hok.copy.next
      returned := by
        obtain ⟨rest, hrest⟩ := hI.returned
        have hdrop : h.sent.drop h.returned.length = rest := by rw [← hrest, drop_left]
        rw [hdrop]
        nth_rewrite 2 [← hrest]
        exact prefix_append_right_inj _ |>.mpr ( take_prefix _ _)
      held := hI.held.mono (by rw [hlength]; omega) le_rfl
      mismatch := rfl
      writing := fun w hw => by
        obtain ⟨hlen, hcopy, hfits, hd, hheld⟩ := hI.writing w hw
        refine ⟨hlen, hcopy, ?_, hd, hheld.mono ?_ le_rfl⟩
        · dsimp only
          omega
        · dsimp only
          omega
      reading := nofun }

theorem Step.inv (hs : Step bufSize s a s') (hI : Inv bufSize c₀ i₀ s.1 s.2) : Inv bufSize c₀ i₀ s'.1 s'.2 := by
  cases hs with
  | writeRefused => exact hI
  | writeBegin _ hlen hc => exact hI.writeBegin hlen hc
  | writeByte hw hb => exact hI.writeByte hw hb
  | writeEnd hw hdone => exact hI.writeEnd hw hdone
  | commit hw => exact hI.commit hw
  | readNone => exact hI
  | readBegin _ hsize hhead hc => exact hI.readBegin hsize hhead hc
  | readByte hr hlt => exact hI.readByte hr hlt
  | readRetry hr hdone hretry =>
    rw [(hI.reading _ hr).not_retries hdone] at hretry
    cases hretry
  | readEnd hr hdone _ =>
    have hverdict := (hI.reading _ hr).verdict hdone
    rw [hI.mismatch, hverdict]
    exact hI.readEnd hr hdone

/-! ### Runs -/

/-- A pipe between calls, with equal counts and equal indices. -/
def initial (c₀ i₀ size : U32) (data : Nat → Byte) : Pipe :=
  ⟨⟨c₀, i₀⟩, i₀, ⟨c₀, c₀, size, data⟩, false, none, none⟩

def History.new : History := ⟨[], 0, []⟩

theorem inv_initial {size : U32} {data : Nat → Byte} (hi : bufSize ≠ 0 → i₀ < bufSize) :
    Inv bufSize c₀ i₀ (initial c₀ i₀ size data) History.new := by
  have hindex : i₀.toNat = i₀.toNat % bufSize.toNat := by
    by_cases hB : bufSize = 0
    · rw [hB]
      exact (mod_zero _).symm
    · rw [mod_eq_of_lt (BitVec.lt_def.mp (hi hB))]
  exact ⟨⟨le_rfl, le_rfl⟩, Nat.zero_le _, (BitVec.add_zero _).symm, (BitVec.add_zero _).symm, (BitVec.add_zero _).symm,
    hindex, hindex, prefix_rfl, holds_empty le_rfl, rfl, nofun, nofun⟩

/-- The bytes that reads have returned are the first of the committed ones; the bytes of the writes
that are not read yet are in the buffer; and a write is refused exactly if it does not fit. -/
structure Lossless (bufSize i₀ : U32) (p : Pipe) (h : History) : Prop where
  inOrder : h.returned <+: h.sent.take h.committed
  kept : ∀ i b, h.returned.length ≤ i → h.sent[i]? = some b → p.sh.data ((i₀.toNat + i) % bufSize.toNat) = b
  refused : ∀ n : U32, writeReturn p.tx p.sh.rdCount bufSize n ≠ n ↔
    bufSize.toNat - (h.sent.length - h.returned.length) < n.toNat

/-- A read returns all the bytes it asks for. -/
def ReadsAll (s : Pipe × History) : Act → Pipe × History → Prop
  | .readNone size, _ => size = 0
  | .readEnd, s' => ∃ r, s.1.reading = some r ∧ s'.2.returned.length = s.2.returned.length + r.size.toNat
  | _, _ => True

theorem Inv.lossless (hI : Inv bufSize c₀ i₀ p h) : Lossless bufSize i₀ p h := by
  obtain ⟨h₁, h₂⟩ := hI.order
  refine ⟨?_, fun i b hi hb => ?_, fun n => ?_⟩
  · refine prefix_take_iff.mpr ⟨hI.returned, h₁⟩
  · exact hI.held i b hi (List.getElem?_eq_some_iff.mp hb).1 hb
  · rw [writeReturn, hI.writeBegin_eq]
    by_cases hok : 0 < n.toNat ∧ h.sent.length + n.toNat ≤ h.returned.length + bufSize.toNat
    · rw [if_pos hok, if_pos Option.isSome_some]
      exact iff_of_false (fun h => h rfl) (by omega)
    · rw [if_neg hok, if_neg (by simp)]
      by_cases h0 : n = 0
      · subst h0
        exact iff_of_false (fun h => h rfl) (Nat.not_lt_zero _)
      · have hpos : n.toNat ≠ 0 := fun h => h0 (BitVec.eq_of_toNat_eq h)
        exact iff_of_true (Ne.symm h0) (by omega)

theorem Step.readsAll (hs : Step bufSize s a s') (hI : Inv bufSize c₀ i₀ s.1 s.2) : ReadsAll s a s' := by
  cases hs with
  | readNone _ hsize hnone =>
    rw [hI.readBegin_eq hsize] at hnone
    split at hnone
    · cases hnone
    · rename_i h
      exact BitVec.eq_of_toNat_eq (Nat.eq_zero_of_not_pos h)
  | readEnd hr hdone _ =>
    have hok := hI.reading _ hr
    refine ⟨_, hr, ?_⟩
    rw [hI.mismatch, hok.verdict hdone, length_append, length_map, length_range, ← hok.copy.total]
    rfl
  | writeRefused => trivial
  | writeBegin => trivial
  | writeByte => trivial
  | writeEnd => trivial
  | commit => trivial
  | readBegin => trivial
  | readByte => trivial
  | readRetry => trivial

/-- From equal counts and equal indices on, whatever their values, a pipe of any size is a lossless
byte stream. -/
theorem pipe_lossless {size : U32} {data : Nat → Byte} {run : List (Act × (Pipe × History))}
    (hi : bufSize ≠ 0 → i₀ < bufSize) (hrun : Path (Step bufSize) (initial c₀ i₀ size data, History.new) run) :
    (∀ s ∈ (initial c₀ i₀ size data, History.new) :: run.map snd, Lossless bufSize i₀ s.1 s.2) ∧
      Path ReadsAll (initial c₀ i₀ size data, History.new) run := by
  have hnew : Inv bufSize c₀ i₀ (initial c₀ i₀ size data) History.new := inv_initial hi
  have hstep : ∀ s a s', Step bufSize s a s' → Inv bufSize c₀ i₀ s.1 s.2 → Inv bufSize c₀ i₀ s'.1 s'.2 :=
    fun _ _ _ hs hI => hs.inv hI
  have hinv := hrun.invariant (I := fun s => Inv bufSize c₀ i₀ s.1 s.2) hstep hnew
  exact ⟨fun s hs => (hinv s hs).lossless, hrun.good (I := fun s => Inv bufSize c₀ i₀ s.1 s.2)
    (fun _ _ _ hs hI => ⟨hs.readsAll hI, hs.inv hI⟩) hnew⟩

/-- Three bytes go around the end of a buffer of five while the counters go past 2^32. -/
theorem pipe_lossless_wrap : ∃ run, Path (Step 5) (initial 0xFFFFFFFE 3 5 (fun _ => 0), History.new) run ∧
    ∃ s ∈ run.map snd, s.2.returned = [1, 2, 3] ∧ s.1.sh.rdCount = 1 ∧ s.1.rxIndex = 1 ∧ Lossless 5 3 s.1 s.2 := by
  have hrun : ∃ run, Path (Step 5) (initial 0xFFFFFFFE 3 5 (fun _ => 0), History.new) run ∧
      ∃ s ∈ run.map snd, s.2.returned = [1, 2, 3] ∧ s.1.sh.rdCount = 1 ∧ s.1.rxIndex = 1 := by
    refine ⟨[(.writeBegin [1, 2, 3], _), (.writeByte, _), (.writeByte, _), (.writeByte, _), (.writeEnd, _), (.commit, _),
      (.readBegin 3 false (fun _ => 0), _), (.readByte, _), (.readByte, _), (.readByte, _), (.readEnd, _)],
      ⟨.writeBegin rfl (by decide) rfl, .writeByte rfl rfl, .writeByte rfl rfl, .writeByte rfl rfl, .writeEnd rfl rfl,
        .commit rfl, .readBegin rfl (by decide) (by decide) rfl, .readByte rfl (by decide), .readByte rfl (by decide),
        .readByte rfl (by decide), .readEnd rfl rfl rfl, trivial⟩, _, List.mem_of_getElem? (i := 10) rfl, ?_, ?_, ?_⟩
    · decide +kernel
    · decide +kernel
    · decide +kernel
  obtain ⟨run, hpath, s, hs, hret, hrd, hrx⟩ := hrun
  exact ⟨run, hpath, s, hs, hret, hrd, hrx, (pipe_lossless (fun _ => by decide) hpath).1 s (.tail _ hs)⟩

/-- However the two sides interleave, a write under way stores to no cell that a read under way loads. -/
theorem pipe_calls_apart {size : U32} {data : Nat → Byte} {run : List (Act × (Pipe × History))}
    (hi : bufSize ≠ 0 → i₀ < bufSize) (hrun : Path (Step bufSize) (initial c₀ i₀ size data, History.new) run) :
    ∀ s ∈ (initial c₀ i₀ size data, History.new) :: run.map snd, ∀ w r, s.1.writing = some w → s.1.reading = some r →
      ∀ j < w.bytes.length, ∀ k < r.size.toNat, w.copy.cell j ≠ r.copy.cell k := by
  intro s hs w r hw hr j hj k hk heq
  have hI : Inv bufSize c₀ i₀ s.1 s.2 := hrun.invariant (fun _ _ _ h hI => h.inv hI) (inv_initial hi) s hs
  have hw := hI.writing w hw
  have hr := hI.reading r hr
  have hfits := hw.fits
  have hwithin := hr.within
  have horder := hI.order
  rw [hw.copy.cell j (by rwa [toNat_length hw.length]), hr.copy.cell k hk] at heq
  -- positions less than one lap apart have different cells
  have hdvd := (modEq_iff_dvd' (by omega)).mp (ModEq.add_left_cancel' i₀.toNat heq).symm
  have hlap := le_of_dvd (by omega) hdvd
  omega

theorem pipe_calls_apart_both : ∃ run, let s := (initial 0 3 5 (fun _ => 0), History.new)
    Path (Step 5) s run ∧ ∃ w r, (final s run).1.writing = some w ∧ (final s run).1.reading = some r ∧
      w.copy.cell 0 ≠ r.copy.cell 0 := by
  have hrun : Path (Step 5) (initial 0 3 5 (fun _ => 0), History.new) [(.writeBegin [1], _), (.writeByte, _),
      (.writeEnd, _), (.commit, _), (.readBegin 1 false (fun _ => 0), _), (.writeBegin [2], _)] :=
    ⟨.writeBegin rfl (by decide) rfl, .writeByte rfl rfl, .writeEnd rfl rfl, .commit rfl,
      .readBegin rfl (by decide) (by decide) rfl, .writeBegin rfl (by decide) rfl, trivial⟩
  have hapart := pipe_calls_apart (fun _ => by decide) hrun _ (final_mem _ _)
  exact ⟨_, hrun, _, _, rfl, rfl, hapart _ _ rfl rfl 0 (by decide) 0 (by decide)⟩

end Sm8850.Hab
