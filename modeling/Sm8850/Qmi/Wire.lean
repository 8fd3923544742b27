import Sm8850.Qmi.EncodeBounds

/-! The bytes of a message. -/
namespace Sm8850.Qmi

open Memory List Qmi.Group

variable {mem src : Nat → UInt8} {R D E off : Nat} {ps qs : List Piece} {bs cs : List UInt8}

/-- The bytes at `off` are `bs`. -/
def Holds (mem : Nat → UInt8) (off : Nat) (bs : List UInt8) : Prop := peek mem off bs.length = bs

theorem holds_append : Holds mem off (bs ++ cs) ↔ Holds mem off bs ∧ Holds mem (off + bs.length) cs := by
  unfold Holds
  rw [length_append, peek_add]
  constructor
  · intro h
    exact append_inj h (length_peek _ _ _)
  · rintro ⟨h₁, h₂⟩
    rw [h₁, h₂]

/-- The bytes of pieces. -/
def wires (ps : List Piece) : List UInt8 := ps.flatMap Piece.wire

theorem length_wires (ps : List Piece) : (wires ps).length = wireSize ps := by
  simp only [wires, length_flatMap, wireSize]
  rfl

theorem wires_cons (p : Piece) (ps : List Piece) : wires (p :: ps) = p.wire ++ wires ps := rfl

theorem wires_append (ps qs : List Piece) : wires (ps ++ qs) = wires ps ++ wires qs :=
  flatMap_append

/-- A type, a length and a value. -/
def tlv (t : UInt8) (bs : List UInt8) : List UInt8 := t :: leBytes 2 bs.length ++ bs

theorem length_tlv (t : UInt8) (bs : List UInt8) : (tlv t bs).length = tlvHdrSize + bs.length := by
  simp only [tlv, length_append, length_cons, length_leBytes, tlvHdrSize]

/-- Copies as pairs. -/
def outCells (log : List Out) : List (Nat × List UInt8) := log.map (fun w => (w.off, w.bs))

theorem outCells_append (a b : List Out) : outCells (a ++ b) = outCells a ++ outCells b :=
  map_append

theorem copies_append {ws vs : List (Nat × List UInt8)} : Copies src (ws ++ vs) ↔ Copies src ws ∧ Copies src vs := by
  simp [Copies, or_imp, forall_and]

theorem copies_singleton (h : Holds src off bs) : Copies src [(off, bs)] := by
  intro w hw
  rw [mem_singleton.mp hw]
  exact h.symm

theorem copies_outs {p : Piece} (h : Holds src off p.wire) : Copies src (outCells (p.outs off)) := by
  cases p with
  | count width addr n stale => exact copies_singleton h
  | data addr bs => exact copies_singleton h
  | text width addr room bs =>
    obtain ⟨hlen, htext⟩ := holds_append.mp h
    rw [length_leBytes] at htext
    by_cases h0 : width = 0
    · rw [Piece.outs, if_pos h0]
      rw [h0] at htext
      exact copies_singleton htext
    · rw [Piece.outs, if_neg h0]
      exact copies_append.mpr ⟨copies_singleton hlen, copies_singleton htext⟩

theorem copies_placed (h : Holds src (D + E) (wires ps)) : Copies src (outCells (placed D E ps)) := by
  induction ps generalizing E with
  | nil =>
    intro w hw
    cases hw
  | cons p ps ih =>
    obtain ⟨hp, hps⟩ := holds_append.mp h
    rw [placed, outCells_append, copies_append]
    refine ⟨copies_outs hp, ih ?_⟩
    rw [← add_assoc]
    exact hps

section
variable {enc : Table → (src dst outBufLen : Nat) → Enc Nat}
  {nested : Table → (base : Nat) → Run Piece Stop Unit} {size : Group → Nat} {g : Group}
  {gs : List Group} {e : ElemInfo} {base dst v fuel n : Nat}

/-- The TLV of a group. -/
def groupWire (mem : Nat → UInt8) (nested : Table → (base : Nat) → Run Piece Stop Unit) (base : Nat)
    (g : Group) : List UInt8 :=
  tlv g.tlvType (wires (groupPieces mem nested true base 0 g).log)

theorem length_groupWire (mem : Nat → UInt8) (nested : Table → (base : Nat) → Run Piece Stop Unit)
    (base : Nat) (g : Group) : (groupWire mem nested base g).length =
      wireSize (groupPieces mem nested true base 0 g).log + tlvHdrSize := by
  rw [groupWire, length_tlv, length_wires, add_comm]

/-- The message of a table: the TLVs of the groups that are present. -/
def messageWire (mem : Nat → UInt8) (nested : Table → (base : Nat) → Run Piece Stop Unit) (base : Nat)
    (gs : List Group) : List UInt8 :=
  (gs.filter (·.present mem base)).flatMap (groupWire mem nested base)

/-- A call that succeeds has gone through every group. -/
theorem encodeLoop_written (htop : TopLoop mem enc nested size (g :: gs) e)
    (hpresent : g.present mem base) (hR : R < 2 ^ 32)
    (hsize : E + wireSize (groupPieces mem nested true base 0 g).log < 2 ^ 32)
    (hfuel : (g.elems ++ (gs.flatMap elems ++ [e])).length < fuel) (hres : (encodeLoop mem enc 1 base R fuel
      (.front (g.elems ++ (gs.flatMap elems ++ [e])) v dst E)).res = .ok n) :
    ∃ L fuel', E ≤ L ∧ (gs.flatMap elems ++ [e]).length < fuel' ∧
      encodeLoop mem enc 1 base R fuel (.front (g.elems ++ (gs.flatMap elems ++ [e])) v dst E) =
        gated L (dst + tlvHdrSize) E (groupPieces mem nested true base 0 g) >>= fun x =>
          Run.emit ⟨dst + E, g.tlvType :: leBytes 2 (x.1 - E)⟩ >>= fun _ => encodeLoop mem enc 1 base R fuel'
              (.front (gs.flatMap elems ++ [e]) x.2 dst (x.1 + tlvHdrSize)) := by
  have hg := htop.ready g (by simp)
  by_cases hE : E ≤ R
  · obtain ⟨f, hf, heq⟩ := encodeLoop_present hg hpresent v dst E 0 hsize hfuel htop.rest_types hR hE
    exact ⟨R, f, hE, hf, heq⟩
  · obtain ⟨f, hf, heq⟩ := encodeLoop_past hg hpresent v dst E 0 hsize hfuel (by omega) hres
    exact ⟨R + 2 ^ 32, f, by omega, hf, heq⟩

/-- The copies write `bs` from `lo` to `hi`. -/
structure Wrote (log : List Out) (lo hi : Nat) (bs : List UInt8) : Prop where
  length : hi = lo + bs.length
  covers : Covers log lo hi
  copies : ∀ src, Holds src lo bs → Copies src (outCells log)

theorem Wrote.append {a b : List Out} {lo mid hi : Nat} (ha : Wrote a lo mid bs)
    (hb : Wrote b mid hi cs) : Wrote (a ++ b) lo hi (bs ++ cs) where
  length := by
    rw [length_append, hb.length, ha.length]
    omega
  covers := by
    have h₁ := ha.length
    have h₂ := hb.length
    exact ha.covers.append hb.covers (by omega) (by omega)
  copies := by
    intro src h
    obtain ⟨h₁, h₂⟩ := holds_append.mp h
    rw [← ha.length] at h₂
    rw [outCells_append, copies_append]
    exact ⟨ha.copies src h₁, hb.copies src h₂⟩

theorem Wrote.perm {a b : List Out} {lo hi : Nat} (h : Wrote a lo hi bs) (hp : a.Perm b) : Wrote b lo hi bs where
  length := h.length
  covers := h.covers.perm hp
  copies := fun src hsrc w hw => h.copies src hsrc w ((hp.map _).mem_iff.mpr hw)

theorem wrote_singleton (lo : Nat) (bs : List UInt8) : Wrote [⟨lo, bs⟩] lo (lo + bs.length) bs where
  length := rfl
  covers := covers_singleton lo bs
  copies := fun _ h => copies_singleton h

theorem wrote_placed (D E : Nat) (ps : List Piece) :
    Wrote (placed D E ps) (D + E) (D + E + wireSize ps) (wires ps) where
  length := by rw [length_wires]
  covers := covers_placed D E ps
  copies := fun _ h => copies_placed h

/-- A TLV, its header written last. -/
theorem wrote_tlv (t : UInt8) (dst E : Nat) (ps : List Piece) :
    Wrote (placed (dst + tlvHdrSize) E ps ++ [⟨dst + E, t :: leBytes 2 (wireSize ps)⟩]) (dst + E)
      (dst + E + (wireSize ps + tlvHdrSize)) (tlv t (wires ps)) := by
  have hhdr := wrote_singleton (dst + E) (t :: leBytes 2 (wireSize ps))
  have hplaced := wrote_placed (dst + tlvHdrSize) E ps
  rw [length_cons, length_leBytes] at hhdr
  rw [show dst + tlvHdrSize + E = dst + E + (2 + 1) by unfold tlvHdrSize; omega] at hplaced
  rw [tlv, length_wires, show dst + E + (wireSize ps + tlvHdrSize) = dst + E + (2 + 1) + wireSize ps by
    unfold tlvHdrSize; omega]
  exact (hhdr.append hplaced).perm perm_append_comm

/-- The bytes of a message that has been written. -/
theorem Wrote.holds {log : List Out} {lo hi : Nat} (h : Wrote log lo hi bs) (m : Nat → UInt8) :
    Holds (store m (outCells log)) lo bs := by
  have hsrc : Holds (poke m lo bs) lo bs := peek_poke_self m lo bs
  unfold Holds at hsrc ⊢
  rw [← hsrc, length_peek]
  refine peek_congr (fun i hlo hhi => ?_)
  refine store_copies (h.copies _ hsrc) ?_
  obtain ⟨w, hw, hin⟩ := (h.covers.cells i).mpr ⟨hlo, by rw [h.length]; exact hhi⟩
  exact ⟨(w.off, w.bs), mem_map.mpr ⟨w, hw, rfl⟩, hin⟩

/-- When the encoder succeeds, every group that is present can be encoded, and its TLV is in the
message. -/
theorem encodeLoop_ok (htop : TopLoop mem enc nested size gs e) (hR : R < 2 ^ 32)
    (hsize : E + (gs.map size).sum < 2 ^ 32) (hfuel : (gs.flatMap elems ++ [e]).length < fuel)
    (hres : (encodeLoop mem enc 1 base R fuel (.front (gs.flatMap elems ++ [e]) v dst E)).res = .ok n) :
    (∀ g ∈ gs, g.present mem base → ∃ count, (groupPieces mem nested true base 0 g).res = .ok count) ∧
    Wrote (encodeLoop mem enc 1 base R fuel (.front (gs.flatMap elems ++ [e]) v dst E)).log
      (dst + E) (dst + n) (messageWire mem nested base gs) := by
  induction gs generalizing E v fuel with
  | nil =>
    rw [encodeLoop_end htop.eoti rfl (by omega)] at hres ⊢
    cases hres
    refine ⟨fun g hg => ?_, rfl, covers_nil _, fun src _ w hw => ?_⟩
    · cases hg
    · cases hw
  | cons g gs ih =>
    have hg := htop.ready g (by simp)
    have hgsize := hg.size_le base 0
    rw [map_cons, sum_cons] at hsize
    rw [flatMap_cons, append_assoc] at hfuel hres ⊢
    cases hpresent : g.present mem base with
    | false =>
      obtain ⟨f, hf, heq⟩ := encodeLoop_absent hg htop.rest_types hpresent v dst E hfuel
      rw [heq] at hres ⊢
      obtain ⟨hall, hwrote⟩ := ih htop.tail (by omega) hf hres
      refine ⟨fun g' hg' hp => ?_, ?_⟩
      · rcases mem_cons.mp hg' with rfl | hg'
        · rw [hpresent] at hp
          cases hp
        · exact hall g' hg' hp
      · rwa [messageWire, filter_cons_of_neg (by simp [hpresent])]
    | true =>
      obtain ⟨L, f, hL, hf, heq⟩ := encodeLoop_written htop hpresent hR (by omega) hfuel hres
      rw [heq] at hres
      obtain ⟨x, hx, hrest, hlog⟩ := Run.res_bind_ok hres
      obtain ⟨hcount, hsum, -⟩ := gated_ok hL hx
      obtain ⟨E', hE', -⟩ := Run.res_bind_ok hx
      obtain ⟨hall, hwrote⟩ := ih htop.tail (by omega) hf hrest
      refine ⟨fun g' hg' hp => ?_, ?_⟩
      · rcases mem_cons.mp hg' with rfl | hg'
        · exact ⟨x.2, hcount⟩
        · exact hall g' hg' hp
      · rw [heq, hlog, log_gated, log_gate_ok hE', messageWire, filter_cons_of_pos hpresent,
          flatMap_cons, log_emit_bind, append_cons]
        rw [hsum, Nat.add_sub_cancel_left]
        rw [hsum, show dst + (E + wireSize (groupPieces mem nested true base 0 g).log + tlvHdrSize) =
          dst + E + (wireSize (groupPieces mem nested true base 0 g).log + tlvHdrSize) by omega] at hwrote
        exact (wrote_tlv g.tlvType dst E _).append hwrote

theorem qmiEncode_ok {d : Nat} {table : Table} (hT : WellFormed (d + 1) table) (htop : TopTypes table)
    (hmax : maxWire (d + 1) table < 2 ^ 31) (hR : R < 2 ^ 32)
    (hres : (qmiEncode mem (d + 1) 1 table base dst R).res = .ok n) : (∀ g ∈ groups table, g.present mem base →
      ∃ count, (groupPieces mem (pieces mem d) true base 0 g).res = .ok count) ∧
    Wrote (qmiEncode mem (d + 1) 1 table base dst R).log dst (dst + n)
      (messageWire mem (pieces mem d) base (groups table)) := by
  obtain ⟨e, hloop, hsize, hfuel, heq⟩ := qmiEncode_top mem hT htop hmax base dst R
  rw [heq] at hres ⊢
  exact encodeLoop_ok hloop hR hsize hfuel hres

end

end Sm8850.Qmi
