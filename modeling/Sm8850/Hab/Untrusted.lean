import Sm8850.Hab.Lossless

/-! One call on a pipe whose shared region holds whatever the peer has stored there: the bytes of the
ring and of the caller's buffer that the call touches. -/
namespace Sm8850.Hab
open List

/-- A byte of `data`, or of the buffer of the caller. -/
inductive Access where
  | ring (cell : Nat)
  | caller (i : Nat)

def Access.Inside (bufSize size : U32) : Access → Prop
  | .ring cell => cell < bufSize.toNat
  | .caller i => i < size.toNat

/-- The bytes of the two copies. -/
def Copy.accesses (c : Copy) : List Access :=
  (range c.total.toNat).flatMap fun k => [.ring (c.cell k), .caller k]

/-- `head->signature`. -/
def headAccesses : List Access := [.caller 12, .caller 13, .caller 14, .caller 15]

/-- From the label `retry` on, with `tries` copies left; `bad` says in which tries the signature is wrong,
as the peer may change the bytes in between. -/
def retryAccesses (c : Copy) (bad : Nat → Bool) (mismatch : Bool) : (tries : Nat) → List Access
  | 0 => headAccesses
  | tries + 1 => headAccesses ++
      if bad tries then c.accesses ++ if mismatch then [] else retryAccesses c bad mismatch tries else []

/-- A call, with what it finds in the shared region; `mismatch` is `signature_mismatch`. -/
inductive Call where
  | write (tx : TxInfo) (rdCount numBytes : U32)
  | read (index wrCount rdCount size : U32) (clear : Bool) (bad : Nat → Bool) (mismatch : Bool)

def Call.size : Call → U32
  | .write _ _ numBytes => numBytes
  | .read _ _ _ size .. => size

def Call.accesses (bufSize : U32) : Call → List Access
  | .write tx rdCount numBytes => ((writeBegin tx rdCount bufSize numBytes).map Copy.accesses).getD []
  | .read index wrCount rdCount size clear bad mismatch =>
    match readBegin index wrCount rdCount bufSize size with
    | none => []
    | some c => c.accesses ++
        if c.total ≠ 0 ∧ clear ∧ size = headerSize then retryAccesses c bad mismatch 1001 else []

/-- The checks before the copies, the size being at most that of the ring. -/
def Call.Passes (bufSize : U32) : Call → Prop
  | .write tx rdCount numBytes => numBytes ≠ 0 ∧ tx.wrCount - rdCount ≤ bufSize ∧
      numBytes ≤ bufSize - (tx.wrCount - rdCount) ∧ tx.index ≤ bufSize
  | .read index wrCount rdCount size .. => size ≠ 0 ∧ wrCount ≠ rdCount ∧ index ≤ bufSize

def Call.index : Call → U32
  | .write tx .. => tx.index
  | .read index .. => index

/-- The call is let through with an index one past the ring. -/
def Call.AtEnd (bufSize : U32) (call : Call) : Prop := call.Passes bufSize ∧ call.index = bufSize

variable {bufSize index n size : U32} {a : Access} {c : Copy}

theorem mem_accesses : a ∈ c.accesses ↔ ∃ k < c.total.toNat, a = .ring (c.cell k) ∨ a = .caller k := by
  simp [Copy.accesses]

theorem mem_retryAccesses {bad : Nat → Bool} {mismatch : Bool} {tries : Nat}
    (h : a ∈ retryAccesses c bad mismatch tries) : a ∈ headAccesses ∨ a ∈ c.accesses := by
  induction tries with
  | zero => exact .inl h
  | succ tries ih =>
    rcases mem_append.mp h with h | h
    · exact .inl h
    · split at h
      · rcases mem_append.mp h with h | h
        · exact .inr h
        · split at h
          · cases h
          · exact ih h
      · cases h

theorem head_inside : ∀ a ∈ headAccesses, a.Inside bufSize headerSize := by
  intro a ha
  simp only [headAccesses, mem_cons, not_mem_nil, or_false] at ha
  rcases ha with rfl | rfl | rfl | rfl <;> simp [Access.Inside, headerSize]

theorem pos_of_ne (h : n ≠ 0) : 0 < n := by bv_omega

/-- One past the ring nothing is left for the first copy, so the index is not wrapped before the second. -/
theorem split_cell_end (hn : 0 < n) : (split bufSize bufSize n).cell 0 = bufSize.toNat := by
  have hcount : (split bufSize bufSize n).count1 = 0 := by
    change (if n ≤ bufSize - bufSize then n else bufSize - bufSize) = 0
    rw [if_neg (by bv_omega)]
    exact BitVec.sub_self _
  have hsecond : (split bufSize bufSize n).second = bufSize := if_neg (by
    change ¬ 0 < (split bufSize bufSize n).count1
    simp [hcount])
  simp [Copy.cell, hcount, hsecond]

theorem split_inside_iff (hn : 0 < n) (hsize : n ≤ size) (hle : n ≤ bufSize) (hindex : index ≤ bufSize) :
    (∀ a ∈ (split bufSize index n).accesses, a.Inside bufSize size) ↔ index ≠ bufSize := by
  have htotal := split_total bufSize index n
  constructor
  · rintro h rfl
    have hin := h (.ring ((split index index n).cell 0))
      (mem_accesses.mpr ⟨0, by rw [htotal]; exact BitVec.lt_def.mp hn, .inl rfl⟩)
    exact absurd (split_cell_end hn ▸ hin) (lt_irrefl _)
  · intro hne a ha
    have hlt : index.toNat < bufSize.toNat := by bv_omega
    obtain ⟨k, hk, ha⟩ := mem_accesses.mp ha
    rw [htotal] at hk
    have hat : CopyAt bufSize index (split bufSize index n) 0 n :=
      split_at (by bv_omega) (Nat.mod_eq_of_lt hlt).symm hn hle
    rcases ha with rfl | rfl
    · change _ < bufSize.toNat
      rw [hat.cell k hk]
      exact Nat.mod_lt _ (by omega)
    · change k < size.toNat
      bv_omega

/-- Every byte that a call touches is inside, unless it runs with an index one past the ring. -/
theorem pipe_inside_iff (bufSize : U32) (call : Call) (hsize : call.size ≤ bufSize) :
    (∀ a ∈ call.accesses bufSize, a.Inside bufSize call.size) ↔ ¬ call.AtEnd bufSize := by
  cases call with
  | write tx rdCount numBytes =>
    by_cases hpass : Call.Passes bufSize (.write tx rdCount numBytes)
    · obtain ⟨hne, hcount, hspace, hindex⟩ := id hpass
      have hbegin : writeBegin tx rdCount bufSize numBytes = some (split bufSize tx.index numBytes) := by
        have hroom : ¬ (bufSize - (tx.wrCount - rdCount) < numBytes ∨ numBytes = 0) :=
          not_or.mpr ⟨BitVec.not_lt.mpr hspace, hne⟩
        have hin : ¬ (bufSize < tx.index ∨ bufSize < numBytes) :=
          not_or.mpr ⟨BitVec.not_lt.mpr hindex, BitVec.not_lt.mpr hsize⟩
        exact (if_neg (BitVec.not_lt.mpr hcount)).trans ((if_neg hroom).trans (if_neg hin))
      have hcopy := split_inside_iff (pos_of_ne hne) (BitVec.le_refl _) hsize hindex
      rw [Call.AtEnd, and_iff_right hpass]
      simp only [Call.accesses, hbegin]
      exact hcopy
    · have hbegin : writeBegin tx rdCount bufSize numBytes = none := by
        cases h : writeBegin tx rdCount bufSize numBytes with
        | none => rfl
        | some c =>
          dsimp only [writeBegin] at h
          split_ifs at h with hcount hspace hindex
          simp only [not_or, BitVec.not_lt] at hcount hspace hindex
          exact absurd ⟨hspace.2, hcount, hspace.1, hindex.1⟩ hpass
      exact iff_of_true (by simp [Call.accesses, hbegin]) fun h => hpass h.1
  | read index wrCount rdCount size clear bad mismatch =>
    by_cases hpass : Call.Passes bufSize (.read index wrCount rdCount size clear bad mismatch)
    · obtain ⟨hpos, hne, hindex⟩ := id hpass
      have hbegin : readBegin index wrCount rdCount bufSize size =
          some (split bufSize index (if wrCount - rdCount < size then wrCount - rdCount else size)) :=
        if_neg (by simp only [not_or, BitVec.not_lt]; exact ⟨by bv_omega, hpos, hindex⟩)
      generalize hread : (if wrCount - rdCount < size then wrCount - rdCount else size) = n at hbegin
      have hn : 0 < n ∧ n ≤ size := by split at hread <;> bv_omega
      have hcopy := split_inside_iff hn.1 hn.2 (BitVec.le_trans hn.2 hsize) hindex
      rw [Call.AtEnd, and_iff_right hpass]
      refine Iff.trans ?_ hcopy
      simp only [Call.accesses, hbegin]
      constructor
      · exact fun h a ha => h a (mem_append_left _ ha)
      · intro h a ha
        rcases mem_append.mp ha with ha | ha
        · exact h a ha
        · split_ifs at ha with hhead
          · rcases mem_retryAccesses ha with ha | ha
            · exact hhead.2.2 ▸ head_inside a ha
            · exact h a ha
          · cases ha
    · have hbegin : readBegin index wrCount rdCount bufSize size = none := by
        refine if_pos (by_contra fun h => hpass ?_)
        simp only [not_or, BitVec.not_lt] at h
        exact ⟨h.2.1, by bv_omega, h.2.2⟩
      exact iff_of_true (by simp [Call.accesses, hbegin]) fun h => hpass h.1

theorem pipe_inside_last_byte : ¬ (Call.read 7 12 2 8 false (fun _ => false) false).AtEnd 8 ∧
    ∀ a ∈ (Call.read 7 12 2 8 false (fun _ => false) false).accesses 8, a.Inside 8 8 := by
  have hbefore : ¬ (Call.read 7 12 2 8 false (fun _ => false) false).AtEnd 8 := fun h => absurd h.2 (by decide)
  exact ⟨hbefore, (pipe_inside_iff 8 _ (by decide)).mpr hbefore⟩

/-- With the index at the end of a ring of 8 bytes, a write of 4 bytes goes behind the ring. -/
theorem pipe_writes_behind : (Call.write ⟨0, 8⟩ 0 4).size ≤ 8 ∧ .ring 8 ∈ (Call.write ⟨0, 8⟩ 0 4).accesses 8 ∧
    ¬ (Access.ring 8).Inside 8 4 := by
  refine ⟨by decide, ?_, by unfold Access.Inside; decide⟩
  exact mem_accesses.mpr ⟨0, by decide, .inl (congrArg Access.ring (by decide))⟩

end Sm8850.Hab
