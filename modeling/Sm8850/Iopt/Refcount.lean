import Sm8850.Iopt.MapSg

/-! The counts of the last-level tables over whole runs: what each operation does to those tables,
and when a table is freed. -/
namespace Sm8850.Iopt
open TableTree Lts List Option

variable {d : Data} {hg : Geom d} {s s' : State} {x y i k l n r t pg : Nat} {e : U64}

/-! ### Last-level tables -/

/-- The last-level table of an address. -/
def LastTable (hg : Geom d) (mem : Nat → U64) (y c : Nat) : Prop :=
  ∃ k, d.startLevel + k = 2 ∧ tableAt (shape d hg) mem y (k + 1) = some c

/-- Every last-level table was there before, with as many entries in use, or has a number of them
that `Q` allows. -/
def LastKept (hg : Geom d) (mem mem' : Nat → U64) (Q : Nat → Prop) : Prop :=
  ∀ y c, LastTable hg mem' y c →
    LastTable hg mem y c ∧ usedCount d mem' c = usedCount d mem c ∨ Q (usedCount d mem' c)

section
variable {mem mem' mem'' : Nat → U64} {Q Q' : Nat → Prop}

theorem LastKept.refl (hg : Geom d) (mem : Nat → U64) (Q : Nat → Prop) : LastKept hg mem mem Q :=
  fun _ _ h => .inl ⟨h, rfl⟩

theorem LastKept.trans (h₁ : LastKept hg mem mem' Q) (h₂ : LastKept hg mem' mem'' Q) : LastKept hg mem mem'' Q := by
  intro y c hc
  rcases h₂ y c hc with ⟨hc', heq⟩ | hq
  · rcases h₁ y c hc' with ⟨hc'', heq'⟩ | hq
    · exact .inl ⟨hc'', heq.trans heq'⟩
    · exact .inr (heq ▸ hq)
  · exact .inr hq

theorem LastKept.mono (h : LastKept hg mem mem' Q) (hQ : ∀ n, Q n → Q' n) : LastKept hg mem mem' Q' :=
  fun y c hc => (h y c hc).imp_right (hQ _)

/-- Where only bits change that the hardware ignores. -/
theorem lastKept_touch (hmem : ∀ y j u i, j < (shape d hg).depth → TableAt hg s.mem y j u →
    i < d.ptesPerTable → Touch (s.mem (u + i)) (s'.mem (u + i))) : LastKept hg s.mem s'.mem Q := by
  rintro y c ⟨k, hk, hc⟩
  have hdepth := depth_last hg hk
  rw [(touch_frame hmem y).1 (k + 1) (by omega)] at hc
  exact .inl ⟨⟨k, hk, hc⟩, usedCount_congr fun i hi => (hmem y (k + 1) c i (by omega) hc hi).2⟩

end

section
variable {c : Nat → U64} {Q : Nat → Prop} (hI : Inv hg s) [Fact (Fits d)] (hk : k + 1 < (shape d hg).depth)
  (ht : TableAt hg s.mem x k t) (hfree : freePage d s pg = true)
  (hmem : ∀ a, s'.mem a = if a = t + d.idx x k then e
    else if pg ≤ a ∧ a < pg + pageWords d then c (a - pg) else s.mem a)
  (he : pteView d (d.startLevel + k) e = .table pg)
  (hc : ∀ i < d.ptesPerTable, (pteView d (d.startLevel + (k + 1)) (c i)).next = none)
include hI hk ht hfree hmem he hc

theorem lastKept_graft (hnew : d.startLevel + (k + 1) = 3 → (∀ i < d.ptesPerTable, s'.mem (pg + i) = c i) →
    Q (usedCount d s'.mem pg)) : LastKept hg s.mem s'.mem Q := by
  rintro y v ⟨j, hj, hv⟩
  have hdepth := depth_last hg hj
  rcases hI.graft_table hk ht hfree hmem he hc (by omega) hv with ⟨hv', -⟩ | ⟨hjk, -, rfl⟩
  · exact .inl ⟨⟨j, hj, hv'⟩, hI.graft_used hk ht hfree hmem hj hv'⟩
  · exact .inr (hnew (by omega) fun i hi => hI.graft_cell hk ht hfree hmem hi)

end

theorem Grow.lastKept (h : Grow hg x s s') [Fact (Fits d)] (hI : Inv hg s) : LastKept hg s.mem s'.mem (· = 0) := by
  induction h with
  | refl => exact LastKept.refl hg _ _
  | starved _ ih => exact ih
  | @link s₁ k t pg e h hk ht _ hfree he ih =>
    have hview := (pteView_install hk hfree he).1
    exact ih.trans (lastKept_graft (c := fun _ => 0) (h.inv hI).1 hk ht hfree (fun _ => rfl) hview
      (fun i _ => by rw [pteView_zero]; rfl) fun _ hcell => usedCount_eq_zero.mpr hcell)

theorem lastKept_initPte {Q : Nat → Prop} {paddr : Nat} {prot : U64} {num : Int} {prev : Option Nat}
    (hI : Inv hg s) [Fact (Fits d)] (hk : k < (shape d hg).depth) (ht : TableAt hg s.mem x k t)
    (hp : PrevOf hg s x k prev) (hprot : iopteVal prot = 0) (hn : d.idx x k + num.toNat ≤ d.ptesPerTable)
    (h : initPte d s paddr prot (d.startLevel + k) num (t + d.idx x k) prev = some s')
    (hroom : ∀ j, d.startLevel + j = 2 → k = j + 1 → Q (usedCount d s'.mem t)) : LastKept hg s.mem s'.mem Q := by
  rintro y v ⟨j, hj, hv⟩
  have hdepth := depth_last hg hj
  obtain ⟨-, hE⟩ := Inv.initPte hI hk ht hp hprot hn h
  obtain ⟨hv', -⟩ := hE.tableAt_prune hk ht (fun i hi => by
    change (pteView d (d.startLevel + k) (s'.mem (t + i))).next = none
    rw [initPte_cell hI hk ht hp hn h hi.1 hi.2, pteView_leafPte hprot]
    rfl) (by omega) hv
  by_cases hhere : k = j + 1 ∧ SamePath (shape d hg) k x y
  · obtain ⟨rfl, hsame⟩ := hhere
    obtain rfl := TableAt.unique ht hv' hsame
    exact .inr (hroom j hj rfl)
  · exact .inl ⟨⟨j, hj, hv'⟩, initPte_used_other hI hk ht hp hn h hj hv' hhere⟩

/-- An address of a last-level table without a translation, and the table is not full. -/
theorem used_lt_of_none (hI : Inv hg s) {z : Nat} (hk : d.startLevel + k = 2)
    (hc : tableAt (shape d hg) s.mem y (k + 1) = some t) (hz : z / d.blockSize 2 = y / d.blockSize 2)
    (hnone : translation d s.mem z = none) : usedCount d s.mem t < d.ptesPerTable := by
  have hdepth := depth_last hg hk
  have hlvl : d.startLevel + (k + 1) = 3 := by omega
  have hc' : tableAt (shape d hg) s.mem z (k + 1) = some t := by
    rw [← tableAt_congr (samePath_last hlvl hz.symm), hc]
  have hidx := idx_lt hg z (k + 1)
  have hzero : s.mem (t + d.idx z (k + 1)) = 0 := by
    rcases hI.typed z (k + 1) t _ (by omega) hc' hidx with h | h | h
    · exact h
    · rw [translation_leaf hg (by omega) hc' (leaf_ne_zero h) h] at hnone
      cases hnone
    · omega
  refine lt_of_lt_of_eq (Finset.card_lt_card ?_) (Finset.card_range _)
  refine Finset.filter_ssubset.mpr ⟨_, Finset.mem_range.mpr hidx, ?_⟩
  exact not_not.mpr hzero

/-! ### Room in a table -/

/-- Some address of the table that `z` belongs to is neither translated nor among the `n` bytes from
`lo` on. -/
def Slack (d : Data) (mem : Nat → U64) (lo n z : Nat) : Prop :=
  ∃ z', z' / d.blockSize 2 = z / d.blockSize 2 ∧ translation d mem z' = none ∧ ¬ (lo ≤ z' ∧ z' < lo + n)

theorem inRange_of_block (hg : Geom d) (hk : d.startLevel + k = 2) (h : y / d.blockSize 2 = x / d.blockSize 2)
    (hx : d.InRange x) : d.InRange y := by
  have hshift : d.lvlShift 3 + d.lvlBits 3 = d.lvlShift 2 := by
    rw [Data.lvlBits, if_neg (by omega)]
    unfold Data.lvlShift
    omega
  have htab : d.tableNr 3 y = d.tableNr 3 x := by
    rw [tableNr_eq, tableNr_eq, hshift]
    exact h
  exact (range_of_tableNr hg (by omega) le_rfl htab).trans hx

/-- A table the hardware can count is never full; a larger one is not where slack is left. -/
theorem room_of_slack (hI : Inv hg s') {lo N : Nat} (hk : d.startLevel + k = 2) (hx : d.InRange x)
    (ht : TableAt hg s'.mem x (k + 1) t) (hslack : d.ptesPerTable = 8192 → Slack d s.mem lo N x)
    (hout : ∀ z, d.InRange z → ¬ (lo ≤ z ∧ z < lo + N) → translation d s'.mem z = translation d s.mem z) :
    usedCount d s'.mem t < 8192 := by
  have hmax := ptesPerTable_le hg
  rcases lt_or_eq_of_le hmax with hlt | heq
  · exact lt_of_le_of_lt (usedCount_le d _ t) hlt
  · obtain ⟨z, hz, hnone, hz'⟩ := hslack heq
    have hr := inRange_of_block hg hk hz hx
    exact lt_of_lt_of_le (used_lt_of_none hI hk ht hz ((hout z hr hz').trans hnone)) hmax

section
variable {iova paddr pgsize pgcount : Nat} {prot : U64} {res : State × Except Errno U64}

theorem LeafReq.matches {size : Nat} {prot' : U64} (h : LeafReq d size pgcount prot l n prot') : Matches d size l := by
  cases h with
  | block h => exact .inl h
  | group h _ =>
    simp only [pteIsContiguousRange, Bool.and_eq_true, beq_iff_eq] at h
    exact .inr h.2

section
variable (h : MapOutcome hg iova paddr pgsize pgcount prot s res) [Fact (Fits d)] (hprot : iopteVal prot = 0) (hI : Inv hg s)
  (hreq : Req d iova pgsize pgcount)
include h hprot hI hreq

/-- Addresses outside of the request keep their translation. -/
theorem MapOutcome.outside {z : Nat} (hz : d.InRange z)
    (hout : ¬ (iova ≤ z ∧ z < iova + pgcount * pgsize)) : translation d res.1.mem z = translation d s.mem z := by
  cases h with
  | fail e h => exact (h.inv hI).2 z
  | noAccess => rfl
  | @mapped s₁ s₂ k tbl n prot' prev hgrow hk ht hp hleaf hinit =>
    obtain ⟨m, hsize, rfl, hprot'⟩ := hleaf.size_eq
    obtain ⟨hI₁, htr⟩ := hgrow.inv hI
    have hle := mapNum_le_count d iova (d.startLevel + k) (m * pgcount)
    have hbytes := Req.part_le hsize hle
    have hB : 0 < d.blockSize (d.startLevel + k) := Nat.two_pow_pos _
    have hdvd : d.blockSize (d.startLevel + k) ∣ pgsize := Dvd.intro_left _ hsize.symm
    rw [← htr z]
    exact initPte_outside hI₁ hk ht hp (hprot' hprot) (mapNum_le hg) hinit hreq.first (hdvd.trans hreq.aligned)
      (fun h0 => hreq.part hsize hle (Nat.mul_ne_zero h0 hB.ne')) hz (by omega)

theorem MapOutcome.lastKept
    (hslack : Matches d pgsize 3 → d.ptesPerTable = 8192 → Slack d s.mem iova (pgcount * pgsize) iova) :
    LastKept hg s.mem res.1.mem (· < 8192) := by
  have hI' := h.inv hprot hI
  have hout : ∀ z, d.InRange z → ¬ (iova ≤ z ∧ z < iova + pgcount * pgsize) →
      translation d res.1.mem z = translation d s.mem z := fun z hz => h.outside hprot hI hreq hz
  cases h with
  | fail e h => exact (h.lastKept hI).mono fun n hn => by omega
  | noAccess => exact LastKept.refl hg _ _
  | @mapped s₁ s₂ k tbl n prot' prev hgrow hk ht hp hleaf hinit =>
    obtain ⟨m, -, -, hprot'⟩ := hleaf.size_eq
    have hI₁ := (hgrow.inv hI).1
    obtain ⟨-, hE⟩ := Inv.initPte hI₁ hk ht hp (hprot' hprot) (mapNum_le hg) hinit
    refine ((hgrow.lastKept hI).mono fun n hn => by omega).trans
      (lastKept_initPte hI₁ hk ht hp (hprot' hprot) (mapNum_le hg) hinit fun j hj hkj => ?_)
    subst hkj
    have h3 : d.startLevel + (j + 1) = 3 := by omega
    exact room_of_slack hI' hj hreq.first (hE.table_same hk ht (SamePath.refl _ _)) (hslack (h3 ▸ hleaf.matches)) hout

end

end

/-! ### Scatterlists -/

section
variable {prot : U64} {iova : Nat} {sg : List Piece}

section
variable (h : Scattered hg prot iova s sg s') [Fact (Fits d)] (hprot : iopteVal prot = 0) (hI : Inv hg s)
include h hprot hI

theorem Scattered.counted (hC : Counted hg s.mem) : Counted hg s'.mem := by
  induction h with
  | nil => exact hC
  | chunk h hc ih =>
    cases hc with
    | mk hat hgrow hk ht hp hreq hinit =>
      have hI₁ := h.inv hprot hI
      exact (hgrow.counted hI₁ ih).initPte (hgrow.inv hI₁).1 hk ht hp (hreq.size_eq.2.2 hprot)
        (hat.idx_le hg hreq) hinit (Int.natCast_nonneg _)
  | stop h hgrow ih => exact hgrow.counted (h.inv hprot hI) ih

/-- With slack in every table of the request no table comes to be full. -/
theorem Scattered.lastKept {N : Nat} (hN : sgLength sg ≤ N)
    (hslack : d.ptesPerTable = 8192 → ∀ z, iova ≤ z → z < iova + N → Slack d s.mem iova N z) :
    LastKept hg s.mem s'.mem (· < 8192) := by
  induction h with
  | nil => exact LastKept.refl hg _ _
  | @chunk l p s₁ s₂ h hc ih =>
    have hall : Scattered hg prot iova s (l ++ [p]) s₂ := .chunk h hc
    have hlen : sgLength (l ++ [p]) = sgLength l + p.length := by simp
    have hI₁ := h.inv hprot hI
    cases hc with
    | @mk s₁' _ k tbl n prot' prev hat hgrow hk ht hp hreq hinit =>
      have hprot' := hreq.size_eq.2.2 hprot
      have hI₂ := (hgrow.inv hI₁).1
      obtain ⟨-, hE⟩ := Inv.initPte hI₂ hk ht hp hprot' (hat.idx_le hg hreq) hinit
      have hpos := hat.pos
      refine ((ih (by omega)).trans ((hgrow.lastKept hI₁).mono fun n hn => by omega)).trans
        (lastKept_initPte hI₂ hk ht hp hprot' (hat.idx_le hg hreq) hinit fun j hj hkj => ?_)
      subst hkj
      refine room_of_slack (hall.inv hprot hI) hj (hat.inside _ le_rfl (by omega))
        (hE.table_same hk ht (SamePath.refl _ _)) (fun h8 => hslack h8 _ (by omega) (by omega)) fun z hz hout => ?_
      rw [hall.translation hprot hI hz, if_neg (by omega)]
  | stop h hgrow ih => exact (ih hN).trans ((hgrow.lastKept (h.inv hprot hI)).mono fun n hn => by omega)

end

end

/-! ### Unmapping -/

theorem splitCount_lt {a b : Nat} (ha : a < d.ptesPerTable) (hb : 0 < b) : splitCount d a b < d.ptesPerTable := by
  refine lt_of_le_of_ne (countP_le_length.trans_eq length_range) fun h => ?_
  have hall := countP_eq_length.mp (h.trans length_range.symm) a (mem_range.mpr ha)
  simp [splitKeeps] at hall
  omega

theorem splitCount_pos {a b : Nat} (hb : b < d.ptesPerTable) : 0 < splitCount d a b := by
  by_cases ha : 0 < a
  · exact countP_pos_iff.mpr ⟨0, mem_range.mpr (by omega), by simp [splitKeeps]; omega⟩
  · exact countP_pos_iff.mpr ⟨b, mem_range.mpr hb, by simp [splitKeeps]; omega⟩

section
variable {size pgcount : Nat} {res : State × U64} {Q : Nat → Prop}

theorem SplitWay.lastKept (h : SplitWay hg x size s s') [Fact (Fits d)] (hI : Inv hg s)
    (hlevel : ∃ l, d.startLevel ≤ l ∧ l ≤ 3 ∧ Matches d size l) : LastKept hg s.mem s'.mem Q := by
  induction h with
  | refl => exact LastKept.refl hg _ _
  | @split s₁ k t pg e h hk ht _ _ hbefore hfree he ih =>
    have hview := (pteView_install hk hfree he).1
    refine ih.trans (lastKept_graft (h.inv hI) hk ht hfree (fun _ => rfl) hview
      (fun i _ => (splitEntry_view _ _ _ _ i).1) fun h3 _ => ?_)
    -- the size is that of no level down to this one, so this one is not the last
    obtain ⟨l, hs, hl, hm⟩ := hlevel
    exact absurd (by rwa [Nat.add_sub_cancel' hs]) (hbefore (l - d.startLevel) (by omega))

theorem Spare.lastKept (h : Spare hg s s') : LastKept hg s.mem s'.mem Q :=
  lastKept_touch fun y j u i hj hu hi => Touch.of_eq (h.cells y j u i hj hu hi)

/-- The tables that are left were there, and not behind an entry that is gone. -/
theorem Cleared.tables {c j v : Nat} {W : Nat → Prop} (h : Cleared hg x k t i c W s s') (hI : Inv hg s) [Fact (Fits d)]
    (hk : k < (shape d hg).depth) (ht : TableAt hg s.mem x k t) (hi : i + c ≤ d.ptesPerTable)
    (hj : j ≤ (shape d hg).depth) (hv : TableAt hg s'.mem y j v) :
    TableAt hg s.mem y j v ∧ (k < j → ¬ Hits (shape d hg) x k (fun j => i ≤ j ∧ j < i + c) y) := by
  refine (h.editAt hI hk ht hi).tableAt_prune hk ht (fun j' hj' => ?_) hj hv
  change (pteView d (d.startLevel + k) (s'.mem (t + j'))).next = none
  rw [h.zero j' hj'.1 hj'.2, pteView_zero]
  rfl

theorem Cleared.lastKept {c : Nat} {W : Nat → Prop} (h : Cleared hg x k t i c W s s') (hI : Inv hg s) [Fact (Fits d)]
    (hk : k < (shape d hg).depth) (ht : TableAt hg s.mem x k t) (hi : i + c ≤ d.ptesPerTable)
    (hdeep : d.startLevel + k < 3 ∨ k = 0) : LastKept hg s.mem s'.mem Q := by
  rintro y v ⟨j, hj, hv⟩
  have hdepth := depth_last hg hj
  obtain ⟨hv', -⟩ := h.tables hI hk ht hi (by omega) hv
  exact .inl ⟨⟨j, hj, hv'⟩, h.usedCount_eq hI hk ht hi hdeep hj hv'⟩

/-- What the tables need of an unmapping request: the size of a level, counts that are positive as an
int, no table entry among the swept cells whose count has the bit of the hint, and no block that goes
away as a whole page by page. -/
structure UnmapRefsOk (hg : Geom d) (s : State) (x size pgcount : Nat) : Prop where
  level : ∃ l, d.startLevel ≤ l ∧ l ≤ 3 ∧ Matches d size l
  count : ∀ l, Matches d size l → 0 < toInt32 (checkAndSetNumCont d size l * pgcount)
  swept : CountSafe hg s (CallSwept hg s x size pgcount)
  part : Matches d size 3 → ∀ k, d.startLevel + k = 2 → tableAt (shape d hg) s.mem x (k + 1) = none →
    (unmapNum d x 3 size pgcount).toNat < d.ptesPerTable

theorem UnmapRefsOk.last (h : UnmapRefsOk hg s x size pgcount) (hk : d.startLevel + k = 2)
    (hbefore : ∀ j ≤ k, ¬ Matches d size (d.startLevel + j)) : Matches d size 3 := by
  obtain ⟨l, hs, hl, hm⟩ := h.level
  rcases lt_or_eq_of_le hl with hlt | rfl
  · exact absurd (by rwa [Nat.add_sub_cancel' hs]) (hbefore (l - d.startLevel) (by omega))
  · exact hm

theorem SplitEnd.lastKept (h : SplitEnd hg x k t size pgcount s res) [Fact (Fits d)] (hI : Inv hg s)
    (ht : TableAt hg s.mem x k t) (hleaf : iopteLeaf d (s.mem (t + d.idx x k)) (d.startLevel + k))
    (hbefore : ∀ j ≤ k, ¬ Matches d size (d.startLevel + j)) (hok : UnmapRefsOk hg s x size pgcount) :
    LastKept hg s.mem res.1.mem fun n => 0 < n ∧ n < 8192 := by
  cases h with
  | stop hway hspare => exact (hway.lastKept hI hok.level).trans hspare.lastKept
  | unhint _ _ hspare =>
    refine LastKept.trans (lastKept_touch fun y j u i hj hu hi => ?_) hspare.lastKept
    exact (dropHint_mem d s x _ _ _ (u + i)).touch (hI.typed y j u i hj hu hi)
  | @split s₁ k' t' pg e hway hk' ht' _ _ hm hfree he =>
    have hview := (pteView_install hk' hfree he).1
    refine (hway.lastKept hI hok.level).trans (lastKept_graft (hway.inv hI) hk' ht' hfree (fun _ => rfl)
      hview (fun i _ => (splitEntry_view _ _ _ _ i).1) fun h3 hcell => ?_)
    have hkk : k ≤ k' := by
      by_contra hlt
      exact hbefore (k' + 1) (by omega) hm
    have hnone : tableAt (shape d hg) s.mem x (k' + 1) = none := by
      by_contra hne
      obtain ⟨v, hv⟩ := ne_none_iff_exists'.mp hne
      obtain ⟨w, hw⟩ := tableAt_of_le hv (Nat.succ_le_succ hkk)
      rw [tableAt_next ht] at hw
      change (pteView d (d.startLevel + k) (s.mem (t + d.idx x k))).next = some w at hw
      rw [pteView, if_neg (leaf_ne_zero hleaf), if_pos hleaf] at hw
      cases hw
    rw [h3] at hm
    have hnum := unmapNum_pos (x := x) hg (hok.count 3 hm)
    have hpart := hok.part hm k' (by omega) hnone
    have hidx := lvlIdx_lt hg x 3
    have hle : d.lvlIdx x 3 + (unmapNum d x 3 size pgcount).toNat ≤ d.ptesPerTable := mapNum_le hg
    have hcast : mapNum d x 3 (reqNum d size 3 pgcount) = ((unmapNum d x 3 size pgcount).toNat : Int) :=
      (Int.toNat_of_nonneg (le_of_lt hnum)).symm
    have hmax := ptesPerTable_le hg
    have hlow := splitCount_pos (a := d.lvlIdx x 3) hpart
    have hhigh := splitCount_lt hidx (show 0 < (unmapNum d x 3 size pgcount).toNat by omega)
    rw [usedCount_split d hcell, h3, hcast]
    exact ⟨hlow, by omega⟩

theorem SplitWay.pages (h : SplitWay hg x size s s') : ∀ p ∈ s.pages, p ∈ s'.pages := by
  induction h with
  | refl => exact fun _ hp => hp
  | split _ _ _ _ _ _ _ _ ih => exact fun p hp => .tail _ (ih p hp)

theorem Inv.live (hI : Inv hg s) (hc : LastTable hg s.mem y t) : t ∈ s.pages := by
  obtain ⟨k, hk, ht⟩ := hc
  have hdepth := depth_last hg hk
  exact (hI.tree.pages y (k + 1) t (by omega) ht).1

section
variable (h : UnmapEnd hg x size pgcount s res) [Fact (Fits d)] (hreq : Req d x size pgcount) (hI : Inv hg s)
  (hC : Counted hg s.mem) (hused : Matches d size 3 → LastUsed hg s x size pgcount) (hok : UnmapRefsOk hg s x size pgcount)
include h hreq hI hC hused hok

/-- A table that is left with no entry is one that had none before. -/
theorem UnmapEnd.lastKept : LastKept hg s.mem res.1.mem fun n => 0 < n ∧ n < 8192 := by
  cases h with
  | empty => exact LastKept.refl hg _ _
  | @blocks k t r hr ht hm hdeep =>
    obtain ⟨hk, c, s', -, hle, heq, hclear⟩ := unmapBlocks_cleared hI hreq hr ht hm
    rw [heq]
    exact hclear.lastKept hI hk ht hle hdeep
  | @last k u c hlvl hu hc hbefore =>
    have hdepth := depth_last hg hlvl
    have hm := hok.last hlvl hbefore
    have hnum := unmapNum_pos (x := x) hg (hok.count 3 hm)
    have hnum' : 0 < mapNum d x 3 (reqNum d size 3 pgcount) := hnum
    have hL := hI.lastCleared hlvl hu hc (reqNum d size 3 pgcount)
    have hcount := lastCleared_used (n := reqNum d size 3 pgcount) hI hlvl hu hc (hused hm k c hlvl hc)
    have hle := usedCount_le d s.mem c
    have hmax := ptesPerTable_le hg
    rcases unmapLastLevel_cases hI hlvl hu hc size pgcount with ⟨hz, heq⟩ | ⟨hz, hclear⟩
    · rw [heq]
      rintro y v ⟨j, hj, hv⟩
      obtain rfl : j = k := by omega
      rw [hL.edit.tableAt_of_le (by omega) le_rfl] at hv
      by_cases hhere : SamePath (shape d hg) (j + 1) x y
      · obtain rfl := (TableAt.unique hc hv hhere).symm
        have hC' := hC.lastCleared (n := reqNum d size 3 pgcount) hI hlvl hu hc (le_of_lt hnum)
          (hused hm j c hlvl hc) (hok.swept.mono fun a ha => .last hlvl hc ha)
        rw [hC' x j u c hlvl hL.above hL.table] at hz
        exact .inr ⟨by omega, by omega⟩
      · exact .inl ⟨⟨j, hj, hv⟩, lastCleared_used_other hI hlvl hu hc hv hhere⟩
    · rintro y v ⟨j, hj, hv⟩
      obtain rfl : j = k := by omega
      obtain ⟨hv', hmiss⟩ := hclear.tables hL.inv (by omega) hL.above (lvlIdx_lt hg x _) (by omega) hv
      rw [hits_one] at hmiss
      have hsame : usedCount d _ v = usedCount d _ v :=
        hclear.usedCount_eq hL.inv (by omega) hL.above (lvlIdx_lt hg x _) (.inl (by omega)) hlvl hv'
      replace hv' := (hL.edit.tableAt_of_le (by omega) le_rfl).symm.trans hv'
      rw [hsame]
      exact .inl ⟨⟨j, hj, hv'⟩, lastCleared_used_other hI hlvl hu hc hv' (hmiss (by omega))⟩
  | split _ ht hleaf hbefore hend => exact hend.lastKept hI ht hleaf hbefore hok

/-- A table is freed only if the addresses it translates belong to the request. -/
theorem UnmapEnd.freed (hy : LastTable hg s.mem y t) (hfreed : t ∉ res.1.pages)
    (hin : d.InRange y) (hsome : translation d s.mem y ≠ none) : x ≤ y ∧ y < x + pgcount * size := by
  have hlive := hI.live hy
  have hres := h.inv hreq hI
  cases h with
  | empty => exact absurd hlive hfreed
  | @blocks k u r hr ht hm _ =>
    obtain ⟨hk, c, s', hle, hroom, heq, hclear⟩ := unmapBlocks_cleared hI hreq hr ht hm
    rw [heq] at hfreed hres
    have hhit : Hits (shape d hg) x k (fun j => d.idx x k ≤ j ∧
        j < d.idx x k + c) y := by
      by_contra hmiss
      obtain ⟨j, hj, hy⟩ := hy
      have hdepth := depth_last hg hj
      have hkeep := ((hclear.editAt hI hk ht hroom).miss hmiss).1 (j + 1) (by omega)
      exact hfreed (hres.live ⟨j, hj, hkeep.trans hy⟩)
    have hbytes := (hits_request hg (by omega) hreq hm hle hin).mp hhit
    have hbound := (toNat_bytes hg hreq hm hle).2
    omega
  | @last k u c hlvl hu hc hbefore =>
    have hdepth := depth_last hg hlvl
    have h3 : d.startLevel + (k + 1) = 3 := by omega
    have hm := hok.last hlvl hbefore
    have hnum := unmapNum_pos (x := x) hg (hok.count 3 hm)
    have hL := hI.lastCleared hlvl hu hc (reqNum d size 3 pgcount)
    obtain ⟨j, hj, hy⟩ := hy
    obtain rfl : j = k := by omega
    have hy' := (hL.edit.tableAt_of_le (y := y) (by omega) le_rfl).trans hy
    rcases unmapLastLevel_cases hI hlvl hu hc size pgcount with ⟨-, heq⟩ | ⟨hz, hclear⟩
    · rw [heq] at hfreed
      exact absurd (hL.inv.live ⟨j, hj, hy'⟩) hfreed
    · have hempty := lastCleared_empty hI hC hlvl hu hc hnum (hused hm) hok.swept hz
      have hsame : SamePath (shape d hg) (j + 1) x y := by
        by_contra hmiss
        rw [← hits_one] at hmiss
        have hkeep := ((hclear.editAt hL.inv (by omega) hL.above (lvlIdx_lt hg x _)).miss hmiss).1 (j + 1) (by omega)
        exact hfreed (hres.live ⟨j, hj, hkeep.trans hy'⟩)
      -- the whole table is empty, so the entry of `y` is one of those the call has cleared
      have hnone : translation d _ y = none :=
        translation_empty hg (by omega) ((tableAt_congr hsame).symm.trans hL.table) (hempty _ (lvlIdx_lt hg y _))
      have hgone : Hits (shape d hg) x (j + 1) (fun i => d.lvlIdx x 3 ≤ i ∧
          i < d.lvlIdx x 3 + (unmapNum d x 3 size pgcount).toNat) y := by
        by_contra hmiss
        have hkeep := (translation_cleared hL.edit (by omega) hc
          (fun i hi => lastCleared_zero hI hlvl hu hc hi.1 hi.2) y).2 hmiss
        exact hsome (hkeep.symm.trans hnone)
      have hH := hits_request (y := y) hg (by omega) hreq (h3 ▸ hm) le_rfl hin
      rw [idx_eq h3, h3] at hH
      have hbytes := hH.mp hgone
      have hbound := (toNat_bytes hg hreq hm le_rfl).2
      omega
  | split _ _ _ _ hend =>
    refine absurd ?_ hfreed
    cases hend with
    | stop hway hspare => exact hspare.pages ▸ hway.pages t hlive
    | unhint _ _ hspare =>
      rw [hspare.pages, dropHint_pages]
      exact hlive
    | split hway _ _ _ _ _ _ _ => exact .tail _ (hway.pages t hlive)

end

/-- Where every address of the request is mapped, the entries it covers are in use. -/
theorem lastUsed_of_mapped (hreq : Req d x size pgcount) (hm : Matches d size 3)
    (hmapped : ∀ y, x ≤ y → y < x + pgcount * size → translation d s.mem y ≠ none) : LastUsed hg s x size pgcount := by
  intro k c hk hc j h₁ h₂ hzero
  have hdepth := depth_last hg hk
  have h3 : d.startLevel + (k + 1) = 3 := by omega
  have hle : d.lvlIdx x 3 + (unmapNum d x 3 size pgcount).toNat ≤ d.ptesPerTable := mapNum_le hg
  have hbits := idx_add_le hg (by omega) le_rfl hreq.first hle (hm.dvd hreq) (fun h0 => hm.last hreq le_rfl h0)
  obtain ⟨y, hrange, hpath, hidx⟩ := exists_address hg (le_of_eq h3) x (show j < 2 ^ d.lvlBits _ by rw [h3]; omega)
  have hin : d.InRange y := hrange.symm.trans hreq.first
  have hH := hits_request (y := y) hg (le_of_eq h3) hreq (h3 ▸ hm) le_rfl hin
  rw [idx_eq h3, h3] at hH
  rw [h3] at hidx
  have hhit : Hits (shape d hg) x (k + 1) (fun i => d.lvlIdx x 3 ≤ i ∧
      i < d.lvlIdx x 3 + (unmapNum d x 3 size pgcount).toNat) y := by
    refine ⟨hpath, ?_⟩
    change d.lvlIdx x 3 ≤ d.idx y (k + 1) ∧ d.idx y (k + 1) < _
    rw [idx_eq h3, hidx]
    exact ⟨h₁, h₂⟩
  have hbytes := hH.mp hhit
  have hbound := (toNat_bytes hg hreq hm le_rfl).2
  refine hmapped y hbytes.1 (by omega) (translation_empty hg (by omega) ((tableAt_congr hpath).symm.trans hc) ?_)
  rw [idx_eq h3, hidx]
  exact hzero

end

/-! ### Runs -/

/-- The entries of a table that have the valid bit. -/
def validCount (d : Data) (mem : Nat → U64) (c : Nat) : Nat :=
  ((Finset.range d.ptesPerTable).filter fun i => mem (c + i) &&& pteValid ≠ 0).card

/-- The count in an entry for a last-level table is the number of valid entries of the table, and the
table is not freed. -/
structure RefsTrue (hg : Geom d) (s : State) : Prop where
  count : ∀ y k u c, d.startLevel + k = 2 → tableAt (shape d hg) s.mem y k = some u →
    tableAt (shape d hg) s.mem y (k + 1) = some c →
    iopteTblcnt (s.mem (u + d.lvlIdx y (d.startLevel + k))) = validCount d s.mem c
  live : ∀ y c, LastTable hg s.mem y c → c ∈ s.pages

/-- An operation that, if it unmaps, is for a range that is mapped as a whole. -/
def MappedStep (d : Data) (s : State) (op : Op) (s' : State) : Prop :=
  OpStep d s op s' ∧ ∀ x size n, op = .call (.unmap x size n) →
    ∀ y, x ≤ y → y < x + n * size → translation d s.mem y ≠ none

/-- Unmapping frees a last-level table only if every address that the table translates is unmapped,
and it leaves no table empty that was not. -/
def FreesEmpty (hg : Geom d) (s : State) (op : Op) (s' : State) : Prop :=
  ∀ x size n, op = .call (.unmap x size n) →
    (∀ y c, LastTable hg s.mem y c → c ∉ s'.pages → d.InRange y → translation d s.mem y ≠ none →
      x ≤ y ∧ y < x + n * size) ∧
    ∀ y c, LastTable hg s'.mem y c → validCount d s'.mem c = 0 → LastTable hg s.mem y c ∧ validCount d s.mem c = 0

/-- The condition on an operation. A mapping is for counts that are not negative as an int, and leaves
room in a table of 8192 entries. An unmapping is refused, or `UnmapRefsOk`. -/
def RefsOk (hg : Geom d) (s : State) : Op → Prop
  | .call (.map iova _ pgsize pgcount _) => (∀ l, 0 ≤ toInt32 (findNumCont d l * pgcount)) ∧
      (Matches d pgsize 3 → d.ptesPerTable = 8192 → Slack d s.mem iova (pgcount * pgsize) iova)
  | .call (.unmap iova pgsize pgcount) => badPgsize d pgsize pgcount = true ∨ UnmapRefsOk hg s iova pgsize pgcount
  | .mapSg iova sg _ => d.ptesPerTable = 8192 → ∀ z, iova ≤ z → z < iova + sgLength sg →
      Slack d s.mem iova (sgLength sg) z

/-- What an operation that meets the condition keeps. -/
structure Refs (hg : Geom d) (s : State) : Prop where
  inv : Inv hg s
  counted : Counted hg s.mem
  room : ∀ y c, LastTable hg s.mem y c → usedCount d s.mem c < 8192

theorem Inv.validCount_eq (hI : Inv hg s) (hc : LastTable hg s.mem y t) : validCount d s.mem t = usedCount d s.mem t := by
  obtain ⟨k, hk, ht⟩ := hc
  have hdepth := depth_last hg hk
  unfold validCount usedCount
  congr 1
  refine Finset.filter_congr fun i hi => ?_
  exact (hI.typed y (k + 1) t i (by omega) ht (Finset.mem_range.mp hi)).valid_iff

theorem Refs.true (h : Refs hg s) : RefsTrue hg s := by
  refine ⟨fun y k u c hk hu hc => ?_, fun y c hc => h.inv.live hc⟩
  have hlast : LastTable hg s.mem y c := ⟨k, hk, hc⟩
  have hroom := h.room y c hlast
  rw [h.counted y k u c hk hu hc, h.inv.validCount_eq hlast]
  omega

theorem LastKept.room {Q : Nat → Prop} (h : LastKept hg s.mem s'.mem Q) (hQ : ∀ n, Q n → n < 8192)
    (hroom : ∀ y c, LastTable hg s.mem y c → usedCount d s.mem c < 8192) (y c : Nat) (hc : LastTable hg s'.mem y c) :
    usedCount d s'.mem c < 8192 := by
  rcases h y c hc with ⟨hc', heq⟩ | hq
  · exact heq ▸ hroom y c hc'
  · exact hQ _ hq

theorem refs_unmap {x size pgcount : Nat} [Fact (Fits d)] (hR : Refs hg s) (hreq : Req d x size pgcount)
    (hmapped : ∀ y, x ≤ y → y < x + pgcount * size → translation d s.mem y ≠ none)
    (hok : UnmapRefsOk hg s x size pgcount) : Refs hg (unmapPages d s x size pgcount).1 ∧
      FreesEmpty hg s (.call (.unmap x size pgcount)) (unmapPages d s x size pgcount).1 := by
  have hend : UnmapEnd hg x size pgcount s (unmapPages d s x size pgcount) := unmapPages_end hR.inv
  have hused : Matches d size 3 → LastUsed hg s x size pgcount := fun hm => lastUsed_of_mapped hreq hm hmapped
  have hkept := hend.lastKept hreq hR.inv hR.counted hused hok
  have hcounts : CountsKept hg s x size pgcount := UnmapOk.counts ⟨hok.level, hok.count, hused, hok.swept⟩
  have hI := hend.inv hreq hR.inv
  refine ⟨⟨hI, hend.counted hreq hR.inv hR.counted hcounts, hkept.room (fun _ hn => hn.2) hR.room⟩, ?_⟩
  rintro x' size' n' heq
  cases heq
  refine ⟨fun y c hy hfreed hin hsome => hend.freed hreq hR.inv hR.counted hused hok hy hfreed hin hsome,
    fun y c hc hzero => ?_⟩
  rw [hI.validCount_eq hc] at hzero
  rcases hkept y c hc with ⟨hc', heq⟩ | hpos
  · exact ⟨hc', by rw [hR.inv.validCount_eq hc', ← heq, hzero]⟩
  · omega

theorem refs_mapSg {iova : Nat} {sg : List Piece} {prot : Prot} [Fact (Fits d)] (hR : Refs hg s)
    (hreq : SgReq d iova sg) (hok : RefsOk hg s (.mapSg iova sg prot)) : Refs hg (mapSg d s iova sg prot).1 := by
  cases hprot : (prot.read || prot.write) with
  | false =>
    rw [mapSg, mapSgLoop_noAccess hprot]
    exact hR
  | true =>
    have hval := iopteVal_protToPte d prot
    obtain ⟨l, hsc, -, hle, -⟩ := mapSg_progress hR.inv hprot hreq.inside
    exact ⟨hsc.inv hval hR.inv, hsc.counted hval hR.inv hR.counted,
      (hsc.lastKept hval hR.inv hle hok).room (fun _ hn => hn) hR.room⟩

/-- One operation. -/
theorem mappedStep_refs {op : Op} [Fact (Fits d)] (h : MappedStep d s op s') (hok : RefsOk hg s op) (hR : Refs hg s) :
    Refs hg s' ∧ FreesEmpty hg s op s' := by
  obtain ⟨⟨hal, rfl⟩, hmapped⟩ := h
  cases op with
  | call c =>
    cases c with
    | map iova paddr pgsize pgcount prot =>
      have hval := iopteVal_protToPte d prot
      have hout : MapOutcome hg iova paddr pgsize pgcount (protToPte d prot) s
          (mapPages d s iova paddr pgsize pgcount prot) := mapPages_outcome hR.inv
      have hkept := hout.lastKept hval hR.inv hal.1 hok.2
      refine ⟨⟨hout.inv hval hR.inv, hout.counted hval hR.inv hok.1 hR.counted,
        hkept.room (fun _ hn => hn) hR.room⟩, fun x size n heq => ?_⟩
      cases heq
    | unmap x size pgcount =>
      rcases hok with hbad | hok
      · have hres : unmapPages d s x size pgcount = (s, 0) := by rw [unmapPages, if_pos hbad]
        change Refs hg (unmapPages d s x size pgcount).1 ∧ FreesEmpty hg s _ (unmapPages d s x size pgcount).1
        rw [hres]
        refine ⟨hR, fun x' size' n' _ => ⟨fun y c hy hfreed => ?_, fun y c hc hz => ⟨hc, hz⟩⟩⟩
        exact absurd (hR.inv.live hy) hfreed
      · exact refs_unmap hR hal (hmapped x size pgcount rfl) hok
  | mapSg iova sg prot =>
    refine ⟨refs_mapSg hR hal hok, fun x size n heq => ?_⟩
    cases heq

theorem Fresh.refs (hF : Fresh d s) [Fact (Fits d)] : Refs hg s := by
  refine ⟨(hF.shaped).inv, hF.counted, fun y c hc => ?_⟩
  obtain ⟨k, -, hc⟩ := hc
  exact absurd (hF.tables hc).1 (Nat.succ_ne_zero k)

/-- From a new table on, every count is the number of valid entries, and tables are freed when they
are empty and only then. -/
theorem tblcnt_true {cfg : Cfg} {fmt : Fmt} {s₀ : State} {run : List (Op × State)}
    (halloc : allocPgtableS1 cfg fmt s₀ = some (d, s)) (hfit : Fits d) (hrun : Path (MappedStep d) s run)
    (hok : Steps (RefsOk (allocPgtableS1_geom halloc)) s run) :
    (∀ s' ∈ s :: run.map Prod.snd, RefsTrue (allocPgtableS1_geom halloc) s') ∧
      Path (FreesEmpty (allocPgtableS1_geom halloc)) s run := by
  have : Fact (Fits d) := ⟨hfit⟩
  have hg := allocPgtableS1_geom halloc
  have hR : Refs hg s := (allocPgtableS1_spec halloc).2.1.refs
  have hstep : ∀ s op s', MappedStep d s op s' → RefsOk hg s op → Refs hg s → FreesEmpty hg s op s' ∧ Refs hg s' :=
    fun _ _ _ h hok hR => (mappedStep_refs h hok hR).symm
  exact ⟨fun s' hs' => (hrun.invariant_of_steps (fun s op s' h hok hR => (hstep s op s' h hok hR).2) hok hR s' hs').true,
    hrun.good_of_steps hstep hok hR⟩

/-! ### Small tables -/

/-- What the first mapping of a new table maps. -/
theorem plainTable_maps {paddr pgsize n : Nat} {bytes : U64} (hal : (Call.map 0 paddr pgsize n readWrite).Aligned plainTable.1)
    (hok : 0 ≤ toInt32 n ∧ paddr + n * pgsize ≤ 2 ^ plainTable.1.paBits)
    (hret : (mapPages plainTable.1 plainTable.2 0 paddr pgsize n readWrite).2 = .ok bytes)
    (hy : y < bytes.toNat) (hin : y < 2 ^ 32) :
    translation plainTable.1 (mapPages plainTable.1 plainTable.2 0 paddr pgsize n readWrite).1.mem y ≠ none := by
  have : Fact (Fits plainTable.1) := ⟨plainTable_fits⟩
  have hnew : Refines (allocPgtableS1_geom plainTable_alloc) (plainTable.2, fun _ => none) :=
    (allocPgtableS1_spec plainTable_alloc).2.1.refines
  have hR := refines_map rfl hnew hal hok
  rw [hret] at hR
  rw [hR.translates y (plainTable_inRange.mpr hin)]
  change (if 0 ≤ y ∧ y < 0 + bytes.toNat then _ else _) ≠ none
  rw [if_pos (by omega)]
  exact some_ne_none _

/-- Of three mapped pages the first two are unmapped. -/
theorem tblcnt_true_pages :
    RefsTrue (allocPgtableS1_geom plainTable_alloc) ((Op.call (.unmap 0 0x1000 2)).run plainTable.1 mappedThree.1) := by
  let s' := (Op.call (.unmap 0 0x1000 2)).run plainTable.1 mappedThree.1
  have hrun : Path (MappedStep plainTable.1) plainTable.2
      [(.call threePages, mappedThree.1), (.call (.unmap 0 0x1000 2), s')] := by
    refine ⟨⟨⟨threePages_aligned, rfl⟩, nofun⟩,
      ⟨⟨plainTable_req (by decide) (by decide) (by decide), rfl⟩, fun x size n h y _ hy => ?_⟩, trivial⟩
    cases h
    have hret : (mapPages plainTable.1 plainTable.2 0 0x100000 0x1000 3 readWrite).2 = .ok 0x3000 := by decide +kernel
    exact plainTable_maps threePages_aligned (by decide +kernel) hret (lt_of_lt_of_le hy (by decide)) (by omega)
  have hunmap : UnmapRefsOk (allocPgtableS1_geom plainTable_alloc) mappedThree.1 0 0x1000 2 := by
    refine ⟨⟨3, by decide +kernel⟩, fun l _ => ?_, countSafe_plain rfl 0 0x1000 2, fun _ k _ _ => by decide +kernel⟩
    rw [checkAndSetNumCont_off rfl]
    decide
  have hok : Steps (RefsOk (allocPgtableS1_geom plainTable_alloc)) plainTable.2
      [(.call threePages, mappedThree.1), (.call (.unmap 0 0x1000 2), s')] := by
    refine ⟨⟨fun l => ?_, fun _ h => absurd h (by decide +kernel)⟩, .inr hunmap, trivial⟩
    rw [findNumCont_off rfl]
    decide
  exact (tblcnt_true plainTable_alloc plainTable_fits hrun hok).1 s' (by simp)

/-- One block of 2M is mapped at 0. -/
def oneBlock : Call := .map 0 0x200000 0x200000 1 readWrite

theorem oneBlock_aligned : oneBlock.Aligned plainTable.1 :=
  ⟨plainTable_req (by decide) (by decide) (by decide), by decide⟩

/-- 36 bits of input addresses in pages of 64K, no hint. -/
def wideCfg : Cfg := ⟨sz64K ||| sz512M, 36, 36, false, false, false, false, false, true, 16, false⟩

def wideMem : State := ⟨fun _ => 0, [], fun n => some (8192 * (n + 1))⟩

theorem wideMem_suffices : (allocPgtableS1 wideCfg .qcomArm64LpaeS1 wideMem).isSome := by decide +kernel

def wideTable : Data × State := (allocPgtableS1 wideCfg .qcomArm64LpaeS1 wideMem).get wideMem_suffices

theorem wideTable_alloc : allocPgtableS1 wideCfg .qcomArm64LpaeS1 wideMem =
    some (wideTable.1, wideTable.2) := (some_get wideMem_suffices).symm

/-- A whole table of pages is mapped at 0. -/
def fullTable : Op := .call (.map 0 0 0x10000 8192 readWrite)

/-- A block whose pages are all unmapped leaves a table behind that has no entry. And the count of a
table with all of its 8192 entries in use is zero. -/
theorem tblcnt_lies : (∃ run, Path (MappedStep plainTable.1) plainTable.2 run ∧
      ¬ Path (FreesEmpty (allocPgtableS1_geom plainTable_alloc)) plainTable.2 run) ∧
    ∃ run, Path (MappedStep wideTable.1) wideTable.2 run ∧
      ∃ s' ∈ run.map Prod.snd, ¬ RefsTrue (allocPgtableS1_geom wideTable_alloc) s' := by
  constructor
  · let s₁ := oneBlock.run plainTable.1 plainTable.2
    let s' := (Op.call (.unmap 0 0x1000 512)).run plainTable.1 s₁
    refine ⟨[(.call oneBlock, s₁), (.call (.unmap 0 0x1000 512), s')],
      ⟨⟨⟨oneBlock_aligned, rfl⟩, nofun⟩,
        ⟨⟨plainTable_req (by decide) (by decide) (by decide), rfl⟩, fun x size n h y _ hy => ?_⟩, trivial⟩, ?_⟩
    · cases h
      have hret : (mapPages plainTable.1 plainTable.2 0 0x200000 0x200000 1 readWrite).2 = .ok 0x200000 := by
        decide +kernel
      exact plainTable_maps oneBlock_aligned (by decide +kernel) hret (lt_of_lt_of_le hy (by decide)) (by omega)
    · rintro ⟨-, hfrees, -⟩
      have hstart : plainTable.1.startLevel = 1 := by decide +kernel
      have htable : tableAt (shape plainTable.1 (allocPgtableS1_geom plainTable_alloc)) s'.mem 0 2 = some 1536 := by
        decide +kernel
      have hbefore : tableAt (shape plainTable.1 (allocPgtableS1_geom plainTable_alloc)) s₁.mem 0 2 =
          none := by decide +kernel
      have hcells : ∀ i < 512, s'.mem (1536 + i) &&& pteValid = 0 := by decide +kernel
      have hptes : plainTable.1.ptesPerTable = 512 := by decide +kernel
      have hzero : validCount plainTable.1 s'.mem 1536 = 0 := by
        refine Finset.card_eq_zero.mpr (Finset.filter_eq_empty_iff.mpr fun i hi => not_not.mpr ?_)
        exact hcells i (hptes ▸ Finset.mem_range.mp hi)
      obtain ⟨⟨k, hk, hc⟩, -⟩ := (hfrees 0 0x1000 512 rfl).2 0 1536 ⟨1, by rw [hstart], htable⟩ hzero
      obtain rfl : k = 1 := by omega
      rw [hbefore] at hc
      cases hc
  · let s' := fullTable.run wideTable.1 wideTable.2
    have hin : ∀ y, y < 2 ^ 36 → wideTable.1.InRange y := by
      intro y hy
      have hias : wideTable.1.cfg.ias = 36 := by decide +kernel
      have hbase : wideTable.1.inputBase = 0 := by decide +kernel
      rw [Data.InRange, hias, hbase, Nat.div_eq_zero_iff]
      omega
    have hreq : Req wideTable.1 0 0x10000 8192 := ⟨by decide, hin 0 (by decide), fun y _ hy => hin y (by omega)⟩
    refine ⟨[(fullTable, s')], ⟨⟨⟨⟨hreq, by decide⟩, rfl⟩, nofun⟩, trivial⟩, s', by simp,
      fun hrefs => ?_⟩
    have hstart : wideTable.1.startLevel = 2 := by decide +kernel
    have htable : tableAt (shape wideTable.1 (allocPgtableS1_geom wideTable_alloc)) s'.mem 0 1 = some 16384 := by
      decide +kernel
    have hcount := hrefs.count 0 0 wideTable.1.pgd 16384 hstart rfl htable
    have hzero : iopteTblcnt (s'.mem (wideTable.1.pgd + wideTable.1.lvlIdx 0 (wideTable.1.startLevel + 0))) = 0 := by
      decide +kernel
    have hvalid : s'.mem (16384 + 0) &&& pteValid ≠ 0 := by decide +kernel
    have hptes : 0 < wideTable.1.ptesPerTable := by decide +kernel
    rw [hzero] at hcount
    have hempty := Finset.filter_eq_empty_iff.mp (Finset.card_eq_zero.mp (Int.natCast_eq_zero.mp hcount.symm))
    exact hempty (Finset.mem_range.mpr hptes) hvalid

end Sm8850.Iopt
