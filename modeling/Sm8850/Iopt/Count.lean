import Sm8850.Iopt.Split
import Mathlib.Order.Interval.Finset.Nat

/-! The count in the entry above a last-level table: how many entries of that table are in use,
up to the 13 bits of the field. -/
namespace Sm8850.Iopt
open TableTree Finset

variable {d : Data} {hg : Geom d} {s s' : State} {x y i k l n r t pg : Nat} {e : U64}

/-- The number of entries of a table in use. -/
def usedCount (d : Data) (mem : Nat → U64) (c : Nat) : Nat :=
  ((Finset.range d.ptesPerTable).filter (fun i => mem (c + i) ≠ 0)).card

/-- The entry above every last-level table counts the table's entries. -/
def Counted (hg : Geom d) (mem : Nat → U64) : Prop :=
  ∀ y k u c, d.startLevel + k = 2 → tableAt (shape d hg) mem y k = some u →
    tableAt (shape d hg) mem y (k + 1) = some c →
    iopteTblcnt (mem (u + d.lvlIdx y (d.startLevel + k))) = usedCount d mem c % 8192

/-! ### Entries in use -/

theorem usedCount_le (d : Data) (mem : Nat → U64) (c : Nat) : usedCount d mem c ≤ d.ptesPerTable :=
  (card_filter_le _ _).trans (card_range _).le

variable {mem mem' : Nat → U64}

theorem usedCount_congr {c : Nat} (h : ∀ i < d.ptesPerTable, mem' (c + i) = 0 ↔ mem (c + i) = 0) :
    usedCount d mem' c = usedCount d mem c := by
  unfold usedCount
  congr 1
  refine filter_congr fun i hi => not_congr (h i (mem_range.mp hi))

theorem usedCount_eq_zero {c : Nat} : usedCount d mem c = 0 ↔ ∀ i < d.ptesPerTable, mem (c + i) = 0 := by
  simp [usedCount, filter_eq_empty_iff]

/-- `n` entries more are in use. -/
theorem usedCount_fill {a c : Nat} (hn : a + n ≤ d.ptesPerTable)
    (hin : ∀ i, a ≤ i → i < a + n → mem (c + i) = 0 ∧ mem' (c + i) ≠ 0)
    (hout : ∀ i < d.ptesPerTable, ¬ (a ≤ i ∧ i < a + n) → (mem' (c + i) = 0 ↔ mem (c + i) = 0)) :
    usedCount d mem' c = usedCount d mem c + n := by
  have hunion : (range d.ptesPerTable).filter (fun i => mem' (c + i) ≠ 0) =
      (range d.ptesPerTable).filter (fun i => mem (c + i) ≠ 0) ∪ Finset.Ico a (a + n) := by
    ext i
    simp only [mem_filter, mem_range, mem_union, mem_Ico]
    by_cases h : a ≤ i ∧ i < a + n
    · exact iff_of_true ⟨by omega, (hin i h.1 h.2).2⟩ (.inr h)
    · constructor
      · rintro ⟨hi, hne⟩
        exact .inl ⟨hi, fun hz => hne ((hout i hi h).mpr hz)⟩
      · rintro (⟨hi, hne⟩ | h')
        · exact ⟨hi, fun hz => hne ((hout i hi h).mp hz)⟩
        · exact absurd h' h
  have hdisj : Disjoint ((range d.ptesPerTable).filter (fun i => mem (c + i) ≠ 0)) (Finset.Ico a (a + n)) := by
    refine disjoint_left.mpr fun i hi hin' => ?_
    obtain ⟨h₁, h₂⟩ := mem_Ico.mp hin'
    exact (mem_filter.mp hi).2 (hin i h₁ h₂).1
  unfold usedCount
  rw [hunion, card_union_of_disjoint hdisj, Nat.card_Ico, Nat.add_sub_cancel_left]

theorem usedCount_split (d : Data) {blkPte : U64} {c : Nat} {start num : Int}
    (h : ∀ i < d.ptesPerTable, mem (c + i) = splitEntry d blkPte l start num i) :
    usedCount d mem c = splitCount d start num := by
  unfold usedCount splitCount
  rw [List.countP_eq_length_filter, ← List.toFinset_card_of_nodup (List.nodup_range.filter _)]
  congr 1
  ext i
  simp only [mem_filter, mem_range, List.mem_toFinset, List.mem_filter, List.mem_range]
  refine and_congr_right fun hi => ?_
  rw [h i hi, splitEntry]
  by_cases hkeep : splitKeeps start num i
  · rw [if_pos ⟨hi, hkeep⟩]
    exact iff_of_true (leafPte_ne_zero (iopteVal_iopteProt blkPte)) hkeep
  · rw [if_neg (fun h => hkeep h.2)]
    exact iff_of_false (not_not.mpr rfl) hkeep

/-! ### What keeps the counts -/

section
variable {c : Nat → U64} (hI : Inv hg s) [Fact (Fits d)] (hk : k + 1 < (shape d hg).depth)
  (ht : TableAt hg s.mem x k t) (hfree : freePage d s pg = true)
  (hmem : ∀ a, s'.mem a = if a = t + d.idx x k then e
    else if pg ≤ a ∧ a < pg + pageWords d then c (a - pg) else s.mem a)
  (he : pteView d (d.startLevel + k) e = .table pg)
  (hc : ∀ i < d.ptesPerTable, (pteView d (d.startLevel + (k + 1)) (c i)).next = none)
include hI hk ht hfree hmem he hc

omit he hc in
/-- The last-level tables that were there keep their entries. -/
theorem Inv.graft_used {j v : Nat} (hj : d.startLevel + j = 2) (hv : TableAt hg s.mem y (j + 1) v) :
    usedCount d s'.mem v = usedCount d s.mem v := by
  have hdepth := depth_last hg hj
  refine usedCount_congr fun i hi => ?_
  rw [hI.graft_keep hfree hmem (by omega) hv hi]
  rintro i' rfl heq
  have := (hI.tree.cell_unique (apart hg s) (by omega) (Nat.lt_of_succ_lt hk) hv ht hi
    (lvlIdx_lt hg x _) heq).1
  omega

/-- A new table comes with its count. -/
theorem Counted.graft (hC : Counted hg s.mem)
    (hcnt : (∀ i < d.ptesPerTable, s'.mem (pg + i) = c i) → iopteTblcnt e = usedCount d s'.mem pg % 8192) :
    Counted hg s'.mem := by
  intro y j u v hj hu hv
  have hdepth := depth_last hg hj
  have hcell : ∀ i < d.ptesPerTable, s'.mem (pg + i) = c i := fun i hi => hI.graft_cell hk ht hfree hmem hi
  rcases hI.graft_table hk ht hfree hmem he hc (by omega) hv with ⟨hv', hmiss⟩ | ⟨hjk, hhit, rfl⟩
  · have hu' : TableAt hg s.mem y j u := by
      rcases hI.graft_table hk ht hfree hmem he hc (by omega) hu with ⟨hu', -⟩ | ⟨hjk, hhit, -⟩
      · exact hu'
      · exact absurd hhit (hmiss (by omega))
    have hentry : s'.mem (u + d.idx y j) = s.mem (u + d.idx y j) := by
      refine hI.graft_keep hfree hmem (by omega) hu' (lvlIdx_lt hg y _) ?_
      rintro i' rfl heq
      obtain ⟨rfl, hsame, hidx⟩ := hI.tree.cell_unique (apart hg s) (by omega) (Nat.lt_of_succ_lt hk) hu' ht
        (lvlIdx_lt hg y _) (lvlIdx_lt hg x _) heq
      exact hmiss (Nat.lt_succ_self _) ⟨hsame.symm, hidx⟩
    rw [hentry, hI.graft_used hk ht hfree hmem hj hv']
    exact hC y j u v hj hu' hv'
  · obtain rfl : j = k := by omega
    have hE := hI.graft_editAt hk ht hfree hmem
    rw [hE.table_same (Nat.lt_of_succ_lt hk) ht hhit.1] at hu
    cases hu
    have hidx : d.lvlIdx y _ = d.idx x j := hhit.2
    rw [hidx, graft_head hmem]
    exact hcnt hcell

end

/-- The tables that are left when entries lost what they led to. -/
theorem Counted.prune {I : Nat → Prop} (hE : EditAt (shape d hg) s.mem s'.mem x k I)
    (hk : k < (shape d hg).depth) (ht : TableAt hg s.mem x k t)
    (hnone : ∀ i, I i → (pteView d (d.startLevel + k) (s'.mem (t + i))).next = none)
    (h : ∀ y j u c, d.startLevel + j = 2 → TableAt hg s.mem y j u →
      TableAt hg s.mem y (j + 1) c → (k < j + 1 → ¬ Hits (shape d hg) x k I y) →
      iopteTblcnt (s'.mem (u + d.idx y j)) = usedCount d s'.mem c % 8192) : Counted hg s'.mem := by
  intro y j u c hj hu hc
  have hdepth := depth_last hg hj
  obtain ⟨hu', -⟩ := hE.tableAt_prune hk ht hnone (by omega) hu
  obtain ⟨hc', hmiss⟩ := hE.tableAt_prune hk ht hnone (by omega) hc
  exact h y j u c hj hu' hc' hmiss

/-! ### Tables on the way down -/

theorem Counted.link (hC : Counted hg s.mem) (hI : Inv hg s) [Fact (Fits d)] (hk : k + 1 < (shape d hg).depth)
    (ht : TableAt hg s.mem x k t) (hfree : freePage d s pg) (he : TableEntry d pg 0 e) :
    Counted hg (linkTable d s (t + d.idx x k) pg e).mem := by
  have hview := (pteView_install hk hfree he).1
  refine Counted.graft (c := fun _ => 0)
    hI hk ht hfree (fun _ => rfl) hview (fun i _ => by rw [pteView_zero]; rfl) hC fun hcell => ?_
  rw [usedCount_eq_zero.mpr hcell, iopteTblcnt_tableEntry he]
  rfl

theorem Grow.counted (h : Grow hg x s s') [Fact (Fits d)] (hI : Inv hg s) (hC : Counted hg s.mem) :
    Counted hg s'.mem := by
  induction h with
  | refl => exact hC
  | starved _ ih => exact ih
  | link h hk ht _ hfree he ih => exact ih.link (h.inv hI).1 hk ht hfree he

theorem Counted.split {a b : Int} (hC : Counted hg s.mem) (hI : Inv hg s) [Fact (Fits d)]
    (hk : k + 1 < (shape d hg).depth) (ht : TableAt hg s.mem x k t)
    (hfree : freePage d s pg) (he : TableEntry d pg (splitCount d a b) e) :
    Counted hg (splitTable d s (t + d.idx x k) pg e (d.startLevel + (k + 1)) a b).mem := by
  have hview := (pteView_install hk hfree he).1
  refine Counted.graft
    (c := splitEntry d (s.mem (t + d.idx x k)) (d.startLevel + (k + 1)) a b)
    hI hk ht hfree (fun _ => rfl) hview (fun i _ => (splitEntry_view _ _ a b i).1) hC fun hcell => ?_
  rw [usedCount_split d hcell, iopteTblcnt_tableEntry he]

theorem SplitWay.counted {size : Nat} (h : SplitWay hg x size s s') [Fact (Fits d)] (hI : Inv hg s)
    (hC : Counted hg s.mem) : Counted hg s'.mem := by
  induction h with
  | refl => exact hC
  | split h hk ht _ _ _ hfree he ih => exact ih.split (h.inv hI) hk ht hfree he

theorem Spare.counted (h : Spare hg s s') (hI : Inv hg s) (hC : Counted hg s.mem) : Counted hg s'.mem := by
  obtain ⟨-, htab, -⟩ := h.inv hI
  intro y j u v hj hu hv
  have hdepth := depth_last hg hj
  rw [htab y j (by omega)] at hu
  rw [htab y (j + 1) (by omega)] at hv
  rw [h.cells y j u _ (by omega) hu (lvlIdx_lt hg y _),
    usedCount_congr (fun i hi => by rw [h.cells y (j + 1) v i (by omega) hv hi])]
  exact hC y j u v hj hu hv

/-! ### New leaves -/

/-- The entry whose count a mapping changes. -/
theorem PrevOf.unique {prev : Option Nat} (hp : PrevOf hg s x k prev) (hI : Inv hg s) [Fact (Fits d)]
    (hk : k < (shape d hg).depth) {j w : Nat} (hj : j < (shape d hg).depth)
    (hw : TableAt hg s.mem y j w) (hi : i < d.ptesPerTable) (hprev : prev = some (w + i)) :
    k = j + 1 ∧ SamePath (shape d hg) j x y ∧ i = d.idx x j := by
  cases k with
  | zero =>
    rw [hp] at hprev
    cases hprev
  | succ k =>
    obtain ⟨u, hu, hpu⟩ := hp
    rw [hpu] at hprev
    obtain ⟨rfl, hsame, hidx⟩ := hI.tree.cell_unique (apart hg s) (Nat.lt_of_succ_lt hk) hj hu hw
      (lvlIdx_lt hg x _) hi (Option.some.inj hprev)
    exact ⟨rfl, hsame, hidx.symm⟩

section
variable {paddr : Nat} {prot : U64} {num : Int} {prev : Option Nat} (hI : Inv hg s) [Fact (Fits d)]
  (hk : k < (shape d hg).depth) (ht : TableAt hg s.mem x k t) (hp : PrevOf hg s x k prev)
  (hprot : iopteVal prot = 0)
  (hn : d.idx x k + num.toNat ≤ d.ptesPerTable)
  (h : initPte d s paddr prot (d.startLevel + k) num (t + d.idx x k) prev = some s')
include hI hk ht hp hprot hn h

/-- The leaves that are written were empty. -/
theorem initPte_used : usedCount d s'.mem t = usedCount d s.mem t + num.toNat := by
  refine usedCount_fill (a := d.idx x k) hn ?_ ?_
  · intro i h₁ h₂
    constructor
    · by_contra hne
      refine (hI.typed x k t i hk ht (by omega)).valid_iff.mpr hne ?_
      have := (initPte_some h).1 (i - d.idx x k) (by omega)
      rwa [show t + d.idx x k + (i - d.idx x k) = t + i by omega] at this
    · rw [initPte_cell hI hk ht hp hn h h₁ h₂]
      exact leafPte_ne_zero hprot
  · intro i hi hout
    have hne : prev ≠ some (t + i) := by
      intro hprev
      have := (hp.unique hI hk hk ht hi hprev).1
      omega
    rw [initPte_keep h (fun j hj heq => hout (by omega)), if_neg hne]

omit hprot in
/-- The other last-level tables keep their entries. -/
theorem initPte_used_other {j v : Nat} (hj : d.startLevel + j = 2) (hv : TableAt hg s.mem y (j + 1) v)
    (hother : ¬ (k = j + 1 ∧ SamePath (shape d hg) k x y)) : usedCount d s'.mem v = usedCount d s.mem v := by
  have hdepth := depth_last hg hj
  refine usedCount_congr fun i hi => ?_
  have hcell : ∀ i', d.idx x k ≤ i' ∧ i' < d.idx x k + num.toNat →
      v + i ≠ t + i' := by
    intro i' hi' heq
    obtain ⟨rfl, hsame, -⟩ := hI.tree.cell_unique (apart hg s) (by omega) hk hv ht hi
      (show i' < d.ptesPerTable by omega) heq
    exact hother ⟨rfl, hsame.symm⟩
  have hne : prev ≠ some (v + i) := by
    intro hprev
    have := (hp.unique hI hk (by omega) hv hi hprev).1
    omega
  rw [initPte_keep h hcell, if_neg hne]

theorem Counted.initPte (hnum : 0 ≤ num) (hC : Counted hg s.mem) : Counted hg s'.mem := by
  obtain ⟨-, hE⟩ := Inv.initPte hI hk ht hp hprot hn h
  refine Counted.prune hE hk ht (fun i hi => ?_) ?_
  · rw [initPte_cell hI hk ht hp hn h hi.1 hi.2, pteView_leafPte hprot]
    rfl
  · intro y j u v hj hu hv hmiss
    have hdepth := depth_last hg hj
    have hold := hC y j u v hj hu hv
    have hentry : ∀ i, d.idx x k ≤ i ∧ i < d.idx x k + num.toNat →
        u + d.idx y j ≠ t + i := by
      intro i hi heq
      obtain ⟨rfl, hsame, hidx⟩ := hI.tree.cell_unique (apart hg s) (by omega) hk hu ht (lvlIdx_lt hg y _)
        (show i < d.ptesPerTable by omega) heq
      refine hmiss (Nat.lt_succ_self _) ⟨hsame.symm, ?_⟩
      rw [show (shape d hg).idx j y = i from hidx]
      exact hi
    rw [initPte_keep h hentry]
    by_cases hhere : k = j + 1 ∧ SamePath (shape d hg) k x y
    · -- the table of the new leaves
      obtain ⟨rfl, hsame⟩ := hhere
      obtain ⟨hpath, hidx⟩ := samePath_succ.mp hsame
      have hvt : v = t := TableAt.unique ht hv hsame
      obtain ⟨u', hu', hprev⟩ := hp
      have huu : u = u' := TableAt.unique hu' hu hpath
      have hidx' : d.lvlIdx x _ = d.idx y j := hidx
      rw [hvt] at hold ⊢
      rw [if_pos (by rw [hprev, ← huu, hidx']), iopteTblcnt_add, hold,
        initPte_used hI hk ht ⟨u', hu', hprev⟩ hprot hn h]
      omega
    · have hne : prev ≠ some (u + d.idx y j) := by
        intro hprev
        obtain ⟨rfl, hsame, hidx⟩ := hp.unique hI hk (by omega) hu (lvlIdx_lt hg y _) hprev
        exact hhere ⟨rfl, samePath_succ.mpr ⟨hsame, hidx.symm⟩⟩
      rw [if_neg hne, hold, initPte_used_other hI hk ht hp hn h hj hv hhere]

end

/-! ### Entries that go -/

/-- No swept cell is a table entry whose count has the bit of the hint. -/
def CountSafe (hg : Geom d) (s : State) (W : Nat → Prop) : Prop :=
  ∀ y j u v, d.startLevel + j = 2 → tableAt (shape d hg) s.mem y j = some u →
    tableAt (shape d hg) s.mem y (j + 1) = some v → W (u + d.lvlIdx y (d.startLevel + j)) →
    s.mem (u + d.lvlIdx y (d.startLevel + j)) &&& pteCont = 0

theorem and_not_cont {e : U64} (h : e &&& pteCont = 0) : e &&& ~~~pteCont = e := by
  have hsplit : e = (e &&& pteCont) ||| (e &&& ~~~pteCont) := by
    rw [← BitVec.and_or_distrib_left, show pteCont ||| ~~~pteCont = BitVec.allOnes 64 by decide, BitVec.and_allOnes]
  conv_rhs => rw [hsplit, h]
  exact BitVec.zero_or.symm

theorem Unhinted.eq_of_plain {W : Prop} {e e' : U64} (h : Unhinted W e e') (hp : W → e &&& pteCont = 0) : e' = e := by
  rcases h with h | ⟨hw, h⟩
  · exact h
  · rw [h, and_not_cont (hp hw)]

theorem Counted.unhint {W : Nat → Prop} (hI : Inv hg s) (hmem : ∀ a, Unhinted (W a) (s.mem a) (s'.mem a))
    (hpages : s'.pages = s.pages) (hsafe : CountSafe hg s W) (hC : Counted hg s.mem) : Counted hg s'.mem := by
  obtain ⟨-, htab, -⟩ := hI.unhint hmem hpages
  intro y j u v hj hu hv
  have hdepth := depth_last hg hj
  rw [htab y j (by omega)] at hu
  rw [htab y (j + 1) (by omega)] at hv
  rw [(hmem _).eq_of_plain (hsafe y j u v hj hu hv),
    usedCount_congr (fun i hi => ((hmem (v + i)).touch (hI.typed y (j + 1) v i (by omega) hv hi)).2)]
  exact hC y j u v hj hu hv

section
variable {W : Nat → Prop} {c : Nat} (hI : Inv hg s) [Fact (Fits d)] (h : Cleared hg x k t i c W s s')
  (hk : k < (shape d hg).depth) (ht : TableAt hg s.mem x k t) (hi : i + c ≤ d.ptesPerTable)
  (hdeep : d.startLevel + k < 3 ∨ k = 0)
include hI h hk ht hi hdeep

/-- Above the last level no last-level table loses an entry. -/
theorem Cleared.usedCount_eq {j v : Nat} (hj : d.startLevel + j = 2)
    (hv : TableAt hg s.mem y (j + 1) v) : usedCount d s'.mem v = usedCount d s.mem v := by
  have hdepth := depth_last hg hj
  refine usedCount_congr fun i' hi' => ?_
  have hcell : ∀ j', i ≤ j' → j' < i + c → v + i' ≠ t + j' := by
    intro j' h₁ h₂ heq
    have := (hI.tree.cell_unique (apart hg s) (by omega) hk hv ht hi' (show j' < d.ptesPerTable by omega) heq).1
    omega
  exact ((h.keep _ hcell).touch (hI.typed y (j + 1) v i' (by omega) hv hi')).2

/-- Clearing entries above the last level takes whole last-level tables away. -/
theorem Cleared.counted (hC : Counted hg s.mem) (hsafe : CountSafe hg s W) : Counted hg s'.mem := by
  refine Counted.prune (h.editAt hI hk ht hi) hk ht (fun j hj => ?_) ?_
  · rw [h.zero j hj.1 hj.2, pteView_zero]
    rfl
  · intro y j u v hj hu hv hmiss
    have hdepth := depth_last hg hj
    have hentry : ∀ j', i ≤ j' → j' < i + c → u + d.idx y j ≠ t + j' := by
      intro j' h₁ h₂ heq
      obtain ⟨rfl, hsame, hidx⟩ := hI.tree.cell_unique (apart hg s) (by omega) hk hu ht (lvlIdx_lt hg y _)
        (show j' < d.ptesPerTable by omega) heq
      refine hmiss (Nat.lt_succ_self _) ⟨hsame.symm, ?_⟩
      rw [show (shape d hg).idx j y = j' from hidx]
      exact ⟨h₁, h₂⟩
    rw [(h.keep _ hentry).eq_of_plain (hsafe y j u v hj hu hv), h.usedCount_eq hI hk ht hi hdeep hj hv]
    exact hC y j u v hj hu hv

end

/-- The cells swept for a request of `n` entries at the last level. -/
def lastSwept (d : Data) (s : State) (x c n a : Nat) : Prop :=
  Swept d s x 3 (c + d.lvlIdx x 3) (BitVec.ofInt 64 (mapNum d x 3 n)).toNat a

section
variable {u c : Nat} (hI : Inv hg s) [Fact (Fits d)] (hlvl : d.startLevel + k = 2)
  (hu : TableAt hg s.mem x k u) (hc : TableAt hg s.mem x (k + 1) c)
  (hnum : 0 ≤ mapNum d x 3 n)
  (hused : ∀ j, d.lvlIdx x 3 ≤ j → j < d.lvlIdx x 3 + (mapNum d x 3 n).toNat → s.mem (c + j) ≠ 0)
include hI hlvl hu hc hused

omit hused in
/-- The other last-level tables keep their entries. -/
theorem lastCleared_used_other {v : Nat} (hv : TableAt hg s.mem y (k + 1) v)
    (hother : ¬ SamePath (shape d hg) (k + 1) x y) :
    usedCount d (lastCleared d x s (u + d.idx x k) c n).mem v = usedCount d s.mem v := by
  have hdepth := depth_last hg hlvl
  have hle := mapNum_le (x := x) (l := 3) (n := n) hg
  refine usedCount_congr fun i hi => ?_
  refine (lastCleared_touch hI hlvl hu hc n y (k + 1) v i (by omega) hv hi fun j hj heq => ?_).2
  exact hother (hI.tree.cell_unique (apart hg s) (by omega) (by omega) hv hc hi
    (show j < d.ptesPerTable by omega) heq).2.1.symm

/-- The cleared entries are in use no more. -/
theorem lastCleared_used : usedCount d s.mem c =
      usedCount d (lastCleared d x s (u + d.idx x k) c n).mem c + (mapNum d x 3 n).toNat := by
  have hdepth := depth_last hg hlvl
  obtain ⟨-, hne⟩ := last_entry hI hlvl hu hc
  have hle := mapNum_le (x := x) (l := 3) (n := n) hg
  refine usedCount_fill (a := d.lvlIdx x 3) hle (fun i h₁ h₂ => ⟨?_, hused i h₁ h₂⟩) (fun i hi hout => ?_)
  · exact lastCleared_zero hI hlvl hu hc h₁ h₂
  · rw [lastCleared_mem hne hg, if_neg (fun h => hne i hi h.symm), if_neg (fun h => hout (by omega))]
    exact ((dropHint_mem d s x 3 _ _ (c + i)).touch (hI.typed x (k + 1) c i (by omega) hc hi)).2.symm

include hnum

theorem Counted.lastCleared (hC : Counted hg s.mem) (hsafe : CountSafe hg s (lastSwept d s x c n)) :
    Counted hg (lastCleared d x s (u + d.idx x k) c n).mem := by
  have hdepth := depth_last hg hlvl
  obtain ⟨-, hne⟩ := last_entry hI hlvl hu hc
  refine Counted.prune (hI.lastCleared hlvl hu hc n).edit (by omega) hc (fun j hj => ?_) ?_
  · rw [lastCleared_zero hI hlvl hu hc hj.1 hj.2, pteView_zero]
    rfl
  · intro y j w v hj hw hv _
    obtain rfl : j = k := by omega
    have hold : iopteTblcnt (s.mem (w + d.idx y j)) = _ := hC y j w v hj hw hv
    have hkeep := (dropHint_mem d s x 3 (c + d.lvlIdx x 3) (BitVec.ofInt 64 (mapNum d x 3 n)).toNat
      (w + d.idx y j)).eq_of_plain (hsafe y j w v hj hw hv)
    by_cases hhere : SamePath (shape d hg) (j + 1) x y
    · obtain ⟨hpath, hidx⟩ := samePath_succ.mp hhere
      have hidx' : d.idx x j = d.idx y j := hidx
      obtain rfl := TableAt.unique hu hw hpath
      obtain rfl := TableAt.unique hc hv hhere
      have hcount := lastCleared_used (n := n) hI hlvl hu hc hused
      rw [← hidx'] at hold hkeep ⊢
      rw [lastCleared_mem hne hg, if_pos rfl, hkeep, iopteTblcnt_sub, hold]
      omega
    · have hentry : w + d.idx y j ≠ u + d.idx x j := by
        intro heq
        obtain ⟨-, hsame, hidx⟩ := hI.tree.cell_unique (apart hg s) (by omega) (by omega) hw hu
          (lvlIdx_lt hg y _) (lvlIdx_lt hg x _) heq
        exact hhere (samePath_succ.mpr ⟨hsame.symm, hidx.symm⟩)
      have hentry' : ∀ i < d.ptesPerTable, w + d.idx y j ≠ c + i := by
        intro i hi heq
        have := (hI.tree.cell_unique (apart hg s) (by omega) (by omega) hw hc (lvlIdx_lt hg y _) hi heq).1
        omega
      have hle := mapNum_le (x := x) (l := 3) (n := n) hg
      rw [lastCleared_mem hne hg, if_neg hentry,
        if_neg (fun h => hentry' (w + d.idx y j - c) (by omega) (by omega)), hkeep, hold,
        lastCleared_used_other hI hlvl hu hc hv hhere]

end

end Sm8850.Iopt
