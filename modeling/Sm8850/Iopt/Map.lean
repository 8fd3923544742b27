import Sm8850.Iopt.Tree

/-! Mapping: the tables a mapping walk adds on its way down, and the leaves it writes at the
end. -/
namespace Sm8850.Iopt
open TableTree Nat

variable {d : Data} {hg : Geom d} {s s' : State} {x y k t pg : Nat} {e : U64}

/-! ### New tables -/

/-- An empty page hung below an empty entry. -/
def linkTable (d : Data) (s : State) (ptep pg : Nat) (e : U64) : State where
  mem a := if a = ptep then e else if pg ≤ a ∧ a < pg + pageWords d then 0 else s.mem a
  pages := pg :: s.pages
  supply n := s.supply (n + 1)

/-- What the next step of a mapping walk finds or makes. -/
theorem childTable_cases (d : Data) (s : State) (ptep lvl : Nat) :
    (s.mem ptep ≠ 0 ∧ iopteLeaf d (s.mem ptep) lvl ∧ childTable d s ptep lvl = (s, .error .eexist)) ∨
    (s.mem ptep = 0 ∧ childTable d s ptep lvl = ({ s with supply := fun n => s.supply (n + 1) }, .error .enomem)) ∨
    (s.mem ptep ≠ 0 ∧ iopteLeaf d (s.mem ptep) lvl = false ∧
      childTable d s ptep lvl = (s, .ok (iopteDeref d (s.mem ptep)))) ∨
    (s.mem ptep = 0 ∧ ∃ pg e, freePage d s pg ∧ TableEntry d pg 0 e ∧
      childTable d s ptep lvl = (linkTable d s ptep pg e, .ok pg)) := by
  unfold childTable
  dsimp only
  by_cases hz : s.mem ptep = 0
  · rw [if_pos hz]
    rcases allocPages_cases d s with h | ⟨pg, hfree, h⟩
    · exact .inr (.inl ⟨hz, by rw [h]⟩)
    · refine .inr (.inr (.inr ⟨hz, pg, ?_⟩))
      rw [h]
      generalize hs₁ : State.mk _ _ _ = s₁
      have hold : s₁.mem ptep = 0 := by
        subst hs₁
        simp [hz]
      obtain ⟨e, he, hinst⟩ := installTable_hit (d := d) hold
      refine ⟨e, hfree, he, ?_⟩
      dsimp only
      rw [hinst]
      subst hs₁
      simp only [if_true, writePte, setPte, linkTable, Prod.mk.injEq, State.mk.injEq, and_true]
      funext a
      by_cases ha : a = ptep
      · rw [if_pos ha, if_pos (by omega)]
      · rw [if_neg ha, if_neg (by omega)]
  · rw [if_neg hz]
    cases hl : iopteLeaf d (s.mem ptep) lvl with
    | true => exact .inl ⟨hz, rfl, rfl⟩
    | false => exact .inr (.inr (.inl ⟨hz, rfl, rfl⟩))

/-- What an entry for a new table looks like where it is installed. -/
theorem pteView_install {refcount : Int} [Fact (Fits d)] (hk : k + 1 < (shape d hg).depth) (hfree : freePage d s pg)
    (he : TableEntry d pg refcount e) : pteView d (d.startLevel + k) e = .table pg ∧ Typed d (d.startLevel + k) e := by
  obtain ⟨-, hal, hlt⟩ := freePage_iff.mp hfree
  obtain ⟨hview, htyped, -⟩ := pteView_tableEntry hg hal hlt he (level_le hk)
  exact ⟨hview, htyped⟩

section
variable (hI : Inv hg s) [Fact (Fits d)] (hk : k + 1 < (shape d hg).depth)
  (ht : TableAt hg s.mem x k t) (hz : s.mem (t + d.idx x k) = 0)
  (hfree : freePage d s pg = true) (he : TableEntry d pg 0 e)
include hI hk ht hz hfree he

/-- A new empty table changes no translation. -/
theorem Inv.link : Inv hg (linkTable d s (t + d.idx x k) pg e) ∧
    EditAt (shape d hg) s.mem (linkTable d s (t + d.idx x k) pg e).mem x k (· = d.idx x k) ∧
    tableAt (shape d hg) (linkTable d s (t + d.idx x k) pg e).mem x (k + 1) = some pg ∧
    ∀ y, translation d (linkTable d s (t + d.idx x k) pg e).mem y = translation d s.mem y := by
  obtain ⟨hview, htyped⟩ := pteView_install hk hfree he
  have hmem : ∀ a, (linkTable d s (t + d.idx x k) pg e).mem a =
      if a = t + d.idx x k then e
      else if pg ≤ a ∧ a < pg + pageWords d then (fun _ => 0) (a - pg) else s.mem a := fun _ => rfl
  have hE := hI.graft_editAt (e := e) (c := fun _ => 0) hk ht hfree hmem
  obtain ⟨hI', hnext⟩ := hI.graft hk ht hfree hmem hview (fun i _ => by rw [pteView_zero]; rfl) rfl htyped
    (fun i _ => Typed.zero d _)
  refine ⟨hI', hE, hnext x ⟨SamePath.refl k x, rfl⟩, fun y => ?_⟩
  by_cases hy : Hits (shape d hg) x k (· = d.idx x k) y
  · -- both walks end here: before at the empty entry, afterwards in the empty table
    have hyidx : d.idx y k = d.idx x k := hy.2
    have hbefore : translation d s.mem y = none :=
      translation_empty hg (lt_of_succ_lt hk) ((tableAt_congr hy.1).symm.trans ht) (by rw [hyidx, hz])
    rw [hbefore]
    exact translation_empty hg hk (hnext y hy)
      (hI.graft_cell (e := e) (c := fun _ => 0) hk ht hfree hmem (lvlIdx_lt hg y _))
  · exact translation_congr hg (hE.miss hy).2

end

/-! ### The way down -/

/-- States a mapping walk for `x` goes through on its way down. -/
inductive Grow (hg : Geom d) (x : Nat) (s : State) : State → Prop
  | refl : Grow hg x s s
  | starved {s' : State} : Grow hg x s s' → Grow hg x s { s' with supply := fun n => s'.supply (n + 1) }
  | link {s' : State} {k t pg : Nat} {e : U64} : Grow hg x s s' → k + 1 < (shape d hg).depth →
      tableAt (shape d hg) s'.mem x k = some t → s'.mem (t + d.lvlIdx x (d.startLevel + k)) = 0 →
      freePage d s' pg = true → TableEntry d pg 0 e →
      Grow hg x s (linkTable d s' (t + d.lvlIdx x (d.startLevel + k)) pg e)

theorem Grow.trans {s₁ s₂ : State} (h₁ : Grow hg x s s₁) (h₂ : Grow hg x s₁ s₂) : Grow hg x s s₂ := by
  induction h₂ with
  | refl => exact h₁
  | starved _ ih => exact ih.starved
  | link _ hk ht hz hfree he ih => exact ih.link hk ht hz hfree he

theorem Inv.supply (hI : Inv hg s) (f : Nat → Option Nat) : Inv hg { s with supply := f } :=
  ⟨⟨hI.tree.pages, hI.tree.unique⟩, hI.typed⟩

/-- The way down changes no translation. -/
theorem Grow.inv (h : Grow hg x s s') [Fact (Fits d)] (hI : Inv hg s) :
    Inv hg s' ∧ ∀ y, translation d s'.mem y = translation d s.mem y := by
  induction h with
  | refl => exact ⟨hI, fun _ => rfl⟩
  | starved _ ih => exact ⟨ih.1.supply _, ih.2⟩
  | link _ hk ht hz hfree he ih =>
    obtain ⟨hI', -, -, htr⟩ := ih.1.link hk ht hz hfree he
    exact ⟨hI', fun y => (htr y).trans (ih.2 y)⟩

/-- The entry that points to the key's table at a depth, none above the first. -/
def PrevOf (hg : Geom d) (s : State) (x : Nat) : Nat → Option Nat → Prop
  | 0, prev => prev = none
  | k + 1, prev => ∃ u, tableAt (shape d hg) s.mem x k = some u ∧ prev = some (u + d.lvlIdx x (d.startLevel + k))

/-- What a request asks of the level it is mapped on: blocks of this level, or whole groups of
them that carry the contiguous hint. -/
inductive LeafReq (d : Data) (size pgcount : Nat) (prot : U64) (l : Nat) : Nat → U64 → Prop
  | block : size = d.blockSize l → LeafReq d size pgcount prot l pgcount prot
  | group : pteIsContiguousRange d size l = true → d.startLevel < l →
      LeafReq d size pgcount prot l (findNumCont d l * pgcount) (prot ||| pteCont)

/-- The leaf case of `__arm_lpae_map`, with and without a map state. -/
def mapLeafWith (d : Data) (iova paddr : Nat) (s : State) (pgcount : Nat) (prot : U64) (lvl tbl : Nat)
    (prev : Option Nat) : Option MapState → State × Except Errno U64 × Option MapState
  | none =>
    let r := mapLeaf d iova paddr s (d.blockSize lvl) pgcount prot lvl tbl prev
    (r.1, r.2, none)
  | some _ =>
    let r := mapLeafCached d iova paddr s (d.blockSize lvl) pgcount prot lvl tbl prev
    (r.1, r.2.1, some r.2.2)

/-- A mapping walk either gives up on the way down or ends with the leaf case. -/
inductive MapEnd (hg : Geom d) (iova paddr size pgcount : Nat) (prot : U64) (ms : Option MapState)
    (s : State) : State × Except Errno U64 × Option MapState → Prop
  | fail {s' : State} (e : Errno) : Grow hg iova s s' → MapEnd hg iova paddr size pgcount prot ms s (s', .error e, ms)
  | leaf {s' : State} {k tbl n : Nat} {prot' : U64} {prev : Option Nat} : Grow hg iova s s' →
      k < (shape d hg).depth → tableAt (shape d hg) s'.mem iova k = some tbl → PrevOf hg s' iova k prev →
      LeafReq d size pgcount prot (d.startLevel + k) n prot' →
      MapEnd hg iova paddr size pgcount prot ms s
        (mapLeafWith d iova paddr s' n prot' (d.startLevel + k) tbl prev ms)

section
variable {paddr size pgcount tbl r : Nat} {prot : U64} {prev : Option Nat} {ms : Option MapState}

theorem MapEnd.of_grow {res : State × Except Errno U64 × Option MapState} (hs : Grow hg x s s')
    (h : MapEnd hg x paddr size pgcount prot ms s' res) : MapEnd hg x paddr size pgcount prot ms s res := by
  cases h with
  | fail e h => exact .fail e (hs.trans h)
  | leaf h hk ht hp hreq => exact .leaf (hs.trans h) hk ht hp hreq

theorem lpaeMap_leaf (hsize : size = d.blockSize (3 - r)) : lpaeMap d x paddr (r + 1) s size pgcount prot tbl prev ms =
      mapLeafWith d x paddr s pgcount prot (3 - r) tbl prev ms := by
  cases ms <;> simp only [lpaeMap, hsize, if_true, mapLeafWith]

/-- The next table, whether it was there or is new. -/
theorem childTable_ok (hI : Inv hg s) [Fact (Fits d)] (hk : k + 1 < (shape d hg).depth)
    (ht : tableAt (shape d hg) s.mem x k = some t) {c : Nat}
    (h : childTable d s (t + d.idx x k) (d.startLevel + k) = (s', .ok c)) :
    Grow hg x s s' ∧ tableAt (shape d hg) s'.mem x (k + 1) = some c ∧
      PrevOf hg s' x (k + 1) (some (t + d.idx x k)) := by
  rcases childTable_cases d s (t + d.idx x k) (d.startLevel + k) with
    ⟨-, -, h'⟩ | ⟨-, h'⟩ | ⟨hne, hleaf, h'⟩ | ⟨hz, pg, e, hfree, he, h'⟩
  · rw [h] at h'; cases h'
  · rw [h] at h'; cases h'
  · rw [h] at h'
    cases h'
    refine ⟨.refl, ?_, t, ht, rfl⟩
    rw [tableAt_next ht]
    change (pteView d (d.startLevel + k) (s.mem (t + d.idx x k))).next = _
    rw [pteView, if_neg hne, if_neg (by simp [hleaf])]
    rfl
  · rw [h] at h'
    cases h'
    obtain ⟨-, hE, hnext, -⟩ := hI.link hk ht hz hfree he
    exact ⟨.link .refl hk ht hz hfree he, hnext, t, hE.table_same (lt_of_succ_lt hk) ht (SamePath.refl k x), rfl⟩

theorem lpaeMap_end (hI : Inv hg s) [Fact (Fits d)] (hr : d.startLevel + k + (r + 1) = 4)
    (ht : tableAt (shape d hg) s.mem x k = some tbl) (hp : PrevOf hg s x k prev) :
    MapEnd hg x paddr size pgcount prot ms s (lpaeMap d x paddr (r + 1) s size pgcount prot tbl prev ms) := by
  induction r generalizing s k tbl prev with
  | zero =>
    have hlvl : 3 - 0 = d.startLevel + k := by omega
    have hk := lt_depth hg (show d.startLevel + k < 4 by omega)
    by_cases hsize : size = d.blockSize (3 - 0)
    · rw [lpaeMap_leaf hsize]
      rw [hlvl] at hsize ⊢
      exact .leaf .refl hk ht hp (.block hsize)
    · simp only [lpaeMap, hsize, if_false, if_true]
      exact .fail _ .refl
  | succ r ih =>
    have hlvl : 3 - (r + 1) = d.startLevel + k := by omega
    have hk := lt_depth hg (show d.startLevel + (k + 1) < 4 by omega)
    by_cases hsize : size = d.blockSize (3 - (r + 1))
    · rw [lpaeMap_leaf hsize]
      rw [hlvl] at hsize ⊢
      exact .leaf .refl (lt_of_succ_lt hk) ht hp (.block hsize)
    · rw [lpaeMap.eq_def]
      dsimp only
      rw [hlvl] at hsize ⊢
      simp only [hsize, if_false, show ¬ d.startLevel + k = 3 by omega]
      cases hch : childTable d s (tbl + d.idx x k) (d.startLevel + k) with
      | mk s' ret =>
        cases ret with
        | error err =>
          rcases childTable_cases d s (tbl + d.idx x k) (d.startLevel + k) with
            ⟨-, -, h'⟩ | ⟨-, h'⟩ | ⟨-, -, h'⟩ | ⟨-, pg, e, -, -, h'⟩
          · rw [hch] at h'; cases h'
            exact .fail _ .refl
          · rw [hch] at h'; cases h'
            exact .fail _ (.starved .refl)
          · rw [hch] at h'; cases h'
          · rw [hch] at h'; cases h'
        | ok c =>
          obtain ⟨hgrow, hc, hprev⟩ := childTable_ok hI hk ht hch
          have hI' := (hgrow.inv hI).1
          have hnext : 3 - r = d.startLevel + (k + 1) := by omega
          dsimp only
          split
          · rename_i hcont
            rw [lpaeMap_leaf (by rw [hnext]; rfl), hnext]
            exact .leaf hgrow hk hc hprev (.group hcont (by omega))
          · exact (ih hI' (by omega) hc hprev).of_grow hgrow

end

/-! ### The leaves -/

theorem touch_tblcntSet {e : U64} (h : iopteType e ≠ 0) (v : Int) : Touch e (iopteTblcntSet e v) := by
  have hval := iopteVal_tblcntSet e v
  have hzero : ∀ e' : U64, iopteVal e' = iopteVal e → e' ≠ 0 := by
    rintro e' he' rfl
    rw [← iopteType_congr he'] at h
    exact h (by decide)
  exact ⟨hval, iff_of_false (hzero _ hval) (hzero e rfl)⟩

/-- What `arm_lpae_init_pte` does when no entry is in use. -/
theorem initPte_some {paddr lvl ptep : Nat} {prot : U64} {num : Int} {prev : Option Nat}
    (h : initPte d s paddr prot lvl num ptep prev = some s') :
    (∀ i < num.toNat, s.mem (ptep + i) &&& pteValid = 0) ∧ s'.pages = s.pages ∧ s'.supply = s.supply ∧
      ∀ a, s'.mem a = if prev = some a then iopteTblcntAdd ((fillPte d s paddr prot lvl num.toNat ptep).mem a) num
        else (fillPte d s paddr prot lvl num.toNat ptep).mem a := by
  unfold initPte at h
  split at h
  · cases h
  · rename_i hany
    have hfree : ∀ i < num.toNat, s.mem (ptep + i) &&& pteValid = 0 := by
      intro i hi
      by_contra hv
      exact hany (List.any_eq_true.mpr ⟨i, List.mem_range.mpr hi, by simpa using hv⟩)
    refine ⟨hfree, ?_⟩
    cases prev with
    | none => cases h; exact ⟨rfl, rfl, fun a => by simp⟩
    | some p =>
      cases h
      refine ⟨rfl, rfl, fun a => ?_⟩
      by_cases ha : a = p
      · subst ha
        rw [if_pos rfl]
        exact if_pos ⟨le_rfl, lt_succ_self a⟩
      · rw [if_neg (fun hh => ha (Option.some.inj hh).symm)]
        exact if_neg (by omega)

/-- The entry above a table is a table entry, at another place than the table's own cells. -/
theorem PrevOf.cell {prev : Option Nat} {p : Nat} (hp : PrevOf hg s x k prev) (hprev : prev = some p)
    (hI : Inv hg s) [Fact (Fits d)] (hk : k < (shape d hg).depth) (ht : TableAt hg s.mem x k t) :
    iopteType (s.mem p) = pteTypeTable ∧ ∀ i < d.ptesPerTable, p ≠ t + i := by
  cases k with
  | zero =>
    rw [hp] at hprev
    cases hprev
  | succ k =>
    obtain ⟨u, hu, hpu⟩ := hp
    rw [hpu] at hprev
    cases hprev
    have hk' : k < (shape d hg).depth := lt_of_succ_lt hk
    have hidx := idx_lt hg x k
    constructor
    · have hview : pteView d (d.startLevel + k) (s.mem (u + d.idx x k)) = .table t := by
        obtain ⟨u', hu', hv⟩ := tableAt_succ ht
        rw [hu] at hu'
        cases hu'
        exact hv
      rcases hI.typed x k u _ hk' hu hidx with h | h | h
      · rw [h, pteView_zero] at hview
        cases hview
      · rw [pteView, h] at hview
        split at hview
        · cases hview
        · cases hview
      · exact h.2
    · intro i hi heq
      have := (hI.tree.cell_unique (apart hg s) hk' hk hu ht hidx hi heq).1
      omega

section
variable {paddr : Nat} {prot : U64} {num : Int} {prev : Option Nat} (hI : Inv hg s) [Fact (Fits d)]
  (hk : k < (shape d hg).depth) (ht : TableAt hg s.mem x k t) (hp : PrevOf hg s x k prev)
  (hprot : iopteVal prot = 0)
  (hn : d.idx x k + num.toNat ≤ d.ptesPerTable)
  (h : initPte d s paddr prot (d.startLevel + k) num (t + d.idx x k) prev = some s')
include hI hk ht hp hprot hn h

omit hprot in
/-- The cells of the tree after the leaves were written. -/
theorem initPte_cell {i : Nat} (h₁ : d.idx x k ≤ i)
    (h₂ : i < d.idx x k + num.toNat) : s'.mem (t + i) = leafPte d prot (d.startLevel + k)
      (paddr + (i - d.idx x k) * d.blockSize (d.startLevel + k)) := by
  obtain ⟨-, -, -, hmem⟩ := initPte_some h
  have hne : prev ≠ some (t + i) := fun hh => (hp.cell hh hI hk ht).2 i (by omega) rfl
  rw [hmem, if_neg hne, fillPte]
  dsimp only
  rw [if_pos (by omega)]
  congr 3
  omega

omit hI [Fact (Fits d)] hk ht hp hprot hn in
/-- Outside the leaves only the count above the table changes. -/
theorem initPte_keep {a : Nat} (ha : ∀ i, d.idx x k ≤ i ∧ i < d.idx x k + num.toNat → a ≠ t + i) :
    s'.mem a = if prev = some a then iopteTblcntAdd (s.mem a) num else s.mem a := by
  obtain ⟨-, -, -, hmem⟩ := initPte_some h
  have hout : (fillPte d s paddr prot (d.startLevel + k) num.toNat
      (t + d.idx x k)).mem a = s.mem a := by
    rw [fillPte]
    dsimp only
    rw [if_neg]
    rintro ⟨h₁, h₂⟩
    exact ha (a - t) ⟨by omega, by omega⟩ (by omega)
  rw [hmem, hout]

omit hprot hn in
theorem initPte_touch {a : Nat} (ha : ∀ i, d.idx x k ≤ i ∧
      i < d.idx x k + num.toNat → a ≠ t + i) : Touch (s.mem a) (s'.mem a) := by
  rw [initPte_keep h ha]
  split
  · rename_i hprev
    refine touch_tblcntSet ?_ _
    rw [(hp.cell hprev hI hk ht).1]
    decide
  · exact Touch.refl _

/-- The new leaves, and nothing else, change the translation. -/
theorem Inv.initPte : Inv hg s' ∧ EditAt (shape d hg) s.mem s'.mem x k (fun i => d.idx x k ≤ i ∧
      i < d.idx x k + num.toNat) := by
  have hIw : ∀ i, d.idx x k ≤ i ∧ i < d.idx x k + num.toNat →
      i < d.ptesPerTable := fun i hi => by omega
  have hkeep : ∀ y j u i, j < (shape d hg).depth → TableAt hg s.mem y j u →
      i < d.ptesPerTable → (∀ i', d.idx x k ≤ i' ∧
        i' < d.idx x k + num.toNat → u + i ≠ t + i') →
      Touch (s.mem (u + i)) (s'.mem (u + i)) :=
    fun y j u i _ _ _ hne => initPte_touch hI hk ht hp h hne
  refine ⟨hI.prune hk ht hIw hkeep (fun i hi => ?_) (fun y j u hj hu _ => ?_), hI.editAt hk ht hIw hkeep⟩
  · rw [initPte_cell hI hk ht hp hn h hi.1 hi.2]
    exact ⟨by rw [pteView_leafPte hprot]; rfl, typed_leafPte hprot⟩
  · rw [(initPte_some h).2.1]
    exact (hI.tree.pages y j u hj hu).1

/-- Where the new leaves lead. -/
theorem initPte_translation {y : Nat} (hy : Hits (shape d hg) x k (fun i => d.idx x k ≤ i ∧
      i < d.idx x k + num.toNat) y) :
    translation d s'.mem y = some (leafPhys d (d.startLevel + k) (leafPte d prot (d.startLevel + k)
      (paddr + (d.idx y k - d.idx x k) * d.blockSize (d.startLevel + k))) y) := by
  obtain ⟨-, hE⟩ := Inv.initPte hI hk ht hp hprot hn h
  have hcell := initPte_cell hI hk ht hp hn h hy.2.1 hy.2.2
  have hcell' : s'.mem (t + d.idx y k) = _ := hcell
  rw [translation_leaf hg hk (hE.table_same hk ht hy.1) (by rw [hcell']; exact leafPte_ne_zero hprot)
    (by rw [hcell']; exact iopteLeaf_leafPte hprot), hcell']
  rfl

end

end Sm8850.Iopt
