import Sm8850.Iopt.Unmap

/-! How every call of `__arm_lpae_unmap` ends: with entries of its size, above a last-level
table, or with a block that is split on the way. -/
namespace Sm8850.Iopt
open TableTree

variable {d : Data} {hg : Geom d} {s s' : State} {x y i k l n r t pg : Nat} {e : U64}

/-! ### The table for a block -/

/-- Entry `i` of the table that takes the place of a block. -/
def splitEntry (d : Data) (blkPte : U64) (lvl : Nat) (start num : Int) (i : Nat) : U64 :=
  if i < d.ptesPerTable ∧ splitKeeps start num i then
    leafPte d (iopteProt blkPte) lvl ((iopteToPaddr d blkPte).toNat + i * d.blockSize lvl)
  else 0

/-- The number of its entries in use. -/
def splitCount (d : Data) (start num : Int) : Nat := (List.range d.ptesPerTable).countP (splitKeeps start num)

/-- The table on a new page, in the place of the block at `ptep`. -/
def splitTable (d : Data) (s : State) (ptep pg : Nat) (e : U64) (lvl : Nat) (start num : Int) : State where
  mem a := if a = ptep then e
    else if pg ≤ a ∧ a < pg + pageWords d then splitEntry d (s.mem ptep) lvl start num (a - pg)
    else s.mem a
  pages := pg :: s.pages
  supply n := s.supply (n + 1)

/-- Only cells outside the tree differ. -/
structure Spare (hg : Geom d) (s s' : State) : Prop where
  pages : s'.pages = s.pages
  cells : ∀ y j u i, j < (shape d hg).depth → tableAt (shape d hg) s.mem y j = some u → i < d.ptesPerTable →
    s'.mem (u + i) = s.mem (u + i)

theorem Spare.refl (hg : Geom d) (s : State) : Spare hg s s := ⟨rfl, fun _ _ _ _ _ _ _ => rfl⟩

theorem Spare.supply (hg : Geom d) (s : State) (f : Nat → Option Nat) : Spare hg s { s with supply := f } :=
  ⟨rfl, fun _ _ _ _ _ _ _ => rfl⟩

theorem Spare.inv (h : Spare hg s s') (hI : Inv hg s) :
    Inv hg s' ∧ (∀ y, ∀ j ≤ (shape d hg).depth, tableAt (shape d hg) s'.mem y j = tableAt (shape d hg) s.mem y j) ∧
      ∀ y, translation d s'.mem y = translation d s.mem y :=
  hI.touch (fun y j u i hj hu hi => Touch.of_eq (h.cells y j u i hj hu hi)) (fun _ hp => h.pages ▸ hp)

theorem iopteProt_cont (pte : U64) : iopteProt pte &&& pteCont = 0 := by
  rw [iopteProt, BitVec.and_assoc, show pteAttrMask &&& pteCont = 0#64 by decide, BitVec.and_zero]
  rfl

theorem leafPte_cont {prot : U64} {paddr : Nat} (h : prot &&& pteCont = 0) :
    leafPte d prot l paddr &&& pteCont = 0 := by
  have hty : leafType d l &&& pteCont = 0#64 := by
    rcases leafType_cases d l with h | h <;> rw [h] <;> decide
  have haddr : paddrToIopte paddr &&& pteCont = 0#64 := by
    rw [paddrToIopte, BitVec.and_assoc, show pteAddrMask &&& pteCont = 0#64 by decide, BitVec.and_zero]
  rw [leafPte, BitVec.and_or_distrib_right, BitVec.and_or_distrib_right, h, hty, haddr]
  rfl

theorem splitEntry_cont (blkPte : U64) (lvl : Nat) (start num : Int) (i : Nat) :
    splitEntry d blkPte lvl start num i &&& pteCont = 0 := by
  unfold splitEntry
  split
  · exact leafPte_cont (iopteProt_cont blkPte)
  · decide

theorem splitEntry_view (blkPte : U64) (lvl : Nat) (start num : Int) (i : Nat) :
    (pteView d lvl (splitEntry d blkPte lvl start num i)).next = none ∧
      Typed d lvl (splitEntry d blkPte lvl start num i) := by
  unfold splitEntry
  split
  · rw [pteView_leafPte (iopteVal_iopteProt blkPte)]
    exact ⟨rfl, typed_leafPte (iopteVal_iopteProt blkPte)⟩
  · rw [pteView_zero]
    exact ⟨rfl, Typed.zero d lvl⟩

section
variable (hI : Inv hg s) [Fact (Fits d)] (ht : TableAt hg s.mem x k t)
  (hfree : freePage d s pg = true)

include hI ht hfree

/-- Hanging the table for a block in its place. -/
theorem Inv.split {refcount a b : Int} (hk : k + 1 < (shape d hg).depth) (he : TableEntry d pg refcount e) :
    Inv hg (splitTable d s (t + d.idx x k) pg e (d.startLevel + (k + 1)) a b) ∧ EditAt (shape d hg) s.mem
      (splitTable d s (t + d.idx x k) pg e (d.startLevel + (k + 1)) a b).mem x k (· = d.idx x k) ∧
    (∀ y, Hits (shape d hg) x k (· = d.idx x k) y → tableAt (shape d hg)
      (splitTable d s (t + d.idx x k) pg e (d.startLevel + (k + 1)) a b).mem y (k + 1) = some pg) ∧
    ∀ i < d.ptesPerTable, (splitTable d s (t + d.idx x k) pg e (d.startLevel + (k + 1)) a b).mem (pg + i) =
        splitEntry d (s.mem (t + d.idx x k)) (d.startLevel + (k + 1)) a b i := by
  obtain ⟨hview, htyped⟩ := pteView_install hk hfree he
  have hmem : ∀ a', (splitTable d s (t + d.idx x k) pg e (d.startLevel + (k + 1)) a b).mem a' =
      if a' = t + d.idx x k then e
      else if pg ≤ a' ∧ a' < pg + pageWords d then
        splitEntry d (s.mem (t + d.idx x k)) (d.startLevel + (k + 1)) a b (a' - pg)
      else s.mem a' := fun _ => rfl
  have hcell : ∀ i < d.ptesPerTable, _ := fun i hi => hI.graft_cell (e := e)
    (c := splitEntry d (s.mem (t + d.idx x k)) (d.startLevel + (k + 1)) a b)
    hk ht hfree hmem hi
  obtain ⟨hI', hnext⟩ := hI.graft hk ht hfree hmem hview (fun i _ => (splitEntry_view _ _ a b i).1) rfl htyped
    (fun i _ => (splitEntry_view _ _ a b i).2)
  exact ⟨hI', hI.graft_editAt (e := e) hk ht hfree hmem, hnext, hcell⟩

end

/-! ### Splitting -/

/-- A block on the way is not hinted, or no hint counts. -/
def Plain (d : Data) (pte : U64) : Prop := d.cfg.contigHint = false ∨ pte &&& pteCont = 0

theorem Plain.dropHint {ptep : Nat} (h : Plain d (s.mem ptep)) : dropHint d s x l ptep n = s := by
  rcases h with h | h
  · exact dropHint_off h
  · exact dropHint_plain h

/-- The first unmapped entry of the table for a block, if the size is that of its entries. -/
def splitStart (d : Data) (x size lvl : Nat) : Int := if size = d.blockSize lvl then d.lvlIdx x lvl else -1

/-- The number of unmapped entries. -/
def splitNum (d : Data) (x size pgcount lvl : Nat) : Int :=
  if size = d.blockSize lvl then mapNum d x lvl pgcount else 0

section
variable {size pgcount : Nat} {blkPte : U64} {next : State → Nat → Nat → Nat → State × U64}

theorem splitFill_mem {a b : Int} {tablep : Nat} {s₁ : State} [Fact (Fits d)]
    (hz : ∀ a', tablep ≤ a' ∧ a' < tablep + pageWords d → s₁.mem a' = 0)
    (hs : ∀ a', ¬ (tablep ≤ a' ∧ a' < tablep + pageWords d) → s₁.mem a' = s.mem a') (a' : Nat) :
    (splitFill d s₁ blkPte l tablep a b).mem a' =
      if tablep ≤ a' ∧ a' < tablep + pageWords d then splitEntry d blkPte l a b (a' - tablep) else s.mem a' := by
  have hle : d.ptesPerTable ≤ pageWords d := fits
  unfold splitFill
  dsimp only
  by_cases hin : tablep ≤ a' ∧ a' < tablep + pageWords d
  · rw [if_pos hin, splitEntry, hz a' hin]
    by_cases hkeep : a' - tablep < d.ptesPerTable ∧ splitKeeps a b (a' - tablep)
    · rw [if_pos hkeep, if_pos ⟨hin.1, by omega, hkeep.2⟩]
    · rw [if_neg hkeep, if_neg (fun h => hkeep ⟨by omega, h.2.2⟩)]
  · rw [if_neg hin, if_neg (fun h => hin ⟨h.1, by omega⟩), hs a' hin]

/-- `arm_lpae_split_blk_unmap` from the new page on. -/
def splitInstall (d : Data) (s : State) (size pgcount : Nat) (blkPte : U64) (ptep pg lvl : Nat) (start num : Int)
    (next : State → Nat → Nat → Nat → State × U64) : State × U64 :=
  let (s, old) := installTable d (splitFill d s blkPte lvl pg start num) pg ptep blkPte (splitCount d start num)
  if old ≠ blkPte then
    let s := freePages s [pg]
    if iopteType old ≠ pteTypeTable then (s, 0) else next s size pgcount (iopteDeref d old)
  else if 0 ≤ start then (s, BitVec.ofInt 64 (num * size))
  else next s size pgcount pg

theorem splitBlkUnmap_eq {ptep : Nat} {s₁ : State} (hl : 4 - (r + 1) = l) (h : allocPages d s = (s₁, some pg)) :
    splitBlkUnmap d x (r + 1) s size blkPte ptep pgcount next =
      splitInstall d s₁ size pgcount blkPte ptep pg l (splitStart d x size l) (splitNum d x size pgcount l) next := by
  rw [splitBlkUnmap, if_neg (Nat.succ_ne_zero r), h, hl]
  rfl

section
variable {ptep : Nat} {start num : Int} {s₁ : State} [Fact (Fits d)]
  (hz : ∀ a', pg ≤ a' ∧ a' < pg + pageWords d → s₁.mem a' = 0)
  (hs : ∀ a', ¬ (pg ≤ a' ∧ a' < pg + pageWords d) → s₁.mem a' = s.mem a')
  (hpages : s₁.pages = pg :: s.pages) (hoff : ¬ (pg ≤ ptep ∧ ptep < pg + pageWords d))
include hz hs hpages hoff

/-- The block is still there. -/
theorem splitInstall_hit (hsupply : s₁.supply = fun n => s.supply (n + 1)) (hblk : s.mem ptep = blkPte) :
    ∃ e, TableEntry d pg (splitCount d start num) e ∧ splitInstall d s₁ size pgcount blkPte ptep pg l start num next =
        if 0 ≤ start then (splitTable d s ptep pg e l start num, BitVec.ofInt 64 (num * size))
        else next (splitTable d s ptep pg e l start num) size pgcount pg := by
  have hfill : ∀ a', (splitFill d s₁ blkPte l pg start num).mem a' = _ := splitFill_mem hz hs
  have hptep : (splitFill d s₁ blkPte l pg start num).mem ptep = blkPte := by
    rw [hfill, if_neg hoff, hblk]
  obtain ⟨e, he, hinst⟩ : ∃ e, TableEntry d pg (splitCount d start num) e ∧
      installTable d _ pg ptep blkPte (splitCount d start num) = _ := installTable_hit hptep
  have hstate : writePte (splitFill d s₁ blkPte l pg start num) ptep e = splitTable d s ptep pg e l start num := by
    have hmem : (writePte (splitFill d s₁ blkPte l pg start num) ptep e).mem =
        (splitTable d s ptep pg e l start num).mem := by
      funext a
      rw [writePte_mem, hfill, ← hblk]
      rfl
    calc writePte (splitFill d s₁ blkPte l pg start num) ptep e
        = ⟨(writePte (splitFill d s₁ blkPte l pg start num) ptep e).mem, s₁.pages, s₁.supply⟩ := rfl
      _ = splitTable d s ptep pg e l start num := by
        rw [hmem, hpages, hsupply]
        rfl
  refine ⟨e, he, ?_⟩
  rw [splitInstall, hinst, hstate]
  dsimp only
  rw [if_neg (not_not.mpr rfl)]

/-- Something else is there by now, and no table. -/
theorem splitInstall_miss (hfresh : pg ∉ s.pages) (hne : s.mem ptep ≠ blkPte)
    (hty : iopteType (s.mem ptep) ≠ pteTypeTable) :
    ∃ s', s'.pages = s.pages ∧ (∀ a', ¬ (pg ≤ a' ∧ a' < pg + pageWords d) → s'.mem a' = s.mem a') ∧
      splitInstall d s₁ size pgcount blkPte ptep pg l start num next = (s', 0) := by
  have hfill : ∀ a', (splitFill d s₁ blkPte l pg start num).mem a' = _ := splitFill_mem hz hs
  have hptep : (splitFill d s₁ blkPte l pg start num).mem ptep = s.mem ptep := by rw [hfill, if_neg hoff]
  have hinst : installTable d _ pg ptep blkPte (splitCount d start num) = _ :=
    installTable_miss (show (splitFill d s₁ blkPte l pg start num).mem ptep ≠ blkPte by rwa [hptep])
  refine ⟨freePages (splitFill d s₁ blkPte l pg start num) [pg], ?_, ?_, ?_⟩
  · have hp : (splitFill d s₁ blkPte l pg start num).pages = pg :: s.pages := hpages
    rw [freePages, hp, List.filter_cons_of_neg (by simp), List.filter_eq_self]
    intro p hp
    have : p ≠ pg := fun h => hfresh (h ▸ hp)
    simpa using this
  · intro a' ha'
    change (splitFill d s₁ blkPte l pg start num).mem a' = _
    rw [hfill, if_neg ha']
  · rw [splitInstall, hinst]
    dsimp only
    rw [hptep, if_pos hne, if_pos hty]

end

/-- What `arm_lpae_split_blk_unmap` does with the entry it finds in the place of the block. -/
theorem splitBlkUnmap_cases (hI : Inv hg s) [Fact (Fits d)] (hk : k < (shape d hg).depth)
    (ht : TableAt hg s.mem x k t) {ptep : Nat} (hptep : ptep = t + d.idx x k)
    (hl : 4 - (r + 1) = l) (hty : iopteType (s.mem ptep) ≠ pteTypeTable) :
    (∃ s', Spare hg s s' ∧ splitBlkUnmap d x (r + 1) s size blkPte ptep pgcount next = (s', 0)) ∨
    (s.mem ptep = blkPte ∧ ∃ pg e, freePage d s pg ∧
      TableEntry d pg (splitCount d (splitStart d x size l) (splitNum d x size pgcount l)) e ∧
      splitBlkUnmap d x (r + 1) s size blkPte ptep pgcount next = if 0 ≤ splitStart d x size l then
          (splitTable d s ptep pg e l (splitStart d x size l) (splitNum d x size pgcount l),
            BitVec.ofInt 64 (splitNum d x size pgcount l * size))
        else next (splitTable d s ptep pg e l (splitStart d x size l) (splitNum d x size pgcount l))
          size pgcount pg) := by
  rcases allocPages_cases d s with h | ⟨pg, hfree, h⟩
  · refine .inl ⟨_, Spare.supply hg s (fun n => s.supply (n + 1)), ?_⟩
    rw [splitBlkUnmap, if_neg (Nat.succ_ne_zero r), h]
  · generalize hs₁ : State.mk _ _ _ = s₁ at h
    rw [splitBlkUnmap_eq hl h]
    have hoff := hI.off_page hfree hk ht (idx_lt hg x k)
    rw [← hptep] at hoff
    have hz : ∀ a', pg ≤ a' ∧ a' < pg + pageWords d → s₁.mem a' = 0 := by
      intro a' ha'
      rw [← hs₁]
      exact if_pos ha'
    have hs : ∀ a', ¬ (pg ≤ a' ∧ a' < pg + pageWords d) → s₁.mem a' = s.mem a' := by
      intro a' ha'
      rw [← hs₁]
      exact if_neg ha'
    have hpages₁ : s₁.pages = pg :: s.pages := by rw [← hs₁]
    have hsupply₁ : s₁.supply = fun n => s.supply (n + 1) := by rw [← hs₁]
    by_cases hblk : s.mem ptep = blkPte
    · obtain ⟨e, he, heq⟩ := splitInstall_hit hz hs hpages₁ hoff hsupply₁ hblk
      exact .inr ⟨hblk, pg, e, hfree, he, heq⟩
    · obtain ⟨s', hpages, hmem, heq⟩ :=
        splitInstall_miss hz hs hpages₁ hoff (freePage_iff.mp hfree).1 hblk hty
      exact .inl ⟨s', ⟨hpages, fun y j u i hj hu hi => hmem _ (hI.off_page hfree hj hu hi)⟩, heq⟩

end

/-! ### The way down to the block -/

/-- States an unmapping walk for `x` goes through when it splits block after block, down to entries
that are still larger than the size. -/
inductive SplitWay (hg : Geom d) (x size : Nat) (s : State) : State → Prop
  | refl : SplitWay hg x size s s
  | split {s' : State} {k t pg : Nat} {e : U64} : SplitWay hg x size s s' → k + 1 < (shape d hg).depth →
      tableAt (shape d hg) s'.mem x k = some t →
      iopteLeaf d (s'.mem (t + d.lvlIdx x (d.startLevel + k))) (d.startLevel + k) = true →
      Plain d (s'.mem (t + d.lvlIdx x (d.startLevel + k))) →
      (∀ j ≤ k + 1, ¬ Matches d size (d.startLevel + j)) →
      freePage d s' pg = true → TableEntry d pg (splitCount d (-1) 0) e →
      SplitWay hg x size s
        (splitTable d s' (t + d.lvlIdx x (d.startLevel + k)) pg e (d.startLevel + (k + 1)) (-1) 0)

section
variable {size : Nat}

theorem SplitWay.trans {s₁ s₂ : State} (h₁ : SplitWay hg x size s s₁) (h₂ : SplitWay hg x size s₁ s₂) :
    SplitWay hg x size s s₂ := by
  induction h₂ with
  | refl => exact h₁
  | split _ hk ht hleaf hplain hm hfree he ih => exact ih.split hk ht hleaf hplain hm hfree he

theorem SplitWay.inv (h : SplitWay hg x size s s') [Fact (Fits d)] (hI : Inv hg s) : Inv hg s' := by
  induction h with
  | refl => exact hI
  | split _ hk ht _ _ _ hfree he ih => exact (ih.split ht hfree hk he).1

end

/-- An unmapping walk that meets a block at depth `k` splits it, or gives up. -/
inductive SplitEnd (hg : Geom d) (x k t size pgcount : Nat) (s : State) : State × U64 → Prop
  | stop {s' s'' : State} : SplitWay hg x size s s' → Spare hg s' s'' → SplitEnd hg x k t size pgcount s (s'', 0)
  | unhint {s' : State} : d.cfg.contigHint = true →
      s.mem (t + d.lvlIdx x (d.startLevel + k)) &&& pteCont ≠ 0 →
      Spare hg (dropHint d s x (d.startLevel + k) (t + d.lvlIdx x (d.startLevel + k))
        (findNumCont d (d.startLevel + k))) s' →
      SplitEnd hg x k t size pgcount s (s', 0)
  | split {s' : State} {k' t' pg : Nat} {e : U64} : SplitWay hg x size s s' → k' + 1 < (shape d hg).depth →
      tableAt (shape d hg) s'.mem x k' = some t' →
      iopteLeaf d (s'.mem (t' + d.lvlIdx x (d.startLevel + k'))) (d.startLevel + k') = true →
      Plain d (s'.mem (t' + d.lvlIdx x (d.startLevel + k'))) →
      Matches d size (d.startLevel + (k' + 1)) → freePage d s' pg = true →
      TableEntry d pg (splitCount d (d.lvlIdx x (d.startLevel + (k' + 1)))
        (mapNum d x (d.startLevel + (k' + 1)) (checkAndSetNumCont d size (d.startLevel + (k' + 1)) * pgcount))) e →
      SplitEnd hg x k t size pgcount s
        (splitTable d s' (t' + d.lvlIdx x (d.startLevel + k')) pg e (d.startLevel + (k' + 1))
          (d.lvlIdx x (d.startLevel + (k' + 1)))
          (mapNum d x (d.startLevel + (k' + 1)) (checkAndSetNumCont d size (d.startLevel + (k' + 1)) * pgcount)),
        BitVec.ofInt 64 (mapNum d x (d.startLevel + (k' + 1))
          (checkAndSetNumCont d size (d.startLevel + (k' + 1)) * pgcount) * d.blockSize (d.startLevel + (k' + 1))))

section
variable {size pgcount : Nat}

theorem lpaeUnmap_eq : lpaeUnmap d x (r + 1) s size pgcount t = if s.mem (t + d.lvlIdx x (3 - r)) = 0 then (s, 0)
    else if Matches d size (3 - r) then unmapBlocks d x s size pgcount (3 - r) r t
    else if 3 - r = 2 ∧ !iopteLeaf d (s.mem (t + d.lvlIdx x (3 - r))) (3 - r) then
      unmapLastLevel d x s size pgcount (t + d.lvlIdx x (3 - r))
    else if iopteLeaf d (s.mem (t + d.lvlIdx x (3 - r))) (3 - r) then
      splitBlkUnmap d x r (dropHint d s x (3 - r) (t + d.lvlIdx x (3 - r)) (findNumCont d (3 - r)))
        (size / checkAndSetNumCont d size (3 - r + 1)) (s.mem (t + d.lvlIdx x (3 - r))) (t + d.lvlIdx x (3 - r))
        (checkAndSetNumCont d size (3 - r + 1) * pgcount) (lpaeUnmap d x r)
    else lpaeUnmap d x r s size pgcount (iopteDeref d (s.mem (t + d.lvlIdx x (3 - r)))) := rfl

/-- The walk at a block that is larger than the size. -/
theorem lpaeUnmap_leaf {ptep : Nat} (hptep : ptep = t + d.lvlIdx x (3 - r)) (hne : s.mem ptep ≠ 0)
    (hsize : ¬ Matches d size (3 - r)) (hleaf : iopteLeaf d (s.mem ptep) (3 - r)) :
    lpaeUnmap d x (r + 1) s size pgcount t = splitBlkUnmap d x r (dropHint d s x (3 - r) ptep (findNumCont d (3 - r)))
        (size / checkAndSetNumCont d size (3 - r + 1)) (s.mem ptep) ptep
        (checkAndSetNumCont d size (3 - r + 1) * pgcount) (lpaeUnmap d x r) := by
  subst hptep
  rw [lpaeUnmap_eq, if_neg hne, if_neg hsize, if_neg (by simp [hleaf]), if_pos hleaf]

theorem leaf_type_ne_table (hl : l < 3) {pte : U64} (h : iopteLeaf d pte l) : iopteType pte ≠ pteTypeTable := by
  unfold iopteLeaf at h
  rw [if_neg (by omega)] at h
  rw [beq_iff_eq.mp h]
  decide

theorem leaf_ne_zero {pte : U64} (h : iopteLeaf d pte l) : pte ≠ 0 := by
  rintro rfl
  revert h
  unfold iopteLeaf
  split <;> decide

theorem lpaeUnmap_splitEnd (hI : Inv hg s) [Fact (Fits d)] (hr : d.startLevel + k + (r + 1) = 4)
    (ht : TableAt hg s.mem x k t) (hbefore : ∀ j ≤ k, ¬ Matches d size (d.startLevel + j))
    (hleaf : iopteLeaf d (s.mem (t + d.idx x k)) (d.startLevel + k)) :
    SplitEnd hg x k t size pgcount s (lpaeUnmap d x (r + 1) s size pgcount t) := by
  have hsize := hbefore k le_rfl
  induction r generalizing s k t with
  | zero =>
    have hlvl : 3 - 0 = d.startLevel + k := by omega
    rw [lpaeUnmap_leaf (by rw [hlvl]) (leaf_ne_zero hleaf) (by rwa [hlvl]) (by rwa [hlvl]), hlvl, splitBlkUnmap,
      if_pos rfl]
    by_cases hplain : Plain d (s.mem (t + d.idx x k))
    · rw [hplain.dropHint]
      exact .stop .refl (Spare.refl hg s)
    · obtain ⟨hc, hhint⟩ := not_or.mp hplain
      exact .unhint (by simpa using hc) hhint (Spare.refl hg _)
  | succ r ih =>
    have hlvl : 3 - (r + 1) = d.startLevel + k := by omega
    have hnext : 4 - (r + 1) = d.startLevel + (k + 1) := by omega
    have hk := lt_depth hg (show d.startLevel + (k + 1) < 4 by omega)
    have hty := leaf_type_ne_table (by omega) hleaf
    rw [lpaeUnmap_leaf (by rw [hlvl]) (leaf_ne_zero hleaf) (by rwa [hlvl]) (by rwa [hlvl]), hlvl]
    change SplitEnd hg x k t size pgcount s (splitBlkUnmap d x (r + 1) _
      (size / checkAndSetNumCont d size (d.startLevel + (k + 1))) _ _
      (checkAndSetNumCont d size (d.startLevel + (k + 1)) * pgcount) _)
    by_cases hplain : Plain d (s.mem (t + d.idx x k))
    · rw [hplain.dropHint]
      rcases splitBlkUnmap_cases hI (Nat.lt_of_succ_lt hk) ht rfl hnext hty with
        ⟨s', hspare, heq⟩ | ⟨-, pg, e, hfree, he, heq⟩
      · rw [heq]
        exact .stop .refl hspare
      · rw [heq]
        by_cases hm : Matches d size (d.startLevel + (k + 1))
        · rw [hm.div] at he ⊢
          simp only [splitStart, splitNum, if_true] at he ⊢
          exact .split .refl hk ht hleaf hplain hm hfree he
        · -- all entries are kept, and the walk goes on in the table
          have hdiv : size / 1 ≠ d.blockSize (d.startLevel + (k + 1)) := by
            rw [Nat.div_one]
            exact fun h => hm (.inl h)
          rw [checkAndSetNumCont_of_not hm] at he ⊢
          simp only [splitStart, splitNum, if_neg hdiv] at he ⊢
          rw [if_neg (by omega), Nat.div_one, one_mul]
          have hbefore' : ∀ j ≤ k + 1, ¬ Matches d size (d.startLevel + j) := by
            intro j hj
            rcases lt_or_eq_of_le hj with hj | rfl
            · exact hbefore j (Nat.le_of_lt_succ hj)
            · exact hm
          have hway : SplitWay hg x size s _ := .split .refl hk ht hleaf hplain hbefore' hfree he
          obtain ⟨hI', -, htab, hcell⟩ := hI.split (a := -1) (b := 0) ht hfree hk he
          have hhere := htab x ⟨SamePath.refl k x, rfl⟩
          have hentry := hcell _ (idx_lt hg x (k + 1))
          have hleaf' : iopteLeaf d (splitEntry d (s.mem (t + d.idx x k))
              (d.startLevel + (k + 1)) (-1) 0 (d.idx x (k + 1))) (d.startLevel + (k + 1)) := by
            rw [splitEntry, if_pos ⟨lvlIdx_lt hg x _, by simp [splitKeeps]⟩]
            exact iopteLeaf_leafPte (iopteVal_iopteProt _)
          have hend := ih hI' (by omega) hhere hbefore' (by rw [hentry]; exact hleaf') hm
          generalize lpaeUnmap d x (r + 1) _ size pgcount pg = res at hend ⊢
          cases hend with
          | stop h hspare => exact .stop (hway.trans h) hspare
          | unhint _ hhint _ =>
            rw [hentry] at hhint
            exact absurd (splitEntry_cont _ _ _ _ _) hhint
          | split h hk' ht' hleaf' hp' hm' hfree' he' =>
            exact .split (hway.trans h) hk' ht' hleaf' hp' hm' hfree' he'
    · obtain ⟨hc, hhint⟩ := not_or.mp hplain
      have hc' : d.cfg.contigHint := by simpa using hc
      obtain ⟨hI', htab, -⟩ := hI.hintDropped x (d.startLevel + k) (t + d.idx x k)
        (findNumCont d (d.startLevel + k))
      have ht' := htab x k (Nat.lt_of_succ_lt hk).le
      rw [ht] at ht'
      have hself := dropHint_self (t := t) hc' (findNumCont_pos d (d.startLevel + k)) hhint
      have htype := iopteType_congr ((dropHint_mem d s x (d.startLevel + k) (t + d.idx x k)
        (findNumCont d (d.startLevel + k)) (t + d.idx x k)).touch
          (hI.typed x k t _ (Nat.lt_of_succ_lt hk) ht (lvlIdx_lt hg x _))).1
      rcases splitBlkUnmap_cases hI' (Nat.lt_of_succ_lt hk) ht' rfl hnext (by rw [htype]; exact hty) with
        ⟨s', hspare, heq⟩ | ⟨hsame, -⟩
      · rw [heq]
        exact .unhint hc' hhint hspare
      · exact absurd hsame hself

/-- How a call of `__arm_lpae_unmap` ends. -/
inductive UnmapEnd (hg : Geom d) (x size pgcount : Nat) (s : State) : State × U64 → Prop
  | empty : UnmapEnd hg x size pgcount s (s, 0)
  | blocks {k t r : Nat} : d.startLevel + k + (r + 1) = 4 → tableAt (shape d hg) s.mem x k = some t →
      Matches d size (d.startLevel + k) → (d.startLevel + k < 3 ∨ k = 0) →
      UnmapEnd hg x size pgcount s (unmapBlocks d x s size pgcount (d.startLevel + k) r t)
  | last {k u c : Nat} : d.startLevel + k = 2 → tableAt (shape d hg) s.mem x k = some u →
      tableAt (shape d hg) s.mem x (k + 1) = some c → (∀ j ≤ k, ¬ Matches d size (d.startLevel + j)) →
      UnmapEnd hg x size pgcount s
        (unmapLastLevel d x s size pgcount (u + d.lvlIdx x (d.startLevel + k)))
  | split {k t : Nat} {res : State × U64} : k < (shape d hg).depth → tableAt (shape d hg) s.mem x k = some t →
      iopteLeaf d (s.mem (t + d.lvlIdx x (d.startLevel + k))) (d.startLevel + k) = true →
      (∀ j ≤ k, ¬ Matches d size (d.startLevel + j)) → SplitEnd hg x k t size pgcount s res →
      UnmapEnd hg x size pgcount s res

theorem lpaeUnmap_end (hI : Inv hg s) [Fact (Fits d)] (hr : d.startLevel + k + (r + 1) = 4)
    (ht : TableAt hg s.mem x k t) (hdeep : d.startLevel + k < 3 ∨ k = 0)
    (hbefore : ∀ j < k, ¬ Matches d size (d.startLevel + j)) :
    UnmapEnd hg x size pgcount s (lpaeUnmap d x (r + 1) s size pgcount t) := by
  induction r generalizing k t with
  | zero =>
    have hlvl : 3 - 0 = d.startLevel + k := by omega
    have hk := lt_depth hg (show d.startLevel + k < 4 by omega)
    by_cases hz : s.mem (t + d.idx x k) = 0
    · rw [lpaeUnmap_eq, hlvl, if_pos hz]
      exact .empty
    · by_cases hm : Matches d size (d.startLevel + k)
      · rw [lpaeUnmap_eq, hlvl, if_neg hz, if_pos hm]
        exact .blocks hr ht hm hdeep
      · -- at the last level every entry in use is a leaf
        have hleaf : iopteLeaf d (s.mem (t + d.idx x k)) (d.startLevel + k) := by
          rcases hI.typed x k t _ hk ht (lvlIdx_lt hg x _) with h | h | h
          · exact absurd h hz
          · exact h
          · omega
        have hbefore' : ∀ j ≤ k, ¬ Matches d size (d.startLevel + j) := by
          intro j hj
          rcases lt_or_eq_of_le hj with hj | rfl
          · exact hbefore j hj
          · exact hm
        exact .split hk ht hleaf hbefore' (lpaeUnmap_splitEnd hI hr ht hbefore' hleaf)
  | succ r ih =>
    have hlvl : 3 - (r + 1) = d.startLevel + k := by omega
    have hk := lt_depth hg (show d.startLevel + k < 4 by omega)
    by_cases hz : s.mem (t + d.idx x k) = 0
    · rw [lpaeUnmap_eq, hlvl, if_pos hz]
      exact .empty
    · by_cases hm : Matches d size (d.startLevel + k)
      · rw [lpaeUnmap_eq, hlvl, if_neg hz, if_pos hm]
        exact .blocks hr ht hm hdeep
      · have hbefore' : ∀ j < k + 1, ¬ Matches d size (d.startLevel + j) := by
          intro j hj
          rcases lt_or_eq_of_le (Nat.le_of_lt_succ hj) with hj | rfl
          · exact hbefore j hj
          · exact hm
        by_cases hleaf : iopteLeaf d (s.mem (t + d.idx x k)) (d.startLevel + k)
        · have hbefore'' : ∀ j ≤ k, ¬ Matches d size (d.startLevel + j) := fun j hj => hbefore' j (by omega)
          exact .split hk ht hleaf hbefore'' (lpaeUnmap_splitEnd hI hr ht hbefore'' hleaf)
        · have hc : tableAt (shape d hg) s.mem x (k + 1) =
              some (iopteDeref d (s.mem (t + d.idx x k))) := by
            rw [tableAt_next ht]
            change (pteView d (d.startLevel + k) (s.mem (t + d.idx x k))).next = _
            rw [pteView, if_neg hz, if_neg hleaf]
            rfl
          by_cases h2 : d.startLevel + k = 2
          · rw [lpaeUnmap_eq, hlvl, if_neg hz, if_neg hm, if_pos ⟨h2, by simpa using hleaf⟩]
            exact .last h2 ht hc (fun j hj => hbefore' j (by omega))
          · rw [lpaeUnmap_eq, hlvl, if_neg hz, if_neg hm, if_neg (fun h => h2 h.1), if_neg hleaf]
            exact ih (by omega) hc (.inl (by omega)) hbefore'

/-- How `qcom_arm_lpae_unmap_pages` ends. -/
theorem unmapPages_end (hI : Inv hg s) [Fact (Fits d)] :
    UnmapEnd hg x size pgcount s (unmapPages d s x size pgcount) := by
  unfold unmapPages
  split_ifs
  · exact .empty
  · exact .empty
  · cases hr : 4 - d.startLevel with
    | zero => exact .empty
    | succ r =>
      exact lpaeUnmap_end (k := 0) hI (by omega) rfl (.inr rfl) nofun

end

end Sm8850.Iopt
