import Sm8850.Iopt.Walk

/-! The invariant of a page table in memory: every table hangs in one place, on a page of its
own, and holds entries of its level. What one write does to the tree and to the translation. -/
namespace Sm8850.Iopt
open TableTree Nat

variable {d : Data}

/-! ### Entries -/

/-- The entry is empty, a leaf of its level or a table. -/
def Typed (d : Data) (lvl : Nat) (pte : U64) : Prop :=
  pte = 0 ∨ iopteLeaf d pte lvl = true ∨ lvl < 3 ∧ iopteType pte = pteTypeTable

/-- Only bits the hardware ignores differ. -/
def Touch (e e' : U64) : Prop := iopteVal e' = iopteVal e ∧ (e' = 0 ↔ e = 0)

theorem Touch.refl (e : U64) : Touch e e := ⟨rfl, Iff.rfl⟩

theorem Touch.of_eq {e e' : U64} (h : e' = e) : Touch e e' := h ▸ Touch.refl e

theorem Touch.trans {e e' e'' : U64} (h : Touch e e') (h' : Touch e' e'') : Touch e e'' :=
  ⟨h'.1.trans h.1, h'.2.trans h.2⟩

theorem Touch.view {e e' : U64} (h : Touch e e') (lvl : Nat) : pteView d lvl e' = pteView d lvl e := by
  simp only [pteView, h.2, iopteLeaf_congr h.1, h.1, iopteDeref_congr h.1]

theorem Touch.typed {e e' : U64} {lvl : Nat} (h : Touch e e') (he : Typed d lvl e) : Typed d lvl e' := by
  unfold Typed at he ⊢
  rwa [h.2, iopteLeaf_congr h.1, iopteType_congr h.1]

theorem Typed.zero (d : Data) (lvl : Nat) : Typed d lvl 0 := .inl rfl

theorem pteView_zero (d : Data) (lvl : Nat) : pteView d lvl 0 = .empty := by simp [pteView]

section
variable {prot : U64} {lvl paddr : Nat} (hprot : iopteVal prot = 0)
include hprot

theorem typed_leafPte : Typed d lvl (leafPte d prot lvl paddr) := .inr (.inl (iopteLeaf_leafPte hprot))

theorem pteView_leafPte : pteView d lvl (leafPte d prot lvl paddr) = .leaf (iopteVal (leafPte d prot lvl paddr)) := by
  rw [pteView, if_neg (leafPte_ne_zero hprot), if_pos (iopteLeaf_leafPte hprot)]

end

/-- A typed entry is in use exactly when its valid bit is set. -/
theorem Typed.valid_iff {lvl : Nat} {e : U64} (h : Typed d lvl e) : e &&& pteValid ≠ 0 ↔ e ≠ 0 := by
  constructor
  · rintro hv rfl
    exact hv (by decide)
  · intro hne hv
    have htype : iopteType e = 1 ∨ iopteType e = 3 := by
      rcases h with h | h | h
      · exact absurd h hne
      · unfold iopteLeaf at h
        split at h
        · exact .inr (by simpa [pteTypePage] using h)
        · exact .inl (by simpa [pteTypeBlock] using h)
      · exact .inr h.2
    have hzero : iopteType e &&& pteValid = 0 := by
      rw [iopteType, BitVec.and_assoc, show (3 : U64) &&& pteValid = pteValid by decide, hv]
    rcases htype with h | h <;> rw [h] at hzero <;> exact absurd hzero (by decide)

/-! ### Pages -/

/-- A table fits the page it is allocated on. -/
def Fits (d : Data) : Prop := d.ptesPerTable ≤ pageWords d

theorem fits [h : Fact (Fits d)] : d.ptesPerTable ≤ pageWords d := h.out

theorem ptesPerTable_dvd [Fact (Fits d)] : d.ptesPerTable ∣ pageWords d := by
  have hfit := fits (d := d)
  have hbig : 8 ≤ 2 ^ d.cfg.pageShift := by
    by_contra hlt
    have : pageWords d = 0 := div_eq_of_lt (by omega)
    have := Nat.two_pow_pos d.bitsPerLevel
    simp only [Data.ptesPerTable] at hfit
    omega
  have h3 : 3 ≤ d.cfg.pageShift := by
    by_contra hlt
    have : 2 ^ d.cfg.pageShift < 2 ^ 3 := Nat.pow_lt_pow_right (by omega) (by omega)
    omega
  have hpw : pageWords d = 2 ^ (d.cfg.pageShift - 3) := Nat.pow_div h3 (by omega)
  rw [hpw] at hfit
  rw [hpw]
  exact Nat.pow_dvd_pow 2 ((Nat.pow_le_pow_iff_right (by omega)).mp hfit)

theorem freePage_iff {s : State} {pg : Nat} :
    freePage d s pg ↔ pg ∉ s.pages ∧ pg % pageWords d = 0 ∧ 8 * pg < 2 ^ 48 := by
  simp [freePage, and_assoc]

/-- What an allocation can do. -/
theorem allocPages_cases (d : Data) (s : State) :
    allocPages d s = ({ s with supply := fun n => s.supply (n + 1) }, none) ∨
      ∃ pg, freePage d s pg ∧ allocPages d s =
        ({ mem := fun a => if pg ≤ a ∧ a < pg + pageWords d then 0 else s.mem a
           pages := pg :: s.pages, supply := fun n => s.supply (n + 1) }, some pg) := by
  unfold allocPages
  cases s.supply 0 with
  | none => exact .inl rfl
  | some pg =>
    by_cases h : freePage d s pg
    · exact .inr ⟨pg, h, by simp [h]⟩
    · exact .inl (by simp [h])

/-! ### Table entries -/

/-- An entry that points to a table: as installed, perhaps with the software bit. -/
def TableEntry (d : Data) (table : Nat) (refcount : Int) (e : U64) : Prop :=
  e = tablePte d table refcount ∨ e = tablePte d table refcount ||| pteSwSync

/-- Installing over the entry that is expected there. -/
theorem installTable_hit {s : State} {table ptep : Nat} {curr : U64} {refcount : Int} (h : s.mem ptep = curr) :
    ∃ e, TableEntry d table refcount e ∧ installTable d s table ptep curr refcount = (writePte s ptep e, curr) := by
  have htwice : ∀ e e', writePte (writePte s ptep e) ptep e' = writePte s ptep e' := by
    intro e e'
    simp only [writePte, setPte, State.mk.injEq, and_true]
    funext a
    split_ifs <;> rfl
  unfold installTable
  simp only [h, if_true, htwice]
  split_ifs
  · exact ⟨_, .inl rfl, rfl⟩
  · exact ⟨_, .inr rfl, rfl⟩

/-- Installing where something else stands by now changes nothing. -/
theorem installTable_miss {s : State} {table ptep : Nat} {curr : U64} {refcount : Int}
    (h : s.mem ptep ≠ curr) : installTable d s table ptep curr refcount = (s, s.mem ptep) := by
  unfold installTable
  simp only [h, if_false]
  split_ifs <;> rfl

section
variable {pg : Nat} {refcount : Int} {e : U64} (hg : Geom d)
  (hal : pg % pageWords d = 0) (hlt : 8 * pg < 2 ^ 48) (he : TableEntry d pg refcount e)

theorem iopteTblcnt_tableEntry (he : TableEntry d pg refcount e) : iopteTblcnt e = refcount % 8192 := by
  have hset : iopteTblcnt (tablePte d pg refcount) = refcount % 8192 := iopteTblcnt_set _ _
  rcases he with rfl | rfl
  · exact hset
  · have hcnt : ∀ x : U64, cntField (x ||| pteSwSync) = cntField x := by
      intro x
      apply BitVec.eq_of_getLsbD_eq
      intro i hi
      interval_cases i <;> simp [cntField, pteSwSync]
    rw [iopteTblcnt, hcnt]
    exact hset

/-- A table entry is the table's address and bits outside the address. -/
theorem iopteVal_tableEntry (he : TableEntry d pg refcount e) :
    ∃ f : U64, iopteVal e = iopteVal (BitVec.ofNat 64 (8 * pg)) ||| f ∧
      f &&& pteAddrMask = 0#64 ∧ f &&& 3#64 = 3#64 := by
  have hns : ∀ c : Bool, (pteTypeTable ||| iopteVal (orIf c pteNstable)) &&& pteAddrMask = 0#64 ∧
      (pteTypeTable ||| iopteVal (orIf c pteNstable)) &&& 3#64 = 3#64 ∧
      (pteTypeTable ||| iopteVal (orIf c pteNstable) ||| iopteVal pteSwSync) &&& pteAddrMask = 0#64 ∧
      (pteTypeTable ||| iopteVal (orIf c pteNstable) ||| iopteVal pteSwSync) &&& 3#64 = 3#64 := by
    decide
  have hty : iopteVal pteTypeTable = pteTypeTable := by decide
  obtain ⟨h₁, h₂, h₃, h₄⟩ := hns d.cfg.quirkArmNs
  rcases he with rfl | rfl
  · refine ⟨_, ?_, h₁, h₂⟩
    rw [tablePte, iopteVal_tblcntSet, iopteVal_or, iopteVal_or, hty, BitVec.or_assoc]
  · refine ⟨_, ?_, h₃, h₄⟩
    rw [iopteVal_or, tablePte, iopteVal_tblcntSet, iopteVal_or, iopteVal_or, hty, BitVec.or_assoc,
      BitVec.or_assoc, BitVec.or_assoc]

variable [Fact (Fits d)]
include hg hal hlt he

theorem iopteDeref_tableEntry : iopteDeref d e = pg ∧ iopteType e = pteTypeTable := by
  have htab : d.ptesPerTable ∣ pg := ptesPerTable_dvd.trans (dvd_of_mod_eq_zero hal)
  have hdvd : 2 ^ 12 ∣ 8 * pg := by
    have h2 : 2 ^ 9 ∣ d.ptesPerTable := Nat.pow_dvd_pow 2 (by rcases hg.bits with h | h | h <;> omega)
    exact Nat.mul_dvd_mul_left 8 (h2.trans htab)
  have hx := paddrToIopte_low hlt hdvd
  have hmask : BitVec.ofNat 64 (8 * pg) &&& pteAddrMask = BitVec.ofNat 64 (8 * pg) := by
    rw [← hx, paddrToIopte, BitVec.and_assoc, BitVec.and_self]
  have hlow : BitVec.ofNat 64 (8 * pg) &&& 3#64 = 0#64 := by
    rw [← hmask, BitVec.and_assoc, show pteAddrMask &&& 3#64 = 0#64 by decide, BitVec.and_zero]
  obtain ⟨f, hf, hfa, hft⟩ := iopteVal_tableEntry he
  have hval : iopteVal e &&& pteAddrMask = paddrToIopte (8 * pg) := by
    rw [hf, BitVec.and_or_distrib_right, hfa, BitVec.or_zero, iopteVal, BitVec.and_assoc,
      show ~~~iopteReservedMask &&& pteAddrMask = pteAddrMask by decide, hmask, hx]
  constructor
  · have hpa : 8 * pg < 2 ^ d.paBits := by
      refine lt_of_lt_of_le hlt (Nat.pow_le_pow_right (by omega) ?_)
      unfold Data.paBits
      split <;> omega
    rw [iopteDeref, iopteToPaddr_eq hg hval hpa (Nat.mul_dvd_mul_left 8 htab), BitVec.toNat_ofNat,
      mod_eq_of_lt (by omega)]
    omega
  · rw [← iopteType_val, hf]
    change (_ ||| f) &&& 3#64 = _
    rw [BitVec.and_or_distrib_right, hft, iopteVal, BitVec.and_assoc, BitVec.and_comm (~~~iopteReservedMask),
      ← BitVec.and_assoc, hlow]
    decide

theorem pteView_tableEntry {lvl : Nat} (hl : lvl < 3) : pteView d lvl e = .table pg ∧ Typed d lvl e ∧ e ≠ 0 := by
  obtain ⟨hder, hty⟩ := iopteDeref_tableEntry hg hal hlt he
  have hne : e ≠ 0 := by
    rintro rfl
    exact absurd hty (by decide)
  have hleaf : iopteLeaf d e lvl = false := by
    simp only [iopteLeaf, hty, show ¬ lvl = 3 by omega, false_and, if_false]
    decide
  refine ⟨?_, .inr (.inr ⟨hl, hty⟩), hne⟩
  rw [pteView, if_neg hne, if_neg (by simp [hleaf]), hder]

end

/-! ### The invariant -/

/-- The table lies on a page of its own. -/
def OnPage (d : Data) (s : State) (t : Nat) : Prop := t ∈ s.pages ∧ t % pageWords d = 0

theorem apart (hg : Geom d) [Fact (Fits d)] (s : State) : Apart (shape d hg) (OnPage d s) := by
  rintro t u i j ⟨-, ht⟩ ⟨-, hu⟩ hi hj heq
  obtain ⟨p, rfl⟩ := dvd_of_mod_eq_zero ht
  obtain ⟨q, rfl⟩ := dvd_of_mod_eq_zero hu
  have hi' : i < pageWords d := lt_of_lt_of_le hi fits
  have hj' : j < pageWords d := lt_of_lt_of_le hj fits
  have hp : (pageWords d * p + i) / pageWords d = p := by
    rw [mul_add_div (by omega), div_eq_of_lt hi', add_zero]
  have hq : (pageWords d * q + j) / pageWords d = q := by
    rw [mul_add_div (by omega), div_eq_of_lt hj', add_zero]
  rw [← hp, ← hq, heq]

/-- A property of every entry of the tree, by level. -/
def Everywhere (hg : Geom d) (mem : Nat → U64) (Q : Nat → U64 → Prop) : Prop :=
  ∀ x k t i, k < (shape d hg).depth → tableAt (shape d hg) mem x k = some t → i < d.ptesPerTable →
    Q (d.startLevel + k) (mem (t + i))

/-- The property does not look at the bits the hardware ignores. -/
def TouchStable (Q : Nat → U64 → Prop) : Prop := ∀ l e e', Touch e e' → Q l e → Q l e'

theorem touchStable_typed (d : Data) : TouchStable (Typed d) := fun _ _ _ h he => h.typed he

/-- Every table of the tree has its own page and place, and entries of its level. -/
structure Inv (hg : Geom d) (s : State) : Prop where
  tree : Tree (shape d hg) (OnPage d s) s.mem
  typed : Everywhere hg s.mem (Typed d)

section
variable {hg : Geom d} {s s' : State} {x y k t pg : Nat} {I : Nat → Prop} {e : U64} {c : Nat → U64}
  {Q : Nat → U64 → Prop}

section
variable (hmem : ∀ y j u i, j < (shape d hg).depth → TableAt hg s.mem y j u →
  i < d.ptesPerTable → Touch (s.mem (u + i)) (s'.mem (u + i)))
include hmem

theorem touch_frame (y : Nat) : (∀ j ≤ (shape d hg).depth,
    tableAt (shape d hg) s'.mem y j = tableAt (shape d hg) s.mem y j) ∧
    lookup (shape d hg) s'.mem y = lookup (shape d hg) s.mem y :=
  frame fun j u hj hu => (hmem y j u _ hj hu ((shape d hg).idx_lt j y)).view _

theorem Everywhere.touch (hQ : TouchStable Q) (h : Everywhere hg s.mem Q) : Everywhere hg s'.mem Q := by
  intro x k u i hk hu hi
  rw [(touch_frame hmem x).1 k hk.le] at hu
  exact hQ _ _ _ (hmem x k u i hk hu hi) (h x k u i hk hu hi)

/-- Nothing a walk looks at changes. -/
theorem Inv.touch (hI : Inv hg s) (hpages : ∀ p ∈ s.pages, p ∈ s'.pages) :
    Inv hg s' ∧ (∀ y, ∀ j ≤ (shape d hg).depth, tableAt (shape d hg) s'.mem y j = tableAt (shape d hg) s.mem y j) ∧
      ∀ y, translation d s'.mem y = translation d s.mem y := by
  have hframe := touch_frame hmem
  have htab : ∀ y j, j < (shape d hg).depth →
      tableAt (shape d hg) s'.mem y j = tableAt (shape d hg) s.mem y j := fun y j hj => (hframe y).1 j hj.le
  refine ⟨⟨⟨?_, ?_⟩, hI.typed.touch hmem (touchStable_typed d)⟩, fun y => (hframe y).1,
    fun y => translation_congr hg (hframe y).2⟩
  · intro y j u hj hu
    rw [htab y j hj] at hu
    obtain ⟨h₁, h₂⟩ := hI.tree.pages y j u hj hu
    exact ⟨hpages u h₁, h₂⟩
  · intro x y j k u hj hk hx hy
    rw [htab x j hj] at hx
    rw [htab y k hk] at hy
    exact hI.tree.unique x y j k u hj hk hx hy

end

section
variable (hI : Inv hg s) [Fact (Fits d)] (hk : k < (shape d hg).depth)
  (ht : TableAt hg s.mem x k t) (hIw : ∀ i, I i → i < d.ptesPerTable)
  (hkeep : ∀ y j u i, j < (shape d hg).depth → TableAt hg s.mem y j u →
    i < d.ptesPerTable → (∀ i', I i' → u + i ≠ t + i') → Touch (s.mem (u + i)) (s'.mem (u + i)))
include hI hk ht hIw hkeep

theorem Inv.editAt : EditAt (shape d hg) s.mem s'.mem x k I :=
  hI.tree.editAt (apart hg s) hk ht hIw fun y j u i hj hu hi hne => (hkeep y j u i hj hu hi hne).view _

/-- A cell of an old table after an edit: one of the edited ones, or as it was. -/
theorem Inv.cell_cases {j u i : Nat} (hj : j < (shape d hg).depth)
    (hu : TableAt hg s.mem y j u) (hi : i < d.ptesPerTable) :
    (j = k ∧ u = t ∧ SamePath (shape d hg) k x y ∧ I i) ∨ Touch (s.mem (u + i)) (s'.mem (u + i)) := by
  by_cases h : ∃ i', I i' ∧ u + i = t + i'
  · obtain ⟨i', hi', heq⟩ := h
    obtain ⟨h₁, h₂, h₃⟩ := hI.tree.cell_unique (apart hg s) hj hk hu ht hi (hIw i' hi') heq
    subst h₁
    exact .inl ⟨rfl, by omega, h₂.symm, h₃ ▸ hi'⟩
  · exact .inr (hkeep y j u i hj hu hi (fun i' hi' heq => h ⟨i', hi', heq⟩))

theorem Everywhere.prune (hQ : TouchStable Q) (h : Everywhere hg s.mem Q)
    (hnew : ∀ i, I i → (pteView d (d.startLevel + k) (s'.mem (t + i))).next = none ∧
      Q (d.startLevel + k) (s'.mem (t + i))) : Everywhere hg s'.mem Q := by
  intro y j u i hj hu hi
  obtain ⟨hu', -⟩ := (hI.editAt hk ht hIw hkeep).tableAt_prune hk ht (fun i hi => (hnew i hi).1) hj.le hu
  rcases hI.cell_cases hk ht hIw hkeep hj hu' hi with ⟨rfl, rfl, -, hIi⟩ | htouch
  · exact (hnew i hIi).2
  · exact hQ _ _ _ htouch (h y j u i hj hu' hi)

/-- Entries of one table become leaves or empty, and what hung below them is gone. -/
theorem Inv.prune (hnew : ∀ i, I i → (pteView d (d.startLevel + k) (s'.mem (t + i))).next = none ∧
      Typed d (d.startLevel + k) (s'.mem (t + i))) (hpages : ∀ y j u, j < (shape d hg).depth → TableAt hg s.mem y j u →
      (k < j → ¬ Hits (shape d hg) x k I y) → u ∈ s'.pages) : Inv hg s' := by
  have hE := hI.editAt hk ht hIw hkeep
  have hnone : ∀ i, I i → ((shape d hg).view k (s'.mem (t + i))).next = none := fun i hi => (hnew i hi).1
  refine ⟨Tree.prune hE hk ht hI.tree hnone (fun y j u hj hu hmiss => ?_),
    hI.typed.prune hI hk ht hIw hkeep (touchStable_typed d) hnew⟩
  exact ⟨hpages y j u hj hu hmiss, (hI.tree.pages y j u hj hu).2⟩

end

/-- The cells of a table and a page that is free lie apart. -/
theorem Inv.off_page (hI : Inv hg s) [Fact (Fits d)] (hfree : freePage d s pg) {j u i : Nat}
    (hj : j < (shape d hg).depth) (hu : TableAt hg s.mem y j u) (hi : i < d.ptesPerTable) :
    ¬ (pg ≤ u + i ∧ u + i < pg + pageWords d) := by
  rintro ⟨hle, hlt⟩
  obtain ⟨hfresh, hal, -⟩ := freePage_iff.mp hfree
  obtain ⟨hpage, hual⟩ := hI.tree.pages y j u hj hu
  obtain ⟨p, rfl⟩ := dvd_of_mod_eq_zero hal
  obtain ⟨q, rfl⟩ := dvd_of_mod_eq_zero hual
  have hi' : i < pageWords d := lt_of_lt_of_le hi fits
  have hq : (pageWords d * q + i) / pageWords d = q := by
    rw [mul_add_div (by omega), div_eq_of_lt hi', add_zero]
  have hp : (pageWords d * q + i) / pageWords d = p := by
    refine Nat.div_eq_of_lt_le ?_ ?_
    · rw [mul_comm]; exact hle
    · rw [add_mul, one_mul, mul_comm p]; exact hlt
  rw [hq] at hp
  exact hfresh (hp ▸ hpage)

section
variable (hI : Inv hg s) [Fact (Fits d)] (hk : k + 1 < (shape d hg).depth)
  (ht : TableAt hg s.mem x k t) (hfree : freePage d s pg = true)
  (hmem : ∀ a, s'.mem a = if a = t + d.idx x k then e
    else if pg ≤ a ∧ a < pg + pageWords d then c (a - pg) else s.mem a)
include hI hk ht hfree hmem

/-- The cells of a new page below an entry. -/
theorem Inv.graft_cell {i : Nat} (hi : i < d.ptesPerTable) : s'.mem (pg + i) = c i := by
  have hoff := hI.off_page hfree (lt_of_succ_lt hk) ht (idx_lt hg x k)
  have hi' : i < pageWords d := lt_of_lt_of_le hi fits
  rw [hmem, if_neg (fun heq => hoff (by omega)), if_pos (by omega), Nat.add_sub_cancel_left]

omit hk ht in
theorem Inv.graft_keep {j u i : Nat} (hj : j < (shape d hg).depth)
    (hu : TableAt hg s.mem y j u) (hi : i < d.ptesPerTable)
    (hne : ∀ i', i' = d.idx x k → u + i ≠ t + i') : s'.mem (u + i) = s.mem (u + i) := by
  rw [hmem, if_neg (hne _ rfl), if_neg (hI.off_page hfree hj hu hi)]

theorem Inv.graft_editAt : EditAt (shape d hg) s.mem s'.mem x k (· = d.idx x k) := by
  refine hI.editAt (lt_of_succ_lt hk) ht ?_ fun y j u i hj hu hi hne => ?_
  · rintro i rfl
    exact lvlIdx_lt hg x _
  · exact Touch.of_eq (hI.graft_keep hfree hmem hj hu hi hne)

omit hI [Fact (Fits d)] hk ht hfree in
theorem graft_head : s'.mem (t + d.idx x k) = e := by rw [hmem, if_pos rfl]

section
variable (he : pteView d (d.startLevel + k) e = .table pg)
  (hc : ∀ i < d.ptesPerTable, (pteView d (d.startLevel + (k + 1)) (c i)).next = none)
include he hc

/-- The tables after the graft: the new one, and the old ones that are left. -/
theorem Inv.graft_table {j u : Nat} (hj : j < (shape d hg).depth) (hu : TableAt hg s'.mem y j u) :
    TableAt hg s.mem y j u ∧ (k < j → ¬ Hits (shape d hg) x k (· = d.idx x k) y) ∨
      j = k + 1 ∧ Hits (shape d hg) x k (· = d.idx x k) y ∧ u = pg := by
  have hb : (shape d hg).view k (s'.mem (t + d.idx x k)) = .table pg := by
    rw [graft_head hmem]
    exact he
  have hleaf : ∀ i < (shape d hg).width, ((shape d hg).view (k + 1) (s'.mem (pg + i))).next = none := by
    intro i hi
    rw [hI.graft_cell hk ht hfree hmem hi]
    exact hc i hi
  exact (hI.graft_editAt hk ht hfree hmem).tableAt_graft (lt_of_succ_lt hk) ht (fun i => Iff.rfl) hb
    hleaf hj.le hu

theorem Everywhere.graft (h : Everywhere hg s.mem Q) (heQ : Q (d.startLevel + k) e)
    (hcQ : ∀ i < d.ptesPerTable, Q (d.startLevel + (k + 1)) (c i)) : Everywhere hg s'.mem Q := by
  intro y j u i hj hu hi
  rcases hI.graft_table hk ht hfree hmem he hc hj hu with ⟨hu', -⟩ | ⟨rfl, -, rfl⟩
  · by_cases hcell : u + i = t + d.idx x k
    · obtain ⟨rfl, -, -⟩ := hI.tree.cell_unique (apart hg s) hj (lt_of_succ_lt hk) hu' ht hi
        (lvlIdx_lt hg x _) hcell
      rw [hcell, graft_head hmem]
      exact heQ
    · rw [hI.graft_keep hfree hmem hj hu' hi (by rintro i' rfl; exact hcell)]
      exact h y j u i hj hu' hi
  · rw [hI.graft_cell hk ht hfree hmem hi]
    exact hcQ i hi

/-- An entry comes to point to a new page that holds no tables. -/
theorem Inv.graft (hpages : s'.pages = pg :: s.pages) (heT : Typed d (d.startLevel + k) e)
    (hcT : ∀ i < d.ptesPerTable, Typed d (d.startLevel + (k + 1)) (c i)) :
    Inv hg s' ∧ ∀ y, Hits (shape d hg) x k (· = d.idx x k) y → tableAt (shape d hg) s'.mem y (k + 1) = some pg := by
  have hk' : k < (shape d hg).depth := lt_of_succ_lt hk
  have hE := hI.graft_editAt hk ht hfree hmem
  have hb : (shape d hg).view k (s'.mem (t + d.idx x k)) = .table pg := by
    rw [graft_head hmem]
    exact he
  have hleaf : ∀ i < (shape d hg).width, ((shape d hg).view (k + 1) (s'.mem (pg + i))).next = none := by
    intro i hi
    rw [hI.graft_cell hk ht hfree hmem hi]
    exact hc i hi
  have hfresh : ∀ y j, j < (shape d hg).depth → tableAt (shape d hg) s.mem y j ≠ some pg :=
    fun y j hj hu => (freePage_iff.mp hfree).1 (hI.tree.pages y j pg hj hu).1
  refine ⟨⟨Tree.graft hE hk' ht hI.tree (fun i => Iff.rfl) hb hfresh hleaf ?_ ?_,
    hI.typed.graft hI hk ht hfree hmem he hc heT hcT⟩, ?_⟩
  · intro y j u hj hu _
    obtain ⟨h₁, h₂⟩ := hI.tree.pages y j u hj hu
    exact ⟨hpages ▸ List.mem_cons_of_mem pg h₁, h₂⟩
  · exact ⟨hpages ▸ .head _, (freePage_iff.mp hfree).2.1⟩
  · intro y hy
    rw [tableAt_next (hE.table_same hk' ht hy.1)]
    have hidx : (shape d hg).idx k y = d.idx x k := hy.2
    rw [hidx, hb]
    rfl

end

end

end

end Sm8850.Iopt
