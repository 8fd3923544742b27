import Sm8850.Iopt.Group

/-! Unmapping: entries that go with the tables below them, the split of a block, and the
translations that go with the entries. -/
namespace Sm8850.Iopt
open TableTree Nat List Data

variable {d : Data} {hg : Geom d} {s s' : State} {x y i k l n r t : Nat}

/-! ### Addresses for entries -/

theorem lvlShift_add_le (hg : Geom d) (hs : d.startLevel ≤ l) (hl : l ≤ 3) :
    d.lvlShift l + d.lvlBits l ≤ d.cfg.ias := by
  have hias := hg.ias (hs.trans hl)
  by_cases h : l = d.startLevel
  · subst h
    simp only [lvlBits, if_true]
    omega
  · have hle : (4 - l) * d.bitsPerLevel + d.bitsPerLevel ≤ (4 - d.startLevel) * d.bitsPerLevel := by
      rw [← succ_mul]
      exact Nat.mul_le_mul_right _ (by omega)
    simp only [lvlBits, h, if_false, lvlShift] at hias ⊢
    omega

theorem tableNr_eq (d : Data) (l x : Nat) : d.tableNr l x = x / 2 ^ (d.lvlShift l + d.lvlBits l) := by
  rw [tableNr, blockNr, blockSize, Nat.div_div_eq_div_mul, ← pow_add]

/-- Addresses of one table are addresses of one input range. -/
theorem range_of_tableNr (hg : Geom d) (hs : d.startLevel ≤ l) (hl : l ≤ 3)
    (h : d.tableNr l x = d.tableNr l y) : x / 2 ^ d.cfg.ias = y / 2 ^ d.cfg.ias := by
  have hle := lvlShift_add_le hg hs hl
  rw [tableNr_eq, tableNr_eq] at h
  have hsplit : 2 ^ d.cfg.ias = 2 ^ (d.lvlShift l + d.lvlBits l) *
      2 ^ (d.cfg.ias - (d.lvlShift l + d.lvlBits l)) := by
    rw [← pow_add]
    congr 1
    omega
  rw [hsplit, ← Nat.div_div_eq_div_mul, ← Nat.div_div_eq_div_mul, h]

/-- Every entry of a table belongs to an address. -/
theorem exists_address (hg : Geom d) (hs : d.startLevel + k ≤ 3) (x : Nat) {i : Nat}
    (hi : i < 2 ^ d.lvlBits (d.startLevel + k)) :
    ∃ y, x / 2 ^ d.cfg.ias = y / 2 ^ d.cfg.ias ∧ SamePath (shape d hg) k x y ∧ d.lvlIdx y (d.startLevel + k) = i := by
  have hB : 0 < d.blockSize (d.startLevel + k) := Nat.two_pow_pos _
  have hw : 0 < 2 ^ d.lvlBits (d.startLevel + k) := Nat.two_pow_pos _
  have hnr : d.blockNr (d.startLevel + k) ((d.tableNr (d.startLevel + k) x * 2 ^ d.lvlBits (d.startLevel + k) + i) *
      d.blockSize (d.startLevel + k)) = d.tableNr (d.startLevel + k) x * 2 ^ d.lvlBits (d.startLevel + k) + i :=
    Nat.mul_div_cancel _ hB
  have htab : d.tableNr (d.startLevel + k) x = d.tableNr (d.startLevel + k)
      ((d.tableNr (d.startLevel + k) x * 2 ^ d.lvlBits (d.startLevel + k) + i) * d.blockSize (d.startLevel + k)) := by
    conv_rhs => rw [tableNr, hnr, mul_comm, mul_add_div hw, div_eq_of_lt hi, add_zero]
  have hrange := range_of_tableNr hg (Nat.le_add_right _ _) hs htab
  refine ⟨_, hrange, (samePath_iff hg hs hrange).mpr htab, ?_⟩
  rw [lvlIdx_eq, hnr, mul_comm, mul_add_mod, mod_eq_of_lt hi]

theorem shape_surj (hg : Geom d) : ∀ x k i, 0 < k → k < (shape d hg).depth → i < (shape d hg).width →
    ∃ y, SamePath (shape d hg) k x y ∧ (shape d hg).idx k y = i := by
  intro x k i hk hd hi
  have hdepth : (shape d hg).depth = 4 - d.startLevel := rfl
  have hbits : d.lvlBits (d.startLevel + k) = d.bitsPerLevel := by
    rw [lvlBits, if_neg (by omega)]
  obtain ⟨y, -, hy, hyi⟩ := exists_address hg (show d.startLevel + k ≤ 3 by omega) x (i := i) (by rw [hbits]; exact hi)
  exact ⟨y, hy, hyi⟩

/-! ### Tables that are freed -/

theorem tablePages_eq_below (hg : Geom d) {mem : Nat → U64} (h : d.startLevel + k + r = 4) :
    tablePages d mem r t = below (shape d hg) mem r k t := by
  induction r generalizing k t with
  | zero => rfl
  | succ r ih =>
    cases r with
    | zero => rfl
    | succ r =>
      have hl : 2 - r = d.startLevel + k := by omega
      refine congrArg (fun l => t :: flatten l) (map_congr_left fun i _ => ?_)
      have hview : (shape d hg).view k (mem (t + i)) = pteView d (d.startLevel + k) (mem (t + i)) := rfl
      dsimp only
      rw [hview, pteView, hl]
      by_cases hz : mem (t + i) = 0
      · simp only [hz, true_or, if_true, View.next]
      · by_cases hleaf : iopteLeaf d (mem (t + i)) (d.startLevel + k)
        · simp only [hz, hleaf, or_true, if_true, if_false, View.next]
        · simp only [hz, hleaf, if_false, View.next]
          exact ih (by omega)

/-! ### One entry -/

theorem writePte_mem (s : State) (ptep : Nat) (pte : U64) (a : Nat) :
    (writePte s ptep pte).mem a = if a = ptep then pte else s.mem a := by
  simp only [writePte, setPte]
  by_cases h : a = ptep
  · rw [if_pos h, if_pos (by omega)]
  · rw [if_neg h, if_neg (by omega)]

theorem unmapEntry_mem (d : Data) (iova lvl pgcount r : Nat) (s : State) (ptep : Nat) :
    (unmapEntry d iova lvl pgcount r s ptep).mem = (writePte (dropHint d s iova lvl ptep pgcount) ptep 0).mem := by
  unfold unmapEntry
  dsimp only
  split
  · rfl
  · rfl

section
variable (hI : Inv hg s) [Fact (Fits d)] (hk : k < (shape d hg).depth)
  (ht : TableAt hg s.mem x k t) (hi : i < 2 ^ d.lvlBits (d.startLevel + k))
  (hne : s.mem (t + i) ≠ 0) (hr : d.startLevel + k + (r + 1) = 4)

omit [Fact (Fits d)] in
include hI in
/-- The cells of the tree, other than the cleared one, at most lose a hint. -/
theorem unmapEntry_keep {j u i' : Nat} (hj : j < (shape d hg).depth)
    (hu : TableAt hg s.mem y j u) (hi' : i' < d.ptesPerTable) (hdiff : u + i' ≠ t + i) :
    Touch (s.mem (u + i')) ((writePte (dropHint d s x l (t + i) n) (t + i) 0).mem (u + i')) := by
  rw [writePte_mem, if_neg hdiff]
  exact (dropHint_mem d s x l (t + i) n (u + i')).touch (hI.typed y j u i' hj hu hi')

include hI hk ht hi hne hr

/-- The pages that go are those of the tables below the entry. -/
theorem unmapEntry_pages {p : Nat} (hp : p ∈ s.pages) : p ∈ (unmapEntry d x (d.startLevel + k) n r s (t + i)).pages ∨
      ∃ y j, k < j ∧ j < (shape d hg).depth ∧ Hits (shape d hg) x k (· = i) y ∧ TableAt hg s.mem y j p := by
  have hdepth : (shape d hg).depth = 4 - d.startLevel := rfl
  have hiw : i < d.ptesPerTable := lt_of_lt_of_le hi (Nat.pow_le_pow_right (by omega) (lvlBits_le hg _))
  have hp' : p ∈ (writePte (dropHint d s x (d.startLevel + k) (t + i) n) (t + i) 0).pages :=
    (dropHint_pages d s x (d.startLevel + k) (t + i) n).symm ▸ hp
  unfold unmapEntry
  dsimp only
  split
  · exact .inl hp'
  · rename_i hleaf
    by_cases hmem : p ∈ tablePages d (writePte (dropHint d s x (d.startLevel + k) (t + i) n) (t + i) 0).mem r
        (iopteDeref d (s.mem (t + i)))
    · right
      obtain ⟨z, -, hxz, hzi⟩ := exists_address hg (by omega) x hi
      cases r with
      | zero => simp [tablePages] at hmem
      | succ r =>
        have hc : tableAt (shape d hg) s.mem z (k + 1) = some (iopteDeref d (s.mem (t + i))) := by
          rw [tableAt_next ((tableAt_congr hxz).symm.trans ht)]
          change (pteView d (d.startLevel + k) (s.mem (t + d.lvlIdx z (d.startLevel + k)))).next = _
          rw [hzi, pteView, if_neg hne, if_neg hleaf]
          rfl
        have hbelow : below (shape d hg)
            (writePte (dropHint d s x (d.startLevel + k) (t + i) n) (t + i) 0).mem (r + 1) (k + 1) _ = _ :=
          below_congr (shape_surj hg) (succ_pos k)
            (show k + 1 + (r + 1) = (shape d hg).depth by omega) hc
            fun y j u i' hkj hj _ hu hi' => by
              refine (unmapEntry_keep hI hj hu hi' (fun heq => ?_)).view _
              have := (hI.tree.cell_unique (apart hg s) hj hk hu ht hi' hiw heq).1
              omega
        rw [tablePages_eq_below hg (show d.startLevel + (k + 1) + (r + 1) = 4 by omega), hbelow] at hmem
        obtain ⟨y, j, hkj, hj, hzy, hy⟩ := mem_below (shape_surj hg) (succ_pos k)
          (show k + 1 + (r + 1) = (shape d hg).depth by omega) hc hmem
        obtain ⟨hzy', hidx⟩ := samePath_succ.mp hzy
        exact ⟨y, j, hkj, hj, ⟨hxz.trans hzy', hidx.symm.trans hzi⟩, hy⟩
    · exact .inl (mem_filter.mpr ⟨hp', by simpa using hmem⟩)

/-- The entry is gone, with all it led to, and nothing else. -/
theorem Inv.unmapEntry : Inv hg (unmapEntry d x (d.startLevel + k) n r s (t + i)) ∧
    EditAt (shape d hg) s.mem (Iopt.unmapEntry d x (d.startLevel + k) n r s (t + i)).mem x k (· = i) := by
  have hiw : i < d.ptesPerTable := lt_of_lt_of_le hi (Nat.pow_le_pow_right (by omega) (lvlBits_le hg _))
  have hIw : ∀ i', i' = i → i' < d.ptesPerTable := fun i' h => h ▸ hiw
  have hkeep : ∀ y j u i', j < (shape d hg).depth → TableAt hg s.mem y j u →
      i' < d.ptesPerTable → (∀ i'', i'' = i → u + i' ≠ t + i'') → Touch (s.mem (u + i'))
        ((Iopt.unmapEntry d x (d.startLevel + k) n r s (t + i)).mem (u + i')) := by
    intro y j u i' hj hu hi' hdiff
    rw [unmapEntry_mem]
    exact unmapEntry_keep hI hj hu hi' (hdiff i rfl)
  refine ⟨hI.prune hk ht hIw hkeep ?_ ?_, hI.editAt hk ht hIw hkeep⟩
  · rintro i' rfl
    rw [unmapEntry_mem, writePte_mem, if_pos rfl]
    exact ⟨by rw [pteView_zero]; rfl, Typed.zero d _⟩
  · intro y j u hj hu hmiss
    rcases unmapEntry_pages (n := n) hI hk ht hi hne hr (hI.tree.pages y j u hj hu).1 with h | ⟨z, j', hkj, hj', hz, hzu⟩
    · exact h
    · obtain ⟨rfl, hsame⟩ := hI.tree.unique y z j j' u hj hj' hu hzu
      refine absurd ?_ (hmiss hkj)
      exact ⟨hz.1.trans (hsame.mono hkj.le).symm, (hsame k hkj).trans hz.2⟩

end

/-! ### A run of entries -/

/-- Keys whose entry is cleared translate no more, and all others as before. -/
theorem translation_cleared {I : Nat → Prop} {mem mem' : Nat → U64} (hE : EditAt (shape d hg) mem mem' x k I)
    (hk : k < (shape d hg).depth) (ht : TableAt hg mem x k t)
    (hzero : ∀ j, I j → mem' (t + j) = 0) (y : Nat) : (Hits (shape d hg) x k I y → translation d mem' y = none) ∧
      (¬ Hits (shape d hg) x k I y → translation d mem' y = translation d mem y) := by
  constructor
  · intro hy
    exact translation_empty hg hk (hE.table_same hk ht hy.1) (hzero _ hy.2)
  · intro hy
    exact translation_congr hg (hE.miss hy).2

/-- The entries `i` to `i + c` of the key's table at depth `k` are cleared, with all they led to,
and other entries lost at most a hint, in the cells `W`. -/
structure Cleared (hg : Geom d) (x k t i c : Nat) (W : Nat → Prop) (s s' : State) : Prop where
  inv : Inv hg s'
  used : ∀ j, i ≤ j → j < i + c → s.mem (t + j) ≠ 0
  zero : ∀ j, i ≤ j → j < i + c → s'.mem (t + j) = 0
  keep : ∀ a, (∀ j, i ≤ j → j < i + c → a ≠ t + j) → Unhinted (W a) (s.mem a) (s'.mem a)

section
variable {c : Nat} {W : Nat → Prop} (hI : Inv hg s) [Fact (Fits d)] (hk : k < (shape d hg).depth)
  (ht : TableAt hg s.mem x k t)

include hI hk ht in
theorem Cleared.editAt (h : Cleared hg x k t i c W s s') (hi : i + c ≤ d.ptesPerTable) :
    EditAt (shape d hg) s.mem s'.mem x k (fun j => i ≤ j ∧ j < i + c) := by
  refine hI.editAt hk ht (fun j hj => by omega) fun y j u i' hj hu hi' hne => ?_
  exact (h.keep (u + i') (fun j h₁ h₂ => hne j ⟨h₁, h₂⟩)).touch (hI.typed y j u i' hj hu hi')

include hI hk ht in
/-- What is cleared translates no more, and everything else as before. -/
theorem Cleared.translation (h : Cleared hg x k t i c W s s') (hi : i + c ≤ d.ptesPerTable) (y : Nat) :
    (Hits (shape d hg) x k (fun j => i ≤ j ∧ j < i + c) y → translation d s'.mem y = none) ∧
      (¬ Hits (shape d hg) x k (fun j => i ≤ j ∧ j < i + c) y → translation d s'.mem y = Iopt.translation d s.mem y) :=
  translation_cleared (h.editAt hI hk ht hi) hk ht (fun j hj => h.zero j hj.1 hj.2) y

/-- The loop stops at the first empty entry. -/
theorem Inv.unmapLoop (hI : Inv hg s) (hk : k < (shape d hg).depth)
    (ht : TableAt hg s.mem x k t) (hr : d.startLevel + k + (r + 1) = 4) {num : Nat}
    (hi : i + num ≤ 2 ^ d.lvlBits (d.startLevel + k)) :
    Cleared hg x k t i (unmapLoop d x (d.startLevel + k) n r num s (t + i)).2
        (fun a => ∃ j, i ≤ j ∧ j < i + num ∧ Swept d s x (d.startLevel + k) (t + j) n a) s
        (unmapLoop d x (d.startLevel + k) n r num s (t + i)).1 ∧
      (Iopt.unmapLoop d x (d.startLevel + k) n r num s (t + i)).2 ≤ num ∧
      ((Iopt.unmapLoop d x (d.startLevel + k) n r num s (t + i)).2 < num →
        s.mem (t + i + (Iopt.unmapLoop d x (d.startLevel + k) n r num s (t + i)).2) = 0) := by
  induction num generalizing s i with
  | zero =>
    exact ⟨⟨hI, fun j h₁ h₂ => absurd h₂ (not_lt.mpr h₁), fun j h₁ h₂ => absurd h₂ (not_lt.mpr h₁),
      fun a _ => .inl rfl⟩, le_rfl, fun h => absurd h (lt_irrefl 0)⟩
  | succ num ih =>
    rw [Iopt.unmapLoop]
    split
    · rename_i hz
      exact ⟨⟨hI, fun j h₁ h₂ => absurd h₂ (not_lt.mpr h₁), fun j h₁ h₂ => absurd h₂ (not_lt.mpr h₁),
        fun a _ => .inl rfl⟩, Nat.zero_le _, fun _ => hz⟩
    · rename_i hne
      have hpow := Nat.pow_le_pow_right (show 0 < 2 by omega) (lvlBits_le hg (d.startLevel + k))
      have hiw : i + (num + 1) ≤ d.ptesPerTable := hi.trans hpow
      obtain ⟨hI₁, hE⟩ := Inv.unmapEntry (n := n) hI hk ht (by omega) hne hr
      have ht₁ := hE.table_same hk ht (SamePath.refl k x)
      obtain ⟨hC, hle, hstop⟩ := ih hI₁ ht₁ (show i + 1 + num ≤ _ by omega)
      have hentry : ∀ a, (Iopt.unmapEntry d x (d.startLevel + k) n r s (t + i)).mem a =
          if a = t + i then 0 else (dropHint d s x (d.startLevel + k) (t + i) n).mem a := by
        intro a
        rw [unmapEntry_mem, writePte_mem]
      generalize Iopt.unmapEntry d x (d.startLevel + k) n r s (t + i) = s₁ at *
      generalize Iopt.unmapLoop d x (d.startLevel + k) n r num s₁ (t + (i + 1)) = res at *
      dsimp only
      -- an entry of this table that is empty after the first round was empty before it
      have hback : ∀ j, i < j → j < d.ptesPerTable → (s₁.mem (t + j) = 0 ↔ s.mem (t + j) = 0) := by
        intro j hij hj
        rw [hentry, if_neg (by omega)]
        exact ((dropHint_mem d s x (d.startLevel + k) (t + i) n (t + j)).touch (hI.typed x k t j hk ht hj)).2
      refine ⟨⟨hC.inv, ?_, ?_, ?_⟩, by omega, ?_⟩
      · intro j h₁ h₂
        rcases eq_or_lt_of_le h₁ with rfl | h₁
        · exact hne
        · exact fun hz => hC.used j h₁ (by omega) ((hback j h₁ (by omega)).mpr hz)
      · intro j h₁ h₂
        rcases eq_or_lt_of_le h₁ with rfl | h₁
        · have h0 : s₁.mem (t + i) = 0 := by rw [hentry, if_pos rfl]
          rcases hC.keep (t + i) (fun j h₁ h₂ => by omega) with h | ⟨-, h⟩
          · rw [h, h0]
          · rw [h, h0]
            decide
        · exact hC.zero j h₁ (by omega)
      · intro a ha
        have hfirst := dropHint_mem d s x (d.startLevel + k) (t + i) n a
        have hrest := hC.keep a (fun j h₁ h₂ => ha j (by omega) (by omega))
        rw [hentry, if_neg (ha i le_rfl (by omega))] at hrest
        refine (hfirst.mono fun h => ⟨i, le_rfl, by omega, h⟩).trans (hrest.mono ?_)
        rintro ⟨j, h₁, h₂, hc, hhint, hspan⟩
        refine ⟨j, by omega, by omega, hc, ?_, hspan⟩
        rw [hentry, if_neg (by omega)] at hhint
        exact (dropHint_mem d s x (d.startLevel + k) (t + i) n (t + j)).hint hhint
      · intro hlt
        have hz := hstop (by omega)
        rw [show t + (i + 1) + res.2 = t + (i + 1 + res.2) by omega] at hz
        rw [show t + i + (res.2 + 1) = t + (i + 1 + res.2) by omega]
        exact (hback _ (by omega) (by omega)).mp hz

end

/-! ### The last level -/

/-- `__arm_lpae_unmap` above a last-level table, before it looks at the count. -/
def lastCleared (d : Data) (iova : Nat) (s : State) (ptep table n : Nat) : State :=
  let entry := table + d.lvlIdx iova 3
  let num := mapNum d iova 3 n
  let s := setPte (dropHint d s iova 3 entry (BitVec.ofInt 64 num).toNat) entry 0 num.toNat
  writePte s ptep (iopteTblcntSub (s.mem ptep) num)

theorem unmapLastLevel_eq (d : Data) (iova : Nat) (s : State) (size pgcount ptep : Nat) :
    unmapLastLevel d iova s size pgcount ptep = (if iopteTblcnt ((lastCleared d iova s ptep (iopteDeref d (s.mem ptep))
            (reqNum d size 3 pgcount)).mem ptep) = 0 then
          freePages (writePte (lastCleared d iova s ptep (iopteDeref d (s.mem ptep))
            (reqNum d size 3 pgcount)) ptep 0) [iopteDeref d (s.mem ptep)]
        else lastCleared d iova s ptep (iopteDeref d (s.mem ptep)) (reqNum d size 3 pgcount),
        BitVec.ofInt 64 (mapNum d iova 3 (reqNum d size 3 pgcount) *
          (size / checkAndSetNumCont d size 3 : Nat))) := rfl

section
variable {u c : Nat} (hI : Inv hg s) (hlvl : d.startLevel + k = 2)
  (hu : TableAt hg s.mem x k u) (hc : TableAt hg s.mem x (k + 1) c)

/-- The entries of a last-level table are cleared, and all tables stay. -/
structure LastCleared (hg : Geom d) (x k u c n : Nat) (s s' : State) : Prop where
  inv : Inv hg s'
  edit : EditAt (shape d hg) s.mem s'.mem x (k + 1)
    (fun j => d.lvlIdx x 3 ≤ j ∧ j < d.lvlIdx x 3 + (mapNum d x 3 n).toNat)
  above : tableAt (shape d hg) s'.mem x k = some u
  table : tableAt (shape d hg) s'.mem x (k + 1) = some c

theorem depth_last (hg : Geom d) (hlvl : d.startLevel + k = 2) : (shape d hg).depth = k + 2 := by
  change 4 - d.startLevel = k + 2
  omega

theorem lastCleared_mem {ptep : Nat} (hne : ∀ i < d.ptesPerTable, ptep ≠ c + i) (hg : Geom d) (a : Nat) :
    (lastCleared d x s ptep c n).mem a = if a = ptep then iopteTblcntSub ((dropHint d s x 3 (c + d.lvlIdx x 3)
        (BitVec.ofInt 64 (mapNum d x 3 n)).toNat).mem ptep) (mapNum d x 3 n)
      else if c + d.lvlIdx x 3 ≤ a ∧ a < c + d.lvlIdx x 3 + (mapNum d x 3 n).toNat then 0
      else (dropHint d s x 3 (c + d.lvlIdx x 3) (BitVec.ofInt 64 (mapNum d x 3 n)).toNat).mem a := by
  have hle := mapNum_le (x := x) (l := 3) (n := n) hg
  unfold lastCleared
  rw [writePte_mem]
  split
  · congr 1
    refine if_neg ?_
    rintro ⟨h₁, h₂⟩
    exact hne (ptep - c) (by omega) (by omega)
  · rfl

variable [Fact (Fits d)]
include hI hlvl hu hc

/-- The entry above a last-level table lies outside of it. -/
theorem last_entry : iopteType (s.mem (u + d.idx x k)) = pteTypeTable ∧
    ∀ i < d.ptesPerTable, u + d.idx x k ≠ c + i := by
  have hdepth := depth_last hg hlvl
  have hprev : PrevOf hg s x (k + 1) (some (u + d.idx x k)) := ⟨u, hu, rfl⟩
  exact hprev.cell rfl hI (by omega) hc

theorem lastCleared_zero {j : Nat} (h₁ : d.lvlIdx x 3 ≤ j) (h₂ : j < d.lvlIdx x 3 + (mapNum d x 3 n).toNat) :
    (lastCleared d x s (u + d.idx x k) c n).mem (c + j) = 0 := by
  obtain ⟨-, hne⟩ := last_entry hI hlvl hu hc
  have hle := mapNum_le (x := x) (l := 3) (n := n) hg
  rw [lastCleared_mem hne hg, if_neg (fun heq => hne j (by omega) heq.symm), if_pos (by omega)]

theorem lastCleared_touch (n : Nat) : ∀ y j w i, j < (shape d hg).depth → TableAt hg s.mem y j w → i < d.ptesPerTable →
    (∀ j, d.lvlIdx x 3 ≤ j ∧ j < d.lvlIdx x 3 + (mapNum d x 3 n).toNat → w + i ≠ c + j) →
    Touch (s.mem (w + i)) ((lastCleared d x s (u + d.idx x k) c n).mem (w + i)) := by
  intro y j w i hj hw hi hdiff
  obtain ⟨htype, hne⟩ := last_entry hI hlvl hu hc
  have hdrop := (dropHint_mem d s x 3 (c + d.lvlIdx x 3) (BitVec.ofInt 64 (mapNum d x 3 n)).toNat (w + i)).touch
    (hI.typed y j w i hj hw hi)
  rw [lastCleared_mem hne hg]
  split
  · rename_i heq
    rw [← heq]
    refine hdrop.trans (touch_tblcntSet ?_ _)
    rw [iopteType_congr hdrop.1, heq, htype]
    decide
  · rw [if_neg]
    · exact hdrop
    · rintro ⟨h₁, h₂⟩
      exact hdiff (w + i - c) ⟨by omega, by omega⟩ (by omega)

/-- The entries go, and the count above them goes down. -/
theorem Inv.lastCleared (n : Nat) : LastCleared hg x k u c n s (lastCleared d x s (u + d.idx x k) c n) := by
  have hdepth := depth_last hg hlvl
  have hle := mapNum_le (x := x) (l := 3) (n := n) hg
  have hIw : ∀ j, d.lvlIdx x 3 ≤ j ∧ j < d.lvlIdx x 3 + (mapNum d x 3 n).toNat → j < d.ptesPerTable :=
    fun j hj => by omega
  have hkeep := lastCleared_touch hI hlvl hu hc n
  have hE := hI.editAt (by omega) hc hIw hkeep
  refine ⟨hI.prune (by omega) hc hIw hkeep (fun j hj => ?_) (fun y j w hj hw _ => ?_), hE,
    (hE.tableAt_of_le (by omega) (le_succ k)).trans hu, (hE.tableAt_of_le (by omega) le_rfl).trans hc⟩
  · rw [lastCleared_zero hI hlvl hu hc hj.1 hj.2]
    exact ⟨by rw [pteView_zero]; rfl, Typed.zero d _⟩
  · have hpages : (Iopt.lastCleared d x s (u + d.idx x k) c n).pages = s.pages :=
      dropHint_pages d s x 3 (c + d.lvlIdx x 3) _
    rw [hpages]
    exact (hI.tree.pages y j w hj hw).1

omit hlvl in
/-- An entry goes with the table it points to, when that is the last one below it. -/
theorem Inv.freeLast (hdepth : (shape d hg).depth = k + 2) : Cleared hg x k u (d.idx x k) 1 (fun _ => False) s
      (freePages (writePte s (u + d.idx x k) 0) [c]) := by
  have hidx := idx_lt hg x k
  have hmem : ∀ a, (freePages (writePte s (u + d.idx x k) 0) [c]).mem a =
      if a = u + d.idx x k then 0 else s.mem a := fun a => writePte_mem s _ 0 a
  have hprev : PrevOf hg s x (k + 1) (some (u + d.idx x k)) := ⟨u, hu, rfl⟩
  obtain ⟨htype, -⟩ := hprev.cell rfl hI (by omega) hc
  have hone : ∀ j, d.idx x k ≤ j → j < d.idx x k + 1 →
      j = d.idx x k := fun j h₁ h₂ => by omega
  refine ⟨?_, ?_, ?_, ?_⟩
  · refine hI.prune (I := fun j => j = d.idx x k) (by omega) hu ?_ ?_ ?_ ?_
    · rintro j rfl
      exact hidx
    · intro y j w i _ _ _ hdiff
      rw [hmem, if_neg (hdiff _ rfl)]
      exact Touch.refl _
    · rintro j rfl
      rw [hmem, if_pos rfl]
      exact ⟨by rw [pteView_zero]; rfl, Typed.zero d _⟩
    · intro y j w hj hw hmiss
      refine mem_filter.mpr ⟨(hI.tree.pages y j w hj hw).1, ?_⟩
      have hwc : w ≠ c := by
        rintro rfl
        obtain ⟨rfl, hsame⟩ := hI.tree.unique x y (k + 1) j w (by omega) hj hc hw
        obtain ⟨hpath, hi⟩ := samePath_succ.mp hsame
        exact hmiss (lt_succ_self k) ⟨hpath, hi.symm⟩
      simpa using hwc
  · intro j h₁ h₂
    rw [hone j h₁ h₂]
    intro hz
    rw [hz] at htype
    exact absurd htype (by decide)
  · intro j h₁ h₂
    rw [hone j h₁ h₂, hmem, if_pos rfl]
  · intro a ha
    rw [hmem, if_neg (ha _ le_rfl (lt_succ_self _))]
    exact .inl rfl

/-- The ways `__arm_lpae_unmap` ends above a last-level table. -/
theorem unmapLastLevel_cases (size pgcount : Nat) : (iopteTblcnt ((lastCleared d x s (u + d.idx x k) c
        (reqNum d size 3 pgcount)).mem (u + d.idx x k)) ≠ 0 ∧
      (unmapLastLevel d x s size pgcount (u + d.idx x k)).1 =
        lastCleared d x s (u + d.idx x k) c (reqNum d size 3 pgcount)) ∨
    (iopteTblcnt ((lastCleared d x s (u + d.idx x k) c
        (reqNum d size 3 pgcount)).mem (u + d.idx x k)) = 0 ∧
      Cleared hg x k u (d.idx x k) 1 (fun _ => False)
        (lastCleared d x s (u + d.idx x k) c (reqNum d size 3 pgcount))
        (unmapLastLevel d x s size pgcount (u + d.idx x k)).1) := by
  have hdepth := depth_last hg hlvl
  have hderef : iopteDeref d (s.mem (u + d.idx x k)) = c := by
    obtain ⟨u', hu', hview⟩ := tableAt_succ hc
    rw [hu] at hu'
    cases hu'
    change pteView d (d.startLevel + k) (s.mem (u + d.idx x k)) = .table c at hview
    unfold pteView at hview
    split_ifs at hview
    exact View.table.inj hview
  rw [unmapLastLevel_eq, hderef]
  by_cases hz : iopteTblcnt ((lastCleared d x s (u + d.idx x k) c
      (reqNum d size 3 pgcount)).mem (u + d.idx x k)) = 0
  · rw [if_pos hz]
    have hL := hI.lastCleared hlvl hu hc (reqNum d size 3 pgcount)
    exact .inr ⟨hz, hL.inv.freeLast hL.above hL.table hdepth⟩
  · rw [if_neg hz]
    exact .inl ⟨hz, rfl⟩

end

end Sm8850.Iopt
