import Sm8850.Iopt.Count

/-! Unmapping as a change of the translation: the bytes a call removes, for each way it can
end. -/
namespace Sm8850.Iopt
open TableTree BitVec Nat Data

variable {d : Data} {hg : Geom d} {s s' : State} {x y i k l n r t pg : Nat} {e : U64}

/-! ### Blocks at the address of a block -/

/-- A leaf maps to an address of its own alignment. -/
def LeafAligned (d : Data) (l : Nat) (e : U64) : Prop :=
  iopteLeaf d e l = true → d.blockSize l ∣ (iopteToPaddr d e).toNat

theorem touchStable_leafAligned (d : Data) : TouchStable (LeafAligned d) := by
  intro l e e' h he hleaf
  rw [iopteLeaf_congr h.1] at hleaf
  rw [iopteToPaddr_congr h.1]
  exact he hleaf

theorem LeafAligned.zero (d : Data) (l : Nat) : LeafAligned d l 0 := fun h => absurd rfl (leaf_ne_zero h)

theorem leafAligned_leafPte (hg : Geom d) {prot : U64} {p : Nat} (hprot : iopteVal prot = 0) (hl : l ≤ 3)
    (hp : p < 2 ^ d.paBits) (hal : d.blockSize l ∣ p) : LeafAligned d l (leafPte d prot l p) := by
  intro _
  have hbits : 2 ^ d.paBits ≤ 2 ^ 52 := Nat.pow_le_pow_right (by omega) (by unfold paBits; split <;> omega)
  rw [iopteToPaddr_leafPte hprot hg hp ((granule_dvd_blockSize d hl).trans hal), toNat_ofNat,
    mod_eq_of_lt (by omega)]
  exact hal

theorem leafAligned_install {refcount : Int} [Fact (Fits d)] (hk : k + 1 < (shape d hg).depth)
    (hfree : freePage d s pg) (he : TableEntry d pg refcount e) : LeafAligned d (d.startLevel + k) e := by
  intro hleaf
  obtain ⟨-, hal, hlt⟩ := freePage_iff.mp hfree
  exact absurd (iopteDeref_tableEntry hg hal hlt he).2
    (leaf_type_ne_table (level_le hk) hleaf)

theorem iopteToPaddr_lt (hg : Geom d) (e : U64) : (iopteToPaddr d e).toNat < 2 ^ d.paBits := by
  have hgr : d.granule = 2 ^ (d.bitsPerLevel + 3) := by
    rw [granule, pow_add]
    omega
  unfold iopteToPaddr paBits
  rcases hg.bits with hb | hb | hb
  · rw [hgr, hb, if_pos (by decide), if_neg (by omega), toNat_and]
    exact lt_of_le_of_lt and_le_right (by decide)
  · rw [hgr, hb, if_pos (by decide), if_neg (by omega), toNat_and]
    exact lt_of_le_of_lt and_le_right (by decide)
  · rw [hgr, hb, if_neg (by decide), if_pos rfl, toNat_and]
    exact lt_of_le_of_lt and_le_right (by decide)

theorem lvlShift_le_paBits (hg : Geom d) (hs : d.startLevel ≤ l) (hl : l ≤ 3) : d.lvlShift l ≤ d.paBits := by
  have hle := lvlShift_add_le hg hs hl
  have hias := hg.iasMax
  unfold paBits
  unfold lvlShift at hle ⊢
  have hmul : (4 - l) * d.bitsPerLevel ≤ 4 * d.bitsPerLevel := Nat.mul_le_mul_right _ (by omega)
  rcases hg.bits with hb | hb | hb <;> rw [hb] at hle hmul ⊢
  · rw [if_neg (by omega)]
    omega
  · rw [if_neg (by omega)]
    omega
  · rw [if_pos rfl]
    omega

/-- The whole of an aligned block is in range. -/
theorem block_le (hg : Geom d) (hs : d.startLevel ≤ l) (hl : l ≤ 3) {p : Nat} (hp : p < 2 ^ d.paBits)
    (hal : d.blockSize l ∣ p) : p + d.blockSize l ≤ 2 ^ d.paBits := by
  have hdvd : d.blockSize l ∣ 2 ^ d.paBits := Nat.pow_dvd_pow 2 (lvlShift_le_paBits hg hs hl)
  have hle := le_of_dvd (by omega) (Nat.dvd_sub hdvd hal)
  omega

theorem blockSize_succ (d : Data) (hl : l < 4) : d.blockSize l = d.blockSize (l + 1) * d.ptesPerTable := by
  rw [blockSize, blockSize, ptesPerTable, ← pow_add, ← lvlShift_eq d hl]

section
variable {blkPte : U64} {a b : Int} (hs : d.startLevel ≤ l) (hl : l < 3)
  (hal : LeafAligned d l blkPte) (hleaf : iopteLeaf d blkPte l = true)
include hs hl hal hleaf

/-- The parts of a block are aligned and in range. -/
theorem split_part (hg : Geom d) (hi : i < d.ptesPerTable) :
    (iopteToPaddr d blkPte).toNat + i * d.blockSize (l + 1) < 2 ^ d.paBits ∧
      d.blockSize (l + 1) ∣ (iopteToPaddr d blkPte).toNat + i * d.blockSize (l + 1) := by
  have hB : 0 < d.blockSize (l + 1) := Nat.two_pow_pos _
  have hblk := blockSize_succ d (show l < 4 by omega)
  have hle := block_le hg hs (by omega) (iopteToPaddr_lt hg blkPte) (hal hleaf)
  have hmul : i * d.blockSize (l + 1) < d.blockSize l := by
    rw [hblk, mul_comm]
    exact Nat.mul_lt_mul_of_pos_left hi hB
  exact ⟨by omega, Nat.dvd_add ((Dvd.intro _ hblk.symm).trans (hal hleaf)) (dvd_mul_left _ _)⟩

theorem leafAligned_splitEntry (hg : Geom d) : LeafAligned d (l + 1) (splitEntry d blkPte (l + 1) a b i) := by
  unfold splitEntry
  split
  · rename_i h
    obtain ⟨hlt, hdvd⟩ := split_part hs hl hal hleaf hg h.1
    exact leafAligned_leafPte hg (iopteVal_iopteProt blkPte) hl hlt hdvd
  · exact LeafAligned.zero d _

/-- An address under a part of a block leads where it led under the block. -/
theorem leafPhys_splitEntry (hg : Geom d) (y : Nat) : leafPhys d (l + 1) (leafPte d (iopteProt blkPte) (l + 1)
      ((iopteToPaddr d blkPte).toNat + d.lvlIdx y (l + 1) * d.blockSize (l + 1))) y = leafPhys d l blkPte y := by
  obtain ⟨hlt, hdvd⟩ := split_part hs hl hal hleaf hg (lvlIdx_lt hg y (l + 1))
  have hblk := blockSize_succ d (show l < 4 by omega)
  have hbits : d.lvlBits (l + 1) = d.bitsPerLevel := by rw [lvlBits, if_neg (by omega)]
  have hmod : y % d.blockSize l = d.lvlIdx y (l + 1) * d.blockSize (l + 1) + y % d.blockSize (l + 1) := by
    rw [hblk, mod_mul, lvlIdx_eq, blockNr, hbits, ptesPerTable]
    rw [mul_comm]
    omega
  rw [leafPhys_leafPte hg (iopteVal_iopteProt blkPte) hl hlt hdvd, leafPhys, add_assoc, ← hmod]
  obtain ⟨q, hq⟩ := hal hleaf
  have hlow : y % d.blockSize l < 2 ^ d.lvlShift l := mod_lt _ (Nat.two_pow_pos _)
  rw [hq, show d.blockSize l * q + y % d.blockSize l = 2 ^ d.lvlShift l * q ||| y % d.blockSize l from
    two_pow_add_eq_or_of_lt hlow q, ofNat_or]
  congr 1
  apply eq_of_toNat_eq
  rw [toNat_ofNat, show 2 ^ d.lvlShift l * q = (iopteToPaddr d blkPte).toNat from hq.symm,
    mod_eq_of_lt (iopteToPaddr d blkPte).isLt]

end

/-! ### What keeps blocks aligned -/

theorem Grow.leafAligned (h : Grow hg x s s') [Fact (Fits d)] (hI : Inv hg s)
    (hA : Everywhere hg s.mem (LeafAligned d)) : Everywhere hg s'.mem (LeafAligned d) := by
  induction h with
  | refl => exact hA
  | starved _ ih => exact ih
  | @link s₁ k t pg e h hk ht _ hfree he ih =>
    exact Everywhere.graft (c := fun _ => 0) (h.inv hI).1 hk ht hfree (fun _ => rfl)
      (pteView_install hk hfree he).1 (fun i _ => by rw [pteView_zero]; rfl) ih
      (leafAligned_install hk hfree he) (fun i _ => LeafAligned.zero d _)

section
variable {a b : Int} {refcount : Int} (hI : Inv hg s) [Fact (Fits d)]
  (hA : Everywhere hg s.mem (LeafAligned d)) (hk : k + 1 < (shape d hg).depth)
  (ht : TableAt hg s.mem x k t)
  (hleaf : iopteLeaf d (s.mem (t + d.idx x k)) (d.startLevel + k) = true)
  (hfree : freePage d s pg = true) (he : TableEntry d pg refcount e)
include hI hA hk ht hleaf hfree he

theorem split_leafAligned : Everywhere hg (splitTable d s (t + d.idx x k) pg e (d.startLevel + (k + 1)) a b).mem
      (LeafAligned d) := by
  have hblk := hA x k t _ (lt_of_succ_lt hk) ht (idx_lt hg x k)
  exact Everywhere.graft (c := splitEntry d (s.mem (t + d.idx x k)) (d.startLevel + (k + 1)) a b)
    hI hk ht hfree (fun _ => rfl) (pteView_install hk hfree he).1
    (fun i _ => (splitEntry_view _ _ a b i).1) hA (leafAligned_install hk hfree he)
    (fun i _ => leafAligned_splitEntry (Nat.le_add_right _ _) (level_le hk) hblk hleaf hg)

/-- A block that is split keeps its translation, but for the entries left out. -/
theorem split_translation (y : Nat) : (Hits (shape d hg) x k (· = d.idx x k) y →
      splitKeeps a b (d.idx y (k + 1)) = false →
      translation d (splitTable d s (t + d.idx x k) pg e (d.startLevel + (k + 1)) a b).mem y =
        none) ∧ (¬ (Hits (shape d hg) x k (· = d.idx x k) y ∧ splitKeeps a b (d.idx y (k + 1)) = false) →
      translation d (splitTable d s (t + d.idx x k) pg e (d.startLevel + (k + 1)) a b).mem y =
        translation d s.mem y) := by
  obtain ⟨-, hE, htab, hcell⟩ := hI.split (a := a) (b := b) ht hfree hk he
  have hblk := hA x k t _ (lt_of_succ_lt hk) ht (idx_lt hg x k)
  have hentry := hcell _ (idx_lt hg y (k + 1))
  constructor
  · intro hy hout
    rw [splitEntry, if_neg (fun h => by rw [hout] at h; exact absurd h.2 (by decide))] at hentry
    exact translation_empty hg hk (htab y hy) hentry
  · intro hin
    by_cases hy : Hits (shape d hg) x k (· = d.idx x k) y
    · have hkeep : splitKeeps a b (d.idx y (k + 1)) := by
        simpa using fun h => hin ⟨hy, h⟩
      rw [splitEntry, if_pos ⟨lvlIdx_lt hg y _, hkeep⟩] at hentry
      have hidx : d.idx y k = d.idx x k := hy.2
      have hprot := iopteVal_iopteProt (s.mem (t + d.idx x k))
      have hbefore : translation d s.mem y = some (leafPhys d (d.startLevel + k) (s.mem _) y) :=
        translation_leaf hg (lt_of_succ_lt hk) ((tableAt_congr hy.1).symm.trans ht) (by rw [hidx]; exact leaf_ne_zero hleaf)
          (by rw [hidx]; exact hleaf)
      rw [hbefore, hidx, translation_leaf hg hk (htab y hy)
        (by rw [hentry]; exact leafPte_ne_zero hprot) (by rw [hentry]; exact iopteLeaf_leafPte hprot), hentry]
      exact congrArg some (leafPhys_splitEntry (Nat.le_add_right _ _) (level_le hk) hblk
        hleaf hg y)
    · exact translation_congr hg (hE.miss hy).2

end

theorem SplitWay.spec {size : Nat} (h : SplitWay hg x size s s') [Fact (Fits d)] (hI : Inv hg s)
    (hA : Everywhere hg s.mem (LeafAligned d)) :
    Everywhere hg s'.mem (LeafAligned d) ∧ ∀ y, translation d s'.mem y = translation d s.mem y := by
  induction h with
  | refl => exact ⟨hA, fun _ => rfl⟩
  | split h hk ht hleaf _ _ hfree he ih =>
    have hI' := h.inv hI
    refine ⟨split_leafAligned hI' ih.1 hk ht hleaf hfree he, fun y => ?_⟩
    rw [← ih.2 y]
    refine (split_translation hI' ih.1 hk ht hleaf hfree he y).2 ?_
    rintro ⟨-, hout⟩
    simp [splitKeeps] at hout
    omega

theorem Spare.leafAligned (h : Spare hg s s') (hA : Everywhere hg s.mem (LeafAligned d)) :
    Everywhere hg s'.mem (LeafAligned d) :=
  hA.touch (fun y j u i hj hu hi => Touch.of_eq (h.cells y j u i hj hu hi)) (touchStable_leafAligned d)

theorem Cleared.leafAligned {c : Nat} {W : Nat → Prop} (h : Cleared hg x k t i c W s s') (hI : Inv hg s)
    [Fact (Fits d)] (hk : k < (shape d hg).depth) (ht : TableAt hg s.mem x k t)
    (hi : i + c ≤ d.ptesPerTable) (hA : Everywhere hg s.mem (LeafAligned d)) :
    Everywhere hg s'.mem (LeafAligned d) := by
  refine hA.prune hI hk ht (I := fun j => i ≤ j ∧ j < i + c) (fun j hj => by omega) ?_
    (touchStable_leafAligned d) ?_
  · intro y j u i' hj hu hi' hne
    exact (h.keep (u + i') (fun j h₁ h₂ => hne j ⟨h₁, h₂⟩)).touch (hI.typed y j u i' hj hu hi')
  · intro j hj
    rw [h.zero j hj.1 hj.2, pteView_zero]
    exact ⟨rfl, LeafAligned.zero d _⟩

/-! ### Entries of the size of the request -/

section
variable {size pgcount : Nat}

/-- The entries a request covers at the level of its size. -/
def unmapNum (d : Data) (x l size pgcount : Nat) : Int := mapNum d x l (checkAndSetNumCont d size l * pgcount)

theorem unmapNum_le (d : Data) (x l size pgcount : Nat) :
    (unmapNum d x l size pgcount).toNat ≤ reqNum d size l pgcount := mapNum_le_count d x l _

theorem Matches.dvd (h : Matches d size l) (hreq : Req d x size pgcount) : d.blockSize l ∣ x :=
  (Dvd.intro_left _ h.unit.symm).trans hreq.aligned

/-- The bytes of these entries belong to the request. -/
theorem Matches.last (h : Matches d size l) (hreq : Req d x size pgcount)
    (hn : n ≤ (unmapNum d x l size pgcount).toNat) (hn0 : n ≠ 0) : d.InRange (x + n * d.blockSize l - 1) :=
  hreq.part h.unit (hn.trans (unmapNum_le d x l size pgcount))
    (Nat.mul_ne_zero hn0 (Nat.two_pow_pos _).ne')

/-- The cells swept by the rounds of the loop. -/
def blocksSwept (d : Data) (s : State) (x l t size pgcount a : Nat) : Prop :=
  ∃ j, d.lvlIdx x l ≤ j ∧ j < d.lvlIdx x l + (unmapNum d x l size pgcount).toNat ∧
    Swept d s x l (t + j) pgcount a

theorem unmapBlocks_cleared (hI : Inv hg s) [Fact (Fits d)] (hreq : Req d x size pgcount)
    (hr : d.startLevel + k + (r + 1) = 4) (ht : TableAt hg s.mem x k t)
    (hm : Matches d size (d.startLevel + k)) : k < (shape d hg).depth ∧ ∃ c s',
      c ≤ (unmapNum d x (d.startLevel + k) size pgcount).toNat ∧ d.idx x k + c ≤ d.ptesPerTable ∧
      unmapBlocks d x s size pgcount (d.startLevel + k) r t =
        (s', BitVec.ofNat 64 (c * d.blockSize (d.startLevel + k))) ∧
      Cleared hg x k t (d.idx x k) c (blocksSwept d s x (d.startLevel + k) t size pgcount) s s' := by
  have hk := lt_depth hg (show d.startLevel + k < 4 by omega)
  have hnum : d.idx x k + (unmapNum d x (d.startLevel + k) size pgcount).toNat ≤ d.ptesPerTable :=
    mapNum_le hg
  have hbits := idx_add_le hg (Nat.le_add_right _ _) (by omega) hreq.first hnum (hm.dvd hreq)
    (fun h0 => hm.last hreq le_rfl h0)
  obtain ⟨hC, hle, -⟩ := Inv.unmapLoop (n := pgcount) hI hk ht hr hbits
  refine ⟨hk, _, _, hle, (Nat.add_le_add_left hle _).trans hnum, ?_, hC⟩
  rw [← hm.div]
  rfl

end

/-! ### Invariants -/

/-- What a run keeps of the tree, whatever the hints and the counts. -/
structure Shaped (hg : Geom d) (s : State) : Prop where
  inv : Inv hg s
  aligned : Everywhere hg s.mem (LeafAligned d)

section
variable {size pgcount : Nat} {res : State × U64}

theorem SplitEnd.inv (h : SplitEnd hg x k t size pgcount s res) [Fact (Fits d)] (hI : Inv hg s) : Inv hg res.1 := by
  cases h with
  | stop hway hspare => exact (hspare.inv (hway.inv hI)).1
  | unhint _ _ hspare =>
    exact (hspare.inv (hI.hintDropped x _ _ _).1).1
  | split hway hk ht _ _ _ hfree he => exact ((hway.inv hI).split ht hfree hk he).1

theorem SplitEnd.leafAligned (h : SplitEnd hg x k t size pgcount s res) [Fact (Fits d)] (hS : Shaped hg s) :
    Everywhere hg res.1.mem (LeafAligned d) := by
  cases h with
  | stop hway hspare => exact hspare.leafAligned (hway.spec hS.inv hS.aligned).1
  | unhint _ _ hspare =>
    refine hspare.leafAligned (hS.aligned.touch ?_ (touchStable_leafAligned d))
    exact fun y j u i hj hu hi => (dropHint_mem d s x _ _ _ (u + i)).touch (hS.inv.typed y j u i hj hu hi)
  | split hway hk ht hleaf _ _ hfree he =>
    exact split_leafAligned (hway.inv hS.inv) (hway.spec hS.inv hS.aligned).1 hk ht hleaf hfree he

theorem lastCleared_leafAligned {u c : Nat} (hS : Shaped hg s) [Fact (Fits d)] (hlvl : d.startLevel + k = 2)
    (hu : TableAt hg s.mem x k u) (hc : TableAt hg s.mem x (k + 1) c) :
    Everywhere hg (lastCleared d x s (u + d.idx x k) c n).mem (LeafAligned d) := by
  have hdepth := depth_last hg hlvl
  have hle := mapNum_le (x := x) (l := 3) (n := n) hg
  refine hS.aligned.prune hS.inv (by omega) hc (fun j hj => by omega)
    (lastCleared_touch hS.inv hlvl hu hc n) (touchStable_leafAligned d) fun j hj => ?_
  rw [lastCleared_zero hS.inv hlvl hu hc hj.1 hj.2, pteView_zero]
  exact ⟨rfl, LeafAligned.zero d _⟩

section
variable (h : UnmapEnd hg x size pgcount s res) [Fact (Fits d)] (hreq : Req d x size pgcount)
include h hreq

theorem UnmapEnd.inv (hI : Inv hg s) : Inv hg res.1 := by
  cases h with
  | empty => exact hI
  | @blocks k t r hr ht hm _ =>
    obtain ⟨-, c, s', -, -, heq, hC⟩ := unmapBlocks_cleared hI hreq hr ht hm
    rw [heq]
    exact hC.inv
  | @last k u c hlvl hu hc _ =>
    rcases unmapLastLevel_cases hI hlvl hu hc size pgcount with ⟨-, heq⟩ | ⟨-, hC⟩
    · rw [heq]
      exact (hI.lastCleared hlvl hu hc _).inv
    · exact hC.inv
  | split _ _ _ _ hend => exact hend.inv hI

theorem UnmapEnd.shaped (hS : Shaped hg s) : Shaped hg res.1 := by
  refine ⟨h.inv hreq hS.inv, ?_⟩
  cases h with
  | empty => exact hS.aligned
  | @blocks k t r hr ht hm _ =>
    obtain ⟨hk, c, s', -, hle, heq, hC⟩ := unmapBlocks_cleared hS.inv hreq hr ht hm
    rw [heq]
    exact hC.leafAligned hS.inv hk ht hle hS.aligned
  | @last k u c hlvl hu hc _ =>
    have hdepth := depth_last hg hlvl
    have hA := lastCleared_leafAligned (n := reqNum d size 3 pgcount) hS hlvl hu hc
    have hL := hS.inv.lastCleared hlvl hu hc (reqNum d size 3 pgcount)
    rcases unmapLastLevel_cases hS.inv hlvl hu hc size pgcount with ⟨-, heq⟩ | ⟨-, hC⟩
    · rw [heq]
      exact hA
    · exact hC.leafAligned hL.inv (by omega) hL.above (lvlIdx_lt hg x _) hA
  | split _ _ _ _ hend => exact hend.leafAligned hS

end

/-! ### Counts -/

/-- The cells a call may take the hint from. -/
inductive CallSwept (hg : Geom d) (s : State) (x size pgcount : Nat) : Nat → Prop
  | blocks {k t a : Nat} : tableAt (shape d hg) s.mem x k = some t → Matches d size (d.startLevel + k) →
      blocksSwept d s x (d.startLevel + k) t size pgcount a → CallSwept hg s x size pgcount a
  | last {k c a : Nat} : d.startLevel + k = 2 → tableAt (shape d hg) s.mem x (k + 1) = some c →
      lastSwept d s x c (checkAndSetNumCont d size 3 * pgcount) a → CallSwept hg s x size pgcount a
  | leaf {k t a : Nat} : tableAt (shape d hg) s.mem x k = some t →
      Swept d s x (d.startLevel + k) (t + d.lvlIdx x (d.startLevel + k)) (findNumCont d (d.startLevel + k)) a →
      CallSwept hg s x size pgcount a

/-- The entries of a last-level table that a call clears are in use. -/
def LastUsed (hg : Geom d) (s : State) (x size pgcount : Nat) : Prop :=
  ∀ k c, d.startLevel + k = 2 → tableAt (shape d hg) s.mem x (k + 1) = some c → ∀ j, d.lvlIdx x 3 ≤ j →
    j < d.lvlIdx x 3 + (unmapNum d x 3 size pgcount).toNat → s.mem (c + j) ≠ 0

/-- What the counts need of an unmapping request. -/
structure CountsKept (hg : Geom d) (s : State) (x size pgcount : Nat) : Prop where
  last : (∀ j, d.startLevel + j ≤ 2 → ¬ Matches d size (d.startLevel + j)) →
    0 < toInt32 (checkAndSetNumCont d size 3 * pgcount) ∧ LastUsed hg s x size pgcount
  swept : CountSafe hg s (CallSwept hg s x size pgcount)

theorem CountSafe.mono {W W' : Nat → Prop} (h : CountSafe hg s W) (hW : ∀ a, W' a → W a) : CountSafe hg s W' :=
  fun y j u v hj hu hv hw => h y j u v hj hu hv (hW _ hw)

theorem unmapNum_pos (hg : Geom d) (h : 0 < toInt32 (checkAndSetNumCont d size l * pgcount)) :
    0 < unmapNum d x l size pgcount := by
  have := lvlIdx_lt hg x l
  unfold unmapNum mapNum
  omega

theorem SplitEnd.counted (h : SplitEnd hg x k t size pgcount s res) [Fact (Fits d)] (hI : Inv hg s)
    (ht : TableAt hg s.mem x k t) (hC : Counted hg s.mem)
    (hsafe : CountSafe hg s (CallSwept hg s x size pgcount)) : Counted hg res.1.mem := by
  cases h with
  | stop hway hspare => exact hspare.counted (hway.inv hI) (hway.counted hI hC)
  | unhint _ _ hspare =>
    exact hspare.counted (hI.hintDropped x _ _ _).1 (Counted.unhint hI (dropHint_mem d s x _ _ _)
      (dropHint_pages d s x _ _ _) (hsafe.mono fun a ha => .leaf ht ha) hC)
  | split hway hk ht' _ _ _ hfree he =>
    exact (hway.counted hI hC).split (hway.inv hI) hk ht' hfree he

theorem UnmapEnd.counted (h : UnmapEnd hg x size pgcount s res) [Fact (Fits d)] (hreq : Req d x size pgcount)
    (hI : Inv hg s) (hC : Counted hg s.mem) (hok : CountsKept hg s x size pgcount) : Counted hg res.1.mem := by
  cases h with
  | empty => exact hC
  | @blocks k t r hr ht hm hdeep =>
    obtain ⟨hk, c, s', -, hle, heq, hclear⟩ := unmapBlocks_cleared hI hreq hr ht hm
    rw [heq]
    exact hclear.counted hI hk ht hle hdeep hC (hok.swept.mono fun a ha => .blocks ht hm ha)
  | @last k u c hlvl hu hc hbefore =>
    have hdepth := depth_last hg hlvl
    obtain ⟨hpos, hused⟩ := hok.last (fun j hj => hbefore j (by omega))
    have hnum := unmapNum_pos (x := x) hg hpos
    have hL := hI.lastCleared hlvl hu hc (reqNum d size 3 pgcount)
    have hC' := hC.lastCleared (n := reqNum d size 3 pgcount) hI hlvl hu hc (le_of_lt hnum)
      (hused k c hlvl hc) (hok.swept.mono fun a ha => .last hlvl hc ha)
    rcases unmapLastLevel_cases hI hlvl hu hc size pgcount with ⟨-, heq⟩ | ⟨-, hclear⟩
    · rw [heq]
      exact hC'
    · exact hclear.counted hL.inv (by omega) hL.above (lvlIdx_lt hg x _) (.inl (by omega)) hC'
        (fun y j u v _ _ _ h => h.elim)
  | split _ ht _ _ hend => exact hend.counted hI ht hC hok.swept

/-! ### The bytes a call removes -/

/-- The first `n` bytes of a request translate no more, and nothing else changes. -/
def UnmapsBytes (d : Data) (mem mem' : Nat → U64) (iova n : Nat) : Prop :=
  ∀ y, d.InRange y → translation d mem' y =
    if iova ≤ y ∧ y < iova + n then none else translation d mem y

/-- What unmapping needs of a request: the size of a level the table has, and a count that is
positive as an int. -/
structure UnmapOk (hg : Geom d) (s : State) (x size pgcount : Nat) : Prop where
  level : ∃ l, d.startLevel ≤ l ∧ l ≤ 3 ∧ Matches d size l
  count : ∀ l, Matches d size l → 0 < toInt32 (checkAndSetNumCont d size l * pgcount)
  used : Matches d size 3 → LastUsed hg s x size pgcount
  swept : CountSafe hg s (CallSwept hg s x size pgcount)

theorem UnmapOk.counts (h : UnmapOk hg s x size pgcount) : CountsKept hg s x size pgcount := by
  refine ⟨fun hbefore => ?_, h.swept⟩
  obtain ⟨l, hs, hl, hm⟩ := h.level
  have hl3 : l = 3 := by
    by_contra hne
    exact hbefore (l - d.startLevel) (by omega) (by rwa [Nat.add_sub_cancel' hs])
  subst hl3
  exact ⟨h.count 3 hm, h.used hm⟩

/-- A number of bytes of the request, as the call returns it. -/
theorem toNat_bytes (hg : Geom d) (hreq : Req d x size pgcount) (hm : Matches d size l)
    (hn : n ≤ (unmapNum d x l size pgcount).toNat) :
    (BitVec.ofNat 64 (n * d.blockSize l)).toNat = n * d.blockSize l ∧ n * d.blockSize l ≤ pgcount * size := by
  have hle := Req.part_le hm.unit (hn.trans (unmapNum_le d x l size pgcount))
  have hias : 2 ^ d.cfg.ias ≤ 2 ^ 52 := Nat.pow_le_pow_right (by omega) hg.iasMax
  have hlt := hreq.size_le
  rw [toNat_ofNat, mod_eq_of_lt (by omega)]
  exact ⟨rfl, hle⟩

theorem toNat_bytes_int (hg : Geom d) (hreq : Req d x size pgcount) (hm : Matches d size l)
    (hn : 0 ≤ unmapNum d x l size pgcount) :
    (BitVec.ofInt 64 (unmapNum d x l size pgcount * (d.blockSize l : Nat))).toNat =
      (unmapNum d x l size pgcount).toNat * d.blockSize l := by
  have hcast : unmapNum d x l size pgcount * (d.blockSize l : Nat) =
      (((unmapNum d x l size pgcount).toNat * d.blockSize l : Nat) : Int) := by
    rw [Int.natCast_mul, Int.toNat_of_nonneg hn]
  rw [hcast, ofInt_natCast]
  exact (toNat_bytes hg hreq hm le_rfl).1

/-- Entries from the start of the request on, as bytes. -/
theorem hits_request (hg : Geom d) (hk : d.startLevel + k ≤ 3) (hreq : Req d x size pgcount)
    (hm : Matches d size (d.startLevel + k)) (hn : n ≤ (unmapNum d x (d.startLevel + k) size pgcount).toNat)
    (hy : d.InRange y) : Hits (shape d hg) x k (fun j => d.idx x k ≤ j ∧ j < d.idx x k + n) y ↔
      x ≤ y ∧ y < x + n * d.blockSize (d.startLevel + k) := by
  have hnum : d.idx x k + (unmapNum d x (d.startLevel + k) size pgcount).toNat ≤ d.ptesPerTable :=
    mapNum_le hg
  exact hits_bytes hg hk hreq.first hy (hm.dvd hreq) (by omega) (fun h0 => hm.last hreq hn h0)

theorem UnmapsBytes.of_cases {mem mem' : Nat → U64} {H : Nat → Prop} (hH : ∀ y, d.InRange y → (H y ↔ x ≤ y ∧ y < x + n))
    (h : ∀ y, (H y → translation d mem' y = none) ∧ (¬ H y → translation d mem' y = translation d mem y)) :
    UnmapsBytes d mem mem' x n := by
  intro y hy
  by_cases hin : x ≤ y ∧ y < x + n
  · rw [if_pos hin, (h y).1 ((hH y hy).mpr hin)]
  · rw [if_neg hin, (h y).2 (fun hh => hin ((hH y hy).mp hh))]

theorem UnmapsBytes.same {mem mem' : Nat → U64} (h : ∀ y, translation d mem' y = translation d mem y) :
    UnmapsBytes d mem mem' x 0 := by
  intro y _
  rw [if_neg (by omega), h y]

/-- A last-level table whose count is zero is empty. -/
theorem Counted.last_empty {mem : Nat → U64} {u c : Nat} (hC : Counted hg mem) (hlvl : d.startLevel + k = 2)
    (hu : TableAt hg mem x k u) (hc : TableAt hg mem x (k + 1) c)
    (hz : iopteTblcnt (mem (u + d.idx x k)) = 0) (hlt : usedCount d mem c < 8192) :
    ∀ i < d.ptesPerTable, mem (c + i) = 0 := by
  rw [hC x k u c hlvl hu hc] at hz
  exact usedCount_eq_zero.mp (by omega)

theorem ptesPerTable_le (hg : Geom d) : d.ptesPerTable ≤ 8192 := by
  unfold ptesPerTable
  rcases hg.bits with hb | hb | hb <;> rw [hb] <;> decide

section
variable {u c : Nat} (hI : Inv hg s) [Fact (Fits d)] (hC : Counted hg s.mem) (hlvl : d.startLevel + k = 2)
  (hu : TableAt hg s.mem x k u) (hc : TableAt hg s.mem x (k + 1) c)
  (hnum : 0 < unmapNum d x 3 size pgcount) (hused : LastUsed hg s x size pgcount)
  (hsafe : CountSafe hg s (CallSwept hg s x size pgcount))
include hI hC hlvl hu hc hnum hused hsafe

/-- The count is zero only when no entry is left. -/
theorem lastCleared_empty (hz : iopteTblcnt ((lastCleared d x s (u + d.idx x k) c
      (reqNum d size 3 pgcount)).mem (u + d.idx x k)) = 0) :
    ∀ i < d.ptesPerTable, (lastCleared d x s (u + d.idx x k) c
      (reqNum d size 3 pgcount)).mem (c + i) = 0 := by
  have hdepth := depth_last hg hlvl
  have hL := hI.lastCleared hlvl hu hc (reqNum d size 3 pgcount)
  have hC' := hC.lastCleared (n := reqNum d size 3 pgcount) hI hlvl hu hc (le_of_lt hnum)
    (hused k c hlvl hc) (hsafe.mono fun a ha => .last hlvl hc ha)
  have hcount := lastCleared_used (n := reqNum d size 3 pgcount) hI hlvl hu hc (hused k c hlvl hc)
  have hle := usedCount_le d s.mem c
  have hmax := ptesPerTable_le hg
  have hpos : 0 < (mapNum d x 3 (reqNum d size 3 pgcount)).toNat := by
    have : 0 < mapNum d x 3 (reqNum d size 3 pgcount) := hnum
    omega
  exact hC'.last_empty hlvl hL.above hL.table hz (by omega)

/-- Freeing the table changes no translation. -/
theorem unmapLastLevel_translation (y : Nat) :
    translation d (unmapLastLevel d x s size pgcount (u + d.idx x k)).1.mem y =
      translation d (lastCleared d x s (u + d.idx x k) c (reqNum d size 3 pgcount)).mem y := by
  have hdepth := depth_last hg hlvl
  rcases unmapLastLevel_cases hI hlvl hu hc size pgcount with ⟨-, heq⟩ | ⟨hz, hclear⟩
  · rw [heq]
  · have hL := hI.lastCleared hlvl hu hc (reqNum d size 3 pgcount)
    have hempty := lastCleared_empty hI hC hlvl hu hc hnum hused hsafe hz
    obtain ⟨hin, hout⟩ := hclear.translation hL.inv (by omega) hL.above (lvlIdx_lt hg x _) y
    rw [hits_one] at hin hout
    by_cases hsame : SamePath (shape d hg) (k + 1) x y
    · rw [hin hsame]
      exact (translation_empty hg (by omega) ((tableAt_congr hsame).symm.trans hL.table) (hempty _ (lvlIdx_lt hg y _))).symm
    · exact hout hsame

end

theorem SplitEnd.bytes (h : SplitEnd hg x k t size pgcount s res) [Fact (Fits d)] (hS : Shaped hg s)
    (hreq : Req d x size pgcount)
    (hcount : ∀ l, Matches d size l → 0 < toInt32 (checkAndSetNumCont d size l * pgcount)) :
    res.2.toNat ≤ pgcount * size ∧ UnmapsBytes d s.mem res.1.mem x res.2.toNat := by
  cases h with
  | stop hway hspare =>
    refine ⟨Nat.zero_le _, UnmapsBytes.same fun y => ?_⟩
    rw [(hspare.inv (hway.inv hS.inv)).2.2 y, (hway.spec hS.inv hS.aligned).2 y]
  | unhint _ _ hspare =>
    obtain ⟨hI, -, htr⟩ := hS.inv.hintDropped x (d.startLevel + k) (t + d.idx x k)
      (findNumCont d (d.startLevel + k))
    refine ⟨Nat.zero_le _, UnmapsBytes.same fun y => ?_⟩
    rw [(hspare.inv hI).2.2 y, htr y]
  | @split s' k' t' pg e hway hk ht hleaf _ hm hfree he =>
    have hlvl := level_le hk
    have hI := hway.inv hS.inv
    obtain ⟨hA, htr⟩ := hway.spec hS.inv hS.aligned
    have hnum := unmapNum_pos (x := x) hg (hcount _ hm)
    have hbytes : (BitVec.ofInt 64 (mapNum d x (d.startLevel + (k' + 1))
        (reqNum d size (d.startLevel + (k' + 1)) pgcount) *
          d.blockSize (d.startLevel + (k' + 1)))).toNat = _ := toNat_bytes_int hg hreq hm (le_of_lt hnum)
    rw [hbytes]
    refine ⟨(toNat_bytes hg hreq hm le_rfl).2, ?_⟩
    refine UnmapsBytes.of_cases (fun y hy => hits_request hg hlvl hreq hm le_rfl hy) fun y => ?_
    -- an address of the block whose part is left out
    have hiff : Hits (shape d hg) x (k' + 1) (fun j => d.idx x (k' + 1) ≤ j ∧
        j < d.idx x (k' + 1) + (unmapNum d x (d.startLevel + (k' + 1)) size pgcount).toNat) y ↔
        Hits (shape d hg) x k' (· = d.idx x k') y ∧
          splitKeeps (d.idx x (k' + 1))
            (mapNum d x (d.startLevel + (k' + 1)) (reqNum d size (d.startLevel + (k' + 1)) pgcount))
            (d.idx y (k' + 1)) = false := by
      have hidx : (shape d hg).idx (k' + 1) y = d.idx y (k' + 1) := rfl
      have hnum' : (unmapNum d x (d.startLevel + (k' + 1)) size pgcount).toNat = mapNum d x (d.startLevel + (k' + 1))
          (reqNum d size (d.startLevel + (k' + 1)) pgcount) := Int.toNat_of_nonneg (le_of_lt hnum)
      simp only [Hits, samePath_succ, hidx, splitKeeps, Bool.not_eq_false', Bool.and_eq_true, decide_eq_true_eq]
      constructor
      · rintro ⟨⟨hpath, hi⟩, h₁, h₂⟩
        exact ⟨⟨hpath, hi.symm⟩, by omega, by omega⟩
      · rintro ⟨⟨hpath, hi⟩, h₁, h₂⟩
        exact ⟨⟨hpath, hi.symm⟩, by omega, by omega⟩
    obtain ⟨hin, hout⟩ := split_translation hI hA hk ht hleaf hfree he y
    rw [hiff]
    exact ⟨fun hh => hin hh.1 hh.2, fun hh => (hout hh).trans (htr y)⟩

/-- A call removes the bytes it returns, from the start of the request on. -/
theorem UnmapEnd.bytes (h : UnmapEnd hg x size pgcount s res) [Fact (Fits d)] (hS : Shaped hg s)
    (hC : Counted hg s.mem) (hreq : Req d x size pgcount) (hok : UnmapOk hg s x size pgcount) :
    res.2.toNat ≤ pgcount * size ∧ UnmapsBytes d s.mem res.1.mem x res.2.toNat := by
  have hI := hS.inv
  cases h with
  | empty => exact ⟨Nat.zero_le _, UnmapsBytes.same fun _ => rfl⟩
  | @blocks k t r hr ht hm _ =>
    obtain ⟨hk, c, s', hle, hroom, heq, hclear⟩ := unmapBlocks_cleared hI hreq hr ht hm
    obtain ⟨hret, hbound⟩ := toNat_bytes hg hreq hm hle
    rw [heq, hret]
    exact ⟨hbound, UnmapsBytes.of_cases (fun y hy => hits_request hg (by omega) hreq hm hle hy)
      (hclear.translation hI hk ht hroom)⟩
  | @last k u c hlvl hu hc hbefore =>
    have hdepth := depth_last hg hlvl
    have h3 : d.startLevel + (k + 1) = 3 := by omega
    obtain ⟨hpos, hused⟩ := hok.counts.last (fun j hj => hbefore j (by omega))
    have hnum := unmapNum_pos (x := x) hg hpos
    have hm : Matches d size 3 := by
      obtain ⟨l, hs, hl, hm⟩ := hok.level
      rcases lt_or_eq_of_le hl with hlt | rfl
      · exact absurd (by rwa [Nat.add_sub_cancel' hs]) (hbefore (l - d.startLevel) (by omega))
      · exact hm
    have hL := hI.lastCleared hlvl hu hc (reqNum d size 3 pgcount)
    have hbytes : (unmapLastLevel d x s size pgcount (u + d.idx x k)).2.toNat =
        (unmapNum d x 3 size pgcount).toNat * d.blockSize 3 := by
      rw [unmapLastLevel_eq, hm.div]
      exact toNat_bytes_int hg hreq hm (le_of_lt hnum)
    rw [hbytes]
    refine ⟨(toNat_bytes hg hreq hm le_rfl).2, ?_⟩
    have hH := fun y (hy : d.InRange y) => hits_request (y := y) hg (by omega) hreq (h3 ▸ hm) le_rfl hy
    rw [idx_eq h3, h3] at hH
    refine UnmapsBytes.of_cases hH fun y => ?_
    rw [unmapLastLevel_translation hI hC hlvl hu hc hnum hused hok.swept y]
    exact translation_cleared hL.edit (by omega) hc (fun j hj => lastCleared_zero hI hlvl hu hc hj.1 hj.2) y
  | split _ _ _ _ hend => exact hend.bytes hS hreq hok.count

end

end Sm8850.Iopt
