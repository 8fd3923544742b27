import Sm8850.Iopt.UnmapSpec
import Sm8850.Lib.Path

/-! Runs of map and unmap calls from a new table on, and the invariants every aligned call in range
keeps. -/
namespace Sm8850.Iopt
open TableTree

variable {d : Data} {hg : Geom d} {s s' : State} {x y i k l n r t pg : Nat} {e : U64}

/-! ### A new table -/

/-- The state right after the allocation: a zeroed pgd on a page of its own. -/
structure Fresh (d : Data) (s : State) : Prop where
  page : OnPage d s d.pgd
  zero : ∀ i < pageWords d, s.mem (d.pgd + i) = 0

variable {cfg : Cfg} {fmt : Fmt} {s₀ : State}

theorem allocPages_fresh {pgd : Nat} (h : allocPages d s₀ = (s, some pgd)) : Fresh { d with pgd } s := by
  rcases allocPages_cases d s₀ with h' | ⟨pg, hfree, h'⟩
  · rw [h] at h'
    cases h'
  · rw [h] at h'
    cases h'
    refine ⟨⟨.head _, (freePage_iff.mp hfree).2.1⟩, fun i hi => ?_⟩
    exact if_pos ⟨Nat.le_add_right _ _, Nat.add_lt_add_left hi _⟩

theorem arm64_alloc_spec (h : arm64LpaeAllocPgtableS1 cfg fmt s₀ = some (d, s)) :
    Geom d ∧ Fresh d s ∧ d.cfg.contigHint = cfg.contigHint := by
  unfold arm64LpaeAllocPgtableS1 at h
  split at h
  · cases h
  · cases hd : allocPgtable cfg fmt with
    | none => simp [hd] at h
    | some d₀ =>
      have hgeom := allocPgtable_geom hd
      have hhint : d₀.cfg.contigHint = cfg.contigHint := by
        unfold allocPgtable at hd
        dsimp only at hd
        split_ifs at hd
        cases hd
        rfl
      rw [hd] at h
      dsimp only at h
      split_ifs at h
      cases hp : allocPages d₀ s₀ with
      | mk s₁ res =>
        cases res with
        | none => simp [hp] at h
        | some pgd =>
          simp only [hp, Option.some.injEq, Prod.mk.injEq] at h
          obtain ⟨rfl, rfl⟩ := h
          refine ⟨⟨hgeom.bits, hgeom.start, hgeom.pgd, hgeom.ias, hgeom.iasMax, hgeom.oas, hgeom.page, hgeom.sizes⟩,
            allocPages_fresh hp, hhint⟩

theorem allocPgtableS1_spec (h : allocPgtableS1 cfg fmt s₀ = some (d, s)) :
    Geom d ∧ Fresh d s ∧ d.cfg.contigHint = cfg.contigHint := by
  unfold allocPgtableS1 at h
  split at h
  · exact arm64_alloc_spec h
  · unfold arm32LpaeAllocPgtableS1 at h
    split at h
    · cases h
    · obtain ⟨hgeom, hfresh, hhint⟩ := arm64_alloc_spec h
      exact ⟨hgeom, hfresh, hhint⟩
  · cases h

theorem allocPgtableS1_geom (h : allocPgtableS1 cfg fmt s₀ = some (d, s)) : Geom d := (allocPgtableS1_spec h).1

section
variable (hF : Fresh d s) [Fact (Fits d)]
include hF

theorem Fresh.entry (hg : Geom d) (x : Nat) : s.mem (d.pgd + d.idx x 0) = 0 :=
  hF.zero _ (lt_of_lt_of_le (lvlIdx_lt hg x _) fits)

/-- The pgd is the only table. -/
theorem Fresh.tables (h : TableAt hg s.mem y k t) : k = 0 ∧ t = d.pgd := by
  cases k with
  | zero => exact ⟨rfl, (Option.some.inj h).symm⟩
  | succ k =>
    obtain ⟨u, hu⟩ := TableTree.tableAt_of_le h (Nat.succ_le_succ (Nat.zero_le k))
    obtain ⟨v, hv, hview⟩ := tableAt_succ hu
    cases hv
    have hz : (shape d hg).view 0 (s.mem (d.pgd + (shape d hg).idx 0 y)) = .empty := by
      change pteView d (d.startLevel + 0) (s.mem (d.pgd + d.idx y 0)) = .empty
      rw [hF.entry hg y, pteView_zero]
    rw [show (shape d hg).root = d.pgd from rfl, hz] at hview
    cases hview

theorem Fresh.everywhere {Q : Nat → U64 → Prop} (hQ : ∀ l, Q l 0) : Everywhere hg s.mem Q := by
  intro x k t i hk ht hi
  obtain ⟨rfl, rfl⟩ := hF.tables ht
  rw [hF.zero i (lt_of_lt_of_le hi fits)]
  exact hQ _

theorem Fresh.shaped : Shaped hg s := by
  refine ⟨⟨⟨fun y j t _ ht => ?_, fun x y j k t _ _ hx hy => ?_⟩, hF.everywhere (Typed.zero d)⟩,
    hF.everywhere (LeafAligned.zero d)⟩
  · obtain ⟨-, rfl⟩ := hF.tables ht
    exact hF.page
  · obtain ⟨rfl, -⟩ := hF.tables hx
    obtain ⟨rfl, -⟩ := hF.tables hy
    exact ⟨rfl, nofun⟩

theorem Fresh.counted : Counted hg s.mem := by
  intro y j u c _ _ hc
  exact absurd (hF.tables hc).1 (Nat.succ_ne_zero j)

theorem Fresh.translation (hg : Geom d) (y : Nat) : translation d s.mem y = none := by
  by_cases hdepth : 0 < (shape d hg).depth
  · exact translation_empty hg hdepth rfl (hF.entry hg y)
  · have h4 : 4 - d.startLevel = 0 := Nat.eq_zero_of_not_pos hdepth
    rw [Iopt.translation, h4]
    rfl

end

/-! ### Calls -/

inductive Call where
  | map (iova paddr pgsize pgcount : Nat) (prot : Prot)
  | unmap (iova pgsize pgcount : Nat)

/-- The call is for aligned ranges of which the virtual one lies in the input range. -/
def Call.Aligned (d : Data) : Call → Prop
  | .map iova paddr pgsize pgcount _ => Req d iova pgsize pgcount ∧ pgsize ∣ paddr
  | .unmap iova pgsize pgcount => Req d iova pgsize pgcount

/-- The state after a call. -/
def Call.run (d : Data) (s : State) : Call → State
  | .map iova paddr pgsize pgcount prot => (mapPages d s iova paddr pgsize pgcount prot).1
  | .unmap iova pgsize pgcount => (unmapPages d s iova pgsize pgcount).1

/-! ### Mapping -/

section
variable {iova paddr pgsize pgcount : Nat} {prot : U64} {res : State × Except Errno U64}

section
variable (h : MapOutcome hg iova paddr pgsize pgcount prot s res) [Fact (Fits d)] (hprot : iopteVal prot = 0) (hI : Inv hg s)
include h hprot hI

theorem MapOutcome.counted (hcount : ∀ l, 0 ≤ toInt32 (findNumCont d l * pgcount))
    (hC : Counted hg s.mem) : Counted hg res.1.mem := by
  cases h with
  | fail e h => exact h.counted hI hC
  | noAccess => exact hC
  | @mapped s₁ s₂ k tbl n prot' prev h hk ht hp hreq hinit =>
    obtain ⟨m, -, -, hprot'⟩ := hreq.size_eq
    have hnum : 0 ≤ mapNum d iova (d.startLevel + k) n := by
      have := hreq.count_nonneg hcount
      have := lvlIdx_lt hg iova (d.startLevel + k)
      unfold mapNum
      omega
    exact (h.counted hI hC).initPte (h.inv hI).1 hk ht hp (hprot' hprot) (mapNum_le hg) hinit hnum

theorem MapOutcome.leafAligned (hal : pgsize ∣ paddr) (hpa : paddr + pgcount * pgsize ≤ 2 ^ d.paBits)
    (hA : Everywhere hg s.mem (LeafAligned d)) : Everywhere hg res.1.mem (LeafAligned d) := by
  cases h with
  | fail e h => exact h.leafAligned hI hA
  | noAccess => exact hA
  | @mapped s₁ s₂ k tbl n prot' prev h hk ht hp hreq hinit =>
    obtain ⟨m, hsize, rfl, hprot'⟩ := hreq.size_eq
    have hlvl := level_le hk
    have hI₁ := (h.inv hI).1
    have hn : d.idx iova k + _ ≤ _ := mapNum_le (x := iova) (n := m * pgcount) hg
    refine (h.leafAligned hI hA).prune hI₁ hk ht
      (I := fun j => d.idx iova k ≤ j ∧ j < d.idx iova k + (mapNum d iova (d.startLevel + k) (m * pgcount)).toNat)
      (fun j hj => by omega) ?_ (touchStable_leafAligned d) ?_
    · intro y j u i _ _ _ hne
      exact initPte_touch hI₁ hk ht hp hinit hne
    · intro j hj
      have hB : 0 < d.blockSize (d.startLevel + k) := Nat.two_pow_pos _
      have hdvd : d.blockSize (d.startLevel + k) ∣ pgsize := ⟨m, by rw [hsize, mul_comm]⟩
      have hle := Req.part_le hsize (mapNum_le_count d iova (d.startLevel + k) (m * pgcount))
      have hlt : (j - d.idx iova k) * d.blockSize (d.startLevel + k) <
          (mapNum d iova (d.startLevel + k) (m * pgcount)).toNat * d.blockSize (d.startLevel + k) :=
        Nat.mul_lt_mul_of_pos_right (by omega) hB
      rw [initPte_cell hI₁ hk ht hp hn hinit hj.1 hj.2, pteView_leafPte (hprot' hprot)]
      exact ⟨rfl, leafAligned_leafPte hg (hprot' hprot) hlvl (by omega)
        (Nat.dvd_add (hdvd.trans hal) (dvd_mul_left _ _))⟩

end

end

end Sm8850.Iopt
