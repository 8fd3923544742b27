import Mathlib.Data.Nat.Bitwise
import Mathlib.Tactic.IntervalCases

/-! The configuration of a page table of drivers/iommu/qcom-io-pgtable-arm.c: the page sizes a
granule allows, the levels they live on and how an address is cut into indices. -/
namespace Sm8850.Iopt
open List Nat Bool

inductive Fmt where
  | qcomArm64LpaeS1
  | arm32LpaeS1
  | arm64LpaeS2
  | arm32LpaeS2
  | armMaliLpae
deriving DecidableEq

/-- `struct io_pgtable_cfg`, with PAGE_SHIFT and CONFIG_IOMMU_IO_PGTABLE_CONTIG_HINT of the
build. `otherQuirks` is any quirk flag the format does not know. -/
structure Cfg where
  pgsizeBitmap : Nat
  ias : Nat
  oas : Nat
  quirkArmNs : Bool
  quirkArmTtbr1 : Bool
  quirkArmOuterWbwa : Bool
  quirkQcomUseLlcNwa : Bool
  otherQuirks : Bool
  coherentWalk : Bool
  pageShift : Nat
  contigHint : Bool

/-- `struct arm_lpae_io_pgtable`; a table is named by the index of its first 64-bit word. -/
structure Data where
  cfg : Cfg
  fmt : Fmt
  pgdBits : Nat
  startLevel : Nat
  bitsPerLevel : Nat
  pgd : Nat

def sz4K : Nat := 0x1000
def sz16K : Nat := 0x4000
def sz64K : Nat := 0x10000
def sz2M : Nat := 0x200000
def sz32M : Nat := 0x2000000
def sz512M : Nat := 0x20000000
def sz1G : Nat := 0x40000000

/-- `__ffs` of an unsigned long. -/
def ffs (n : Nat) : Nat := ((range 64).find? n.testBit).getD 0

/-- `__fls` of an unsigned long. -/
def fls (n : Nat) : Nat := n.log2

/-- `ARM_CONT_PTES`. -/
def contPtes (size : Nat) : Nat :=
  if size = sz4K then 16 else if size = sz16K then 128 else if size = sz64K then 32 else 1

/-- `ARM_CONT_PMDS`. -/
def contPmds (size : Nat) : Nat :=
  if size = sz2M then 16 else if size = sz32M then 32 else if size = sz512M then 32 else 1

namespace Data

def lvlShift (d : Data) (l : Nat) : Nat := (4 - l) * d.bitsPerLevel + 3

def blockSize (d : Data) (l : Nat) : Nat := 2 ^ d.lvlShift l

def granule (d : Data) : Nat := 8 * 2 ^ d.bitsPerLevel

def ptesPerTable (d : Data) : Nat := 2 ^ d.bitsPerLevel

/-- `bits_per_level + ARM_LPAE_PGD_IDX(l)`. -/
def lvlBits (d : Data) (l : Nat) : Nat := if l = d.startLevel then d.pgdBits else d.bitsPerLevel

/-- `ARM_LPAE_LVL_IDX`. -/
def lvlIdx (d : Data) (a l : Nat) : Nat := a / 2 ^ d.lvlShift l % 2 ^ d.lvlBits l

end Data

/-! ### The contiguous hint -/

def findNumCont (d : Data) (lvl : Nat) : Nat :=
  if d.cfg.contigHint then
    if lvl = 2 then contPmds (d.blockSize lvl) else if lvl = 3 then contPtes (d.blockSize lvl) else 1
  else 1

def checkAndSetNumCont (d : Data) (size lvl : Nat) : Nat :=
  if d.cfg.contigHint then
    if size = findNumCont d lvl * d.blockSize lvl then findNumCont d lvl else 1
  else 1

def pteIsContiguousRange (d : Data) (size lvl : Nat) : Bool :=
  d.cfg.contigHint && size == findNumCont d lvl * d.blockSize lvl

/-- `arm_get_cont_sizes`. `__ffs(0)` has no value, and a bitmap left empty is refused. -/
def getContSizes (cfg : Cfg) : Nat :=
  if cfg.contigHint ∧ cfg.pgsizeBitmap ≠ 0 then
    let pgShift := ffs cfg.pgsizeBitmap
    let pgSize := 2 ^ pgShift
    let pmdSize := pgSize * 2 ^ (pgShift - 3)
    contPtes pgSize * pgSize ||| contPmds pmdSize * pmdSize
  else 0

/-! ### Page sizes and levels of a new table -/

/-- The granule `arm_lpae_restrict_pgsizes` settles on. -/
def chosenGranule (cfg : Cfg) : Nat :=
  let pageSize := 2 ^ cfg.pageShift
  if cfg.pgsizeBitmap &&& pageSize ≠ 0 then pageSize
  else if cfg.pgsizeBitmap % pageSize ≠ 0 then 2 ^ fls (cfg.pgsizeBitmap % pageSize)
  else if cfg.pgsizeBitmap / pageSize * pageSize ≠ 0 then
    2 ^ ffs (cfg.pgsizeBitmap / pageSize * pageSize)
  else 0

def pageSizes (granule oas : Nat) : Nat :=
  if granule = sz4K then sz4K ||| sz2M ||| sz1G
  else if granule = sz16K then sz16K ||| sz32M
  else if granule = sz64K then sz64K ||| sz512M ||| (if 48 < oas then 2 ^ 42 else 0)
  else 0

def maxAddrBits (granule : Nat) : Nat := if granule = sz64K then 52 else 48

def restrictPgsizes (cfg : Cfg) : Cfg :=
  let granule := chosenGranule cfg
  let cfg' := { cfg with pgsizeBitmap := cfg.pgsizeBitmap &&& pageSizes granule cfg.oas }
  { cfg' with
    pgsizeBitmap := cfg'.pgsizeBitmap ||| getContSizes cfg'
    ias := min cfg.ias (maxAddrBits granule)
    oas := min cfg.oas (maxAddrBits granule) }

/-- `arm_lpae_alloc_pgtable`; the pgd comes later. -/
def allocPgtable (cfg : Cfg) (fmt : Fmt) : Option Data :=
  let cfg := restrictPgsizes cfg
  if cfg.pgsizeBitmap &&& (sz4K ||| sz16K ||| sz64K) = 0 then none
  else if 52 < cfg.ias then none
  else if 52 < cfg.oas then none
  else
    let pgShift := ffs cfg.pgsizeBitmap
    let bits := pgShift - 3
    let vaBits : Int := cfg.ias - pgShift
    let levels := (vaBits + bits - 1).tdiv bits
    some { cfg, fmt, bitsPerLevel := bits, startLevel := (4 - levels).toNat
           pgdBits := (vaBits - bits * (levels - 1)).toNat, pgd := 0 }

/-! ### What every table satisfies -/

/-- Physical addresses an entry can hold. -/
def Data.paBits (d : Data) : Nat := if d.bitsPerLevel = 13 then 52 else 48

/-- The shape of a table that is not a concatenation: the pgd fits a page and the indices of
all levels together are the input range. -/
structure Geom (d : Data) : Prop where
  bits : d.bitsPerLevel = 9 ∨ d.bitsPerLevel = 11 ∨ d.bitsPerLevel = 13
  start : d.startLevel ≤ 4
  pgd : d.pgdBits ≤ d.bitsPerLevel
  ias : d.startLevel ≤ 3 → d.pgdBits + d.lvlShift d.startLevel = d.cfg.ias
  iasMax : d.cfg.ias ≤ 52
  oas : d.cfg.oas ≤ d.paBits
  page : d.cfg.pgsizeBitmap.testBit (d.lvlShift 3)
  sizes : ∀ k, d.cfg.pgsizeBitmap.testBit k →
    (∃ l, 1 ≤ l ∧ l ≤ 3 ∧ k = d.lvlShift l) ∨
      d.cfg.contigHint ∧ ∃ l, 2 ≤ l ∧ l ≤ 3 ∧ 2 ^ k = findNumCont d l * d.blockSize l

theorem ffs_eq {n g : Nat} (hg : g < 64) (hbit : n.testBit g) (hlow : ∀ j < g, n.testBit j = false) : ffs n = g := by
  have hfind : (range 64).find? n.testBit = some g := by
    rw [find?_range_eq_some]
    exact ⟨hbit, mem_range.mpr hg, fun j hj => by simp [hlow j hj]⟩
  simp [ffs, hfind]

theorem testBit_ffs {n g : Nat} (hg : g ≠ 0) (h : ffs n = g) : n.testBit g := by
  unfold ffs at h
  cases hfind : (range 64).find? n.testBit with
  | none => simp [hfind] at h; omega
  | some j =>
    have hj := find?_some hfind
    rw [hfind, Option.getD_some] at h
    exact h ▸ hj

/-- The granule is one of the page sizes asked for. -/
theorem testBit_chosenGranule {cfg : Cfg} {g : Nat} (hg : g ≠ 0) (h : chosenGranule cfg = 2 ^ g) :
    cfg.pgsizeBitmap.testBit g := by
  unfold chosenGranule at h
  dsimp only at h
  split_ifs at h with h₁ h₂ h₃
  · have hp : cfg.pageShift = g := Nat.pow_right_injective le_rfl h
    rw [hp, and_two_pow] at h₁
    simpa using h₁
  · have hp : fls (cfg.pgsizeBitmap % 2 ^ cfg.pageShift) = g := Nat.pow_right_injective le_rfl h
    have hbit := testBit_log2 h₂
    rw [show (cfg.pgsizeBitmap % 2 ^ cfg.pageShift).log2 = g from hp, testBit_mod_two_pow] at hbit
    simpa using (and_eq_true_iff.mp hbit).2
  · have hp : ffs (cfg.pgsizeBitmap / 2 ^ cfg.pageShift * 2 ^ cfg.pageShift) = g :=
      Nat.pow_right_injective le_rfl h
    have hbit := testBit_ffs hg hp
    rw [testBit_mul_two_pow, testBit_div_two_pow] at hbit
    obtain ⟨hle, hbit⟩ := and_eq_true_iff.mp hbit
    rwa [Nat.sub_add_cancel (by simpa using hle)] at hbit
  · have := Nat.two_pow_pos g
    omega

/-- The three granules, by the bits of a page offset. -/
def GranuleShift (g : Nat) : Prop := g = 12 ∨ g = 14 ∨ g = 16

theorem pageSizes_other {granule oas : Nat} (h : ∀ g, GranuleShift g → granule ≠ 2 ^ g) :
    pageSizes granule oas = 0 := by
  have h₁ := h 12 (.inl rfl)
  have h₂ := h 14 (.inr (.inl rfl))
  have h₃ := h 16 (.inr (.inr rfl))
  norm_num at h₁ h₂ h₃
  simp [pageSizes, sz4K, sz16K, sz64K, h₁, h₂, h₃]

theorem pageSizes_eq {g oas : Nat} (hg : GranuleShift g) : pageSizes (2 ^ g) oas = 2 ^ g ||| 2 ^ (2 * (g - 3) + 3) |||
      (if g = 12 ∨ g = 16 ∧ 48 < oas then 2 ^ (3 * (g - 3) + 3) else 0) := by
  rcases hg with rfl | rfl | rfl <;>
    simp [pageSizes, sz4K, sz16K, sz64K, sz2M, sz32M, sz512M, sz1G]

theorem testBit_pageSizes_self {g oas : Nat} (hg : GranuleShift g) : (pageSizes (2 ^ g) oas).testBit g := by
  simp [pageSizes_eq hg, testBit_or, testBit_two_pow]

/-- A granule's page sizes are the block sizes of its levels. -/
theorem testBit_pageSizes {g oas k : Nat} (hg : GranuleShift g) (h : (pageSizes (2 ^ g) oas).testBit k) :
    ∃ l, 1 ≤ l ∧ l ≤ 3 ∧ k = (4 - l) * (g - 3) + 3 := by
  have hg3 : 3 ≤ g := by rcases hg with rfl | rfl | rfl <;> omega
  simp only [pageSizes_eq hg, testBit_or, testBit_two_pow, or_eq_true, decide_eq_true_eq] at h
  rcases h with (rfl | rfl) | h
  · exact ⟨3, by omega, by omega, by omega⟩
  · exact ⟨2, by omega, by omega, rfl⟩
  · split at h
    · rw [testBit_two_pow] at h
      exact ⟨1, by omega, by omega, (of_decide_eq_true h).symm⟩
    · simp at h

theorem le_of_testBit_pageSizes {g oas k : Nat} (hg : GranuleShift g)
    (h : (pageSizes (2 ^ g) oas).testBit k) : g ≤ k := by
  obtain ⟨l, -, hl, rfl⟩ := testBit_pageSizes hg h
  rcases hg with rfl | rfl | rfl <;> omega

theorem contPtes_eq {g : Nat} (hg : GranuleShift g) : ∃ p, contPtes (2 ^ g) = 2 ^ p := by
  rcases hg with rfl | rfl | rfl
  · exact ⟨4, rfl⟩
  · exact ⟨7, rfl⟩
  · exact ⟨5, rfl⟩

theorem contPmds_eq {g : Nat} (hg : GranuleShift g) : ∃ p, contPmds (2 ^ (2 * (g - 3) + 3)) = 2 ^ p := by
  rcases hg with rfl | rfl | rfl
  · exact ⟨4, rfl⟩
  · exact ⟨5, rfl⟩
  · exact ⟨5, rfl⟩

theorem testBit_getContSizes {cfg : Cfg} {g k : Nat} (hg : GranuleShift g)
    (hf : ffs cfg.pgsizeBitmap = g) (h : (getContSizes cfg).testBit k) :
    cfg.contigHint ∧ g ≤ k ∧ (2 ^ k = contPtes (2 ^ g) * 2 ^ g ∨
      2 ^ k = contPmds (2 ^ (2 * (g - 3) + 3)) * 2 ^ (2 * (g - 3) + 3)) := by
  have hg3 : 3 ≤ g := by rcases hg with rfl | rfl | rfl <;> omega
  unfold getContSizes at h
  split at h
  · rename_i hc
    refine ⟨hc.1, ?_⟩
    obtain ⟨p, hp⟩ := contPtes_eq hg
    obtain ⟨q, hq⟩ := contPmds_eq hg
    have hpmd : 2 ^ g * 2 ^ (g - 3) = 2 ^ (2 * (g - 3) + 3) := by
      rw [← pow_add]
      congr 1
      omega
    simp only [hf, hpmd, hp, hq, ← pow_add, testBit_or, testBit_two_pow, or_eq_true,
      decide_eq_true_eq] at h ⊢
    rcases h with rfl | rfl
    · exact ⟨by omega, .inl rfl⟩
    · exact ⟨by omega, .inr rfl⟩
  · simp at h

section
variable {cfg : Cfg} {g : Nat} (hg : GranuleShift g) (hch : chosenGranule cfg = 2 ^ g)
include hg hch

theorem ffs_restricted : ffs (cfg.pgsizeBitmap &&& pageSizes (2 ^ g) cfg.oas) = g ∧
      (cfg.pgsizeBitmap &&& pageSizes (2 ^ g) cfg.oas).testBit g := by
  have hg0 : g ≠ 0 ∧ g < 64 := by rcases hg with rfl | rfl | rfl <;> omega
  have hbit : (cfg.pgsizeBitmap &&& pageSizes (2 ^ g) cfg.oas).testBit g := by
    rw [testBit_and, testBit_chosenGranule hg0.1 hch, testBit_pageSizes_self hg]
    rfl
  refine ⟨ffs_eq hg0.2 hbit (fun j hj => ?_), hbit⟩
  by_contra hne
  rw [not_eq_false, testBit_and, and_eq_true] at hne
  have := le_of_testBit_pageSizes hg hne.2
  omega

theorem testBit_restrictPgsizes {k : Nat} (h : (restrictPgsizes cfg).pgsizeBitmap.testBit k) :
    g ≤ k ∧ ((∃ l, 1 ≤ l ∧ l ≤ 3 ∧ k = (4 - l) * (g - 3) + 3) ∨ cfg.contigHint ∧ (2 ^ k = contPtes (2 ^ g) * 2 ^ g ∨
        2 ^ k = contPmds (2 ^ (2 * (g - 3) + 3)) * 2 ^ (2 * (g - 3) + 3))) := by
  simp only [restrictPgsizes, hch, testBit_or, testBit_and, or_eq_true, and_eq_true] at h
  rcases h with h | h
  · exact ⟨le_of_testBit_pageSizes hg h.2, .inl (testBit_pageSizes hg h.2)⟩
  · obtain ⟨hc, hle, hk⟩ := testBit_getContSizes hg (ffs_restricted hg hch).1 h
    exact ⟨hle, .inr ⟨hc, hk⟩⟩

theorem ffs_restrictPgsizes :
    ffs (restrictPgsizes cfg).pgsizeBitmap = g ∧ (restrictPgsizes cfg).pgsizeBitmap.testBit g := by
  have hbit : (restrictPgsizes cfg).pgsizeBitmap.testBit g := by
    simp [restrictPgsizes, hch, (ffs_restricted hg hch).2]
  refine ⟨ffs_eq (by rcases hg with rfl | rfl | rfl <;> omega) hbit (fun j hj => ?_), hbit⟩
  by_contra hne
  have := (testBit_restrictPgsizes hg hch (not_eq_false _ ▸ hne)).1
  omega

end

/-- A table that could be allocated has one of the three granules. -/
theorem granule_of_allocPgtable {cfg : Cfg} {fmt : Fmt} {d : Data} (h : allocPgtable cfg fmt = some d) :
    ∃ g, GranuleShift g ∧ chosenGranule cfg = 2 ^ g := by
  by_contra hne
  push Not at hne
  have hzero : pageSizes (chosenGranule cfg) cfg.oas = 0 := pageSizes_other (fun g hg => hne g hg)
  simp [allocPgtable, restrictPgsizes, hzero, getContSizes] at h

/-- The levels cover the address bits above the page, the first one what is left over. -/
theorem levels_spec {g ias : Nat} (hg : GranuleShift g) (hias : ias ≤ maxAddrBits (2 ^ g)) {levels : Int}
    (hl : levels = ((ias : Int) - g + (g - 3 : Nat) - 1).tdiv (g - 3 : Nat)) :
    (4 - levels).toNat ≤ 4 ∧ ((ias : Int) - g - (g - 3 : Nat) * (levels - 1)).toNat ≤ g - 3 ∧
      ((4 - levels).toNat ≤ 3 → ((ias : Int) - g - (g - 3 : Nat) * (levels - 1)).toNat +
        ((4 - (4 - levels).toNat) * (g - 3) + 3) = ias) := by
  by_cases hpos : g < ias
  · rw [Int.tdiv_eq_ediv_of_nonneg (by omega)] at hl
    rcases hg with rfl | rfl | rfl <;> norm_num [maxAddrBits, sz64K] at hias hl ⊢ <;> omega
  · have hzero : levels = 0 := by
      rw [hl]
      rcases hg with rfl | rfl | rfl <;> (norm_num; interval_cases ias <;> decide)
    rcases hg with rfl | rfl | rfl <;> norm_num <;> omega

theorem maxAddrBits_le {g : Nat} (hg : GranuleShift g) : maxAddrBits (2 ^ g) ≤ if g - 3 = 13 then 52 else 48 := by
  rcases hg with rfl | rfl | rfl <;> decide

theorem allocPgtable_geom {cfg : Cfg} {fmt : Fmt} {d : Data} (h : allocPgtable cfg fmt = some d) : Geom d := by
  obtain ⟨g, hg, hch⟩ := granule_of_allocPgtable h
  obtain ⟨hffs, hpage⟩ := ffs_restrictPgsizes hg hch
  have hias : (restrictPgsizes cfg).ias ≤ maxAddrBits (2 ^ g) := by
    simp only [restrictPgsizes, hch]
    exact min_le_right _ _
  have hoas : (restrictPgsizes cfg).oas ≤ maxAddrBits (2 ^ g) := by
    simp only [restrictPgsizes, hch]
    exact min_le_right _ _
  have hg3 : g - 3 + 3 = g := by rcases hg with rfl | rfl | rfl <;> rfl
  obtain ⟨hstart, hpgd, hcover⟩ := levels_spec hg hias rfl
  simp only [allocPgtable, hffs] at h
  split_ifs at h with h₁ h₂ h₃
  cases h
  refine ⟨?_, hstart, hpgd, hcover, not_lt.mp h₂, hoas.trans (maxAddrBits_le hg), ?_, ?_⟩
  · rcases hg with rfl | rfl | rfl
    · exact .inl rfl
    · exact .inr (.inl rfl)
    · exact .inr (.inr rfl)
  · simpa [Data.lvlShift, hg3] using hpage
  · intro k hk
    rcases (testBit_restrictPgsizes hg hch hk).2 with hk | ⟨hc, hk⟩
    · exact .inl hk
    · refine .inr ⟨hc, ?_⟩
      have hc' : (restrictPgsizes cfg).contigHint := hc
      rcases hk with hk | hk
      · exact ⟨3, by omega, le_rfl, by simp [findNumCont, Data.blockSize, Data.lvlShift, hc', hg3, hk]⟩
      · exact ⟨2, le_rfl, by omega, by simp [findNumCont, Data.blockSize, Data.lvlShift, hc', hk]⟩

end Sm8850.Iopt
