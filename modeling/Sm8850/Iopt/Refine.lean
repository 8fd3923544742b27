import Sm8850.Iopt.Runs

/-! The page table as a partial map from addresses to addresses: what the calls say they did is
what the translation shows. -/
namespace Sm8850.Iopt
open TableTree Lts

variable {d : Data} {hg : Geom d} {s s' : State} {x y k l n t : Nat}

/-! ### The abstract map -/

/-- What the callers of the table know: the bytes mapped so far. -/
abbrev AddressMap := Nat → Option U64

/-- A mapping call adds the bytes it reports. -/
def AddressMap.mapped (m : AddressMap) (iova paddr : Nat) : Except Errno U64 → AddressMap
  | .ok bytes => fun y => if iova ≤ y ∧ y < iova + bytes.toNat then some (BitVec.ofNat 64 (paddr + (y - iova))) else m y
  | .error _ => m

/-- An unmapping call removes the bytes it returns. -/
def AddressMap.unmapped (m : AddressMap) (iova : Nat) (bytes : U64) : AddressMap :=
  fun y => if iova ≤ y ∧ y < iova + bytes.toNat then none else m y

/-- One call, on the table and on the map its results describe. -/
inductive RefStep (d : Data) : State × AddressMap → Call → State × AddressMap → Prop
  | map {s : State} {m : AddressMap} {iova paddr pgsize pgcount : Nat} {prot : Prot} :
      Call.Aligned d (.map iova paddr pgsize pgcount prot) →
      RefStep d (s, m) (.map iova paddr pgsize pgcount prot) ((mapPages d s iova paddr pgsize pgcount prot).1,
        m.mapped iova paddr (mapPages d s iova paddr pgsize pgcount prot).2)
  | unmap {s : State} {m : AddressMap} {iova pgsize pgcount : Nat} :
      Call.Aligned d (.unmap iova pgsize pgcount) →
      RefStep d (s, m) (.unmap iova pgsize pgcount) ((unmapPages d s iova pgsize pgcount).1,
        m.unmapped iova (unmapPages d s iova pgsize pgcount).2)

/-- The condition on a call without the contiguous hint. A mapping stays inside the physical
addresses an entry can hold. An unmapping is for a size some level of the table has, and for pages
that are in use where it ends in a last-level table. No count is negative as an int. -/
def PlainOk (hg : Geom d) (p : State × AddressMap) : Call → Prop
  | .map _ paddr pgsize pgcount _ => 0 ≤ toInt32 pgcount ∧ paddr + pgcount * pgsize ≤ 2 ^ d.paBits
  | .unmap iova pgsize pgcount => badPgsize d pgsize pgcount = true ∨
      (∃ l, d.startLevel ≤ l ∧ l ≤ 3 ∧ pgsize = d.blockSize l) ∧ 0 < toInt32 pgcount ∧
        (pgsize = d.blockSize 3 → LastUsed hg p.1 iova pgsize pgcount)

/-! ### One call -/

/-- The table is well formed, its counts are right, and it translates like the map. -/
structure Refines (hg : Geom d) (p : State × AddressMap) : Prop where
  shaped : Shaped hg p.1
  counted : Counted hg p.1.mem
  translates : ∀ y, d.InRange y → translation d p.1.mem y = p.2 y

section
variable (hhint : d.cfg.contigHint = false)
include hhint

theorem matches_plain {size : Nat} : Matches d size l ↔ size = d.blockSize l := by
  rw [Matches, findNumCont_off hhint, one_mul, or_self]

theorem checkAndSetNumCont_off (size l : Nat) : checkAndSetNumCont d size l = 1 := by
  rw [checkAndSetNumCont, hhint]
  rfl

/-- No entry is swept. -/
theorem countSafe_plain (x size pgcount : Nat) : CountSafe hg s (CallSwept hg s x size pgcount) := by
  have hnone : ∀ l ptep n a, ¬ Swept d s x l ptep n a := by
    rintro l ptep n a ⟨hc, -⟩
    rw [hhint] at hc
    cases hc
  intro y j u v _ _ _ hW
  cases hW with
  | blocks _ _ h =>
    obtain ⟨j, -, -, h⟩ := h
    exact absurd h (hnone _ _ _ _)
  | last _ _ h => exact absurd h (hnone _ _ _ _)
  | leaf _ h => exact absurd h (hnone _ _ _ _)

variable {iova pgcount pgsize : Nat} {p : State × AddressMap} {m : AddressMap}

theorem PlainOk.unmapOk (h : PlainOk hg p (.unmap iova pgsize pgcount)) (hbad : badPgsize d pgsize pgcount = false) :
    UnmapOk hg p.1 iova pgsize pgcount := by
  rcases h with h | ⟨⟨l, hs, hl, hsize⟩, hcount, hused⟩
  · rw [hbad] at h
    cases h
  · refine ⟨⟨l, hs, hl, (matches_plain hhint).mpr hsize⟩, fun l _ => ?_,
      fun hm => hused ((matches_plain hhint).mp hm), ?_⟩
    · rwa [checkAndSetNumCont_off hhint, one_mul]
    · exact countSafe_plain hhint iova pgsize pgcount

theorem refines_map {paddr : Nat} {prot : Prot} [Fact (Fits d)] (hR : Refines hg (s, m))
    (hal : Call.Aligned d (.map iova paddr pgsize pgcount prot))
    (hok : PlainOk hg (s, m) (.map iova paddr pgsize pgcount prot)) :
    Refines hg ((mapPages d s iova paddr pgsize pgcount prot).1,
      m.mapped iova paddr (mapPages d s iova paddr pgsize pgcount prot).2) := by
  have hprot := iopteVal_protToPte d prot
  have hout : MapOutcome hg iova paddr pgsize pgcount (protToPte d prot) s
      (mapPages d s iova paddr pgsize pgcount prot) := mapPages_outcome hR.shaped.inv
  have hcount : ∀ l, 0 ≤ toInt32 (findNumCont d l * pgcount) := by
    intro l
    rw [findNumCont_off hhint, one_mul]
    exact hok.1
  refine ⟨⟨hout.inv hprot hR.shaped.inv, hout.leafAligned hprot hR.shaped.inv hal.2 hok.2 hR.shaped.aligned⟩,
    hout.counted hprot hR.shaped.inv hcount hR.counted, fun y hy => ?_⟩
  cases hres : mapPages d s iova paddr pgsize pgcount prot with
  | mk s' ret =>
    rw [hres] at hout
    cases ret with
    | error e => exact (hout.error hR.shaped.inv y).trans (hR.translates y hy)
    | ok bytes =>
      obtain ⟨-, hbytes⟩ := hout.ok hprot hR.shaped.inv hal.1 ⟨hal.2, hcount, hok.2⟩
      rw [hbytes y hy, hR.translates y hy]
      rfl

theorem refines_unmap [Fact (Fits d)] (hR : Refines hg (s, m)) (hal : Call.Aligned d (.unmap iova pgsize pgcount))
    (hok : PlainOk hg (s, m) (.unmap iova pgsize pgcount)) :
    Refines hg ((unmapPages d s iova pgsize pgcount).1, m.unmapped iova (unmapPages d s iova pgsize pgcount).2) := by
  cases hbad : badPgsize d pgsize pgcount with
  | true =>
    have hres : unmapPages d s iova pgsize pgcount = (s, 0) := by rw [unmapPages, if_pos hbad]
    rw [hres]
    refine ⟨hR.shaped, hR.counted, fun y hy => ?_⟩
    rw [hR.translates y hy]
    exact (if_neg (by simp)).symm
  | false =>
    have hok' := hok.unmapOk hhint hbad
    have hend : UnmapEnd hg iova pgsize pgcount s (unmapPages d s iova pgsize pgcount) :=
      unmapPages_end hR.shaped.inv
    refine ⟨hend.shaped hal hR.shaped, hend.counted hal hR.shaped.inv hR.counted hok'.counts, fun y hy => ?_⟩
    rw [(hend.bytes hR.shaped hR.counted hal hok').2 y hy, hR.translates y hy]
    rfl

theorem refStep_refines {p' : State × AddressMap} {c : Call} [Fact (Fits d)] (h : RefStep d p c p')
    (hok : PlainOk hg p c) (hR : Refines hg p) : Refines hg p' := by
  cases h with
  | map hal => exact refines_map hhint hR hal hok
  | unmap hal => exact refines_unmap hhint hR hal hok

end

theorem Fresh.refines (hF : Fresh d s) [Fact (Fits d)] : Refines hg (s, fun _ => none) :=
  ⟨hF.shaped, hF.counted, fun y _ => hF.translation hg y⟩

/-! ### Runs -/

/-- From a new table on, the translation is the map that the results of the calls describe. -/
theorem iovaToPhys_refines {cfg : Cfg} {fmt : Fmt} {s₀ : State} {run : List (Call × (State × AddressMap))}
    (halloc : allocPgtableS1 cfg fmt s₀ = some (d, s)) (hhint : cfg.contigHint = false) (hfit : Fits d)
    (hrun : Path (RefStep d) (s, fun _ => none) run)
    (hok : Steps (PlainOk (allocPgtableS1_geom halloc)) (s, fun _ => none) run) :
    ∀ p ∈ (s, fun _ => none) :: run.map Prod.snd, ∀ y, d.InRange y →
      translation d p.1.mem y = p.2 y ∧ iovaToPhys d p.1 y = (p.2 y).getD 0 := by
  have : Fact (Fits d) := ⟨hfit⟩
  obtain ⟨hg, hF, hc⟩ := allocPgtableS1_spec halloc
  have hstep : ∀ p c p', RefStep d p c p' → PlainOk hg p c → Refines hg p → Refines hg p' :=
    fun _ _ _ hstep hok hR => refStep_refines (hc.trans hhint) hstep hok hR
  have hinv := hrun.invariant_of_steps hstep hok (hF.refines)
  intro p hp y hy
  have htr := (hinv p hp).translates y hy
  exact ⟨htr, by rw [iovaToPhys_eq, htr]⟩

/-! ### A table for 4K pages -/

/-- The table and the map after a call. -/
def refNext (d : Data) (p : State × AddressMap) : Call → State × AddressMap
  | .map iova paddr pgsize pgcount prot => ((mapPages d p.1 iova paddr pgsize pgcount prot).1,
      p.2.mapped iova paddr (mapPages d p.1 iova paddr pgsize pgcount prot).2)
  | .unmap iova pgsize pgcount => ((unmapPages d p.1 iova pgsize pgcount).1,
      p.2.unmapped iova (unmapPages d p.1 iova pgsize pgcount).2)

theorem refStep_next {p : State × AddressMap} {c : Call} (h : c.Aligned d) : RefStep d p c (refNext d p c) := by
  cases c with
  | map iova paddr pgsize pgcount prot => exact .map h
  | unmap iova pgsize pgcount => exact .unmap h

/-- 32 bits of input addresses, no hint. -/
def plainCfg : Cfg := ⟨sz4K ||| sz2M ||| sz1G, 32, 36, false, false, false, false, false, true, 12, false⟩

/-- An empty memory from which one page after the other is allocated. -/
def plainMem : State := ⟨fun _ => 0, [], fun n => some (512 * (n + 1))⟩

theorem plainMem_suffices : (allocPgtableS1 plainCfg .qcomArm64LpaeS1 plainMem).isSome := by decide +kernel

def plainTable : Data × State := (allocPgtableS1 plainCfg .qcomArm64LpaeS1 plainMem).get plainMem_suffices

theorem plainTable_alloc : allocPgtableS1 plainCfg .qcomArm64LpaeS1 plainMem =
    some (plainTable.1, plainTable.2) := (Option.some_get plainMem_suffices).symm

theorem plainTable_inRange {y : Nat} : plainTable.1.InRange y ↔ y < 2 ^ 32 := by
  have hias : plainTable.1.cfg.ias = 32 := by decide +kernel
  have hbase : plainTable.1.inputBase = 0 := by decide +kernel
  rw [Data.InRange, hias, hbase, Nat.div_eq_zero_iff]
  omega

theorem plainTable_req {iova pgsize pgcount : Nat} (hdvd : pgsize ∣ iova) (hiova : iova < 2 ^ 32)
    (hend : iova + pgcount * pgsize ≤ 2 ^ 32) : Req plainTable.1 iova pgsize pgcount :=
  ⟨hdvd, plainTable_inRange.mpr hiova, fun _ _ hlt => plainTable_inRange.mpr (lt_of_lt_of_le hlt hend)⟩

theorem plainTable_fits : Fits plainTable.1 := by
  change plainTable.1.ptesPerTable ≤ pageWords plainTable.1
  decide +kernel

/-- Three pages are mapped at 0. -/
def threePages : Call := .map 0 0x100000 0x1000 3 ⟨true, true, false, false, false, false, false, false⟩

def mappedThree : State × AddressMap := refNext plainTable.1 (plainTable.2, fun _ => none) threePages

theorem threePages_aligned : threePages.Aligned plainTable.1 :=
  ⟨plainTable_req (by decide) (by decide) (by decide), by decide⟩

/-- Of three mapped pages the first two are unmapped. -/
theorem iovaToPhys_refines_pages : let p := refNext plainTable.1 mappedThree (.unmap 0 0x1000 2)
    iovaToPhys plainTable.1 p.1 0x1010 = (p.2 0x1010).getD 0 ∧
      iovaToPhys plainTable.1 p.1 0x2010 = (p.2 0x2010).getD 0 := by
  intro p
  have hused : LastUsed (allocPgtableS1_geom plainTable_alloc) mappedThree.1 0 0x1000 2 := by
    intro k c hk hc j _ hj
    have hstart : plainTable.1.startLevel = 1 := by decide +kernel
    obtain rfl : k = 1 := Nat.add_left_cancel hk
    have htable : tableAt (shape plainTable.1 (allocPgtableS1_geom plainTable_alloc)) mappedThree.1.mem 0 2 =
        some 1536 := by decide +kernel
    have hidx : plainTable.1.lvlIdx 0 3 + (unmapNum plainTable.1 0 3 0x1000 2).toNat = 2 := by decide +kernel
    obtain rfl := Option.some.inj (htable.symm.trans hc)
    have hcells : ∀ i < 2, mappedThree.1.mem (1536 + i) ≠ 0 := by decide +kernel
    exact hcells j (hidx ▸ hj)
  have hpath : Path (RefStep plainTable.1) (plainTable.2, fun _ => none)
      [(threePages, mappedThree), (.unmap 0 0x1000 2, p)] :=
    ⟨refStep_next threePages_aligned, refStep_next (plainTable_req (by decide) (by decide) (by decide)), trivial⟩
  have hok : Steps (PlainOk (allocPgtableS1_geom plainTable_alloc)) (plainTable.2, fun _ => none)
      [(threePages, mappedThree), (.unmap 0 0x1000 2, p)] :=
    ⟨⟨by decide +kernel, by decide +kernel⟩, .inr ⟨⟨3, by decide +kernel⟩, by decide +kernel, fun _ => hused⟩, trivial⟩
  have hall := iovaToPhys_refines plainTable_alloc rfl plainTable_fits hpath hok p (by simp)
  exact ⟨(hall _ (plainTable_inRange.mpr (by decide))).2, (hall _ (plainTable_inRange.mpr (by decide))).2⟩

/-- An unmapping of a page that is not mapped, and the count of its table is one too low: with two
of the three mapped pages the third goes as well. -/
theorem unmapPages_frees_live_table : ∃ run, Path (RefStep plainTable.1) (plainTable.2, fun _ => none) run ∧
    ∃ p ∈ run.map Prod.snd, plainTable.1.InRange 0x2010 ∧ p.2 0x2010 = some 0x102010#64 ∧
      iovaToPhys plainTable.1 p.1 0x2010 = 0#64 := by
  let p₂ := refNext plainTable.1 mappedThree (.unmap 0x3000 0x1000 1)
  let p₃ := refNext plainTable.1 p₂ (.unmap 0 0x1000 2)
  refine ⟨[(threePages, mappedThree), (.unmap 0x3000 0x1000 1, p₂), (.unmap 0 0x1000 2, p₃)],
    ⟨refStep_next threePages_aligned, refStep_next (plainTable_req (by decide) (by decide) (by decide)),
      refStep_next (plainTable_req (by decide) (by decide) (by decide)), trivial⟩, p₃, by simp,
    plainTable_inRange.mpr (by decide), ?_, ?_⟩
  · decide +kernel
  · decide +kernel
end Sm8850.Iopt
