import Sm8850.Iopt.Config
import Sm8850.Lib.Words

/-! Page table entries of drivers/iommu/qcom-io-pgtable-arm.c: address, type and attributes of a
leaf, and the number of entries in use that a table entry carries in the bits the hardware
ignores. -/
namespace Sm8850.Iopt
open BitVec

abbrev U64 := BitVec 64

/-! ### Fields -/

/-- `ARM_LPAE_PTE_ADDR_MASK`, GENMASK_ULL(47, 12). -/
def pteAddrMask : U64 := 0x0000fffffffff000
def pteValid : U64 := 1
def pteTypeBlock : U64 := 1
def pteTypeTable : U64 := 3
def pteTypePage : U64 := 3
def pteCont : U64 := 1 <<< 52
def pteSwSync : U64 := 1 <<< 55
def pteNstable : U64 := 1 <<< 63
/-- `ARM_LPAE_PTE_ATTR_MASK`: [11:2] and [54:53], without the contiguous bit. -/
def pteAttrMask : U64 := 0x0060000000000ffc
/-- `IOPTE_RESERVED_MASK`: [11:2] and [54:52]. -/
def iopteReservedMask : U64 := 0x0070000000000ffc

def iopteType (pte : U64) : U64 := pte &&& 3

def iopteProt (pte : U64) : U64 := pte &&& pteAttrMask

def iopteVal (pte : U64) : U64 := pte &&& ~~~iopteReservedMask

/-- The 13 bits of the count: [54:52] above [11:2]. -/
def cntField (pte : U64) : U64 := (((pte >>> 52) &&& 7) <<< 10) ||| ((pte >>> 2) &&& 0x3ff)

def iopteTblcnt (pte : U64) : Int := (cntField pte).toNat

def iopteTblcntSet (pte : U64) (val : Int) : U64 :=
  iopteVal pte ||| ((((BitVec.ofInt 64 val) >>> 10) &&& 7) <<< 52) |||
    (((BitVec.ofInt 64 val) &&& 0x3ff) <<< 2)

def iopteTblcntSub (pte : U64) (cnt : Int) : U64 := iopteTblcntSet pte (iopteTblcnt pte - cnt)

def iopteTblcntAdd (pte : U64) (cnt : Int) : U64 := iopteTblcntSet pte (iopteTblcnt pte + cnt)

def iopteLeaf (d : Data) (pte : U64) (lvl : Nat) : Bool :=
  if lvl = 3 ∧ d.fmt ≠ .armMaliLpae then iopteType pte == pteTypePage
  else iopteType pte == pteTypeBlock

def paddrToIopte (paddr : Nat) : U64 :=
  (BitVec.ofNat 64 paddr ||| (BitVec.ofNat 64 paddr >>> 36)) &&& pteAddrMask

def iopteToPaddr (d : Data) (pte : U64) : U64 :=
  let paddr := iopteVal pte &&& pteAddrMask
  if d.granule < sz64K then paddr else (paddr ||| (paddr <<< 36)) &&& (pteAddrMask <<< 4)

/-- `iopte_deref`: the index of the table's first word. -/
def iopteDeref (d : Data) (pte : U64) : Nat := (iopteToPaddr d pte).toNat / 8

/-! ### Attributes -/

/-- The flags of `iommu_prot`. -/
structure Prot where
  read : Bool
  write : Bool
  cache : Bool
  noexec : Bool
  mmio : Bool
  priv : Bool
  sysCache : Bool
  sysCacheNwa : Bool

def pteNg : U64 := 1 <<< 11
def pteAf : U64 := 1 <<< 10
def pteShOs : U64 := 2 <<< 8
def pteShIs : U64 := 3 <<< 8
def pteApUnpriv : U64 := 1 <<< 6
def pteApRdonly : U64 := 2 <<< 6
def pteNs : U64 := 1 <<< 5
def pteXn : U64 := 3 <<< 53
def pteHapRead : U64 := 1 <<< 6
def pteHapWrite : U64 := 2 <<< 6
def pteMemattrOiwb : U64 := 0xf <<< 2
def pteMemattrNc : U64 := 0x5 <<< 2
def pteMemattrDev : U64 := 0x1 <<< 2
def mairAttrIdxCache : U64 := 1
def mairAttrIdxDev : U64 := 2
def mairAttrIdxIncOcache : U64 := 3
def mairAttrIdxIncOcacheNwa : U64 := 4
def mairAttrIdxIcacheOcacheNwa : U64 := 5

/-- The bits `flag`, if the condition holds. -/
def orIf (c : Bool) (flag : U64) : U64 := if c then flag else 0

def permBits (d : Data) (prot : Prot) : U64 :=
  if d.fmt = .qcomArm64LpaeS1 ∨ d.fmt = .arm32LpaeS1 then
    pteNg ||| orIf (!prot.write && prot.read) pteApRdonly ||| orIf (!prot.priv) pteApUnpriv
  else orIf prot.read pteHapRead ||| orIf prot.write pteHapWrite

def memattrBits (d : Data) (prot : Prot) : U64 :=
  if d.fmt = .arm64LpaeS2 ∨ d.fmt = .arm32LpaeS2 then
    if prot.mmio then pteMemattrDev else if prot.cache then pteMemattrOiwb else pteMemattrNc
  else
    if prot.mmio then mairAttrIdxDev <<< 2
    else if prot.cache && prot.sysCacheNwa then mairAttrIdxIcacheOcacheNwa <<< 2
    else if prot.cache then mairAttrIdxCache <<< 2
    else if prot.sysCache then mairAttrIdxIncOcache <<< 2
    else if prot.sysCacheNwa then mairAttrIdxIncOcacheNwa <<< 2
    else 0

def protToPte (d : Data) (prot : Prot) : U64 :=
  permBits d prot ||| memattrBits d prot ||| (if prot.cache then pteShIs else pteShOs) |||
    orIf prot.noexec pteXn ||| orIf d.cfg.quirkArmNs pteNs ||| orIf (d.fmt != .armMaliLpae) pteAf

/-! ### What the fields determine -/

theorem iopteVal_or (x y : U64) : iopteVal (x ||| y) = iopteVal x ||| iopteVal y := by
  unfold iopteVal
  ext i hi
  simp [Bool.and_or_distrib_right]

theorem iopteVal_idem (e : U64) : iopteVal (iopteVal e) = iopteVal e := by
  unfold iopteVal
  rw [BitVec.and_assoc, BitVec.and_self]

theorem iopteType_val (e : U64) : iopteType (iopteVal e) = iopteType e := by
  unfold iopteType iopteVal
  rw [BitVec.and_assoc]
  rfl

variable {e e' : U64} {i k p : Nat}

section
variable (h : iopteVal e = iopteVal e')
include h

theorem iopteType_congr : iopteType e = iopteType e' := by
  rw [← iopteType_val e, h, iopteType_val]

theorem iopteLeaf_congr {d : Data} {l : Nat} : iopteLeaf d e l = iopteLeaf d e' l := by
  simp [iopteLeaf, iopteType_congr h]

theorem iopteToPaddr_congr {d : Data} : iopteToPaddr d e = iopteToPaddr d e' := by
  simp [iopteToPaddr, h]

theorem iopteDeref_congr {d : Data} : iopteDeref d e = iopteDeref d e' := by
  simp [iopteDeref, iopteToPaddr_congr h]

end

theorem iopteVal_clearCont (e : U64) : iopteVal (e &&& ~~~pteCont) = iopteVal e := by
  unfold iopteVal
  rw [BitVec.and_assoc]
  rfl

theorem iopteVal_tblcntSet (e : U64) (val : Int) : iopteVal (iopteTblcntSet e val) = iopteVal e := by
  generalize hv : BitVec.ofInt 64 val = v
  apply eq_of_getLsbD_eq
  intro i hi
  interval_cases i <;> simp [iopteTblcntSet, iopteVal, iopteReservedMask, hv]

theorem cntField_tblcntSet (e : U64) (val : Int) :
    cntField (iopteTblcntSet e val) = BitVec.ofInt 64 val &&& 0x1fff := by
  generalize hv : BitVec.ofInt 64 val = v
  apply eq_of_getLsbD_eq
  intro i hi
  interval_cases i <;> simp [cntField, iopteTblcntSet, iopteVal, iopteReservedMask, hv]

/-- The count is kept modulo 8192. -/
theorem iopteTblcnt_set (e : U64) (val : Int) : iopteTblcnt (iopteTblcntSet e val) = val % 8192 := by
  unfold iopteTblcnt
  rw [cntField_tblcntSet, toNat_and, toNat_ofInt,
    show (0x1fff : U64).toNat = 2 ^ 13 - 1 from rfl, Nat.and_two_pow_sub_one_eq_mod]
  omega

theorem iopteTblcnt_sub (e : U64) (n : Int) :
    iopteTblcnt (iopteTblcntSub e n) = (iopteTblcnt e - n) % 8192 := iopteTblcnt_set _ _

theorem iopteTblcnt_add (e : U64) (n : Int) :
    iopteTblcnt (iopteTblcntAdd e n) = (iopteTblcnt e + n) % 8192 := iopteTblcnt_set _ _

theorem iopteVal_orIf (c : Bool) {flag : U64} (h : iopteVal flag = 0) : iopteVal (orIf c flag) = 0 := by
  cases c
  · exact (by decide : iopteVal 0 = 0)
  · exact h

theorem iopteVal_permBits (d : Data) (prot : Prot) : iopteVal (permBits d prot) = 0 := by
  unfold permBits
  split
  · rw [iopteVal_or, iopteVal_or, iopteVal_orIf _ (by decide), iopteVal_orIf _ (by decide)]
    decide
  · rw [iopteVal_or, iopteVal_orIf _ (by decide), iopteVal_orIf _ (by decide)]
    decide

theorem iopteVal_memattrBits (d : Data) (prot : Prot) : iopteVal (memattrBits d prot) = 0 := by
  unfold memattrBits
  split_ifs <;> decide

/-- Attributes leave address and type alone. -/
theorem iopteVal_protToPte (d : Data) (prot : Prot) : iopteVal (protToPte d prot) = 0 := by
  have hsh : iopteVal (if prot.cache then pteShIs else pteShOs) = 0 := by split <;> decide
  unfold protToPte
  simp only [iopteVal_or, iopteVal_permBits, iopteVal_memattrBits, hsh]
  rw [iopteVal_orIf _ (by decide), iopteVal_orIf _ (by decide), iopteVal_orIf _ (by decide)]
  decide

theorem iopteVal_iopteProt (e : U64) : iopteVal (iopteProt e) = 0 := by
  unfold iopteVal iopteProt
  rw [BitVec.and_assoc, show pteAttrMask &&& ~~~iopteReservedMask = 0#64 by decide, and_zero]
  rfl

theorem iopteVal_or_cont {prot : U64} (h : iopteVal prot = 0) : iopteVal (prot ||| pteCont) = 0 := by
  rw [iopteVal_or, h]
  decide

/-! ### Addresses -/

theorem getElem_of_dvd (h : 2 ^ k ∣ p) (h64 : i < 64) (hi : i < k) : (BitVec.ofNat 64 p)[i] = false := by
  obtain ⟨q, rfl⟩ := h
  rw [← getLsbD_eq_getElem, getLsbD_ofNat, Nat.testBit_two_pow_mul, decide_eq_false (not_le.mpr hi)]
  simp

theorem getElem_of_lt (h : p < 2 ^ k) (h64 : i < 64) (hi : k ≤ i) : (BitVec.ofNat 64 p)[i] = false := by
  have : p.testBit i = false :=
    Nat.testBit_lt_two_pow (lt_of_lt_of_le h (Nat.pow_le_pow_right (by omega) hi))
  rw [← getLsbD_eq_getElem, getLsbD_ofNat, this, Bool.and_false]

/-- Below 2^48 the address stands in the entry as it is. -/
theorem paddrToIopte_low (hp : p < 2 ^ 48) (hal : 2 ^ 12 ∣ p) : paddrToIopte p = BitVec.ofNat 64 p := by
  have hlow : ∀ (i : Nat) (h : i < 64), i < 12 → (BitVec.ofNat 64 p)[i] = false :=
    fun _ => getElem_of_dvd hal
  have hhigh : ∀ (i : Nat) (h : i < 64), 48 ≤ i → (BitVec.ofNat 64 p)[i] = false :=
    fun _ => getElem_of_lt hp
  unfold paddrToIopte
  generalize BitVec.ofNat 64 p = x at hlow hhigh ⊢
  apply eq_of_getLsbD_eq
  intro i hi
  interval_cases i <;> simp [pteAddrMask, hlow, hhigh]

/-- Bits 51 to 48 of an address come back from bits 15 to 12 of a 64K entry. -/
theorem unpack_paddrToIopte (hp : p < 2 ^ 52) (hal : 2 ^ 16 ∣ p) :
    (paddrToIopte p ||| (paddrToIopte p <<< 36)) &&& (pteAddrMask <<< 4) = BitVec.ofNat 64 p := by
  have hlow : ∀ (i : Nat) (h : i < 64), i < 16 → (BitVec.ofNat 64 p)[i] = false :=
    fun _ => getElem_of_dvd hal
  have hhigh : ∀ (i : Nat) (h : i < 64), 52 ≤ i → (BitVec.ofNat 64 p)[i] = false :=
    fun _ => getElem_of_lt hp
  unfold paddrToIopte
  generalize BitVec.ofNat 64 p = x at hlow hhigh ⊢
  apply eq_of_getLsbD_eq
  intro i hi
  interval_cases i <;> simp [pteAddrMask, hlow, hhigh]

/-- The address of an entry that was made from an address in range. -/
theorem iopteToPaddr_eq {d : Data} (hg : Geom d) (he : iopteVal e &&& pteAddrMask = paddrToIopte p)
    (hp : p < 2 ^ d.paBits) (hal : d.granule ∣ p) : iopteToPaddr d e = BitVec.ofNat 64 p := by
  have hgr : ∀ b, d.bitsPerLevel = b → d.granule = 2 ^ (b + 3) := by
    rintro b rfl
    simp only [Data.granule, pow_add]
    omega
  unfold iopteToPaddr
  simp only [he]
  rcases hg.bits with hb | hb | hb
  · rw [hgr 9 hb] at hal ⊢
    rw [if_pos (by decide), paddrToIopte_low (by simpa [Data.paBits, hb] using hp) hal]
  · rw [hgr 11 hb] at hal ⊢
    rw [if_pos (by decide), paddrToIopte_low (by simpa [Data.paBits, hb] using hp)
      (dvd_trans (by decide) hal)]
  · rw [hgr 13 hb] at hal ⊢
    rw [if_neg (by decide), unpack_paddrToIopte (by simpa [Data.paBits, hb] using hp) hal]

/-! ### Leaf entries -/

def leafType (d : Data) (lvl : Nat) : U64 :=
  if d.fmt ≠ .armMaliLpae ∧ lvl = 3 then pteTypePage else pteTypeBlock

/-- The entry `__arm_lpae_init_pte` writes. -/
def leafPte (d : Data) (prot : U64) (lvl paddr : Nat) : U64 :=
  (prot ||| leafType d lvl) ||| paddrToIopte paddr

theorem leafType_cases (d : Data) (lvl : Nat) : leafType d lvl = 1 ∨ leafType d lvl = 3 := by
  unfold leafType
  split
  · exact .inr rfl
  · exact .inl rfl

section
variable {d : Data} {prot : U64} {lvl paddr : Nat} (hprot : iopteVal prot = 0)
include hprot

theorem iopteVal_leafPte : iopteVal (leafPte d prot lvl paddr) = leafType d lvl ||| paddrToIopte paddr := by
  have hty : iopteVal (leafType d lvl) = leafType d lvl := by
    rcases leafType_cases d lvl with h | h <;> rw [h] <;> decide
  have haddr : iopteVal (paddrToIopte paddr) = paddrToIopte paddr := by
    unfold iopteVal paddrToIopte
    rw [BitVec.and_assoc]
    rfl
  rw [leafPte, iopteVal_or, iopteVal_or, hprot, haddr, hty]
  simp

theorem iopteType_leafPte : iopteType (leafPte d prot lvl paddr) = leafType d lvl := by
  have haddr : paddrToIopte paddr &&& 3#64 = 0#64 := by
    unfold paddrToIopte
    rw [BitVec.and_assoc, show pteAddrMask &&& 3#64 = 0#64 by decide, and_zero]
  rw [← iopteType_val, iopteVal_leafPte hprot]
  change (_ ||| _) &&& 3#64 = _
  rw [and_or_distrib_right, haddr, or_zero]
  rcases leafType_cases d lvl with h | h <;> rw [h] <;> decide

theorem leafPte_ne_zero : leafPte d prot lvl paddr ≠ 0 := by
  intro h
  have hty : iopteType (leafPte d prot lvl paddr) = leafType d lvl := iopteType_leafPte hprot
  rw [h] at hty
  rcases leafType_cases d lvl with h' | h' <;> rw [h'] at hty <;> exact absurd hty (by decide)

theorem iopteLeaf_leafPte : iopteLeaf d (leafPte d prot lvl paddr) lvl := by
  simp only [iopteLeaf, iopteType_leafPte hprot, leafType]
  by_cases h₁ : lvl = 3 <;> by_cases h₂ : d.fmt = .armMaliLpae <;> simp [h₁, h₂]

theorem iopteToPaddr_leafPte (hg : Geom d) (hp : paddr < 2 ^ d.paBits) (hal : d.granule ∣ paddr) :
    iopteToPaddr d (leafPte d prot lvl paddr) = BitVec.ofNat 64 paddr := by
  refine iopteToPaddr_eq hg ?_ hp hal
  rw [iopteVal_leafPte hprot, and_or_distrib_right]
  have haddr : paddrToIopte paddr &&& pteAddrMask = paddrToIopte paddr := by
    unfold paddrToIopte
    rw [BitVec.and_assoc, BitVec.and_self]
  have hty : leafType d lvl &&& pteAddrMask = 0#64 := by
    rcases leafType_cases d lvl with h | h <;> rw [h] <;> decide
  rw [haddr, hty, zero_or]

end

end Sm8850.Iopt
