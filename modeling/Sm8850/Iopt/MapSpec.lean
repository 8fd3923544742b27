import Sm8850.Iopt.Map

/-! Mapping as a change of the translation: the bytes a successful call adds, and that a failed
one adds none. -/
namespace Sm8850.Iopt
open TableTree Data

variable {d : Data} {hg : Geom d} {s s' : State} {x y k l n t : Nat}

/-! ### Blocks and addresses -/

theorem granule_dvd_blockSize (d : Data) (hl : l ≤ 3) : d.granule ∣ d.blockSize l := by
  have hgr : d.granule = 2 ^ (d.bitsPerLevel + 3) := by
    rw [granule, pow_add]
    omega
  rw [hgr]
  refine pow_dvd_pow 2 ?_
  have : 1 * d.bitsPerLevel ≤ (4 - l) * d.bitsPerLevel := Nat.mul_le_mul_right _ (by omega)
  unfold lvlShift
  omega

/-- The bytes of a block at an aligned address in range. -/
theorem leafPhys_leafPte (hg : Geom d) {prot : U64} {p : Nat} (hprot : iopteVal prot = 0) (hl : l ≤ 3)
    (hp : p < 2 ^ d.paBits) (hal : d.blockSize l ∣ p) (y : Nat) :
    leafPhys d l (leafPte d prot l p) y = BitVec.ofNat 64 (p + y % d.blockSize l) := by
  rw [leafPhys, iopteToPaddr_leafPte hprot hg hp ((granule_dvd_blockSize d hl).trans hal)]
  obtain ⟨q, rfl⟩ := hal
  have hlt : y % d.blockSize l < 2 ^ d.lvlShift l := Nat.mod_lt _ (Nat.two_pow_pos _)
  rw [show d.blockSize l * q + y % d.blockSize l = 2 ^ d.lvlShift l * q ||| y % d.blockSize l from
    Nat.two_pow_add_eq_or_of_lt hlt q]
  exact (BitVec.ofNat_or).symm

/-- A request that stays in the input range stays in its table at the first level. -/
theorem idx_add_le (hg : Geom d) (hs : d.startLevel ≤ l) (hl : l ≤ 3) (hx : d.InRange x)
    (hn : d.lvlIdx x l + n ≤ d.ptesPerTable) (hal : d.blockSize l ∣ x)
    (hlast : n ≠ 0 → d.InRange (x + n * d.blockSize l - 1)) : d.lvlIdx x l + n ≤ 2 ^ d.lvlBits l := by
  by_cases h : l = d.startLevel
  · subst h
    rcases eq_zero_or_pos n with rfl | hpos
    · exact le_of_lt (Nat.mod_lt _ (Nat.two_pow_pos _))
    · have hB : 0 < d.blockSize d.startLevel := Nat.two_pow_pos _
      have hlast' := hlast (by omega)
      have hnr : d.blockNr d.startLevel (x + n * d.blockSize d.startLevel - 1) =
          d.blockNr d.startLevel x + (n - 1) := by
        obtain ⟨q, rfl⟩ := hal
        unfold blockNr
        have hnB : n * d.blockSize d.startLevel = (n - 1) * d.blockSize d.startLevel + d.blockSize d.startLevel := by
          rw [← Nat.succ_mul]
          congr 1
          omega
        generalize d.blockSize d.startLevel = B at hB hnB ⊢
        rw [Nat.mul_div_cancel_left q hB, hnB,
          show B * q + ((n - 1) * B + B) - 1 = (B - 1) + B * (q + (n - 1)) by
            rw [mul_add, mul_comm (n - 1)]
            omega,
          Nat.add_mul_div_left _ _ hB, Nat.div_eq_of_lt (by omega), zero_add]
      have htab : d.tableNr d.startLevel (x + n * d.blockSize d.startLevel - 1) =
          d.tableNr d.startLevel x := by
        rw [tableNr_start hg hl, tableNr_start hg hl, hlast', hx]
      rw [tableNr, hnr, tableNr] at htab
      rw [lvlIdx_eq]
      have hw : 0 < 2 ^ d.lvlBits d.startLevel := Nat.two_pow_pos _
      generalize d.blockNr d.startLevel x = a at htab ⊢
      generalize 2 ^ d.lvlBits d.startLevel = w at hw htab ⊢
      have h₁ := Nat.div_add_mod a w
      have h₂ := Nat.div_add_mod (a + (n - 1)) w
      have h₃ := Nat.mod_lt (a + (n - 1)) hw
      rw [htab] at h₂
      omega
  · simpa [lvlBits, h, ptesPerTable] using hn

/-- The distance of two blocks of one table. -/
theorem lvlIdx_sub (h : d.tableNr l x = d.tableNr l y) :
    d.lvlIdx y l - d.lvlIdx x l = d.blockNr l y - d.blockNr l x := by
  rw [lvlIdx_eq, lvlIdx_eq]
  unfold tableNr at h
  have h₁ := Nat.div_add_mod (d.blockNr l x) (2 ^ d.lvlBits l)
  have h₂ := Nat.div_add_mod (d.blockNr l y) (2 ^ d.lvlBits l)
  rw [h] at h₁
  omega

/-- The byte an address is mapped to, counted from its block or from the start of the request. -/
theorem block_offset {paddr : Nat} (hal : d.blockSize l ∣ x) (hxy : x ≤ y) :
    paddr + (d.blockNr l y - d.blockNr l x) * d.blockSize l + y % d.blockSize l = paddr + (y - x) := by
  obtain ⟨q, rfl⟩ := hal
  have hB : 0 < d.blockSize l := Nat.two_pow_pos _
  unfold blockNr
  generalize d.blockSize l = B at hB hxy ⊢
  have hq : q ≤ y / B := (Nat.le_div_iff_mul_le hB).mpr (by rwa [mul_comm])
  have hy := Nat.div_add_mod y B
  rw [Nat.mul_div_cancel_left q hB, Nat.sub_mul, mul_comm (y / B), mul_comm q]
  have := Nat.mul_le_mul_left B hq
  omega

/-- The entries from an aligned address on, as bytes. -/
theorem hits_bytes (hg : Geom d) (hk : d.startLevel + k ≤ 3) (hx : d.InRange x) (hy : d.InRange y)
    (hal : d.blockSize (d.startLevel + k) ∣ x) (hn : d.idx x k + n ≤ d.ptesPerTable)
    (hlast : n ≠ 0 → d.InRange (x + n * d.blockSize (d.startLevel + k) - 1)) :
    Hits (shape d hg) x k (fun i => d.idx x k ≤ i ∧ i < d.idx x k + n) y ↔
      x ≤ y ∧ y < x + n * d.blockSize (d.startLevel + k) :=
  (hits_iff hg hk (hx.trans hy.symm) (idx_add_le hg (Nat.le_add_right _ _) hk hx hn hal hlast)).trans
    (blockNr_between hal)

section
variable {paddr : Nat} {prot : U64} {num : Int} {prev : Option Nat} (hI : Inv hg s) [Fact (Fits d)]
  (hk : k < (shape d hg).depth) (ht : TableAt hg s.mem x k t) (hp : PrevOf hg s x k prev)
  (hprot : iopteVal prot = 0)
  (hn : d.idx x k + num.toNat ≤ d.ptesPerTable)
  (h : initPte d s paddr prot (d.startLevel + k) num (t + d.idx x k) prev = some s')
include hI hk ht hp hprot hn h

section
variable (hx : d.InRange x) (hal : d.blockSize (d.startLevel + k) ∣ x)
  (hlast : num.toNat ≠ 0 → d.InRange (x + num.toNat * d.blockSize (d.startLevel + k) - 1))
include hx hal hlast

/-- Outside of the bytes of the leaves nothing changes. -/
theorem initPte_outside (hy : d.InRange y) (hout : ¬ (x ≤ y ∧ y < x + num.toNat * d.blockSize (d.startLevel + k))) :
    translation d s'.mem y = translation d s.mem y := by
  have hlvl := level_le hk
  obtain ⟨-, hE⟩ := Inv.initPte hI hk ht hp hprot hn h
  exact translation_congr hg (hE.miss fun hhit => hout ((hits_bytes hg hlvl hx hy hal hn hlast).mp hhit)).2

/-- The leaves map exactly their bytes. -/
theorem initPte_bytes (hpal : d.blockSize (d.startLevel + k) ∣ paddr)
    (hpa : paddr + num.toNat * d.blockSize (d.startLevel + k) ≤ 2 ^ d.paBits) (hy : d.InRange y) :
    translation d s'.mem y = if x ≤ y ∧ y < x + num.toNat * d.blockSize (d.startLevel + k) then
        some (BitVec.ofNat 64 (paddr + (y - x))) else translation d s.mem y := by
  have hlvl := level_le hk
  by_cases hin : x ≤ y ∧ y < x + num.toNat * d.blockSize (d.startLevel + k)
  · have hhit := (hits_bytes hg hlvl hx hy hal hn hlast).mpr hin
    have htab := (samePath_iff hg hlvl (hx.trans hy.symm)).mp hhit.1
    rw [if_pos hin, initPte_translation hI hk ht hp hprot hn h hhit, lvlIdx_sub htab]
    obtain ⟨hge, hlt⟩ := (blockNr_between (n := num.toNat) (y := y) hal).mpr hin
    have hB : 0 < d.blockSize (d.startLevel + k) := Nat.two_pow_pos _
    have hmul : (d.blockNr (d.startLevel + k) y - d.blockNr (d.startLevel + k) x) * d.blockSize (d.startLevel + k) <
        num.toNat * d.blockSize (d.startLevel + k) := mul_lt_mul_of_pos_right (by omega) hB
    rw [leafPhys_leafPte hg hprot hlvl (by omega) (Nat.dvd_add hpal (dvd_mul_left _ _)), block_offset hal hin.1]
  · rw [if_neg hin]
    exact initPte_outside hI hk ht hp hprot hn h hx hal hlast hy hin

end

end

/-! ### Requests -/

variable {pgcount size iova pgsize B m : Nat} {prot' : U64}

theorem LeafReq.size_eq {prot : U64} (h : LeafReq d size pgcount prot l n prot') :
    ∃ m, size = m * d.blockSize l ∧ n = m * pgcount ∧ (iopteVal prot = 0 → iopteVal prot' = 0) := by
  cases h with
  | block h => exact ⟨1, by omega, by omega, id⟩
  | group h _ =>
    simp only [pteIsContiguousRange, Bool.and_eq_true, beq_iff_eq] at h
    exact ⟨findNumCont d l, h.2, rfl, iopteVal_or_cont⟩

theorem LeafReq.count_nonneg {prot : U64} (h : LeafReq d size pgcount prot l n prot')
    (hc : ∀ l, 0 ≤ toInt32 (findNumCont d l * pgcount)) : 0 ≤ toInt32 n := by
  cases h with
  | block h =>
    have h0 : findNumCont d 0 = 1 := by
      unfold findNumCont
      split <;> rfl
    have := hc 0
    rwa [h0, one_mul] at this
  | group h _ => exact hc l

/-- The leaf case writes the leaves or finds one of them in use. -/
theorem mapLeaf_cases {paddr tbl : Nat} {prot : U64} {prev : Option Nat} :
    mapLeaf d x paddr s size pgcount prot l tbl prev = (s, .error .eexist) ∨
      ∃ s', initPte d s paddr prot l (min (toInt32 pgcount) (d.ptesPerTable - d.lvlIdx x l))
          (tbl + d.lvlIdx x l) prev = some s' ∧ mapLeaf d x paddr s size pgcount prot l tbl prev =
          (s', .ok (BitVec.ofInt 64 (size * min (toInt32 pgcount) (d.ptesPerTable - d.lvlIdx x l)))) := by
  unfold mapLeaf
  dsimp only
  cases h : initPte d s paddr prot l (min (toInt32 pgcount) (d.ptesPerTable - d.lvlIdx x l))
      (tbl + d.lvlIdx x l) prev with
  | none => exact .inl rfl
  | some s' => exact .inr ⟨s', rfl, rfl⟩

theorem toInt32_le (m : Nat) : (toInt32 m).toNat ≤ m := by
  unfold toInt32
  rw [BitVec.toInt_eq_toNat_cond, BitVec.toNat_ofNat]
  split <;> omega

/-! ### The input range -/

theorem InRange.lt (hg : Geom d) (h : d.InRange x) : x < 2 ^ 64 := by
  have hias := hg.iasMax
  have hbase : d.inputBase < 2 ^ (64 - d.cfg.ias) := by
    unfold inputBase
    have := Nat.two_pow_pos (64 - d.cfg.ias)
    split <;> omega
  rw [← show x / 2 ^ d.cfg.ias = d.inputBase from h, Nat.div_lt_iff_lt_mul (Nat.two_pow_pos _),
    ← pow_add, Nat.sub_add_cancel (by omega)] at hbase
  exact hbase

/-- An aligned request for pages of one size inside the input range. -/
structure Req (d : Data) (iova pgsize pgcount : Nat) : Prop where
  aligned : pgsize ∣ iova
  first : d.InRange iova
  inside : ∀ y, iova ≤ y → y < iova + pgcount * pgsize → d.InRange y

theorem Req.size_le (h : Req d iova pgsize pgcount) : pgcount * pgsize ≤ 2 ^ d.cfg.ias := by
  rcases eq_zero_or_pos (pgcount * pgsize) with hz | hpos
  · exact hz ▸ Nat.zero_le _
  · have hlast := h.inside (iova + pgcount * pgsize - 1) (by omega) (by omega)
    have h₁ := Nat.div_add_mod iova (2 ^ d.cfg.ias)
    have h₂ := Nat.div_add_mod (iova + pgcount * pgsize - 1) (2 ^ d.cfg.ias)
    rw [show iova / 2 ^ d.cfg.ias = d.inputBase from h.first] at h₁
    rw [show (iova + pgcount * pgsize - 1) / 2 ^ d.cfg.ias = d.inputBase from hlast] at h₂
    omega

/-- The part of a request that is served at a level. -/
theorem Req.part_le (hm : pgsize = m * B) (hn : n ≤ m * pgcount) : n * B ≤ pgcount * pgsize := by
  calc n * B ≤ m * pgcount * B := Nat.mul_le_mul_right B hn
    _ = pgcount * pgsize := by rw [hm, mul_comm m, mul_assoc]

theorem Req.part (h : Req d iova pgsize pgcount) (hm : pgsize = m * B) (hn : n ≤ m * pgcount) (hn0 : n * B ≠ 0) :
    d.InRange (iova + n * B - 1) := by
  have := Req.part_le hm hn
  exact h.inside _ (by omega) (by omega)

/-- What the truncation of counts and addresses leaves of a mapping request. -/
structure MapOk (d : Data) (paddr pgsize pgcount : Nat) : Prop where
  aligned : pgsize ∣ paddr
  count : ∀ l, 0 ≤ toInt32 (findNumCont d l * pgcount)
  phys : paddr + pgcount * pgsize ≤ 2 ^ d.paBits

/-- `*mapped` bytes are mapped from the start of the request on, and nothing else changes. -/
def MapsBytes (d : Data) (mem mem' : Nat → U64) (iova paddr mapped : Nat) : Prop :=
  ∀ y, d.InRange y → translation d mem' y =
    if iova ≤ y ∧ y < iova + mapped then some (BitVec.ofNat 64 (paddr + (y - iova))) else translation d mem y

/-! ### `qcom_arm_lpae_map_pages` -/

/-- The entries a request writes at its level: as many as fit in the table. -/
def mapNum (d : Data) (iova l n : Nat) : Int := min (toInt32 n) (d.ptesPerTable - d.lvlIdx iova l)

theorem mapNum_le (hg : Geom d) : d.lvlIdx x l + (mapNum d x l n).toNat ≤ d.ptesPerTable := by
  have := lvlIdx_lt hg x l
  unfold mapNum
  omega

theorem mapNum_le_count (d : Data) (x l n : Nat) : (mapNum d x l n).toNat ≤ n := by
  have := toInt32_le n
  unfold mapNum
  omega

/-- The ways a mapping call ends. -/
inductive MapOutcome (hg : Geom d) (iova paddr pgsize pgcount : Nat) (prot : U64) (s : State) :
    State × Except Errno U64 → Prop
  | fail {s' : State} (e : Errno) : Grow hg iova s s' → MapOutcome hg iova paddr pgsize pgcount prot s (s', .error e)
  | noAccess : MapOutcome hg iova paddr pgsize pgcount prot s (s, .ok 0)
  | mapped {s₁ s₂ : State} {k tbl n : Nat} {prot' : U64} {prev : Option Nat} : Grow hg iova s s₁ →
      k < (shape d hg).depth → tableAt (shape d hg) s₁.mem iova k = some tbl → PrevOf hg s₁ iova k prev →
      LeafReq d pgsize pgcount prot (d.startLevel + k) n prot' →
      initPte d s₁ paddr prot' (d.startLevel + k) (mapNum d iova (d.startLevel + k) n)
        (tbl + d.lvlIdx iova (d.startLevel + k)) prev = some s₂ →
      MapOutcome hg iova paddr pgsize pgcount prot s (s₂, .ok (BitVec.ofInt 64
        (d.blockSize (d.startLevel + k) * mapNum d iova (d.startLevel + k) n)))

theorem mapPages_outcome {paddr : Nat} {prot : Prot} [Fact (Fits d)] (hI : Inv hg s) :
    MapOutcome hg iova paddr pgsize pgcount (protToPte d prot) s (mapPages d s iova paddr pgsize pgcount prot) := by
  unfold mapPages
  split_ifs
  · exact .fail _ .refl
  · exact .fail _ .refl
  · exact .noAccess
  · cases hr : 4 - d.startLevel with
    | zero => exact .fail _ .refl
    | succ r =>
      have hend : MapEnd hg iova paddr pgsize pgcount (protToPte d prot) none s
          (lpaeMap d iova paddr (r + 1) s pgsize pgcount (protToPte d prot) d.pgd none none) :=
        lpaeMap_end (k := 0) hI (by have := hg.start; omega) rfl rfl
      generalize lpaeMap d iova paddr (r + 1) s pgsize pgcount (protToPte d prot) d.pgd none none = res at hend ⊢
      cases hend with
      | fail e h => exact .fail e h
      | @leaf s' k tbl n prot' prev h hk ht hp hreq =>
        have hcases : mapLeaf d iova paddr s' (d.blockSize (d.startLevel + k)) n prot' (d.startLevel + k) tbl prev =
            (s', .error .eexist) ∨ _ := mapLeaf_cases
        rcases hcases with hfail | ⟨s₂, hinit, hok⟩
        · simp only [mapLeafWith, hfail]
          exact .fail _ h
        · simp only [mapLeafWith, hok]
          exact .mapped h hk ht hp hreq hinit

theorem MapOutcome.inv {paddr : Nat} {prot : U64} {res : State × Except Errno U64}
    (h : MapOutcome hg iova paddr pgsize pgcount prot s res) [Fact (Fits d)] (hprot : iopteVal prot = 0) (hI : Inv hg s)
    : Inv hg res.1 := by
  cases h with
  | fail e h => exact (h.inv hI).1
  | noAccess => exact hI
  | mapped h hk ht hp hreq hinit =>
    obtain ⟨m, -, -, hprot'⟩ := hreq.size_eq
    exact (Inv.initPte (h.inv hI).1 hk ht hp (hprot' hprot) (mapNum_le hg) hinit).1

/-- A call that fails changes no translation. -/
theorem MapOutcome.error {paddr : Nat} {prot : U64} {s' : State} {e : Errno}
    (h : MapOutcome hg iova paddr pgsize pgcount prot s (s', .error e)) [Fact (Fits d)] (hI : Inv hg s) :
    ∀ y, translation d s'.mem y = translation d s.mem y := by
  cases h with
  | fail _ h => exact (h.inv hI).2

/-- A call that succeeds maps what it says. -/
theorem MapOutcome.ok {paddr : Nat} {prot M : U64} {s' : State}
    (h : MapOutcome hg iova paddr pgsize pgcount prot s (s', .ok M)) [Fact (Fits d)] (hprot : iopteVal prot = 0)
    (hI : Inv hg s) (hreq : Req d iova pgsize pgcount) (hok : MapOk d paddr pgsize pgcount) :
    M.toNat ≤ pgcount * pgsize ∧ MapsBytes d s.mem s'.mem iova paddr M.toNat := by
  cases h with
  | noAccess => exact ⟨Nat.zero_le _, fun y _ => by rw [if_neg (by simp)]⟩
  | @mapped s₁ _ k tbl n prot' prev hgrow hk ht hp hleaf hinit =>
    have hcount := hleaf.count_nonneg hok.count
    obtain ⟨m, hsize, rfl, hprot'⟩ := hleaf.size_eq
    obtain ⟨hI₁, htr⟩ := hgrow.inv hI
    have hidx := lvlIdx_lt hg iova (d.startLevel + k)
    have hle := mapNum_le_count d iova (d.startLevel + k) (m * pgcount)
    have hnum : 0 ≤ mapNum d iova (d.startLevel + k) (m * pgcount) := by
      unfold mapNum
      omega
    have hnum_le := mapNum_le (n := m * pgcount) (l := d.startLevel + k) (x := iova) hg
    generalize mapNum d iova (d.startLevel + k) (m * pgcount) = num at *
    obtain ⟨j, rfl⟩ := Int.eq_ofNat_of_zero_le hnum
    have hbytes : j * d.blockSize (d.startLevel + k) ≤ pgcount * pgsize := Req.part_le hsize hle
    have hM : (BitVec.ofInt 64 (d.blockSize (d.startLevel + k) * (j : Int))).toNat =
        j * d.blockSize (d.startLevel + k) := by
      have hias : 2 ^ d.cfg.ias ≤ 2 ^ 52 := Nat.pow_le_pow_right (by omega) hg.iasMax
      have hlt := hreq.size_le
      rw [← Int.natCast_mul, BitVec.ofInt_natCast, BitVec.toNat_ofNat, mul_comm, Nat.mod_eq_of_lt (by omega)]
    rw [hM]
    refine ⟨hbytes, fun y hy => ?_⟩
    have hB : 0 < d.blockSize (d.startLevel + k) := Nat.two_pow_pos _
    have hdvd : d.blockSize (d.startLevel + k) ∣ pgsize := ⟨m, by rw [hsize, mul_comm]⟩
    rw [← htr y]
    exact initPte_bytes hI₁ hk ht hp (hprot' hprot) hnum_le hinit hreq.first (hdvd.trans hreq.aligned)
      (fun h0 => hreq.part hsize hle (mul_ne_zero h0 hB.ne')) (hdvd.trans hok.aligned)
      (by have := hok.phys; simp only [Int.toNat_natCast]; omega) hy

end Sm8850.Iopt
