import Sm8850.Iopt.Runs

/-! Mapping a scatterlist: the page sizes that are chosen, the cached last-level table, and the
chunks that a call comes down to. -/
namespace Sm8850.Iopt
open TableTree Nat Bool Option Data

variable {d : Data} {hg : Geom d} {s s' : State} {x y i k l n r t pg : Nat} {e : U64}

/-! ### Lists of pieces -/

def sgLength (sg : List Piece) : Nat := (sg.map Piece.length).sum

/-- The physical address of a byte of the list. -/
def sgPhys : List Piece → Nat → Option Nat
  | [], _ => none
  | p :: rest, off => if off < p.length then some (p.phys + off) else sgPhys rest (off - p.length)

@[simp] theorem sgLength_nil : sgLength [] = 0 := rfl

@[simp] theorem sgLength_cons (p : Piece) (sg : List Piece) : sgLength (p :: sg) = p.length + sgLength sg := by
  simp [sgLength]

@[simp] theorem sgLength_append (l l' : List Piece) : sgLength (l ++ l') = sgLength l + sgLength l' := by
  simp [sgLength]

theorem sgPhys_append (l l' : List Piece) (off : Nat) :
    sgPhys (l ++ l') off = if off < sgLength l then sgPhys l off else sgPhys l' (off - sgLength l) := by
  induction l generalizing off with
  | nil => simp
  | cons p l ih =>
    rw [List.cons_append, sgPhys, sgPhys, sgLength_cons, ih]
    by_cases h : off < p.length
    · rw [if_pos h, if_pos (by omega), if_pos h]
    · rw [if_neg h, if_neg h]
      by_cases h' : off - p.length < sgLength l
      · rw [if_pos h', if_pos (by omega)]
      · rw [if_neg h', if_neg (by omega), Nat.sub_sub]

theorem sgPhys_empty (a : Nat) (sg : List Piece) : sgPhys (⟨a, 0⟩ :: sg) = sgPhys sg := by
  funext off
  rw [sgPhys, if_neg (Nat.not_lt_zero off), Nat.sub_zero]

/-- Two adjacent pieces are one. -/
theorem sgPhys_merge (start len : Nat) (p : Piece) (sg : List Piece) (h : p.phys = start + len) :
    sgPhys (⟨start, len⟩ :: p :: sg) = sgPhys (⟨start, len + p.length⟩ :: sg) := by
  funext off
  simp only [sgPhys]
  by_cases h₁ : off < len
  · rw [if_pos h₁, if_pos (by omega)]
  · rw [if_neg h₁]
    by_cases h₂ : off - len < p.length
    · rw [if_pos h₂, if_pos (by omega), h]
      congr 1
      omega
    · rw [if_neg h₂, if_neg (by omega), Nat.sub_sub]

/-! ### The largest page size -/

theorem two_pow_dvd_iff {a n : Nat} : 2 ^ n ∣ a ↔ ∀ j < n, a.testBit j = false := by
  rw [dvd_iff_mod_eq_zero]
  constructor
  · intro h j hj
    have hbit := testBit_mod_two_pow a n j
    rw [h, zero_testBit] at hbit
    simpa [hj] using hbit.symm
  · intro h
    apply eq_of_testBit_eq
    intro j
    rw [testBit_mod_two_pow, zero_testBit]
    by_cases hj : j < n
    · rw [h j hj, Bool.and_false]
    · simp [hj]

theorem two_pow_dvd_or {a b n : Nat} : 2 ^ n ∣ a ||| b ↔ 2 ^ n ∣ a ∧ 2 ^ n ∣ b := by
  simp only [two_pow_dvd_iff, testBit_or, or_eq_false_iff]
  exact ⟨fun h => ⟨fun j hj => (h j hj).1, fun j hj => (h j hj).2⟩, fun h j hj => ⟨h.1 j hj, h.2 j hj⟩⟩

/-- The lowest bit of a word. -/
theorem ffs_spec {a : Nat} (h0 : a ≠ 0) (hlt : a < 2 ^ 64) : 2 ^ n ∣ a ↔ n ≤ ffs a := by
  obtain ⟨b, hb, hlow⟩ : ∃ b, a.testBit b ∧ ∀ j < b, a.testBit j = false := by
    have hex : ∃ b, a.testBit b := exists_testBit_of_ne_zero h0
    refine ⟨Nat.find hex, Nat.find_spec hex, fun j hj => ?_⟩
    simpa using Nat.find_min hex hj
  have hb64 : b < 64 := by
    by_contra hge
    have := testBit_lt_two_pow (lt_of_lt_of_le hlt (Nat.pow_le_pow_right (by omega) (not_lt.mp hge)))
    rw [hb] at this
    cases this
  rw [ffs_eq hb64 hb hlow, two_pow_dvd_iff]
  constructor
  · intro h
    by_contra hge
    have := h b (by omega)
    rw [hb] at this
    cases this
  · exact fun h j hj => hlow j (by omega)

section
variable (hg)
include hg

/-- Every page size of the table is a number of blocks of one level. -/
theorem pgsize_level (h : d.cfg.pgsizeBitmap.testBit n) :
    ∃ l m, 1 ≤ l ∧ l ≤ 3 ∧ 2 ^ n = m * d.blockSize l ∧ (m = 1 ∨ m = findNumCont d l) := by
  rcases hg.sizes n h with ⟨l, h₁, h₃, rfl⟩ | ⟨-, l, h₂, h₃, hsize⟩
  · exact ⟨l, 1, h₁, h₃, (one_mul _).symm, .inl rfl⟩
  · exact ⟨l, findNumCont d l, by omega, h₃, hsize, .inr rfl⟩

theorem minPage_dvd (h : d.cfg.pgsizeBitmap.testBit n) : d.blockSize 3 ∣ 2 ^ n := by
  obtain ⟨l, m, -, hl, hsize, -⟩ := pgsize_level hg h
  rw [hsize]
  refine Dvd.dvd.mul_left (Nat.pow_dvd_pow 2 ?_) m
  unfold lvlShift
  have : (4 - 3) * d.bitsPerLevel ≤ (4 - l) * d.bitsPerLevel := Nat.mul_le_mul_right _ (by omega)
  omega

theorem lvlShift_three_lt : d.lvlShift 3 < 64 := by
  unfold lvlShift
  rcases hg.bits with h | h | h <;> omega

/-- The smallest page size is that of the last level. -/
theorem minPage_eq : 2 ^ ffs d.cfg.pgsizeBitmap = d.blockSize 3 := by
  rw [ffs_eq (lvlShift_three_lt hg) hg.page (fun j hj => ?_), blockSize]
  by_contra hne
  have hdvd := minPage_dvd hg (not_eq_false _ ▸ hne)
  have := (pow_dvd_pow_iff_le_right (by omega)).mp hdvd
  omega

/-- The chosen size is one of the table's, fits what is left and both addresses. -/
theorem choosePgsize_spec {iova paddr size : Nat} (hx : d.blockSize 3 ∣ iova) (hp : d.blockSize 3 ∣ paddr)
    (hs : d.blockSize 3 ∣ size) (h0 : 0 < size) (hx64 : iova < 2 ^ 64) (hp64 : paddr < 2 ^ 64) :
    ∃ n, choosePgsize d.cfg.pgsizeBitmap (iova ||| paddr) size = 2 ^ n ∧ d.cfg.pgsizeBitmap.testBit n ∧
      2 ^ n ≤ size ∧ 2 ^ n ∣ iova ∧ 2 ^ n ∣ paddr := by
  have hfls : d.lvlShift 3 ≤ fls size :=
    (le_log2 h0.ne').mpr (le_of_dvd h0 hs)
  have hor : d.blockSize 3 ∣ iova ||| paddr := two_pow_dvd_or.mpr ⟨hx, hp⟩
  unfold choosePgsize
  generalize hidx : (if (iova ||| paddr) = 0 then fls size else min (fls size) (ffs (iova ||| paddr))) = idx
  have hge : d.lvlShift 3 ≤ idx := by
    rw [← hidx]
    split
    · exact hfls
    · rename_i hne
      exact le_min hfls ((ffs_spec hne (or_lt_two_pow hx64 hp64)).mp hor)
  have hmask : ∀ j, ((2 ^ (idx + 1) - 1) &&& d.cfg.pgsizeBitmap).testBit j =
      (decide (j < idx + 1) && d.cfg.pgsizeBitmap.testBit j) := by
    intro j
    rw [testBit_and, testBit_two_pow_sub_one]
  have hne : (2 ^ (idx + 1) - 1) &&& d.cfg.pgsizeBitmap ≠ 0 := by
    intro hz
    have := hmask (d.lvlShift 3)
    rw [hz, zero_testBit, hg.page] at this
    simp at this
    omega
  have htop := testBit_log2 hne
  rw [hmask, and_eq_true, decide_eq_true_eq] at htop
  refine ⟨_, rfl, htop.2, ?_, ?_⟩
  · have hle : fls ((2 ^ (idx + 1) - 1) &&& d.cfg.pgsizeBitmap) ≤ fls size := by
      have : idx ≤ fls size := by
        rw [← hidx]
        split
        · exact le_rfl
        · exact min_le_left _ _
      unfold fls at *
      omega
    exact (le_log2 h0.ne').mp hle
  · by_cases hz : (iova ||| paddr) = 0
    · obtain ⟨rfl, rfl⟩ := or_eq_zero_iff.mp hz
      exact ⟨dvd_zero _, dvd_zero _⟩
    · rw [if_neg hz] at hidx
      exact two_pow_dvd_or.mp ((ffs_spec hz (or_lt_two_pow hx64 hp64)).mpr (by unfold fls; omega))

end

/-! ### Chunks -/

theorem findNumCont_le (d : Data) (l : Nat) : findNumCont d l ≤ 128 := by
  unfold findNumCont contPmds contPtes
  split_ifs <;> omega

theorem toInt32_small (h : n < 2 ^ 31) : toInt32 n = n := by
  unfold toInt32
  rw [BitVec.toInt_eq_toNat_cond, BitVec.toNat_ofNat, mod_eq_of_lt (by omega), if_pos (by omega)]

/-- A block or a group of them at its own alignment lies in one table. -/
theorem idx_group_le (hg : Geom d) (hn : n = 1 ∨ n = findNumCont d l) (hx : n * d.blockSize l ∣ x) :
    d.lvlIdx x l + n ≤ d.ptesPerTable := by
  have hB : 0 < d.blockSize l := Nat.two_pow_pos _
  have hbits := lvlBits_le hg l
  have h9 : 9 ≤ d.bitsPerLevel := by rcases hg.bits with h | h | h <;> omega
  obtain ⟨g, rfl, hg7⟩ : ∃ g, n = 2 ^ g ∧ g ≤ 7 := by
    rcases hn with rfl | rfl
    · exact ⟨0, rfl, by omega⟩
    · obtain ⟨g, hG⟩ := findNumCont_eq d l
      have hle := findNumCont_le d l
      rw [hG] at hle
      exact ⟨g, hG, (Nat.pow_le_pow_iff_right (by omega)).mp (show 2 ^ g ≤ 2 ^ 7 from hle)⟩
  have hlt := lvlIdx_lt hg x l
  rcases le_total g (d.lvlBits l) with hle | hle
  · -- the index is a multiple of the group, below the width of the table
    have hnr : 2 ^ g ∣ d.blockNr l x := by
      obtain ⟨q, rfl⟩ := hx
      rw [blockNr, mul_comm (2 ^ g), mul_assoc, Nat.mul_div_cancel_left _ hB]
      exact dvd_mul_right _ _
    have hidx : 2 ^ g ∣ d.lvlIdx x l := by
      exact (dvd_mod_iff (Nat.pow_dvd_pow 2 hle)).mpr hnr
    have hsub : 2 ^ g ∣ d.ptesPerTable - d.lvlIdx x l :=
      Nat.dvd_sub (Nat.pow_dvd_pow 2 (hle.trans hbits)) hidx
    have := le_of_dvd (by omega) hsub
    omega
  · have hidx : d.lvlIdx x l < 2 ^ d.lvlBits l := mod_lt _ (Nat.two_pow_pos _)
    have h₁ : 2 ^ d.lvlBits l ≤ 2 ^ 7 := Nat.pow_le_pow_right (by omega) (hle.trans hg7)
    have h₂ : 2 ^ g ≤ 2 ^ 7 := Nat.pow_le_pow_right (by omega) hg7
    have h₃ : 2 ^ 9 ≤ d.ptesPerTable := Nat.pow_le_pow_right (by omega) h9
    omega

/-- What one chunk writes: what a walk for its size writes, or pages of the cached table, which
never carry the hint. -/
inductive ChunkReq (d : Data) (size : Nat) (prot : U64) (l : Nat) : Nat → U64 → Prop
  | walk {n : Nat} {prot' : U64} : LeafReq d size 1 prot l n prot' → ChunkReq d size prot l n prot'
  | cached : l = 3 → Matches d size 3 → ChunkReq d size prot l (checkAndSetNumCont d size 3) prot

theorem ChunkReq.size_eq {size : Nat} {prot prot' : U64} (h : ChunkReq d size prot l n prot') :
    size = n * d.blockSize l ∧ (n = 1 ∨ n = findNumCont d l) ∧ (iopteVal prot = 0 → iopteVal prot' = 0) := by
  cases h with
  | walk h =>
    cases h with
    | block h => exact ⟨by omega, .inl rfl, id⟩
    | group h _ =>
      simp only [pteIsContiguousRange, and_eq_true, beq_iff_eq] at h
      exact ⟨by rw [mul_one]; exact h.2, .inr (mul_one _), iopteVal_or_cont⟩
  | cached hl hm =>
    subst hl
    refine ⟨hm.unit, ?_, id⟩
    unfold checkAndSetNumCont
    split_ifs
    · exact .inr rfl
    · exact .inl rfl
    · exact .inl rfl

/-- A chunk is aligned on both sides, inside the input range and inside the addresses an entry can hold. -/
structure ChunkAt (d : Data) (x p size : Nat) : Prop where
  pos : 0 < size
  aligned : size ∣ x
  physAligned : size ∣ p
  inside : ∀ y, x ≤ y → y < x + size → d.InRange y
  phys : p + size ≤ 2 ^ d.paBits

/-- A chunk is mapped: the tables on the way, then its leaves. -/
inductive Chunk (hg : Geom d) (prot : U64) (x p size : Nat) (s : State) : State → Prop
  | mk {s₁ s₂ : State} {k tbl n : Nat} {prot' : U64} {prev : Option Nat} : ChunkAt d x p size → Grow hg x s s₁ →
      k < (shape d hg).depth → tableAt (shape d hg) s₁.mem x k = some tbl → PrevOf hg s₁ x k prev →
      ChunkReq d size prot (d.startLevel + k) n prot' →
      initPte d s₁ p prot' (d.startLevel + k) n (tbl + d.lvlIdx x (d.startLevel + k)) prev = some s₂ →
      Chunk hg prot x p size s s₂

section
variable {prot : U64} {p size : Nat}

theorem ChunkAt.idx_le {prot' : U64} (hat : ChunkAt d x p size) (hg : Geom d) (hreq : ChunkReq d size prot l n prot') :
    d.lvlIdx x l + (n : Int).toNat ≤ d.ptesPerTable := by
  obtain ⟨hsize, hn, -⟩ := hreq.size_eq
  exact idx_group_le hg hn (hsize ▸ hat.aligned)

section
variable (h : Chunk hg prot x p size s s') [Fact (Fits d)] (hprot : iopteVal prot = 0) (hI : Inv hg s)
include h hprot hI

theorem Chunk.inv : Inv hg s' := by
  cases h with
  | mk hat hgrow hk ht hp hreq hinit =>
    exact (Inv.initPte (hgrow.inv hI).1 hk ht hp (hreq.size_eq.2.2 hprot) (hat.idx_le hg hreq) hinit).1

/-- A chunk maps its bytes and nothing else. -/
theorem Chunk.bytes : MapsBytes d s.mem s'.mem x p size := by
  cases h with
  | @mk s₁ _ k tbl n prot' prev hat hgrow hk ht hp hreq hinit =>
    obtain ⟨hsize, -, hprot'⟩ := hreq.size_eq
    obtain ⟨hI₁, htr⟩ := hgrow.inv hI
    have hdvd : d.blockSize (d.startLevel + k) ∣ size := Dvd.intro_left _ hsize.symm
    have hpos := hat.pos
    have hbytes : (n : Int).toNat * d.blockSize (d.startLevel + k) = size := by
      rw [Int.toNat_natCast, hsize]
    intro y hy
    have hall := initPte_bytes hI₁ hk ht hp (hprot' hprot) (hat.idx_le hg hreq) hinit
      (hat.inside x le_rfl (by omega)) (hdvd.trans hat.aligned)
      (fun _ => hat.inside _ (by rw [hbytes]; omega) (by rw [hbytes]; omega)) (hdvd.trans hat.physAligned)
      (by rw [hbytes]; exact hat.phys) hy
    rw [hall, hbytes, htr y]

end

end

/-! ### What a list comes down to -/

/-- The pieces of the list are mapped one after the other from `iova` on, each as one chunk, and
after any of them a walk may have given up. -/
inductive Scattered (hg : Geom d) (prot : U64) (iova : Nat) (s : State) : List Piece → State → Prop
  | nil : Scattered hg prot iova s [] s
  | chunk {l : List Piece} {p : Piece} {s₁ s₂ : State} : Scattered hg prot iova s l s₁ →
      Chunk hg prot (iova + sgLength l) p.phys p.length s₁ s₂ → Scattered hg prot iova s (l ++ [p]) s₂
  | stop {l : List Piece} {s₁ s₂ : State} : Scattered hg prot iova s l s₁ →
      Grow hg (iova + sgLength l) s₁ s₂ → Scattered hg prot iova s l s₂

section
variable {prot : U64} {iova : Nat} {sg : List Piece}

section
variable (h : Scattered hg prot iova s sg s') [Fact (Fits d)] (hprot : iopteVal prot = 0) (hI : Inv hg s)
include h hprot hI

theorem Scattered.inv : Inv hg s' := by
  induction h with
  | nil => exact hI
  | chunk _ hc ih => exact hc.inv hprot ih
  | stop _ hgrow ih => exact (hgrow.inv ih).1

/-- The translation after a list of chunks: their bytes, and what was there outside of them. -/
theorem Scattered.translation (hy : d.InRange y) : translation d s'.mem y = if iova ≤ y ∧ y < iova + sgLength sg then
      (sgPhys sg (y - iova)).map (BitVec.ofNat 64) else Iopt.translation d s.mem y := by
  induction h with
  | nil => rw [if_neg (by rw [sgLength_nil]; omega)]
  | @chunk l p s₁ s₂ h hc ih =>
    rw [hc.bytes hprot (h.inv hprot hI) y hy, ih, sgPhys_append, sgLength_append, sgLength_cons,
      sgLength_nil, sgPhys, sgPhys]
    by_cases h₁ : iova ≤ y ∧ y < iova + sgLength l
    · rw [if_neg (by omega), if_pos h₁, if_pos (by omega), if_pos (by omega)]
    · by_cases h₂ : iova + sgLength l ≤ y ∧ y < iova + sgLength l + p.length
      · rw [if_pos h₂, if_pos (by omega), if_neg (by omega), if_pos (by omega), map_some]
        congr 3
        omega
      · rw [if_neg h₂, if_neg h₁, if_neg (by omega)]
  | stop h hgrow ih => rw [(hgrow.inv (h.inv hprot hI)).2 y, ih]

end

end

/-! ### The cached table -/

/-- The cached table is the last-level table of the next address, as long as the cache is good for
it. That address is never the first one of the table, so the chunk there is smaller than the
table. -/
def CacheOk (hg : Geom d) (s : State) (x : Nat) (ms : MapState) : Prop :=
  ∀ tbl, ms.pgtable = some tbl → x < ms.iovaEnd →
    ∃ k, d.startLevel + k = 3 ∧ tableAt (shape d hg) s.mem x k = some tbl ∧ PrevOf hg s x k ms.prevPgtable ∧
      ms.iovaEnd ≤ x / d.blockSize 2 * d.blockSize 2 + d.blockSize 2 ∧ ¬ d.blockSize 2 ∣ x

theorem CacheOk.zero (hg : Geom d) (s : State) (x : Nat) : CacheOk hg s x MapState.zero :=
  fun _ h => absurd h.symm (some_ne_none _)

/-- Addresses with a common block above the last level have a common table there. -/
theorem samePath_last (hk : d.startLevel + k = 3) (h : x / d.blockSize 2 = y / d.blockSize 2) :
    SamePath (shape d hg) k x y := by
  cases k with
  | zero => exact nofun
  | succ k =>
    have hshift : d.lvlShift 3 + d.lvlBits 3 = d.lvlShift 2 := by
      rw [lvlBits, if_neg (by omega)]
      unfold lvlShift
      omega
    have htab : d.tableNr (d.startLevel + (k + 1)) x = d.tableNr (d.startLevel + (k + 1)) y := by
      rw [hk, tableNr_eq, tableNr_eq, hshift]
      exact h
    exact (samePath_iff hg (by omega) (range_of_tableNr hg (Nat.le_add_right _ _) (by omega) htab)).mpr htab

section
variable {prot : U64} {p size iovaEnd tbl : Nat} {prev : Option Nat} {ms : MapState}

/-- After leaves in a last-level table the cache points to it. -/
theorem CacheOk.next {s₁ s₂ : State} {I : Nat → Prop} (hE : EditAt (shape d hg) s₁.mem s₂.mem x k I)
    (hk : d.startLevel + k = 3) (ht : tableAt (shape d hg) s₁.mem x k = some tbl) (hp : PrevOf hg s₁ x k prev)
    (hend : iovaEnd ≤ x / d.blockSize 2 * d.blockSize 2 + d.blockSize 2) (hsize : 0 < size) :
    CacheOk hg s₂ (x + size) ⟨iovaEnd, some tbl, prev⟩ := by
  intro tbl' htbl hlt
  cases htbl
  have hdepth := lt_depth hg (show d.startLevel + k < 4 by omega)
  have hmod := div_add_mod x (d.blockSize 2)
  have hx : x / d.blockSize 2 * d.blockSize 2 ≤ x := div_mul_le_self _ _
  have hlt' : x + size < x / d.blockSize 2 * d.blockSize 2 + d.blockSize 2 := lt_of_lt_of_le hlt hend
  have hdiv : (x + size) / d.blockSize 2 = x / d.blockSize 2 :=
    Nat.div_eq_of_lt_le (by omega) (by rw [succ_mul]; omega)
  have hsame : SamePath (shape d hg) k x (x + size) := samePath_last hk hdiv.symm
  refine ⟨k, hk, hE.table_same hdepth ht hsame, ?_, by rw [hdiv]; exact hend, ?_⟩
  · cases k with
    | zero => exact hp
    | succ k =>
      obtain ⟨u, hu, rfl⟩ := hp
      obtain ⟨hpath, hidx⟩ := samePath_succ.mp hsame
      have hidx' : d.lvlIdx x (d.startLevel + k) = d.lvlIdx (x + size) (d.startLevel + k) := hidx
      refine ⟨u, ?_, by rw [hidx']⟩
      rw [hE.tableAt_of_le hdepth (le_succ k), ← tableAt_congr hpath, hu]
  · intro hdvd
    have := Nat.div_mul_cancel hdvd
    rw [hdiv] at this
    omega

/-- A page size below the block above the last level is that of pages or of a group of them. -/
theorem matches_last (hg : Geom d) (hbit : d.cfg.pgsizeBitmap.testBit n) (hx : 2 ^ n ∣ x)
    (hout : ¬ d.blockSize 2 ∣ x) : Matches d (2 ^ n) 3 := by
  obtain ⟨l, m, -, hl, hsize, hm⟩ := pgsize_level hg hbit
  have h3 : l = 3 := by
    by_contra hne
    have hdvd : d.blockSize 2 ∣ d.blockSize l := by
      refine Nat.pow_dvd_pow 2 ?_
      have : (4 - 2) * d.bitsPerLevel ≤ (4 - l) * d.bitsPerLevel := Nat.mul_le_mul_right _ (by omega)
      unfold lvlShift
      omega
    exact hout ((hdvd.trans (Dvd.intro_left _ hsize.symm)).trans hx)
  subst h3
  rcases hm with rfl | rfl
  · exact .inl (by omega)
  · exact .inr hsize

/-- One round of the loop of `arm_lpae_map_by_pgsize`. -/
def chunkStep (d : Data) (prot : U64) (s : State) (pgsize iova paddr : Nat) (ms : MapState) :
    State × Option Errno × MapState :=
  match ms.pgtable with
  | some tbl =>
    if iova < ms.iovaEnd then
      match initPte d s paddr prot 3 (checkAndSetNumCont d pgsize 3) (tbl + d.lvlIdx iova 3) ms.prevPgtable with
      | none => (s, some .eexist, ms)
      | some s => (s, none, ms)
    else mapBySizeLoop.mapFresh d prot s pgsize iova paddr ms
  | none => mapBySizeLoop.mapFresh d prot s pgsize iova paddr ms

theorem mapBySizeLoop_succ (fuel iova paddr size mapped : Nat) :
    mapBySizeLoop d prot (fuel + 1) s iova paddr size mapped ms = if size = 0 then (s, none, mapped, ms)
      else match chunkStep d prot s (choosePgsize d.cfg.pgsizeBitmap (iova ||| paddr) size) iova paddr ms with
        | (s, some e, ms) => (s, some e, mapped, ms) | (s, none, ms) =>
          mapBySizeLoop d prot fuel s (iova + choosePgsize d.cfg.pgsizeBitmap (iova ||| paddr) size)
            (paddr + choosePgsize d.cfg.pgsizeBitmap (iova ||| paddr) size)
            (size - choosePgsize d.cfg.pgsizeBitmap (iova ||| paddr) size)
            (mapped + choosePgsize d.cfg.pgsizeBitmap (iova ||| paddr) size) ms := rfl

/-- A round maps its chunk and leaves a good cache, or gives up on the way down. -/
inductive ChunkEnd (hg : Geom d) (prot : U64) (x p size : Nat) (s : State) : State × Option Errno × MapState → Prop
  | fail {s' : State} (e : Errno) (ms : MapState) : Grow hg x s s' → ChunkEnd hg prot x p size s (s', some e, ms)
  | mapped {s' : State} {ms : MapState} : Chunk hg prot x p size s s' → CacheOk hg s' (x + size) ms →
      ChunkEnd hg prot x p size s (s', none, ms)

section
variable (hI : Inv hg s) [Fact (Fits d)] (hprot : iopteVal prot = 0) (hat : ChunkAt d x p size)
include hI hprot hat

theorem mapFresh_end (ms : MapState) : ChunkEnd hg prot x p size s (mapBySizeLoop.mapFresh d prot s size x p ms) := by
  unfold mapBySizeLoop.mapFresh
  cases hr : 4 - d.startLevel with
  | zero => exact .fail _ _ .refl
  | succ r =>
    have hend : MapEnd hg x p size 1 prot (some ms) s (lpaeMap d x p (r + 1) s size 1 prot d.pgd none (some ms)) :=
      lpaeMap_end (k := 0) hI (by have := hg.start; omega) rfl rfl
    generalize lpaeMap d x p (r + 1) s size 1 prot d.pgd none (some ms) = res at hend ⊢
    cases hend with
    | fail e h => exact .fail e _ h
    | @leaf s₁ k tbl n prot' prev h hk ht hp hreq =>
      have hcreq : ChunkReq d size prot (d.startLevel + k) n prot' := .walk hreq
      obtain ⟨-, hn, hprot'⟩ := hcreq.size_eq
      have hint : toInt32 n = n := by
        have := findNumCont_le d (d.startLevel + k)
        exact toInt32_small (by omega)
      simp only [mapLeafWith, mapLeafCached, hint]
      cases hinit : initPte d s₁ p prot' (d.startLevel + k) n (tbl + d.idx x k) prev with
      | none => exact .fail _ _ h
      | some s₂ =>
        refine .mapped (.mk hat h hk ht hp hcreq hinit) ?_
        obtain ⟨-, hE⟩ := Inv.initPte (h.inv hI).1 hk ht hp (hprot' hprot) (hat.idx_le hg hcreq) hinit
        by_cases h3 : d.startLevel + k = 3
        · simp only [h3, if_true, getD_some]
          exact CacheOk.next hE h3 ht hp (mod_le _ _) hat.pos
        · simp only [h3, if_false, getD_some]
          exact CacheOk.zero hg s₂ _

/-- Through the cache the same leaves are written as through a walk. -/
theorem chunkStep_end (hcache : CacheOk hg s x ms) (hbit : d.cfg.pgsizeBitmap.testBit n) (hsize : size = 2 ^ n) :
    ChunkEnd hg prot x p size s (chunkStep d prot s size x p ms) := by
  unfold chunkStep
  cases htbl : ms.pgtable with
  | none => exact mapFresh_end hI hprot hat ms
  | some tbl =>
    dsimp only
    by_cases hlt : x < ms.iovaEnd
    · rw [if_pos hlt]
      obtain ⟨k, hk3, ht, hp, hend, hout⟩ := hcache tbl htbl hlt
      have hk := lt_depth hg (show d.startLevel + k < 4 by omega)
      have hm : Matches d size 3 := by
        rw [hsize]
        exact matches_last hg hbit (hsize ▸ hat.aligned) hout
      have hreq : ChunkReq d size prot (d.startLevel + k) (checkAndSetNumCont d size 3) prot := .cached hk3 hm
      rw [← hk3] at hreq ⊢
      cases hinit : initPte d s p prot (d.startLevel + k) (checkAndSetNumCont d size (d.startLevel + k))
          (tbl + d.idx x k) ms.prevPgtable with
      | none => exact .fail _ _ .refl
      | some s₂ =>
        obtain ⟨-, hE⟩ := Inv.initPte hI hk ht hp hprot (hat.idx_le hg hreq) hinit
        have hnext : CacheOk hg s₂ (x + size) ⟨ms.iovaEnd, some tbl, ms.prevPgtable⟩ :=
          CacheOk.next hE hk3 ht hp hend hat.pos
        rw [← htbl] at hnext
        exact .mapped (.mk hat .refl hk ht hp hreq hinit) hnext
    · rw [if_neg hlt]
      exact mapFresh_end hI hprot hat ms

end

end

end Sm8850.Iopt
