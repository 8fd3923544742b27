import Sm8850.Iopt.Model
import Sm8850.Lib.TableTree

/-! The page table as a tree of tables: which addresses share a path, what a table entry says to
a walk, and the translation a memory stands for. -/
namespace Sm8850.Iopt
open TableTree Nat Data

variable {d : Data}

/-! ### Addresses and levels -/

theorem lvlShift_eq (d : Data) {l : Nat} (h : l < 4) : d.lvlShift l = d.lvlShift (l + 1) + d.bitsPerLevel := by
  have : 4 - l = (4 - (l + 1)) + 1 := by omega
  simp only [lvlShift, this, add_mul]
  omega

theorem lvlBits_le (hg : Geom d) (l : Nat) : d.lvlBits l ≤ d.bitsPerLevel := by
  unfold lvlBits
  split
  · exact hg.pgd
  · exact le_rfl

theorem lvlIdx_lt (hg : Geom d) (x l : Nat) : d.lvlIdx x l < d.ptesPerTable :=
  lt_of_lt_of_le (mod_lt _ (Nat.two_pow_pos _)) (Nat.pow_le_pow_right (by omega) (lvlBits_le hg l))

/-- The index of an address in its table, `k` levels below the first. -/
abbrev Data.idx (d : Data) (x k : Nat) : Nat := d.lvlIdx x (d.startLevel + k)

theorem idx_lt (hg : Geom d) (x k : Nat) : d.idx x k < d.ptesPerTable := lvlIdx_lt hg x _

theorem idx_eq {k l : Nat} (h : d.startLevel + k = l) (x : Nat) : d.idx x k = d.lvlIdx x l := congrArg (d.lvlIdx x) h

/-- The number of the block of a level an address lies in. -/
def Data.blockNr (d : Data) (l x : Nat) : Nat := x / d.blockSize l

/-- The number of the table of a level an address is looked up in. -/
def Data.tableNr (d : Data) (l x : Nat) : Nat := d.blockNr l x / 2 ^ d.lvlBits l

theorem lvlIdx_eq (d : Data) (l x : Nat) : d.lvlIdx x l = d.blockNr l x % 2 ^ d.lvlBits l := rfl

/-- Below the first level the tables are the blocks of the level above. -/
theorem tableNr_succ {l : Nat} (hl : l < 3) (hs : d.startLevel ≤ l) (x : Nat) :
    d.tableNr (l + 1) x = d.blockNr l x := by
  have hne : l + 1 ≠ d.startLevel := by omega
  simp only [tableNr, blockNr, blockSize, lvlBits, hne, if_false]
  rw [Nat.div_div_eq_div_mul, ← pow_add, ← lvlShift_eq d (show l < 4 by omega)]

theorem tableNr_start (hg : Geom d) (hs : d.startLevel ≤ 3) (x : Nat) :
    d.tableNr d.startLevel x = x / 2 ^ d.cfg.ias := by
  simp only [tableNr, blockNr, blockSize, lvlBits, if_true]
  rw [Nat.div_div_eq_div_mul, ← pow_add, add_comm, hg.ias hs]

/-! ### The tree -/

/-- What an entry of a level says to a walk. The bits the hardware ignores do not count. -/
def pteView (d : Data) (lvl : Nat) (pte : U64) : View U64 :=
  if pte = 0 then .empty
  else if iopteLeaf d pte lvl then .leaf (iopteVal pte)
  else .table (iopteDeref d pte)

def shape (d : Data) (hg : Geom d) : Shape U64 U64 Nat where
  depth := 4 - d.startLevel
  width := d.ptesPerTable
  root := d.pgd
  idx k x := d.lvlIdx x (d.startLevel + k)
  view k pte := pteView d (d.startLevel + k) pte
  idx_lt _ x := lvlIdx_lt hg x _

/-- The walk for an address reads table `t` after `k` levels. -/
abbrev TableAt (hg : Geom d) (mem : Nat → U64) (x k t : Nat) : Prop := tableAt (shape d hg) mem x k = some t

theorem TableAt.unique {hg : Geom d} {mem : Nat → U64} {x y k t u : Nat} (ht : TableAt hg mem x k t)
    (hu : TableAt hg mem y k u) (h : SamePath (shape d hg) k x y) : u = t :=
  Option.some.inj (hu.symm.trans ((tableAt_congr h).symm.trans ht))

theorem lt_depth {k : Nat} (hg : Geom d) (h : d.startLevel + k < 4) : k < (shape d hg).depth := by
  change k < 4 - d.startLevel
  omega

theorem level_le {k : Nat} {hg : Geom d} (h : k < (shape d hg).depth) : d.startLevel + k ≤ 3 := by
  change k < 4 - d.startLevel at h
  omega

/-- Address of `x` under a leaf of a level. -/
def leafPhys (d : Data) (lvl : Nat) (pte : U64) (x : Nat) : U64 :=
  iopteToPaddr d pte ||| BitVec.ofNat 64 (x % d.blockSize lvl)

/-- The partial map a memory stands for. -/
def translation (d : Data) (mem : Nat → U64) (x : Nat) : Option U64 :=
  (walk d mem x (4 - d.startLevel) d.pgd).map fun (lvl, pte) => leafPhys d lvl pte x

theorem iovaToPhys_eq (d : Data) (s : State) (x : Nat) : iovaToPhys d s x = (translation d s.mem x).getD 0 := by
  unfold iovaToPhys translation
  cases walk d s.mem x (4 - d.startLevel) d.pgd <;> rfl

theorem leafPhys_val (d : Data) (lvl : Nat) (pte : U64) (x : Nat) :
    leafPhys d lvl (iopteVal pte) x = leafPhys d lvl pte x := by
  rw [leafPhys, iopteToPaddr_congr (iopteVal_idem pte), leafPhys]

section
variable (hg : Geom d) {mem mem' : Nat → U64} {k l n r t x y : Nat}

theorem walk_eq_find (h : d.startLevel + k + r = 4) (t : Nat) : (walk d mem x r t).map (fun p => leafPhys d p.1 p.2 x) =
      (find (shape d hg) mem x r k t).map (fun p => leafPhys d (d.startLevel + p.1) p.2 x) := by
  induction r generalizing k t with
  | zero => rfl
  | succ r ih =>
    have hl : 3 - r = d.startLevel + k := by omega
    simp only [walk, find, shape, pteView, hl]
    split
    · rfl
    · split
      · simp [leafPhys_val]
      · exact ih (by omega) _

/-- The translation is the leaf the address leads to in the tree. -/
theorem translation_eq (mem : Nat → U64) (x : Nat) : translation d mem x = (lookup (shape d hg) mem x).map
      (fun p => leafPhys d (d.startLevel + p.1) p.2 x) :=
  walk_eq_find hg (by have := hg.start; omega) d.pgd

theorem translation_congr (h : lookup (shape d hg) mem' x = lookup (shape d hg) mem x) :
    translation d mem' x = translation d mem x := by
  rw [translation_eq hg, translation_eq hg, h]

/-- An empty entry on the path ends the walk. -/
theorem translation_empty (hk : k < (shape d hg).depth) (ht : TableAt hg mem x k t)
    (hz : mem (t + d.idx x k) = 0) : translation d mem x = none := by
  have hview : (shape d hg).view k (mem (t + (shape d hg).idx k x)) = .empty := by
    change pteView d (d.startLevel + k) (mem (t + d.idx x k)) = .empty
    rw [hz, pteView, if_pos rfl]
  rw [translation_eq hg, lookup_empty hk ht hview]
  rfl

/-- A leaf on the path gives the address. -/
theorem translation_leaf (hk : k < (shape d hg).depth) (ht : TableAt hg mem x k t) (hne : mem (t + d.idx x k) ≠ 0)
    (hleaf : iopteLeaf d (mem (t + d.idx x k)) (d.startLevel + k)) : translation d mem x =
      some (leafPhys d (d.startLevel + k) (mem (t + d.idx x k)) x) := by
  have hview : (shape d hg).view k (mem (t + (shape d hg).idx k x)) =
      .leaf (iopteVal (mem (t + d.idx x k))) := by
    change pteView d (d.startLevel + k) (mem (t + d.idx x k)) = _
    rw [pteView, if_neg hne, if_pos hleaf]
  rw [translation_eq hg, lookup_leaf hk ht hview, Option.map_some, leafPhys_val]

/-! ### Paths as intervals of addresses -/

theorem eq_iff_div_mod_eq (a b m : Nat) : a = b ↔ a / m = b / m ∧ a % m = b % m := by
  constructor
  · rintro rfl
    exact ⟨rfl, rfl⟩
  · rintro ⟨h₁, h₂⟩
    rw [← div_add_mod a m, ← div_add_mod b m, h₁, h₂]

/-- Two addresses of one input range have the same path to a level if they belong to the same
table there. -/
theorem samePath_iff (hk : d.startLevel + k ≤ 3) (hxy : x / 2 ^ d.cfg.ias = y / 2 ^ d.cfg.ias) :
    SamePath (shape d hg) k x y ↔ d.tableNr (d.startLevel + k) x = d.tableNr (d.startLevel + k) y := by
  induction k with
  | zero =>
    rw [add_zero, tableNr_start hg (by omega), tableNr_start hg (by omega)]
    exact ⟨fun _ => hxy, nofun⟩
  | succ k ih =>
    rw [samePath_succ, ih (by omega), ← add_assoc, tableNr_succ (by omega) (by omega),
      tableNr_succ (by omega) (by omega)]
    exact (eq_iff_div_mod_eq _ _ (2 ^ d.lvlBits (d.startLevel + k))).symm

/-- A walk reads the entry of `x` at a depth exactly when it has the same path below it. -/
theorem hits_one : Hits (shape d hg) x k (fun i => d.lvlIdx x (d.startLevel + k) ≤ i ∧
    i < d.lvlIdx x (d.startLevel + k) + 1) y ↔ SamePath (shape d hg) (k + 1) x y := by
  rw [samePath_succ]
  refine and_congr_right fun _ => ?_
  change _ ≤ d.lvlIdx y _ ∧ d.lvlIdx y _ < _ ↔ d.lvlIdx x _ = d.lvlIdx y _
  omega

/-- The entries from `x` on, as blocks. -/
theorem hits_iff (hk : d.startLevel + k ≤ 3) (hxy : x / 2 ^ d.cfg.ias = y / 2 ^ d.cfg.ias)
    (hn : d.idx x k + n ≤ 2 ^ d.lvlBits (d.startLevel + k)) :
    Hits (shape d hg) x k (fun i => d.idx x k ≤ i ∧ i < d.idx x k + n) y ↔
      d.blockNr (d.startLevel + k) x ≤ d.blockNr (d.startLevel + k) y ∧
        d.blockNr (d.startLevel + k) y < d.blockNr (d.startLevel + k) x + n := by
  unfold Hits
  rw [samePath_iff hg hk hxy]
  simp only [shape, lvlIdx_eq, tableNr] at hn ⊢
  generalize d.blockNr (d.startLevel + k) x = a at hn ⊢
  generalize d.blockNr (d.startLevel + k) y = b at hn ⊢
  have hw : 0 < 2 ^ d.lvlBits (d.startLevel + k) := Nat.two_pow_pos _
  generalize 2 ^ d.lvlBits (d.startLevel + k) = w at hn hw ⊢
  have ha := div_add_mod a w
  have hb := div_add_mod b w
  constructor
  · rintro ⟨h₁, h₂, h₃⟩
    rw [h₁] at ha
    omega
  · rintro ⟨h₁, h₂⟩
    have hq : a / w = b / w := by
      have hle : a / w ≤ b / w := Nat.div_le_div_right h₁
      have hlt : b / w < a / w + 1 := by
        rw [Nat.div_lt_iff_lt_mul hw, add_mul, one_mul, mul_comm]
        omega
      omega
    rw [hq] at ha
    exact ⟨hq, by omega, by omega⟩

end

/-- Blocks as bytes: an aligned address and `n` blocks from it on. -/
theorem blockNr_between {l x y n : Nat} (hx : d.blockSize l ∣ x) :
    d.blockNr l x ≤ d.blockNr l y ∧ d.blockNr l y < d.blockNr l x + n ↔ x ≤ y ∧ y < x + n * d.blockSize l := by
  obtain ⟨q, rfl⟩ := hx
  have hpos : 0 < d.blockSize l := Nat.two_pow_pos _
  unfold blockNr
  generalize d.blockSize l = B at hpos
  rw [Nat.mul_div_cancel_left q hpos, Nat.le_div_iff_mul_le hpos, Nat.div_lt_iff_lt_mul hpos, add_mul,
    mul_comm q B]

/-! ### Address ranges -/

/-- The part of the address space the table is for, by its upper bits. -/
def Data.inputBase (d : Data) : Nat := if d.cfg.quirkArmTtbr1 then 2 ^ (64 - d.cfg.ias) - 1 else 0

/-- An address of the input range. -/
def Data.InRange (d : Data) (x : Nat) : Prop := x / 2 ^ d.cfg.ias = d.inputBase

end Sm8850.Iopt
