import Mathlib.Data.Nat.Basic
import Mathlib.Tactic.ByContra

/-! Trees of tables in a flat memory. A key picks one entry in each table on its way down, and
an entry reads as empty, as a leaf or as a pointer to the next table. -/
namespace TableTree
open List Nat Option

/-- What an entry says to the walk that meets it. -/
inductive View (α : Type) where
  | empty
  | leaf (a : α)
  | table (base : Nat)

/-- The table an entry points to. -/
def View.next {α : Type} : View α → Option Nat
  | .table b => some b
  | _ => none

/-- How a tree is laid out: `depth` tables on a full path, `width` cells in a table, and how
keys and entries are read at each depth. -/
structure Shape (ε α κ : Type) where
  depth : Nat
  width : Nat
  root : Nat
  idx : Nat → κ → Nat
  view : Nat → ε → View α
  idx_lt : ∀ k x, idx k x < width

variable {ε α κ : Type} (S : Shape ε α κ) {P P' : Nat → Prop} {I : Nat → Prop}
  {mem mem' : Nat → ε} {x y : κ} {i j k r t u b : Nat}

/-- The table that the walk for a key reads at a depth. -/
def tableAt (mem : Nat → ε) (x : κ) : Nat → Option Nat
  | 0 => some S.root
  | k + 1 => (tableAt mem x k).bind fun t => (S.view k (mem (t + S.idx k x))).next

/-- The walk for a key from a table on, with `r` tables left. -/
def find (mem : Nat → ε) (x : κ) : (r k t : Nat) → Option (Nat × α)
  | 0, _, _ => none
  | r + 1, k, t => match S.view k (mem (t + S.idx k x)) with
    | .empty => none
    | .leaf a => some (k, a)
    | .table b => find mem x r (k + 1) b

/-- The leaf a key leads to, with its depth. -/
def lookup (mem : Nat → ε) (x : κ) : Option (Nat × α) := find S mem x S.depth 0 S.root

/-- The two keys have the same path down to a depth. -/
def SamePath (k : Nat) (x y : κ) : Prop := ∀ i < k, S.idx i x = S.idx i y

/-- A table and the tables below it. -/
def below (mem : Nat → ε) : (r k t : Nat) → List Nat
  | 0, _, _ => []
  | 1, _, t => [t]
  | r + 2, k, t => t :: (List.range S.width).flatMap fun i =>
      match (S.view k (mem (t + i))).next with
      | some b => below mem (r + 1) (k + 1) b
      | none => []

/-- Tables that satisfy `P` do not overlap. -/
def Apart (P : Nat → Prop) : Prop :=
  ∀ t u i j, P t → P u → i < S.width → j < S.width → t + i = u + j → t = u

/-- Every table hangs in one place of the tree. -/
structure Tree (P : Nat → Prop) (mem : Nat → ε) : Prop where
  pages : ∀ y j t, j < S.depth → tableAt S mem y j = some t → P t
  unique : ∀ x y j k t, j < S.depth → k < S.depth → tableAt S mem x j = some t →
    tableAt S mem y k = some t → j = k ∧ SamePath S j x y

/-- Among the cells of the tree only those of the key's table at depth `k` with an index in
`I` read differently afterwards. -/
def EditAt (mem mem' : Nat → ε) (x : κ) (k : Nat) (I : Nat → Prop) : Prop :=
  ∀ y j t i, j < S.depth → tableAt S mem y j = some t → i < S.width →
    ¬ (j = k ∧ SamePath S k x y ∧ I i) → S.view j (mem' (t + i)) = S.view j (mem (t + i))

/-- The key's walk reads an edited cell. -/
def Hits (x : κ) (k : Nat) (I : Nat → Prop) (y : κ) : Prop := SamePath S k x y ∧ I (S.idx k y)

variable {S}

theorem SamePath.refl (k : Nat) (x : κ) : SamePath S k x x := fun _ _ => rfl

theorem SamePath.symm (h : SamePath S k x y) : SamePath S k y x := fun i hi => (h i hi).symm

theorem SamePath.trans {z : κ} (h : SamePath S k x y) (h' : SamePath S k y z) : SamePath S k x z :=
  fun i hi => (h i hi).trans (h' i hi)

theorem SamePath.mono (h : SamePath S k x y) (hj : j ≤ k) : SamePath S j x y :=
  fun i hi => h i (lt_of_lt_of_le hi hj)

theorem samePath_succ : SamePath S (k + 1) x y ↔ SamePath S k x y ∧ S.idx k x = S.idx k y := by
  constructor
  · intro h
    exact ⟨h.mono (le_succ k), h k (lt_succ_self k)⟩
  · rintro ⟨h, hk⟩ i hi
    rcases Nat.lt_succ_iff_lt_or_eq.mp hi with hi | rfl
    · exact h i hi
    · exact hk

theorem tableAt_succ (h : tableAt S mem x (k + 1) = some b) :
    ∃ t, tableAt S mem x k = some t ∧ S.view k (mem (t + S.idx k x)) = .table b := by
  obtain ⟨t, ht, hb⟩ := bind_eq_some_iff.mp h
  refine ⟨t, ht, ?_⟩
  cases hv : S.view k (mem (t + S.idx k x)) with
  | empty => simp [hv, View.next] at hb
  | leaf a => simp [hv, View.next] at hb
  | table c => simpa [hv, View.next] using hb

theorem tableAt_next (h : tableAt S mem x k = some t) :
    tableAt S mem x (k + 1) = (S.view k (mem (t + S.idx k x))).next := by
  simp [tableAt, h]

theorem tableAt_congr (h : SamePath S k x y) : tableAt S mem x k = tableAt S mem y k := by
  induction k with
  | zero => rfl
  | succ k ih =>
    obtain ⟨hk, hi⟩ := samePath_succ.mp h
    simp [tableAt, ih hk, hi]

theorem tableAt_of_le (h : tableAt S mem x k = some t) (hj : j ≤ k) : ∃ u, tableAt S mem x j = some u := by
  induction k generalizing t with
  | zero => exact ⟨t, by rwa [le_zero.mp hj]⟩
  | succ k ih =>
    rcases le_succ_iff.mp hj with hj | rfl
    · obtain ⟨u, hu, -⟩ := tableAt_succ h
      exact ih hu hj
    · exact ⟨t, h⟩

/-- The walk from the root goes through every table on the key's path. -/
theorem lookup_eq_find (hk : k ≤ S.depth) (h : tableAt S mem x k = some t) :
    lookup S mem x = find S mem x (S.depth - k) k t := by
  induction k generalizing t with
  | zero => cases h; rfl
  | succ k ih =>
    obtain ⟨u, hu, hv⟩ := tableAt_succ h
    have hr : S.depth - k = S.depth - (k + 1) + 1 := by omega
    rw [ih (by omega) hu, hr]
    simp [find, hv]

theorem lookup_empty (hk : k < S.depth) (h : tableAt S mem x k = some t)
    (hv : S.view k (mem (t + S.idx k x)) = .empty) : lookup S mem x = none := by
  have hr : S.depth - k = S.depth - (k + 1) + 1 := by omega
  rw [lookup_eq_find (le_of_lt hk) h, hr]
  simp [find, hv]

theorem lookup_leaf {a : α} (hk : k < S.depth) (h : tableAt S mem x k = some t)
    (hv : S.view k (mem (t + S.idx k x)) = .leaf a) : lookup S mem x = some (k, a) := by
  have hr : S.depth - k = S.depth - (k + 1) + 1 := by omega
  rw [lookup_eq_find (le_of_lt hk) h, hr]
  simp [find, hv]

/-- A walk sees only what the cells on its path say. -/
theorem frame (h : ∀ j t, j < S.depth → tableAt S mem x j = some t →
      S.view j (mem' (t + S.idx j x)) = S.view j (mem (t + S.idx j x))) :
    (∀ j ≤ S.depth, tableAt S mem' x j = tableAt S mem x j) ∧ lookup S mem' x = lookup S mem x := by
  have htab : ∀ j ≤ S.depth, tableAt S mem' x j = tableAt S mem x j := by
    intro j hj
    induction j with
    | zero => rfl
    | succ j ih =>
      simp only [tableAt, ih (by omega)]
      cases ht : tableAt S mem x j with
      | none => rfl
      | some t => simp [h j t (by omega) ht]
  refine ⟨htab, ?_⟩
  have hfind : ∀ r k t, k + r = S.depth → tableAt S mem x k = some t →
      find S mem' x r k t = find S mem x r k t := by
    intro r
    induction r with
    | zero => intros; rfl
    | succ r ih =>
      intro k t hk ht
      simp only [find, h k t (by omega) ht]
      cases hv : S.view k (mem (t + S.idx k x)) with
      | empty => rfl
      | leaf a => rfl
      | table c => exact ih (k + 1) c (by omega) (by rw [tableAt_next ht, hv]; rfl)
  exact hfind S.depth 0 S.root (Nat.zero_add _) rfl

/-- A cell of the tree has one depth, one path and one index. -/
theorem Tree.cell_unique (hT : Tree S P mem) (hA : Apart S P) (hj : j < S.depth) (hk : k < S.depth)
    (ht : tableAt S mem x j = some t) (hu : tableAt S mem y k = some u) {i i' : Nat}
    (hi : i < S.width) (hi' : i' < S.width) (heq : t + i = u + i') : j = k ∧ SamePath S j x y ∧ i = i' := by
  have htu : t = u := hA t u i i' (hT.pages x j t hj ht) (hT.pages y k u hk hu) hi hi' heq
  subst htu
  obtain ⟨h₁, h₂⟩ := hT.unique x y j k t hj hk ht hu
  exact ⟨h₁, h₂, by omega⟩

/-- An edit of the cells `t + i`, `i` in `I`, of the key's table at depth `k`. -/
theorem Tree.editAt (hT : Tree S P mem) (hA : Apart S P) (hk : k < S.depth)
    (ht : tableAt S mem x k = some t) (hI : ∀ i, I i → i < S.width)
    (h : ∀ y j u i, j < S.depth → tableAt S mem y j = some u → i < S.width →
      (∀ i', I i' → u + i ≠ t + i') → S.view j (mem' (u + i)) = S.view j (mem (u + i))) : EditAt S mem mem' x k I := by
  intro y j u i hj hu hi hne
  refine h y j u i hj hu hi (fun i' hi' heq => hne ?_)
  obtain ⟨h₁, h₂, h₃⟩ := hT.cell_unique hA hj hk hu ht hi (hI i' hi') heq
  subst h₁
  exact ⟨rfl, h₂.symm, h₃ ▸ hi'⟩

section
variable (hE : EditAt S mem mem' x k I)
include hE

theorem EditAt.tableAt_of_le (hk : k < S.depth) (hj : j ≤ k) : tableAt S mem' y j = tableAt S mem y j := by
  induction j with
  | zero => rfl
  | succ j ih =>
    simp only [tableAt, ih (by omega)]
    cases ht : tableAt S mem y j with
    | none => rfl
    | some t =>
      simp only [bind_some]
      rw [hE y j t _ (by omega) ht (S.idx_lt j y) (fun hh => by omega)]

/-- A key whose walk reads no edited cell walks as before. -/
theorem EditAt.miss (hy : ¬ Hits S x k I y) :
    (∀ j ≤ S.depth, tableAt S mem' y j = tableAt S mem y j) ∧ lookup S mem' y = lookup S mem y :=
  frame fun j t hj ht => hE y j t _ hj ht (S.idx_lt j y) fun hh => hy (by
    obtain ⟨rfl, hs, hi⟩ := hh
    exact ⟨hs, hi⟩)

theorem EditAt.table_same (hk : k < S.depth)
    (ht : tableAt S mem x k = some t) (hs : SamePath S k x y) : tableAt S mem' y k = some t := by
  rw [hE.tableAt_of_le hk le_rfl, ← tableAt_congr hs, ht]

end

section
variable (hE : EditAt S mem mem' x k I) (hk : k < S.depth) (ht : tableAt S mem x k = some t)
include hE hk ht

/-- When no edited cell points to a table, the tables that are left are old ones outside the
edited cells. -/
theorem EditAt.tableAt_prune (hnone : ∀ i, I i → (S.view k (mem' (t + i))).next = none)
    (hj : j ≤ S.depth) (hu : tableAt S mem' y j = some u) :
    tableAt S mem y j = some u ∧ (k < j → ¬ Hits S x k I y) := by
  by_cases hy : Hits S x k I y
  · have hjk : j ≤ k := by
      by_contra hlt
      obtain ⟨b, hb⟩ := TableTree.tableAt_of_le hu (show k + 1 ≤ j by omega)
      rw [tableAt_next (hE.table_same hk ht hy.1), hnone _ hy.2] at hb
      cases hb
    exact ⟨by rw [← hE.tableAt_of_le hk hjk, hu], fun hlt => absurd hlt (by omega)⟩
  · exact ⟨by rw [← (hE.miss hy).1 j hj, hu], fun _ => hy⟩

theorem Tree.prune (hT : Tree S P mem) (hnone : ∀ i, I i → (S.view k (mem' (t + i))).next = none)
    (hP : ∀ y j u, j < S.depth → tableAt S mem y j = some u → (k < j → ¬ Hits S x k I y) → P' u) : Tree S P' mem' := by
  constructor
  · intro y j u hj hu
    obtain ⟨hu', hmiss⟩ := hE.tableAt_prune hk ht hnone (le_of_lt hj) hu
    exact hP y j u hj hu' hmiss
  · intro y z j l u hj hl hu hu'
    obtain ⟨h₁, -⟩ := hE.tableAt_prune hk ht hnone (le_of_lt hj) hu
    obtain ⟨h₂, -⟩ := hE.tableAt_prune hk ht hnone (le_of_lt hl) hu'
    exact hT.unique y z j l u hj hl h₁ h₂

/-- When the one edited cell points to a fresh table without tables below it, the tables of the
new tree are the fresh one and old ones outside the edited cell. -/
theorem EditAt.tableAt_graft {i₀ : Nat} (hI : ∀ i, I i ↔ i = i₀) (hb : S.view k (mem' (t + i₀)) = .table b)
    (hleaf : ∀ i < S.width, (S.view (k + 1) (mem' (b + i))).next = none)
    (hj : j ≤ S.depth) (hu : tableAt S mem' y j = some u) : tableAt S mem y j = some u ∧ (k < j → ¬ Hits S x k I y) ∨
      j = k + 1 ∧ Hits S x k I y ∧ u = b := by
  by_cases hy : Hits S x k I y
  · have hkt := hE.table_same hk ht hy.1
    have hkb : tableAt S mem' y (k + 1) = some b := by
      rw [tableAt_next hkt, (hI _).mp hy.2, hb]
      rfl
    rcases Nat.lt_trichotomy j (k + 1) with hlt | rfl | hgt
    · exact .inl ⟨by rw [← hE.tableAt_of_le hk (by omega), hu], fun h => absurd h (by omega)⟩
    · rw [hkb] at hu
      exact .inr ⟨rfl, hy, (some.inj hu).symm⟩
    · obtain ⟨c, hc⟩ := TableTree.tableAt_of_le hu (show k + 1 + 1 ≤ j by omega)
      rw [tableAt_next hkb, hleaf _ (S.idx_lt _ _)] at hc
      cases hc
  · exact .inl ⟨by rw [← (hE.miss hy).1 j hj, hu], fun _ => hy⟩

theorem Tree.graft (hT : Tree S P mem) {i₀ : Nat} (hI : ∀ i, I i ↔ i = i₀) (hb : S.view k (mem' (t + i₀)) = .table b)
    (hfresh : ∀ y j, j < S.depth → tableAt S mem y j ≠ some b)
    (hleaf : ∀ i < S.width, (S.view (k + 1) (mem' (b + i))).next = none)
    (hP : ∀ y j u, j < S.depth → tableAt S mem y j = some u → (k < j → ¬ Hits S x k I y) → P' u)
    (hPb : P' b) : Tree S P' mem' := by
  constructor
  · intro y j u hj hu
    rcases hE.tableAt_graft hk ht hI hb hleaf (le_of_lt hj) hu with ⟨hu', hmiss⟩ | ⟨-, -, rfl⟩
    · exact hP y j u hj hu' hmiss
    · exact hPb
  · intro y z j l u hj hl hu hu'
    rcases hE.tableAt_graft hk ht hI hb hleaf (le_of_lt hj) hu with ⟨h₁, -⟩ | ⟨rfl, hy, rfl⟩
    · rcases hE.tableAt_graft hk ht hI hb hleaf (le_of_lt hl) hu' with ⟨h₂, -⟩ | ⟨-, -, rfl⟩
      · exact hT.unique y z j l u hj hl h₁ h₂
      · exact absurd h₁ (hfresh y j hj)
    · rcases hE.tableAt_graft hk ht hI hb hleaf (le_of_lt hl) hu' with ⟨h₂, -⟩ | ⟨rfl, hz, -⟩
      · exact absurd h₂ (hfresh z l hl)
      · refine ⟨rfl, samePath_succ.mpr ⟨hy.1.symm.trans hz.1, ?_⟩⟩
        rw [(hI _).mp hy.2, (hI _).mp hz.2]

end

section
variable (hsurj : ∀ x k i, 0 < k → k < S.depth → i < S.width → ∃ y, SamePath S k x y ∧ S.idx k y = i) (hk : 0 < k)
  (hr : k + r = S.depth) (ht : tableAt S mem x k = some t)
include hsurj hk hr ht

/-- The tables below a table of the tree hang on the paths that go through it. -/
theorem mem_below (hb : b ∈ below S mem r k t) :
    ∃ y j, k ≤ j ∧ j < S.depth ∧ SamePath S k x y ∧ tableAt S mem y j = some b := by
  induction r generalizing k t x with
  | zero => simp [below] at hb
  | succ r ih =>
    cases r with
    | zero =>
      rw [below, mem_singleton] at hb
      subst hb
      exact ⟨x, k, le_rfl, by omega, SamePath.refl k x, ht⟩
    | succ r =>
      rw [below, mem_cons, mem_flatMap] at hb
      rcases hb with rfl | ⟨i, hi, hb⟩
      · exact ⟨x, k, le_rfl, by omega, SamePath.refl k x, ht⟩
      · obtain ⟨y, hxy, hyi⟩ := hsurj x k i hk (by omega) (mem_range.mp hi)
        cases hnext : (S.view k (mem (t + i))).next with
        | none => simp [hnext] at hb
        | some c =>
          rw [hnext] at hb
          have hc : tableAt S mem y (k + 1) = some c := by
            rw [tableAt_next (by rw [← tableAt_congr hxy, ht]), hyi, hnext]
          obtain ⟨z, j, hkj, hj, hyz, hz⟩ := ih (succ_pos k) (by omega) hc hb
          exact ⟨z, j, by omega, hj, hxy.trans (hyz.mono (le_succ k)), hz⟩

/-- The tables below a table are read from the cells on the paths that go through it. -/
theorem below_congr (h : ∀ y j u i, k ≤ j → j < S.depth → SamePath S k x y → tableAt S mem y j = some u → i < S.width →
      S.view j (mem' (u + i)) = S.view j (mem (u + i))) : below S mem' r k t = below S mem r k t := by
  induction r generalizing k t x with
  | zero => rfl
  | succ r ih =>
    cases r with
    | zero => rfl
    | succ r =>
      refine congrArg (fun l => t :: flatten l) (map_congr_left fun i hi => ?_)
      have hi' : i < S.width := mem_range.mp hi
      rw [h x k t i le_rfl (by omega) (SamePath.refl k x) ht hi']
      cases hnext : (S.view k (mem (t + i))).next with
      | none => rfl
      | some c =>
        obtain ⟨y, hxy, hyi⟩ := hsurj x k i hk (by omega) hi'
        have hc : tableAt S mem y (k + 1) = some c := by
          rw [tableAt_next (by rw [← tableAt_congr hxy, ht]), hyi, hnext]
        exact ih (succ_pos k) (by omega) hc fun z j u i' hkj hj hyz hu hi' =>
          h z j u i' (by omega) hj (hxy.trans (hyz.mono (le_succ k))) hu hi'

end

end TableTree
