import Mathlib.Data.List.Sort

/-! Sparse arrays: finite maps from indices, iterated in ascending order of the index. -/

/-- An index-sorted association list holds at most one entry for each index. -/
structure XArray (α : Type) where
  entries : List (Nat × α)
  sorted : entries.Pairwise (fun x y => x.1 < y.1)

namespace XArray
open List

variable {α : Type} {x : XArray α} {i j : Nat} {v w : α} {l : List (Nat × α)}

def empty : XArray α := ⟨[], .nil⟩

/-- The value at index `i` of an association list. -/
def find (i : Nat) : List (Nat × α) → Option α
  | [] => none
  | (j, v) :: l => if i = j then some v else find i l

def load (x : XArray α) (i : Nat) : Option α := find i x.entries

/-- Put `v` at index `i` of a sorted list, replacing an entry that is there. -/
def insertEntry (i : Nat) (v : α) : List (Nat × α) → List (Nat × α)
  | [] => [(i, v)]
  | (j, w) :: l =>
    if i < j then (i, v) :: (j, w) :: l
    else if i = j then (i, v) :: l
    else (j, w) :: insertEntry i v l

theorem mem_insertEntry_fst {y : Nat × α} (h : y ∈ insertEntry i v l) : y.1 = i ∨ y ∈ l := by
  induction l with
  | nil => simp_all [insertEntry]
  | cons z l ih =>
    simp only [insertEntry] at h
    split_ifs at h
    · rcases mem_cons.mp h with rfl | h
      · exact .inl rfl
      · exact .inr h
    · rcases mem_cons.mp h with rfl | h
      · exact .inl rfl
      · exact .inr (.tail _ h)
    · rcases mem_cons.mp h with rfl | h
      · exact .inr (.head _ ..)
      · exact (ih h).imp id (mem_cons_of_mem _)

theorem insertEntry_sorted (h : l.Pairwise (fun x y => x.1 < y.1)) :
    (insertEntry i v l).Pairwise (fun x y => x.1 < y.1) := by
  induction l with
  | nil => simp [insertEntry]
  | cons z l ih =>
    obtain ⟨hj, hl⟩ := pairwise_cons.mp h
    simp only [insertEntry]
    split_ifs with hlt heq
    · refine pairwise_cons.mpr ⟨?_, h⟩
      intro y hy
      rcases mem_cons.mp hy with rfl | hy
      · exact hlt
      · exact lt_trans hlt (hj y hy)
    · subst heq
      exact pairwise_cons.mpr ⟨hj, hl⟩
    · refine pairwise_cons.mpr ⟨?_, ih hl⟩
      intro y hy
      rcases mem_insertEntry_fst hy with he | hy
      · simp only [he]; omega
      · exact hj y hy

def store (x : XArray α) (i : Nat) (v : α) : XArray α :=
  ⟨insertEntry i v x.entries, insertEntry_sorted x.sorted⟩

def erase (x : XArray α) (i : Nat) : XArray α :=
  ⟨x.entries.filter (fun e => e.1 ≠ i), x.sorted.filter _⟩

@[simp] theorem load_empty : (empty : XArray α).load i = none := rfl

theorem find_insertEntry : find j (insertEntry i v l) = if j = i then some v else find j l := by
  induction l with
  | nil => rfl
  | cons z l ih =>
    obtain ⟨k, w⟩ := z
    simp only [insertEntry]
    by_cases hlt : i < k
    · simp [hlt, find]
    · by_cases heq : i = k
      · subst heq
        by_cases hj : j = i <;> simp [find, hj]
      · by_cases hj : j = k
        · subst hj
          simp [hlt, heq, find, Ne.symm heq]
        · simp [hlt, heq, find, hj, ih]

@[simp] theorem load_store : (x.store i v).load j = if j = i then some v else x.load j :=
  find_insertEntry

theorem find_filter_ne : find j (l.filter (fun e => e.1 ≠ i)) = if j = i then none else find j l := by
  induction l with
  | nil => simp [find]
  | cons z l ih =>
    obtain ⟨k, w⟩ := z
    by_cases hk : k = i
    · subst hk
      by_cases hj : j = k
      · simpa [find, hj] using ih
      · simpa [find, hj] using ih
    · by_cases hj : j = k
      · subst hj
        simp [find, hk]
      · simpa [find, hk, hj] using ih

@[simp] theorem load_erase : (x.erase i).load j = if j = i then none else x.load j :=
  find_filter_ne

theorem find_eq_some_iff (h : l.Pairwise (fun x y => x.1 < y.1)) : find i l = some v ↔ (i, v) ∈ l := by
  induction l with
  | nil => simp [find]
  | cons z l ih =>
    obtain ⟨k, w⟩ := z
    obtain ⟨hk, hl⟩ := pairwise_cons.mp h
    by_cases hi : i = k
    · subst hi
      have hn : (i, v) ∉ l := fun hm => lt_irrefl i (hk (i, v) hm)
      simp [find, hn, eq_comm]
    · simp [find, hi, ih hl]

/-- The entries are exactly what loads return. -/
theorem mem_entries : (i, v) ∈ x.entries ↔ x.load i = some v :=
  (find_eq_some_iff x.sorted).symm

end XArray
