import Mathlib.Data.List.Induction
import Mathlib.Data.Nat.ModEq

/-! A queue kept in a ring of `len` cells: what the memory holds from a position on, and the
stores that add to it. -/
namespace Ring
open List Function Nat

variable {α : Type} {len start i j : Nat} {mem : Nat → α} {xs ys : List (Option α)} {bs cs : List α}
  {st : List (α × Nat)}

/-- Read around the ring from `start` on, the memory holds `cells`. A cell that is `none` may
hold anything. -/
def Holds (len : Nat) (mem : Nat → α) (start : Nat) (cells : List (Option α)) : Prop :=
  ∀ i b, cells[i]? = some (some b) → mem ((start + i) % len) = b

/-- The stores that put `bs` into the ring from `start` on, in the order they are made. -/
def stores (len start : Nat) (bs : List α) : List (α × Nat) :=
  bs.zipIdx.map (fun e => (e.1, (start + e.2) % len))

/-- Memory after stores have been made one after another. -/
def write (mem : Nat → α) (st : List (α × Nat)) : Nat → α :=
  st.foldl (fun mem e => update mem e.2 e.1) mem

theorem position_injective (hi : i < len) (hj : j < len) (h : (start + i) % len = (start + j) % len) : i = j := by
  have hmod : i % len = j % len := ModEq.add_left_cancel' start h
  rwa [mod_eq_of_lt hi, mod_eq_of_lt hj] at hmod

@[simp] theorem holds_nil : Holds len mem start [] := by simp [Holds]

theorem holds_mod : Holds len mem (start % len) xs ↔ Holds len mem start xs := by
  simp [Holds]

theorem holds_append : Holds len mem start (xs ++ ys) ↔
    Holds len mem start xs ∧ Holds len mem (start + xs.length) ys := by
  constructor
  · intro h
    constructor
    · intro i b hb
      have hi : i < xs.length := (List.getElem?_eq_some_iff.mp hb).1
      exact h i b (by rwa [getElem?_append_left hi])
    · intro i b hb
      rw [add_assoc]
      exact h _ b (by rwa [getElem?_append_right (by omega), Nat.add_sub_cancel_left])
  · rintro ⟨hx, hy⟩ i b hb
    by_cases hi : i < xs.length
    · rw [getElem?_append_left hi] at hb
      exact hx i b hb
    · rw [getElem?_append_right (by omega)] at hb
      have := hy _ b hb
      rwa [add_assoc, add_sub_of_le (by omega)] at this

theorem Holds.drop (h : Holds len mem start xs) (n : Nat) (hn : n ≤ xs.length) :
    Holds len mem (start + n) (xs.drop n) := by
  rw [← take_append_drop n xs, holds_append, length_take, min_eq_left hn] at h
  exact h.2

theorem holds_replicate_none (k : Nat) : Holds len mem start (replicate k none) := by
  intro i b hb
  obtain ⟨_, hb⟩ := List.getElem?_eq_some_iff.mp hb
  simp at hb

/-- A store outside the cells leaves them alone. -/
theorem Holds.store {a : Nat} {b : α} (h : Holds len mem start xs) (ha : ∀ i, i < xs.length → (start + i) % len ≠ a) :
    Holds len (update mem a b) start xs := by
  intro i c hc
  have hi : i < xs.length := (List.getElem?_eq_some_iff.mp hc).1
  rw [update_of_ne (ha i hi)]
  exact h i c hc

@[simp] theorem write_nil : write mem [] = mem := rfl

@[simp] theorem write_cons (e : α × Nat) : write mem (e :: st) = write (update mem e.2 e.1) st := rfl

theorem write_append (su : List (α × Nat)) : write mem (st ++ su) = write (write mem st) su :=
  foldl_append

theorem Holds.write (h : Holds len mem start xs) (ha : ∀ e ∈ st, ∀ i, i < xs.length → (start + i) % len ≠ e.2) :
    Holds len (write mem st) start xs := by
  induction st generalizing mem with
  | nil => exact h
  | cons e st ih =>
    exact ih (h.store (ha e (by simp))) (fun f hf => ha f (.tail _ hf))

theorem stores_append : stores len start (bs ++ cs) = stores len start bs ++ stores len (start + bs.length) cs := by
  have hshift : (cs.zipIdx bs.length).map (fun e => (e.1, (start + e.2) % len)) =
      stores len (start + bs.length) cs := by
    rw [zipIdx_eq_map_add, map_map]
    simp only [stores, add_assoc]
    rfl
  rw [stores, zipIdx_append, map_append, zero_add, hshift]
  rfl

theorem stores_mod : stores len (start % len) bs = stores len start bs := by
  simp [stores]

/-- Stores that do not reach the end of the ring are those of a plain copy. -/
theorem stores_eq_zipIdx (h : start + bs.length ≤ len) : stores len start bs = bs.zipIdx start := by
  rw [zipIdx_eq_map_add, stores]
  refine map_congr_left fun e he => ?_
  obtain ⟨hi, _⟩ := mem_zipIdx' he
  rw [mod_eq_of_lt (by omega)]

/-- Stores around the end of the ring are those of two plain copies. -/
theorem stores_eq_copies {k : Nat} (hs : start ≤ len) (h : bs.length ≤ len) (hk : k = min bs.length (len - start)) :
    stores len start bs = (bs.take k).zipIdx start ++ (bs.drop k).zipIdx := by
  have hsplit : stores len start bs =
      stores len start (bs.take k) ++ stores len (start + (bs.take k).length) (bs.drop k) := by
    rw [← stores_append, take_append_drop]
  rw [hsplit, stores_eq_zipIdx (by rw [length_take]; omega)]
  congr 1
  by_cases hall : k = bs.length
  · rw [hall, drop_length]
    rfl
  · rw [length_take, ← stores_mod, show (start + min k bs.length) % len = 0 by
      rw [show start + min k bs.length = len by omega, mod_self]]
    exact stores_eq_zipIdx (by rw [length_drop]; omega)

/-- Reading around the end of the ring is reading two plain ranges. -/
theorem map_range_ring {β : Type} (f : Nat → β) {count k : Nat} (hs : start < len)
    (h : count ≤ len) (hk : k = min count (len - start)) : (range count).map (fun i => f ((start + i) % len)) =
      (range k).map (fun i => f (start + i)) ++ (range (count - k)).map f := by
  have hcount : count = k + (count - k) := by omega
  rw [hcount, range_add, map_append, map_map, Nat.add_sub_cancel_left]
  congr 1
  · refine map_congr_left fun i hi => ?_
    have hi : i < k := mem_range.mp hi
    rw [mod_eq_of_lt (by omega)]
  · refine map_congr_left fun i hi => ?_
    have hi : i < count - k := mem_range.mp hi
    show f ((start + (k + i)) % len) = f i
    rw [show start + (k + i) = i + len by omega, add_mod_right, mod_eq_of_lt (by omega)]

theorem mem_stores {e : α × Nat} (he : e ∈ stores len start bs) : ∃ i, i < bs.length ∧ e.2 = (start + i) % len := by
  obtain ⟨f, hf, rfl⟩ := mem_map.mp he
  exact ⟨f.2, (mem_zipIdx' hf).1, rfl⟩

/-- Once its stores are made, the bytes are in the ring. -/
theorem holds_stores (h : bs.length ≤ len) : Holds len (write mem (stores len start bs)) start (bs.map some) := by
  induction bs using reverseRecOn with
  | nil => simp
  | append_singleton bs b ih =>
    rw [length_append, length_singleton] at h
    rw [stores_append, write_append, map_append, holds_append]
    constructor
    · refine (ih (by omega)).write ?_
      intro e he i hi heq
      obtain ⟨k, hk, hpos⟩ := mem_stores he
      rw [length_map] at hi
      rw [length_singleton] at hk
      have hik : i = bs.length + k := by
        refine position_injective (by omega) (by omega) (heq.trans ?_)
        rw [hpos, add_assoc]
      omega
    · intro i c hc
      obtain ⟨hi, hc⟩ := List.getElem?_eq_some_iff.mp hc
      simp only [length_map, length_singleton, lt_one_iff] at hi
      subst hi
      simpa [stores] using hc

end Ring
