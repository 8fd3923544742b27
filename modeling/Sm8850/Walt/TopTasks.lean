import Mathlib.Data.List.Basic
import Mathlib.Data.List.Count
import Mathlib.Order.MinMax

/-! The top-task tables of kernel/sched/walt/walt.c: for each of the two tracked windows of a
runqueue, how many tasks have a load of each index, which indices are used, and the largest one. -/
namespace Sm8850.Walt
open List Function Option

def numLoadIndices : Nat := 1000

/-- `load_to_index`. -/
def loadToIndex (granule load : Nat) : Nat := min (load / granule) (numLoadIndices - 1)

/-- `find_next_bit`: the first set bit from `offset` on, or `size`. -/
def findNextBit (bits : Nat → Bool) (size offset : Nat) : Nat :=
  ((range' offset (size - offset)).find? bits).getD size

def getTopIndex (bits : Nat → Bool) (oldTop : Nat) : Nat :=
  let index := findNextBit bits numLoadIndices oldTop
  if index = numLoadIndices then 0 else numLoadIndices - 1 - index

/-- The table of one window with its bitmap, in which index `i` has bit `999 - i`, and its top. A
count is a u8. -/
structure Table where
  count : Nat → Nat
  bits : Nat → Bool
  top : Nat

open Table

namespace Table

def incr (T : Table) (i : Nat) : Table := { T with count := update T.count i ((T.count i + 1) % 256) }

def decr (T : Table) (i : Nat) : Table := { T with count := update T.count i ((T.count i + 255) % 256) }

def setBit (T : Table) (i : Nat) : Table :=
  { T with bits := update T.bits (numLoadIndices - i - 1) true }

def clearBit (T : Table) (i : Nat) : Table :=
  { T with bits := update T.bits (numLoadIndices - i - 1) false }

/-- Raise the top to an index. -/
def raise (T : Table) (i : Nat) : Table := if T.top < i then { T with top := i } else T

/-- A count dropped: its bit goes when the count is zero. -/
def unmark (T : Table) (i : Nat) : Table := if T.count i = 0 then T.clearBit i else T

/-- A count rose: its bit comes when the count is one. -/
def mark (T : Table) (i : Nat) : Table := if T.count i = 1 then T.setBit i else T

/-- One window of `migrate_top_tasks_subtraction`. -/
def subtract (T : Table) (index : Nat) : Table :=
  let T := (T.decr index).unmark index
  if index = T.top ∧ T.count index = 0 then { T with top := getTopIndex T.bits T.top } else T

/-- One window of `migrate_top_tasks_addition`. -/
def add (T : Table) (index : Nat) : Table := ((T.incr index).mark index).raise index

/-- `clear_top_tasks_table` and `clear_top_tasks_bitmap`. -/
def cleared (top : Nat) : Table := ⟨fun _ => 0, fun b => b = numLoadIndices, top⟩

end Table

/-- `struct walt_rq`, as far as the tables and their window need it. -/
structure Wrq where
  windowStart : Nat
  currTable : Bool
  topTasks : Bool → Nat → Nat
  topTasksBitmap : Bool → Nat → Bool
  currTop : Nat
  prevTop : Nat

namespace Wrq

/-- The table of the current window. -/
def curr (w : Wrq) : Table := ⟨w.topTasks w.currTable, w.topTasksBitmap w.currTable, w.currTop⟩

def prev (w : Wrq) : Table := ⟨w.topTasks (!w.currTable), w.topTasksBitmap (!w.currTable), w.prevTop⟩

def setCurr (w : Wrq) (T : Table) : Wrq :=
  { w with
    topTasks := update w.topTasks w.currTable T.count
    topTasksBitmap := update w.topTasksBitmap w.currTable T.bits
    currTop := T.top }

def setPrev (w : Wrq) (T : Table) : Wrq :=
  { w with
    topTasks := update w.topTasks (!w.currTable) T.count
    topTasksBitmap := update w.topTasksBitmap (!w.currTable) T.bits
    prevTop := T.top }

variable {w : Wrq} {T : Table}

@[simp] theorem setCurr_curr : (w.setCurr T).curr = T := by simp [setCurr, curr]
@[simp] theorem setPrev_prev : (w.setPrev T).prev = T := by simp [setPrev, prev]
@[simp] theorem setCurr_prev : (w.setCurr T).prev = w.prev := by
  simp [setCurr, prev, update_of_ne]

@[simp] theorem setPrev_curr : (w.setPrev T).curr = w.curr := by
  simp [setPrev, curr, update_of_ne]

end Wrq

/-- `struct walt_task_struct`, as far as the tables need it. -/
structure Task where
  markStart : Nat
  windowStart : Nat
  currWindow : Nat
  prevWindow : Nat
  deriving DecidableEq, Repr

def migrateTopTasksSubtraction (granule : Nat) (p : Task) (w : Wrq) : Wrq :=
  let w := if p.currWindow ≠ 0 then w.setCurr (w.curr.subtract (loadToIndex granule p.currWindow)) else w
  if p.prevWindow ≠ 0 then w.setPrev (w.prev.subtract (loadToIndex granule p.prevWindow)) else w

def migrateTopTasksAddition (granule : Nat) (p : Task) (w : Wrq) : Wrq :=
  let w := if p.currWindow ≠ 0 then w.setCurr (w.curr.add (loadToIndex granule p.currWindow)) else w
  if p.prevWindow ≠ 0 then w.setPrev (w.prev.add (loadToIndex granule p.prevWindow)) else w

/-- The load of a task changed within the window. -/
def Table.reload (T : Table) (old new oldIndex newIndex : Nat) : Table :=
  let zeroIndexUpdate := old = 0 ∧ new ≠ 0
  let T :=
    if oldIndex ≠ newIndex ∨ zeroIndexUpdate then
      let T := if old ≠ 0 then T.decr oldIndex else T
      let T := if new ≠ 0 then T.incr newIndex else T
      T.raise newIndex
    else T
  (T.unmark oldIndex).mark newIndex

/-- The window of a task ended, and a whole window has passed since its last update. -/
def Table.fullWindow (T : Table) (prevWindow updateIndex : Nat) : Table :=
  let T := if prevWindow ≠ 0 then { T.incr updateIndex with top := updateIndex } else T
  T.mark updateIndex

/-- The window of a task ended within a window of its last update. -/
def Table.partWindow (T : Table) (old prevWindow oldIndex updateIndex : Nat) : Table :=
  let zeroIndexUpdate := old = 0 ∧ prevWindow ≠ 0
  if oldIndex ≠ updateIndex ∨ zeroIndexUpdate then
    let T := if old ≠ 0 then T.decr oldIndex else T
    let T := (T.incr updateIndex).raise updateIndex
    (T.unmark oldIndex).mark updateIndex
  else T

/-- `update_top_tasks`, after the windows of `p` have changed. -/
def updateTopTasks (granule : Nat) (p : Task) (w : Wrq) (oldCurrWindow : Nat) (newWindow fullWindow : Bool) : Wrq :=
  if oldCurrWindow = p.currWindow ∧ !newWindow then w
  else
    let oldIndex := loadToIndex granule oldCurrWindow
    let newIndex := loadToIndex granule p.currWindow
    if !newWindow then w.setCurr (w.curr.reload oldCurrWindow p.currWindow oldIndex newIndex)
    else
      let updateIndex := loadToIndex granule p.prevWindow
      let w := w.setPrev (if fullWindow then w.prev.fullWindow p.prevWindow updateIndex
        else w.prev.partWindow oldCurrWindow p.prevWindow oldIndex updateIndex)
      if p.currWindow ≠ 0 then w.setCurr (w.curr.add newIndex) else w

def rolloverTopTasks (w : Wrq) (fullWindow : Bool) : Wrq :=
  let currTable := w.currTable
  let prevTable := !currTable
  let clear := fun (w : Wrq) b => { w with
    topTasks := update w.topTasks b (Table.cleared 0).count
    topTasksBitmap := update w.topTasksBitmap b (Table.cleared 0).bits }
  let currTop := if fullWindow then 0 else w.currTop
  let w := clear w prevTable
  let w := if fullWindow then clear w currTable else w
  { w with currTable := prevTable, prevTop := currTop, currTop := 0 }

theorem rolloverTopTasks_curr (w : Wrq) (fullWindow : Bool) : (rolloverTopTasks w fullWindow).curr = cleared 0 := by
  cases fullWindow <;> simp [rolloverTopTasks, Wrq.curr, cleared]

theorem rolloverTopTasks_prev (w : Wrq) (fullWindow : Bool) :
    (rolloverTopTasks w fullWindow).prev = if fullWindow then cleared 0 else w.curr := by
  cases fullWindow <;> simp [rolloverTopTasks, Wrq.prev, Wrq.curr, cleared]

/-! ### One table -/

theorem loadToIndex_lt (granule load : Nat) : loadToIndex granule load < numLoadIndices := by
  unfold loadToIndex numLoadIndices
  omega

theorem loadToIndex_mono {granule a b : Nat} (h : a ≤ b) : loadToIndex granule a ≤ loadToIndex granule b :=
  min_le_min (Nat.div_le_div_right h) le_rfl

/-- `top` is the largest index in use, or zero when none is. -/
def IsTop (n : Nat → Nat) (top : Nat) : Prop :=
  (∀ i < numLoadIndices, n i ≠ 0 → i ≤ top) ∧ (top < numLoadIndices ∧ n top ≠ 0 ∨
    top = 0 ∧ ∀ i < numLoadIndices, n i = 0)

/-- The table holds the numbers `n`: no count has wrapped, the bits are those of the indices in
use, and the top is the largest of them. -/
structure Exact (T : Table) (n : Nat → Nat) : Prop where
  count : ∀ i < numLoadIndices, T.count i = n i
  fits : ∀ i < numLoadIndices, n i < 256
  bits : ∀ i < numLoadIndices, T.bits (numLoadIndices - 1 - i) = true ↔ T.count i ≠ 0
  top : IsTop n T.top

/-- The numbers with one more task at an entry. -/
def plus (n : Nat → Nat) (entry : Option Nat) (i : Nat) : Nat := n i + if entry = some i then 1 else 0

@[simp] theorem plus_none (n : Nat → Nat) : plus n none = n := by
  funext i
  simp [plus]

theorem plus_self (n : Nat → Nat) (i : Nat) : plus n (some i) i = n i + 1 := by simp [plus]

theorem plus_of_ne (n : Nat → Nat) {i j : Nat} (h : i ≠ j) : plus n (some j) i = n i := by
  have : j ≠ i := Ne.symm h
  simp [plus, this]

section
variable {T : Table} {n : Nat → Nat} {i j old new : Nat}

theorem Table.incr_self : (T.incr i).count i = (T.count i + 1) % 256 := by simp [incr]
theorem Table.decr_self : (T.decr i).count i = (T.count i + 255) % 256 := by simp [decr]

theorem Table.incr_of_ne (h : j ≠ i) : (T.incr i).count j = T.count j := by simp [incr, h]
theorem Table.decr_of_ne (h : j ≠ i) : (T.decr i).count j = T.count j := by simp [decr, h]

@[simp] theorem Table.raise_count : (T.raise i).count = T.count := by
  unfold raise
  split <;> rfl

@[simp] theorem Table.raise_bits : (T.raise i).bits = T.bits := by
  unfold raise
  split <;> rfl

@[simp] theorem Table.mark_count : (T.mark i).count = T.count := by
  unfold Table.mark
  split <;> rfl

@[simp] theorem Table.mark_top : (T.mark i).top = T.top := by
  unfold Table.mark
  split <;> rfl

@[simp] theorem Table.unmark_count : (T.unmark i).count = T.count := by
  unfold Table.unmark
  split <;> rfl

@[simp] theorem Table.unmark_top : (T.unmark i).top = T.top := by
  unfold Table.unmark
  split <;> rfl

theorem Table.raise_top : (T.raise i).top = max T.top i := by
  unfold raise
  split
  · next h => exact (max_eq_right (le_of_lt h)).symm
  · next h => exact (max_eq_left (Nat.le_of_not_lt h)).symm

/-! ### The bitmap -/

/-- The bits are right but for the index `z`, which may have become unused, and the index `o`, at
which the first task may have come. -/
def BitsBut (T : Table) (z o : Option Nat) : Prop := ∀ i < numLoadIndices,
  (T.count i = 0 → T.bits (numLoadIndices - 1 - i) = false ∨ z = some i) ∧
  (T.count i ≠ 0 → T.bits (numLoadIndices - 1 - i) = true ∨ o = some i ∧ T.count i = 1)

theorem bitsBut_none : BitsBut T none none ↔
    ∀ i < numLoadIndices, T.bits (numLoadIndices - 1 - i) ↔ T.count i ≠ 0 := by
  refine forall₂_congr fun i _ => ?_
  cases T.bits (numLoadIndices - 1 - i) <;> simp

theorem position_ne (hi : i < numLoadIndices) (hj : j < numLoadIndices) (h : i ≠ j) :
    numLoadIndices - 1 - i ≠ numLoadIndices - j - 1 := by omega

theorem BitsBut.unmark {o : Option Nat} (hj : j < numLoadIndices) (h : BitsBut T (some j) o) :
    BitsBut (T.unmark j) none o := by
  intro i hi
  obtain ⟨hz, ho⟩ := h i hi
  rw [unmark_count]
  unfold Table.unmark
  by_cases hc : T.count j = 0
  · rw [if_pos hc]
    by_cases hij : i = j
    · subst hij
      refine ⟨fun _ => .inl ?_, fun h => absurd hc h⟩
      have : numLoadIndices - 1 - i = numLoadIndices - i - 1 := by omega
      simp [clearBit, this]
    · simp only [clearBit, update_of_ne (position_ne hi hj hij)]
      refine ⟨fun h => .inl ((hz h).resolve_right ?_), ho⟩
      intro h
      exact hij (some.inj h).symm
  · rw [if_neg hc]
    refine ⟨fun h => .inl ((hz h).resolve_right ?_), ho⟩
    rintro h'
    exact hc (some.inj h' ▸ h)

theorem BitsBut.mark (hj : j < numLoadIndices) (h : BitsBut T none (some j)) : BitsBut (T.mark j) none none := by
  intro i hi
  obtain ⟨hz, ho⟩ := h i hi
  rw [mark_count]
  unfold Table.mark
  by_cases hc : T.count j = 1
  · rw [if_pos hc]
    by_cases hij : i = j
    · subst hij
      have : numLoadIndices - 1 - i = numLoadIndices - i - 1 := by omega
      refine ⟨fun h => by omega, fun _ => .inl ?_⟩
      simp [setBit, this]
    · simp only [setBit, update_of_ne (position_ne hi hj hij)]
      refine ⟨hz, fun h => .inl ((ho h).resolve_right ?_)⟩
      rintro ⟨h, -⟩
      exact hij (some.inj h).symm
  · rw [if_neg hc]
    refine ⟨hz, fun h => .inl ((ho h).resolve_right ?_)⟩
    rintro ⟨h', h''⟩
    exact hc (some.inj h' ▸ h'')

theorem BitsBut.mono {z o z' o' : Option Nat} (h : BitsBut T z o) (hz : ∀ i, z = some i → z' = some i)
    (ho : ∀ i, o = some i → o' = some i) : BitsBut T z' o' := fun i hi =>
  ⟨fun hc => ((h i hi).1 hc).imp_right (hz i), fun hc => ((h i hi).2 hc).imp_right (And.imp_left (ho i))⟩

/-! ### The top -/

/-- With one task more at an index, the top is that index or stays where it is. -/
theorem IsTop.join {m : Nat → Nat} (h : IsTop m i) (hj : j < numLoadIndices) (hle : ∀ k, n k ≠ 0 → m k ≠ 0)
    (hge : ∀ k, j < k → m k ≠ 0 → n k ≠ 0) : IsTop (plus n (some j)) (max i j) := by
  refine ⟨fun k hk hn => ?_, .inl ?_⟩
  · by_cases hkj : k = j
    · exact hkj ▸ le_max_right _ _
    · rw [plus_of_ne n hkj] at hn
      exact (h.1 k hk (hle k hn)).trans (le_max_left _ _)
  · rcases lt_or_ge j i with hlt | hle
    · rw [max_eq_left hlt.le, plus_of_ne n hlt.ne']
      rcases h.2 with ⟨hi, hm⟩ | ⟨rfl, -⟩
      · exact ⟨hi, hge i hlt hm⟩
      · exact absurd hlt (Nat.not_lt_zero _)
    · rw [max_eq_right hle, plus_self]
      exact ⟨hj, Nat.succ_ne_zero _⟩

theorem IsTop.raise (h : IsTop n i) (hj : j < numLoadIndices) : IsTop (plus n (some j)) (max i j) :=
  h.join hj (fun _ => id) fun _ _ => id

theorem IsTop.unique (hi : IsTop n i) (hj : IsTop n j) : i = j := by
  rcases hi.2 with ⟨hlt, hn⟩ | ⟨rfl, hzero⟩ <;> rcases hj.2 with ⟨hlt', hn'⟩ | ⟨rfl, hzero'⟩
  · exact le_antisymm (hj.1 i hlt hn) (hi.1 j hlt' hn')
  · exact absurd (hzero' i hlt) hn
  · exact absurd (hzero j hlt') hn'
  · rfl

/-- Moving a task up moves the top with it. -/
theorem IsTop.move (h : IsTop (plus n (some i)) old) (hj : j < numLoadIndices) (hij : i ≤ j) :
    IsTop (plus n (some j)) (max old j) := by
  refine h.join hj (fun k hn => ?_) fun k hk hn => ?_
  · unfold plus
    omega
  · rwa [plus_of_ne n (by omega)] at hn

/-! ### What the changes of a table do -/

theorem Exact.bitsBut (h : Exact T n) : BitsBut T none none := bitsBut_none.mpr h.bits

theorem exact_of (hcount : ∀ i < numLoadIndices, T.count i = n i) (hfits : ∀ i < numLoadIndices, n i < 256)
    (hbits : BitsBut T none none) (htop : IsTop n T.top) : Exact T n :=
  ⟨hcount, hfits, bitsBut_none.mp hbits, htop⟩

theorem Table.incr_count (hcount : ∀ i < numLoadIndices, T.count i = n i)
    (hfits : ∀ i < numLoadIndices, plus n (some j) i < 256) (hi : i < numLoadIndices) :
    (T.incr j).count i = plus n (some j) i := by
  by_cases hij : i = j
  · subst hij
    have := hfits i hi
    rw [plus_self] at this ⊢
    rw [incr_self, hcount i hi, Nat.mod_eq_of_lt this]
  · rw [incr_of_ne hij, plus_of_ne n hij, hcount i hi]

theorem BitsBut.incr {z : Option Nat} (h : BitsBut T z none) (hcount : ∀ i < numLoadIndices, T.count i = n i)
    (hfits : ∀ i < numLoadIndices, plus n (some j) i < 256) : BitsBut (T.incr j) z (some j) := by
  intro i hi
  obtain ⟨hz, ho⟩ := h i hi
  by_cases hij : i = j
  · subst hij
    rw [incr_count hcount hfits hi, plus_self]
    refine ⟨fun h => by omega, fun _ => ?_⟩
    by_cases hc : T.count i = 0
    · exact .inr ⟨rfl, by rw [← hcount i hi, hc]⟩
    · exact .inl ((ho hc).resolve_right (by simp))
  · rw [incr_of_ne hij]
    exact ⟨hz, fun hc => .inl ((ho hc).resolve_right (by simp))⟩

theorem Exact.decr_count (h : Exact T (plus n (some j))) (hi : i < numLoadIndices) : (T.decr j).count i = n i := by
  by_cases hij : i = j
  · subst hij
    have hlt := h.fits i hi
    rw [plus_self] at hlt
    rw [decr_self, h.count i hi, plus_self]
    omega
  · rw [decr_of_ne hij, h.count i hi, plus_of_ne n hij]

theorem Exact.decr_bits (h : Exact T (plus n (some j))) : BitsBut (T.decr j) (some j) none := by
  intro i hi
  obtain ⟨hz, ho⟩ := h.bitsBut i hi
  by_cases hij : i = j
  · subst hij
    refine ⟨fun _ => .inr rfl, fun _ => .inl ((ho ?_).resolve_right (by simp))⟩
    rw [h.count i hi, plus_self]
    omega
  · rw [decr_of_ne hij]
    exact ⟨fun hc => .inl ((hz hc).resolve_right (by simp)), ho⟩

/-- A task comes to the index `j`, after one may have left the index `i`. -/
theorem exact_arrived (hcount : ∀ i < numLoadIndices, T.count i = n i) (hbits : BitsBut T (some i) none)
    (hi : i < numLoadIndices) (hj : j < numLoadIndices) (hfits : ∀ k < numLoadIndices, plus n (some j) k < 256)
    (htop : IsTop (plus n (some j)) (max T.top j)) :
    Exact ((((T.incr j).raise j).unmark i).mark j) (plus n (some j)) := by
  have hraised : BitsBut ((T.incr j).raise j) (some i) (some j) := by
    intro k hk
    rw [raise_count, raise_bits]
    exact hbits.incr hcount hfits k hk
  refine exact_of (fun k hk => ?_) hfits ((hraised.unmark hi).mark hj) ?_
  · rw [mark_count, unmark_count, raise_count, incr_count hcount hfits hk]
  · rw [mark_top, unmark_top, raise_top]
    exact htop

theorem Exact.add (h : Exact T n) (hj : j < numLoadIndices)
    (hfits : ∀ i < numLoadIndices, plus n (some j) i < 256) : Exact (T.add j) (plus n (some j)) := by
  refine exact_of (fun i hi => ?_) hfits ?_ ?_
  · rw [Table.add, raise_count, mark_count, incr_count h.count hfits hi]
  · have := (h.bitsBut.incr h.count hfits).mark hj
    exact fun i hi => by simpa [Table.add] using this i hi
  · rw [Table.add, raise_top, mark_top]
    exact h.top.raise hj

/-- A task moves up from one index to another. -/
theorem Exact.move (h : Exact T (plus n (some i))) (hi : i < numLoadIndices) (hj : j < numLoadIndices)
    (hij : i < j) (hfits : ∀ k < numLoadIndices, plus n (some j) k < 256) :
    Exact (((((T.decr i).incr j).raise j).unmark i).mark j) (plus n (some j)) :=
  exact_arrived (fun _ => h.decr_count) h.decr_bits hi hj hfits (h.top.move hj hij.le)

section
variable (h : Exact T n) (hi : i < numLoadIndices) (hj : j < numLoadIndices)
include h hi hj

theorem Exact.settled : Exact ((T.unmark i).mark j) n := by
  have hbits : BitsBut T (some i) (some j) := h.bitsBut.mono (by simp) (by simp)
  refine exact_of (fun k hk => ?_) h.fits ((hbits.unmark hi).mark hj) ?_
  · rw [mark_count, unmark_count, h.count k hk]
  · rw [mark_top, unmark_top]
    exact h.top

theorem Exact.arrive (hfits : ∀ k < numLoadIndices, plus n (some j) k < 256) :
    Exact ((((T.incr j).raise j).unmark i).mark j) (plus n (some j)) :=
  exact_arrived h.count (h.bitsBut.mono (by simp) (by simp)) hi hj hfits (h.top.raise hj)

end

/-- Where a load is counted. -/
def entry (granule load : Nat) : Option Nat := if load = 0 then none else some (loadToIndex granule load)

/-- The entry of a load that grew, where the tables are changed for it. -/
def Moves (granule old new : Nat) : Prop :=
  loadToIndex granule old ≠ loadToIndex granule new ∨ old = 0 ∧ new ≠ 0

section
variable {granule : Nat} (hle : old ≤ new)
include hle

theorem entry_eq_of_not_moves (h : ¬ Moves granule old new) : entry granule new = entry granule old := by
  obtain ⟨heq, hzero⟩ := not_or.mp h
  unfold entry
  rw [not_not.mp heq]
  by_cases hold : old = 0
  · rw [if_pos hold, if_pos (by omega)]
  · rw [if_neg hold, if_neg (by omega)]

theorem Moves.ne_zero (h : Moves granule old new) : new ≠ 0 := by
  rintro rfl
  obtain rfl : old = 0 := by omega
  rcases h with h | h
  · exact h rfl
  · exact h.2 rfl

section
variable (h : Exact T (plus n (entry granule old)))
include h

theorem Exact.moved (hmoves : Moves granule old new)
    (hfits : ∀ k < numLoadIndices, plus n (entry granule new) k < 256) :
    Exact ((((((if old ≠ 0 then T.decr (loadToIndex granule old) else T).incr (loadToIndex granule new)).raise
      (loadToIndex granule new)).unmark (loadToIndex granule old)).mark (loadToIndex granule new)))
      (plus n (entry granule new)) := by
  have hi := loadToIndex_lt granule old
  have hj := loadToIndex_lt granule new
  have hnew := hmoves.ne_zero hle
  have hmono : loadToIndex granule old ≤ loadToIndex granule new := loadToIndex_mono hle
  rw [entry, if_neg hnew] at hfits ⊢
  by_cases hold : old = 0
  · rw [entry, if_pos hold, plus_none] at h
    rw [if_neg (not_not.mpr hold)]
    exact h.arrive hi hj hfits
  · rw [entry, if_neg hold] at h
    rw [if_pos hold]
    have hne : loadToIndex granule old ≠ loadToIndex granule new := hmoves.resolve_right (fun h => hold h.1)
    exact h.move hi hj (by omega) hfits

section
variable (hfits : ∀ k < numLoadIndices, plus n (entry granule new) k < 256)
include hfits

theorem Exact.reload :
    Exact (T.reload old new (loadToIndex granule old) (loadToIndex granule new)) (plus n (entry granule new)) := by
  unfold Table.reload
  dsimp only
  split
  · next hmoves =>
    rw [if_pos (Moves.ne_zero hle hmoves)]
    exact h.moved hle hmoves hfits
  · next hmoves =>
    rw [entry_eq_of_not_moves hle hmoves]
    exact h.settled (loadToIndex_lt _ _) (loadToIndex_lt _ _)

theorem Exact.partWindow :
    Exact (T.partWindow old new (loadToIndex granule old) (loadToIndex granule new)) (plus n (entry granule new)) := by
  unfold Table.partWindow
  dsimp only
  split
  · next hmoves => exact h.moved hle hmoves hfits
  · next hmoves =>
    rw [entry_eq_of_not_moves hle hmoves]
    exact h

end

end

end

/-- The top is overwritten by the index of a task that ran for a whole window. -/
theorem Exact.fullWindow (h : Exact T n) (granule new : Nat)
    (hfits : ∀ k < numLoadIndices, plus n (entry granule new) k < 256) :
    Exact (T.fullWindow new (loadToIndex granule new)) (plus n (entry granule new)) ↔
      (new ≠ 0 → T.top ≤ loadToIndex granule new) := by
  have hj := loadToIndex_lt granule new
  unfold Table.fullWindow
  dsimp only
  by_cases hnew : new = 0
  · rw [if_neg (not_not.mpr hnew), entry, if_pos hnew, plus_none]
    refine ⟨fun _ h => absurd hnew h, fun _ => ?_⟩
    refine exact_of (fun k hk => ?_) h.fits (BitsBut.mark hj (h.bitsBut.mono (by simp) (by simp))) ?_
    · rw [mark_count, h.count k hk]
    · rw [mark_top]
      exact h.top
  · rw [if_pos hnew]
    rw [entry, if_neg hnew] at hfits ⊢
    generalize loadToIndex granule new = j at hj hfits ⊢
    constructor
    · -- the old top is still in use
      intro hexact _
      rcases h.top.2 with ⟨htop, hn⟩ | ⟨hzero, -⟩
      · have hused : plus n (some j) T.top ≠ 0 := by
          unfold plus
          omega
        have hle := hexact.top.1 T.top htop hused
        rwa [mark_top] at hle
      · rw [hzero]
        exact Nat.zero_le _
    · intro hle
      refine exact_of (fun k hk => ?_) hfits ((h.bitsBut.incr h.count hfits).mark hj) ?_
      · rw [mark_count]
        exact incr_count h.count hfits hk
      · rw [mark_top]
        have htop := h.top.raise hj
        rwa [max_eq_right (hle hnew)] at htop

/-! ### The search for the next top -/

/-- The search starts at the bit whose number is the old top, so that it only meets the indices up
to `999 - oldTop`. -/
theorem getTopIndex_spec (bits : Nat → Bool) (oldTop : Nat)
    (hbits : ∀ i < numLoadIndices, bits (numLoadIndices - 1 - i) ↔ n i ≠ 0) :
    (getTopIndex bits oldTop + oldTop < numLoadIndices ∧ n (getTopIndex bits oldTop) ≠ 0 ∧
        ∀ i < numLoadIndices, n i ≠ 0 → i + oldTop < numLoadIndices → i ≤ getTopIndex bits oldTop) ∨
      getTopIndex bits oldTop = 0 ∧ ∀ i < numLoadIndices, n i ≠ 0 → ¬ i + oldTop < numLoadIndices := by
  unfold getTopIndex findNextBit
  cases hf : (range' oldTop (numLoadIndices - oldTop)).find? bits with
  | none =>
    rw [find?_eq_none] at hf
    refine .inr ⟨by simp, fun i hi hn hlt => hf (numLoadIndices - 1 - i) ?_ ((hbits i hi).mpr hn)⟩
    rw [mem_range'_1]
    omega
  | some b =>
    rw [find?_range'_eq_some] at hf
    obtain ⟨hb, hmem, hfirst⟩ := hf
    rw [mem_range'_1] at hmem
    have hb' : numLoadIndices - 1 - (numLoadIndices - 1 - b) = b := by omega
    simp only [getD_some, if_neg (show b ≠ numLoadIndices by omega)]
    refine .inl ⟨by omega, ?_, fun i hi hn hlt => ?_⟩
    · exact (hbits _ (by omega)).mp (by rwa [hb'])
    · by_contra hgt
      have hclear := hfirst (numLoadIndices - 1 - i) (by omega) (by omega)
      rw [(hbits i hi).mpr hn] at hclear
      cases hclear

theorem Exact.subtract (h : Exact T (plus n (some j))) (hj : j < numLoadIndices) : Exact (T.subtract j) n ↔
      (j = T.top → n j = 0 → ∀ i < numLoadIndices, n i ≠ 0 → i + T.top < numLoadIndices) := by
  have hfits : ∀ i < numLoadIndices, n i < 256 := by
    intro i hi
    have := h.fits i hi
    unfold plus at this
    omega
  have hcount : ∀ i < numLoadIndices, (T.decr j).count i = n i := fun _ => h.decr_count
  have hbits : BitsBut ((T.decr j).unmark j) none none := h.decr_bits.unmark hj
  have hleft : ∀ i < numLoadIndices, n i ≠ 0 → i ≤ T.top := by
    intro i hi hn
    refine h.top.1 i hi ?_
    unfold plus
    omega
  unfold Table.subtract
  simp only [unmark_top, unmark_count, hcount j hj]
  change Exact (if j = T.top ∧ n j = 0 then _ else _) n ↔ _
  split
  · next hgone =>
    have hspec := getTopIndex_spec ((T.decr j).unmark j).bits T.top (fun i hi => by
      rw [bitsBut_none.mp hbits i hi, unmark_count, hcount i hi])
    constructor
    · intro hexact _ _ i hi hn
      have hle : i ≤ getTopIndex ((T.decr j).unmark j).bits T.top := hexact.top.1 i hi hn
      rcases hspec with ⟨hlt, -, -⟩ | ⟨hzero, -⟩
      · omega
      · rw [hzero] at hle
        omega
    · intro hall
      refine exact_of hcount hfits (fun i hi => ?_) ?_
      · have := hbits i hi
        rwa [unmark_count] at this
      · rcases hspec with ⟨hlt, hn, hmax⟩ | ⟨hzero, hnone⟩
        · exact ⟨fun i hi hn => hmax i hi hn (hall hgone.1 hgone.2 i hi hn),
            .inl ⟨lt_of_le_of_lt (Nat.le_add_right _ _) hlt, hn⟩⟩
        · have hall' : ∀ i < numLoadIndices, n i = 0 := by
            intro i hi
            by_contra hn
            exact hnone i hi hn (hall hgone.1 hgone.2 i hi hn)
          exact ⟨fun i hi hn => absurd (hall' i hi) hn, .inr ⟨hzero, hall'⟩⟩
  · next hstays =>
    refine ⟨fun _ htop hn => absurd ⟨htop, hn⟩ hstays, fun _ => exact_of (fun i hi => ?_) hfits hbits ⟨?_, ?_⟩⟩
    · rw [unmark_count, hcount i hi]
    · rw [unmark_top]
      exact hleft
    · rw [unmark_top]
      change T.top < numLoadIndices ∧ n T.top ≠ 0 ∨ T.top = 0 ∧ ∀ i < numLoadIndices, n i = 0
      rcases h.top.2 with ⟨htop, hn⟩ | ⟨-, hzero⟩
      · refine .inl ⟨htop, ?_⟩
        by_cases htj : T.top = j
        · intro hn
          exact hstays ⟨htj.symm, htj ▸ hn⟩
        · rwa [plus_of_ne n htj] at hn
      · have := hzero j hj
        rw [plus_self] at this
        omega

theorem exact_cleared : Exact (cleared 0) (fun _ => 0) := by
  refine ⟨fun _ _ => rfl, fun _ _ => by omega, fun i hi => ?_, ⟨fun _ _ h => absurd rfl h, .inr ⟨rfl, fun _ _ => rfl⟩⟩⟩
  have : numLoadIndices - 1 - i ≠ numLoadIndices := by omega
  simp [cleared, this]

end

end Sm8850.Walt
