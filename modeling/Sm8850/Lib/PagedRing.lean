import Sm8850.Lib.Memory
import Mathlib.Data.Nat.ModEq

/-! Positions in a ring of `n` pages with `d` cells each. A cursor that has used up its page
stays at the page's end until it moves on, so only the start is ever at offset zero. -/
namespace PagedRing
open List Nat Function

open Memory (peek)

variable {n d a b k q m : Nat}

/-- The page of a cursor that has passed `a` cells. -/
def page (n d a : Nat) : Nat := (a - 1) / d % n

/-- The offset of that cursor in its page. -/
def offset (d a : Nat) : Nat := if a = 0 then 0 else (a - 1) % d + 1

/-- The page and offset at which cell `a` is stored. -/
def cell (n d a : Nat) : Nat × Nat := (a / d % n, a % d)

def next (n p : Nat) : Nat := if p = n - 1 then 0 else p + 1

theorem div_mod_of_lt (hm : m < d) : (d * q + m) / d = q ∧ (d * q + m) % d = m := by
  have hd : 0 < d := by omega
  constructor
  · rw [mul_add_div hd, div_eq_of_lt hm, add_zero]
  · rw [mul_add_mod, mod_eq_of_lt hm]

theorem succ_mod (hn : 0 < n) : (q + 1) % n = next n (q % n) := by
  have hlt : q % n < n := mod_lt q hn
  unfold next
  rw [add_mod_eq_add_mod_right 1 (mod_mod q n).symm]
  split
  · rename_i he
    have hn' : q % n + 1 = n := by omega
    rw [hn', mod_self]
  · rw [mod_eq_of_lt (by omega)]

@[simp] theorem page_zero : page n d 0 = 0 := by simp [page]

@[simp] theorem offset_zero : offset d 0 = 0 := rfl

theorem offset_pos (ha : 0 < a) : 0 < offset d a := by
  simp [offset, ne_of_gt ha]

theorem offset_le (hd : 0 < d) : offset d a ≤ d := by
  have hlt := mod_lt (a - 1) hd
  unfold offset
  split <;> omega

/-- A cursor past the start, by its page's number and its offset. -/
theorem exists_pos (hd : 0 < d) (ha : 0 < a) :
    ∃ q m, m < d ∧ a = d * q + m + 1 ∧ page n d a = q % n ∧ offset d a = m + 1 := by
  refine ⟨(a - 1) / d, (a - 1) % d, mod_lt _ hd, ?_, rfl, ?_⟩
  · have hdm := div_add_mod (a - 1) d
    omega
  · simp [offset, ne_of_gt ha]

/-- Numbers of one residue class closer than the modulus are equal. -/
theorem eq_of_mod_eq {x y c : Nat} (h : x % c = y % c) (hx : x < y + c) (hy : y < x + c) : x = y := by
  have hxm := div_add_mod x c
  have hym := div_add_mod y c
  rcases Nat.lt_trichotomy (x / c) (y / c) with hlt | heq | hlt
  · have hmul : c * (x / c + 1) ≤ c * (y / c) := Nat.mul_le_mul_left c hlt
    rw [mul_add, mul_one] at hmul
    omega
  · rw [heq] at hxm
    omega
  · have hmul : c * (y / c + 1) ≤ c * (x / c) := Nat.mul_le_mul_left c hlt
    rw [mul_add, mul_one] at hmul
    omega

/-- The pages and offsets of two cells within one lap of each other tell them apart. -/
theorem cell_inj (h : cell n d a = cell n d b) (hab : a < b + n * d) (hba : b < a + n * d) : a = b := by
  obtain ⟨hq, hm⟩ := Prod.mk.inj h
  have ha := div_add_mod a d
  have hb := div_add_mod b d
  have hquot : a / d = b / d := by
    refine eq_of_mod_eq hq ?_ ?_
    · have hlt : d * (a / d) < d * (b / d + n) := by
        rw [mul_add, mul_comm d n]
        omega
      exact Nat.lt_of_mul_lt_mul_left hlt
    · have hlt : d * (b / d) < d * (a / d + n) := by
        rw [mul_add, mul_comm d n]
        omega
      exact Nat.lt_of_mul_lt_mul_left hlt
  rw [hquot] at ha
  omega

/-- So do those of two cursors. -/
theorem cursor_inj (hp : page n d a = page n d b) (ho : offset d a = offset d b)
    (hab : a < b + n * d) (hba : b < a + n * d) : a = b := by
  rcases Nat.eq_zero_or_pos a with rfl | ha
  · rcases Nat.eq_zero_or_pos b with rfl | hb
    · rfl
    · have hpos : 0 < offset d b := offset_pos hb
      rw [← ho, offset_zero] at hpos
      omega
  · rcases Nat.eq_zero_or_pos b with rfl | hb
    · have hpos : 0 < offset d a := offset_pos ha
      rw [ho, offset_zero] at hpos
      omega
    · have hoff : (a - 1) % d = (b - 1) % d := by
        simp only [offset, ne_of_gt ha, ne_of_gt hb, if_false] at ho
        omega
      have hcell : cell n d (a - 1) = cell n d (b - 1) := Prod.ext hp hoff
      have heq := cell_inj hcell (by omega) (by omega)
      omega

/-- Moving within a page. -/
theorem advance_stay (hd : 0 < d) (h : offset d a + k ≤ d) :
    page n d (a + k) = page n d a ∧ offset d (a + k) = offset d a + k := by
  rcases Nat.eq_zero_or_pos k with rfl | hk
  · simp
  rcases Nat.eq_zero_or_pos a with rfl | ha
  · have hlt : k - 1 < d := by
      omega
    have hoff : offset d k = (k - 1) % d + 1 := by simp [offset, ne_of_gt hk]
    constructor
    · simp [page, div_eq_of_lt hlt]
    · rw [offset_zero, zero_add, hoff, mod_eq_of_lt hlt]
      omega
  · obtain ⟨q, m, _, ha', hp, ho⟩ := exists_pos (n := n) hd ha
    have hsum : a + k - 1 = d * q + (m + k) := by omega
    have hdm := div_mod_of_lt (q := q) (show m + k < d by omega)
    have hoff : offset d (a + k) = (a + k - 1) % d + 1 := by
      simp [offset, ne_of_gt ha]
    constructor
    · rw [hp, page, hsum, hdm.1]
    · rw [hoff, hsum, hdm.2]
      omega

/-- Moving on to the next page. -/
theorem advance_wrap (hn : 0 < n) (hd : 0 < d) (hk : k ≤ d) (h : d < offset d a + k) :
    page n d (a + k) = next n (page n d a) ∧ offset d (a + k) = offset d a + k - d := by
  rcases Nat.eq_zero_or_pos a with rfl | ha
  · rw [offset_zero] at h
    omega
  · obtain ⟨q, m, hm, ha', hp, ho⟩ := exists_pos (n := n) hd ha
    have hmul : d * (q + 1) = d * q + d := by rw [mul_add, mul_one]
    have hsum : a + k - 1 = d * (q + 1) + (m + k - d) := by omega
    have hdm := div_mod_of_lt (q := q + 1) (show m + k - d < d by omega)
    have hoff : offset d (a + k) = (a + k - 1) % d + 1 := by
      simp [offset, ne_of_gt ha]
    constructor
    · rw [hp, page, hsum, hdm.1, succ_mod hn]
    · rw [hoff, hsum, hdm.2]
      omega

/-- The cells ahead of a cursor on its own page. -/
theorem cell_stay (h : offset d a + k < d) : cell n d (a + k) = (page n d a, offset d a + k) := by
  have hd : 0 < d := by omega
  rcases Nat.eq_zero_or_pos a with rfl | ha
  · rw [offset_zero, zero_add] at h
    simp [cell, div_eq_of_lt h, mod_eq_of_lt h]
  · obtain ⟨q, m, _, ha', hp, ho⟩ := exists_pos (n := n) hd ha
    have hsum : a + k = d * q + (m + 1 + k) := by omega
    have hdm := div_mod_of_lt (q := q) (show m + 1 + k < d by omega)
    rw [hp, ho, cell, hsum, hdm.1, hdm.2]

/-- The cells ahead of a cursor on the next page. -/
theorem cell_wrap (hn : 0 < n) (hk : k < d) (h : d ≤ offset d a + k) :
    cell n d (a + k) = (next n (page n d a), offset d a + k - d) := by
  rcases Nat.eq_zero_or_pos a with rfl | ha
  · rw [offset_zero] at h
    omega
  · have hd : 0 < d := by omega
    obtain ⟨q, m, hm, ha', hp, ho⟩ := exists_pos (n := n) hd ha
    have hmul : d * (q + 1) = d * q + d := by rw [mul_add, mul_one]
    have hsum : a + k = d * (q + 1) + (m + 1 + k - d) := by omega
    have hdm := div_mod_of_lt (q := q + 1) (show m + 1 + k - d < d by omega)
    rw [hp, ho, cell, hsum, hdm.1, hdm.2, succ_mod hn]

/-- A cursor as a program keeps it: its page, and one offset for every page. -/
structure Cursor where
  ptr : Nat
  offs : Nat → Nat

namespace Cursor
variable {c c' : Cursor} {α : Type} {len : Nat}

/-- The cursor has passed `a` cells; the offsets of the pages it is not on are zero. -/
structure At (n d a : Nat) (c : Cursor) : Prop where
  ptr : c.ptr = page n d a
  offs : ∀ p, c.offs p = if p = c.ptr then offset d a else 0

/-- How many of the next `len` cells are on the cursor's page. -/
def room (d len : Nat) (c : Cursor) : Nat := min (d - c.offs c.ptr) len

/-- The offset of the page the cursor leaves is reset. -/
def turn (n : Nat) (c : Cursor) : Cursor := ⟨next n c.ptr, update c.offs c.ptr 0⟩

def move (len : Nat) (c : Cursor) : Cursor :=
  ⟨c.ptr, update c.offs c.ptr (c.offs c.ptr + len)⟩

def advance (n d len : Nat) (c : Cursor) : Cursor :=
  if c.room d len ≠ len then (c.turn n).move (len - c.room d len) else c.move len

/-- The next `len` cells. -/
def fetch (n d len : Nat) (mem : Nat → Nat → α) (c : Cursor) : List α :=
  if c.room d len ≠ len then
    peek (mem c.ptr) (c.offs c.ptr) (c.room d len) ++
      peek (mem (c.turn n).ptr) ((c.turn n).offs (c.turn n).ptr) (len - c.room d len)
  else peek (mem c.ptr) (c.offs c.ptr) len

theorem At.offs_ptr (h : c.At n d a) : c.offs c.ptr = offset d a := by
  rw [h.offs, if_pos rfl]

theorem At.offs_turn (h : c.At n d a) (p : Nat) : (c.turn n).offs p = 0 := by
  simp only [turn, update_apply]
  split
  · rfl
  · rename_i hp
    rw [h.offs, if_neg hp]

theorem at_zero (n d : Nat) (offs : Nat → Nat) (h : ∀ p, offs p = 0) : At n d 0 ⟨0, offs⟩ where
  ptr := page_zero.symm
  offs := by simp [h]

theorem At.advance (h : c.At n d a) (hn : 0 < n) (hd : 0 < d) (hlen : len ≤ d) :
    (c.advance n d len).At n d (a + len) := by
  have ho := h.offs_ptr
  have hle : offset d a ≤ d := offset_le hd
  unfold Cursor.advance room
  by_cases hfit : offset d a + len ≤ d
  · obtain ⟨hp, hoff⟩ := advance_stay (n := n) hd hfit
    rw [if_neg (by omega)]
    refine ⟨h.ptr.trans hp.symm, ?_⟩
    intro p
    by_cases hpp : p = c.ptr
    · simp [move, hpp, ho, hoff]
    · simp [move, hpp, h.offs p]
  · obtain ⟨hp, hoff⟩ := advance_wrap hn hd hlen (show d < offset d a + len by omega)
    rw [if_pos (by omega)]
    refine ⟨?_, ?_⟩
    · rw [hp, ← h.ptr]
      rfl
    · intro p
      by_cases hpp : p = (c.turn n).ptr
      · simp only [move, hpp, update_self, h.offs_turn, if_true, hoff]
        omega
      · simp [move, hpp, h.offs_turn]

/-- Reading across a page's end yields the next cells in order. -/
theorem At.fetch (h : c.At n d a) (hn : 0 < n) (hd : 0 < d) (hlen : len ≤ d) (mem : Nat → Nat → α) :
    c.fetch n d len mem = (range len).map (fun i => mem (cell n d (a + i)).1 (cell n d (a + i)).2) := by
  have ho := h.offs_ptr
  have hle : offset d a ≤ d := offset_le hd
  unfold Cursor.fetch
  by_cases hfit : c.room d len = len
  · rw [if_neg (not_not.mpr hfit), peek]
    refine map_congr_left (fun i hi => ?_)
    have hi' : i < len := mem_range.mp hi
    rw [room, ho] at hfit
    rw [ho, h.ptr, cell_stay (show offset d a + i < d by omega)]
  · rw [if_pos hfit]
    have hroom : c.room d len = d - offset d a := by
      rw [room, ho] at hfit ⊢
      omega
    rw [room, ho] at hfit
    rw [hroom, h.offs_turn]
    obtain ⟨rest, hrest⟩ : ∃ rest, len = (d - offset d a) + rest := ⟨len - (d - offset d a), by omega⟩
    rw [hrest, Nat.add_sub_cancel_left, range_add, map_append, map_map]
    congr 1
    · refine map_congr_left (fun i hi => ?_)
      have hi' : i < d - offset d a := mem_range.mp hi
      rw [ho, h.ptr, cell_stay (show offset d a + i < d by omega)]
    · refine map_congr_left (fun i hi => ?_)
      have hi' : i < rest := mem_range.mp hi
      simp only [comp]
      rw [cell_wrap hn (show d - offset d a + i < d by omega) (by omega), turn, h.ptr]
      congr 1
      omega

/-- Two cursors within one lap of each other stand at the same place only if they have
passed the same cells. -/
theorem At.same_iff (h : c.At n d a) (h' : c'.At n d b) (hab : a < b + n * d)
    (hba : b < a + n * d) : (c.ptr = c'.ptr ∧ c.offs c.ptr = c'.offs c'.ptr) ↔ a = b := by
  rw [h.offs_ptr, h'.offs_ptr, h.ptr, h'.ptr]
  constructor
  · rintro ⟨hp, ho⟩
    exact cursor_inj hp ho hab hba
  · rintro rfl
    exact ⟨rfl, rfl⟩

end Cursor

end PagedRing
