import Mathlib.Data.BitVec
import Sm8850.Lib.Memory

/-! A stream of items through a ring of cells. Positions count from the start of the stream; the cell
of a position is the position modulo the length of the ring. -/
namespace Stream
open Nat Function Memory

variable {α : Type} {len base lo hi i j n k : Nat} {mem : Nat → α} {items more : List α}

/-- From position `lo` up to position `hi` the ring holds the items of the stream. -/
def Holds (len base : Nat) (mem : Nat → α) (items : List α) (lo hi : Nat) : Prop :=
  ∀ i b, lo ≤ i → i < hi → items[i]? = some b → mem ((base + i) % len) = b

theorem holds_empty (h : hi ≤ lo) : Holds len base mem items lo hi := by
  intro i b h₁ h₂ _
  omega

theorem Holds.mono {lo' hi' : Nat} (h : Holds len base mem items lo hi) (hlo : lo ≤ lo') (hhi : hi' ≤ hi) :
    Holds len base mem items lo' hi' := by
  intro i b h₁ h₂ hb
  exact h i b (by omega) (by omega) hb

/-- What is added to the stream behind the held positions does not matter. -/
theorem Holds.append (h : Holds len base mem items lo hi) (hhi : hi ≤ items.length) :
    Holds len base mem (items ++ more) lo hi := by
  intro i b h₁ h₂ hb
  rw [List.getElem?_append_left (by omega)] at hb
  exact h i b h₁ h₂ hb

/-- Two positions less than a round apart are in different cells. -/
theorem cell_injective (hij : i < j) (hlt : j < i + len) : (base + i) % len ≠ (base + j) % len := by
  intro h
  have hmod : (base + j - (base + i)) % len = 0 := sub_mod_eq_zero_of_mod_eq h.symm
  rw [mod_eq_of_lt (by omega)] at hmod
  omega

/-- A store ahead of the held positions, and less than a round ahead, leaves them alone. -/
theorem Holds.store_other {b : α} (h : Holds len base mem items lo hi) (hi' : hi ≤ i) (hlt : i < lo + len) :
    Holds len base (update mem ((base + i) % len) b) items lo hi := by
  intro j c h₁ h₂ hc
  rw [update_of_ne (cell_injective (by omega) (by omega))]
  exact h j c h₁ h₂ hc

/-- A store at the next position. -/
theorem Holds.store {b : α} (h : Holds len base mem items lo hi) (hlt : hi < lo + len) (hb : items[hi]? = some b) :
    Holds len base (update mem ((base + hi) % len) b) items lo (hi + 1) := by
  intro j c h₁ h₂ hc
  rcases lt_or_eq_of_le (le_of_lt_succ h₂) with h₂ | rfl
  · exact h.store_other le_rfl hlt j c h₁ h₂ hc
  · rw [update_self]
    exact Option.some.inj (hb.symm.trans hc)

/-- The cell of a position, moved on without reaching the end of the ring. -/
theorem cell_add {f : Nat} (hf : f = i % len) (hlt : f + k < len) : f + k = (i + k) % len := by
  rw [add_mod, ← hf, mod_eq_of_lt (show k < len by omega), mod_eq_of_lt hlt]

/-- A copy to the next positions, up to the end of the ring at most. -/
theorem Holds.poke {f : Nat} {bs : List α} (h : Holds len base mem items lo hi) (hf : f = (base + hi) % len)
    (hfit : f + bs.length ≤ len) (hroom : hi + bs.length ≤ lo + len) (hbs : ∀ i < bs.length, items[hi + i]? = bs[i]?) :
    Holds len base (poke mem f bs) items lo (hi + bs.length) := by
  intro j c h₁ h₂ hc
  by_cases hj : j < hi
  · rw [poke_outside]
    · exact h j c h₁ hj hc
    · by_contra hin
      push Not at hin
      have hcell := cell_add (k := (base + j) % len - f) hf (by
        omega)
      have hne : (base + j) % len ≠ (base + (hi + ((base + j) % len - f))) % len :=
        cell_injective (by omega) (by omega)
      rw [← add_assoc, ← hcell] at hne
      omega
  · obtain ⟨i, rfl⟩ : ∃ i, j = hi + i := ⟨j - hi, by omega⟩
    have hi' : i < bs.length := by omega
    rw [← add_assoc, ← cell_add hf (by omega), poke_inside hi']
    rw [hbs i hi', List.getElem?_eq_getElem hi'] at hc
    exact Option.some.inj hc

/-- The cells of `n` positions, as a run up to the end of the ring and a run from its start. -/
theorem cell_split {start count second : Nat} (hlen : 0 < len) (hs : start = i % len) (hn : n ≤ len) (hk : k < n)
    (hcount : count = min n (len - start)) (hsecond : count < n → second = 0) :
    (if k < count then start + k else second + (k - count)) = (i + k) % len := by
  have hstart : start < len := hs ▸ mod_lt _ hlen
  rw [add_mod, ← hs, mod_eq_of_lt (show k < len by omega)]
  split
  · rw [mod_eq_of_lt (by omega)]
  · rw [hsecond (by omega), show start + k = len + (0 + (k - count)) by omega, add_mod_left,
      mod_eq_of_lt (by omega)]

/-- Moving an index on, where it may reach the end of the ring but not pass it. -/
theorem index_add {start : Nat} (hs : start = i % len) (hn : start + n ≤ len) :
    (if len ≤ start + n then 0 else start + n) = (i + n) % len := by
  have hmod : (i + n) % len = (start + n) % len := by rw [hs, mod_add_mod]
  rw [hmod]
  split
  · rw [show start + n = len by omega, mod_self]
  · rw [mod_eq_of_lt (by omega)]

/-- The difference of two counters of the same stream, whatever they started from. -/
theorem counter_sub {w : Nat} (c : BitVec w) (h : j ≤ i) (hlt : i - j < 2 ^ w) :
    (c + BitVec.ofNat w i - (c + BitVec.ofNat w j)).toNat = i - j := by
  have hsub : c + BitVec.ofNat w i - (c + BitVec.ofNat w j) = BitVec.ofNat w (i - j) := by
    rw [show i = j + (i - j) by omega, BitVec.ofNat_add, Nat.add_sub_cancel_left, ← BitVec.add_assoc,
      BitVec.add_comm (c + _), BitVec.add_sub_cancel]
  rw [hsub, BitVec.toNat_ofNat, mod_eq_of_lt hlt]

end Stream
