import Mathlib.Algebra.Group.Nat.Defs
import Mathlib.Data.List.Basic

/-! Memory as a function from addresses, copies out of it and into it, and little-endian
words. -/
namespace Memory
open List UInt8 Nat

variable {α : Type} {mem : Nat → α} {bs cs : List α} {off len i k x : Nat}

/-- The `len` cells from `off` on. -/
def peek (mem : Nat → α) (off len : Nat) : List α := (List.range len).map (fun i => mem (off + i))

/-- Copy a list to the cells from `off` on. -/
def poke (mem : Nat → α) (off : Nat) (bs : List α) : Nat → α :=
  fun i => if off ≤ i then (bs[i - off]?).getD (mem i) else mem i

@[simp] theorem length_peek (mem : Nat → α) (off len : Nat) : (peek mem off len).length = len := by
  simp [peek]

@[simp] theorem peek_zero (mem : Nat → α) (off : Nat) : peek mem off 0 = [] := rfl

theorem getElem?_peek (h : i < len) : (peek mem off len)[i]? = some (mem (off + i)) := by
  simp [peek, h]

theorem peek_add (mem : Nat → α) (off len k : Nat) :
    peek mem off (len + k) = peek mem off len ++ peek mem (off + len) k := by
  simp only [peek, range_add, map_append, map_map, Nat.add_assoc]
  rfl

theorem peek_congr {mem' : Nat → α} (h : ∀ i, off ≤ i → i < off + len → mem' i = mem i) :
    peek mem' off len = peek mem off len := by
  refine map_congr_left (fun i hi => ?_)
  have hi' : i < len := mem_range.mp hi
  exact h (off + i) (by omega) (by omega)

@[simp] theorem poke_nil (mem : Nat → α) (off : Nat) : poke mem off [] = mem := by
  funext i
  simp [poke]

theorem poke_inside (h : i < bs.length) : poke mem off bs (off + i) = bs[i] := by
  simp [poke, h]

theorem poke_outside (h : i < off ∨ off + bs.length ≤ i) : poke mem off bs i = mem i := by
  unfold poke
  split
  · rw [getElem?_eq_none (by omega), Option.getD_none]
  · rfl

theorem peek_poke_self (mem : Nat → α) (off : Nat) (bs : List α) : peek (poke mem off bs) off bs.length = bs := by
  refine ext_getElem (by simp) (fun i h₁ h₂ => ?_)
  simp [peek, poke_inside h₂]

theorem peek_poke_disjoint {o : Nat} (h : o + len ≤ off ∨ off + bs.length ≤ o) :
    peek (poke mem off bs) o len = peek mem o len :=
  peek_congr (fun _ _ _ => poke_outside (by omega))

section
variable {ws vs : List (Nat × List α)} {src : Nat → α}

/-- Memory after copies have been made one after another. -/
def store (mem : Nat → α) (ws : List (Nat × List α)) : Nat → α :=
  ws.foldl (fun mem w => poke mem w.1 w.2) mem

/-- The cell `i` is overwritten. -/
def Touches (ws : List (Nat × List α)) (i : Nat) : Prop := ∃ w ∈ ws, w.1 ≤ i ∧ i < w.1 + w.2.length

/-- What is copied is what `src` holds in the same place. -/
def Copies (src : Nat → α) (ws : List (Nat × List α)) : Prop := ∀ w ∈ ws, w.2 = peek src w.1 w.2.length

theorem store_append (mem : Nat → α) (ws vs : List (Nat × List α)) :
    store mem (ws ++ vs) = store (store mem ws) vs := foldl_append

theorem store_outside (h : ¬ Touches ws i) : store mem ws i = mem i := by
  induction ws generalizing mem with
  | nil => rfl
  | cons w ws ih =>
    have hw : i < w.1 ∨ w.1 + w.2.length ≤ i := by
      by_contra hin
      exact h ⟨w, by simp, by omega, by omega⟩
    have hrest : ¬ Touches ws i := fun ⟨v, hv, hin⟩ => h ⟨v, .tail _ hv, hin⟩
    have hpoke : poke mem w.1 w.2 i = mem i := poke_outside hw
    rw [← hpoke]
    exact ih hrest

/-- A cell that is overwritten does not depend on the memory before. -/
theorem store_inside (h : Touches ws i) (m m' : Nat → α) : store m ws i = store m' ws i := by
  induction ws generalizing m m' with
  | nil =>
    obtain ⟨w, hw, -⟩ := h
    cases hw
  | cons w ws ih =>
    by_cases hrest : Touches ws i
    · exact ih hrest _ _
    · obtain ⟨v, hv, hlo, hhi⟩ := h
      rcases mem_cons.mp hv with rfl | hv
      · obtain ⟨k, rfl⟩ : ∃ k, i = v.1 + k := ⟨i - v.1, by omega⟩
        show store (poke m v.1 v.2) ws (v.1 + k) = store (poke m' v.1 v.2) ws (v.1 + k)
        rw [store_outside hrest, store_outside hrest, poke_inside (by omega), poke_inside (by omega)]
      · exact absurd ⟨v, hv, hlo, hhi⟩ hrest

theorem Copies.poke_eq {w : Nat × List α} (h : w.2 = peek src w.1 w.2.length) : poke src w.1 w.2 = src := by
  funext i
  by_cases hin : w.1 ≤ i ∧ i < w.1 + w.2.length
  · obtain ⟨k, rfl⟩ : ∃ k, i = w.1 + k := ⟨i - w.1, by omega⟩
    rw [poke_inside (by omega)]
    have hk : k < w.2.length := by omega
    have hget : w.2[k]? = some (src (w.1 + k)) := by
      rw [h]
      exact getElem?_peek hk
    rw [getElem?_eq_getElem hk] at hget
    exact Option.some.inj hget
  · exact poke_outside (by omega)

theorem store_self (h : Copies src ws) : store src ws = src := by
  induction ws with
  | nil => rfl
  | cons w ws ih =>
    show store (poke src w.1 w.2) ws = src
    rw [Copies.poke_eq (h w (by simp))]
    exact ih (fun v hv => h v (.tail _ hv))

theorem store_copies (h : Copies src ws) (hi : Touches ws i) : store mem ws i = src i := by
  rw [store_inside hi mem src, store_self h]

/-- Copies to different places can be made in any order. -/
theorem store_comm (h : ∀ i, ¬ (Touches ws i ∧ Touches vs i)) : store (store mem ws) vs = store (store mem vs) ws := by
  funext i
  by_cases hws : Touches ws i
  · rw [store_outside (fun hvs => h i ⟨hws, hvs⟩)]
    exact store_inside hws _ _
  · rw [store_outside hws]
    by_cases hvs : Touches vs i
    · exact store_inside hvs _ _
    · rw [store_outside hvs, store_outside hvs, store_outside hws]

theorem store_flatMap {β : Type} (f : β → List (Nat × List α)) (l : List β) (mem : Nat → α) :
    store mem (l.flatMap f) = l.foldl (fun mem a => store mem (f a)) mem := foldl_flatMap ..

/-- Groups of copies to different places can be made in any order. -/
theorem store_flatMap_perm {β : Type} {f : β → List (Nat × List α)} {l l' : List β} (hp : l.Perm l')
    (h : ∀ a ∈ l, ∀ b ∈ l, a ≠ b → ∀ i, ¬ (Touches (f a) i ∧ Touches (f b) i)) :
    store mem (l.flatMap f) = store mem (l'.flatMap f) := by
  rw [store_flatMap, store_flatMap]
  refine hp.foldl_eq' (fun a ha b hb m => ?_) mem
  by_cases hab : a = b
  · rw [hab]
  · exact store_comm (h a ha b hb hab)

theorem touches_append : Touches (ws ++ vs) i ↔ Touches ws i ∨ Touches vs i := by
  simp [Touches, or_and_right, exists_or]

end

/-- The `k` low bytes of `x`, least significant first. -/
def leBytes (k x : Nat) : List UInt8 := (List.range k).map (fun i => ofNat (x / 256 ^ i))

/-- The number that little-endian bytes stand for. -/
def leNat : List UInt8 → Nat
  | [] => 0
  | b :: bs => b.toNat + 256 * leNat bs

@[simp] theorem length_leBytes (k x : Nat) : (leBytes k x).length = k := by simp [leBytes]

theorem leBytes_succ (k x : Nat) : leBytes (k + 1) x = ofNat x :: leBytes k (x / 256) := by
  simp only [leBytes, range_succ_eq_map, map_cons, map_map, Nat.pow_zero, Nat.div_one]
  congr 1
  refine map_congr_left (fun i _ => ?_)
  simp [Nat.pow_succ, Nat.div_div_eq_div_mul, Nat.mul_comm 256]

theorem leNat_leBytes (k x : Nat) : leNat (leBytes k x) = x % 256 ^ k := by
  induction k generalizing x with
  | zero => simp [leBytes, leNat, mod_one]
  | succ k ih =>
    have hbyte : (ofNat x).toNat = x % 256 := toNat_ofNat'
    rw [leBytes_succ, leNat, ih, hbyte, Nat.pow_succ', mod_mul]

theorem leNat_leBytes_of_lt (h : x < 256 ^ k) : leNat (leBytes k x) = x := by
  rw [leNat_leBytes, mod_eq_of_lt h]

/-- The words of a sequence are found at their offsets. -/
theorem take_drop_words (ws : List Nat) (rest : List UInt8) (h : i < ws.length) :
    ((ws.flatMap (leBytes k) ++ rest).drop (k * i)).take k = leBytes k ws[i] := by
  induction ws generalizing i with
  | nil => simp at h
  | cons w ws ih =>
    rw [flatMap_cons, append_assoc]
    cases i with
    | zero =>
      rw [Nat.mul_zero, drop_zero, take_left' (length_leBytes k w)]
      rfl
    | succ i =>
      rw [mul_succ, Nat.add_comm, ← drop_drop, drop_left' (length_leBytes k w)]
      exact ih (lt_of_succ_lt_succ h)

theorem leNat_lt (bs : List UInt8) : leNat bs < 256 ^ bs.length := by
  induction bs with
  | nil => simp [leNat]
  | cons b bs ih =>
    have hb : b.toNat < 256 := b.toNat_lt
    rw [leNat, length_cons, Nat.pow_succ]
    omega

theorem leNat_append (a b : List UInt8) : leNat (a ++ b) = leNat a + 256 ^ a.length * leNat b := by
  induction a with
  | nil => simp [leNat]
  | cons x a ih =>
    rw [cons_append, leNat, leNat, ih, length_cons, Nat.pow_succ', Nat.mul_assoc]
    omega

theorem leBytes_leNat (bytes : List UInt8) : leBytes bytes.length (leNat bytes) = bytes := by
  induction bytes with
  | nil => rfl
  | cons x bytes ih =>
    have hlt := x.toNat_lt
    have hdiv : (x.toNat + 256 * leNat bytes) / 256 = leNat bytes := by omega
    have hbyte : ofNat (x.toNat + 256 * leNat bytes) = x := by
      apply UInt8.toNat_inj.mp
      rw [toNat_ofNat']
      omega
    rw [leNat, length_cons, leBytes_succ, hdiv, ih, hbyte]

/-- A word that is small is given by its low bytes. -/
theorem leNat_peek_low {mem : Nat → UInt8} {m : Nat} (hm : m ≤ k) (h : leNat (peek mem off k) < 256 ^ m) :
    leNat (peek mem off m) = leNat (peek mem off k) := by
  obtain ⟨j, rfl⟩ : ∃ j, k = m + j := ⟨k - m, by omega⟩
  rw [peek_add, leNat_append, length_peek] at h ⊢
  have hhigh : leNat (peek mem (off + m) j) = 0 := by
    by_contra hne
    have hge := Nat.le_mul_of_pos_right (256 ^ m) (Nat.pos_of_ne_zero hne)
    omega
  rw [hhigh]
  omega

theorem leNat_peek_le {mem : Nat → UInt8} {m : Nat} (hm : m ≤ k) : leNat (peek mem off m) ≤ leNat (peek mem off k) := by
  obtain ⟨j, rfl⟩ : ∃ j, k = m + j := ⟨k - m, by omega⟩
  rw [peek_add, leNat_append]
  exact Nat.le_add_right _ _

/-- A subtraction of 32-bit words. -/
def sub32 (x y : Nat) : Nat := (x + 2 ^ 32 - y % 2 ^ 32) % 2 ^ 32

theorem sub32_eq {y : Nat} (hyx : y ≤ x) (hx : x - y < 2 ^ 32) : sub32 x y = x - y := by
  unfold sub32
  omega

/-- A word after its `bs.length` low bytes have been overwritten. -/
def overlay (x : Nat) (bs : List UInt8) : Nat := x / 256 ^ bs.length * 256 ^ bs.length + leNat bs

theorem overlay_of_lt {bytes : List UInt8} (h : x < 256 ^ bytes.length) : overlay x bytes = leNat bytes := by
  rw [overlay, div_eq_of_lt h, Nat.zero_mul, Nat.zero_add]

end Memory
