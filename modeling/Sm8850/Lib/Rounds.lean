import Mathlib.Data.Nat.Find
import Mathlib.Tactic.ByContra

/-! A loop without a bound, as the state before each of its rounds, and when it returns. -/
namespace Rounds
open Nat

variable {σ ε κ : Type} {body : Nat → σ → Except ε σ} {s t : σ} {i j n : Nat} {e : ε}
  {I : σ → Prop}

/-- The state before round `i`, or what the loop returned in an earlier round. -/
def before (body : Nat → σ → Except ε σ) (s : σ) : Nat → Except ε σ
  | 0 => .ok s
  | i + 1 => before body s i >>= body i

theorem before_succ (h : before body s i = .ok t) : before body s (i + 1) = body i t := by
  rw [before, h]
  rfl

theorem before_error (h : before body s i = .error e) (hij : i ≤ j) : before body s j = .error e := by
  induction j, hij using le_induction with
  | base => exact h
  | succ j _ ih =>
    rw [before, ih]
    rfl

/-- An invariant of every round that goes on. -/
theorem before_invariant (hs : I s) (hI : ∀ i t u, I t → body i t = .ok u → I u)
    (h : before body s i = .ok t) : I t := by
  induction i generalizing t with
  | zero => exact Except.ok.inj h ▸ hs
  | succ i ih =>
    cases hi : before body s i with
    | error e => rw [before_error hi (le_succ i)] at h; cases h
    | ok u => exact hI i u t (ih hi) ((before_succ hi).symm.trans h)

section
variable (key : σ → κ) (idle : Nat → κ → Prop)
  (hidle : ∀ i t, I t → idle i (key t) → ∃ u, body i t = .ok u ∧ key u = key t) (hs : I s)
  (hI : ∀ i t u, I t → body i t = .ok u → I u)
include hidle hs hI

end

end Rounds
