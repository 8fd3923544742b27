import Mathlib.Data.List.Basic

/-! Messages cut into fragments. The fragments of different messages may alternate; each says which message it
is part of and how much of it is left. -/
namespace Fragments
open List Function

variable {κ β : Type} [DecidableEq κ]

structure Piece (κ β : Type) where
  key : κ
  data : List β
  left : Nat
  deriving DecidableEq, Repr

variable {acc acc' : κ → List β} {p : Piece κ β} {ps qs : List (Piece κ β)} {k : κ}

/-- What has been gathered of each message after one more fragment. A message that is complete leaves
nothing. -/
def absorb (acc : κ → List β) (p : Piece κ β) : κ → List β :=
  Function.update acc p.key (if p.left = 0 then [] else acc p.key ++ p.data)

/-- The message that a fragment completes. -/
def completed (acc : κ → List β) (p : Piece κ β) : List (List β) := if p.left = 0 then [acc p.key ++ p.data] else []

/-- The messages that the fragments complete, in order. -/
def gather (acc : κ → List β) : List (Piece κ β) → List (List β)
  | [] => []
  | p :: ps => completed acc p ++ gather (absorb acc p) ps

/-- What the fragments leave of the messages they do not complete. -/
def rest (acc : κ → List β) (ps : List (Piece κ β)) : κ → List β := ps.foldl absorb acc

@[simp] theorem gather_nil : gather acc [] = [] := rfl

@[simp] theorem gather_cons : gather acc (p :: ps) = completed acc p ++ gather (absorb acc p) ps := rfl

@[simp] theorem rest_cons : rest acc (p :: ps) = rest (absorb acc p) ps := rfl

theorem rest_append : rest acc (ps ++ qs) = rest (rest acc ps) qs := foldl_append

theorem gather_append : gather acc (ps ++ qs) = gather acc ps ++ gather (rest acc ps) qs := by
  induction ps generalizing acc with
  | nil => rfl
  | cons p ps ih => simp [ih]

theorem absorb_ne (h : k ≠ p.key) : absorb acc p k = acc k := update_of_ne h _ _

theorem absorb_more (h : p.left ≠ 0) : absorb acc p p.key = acc p.key ++ p.data := by
  unfold absorb
  rw [update_self, if_neg h]

omit [DecidableEq κ] in
theorem completed_last (h : p.left = 0) : completed acc p = [acc p.key ++ p.data] := if_pos h

omit [DecidableEq κ] in
theorem completed_more (h : p.left ≠ 0) : completed acc p = [] := if_neg h

theorem rest_congr (h : acc k = acc' k) : rest acc ps k = rest acc' ps k := by
  induction ps generalizing acc acc' with
  | nil => exact h
  | cons p ps ih =>
    refine ih ?_
    unfold absorb
    by_cases hk : k = p.key
    · subst hk
      simp [update_self, h]
    · simp [update_of_ne hk, h]

/-- Only a message's own fragments matter for what is left of it. -/
theorem rest_filter : rest acc (ps.filter fun p => p.key = k) k = rest acc ps k := by
  induction ps generalizing acc with
  | nil => rfl
  | cons p ps ih =>
    by_cases hp : p.key = k
    · rw [filter_cons_of_pos (by simpa using hp), rest_cons, rest_cons, ih]
    · rw [filter_cons_of_neg (by simpa using hp), rest_cons, ih]
      exact rest_congr (absorb_ne (Ne.symm hp)).symm

/-- Fragments that do not complete a message add up. -/
theorem rest_more (hkey : ∀ p ∈ ps, p.key = k) (hleft : ∀ p ∈ ps, p.left ≠ 0) : rest acc ps k = acc k ++ ps.flatMap Piece.data := by
  induction ps generalizing acc with
  | nil => exact (append_nil _).symm
  | cons p ps ih =>
    obtain rfl := hkey p mem_cons_self
    rw [rest_cons, ih (fun q hq => hkey q (.tail _ hq)) (fun q hq => hleft q (.tail _ hq)),
      absorb_more (hleft p mem_cons_self), append_assoc, flatMap_cons]

/-- Only what was gathered of the messages that have fragments matters. -/
theorem gather_congr (h : ∀ k ∈ ps.map Piece.key, acc k = acc' k) : gather acc ps = gather acc' ps := by
  induction ps generalizing acc acc' with
  | nil => rfl
  | cons p ps ih =>
    have hp : acc p.key = acc' p.key := h _ mem_cons_self
    rw [gather_cons, gather_cons]
    congr 1
    · unfold completed
      rw [hp]
    · refine ih fun k hk => ?_
      have hk' := h k (.tail _ hk)
      unfold absorb
      by_cases hkey : k = p.key
      · subst hkey
        simp [update_self, hp]
      · simp [update_of_ne hkey, hk']

/-- What the fragments complete and leave tells what had been gathered before. -/
theorem gathered_inj (hgather : gather acc ps = gather acc' ps) (hrest : rest acc ps = rest acc' ps) : acc = acc' := by
  induction ps generalizing acc acc' with
  | nil => exact hrest
  | cons p ps ih =>
    have hlen : (completed acc p).length = (completed acc' p).length := by
      unfold completed
      split <;> rfl
    obtain ⟨hdone, htail⟩ := append_inj hgather hlen
    have habs := ih htail hrest
    have hother : ∀ k, k ≠ p.key → acc k = acc' k := by
      intro k hk
      have hk' := congrFun habs k
      rwa [absorb_ne hk, absorb_ne hk] at hk'
    have hself : acc p.key = acc' p.key := by
      by_cases hleft : p.left = 0
      · rw [completed_last hleft, completed_last hleft, singleton_inj] at hdone
        exact append_cancel_right hdone
      · have hk' := congrFun habs p.key
        rw [absorb_more hleft, absorb_more hleft] at hk'
        exact append_cancel_right hk'
    funext k
    by_cases hk : k = p.key
    · rw [hk, hself]
    · exact hother k hk

end Fragments
