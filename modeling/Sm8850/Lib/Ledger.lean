import Mathlib.Data.Set.Insert

/-! Ledgers of resources that owners obtain and put back. -/
namespace Ledger
open List Set Nat

variable {ι ρ : Type} {h : Set (ι × ρ)} {l m : List ρ}

/-- An owner obtains or puts back a resource. -/
inductive Event (ι ρ : Type)
  | get (owner : ι) (res : ρ)
  | put (owner : ι) (res : ρ)

/-- What is held after a ledger, for every put that is made. -/
def held : Set (ι × ρ) → List (Event ι ρ) → Set (ι × ρ)
  | h, [] => h
  | h, .get i r :: l => held (insert (i, r) h) l
  | h, .put i r :: l => held (h \ {(i, r)}) l

/-- Position `k + n` obtains the `n`-th entry of the list. -/
def gets : Nat → List (Option ρ) → List (Event Nat ρ)
  | _, [] => []
  | k, none :: l => gets (k + 1) l
  | k, some r :: l => .get k r :: gets (k + 1) l

end Ledger
