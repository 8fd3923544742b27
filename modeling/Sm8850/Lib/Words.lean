import Mathlib.Data.BitVec

/-! Masks and alignment of machine words, as arithmetic on their values. -/
namespace Words

variable {w k : Nat} {x : BitVec w}

/-- A mask that clears the low `k` bits rounds down to a multiple of `2 ^ k`. -/
theorem toNat_and_not_mask (x : BitVec w) (k : Nat) :
    (x &&& ~~~(BitVec.ofNat w (2 ^ k - 1))).toNat = x.toNat / 2 ^ k * 2 ^ k := by
  have hshift : x &&& ~~~(BitVec.ofNat w (2 ^ k - 1)) = (x >>> k) <<< k := by
    ext i hi
    have hmask : (BitVec.ofNat w (2 ^ k - 1))[i] = decide (i < k) := by
      rw [← BitVec.getLsbD_eq_getElem hi, BitVec.getLsbD_ofNat]
      simp [hi]
    simp only [BitVec.getElem_and, BitVec.getElem_not, BitVec.getElem_shiftLeft, hmask]
    by_cases hik : i < k
    · simp [hik]
    · simp only [hik, decide_false, Bool.not_false, Bool.and_true, Bool.true_and, BitVec.getElem_ushiftRight]
      rw [Nat.add_sub_of_le (by omega), BitVec.getLsbD_eq_getElem hi]
  rw [hshift, BitVec.toNat_shiftLeft, BitVec.toNat_ushiftRight, Nat.shiftRight_eq_div_pow, Nat.shiftLeft_eq]
  exact Nat.mod_eq_of_lt (lt_of_le_of_lt (Nat.div_mul_le_self _ _) x.isLt)

end Words
