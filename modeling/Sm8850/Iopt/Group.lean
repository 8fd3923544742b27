import Sm8850.Iopt.MapSpec

/-! Groups of entries with the contiguous hint: which cells `arm_lpae_cont_unmap` sweeps, and that
a walk does not notice. -/
namespace Sm8850.Iopt
open TableTree Nat

variable {d : Data} {hg : Geom d} {s s' : State} {x y i k l n r t : Nat}

/-! ### Groups -/

theorem findNumCont_eq (d : Data) (l : Nat) : ∃ g, findNumCont d l = 2 ^ g := by
  have hpmd : ∀ m, ∃ g, contPmds m = 2 ^ g := by
    intro m
    unfold contPmds
    split_ifs
    · exact ⟨4, rfl⟩
    · exact ⟨5, rfl⟩
    · exact ⟨5, rfl⟩
    · exact ⟨0, rfl⟩
  have hpte : ∀ m, ∃ g, contPtes m = 2 ^ g := by
    intro m
    unfold contPtes
    split_ifs
    · exact ⟨4, rfl⟩
    · exact ⟨7, rfl⟩
    · exact ⟨5, rfl⟩
    · exact ⟨0, rfl⟩
  unfold findNumCont
  split_ifs
  · exact hpmd _
  · exact hpte _
  · exact ⟨0, rfl⟩
  · exact ⟨0, rfl⟩

theorem findNumCont_pos (d : Data) (l : Nat) : 0 < findNumCont d l := by
  obtain ⟨g, hg⟩ := findNumCont_eq d l
  rw [hg]
  exact Nat.two_pow_pos g

/-- Rounding down commutes with taking the low bits. -/
theorem roundDown_mod (q g b : Nat) : q / 2 ^ g * 2 ^ g % 2 ^ b = q % 2 ^ b / 2 ^ g * 2 ^ g := by
  rcases le_total g b with h | h
  · obtain ⟨c, rfl⟩ := Nat.exists_eq_add_of_le h
    rw [pow_add, mod_mul_right_div_self, mul_comm (q / 2 ^ g), mul_mod_mul_left, mul_comm]
  · have hlt : q % 2 ^ b < 2 ^ g :=
      lt_of_lt_of_le (mod_lt _ (Nat.two_pow_pos b)) (Nat.pow_le_pow_right (by omega) h)
    rw [div_eq_of_lt hlt, zero_mul]
    exact mod_eq_zero_of_dvd ((Nat.pow_dvd_pow 2 h).trans (dvd_mul_left _ _))

/-- The first entry of the group an address lies in. -/
def Data.groupStart (d : Data) (x l : Nat) : Nat := d.lvlIdx x l / findNumCont d l * findNumCont d l

theorem lvlIdx_group (d : Data) (x l : Nat) :
    d.lvlIdx (x / (d.blockSize l * findNumCont d l) * (d.blockSize l * findNumCont d l)) l = d.groupStart x l := by
  obtain ⟨g, hG⟩ := findNumCont_eq d l
  have hB : 0 < d.blockSize l := Nat.two_pow_pos _
  rw [Data.groupStart, lvlIdx_eq, lvlIdx_eq, Data.blockNr, Data.blockNr, hG, ← roundDown_mod]
  congr 1
  rw [Nat.div_div_eq_div_mul, mul_comm (d.blockSize l), ← mul_assoc, Nat.mul_div_cancel _ hB,
    mul_comm (2 ^ g)]

theorem groupStart_le (d : Data) (x l : Nat) : d.groupStart x l ≤ d.lvlIdx x l := div_mul_le_self _ _

theorem lt_groupStart (d : Data) (x l : Nat) : d.lvlIdx x l < d.groupStart x l + findNumCont d l := by
  have := div_add_mod (d.lvlIdx x l) (findNumCont d l)
  have := mod_lt (d.lvlIdx x l) (findNumCont_pos d l)
  unfold Data.groupStart
  rw [mul_comm (d.lvlIdx x l / findNumCont d l)]
  omega

/-- A number of entries, rounded up to whole groups. -/
def wholeGroups (d : Data) (l n : Nat) : Nat := (n + findNumCont d l - 1) / findNumCont d l * findNumCont d l

theorem findNumCont_le_wholeGroups (hn : 0 < n) : findNumCont d l ≤ wholeGroups d l n := by
  have hG := findNumCont_pos d l
  refine Nat.le_mul_of_pos_left _ ?_
  exact Nat.div_pos (by omega) hG

/-- The cells from which `arm_lpae_cont_unmap` takes the hint. -/
def HintSpan (d : Data) (x l ptep n a : Nat) : Prop :=
  ptep - d.lvlIdx x l + d.groupStart x l ≤ a ∧
    a < ptep - d.lvlIdx x l + d.groupStart x l + wholeGroups d l n

instance : Decidable (HintSpan d x l t n i) := inferInstanceAs (Decidable (_ ∧ _))

theorem contUnmap_apply {ptep : Nat} (hc : d.cfg.contigHint) (a : Nat) :
    (contUnmap d s x l ptep n).mem a = if HintSpan d x l ptep n a then s.mem a &&& ~~~pteCont else s.mem a := by
  simp only [contUnmap, hc, if_true, lvlIdx_group]
  by_cases h : HintSpan d x l ptep n a
  · rw [if_pos h]
    exact if_pos h
  · rw [if_neg h]
    exact if_neg h

theorem dropHint_off {ptep : Nat} (hc : d.cfg.contigHint = false) : dropHint d s x l ptep n = s := by
  simp [dropHint, contUnmap, hc]

theorem dropHint_plain {ptep : Nat} (h : s.mem ptep &&& pteCont = 0) : dropHint d s x l ptep n = s := by
  rw [dropHint, if_neg (not_not.mpr h)]

theorem dropHint_apply {ptep : Nat} (hc : d.cfg.contigHint) (h : s.mem ptep &&& pteCont ≠ 0) (a : Nat) :
    (dropHint d s x l ptep n).mem a = if HintSpan d x l ptep n a then s.mem a &&& ~~~pteCont else s.mem a := by
  rw [dropHint, if_pos h, contUnmap_apply hc]

/-- The entry that is looked at is among those that lose the hint. -/
theorem hintSpan_self (hn : 0 < n) : HintSpan d x l (t + d.lvlIdx x l) n (t + d.lvlIdx x l) := by
  have := groupStart_le d x l
  have := lt_groupStart d x l
  have := findNumCont_le_wholeGroups (d := d) (l := l) hn
  unfold HintSpan
  omega

theorem dropHint_self (hc : d.cfg.contigHint) (hn : 0 < n) (h : s.mem (t + d.lvlIdx x l) &&& pteCont ≠ 0) :
    (dropHint d s x l (t + d.lvlIdx x l) n).mem (t + d.lvlIdx x l) ≠ s.mem (t + d.lvlIdx x l) := by
  rw [dropHint_apply hc h, if_pos (hintSpan_self hn)]
  intro heq
  apply h
  rw [← heq, BitVec.and_assoc, show ~~~pteCont &&& pteCont = 0#64 by decide, BitVec.and_zero]
  rfl

/-! ### Sizes -/

/-- The size is that of an entry of the level, or of a group of them. -/
def Matches (d : Data) (size l : Nat) : Prop := size = d.blockSize l ∨ size = findNumCont d l * d.blockSize l

instance {size : Nat} : Decidable (Matches d size l) := inferInstanceAs (Decidable (_ ∨ _))

/-- The entries of level `l` that a request covers. -/
abbrev reqNum (d : Data) (size l pgcount : Nat) : Nat := checkAndSetNumCont d size l * pgcount

section
variable {size : Nat}

theorem findNumCont_off (h : d.cfg.contigHint = false) (l : Nat) : findNumCont d l = 1 := by
  simp [findNumCont, h]

theorem checkAndSetNumCont_pos (d : Data) (size l : Nat) : 0 < checkAndSetNumCont d size l := by
  have := findNumCont_pos d l
  unfold checkAndSetNumCont
  split_ifs <;> omega

theorem Matches.unit (h : Matches d size l) : size = checkAndSetNumCont d size l * d.blockSize l := by
  unfold checkAndSetNumCont
  cases hc : d.cfg.contigHint with
  | false =>
    rcases h with h | h
    · simp [h]
    · simp [h, findNumCont_off hc]
  | true =>
    by_cases hgroup : size = findNumCont d l * d.blockSize l
    · simp only [if_true, if_pos hgroup]
      exact hgroup
    · rcases h with h | h
      · simp only [if_true, if_neg hgroup]
        omega
      · exact absurd h hgroup

theorem checkAndSetNumCont_of_not (h : ¬ Matches d size l) : checkAndSetNumCont d size l = 1 := by
  unfold checkAndSetNumCont
  split_ifs with hc hgroup
  · exact absurd (.inr hgroup) h
  · rfl
  · rfl

/-- The size in units of the level. -/
theorem Matches.div (h : Matches d size l) : size / checkAndSetNumCont d size l = d.blockSize l := by
  conv_lhs => rw [h.unit]
  rw [show checkAndSetNumCont d (checkAndSetNumCont d size l * d.blockSize l) l = checkAndSetNumCont d size l by
    rw [← h.unit]]
  exact Nat.mul_div_cancel_left _ (checkAndSetNumCont_pos d size l)

end

/-! ### Entries without their hint -/

@[simp] theorem contUnmap_pages (d : Data) (s : State) (iova lvl ptep num : Nat) :
    (contUnmap d s iova lvl ptep num).pages = s.pages := by
  unfold contUnmap
  split <;> rfl

@[simp] theorem dropHint_pages (d : Data) (s : State) (iova lvl ptep num : Nat) :
    (dropHint d s iova lvl ptep num).pages = s.pages := by
  unfold dropHint
  split
  · exact contUnmap_pages d s iova lvl ptep num
  · rfl

theorem Typed.type_ne_zero {e : U64} (h : Typed d l e) (he : e ≠ 0) : iopteType e ≠ 0 := by
  intro hz
  refine h.valid_iff.mpr he ?_
  rw [show pteValid = (3 : U64) &&& pteValid by decide, ← BitVec.and_assoc]
  change iopteType e &&& pteValid = 0
  rw [hz]
  decide

theorem Typed.touch_cont {e : U64} (h : Typed d l e) : Touch e (e &&& ~~~pteCont) := by
  refine ⟨iopteVal_clearCont e, ⟨fun hz => ?_, fun hz => by rw [hz]; decide⟩⟩
  by_contra he
  have htype := iopteType_congr (iopteVal_clearCont e)
  rw [hz] at htype
  exact h.type_ne_zero he (htype ▸ (by decide))

/-- The entry as it was or, where `W` allows it, without the hint. -/
def Unhinted (W : Prop) (e e' : U64) : Prop := e' = e ∨ W ∧ e' = e &&& ~~~pteCont

section
variable {W W' : Prop} {e e' e'' : U64}

section
variable (h : Unhinted W e e')
include h

theorem Unhinted.touch (he : Typed d l e) : Touch e e' := by
  rcases h with rfl | ⟨-, rfl⟩
  · exact Touch.refl _
  · exact he.touch_cont

theorem Unhinted.mono (hW : W → W') : Unhinted W' e e' := by
  rcases h with h | ⟨hw, h⟩
  · exact .inl h
  · exact .inr ⟨hW hw, h⟩

theorem Unhinted.trans (h' : Unhinted W e' e'') : Unhinted W e e'' := by
  rcases h with rfl | ⟨hw, rfl⟩
  · exact h'
  · rcases h' with rfl | ⟨-, rfl⟩
    · exact .inr ⟨hw, rfl⟩
    · exact .inr ⟨hw, by rw [BitVec.and_assoc, BitVec.and_self]⟩

/-- A hint that is still there was there before. -/
theorem Unhinted.hint (he : e' &&& pteCont ≠ 0) : e &&& pteCont ≠ 0 := by
  rcases h with rfl | ⟨-, rfl⟩
  · exact he
  · rw [BitVec.and_assoc, show ~~~pteCont &&& pteCont = 0#64 by decide, BitVec.and_zero] at he
    exact absurd rfl he

end

end

/-- The cell is swept when the entry at `ptep` is looked at. -/
def Swept (d : Data) (s : State) (x l ptep n a : Nat) : Prop :=
  d.cfg.contigHint = true ∧ s.mem ptep &&& pteCont ≠ 0 ∧ HintSpan d x l ptep n a

theorem dropHint_mem (d : Data) (s : State) (x l ptep n a : Nat) :
    Unhinted (Swept d s x l ptep n a) (s.mem a) ((dropHint d s x l ptep n).mem a) := by
  cases hc : d.cfg.contigHint with
  | false => exact .inl (by rw [dropHint_off hc])
  | true =>
    by_cases h : s.mem ptep &&& pteCont = 0
    · exact .inl (by rw [dropHint_plain h])
    · rw [dropHint_apply hc h]
      split
      · rename_i hspan
        exact .inr ⟨⟨hc, h, hspan⟩, rfl⟩
      · exact .inl rfl

/-- Clearing hints changes nothing a walk looks at. -/
theorem Inv.unhint {W : Nat → Prop} (hI : Inv hg s) (hmem : ∀ a, Unhinted (W a) (s.mem a) (s'.mem a))
    (hpages : s'.pages = s.pages) :
    Inv hg s' ∧ (∀ y, ∀ j ≤ (shape d hg).depth, tableAt (shape d hg) s'.mem y j = tableAt (shape d hg) s.mem y j) ∧
      ∀ y, translation d s'.mem y = translation d s.mem y :=
  hI.touch (fun y j u i hj hu hi => (hmem (u + i)).touch (hI.typed y j u i hj hu hi)) (fun _ hp => hpages ▸ hp)

theorem Inv.hintDropped (hI : Inv hg s) (x l ptep n : Nat) : Inv hg (dropHint d s x l ptep n) ∧
    (∀ y, ∀ j ≤ (shape d hg).depth,
      tableAt (shape d hg) (dropHint d s x l ptep n).mem y j = tableAt (shape d hg) s.mem y j) ∧
    ∀ y, translation d (dropHint d s x l ptep n).mem y = translation d s.mem y :=
  hI.unhint (dropHint_mem d s x l ptep n) (dropHint_pages d s x l ptep n)

end Sm8850.Iopt
