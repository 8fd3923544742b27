import Sm8850.Qmi.Model

/-! Which bytes the decoder reads and writes, for any input. -/
namespace Sm8850.Qmi

open Memory List Run

variable {table t rest : Table} {ei e s : ElemInfo} {base lo hi src tlvLen srcLen decLevel d n : Nat}
  {inp : Nat → UInt8} {P : Access → Prop}

section

/-- An element that describes a field of the struct. -/
structure FieldOk (ei : ElemInfo) : Prop where
  notEoti : ei.dataType ≠ .eoti
  nonempty : 0 < ei.elemLen * ei.elemSize
  bounded : ei.elemLen * ei.elemSize < 2 ^ 32
  string : ei.dataType = .string → ei.elemSize = 1

/-- Tables that end with EOTI and describe fields, nested to a depth below `d`. -/
def Described : (d : Nat) → Table → Prop
  | 0, _ => False
  | d + 1, table => ∃ body e, table = body ++ [e] ∧ e.dataType = .eoti ∧
      ∀ ei ∈ body, FieldOk ei ∧ (ei.dataType = .struct → Described d ei.eiArray)

/-- `ei` describes a field of the struct at `b`, which is the struct at `base` or is nested
in it. -/
inductive Part : Table → (base : Nat) → ElemInfo → (b : Nat) → Prop
  | here {table : Table} {base : Nat} {ei : ElemInfo} : ei ∈ table → Part table base ei base
  | nested {table : Table} {base b i : Nat} {s ei : ElemInfo} : s ∈ table → s.dataType = .struct → i < s.elemLen →
      Part s.eiArray (base + s.offset + i * s.elemSize) ei b → Part table base ei b

/-- The bytes an element describes. -/
def describedSize (ei : ElemInfo) : Nat := ei.elemLen * ei.elemSize

/-- The bytes of an element's field: a length is always kept in 32 bits. -/
def fieldSize (ei : ElemInfo) : Nat :=
  if ei.dataType = .dataLen then 4 else ei.elemLen * ei.elemSize

/-- Reads stay between `lo` and `hi`, writes in the field that is decoded; TLVs are met at the
top only. -/
def InBounds (size : ElemInfo → Nat) (top : Prop) (table : Table) (base lo hi : Nat) : Access → Prop
  | .read off len => lo ≤ off ∧ off + len ≤ hi
  | .write ei b addr bs => Part table base ei b ∧ b + ei.offset ≤ addr ∧
      addr + bs.length ≤ b + ei.offset + size ei
  | .element _ _ _ => top

def IsErr (s : Stop) : Prop := ∃ code, s = .err code

theorem isErr (code : Int) : IsErr (.err code) := ⟨code, rfl⟩

theorem FieldOk.elemLen_pos (h : FieldOk ei) : 0 < ei.elemLen := Nat.pos_of_mul_pos_right h.nonempty

theorem FieldOk.elemSize_pos (h : FieldOk ei) : 0 < ei.elemSize := Nat.pos_of_mul_pos_left h.nonempty

theorem InBounds.nested {i : Nat} {a : Access} (hs : s ∈ table) (hty : s.dataType = .struct)
    (hlen : i < s.elemLen) {lo' hi' : Nat} (hlo : lo ≤ lo') (hhi : hi' ≤ hi)
    (h : InBounds fieldSize False s.eiArray (base + s.offset + i * s.elemSize) lo' hi' a) :
    InBounds fieldSize False table base lo hi a := by
  cases a with
  | read off len => exact ⟨Nat.le_trans hlo h.1, Nat.le_trans h.2 hhi⟩
  | write ei b addr bs => exact ⟨.nested hs hty hlen h.1, h.2⟩
  | element => exact h

/-- What a pointer into a table can point to. -/
theorem Described.tail_cases (h : Described (d + 1) table) (ht : ei :: rest <:+ table) :
    (ei.dataType = .eoti ∧ rest = []) ∨
      (FieldOk ei ∧ ei ∈ table ∧ rest ≠ [] ∧ (ei.dataType = .struct → Described d ei.eiArray)) := by
  obtain ⟨body, e, rfl, he, hbody⟩ := h
  cases rest with
  | nil =>
    have hlast := ht.getLast (by simp)
    rw [getLast_singleton, getLast_append_singleton] at hlast
    exact .inl ⟨hlast ▸ he, rfl⟩
  | cons e' rest =>
    have hmem : ei ∈ body := by
      obtain ⟨pre, hpre⟩ := ht
      obtain ⟨l, x, hx⟩ : ∃ l x, e' :: rest = l ++ [x] :=
        ⟨_, _, (dropLast_append_getLast (by simp)).symm⟩
      rw [hx, ← cons_append, ← append_assoc] at hpre
      have hinit := (append_inj' hpre rfl).1
      rw [← hinit]
      simp
    exact .inr ⟨(hbody ei hmem).1, by simp [hmem], by simp, (hbody ei hmem).2⟩

end

section

variable {elemSize dst count : Nat} {dec : Table → (dst src len : Nat) → Dec Nat}

theorem decodeBasicElem_meets {elemLen : Nat} (hsize : elemLen * elemSize < 2 ^ 32)
    (hread : elemLen * elemSize ≤ srcLen → P (.read src (elemLen * elemSize))) :
    (decodeBasicElem inp src elemLen elemSize srcLen).Meets P IsErr
      (fun bs => bs.length = elemLen * elemSize ∧ elemLen * elemSize ≤ srcLen) := by
  unfold decodeBasicElem
  rw [Nat.mod_eq_of_lt hsize]
  by_cases hlt : srcLen < elemLen * elemSize
  · rw [if_pos hlt]
    exact meets_fail (isErr _)
  · rw [if_neg hlt]
    refine meets_emit_bind (hread (by omega)) ?_
    exact meets_pure ⟨length_peek _ _ _, by omega⟩

theorem structElems_meets {dec : (dst src len : Nat) → Dec Nat} (elemLen : Nat)
    (hdec : ∀ i < elemLen, ∀ k ≤ tlvLen, (dec (dst + i * elemSize) (src + k) (tlvLen - k)).Meets P IsErr (fun rc => rc ≤ tlvLen - k))
    {i k : Nat} (hn : i + n ≤ elemLen) (hk : k ≤ tlvLen) :
    (structElems dec elemSize dst src tlvLen n i k).Meets P IsErr (fun r => r.2 ≤ tlvLen) := by
  induction n generalizing i k with
  | zero => exact meets_pure hk
  | succ n ih =>
    rw [structElems]
    by_cases hlt : k < tlvLen
    · rw [if_pos hlt]
      refine (hdec i (by omega) k hk).bind (fun rc hrc => ?_)
      exact ih (by omega) (by omega)
    · rw [if_neg hlt]
      exact meets_pure hk

theorem decodeStructElem_meets
    (hdec : tlvLen ≤ srcLen → ∀ i < count, ∀ k ≤ tlvLen, (dec ei.eiArray (dst + i * ei.elemSize) (src + k) (tlvLen - k)).Meets P IsErr (fun rc => rc ≤ tlvLen - k))
    : (decodeStructElem dec ei dst src count tlvLen decLevel srcLen).Meets P IsErr (fun rc => rc ≤ srcLen) := by
  unfold decodeStructElem
  by_cases hlt : srcLen < tlvLen
  · rw [if_pos hlt]
    exact meets_fail (isErr _)
  · rw [if_neg hlt]
    refine (structElems_meets count (hdec (by omega)) (by omega) (by omega)).bind ?_
    rintro ⟨i, k⟩ hk
    dsimp only at hk ⊢
    split
    · exact meets_fail (isErr _)
    · exact meets_pure (by omega)

theorem dataLenSize_pos (ei : ElemInfo) : 0 < dataLenSize ei := by
  unfold dataLenSize
  split <;> omega

theorem dataLenSize_le (ei : ElemInfo) : dataLenSize ei ≤ 2 := by
  unfold dataLenSize
  split <;> omega

theorem stringLenSize_le (ei : ElemInfo) : stringLenSize ei ≤ 2 := by
  unfold stringLenSize
  split <;> omega

theorem decodeStringLen_meets (hlo : lo ≤ src) (hhi : src + srcLen ≤ hi) :
    (decodeStringLen inp ei src tlvLen decLevel srcLen).Meets (InBounds fieldSize False table base lo hi)
      IsErr (fun r => r.2 ≤ srcLen) := by
  unfold decodeStringLen
  have hsz := stringLenSize_le ei
  split
  · exact meets_pure (Nat.zero_le _)
  · refine (decodeBasicElem_meets (by omega) (fun h => ⟨hlo, by omega⟩)).bind ?_
    intro bs hbs
    exact meets_pure (by omega)

theorem decodeStringElem_meets (hei : ei ∈ table) (hok : FieldOk ei) (hty : ei.dataType = .string)
    (h32 : srcLen < 2 ^ 32) (hlo : lo ≤ src) (hhi : src + srcLen ≤ hi) :
    (decodeStringElem inp ei base (base + ei.offset) src tlvLen decLevel srcLen).Meets
      (InBounds fieldSize False table base lo hi) IsErr (fun rc => rc ≤ srcLen) := by
  have hfield : fieldSize ei = ei.elemLen := by
    rw [fieldSize, if_neg (by simp [hty]), hok.string hty, Nat.mul_one]
  have hlen := hok.bounded
  rw [hok.string hty, Nat.mul_one] at hlen
  refine (decodeStringLen_meets hlo hhi).bind ?_
  rintro ⟨stringLen, used⟩ hused
  dsimp only at hused ⊢
  split
  · exact meets_fail (isErr _)
  split
  · exact meets_fail (isErr _)
  rw [hok.string hty, sub32_eq hused (by omega)]
  refine (decodeBasicElem_meets (by omega) (fun h => ⟨by omega, by omega⟩)).bind ?_
  rintro bs ⟨hbs, hle⟩
  refine meets_emit_bind ⟨.here hei, Nat.le_refl _, by omega⟩ ?_
  refine meets_emit_bind ⟨.here hei, by omega, ?_⟩ (meets_pure (by omega))
  rw [length_singleton]
  omega

theorem decodeCount_meets (hok : FieldOk ei) (dataLenValue : Nat) :
    (decodeCount ei dataLenValue).Meets P IsErr (fun count => count ≤ ei.elemLen) := by
  unfold decodeCount
  split
  · exact meets_pure hok.elemLen_pos
  · exact meets_pure (Nat.le_refl _)
  · split
    · exact meets_fail (isErr _)
    · exact meets_pure (by omega)

/-- What a nested call of `qmi_decode` is known to do. -/
def NestedSafe (dec : Table → (dst src len : Nat) → Dec Nat) (table : Table) : Prop :=
  ∀ dst src len, len < 2 ^ 31 →
    (dec table dst src len).Meets (InBounds fieldSize False table dst src (src + len)) IsErr
      (fun rc => rc ≤ len)

theorem decodePayload_meets (hei : ei ∈ table) (hok : FieldOk ei)
    (hdec : ei.dataType = .struct → NestedSafe dec ei.eiArray) (hcount : count ≤ ei.elemLen) (h31 : srcLen < 2 ^ 31)
    (hlo : lo ≤ src) (hhi : src + srcLen ≤ hi) : (decodePayload inp dec decLevel base ei src count tlvLen srcLen).Meets
      (InBounds fieldSize False table base lo hi) IsErr (fun rc => rc ≤ srcLen) := by
  have hmul : count * ei.elemSize ≤ ei.elemLen * ei.elemSize := Nat.mul_le_mul_right _ hcount
  have hbound := hok.bounded
  unfold decodePayload
  split
  · rename_i hbasic
    have hfield : fieldSize ei = ei.elemLen * ei.elemSize := by
      rw [fieldSize, if_neg]
      intro h
      rw [h] at hbasic
      cases hbasic
    refine (decodeBasicElem_meets (by omega) (fun h => ⟨hlo, by omega⟩)).bind ?_
    rintro bs ⟨hbs, hle⟩
    refine meets_emit_bind ⟨.here hei, Nat.le_refl _, by omega⟩ ?_
    exact meets_pure (by omega)
  split
  · rename_i hstruct
    refine decodeStructElem_meets (fun htlv i hi k hk => ?_)
    refine (hdec hstruct _ _ _ (by omega)).mono (fun a ha => ?_) (fun _ h => h) (fun _ h => h)
    exact InBounds.nested hei hstruct (Nat.lt_of_lt_of_le hi hcount) (by omega) (by omega) ha
  split
  · exact decodeStringElem_meets hei hok (by assumption) (by omega) hlo hhi
  · exact meets_fail (isErr _)

end

section
variable {inBufLen fuel : Nat} {st : DecState}

/-- A pointer into the table, at most as far from its end as `t`. -/
structure Inside (table t t' : Table) : Prop where
  nonempty : t' ≠ []
  suffix : t' <:+ table
  length_le : t'.length ≤ t.length

theorem Inside.tail (h : Inside table t (ei :: rest)) (hrest : rest ≠ []) : Inside table t rest where
  nonempty := hrest
  suffix := (suffix_cons ei rest).trans h.suffix
  length_le := Nat.le_trans (Nat.le_succ _) h.length_le

theorem decodeOptFlag_meets (hT : Described (d + 1) table) {t' : Table} (ht : Inside table t t') :
    (decodeOptFlag base t').Meets (InBounds fieldSize False table base lo hi) IsErr (Inside table t) := by
  cases t' with
  | nil => exact absurd rfl ht.nonempty
  | cons ei rest =>
    rw [decodeOptFlag]
    split
    · rename_i hflag
      rcases hT.tail_cases ht.suffix with ⟨heoti, -⟩ | ⟨hok, hmem, hrest, -⟩
      · rw [hflag] at heoti
        cases heoti
      · have hfield : fieldSize ei = ei.elemLen * ei.elemSize := by
          rw [fieldSize, if_neg (by simp [hflag])]
        have hpos := hok.nonempty
        refine meets_emit_bind ⟨.here hmem, Nat.le_refl _, ?_⟩ (meets_pure (ht.tail hrest))
        rw [hfield, length_singleton]
        omega
    · exact meets_pure ht

theorem decodeDataLen_meets (hT : Described (d + 1) table) (ht : Inside table t st.tempEi)
    (h32 : inBufLen < 2 ^ 32) (hst : st.decodedBytes ≤ inBufLen) : (decodeDataLen inp base src inBufLen tlvLen st).Meets
      (InBounds fieldSize False table base src (src + inBufLen)) IsErr
      (fun r => Inside table t r.1.tempEi ∧ st.decodedBytes ≤ r.1.decodedBytes ∧ r.1.decodedBytes ≤ inBufLen) := by
  obtain ⟨tempEi, v, k⟩ := st
  dsimp only at ht hst ⊢
  cases tempEi with
  | nil => exact absurd rfl ht.nonempty
  | cons ei rest =>
    rw [decodeDataLen]
    dsimp only
    split
    · rename_i hlen
      rcases hT.tail_cases ht.suffix with ⟨heoti, -⟩ | ⟨-, hmem, hrest, -⟩
      · rw [hlen] at heoti
        cases heoti
      · have hsz := dataLenSize_le ei
        have hfield : fieldSize ei = 4 := by rw [fieldSize, if_pos hlen]
        rw [sub32_eq hst (by omega)]
        refine (decodeBasicElem_meets (by omega) (fun h => ⟨by omega, by omega⟩)).bind ?_
        rintro bs ⟨-, hle⟩
        refine meets_emit_bind ⟨.here hmem, Nat.le_refl _, ?_⟩ ?_
        · exact Nat.add_le_add_left (Nat.le_of_eq ((length_leBytes _ _).trans hfield.symm)) _
        · exact meets_pure ⟨ht.tail hrest, by dsimp only; omega, by dsimp only; omega⟩
    · exact meets_pure ⟨ht, Nat.le_refl _, hst⟩

variable {dec : Table → (dst src len : Nat) → Dec Nat}

/-- One pass of the loop reads the message only, writes fields only, and moves on in the
table. -/
theorem decodeElem_meets (hT : Described (d + 1) table) (hdec : ∀ t, Described d t → NestedSafe dec t)
    (ht : Inside table t st.tempEi) (h31 : inBufLen < 2 ^ 31) (hst : st.decodedBytes ≤ inBufLen) :
    (decodeElem inp dec decLevel base src inBufLen tlvLen st).Meets
      (InBounds fieldSize False table base src (src + inBufLen)) IsErr
      (fun st' => Inside table t st'.tempEi ∧ st'.tempEi.length < t.length ∧
        st.decodedBytes ≤ st'.decodedBytes ∧ st'.decodedBytes ≤ inBufLen) := by
  refine (decodeOptFlag_meets hT ht).bind (fun tempEi htemp => ?_)
  refine Meets.bind (decodeDataLen_meets (t := t) hT ?_ (by omega) ?_) ?_
  · exact htemp
  · exact hst
  rintro ⟨⟨tempEi', v, k⟩, tlvLen'⟩ ⟨htemp', hle, hk⟩
  dsimp only at htemp' hle hk ⊢
  cases tempEi' with
  | nil => exact absurd rfl htemp'.nonempty
  | cons ei rest =>
    dsimp only
    rcases hT.tail_cases htemp'.suffix with ⟨heoti, -⟩ | ⟨hok, hmem, hrest, hstruct⟩
    · -- the switch rejects EOTI whatever the count is
      have hreject : ∀ count, decodePayload inp dec decLevel base ei (src + k) count tlvLen'
          (sub32 inBufLen k) = fail (.err (-EINVAL)) := by
        intro count
        simp [decodePayload, heoti, isBasic]
      have hcount : (decodeCount ei v).Meets (InBounds fieldSize False table base src (src + inBufLen)) IsErr
          (fun _ => True) := by
        unfold decodeCount
        split
        · exact meets_pure trivial
        · exact meets_pure trivial
        · split
          · exact meets_fail (isErr _)
          · exact meets_pure trivial
      refine hcount.bind (fun count _ => ?_)
      rw [hreject, fail_bind]
      exact meets_fail (isErr _)
    · refine (decodeCount_meets hok v).bind (fun count hcount => ?_)
      rw [sub32_eq hk (by omega)]
      refine (decodePayload_meets hmem hok (fun h => hdec _ (hstruct h)) hcount (by omega) (by omega)
        (by omega)).bind (fun rc hrc => ?_)
      have hlen := htemp'.length_le
      rw [length_cons] at hlen
      exact meets_pure ⟨htemp'.tail hrest, hlen, by dsimp only; omega, by dsimp only; omega⟩

theorem findEi_suffix {type : UInt8} (h : findEi table type = some t) : t ≠ [] ∧ t <:+ table := by
  induction table with
  | nil => cases h
  | cons ei rest ih =>
    rw [findEi] at h
    split at h
    · cases h
    split at h
    · cases h
      exact ⟨by simp, suffix_refl _⟩
    · obtain ⟨hne, hsuf⟩ := ih h
      exact ⟨hne, hsuf.trans (suffix_cons ei rest)⟩

theorem InBounds.mono {top top' : Prop} (h : top → top') {a : Access}
    (ha : InBounds fieldSize top table base lo hi a) : InBounds fieldSize top' table base lo hi a := by
  cases a with
  | read off len => exact ha
  | write ei b addr bs => exact ha
  | element => exact h ha

theorem decodeLoop_meets (hT : Described (d + 1) table) (hdec : ∀ t, Described d t → NestedSafe dec t)
    (h31 : inBufLen < 2 ^ 31) (hst : decLevel ≠ 1 → st.decodedBytes ≤ inBufLen)
    (htop : decLevel = 1 → inBufLen - st.decodedBytes < fuel)
    (hnested : decLevel ≠ 1 → Inside table t st.tempEi ∧ st.tempEi.length < fuel) :
    (decodeLoop inp dec table decLevel base src inBufLen fuel st).Meets
      (InBounds fieldSize (decLevel = 1) table base src (src + inBufLen)) IsErr
      (fun rc => decLevel ≠ 1 → rc ≤ inBufLen) := by
  induction fuel generalizing st t with
  | zero =>
    by_cases hlev : decLevel = 1
    · exact absurd (htop hlev) (Nat.not_lt_zero _)
    · exact absurd (hnested hlev).2 (Nat.not_lt_zero _)
  | succ fuel ih =>
    rw [decodeLoop]
    by_cases hmore : st.decodedBytes < inBufLen
    · rw [if_pos hmore]
      by_cases hlev : decLevel = 1
      · have hleft := htop hlev
        rw [if_pos hlev]
        split
        · exact meets_fail (isErr _)
        rename_i hhdr
        unfold tlvHdrSize at hhdr ⊢
        refine meets_emit_bind ⟨by omega, by omega⟩ ?_
        dsimp only
        split
        · split
          · exact meets_fail (isErr _)
          · refine ih (t := t) (fun h => absurd hlev h) (fun _ => ?_) (fun h => absurd hlev h)
            dsimp only
            omega
        · rename_i tempEi hfind
          obtain ⟨hne, hsuf⟩ := findEi_suffix hfind
          refine Meets.bind (Meets.mono (decodeElem_meets hT hdec (t := tempEi) ?_ (by omega) ?_)
            (fun _ ha => ha.mono False.elim) (fun _ h => h) (fun _ h => h)) ?_
          · exact ⟨hne, hsuf, Nat.le_refl _⟩
          · dsimp only
            omega
          rintro st' ⟨-, -, hle, -⟩
          dsimp only at hle
          refine meets_emit_bind hlev ?_
          exact ih (t := t) (fun h => absurd hlev h) (fun _ => by omega) (fun h => absurd hlev h)
      · rw [if_neg hlev]
        obtain ⟨hin, hlen⟩ := hnested hlev
        split
        · exact meets_pure (fun _ => hst hlev)
        · refine ((decodeElem_meets hT hdec (t := st.tempEi) ⟨hin.nonempty, hin.suffix, Nat.le_refl _⟩
            (by omega) (hst hlev)).mono (fun _ ha => ha.mono False.elim) (fun _ h => h)
            (fun _ h => h)).bind ?_
          rintro st' ⟨hin', hlt, -, hle⟩
          exact ih (t := st.tempEi) (fun _ => hle) (fun h => absurd h hlev)
            (fun _ => ⟨hin', by omega⟩)
    · rw [if_neg hmore]
      exact meets_pure hst

theorem Described.ne_nil (h : Described (d + 1) table) : table ≠ [] := by
  obtain ⟨body, e, rfl, -⟩ := h
  simp

theorem qmiDecode_meets (hT : Described d table) (hlev : 1 ≤ decLevel) (h31 : inBufLen < 2 ^ 31) :
    (qmiDecode inp d decLevel table base src inBufLen).Meets
      (InBounds fieldSize (decLevel = 1) table base src (src + inBufLen)) IsErr
      (fun rc => decLevel ≠ 1 → rc ≤ inBufLen) := by
  induction d generalizing table decLevel base src inBufLen with
  | zero => exact hT.elim
  | succ d ih =>
    rw [qmiDecode]
    refine decodeLoop_meets (t := table) hT (fun t ht dst s len hlen => ?_) h31 (fun _ => ?_)
      (fun _ => ?_) (fun _ => ⟨⟨hT.ne_nil, suffix_refl _, Nat.le_refl _⟩, ?_⟩)
    · exact (ih ht (by omega) hlen).mono (fun _ h => h.mono (fun h => by omega)) (fun _ h => h)
        (fun _ h => h (by omega))
    · exact Nat.zero_le _
    · dsimp only
      omega
    · dsimp only
      omega

end

/-- For any message, `qmi_decode_message` ends with a result or an error code, reads inside the
message and writes inside the field of the element it decodes. -/
theorem decodeMessage_safe (d : Nat) (table : Table) (hT : Described d table) (buf : Nat → UInt8)
    (len : Nat) (hhdr : qmiHeaderSize ≤ len) (h31 : len < 2 ^ 31) :
    (qmiDecodeMessage d buf len table).Meets (InBounds fieldSize True table 0 0 len) IsErr (fun _ => True) := by
  unfold qmiDecodeMessage
  split
  · exact meets_fail (isErr _)
  split
  · exact meets_fail (isErr _)
  rw [sub32_eq hhdr (by omega)]
  refine Meets.mono (qmiDecode_meets hT (Nat.le_refl 1) (by omega)) (fun a ha => ?_)
    (fun _ h => h) (fun _ _ => trivial)
  cases a with
  | read off n =>
    obtain ⟨-, hread⟩ := ha
    exact ⟨Nat.zero_le _, by omega⟩
  | write ei b addr bs => exact ha
  | element => trivial

section

/-- The elements of a table describe fields that do not overlap. -/
def FieldsDisjoint (size : ElemInfo → Nat) (table : Table) : Prop :=
  table.Pairwise (fun a b => a.offset + size a ≤ b.offset ∨ b.offset + size b ≤ a.offset)

def lenEi : ElemInfo := ⟨.dataLen, 1, 1, .noArray, 1, 0, []⟩
def bytesEi : ElemInfo := ⟨.unsigned1Byte, 2, 1, .varLenArray, 1, 4, []⟩
def endEi : ElemInfo := ⟨.eoti, 0, 0, .noArray, 0, 0, []⟩

/-- A length of one byte on the wire and at most two bytes. -/
def bytesTable : Table := [lenEi, bytesEi, endEi]

theorem bytesTable_described : Described 1 bytesTable := by
  refine ⟨[lenEi, bytesEi], endEi, rfl, rfl, ?_⟩
  intro ei hei
  rcases mem_cons.mp hei with rfl | hei
  · exact ⟨⟨by decide, by decide, by decide, nofun⟩, nofun⟩
  · cases mem_singleton.mp hei
    exact ⟨⟨by decide, by decide, by decide, nofun⟩, nofun⟩

/-- The message of `bytesTable` with no bytes. -/
def noBytes : Nat → UInt8 := fun i => [0, 0, 0, 0, 0, 4, 0, 1, 1, 0, 0][i]?.getD 0

theorem noBytes_safe :
    (qmiDecodeMessage 1 noBytes 11 bytesTable).Meets (InBounds fieldSize True bytesTable 0 0 11) IsErr
      (fun _ => True) :=
  decodeMessage_safe 1 bytesTable bytesTable_described noBytes 11 (by decide) (by decide)

/-- The length is described as one byte, and four are written. -/
theorem noBytes_overwrites : Described 1 bytesTable ∧ FieldsDisjoint describedSize bytesTable ∧
      ¬ (qmiDecodeMessage 1 noBytes 11 bytesTable).Meets (InBounds describedSize True bytesTable 0 0 11)
        IsErr (fun _ => True) := by
  refine ⟨bytesTable_described, by unfold FieldsDisjoint; decide, ?_⟩
  intro h
  have hwrite : Access.write lenEi 0 0 [0, 0, 0, 0] ∈ (qmiDecodeMessage 1 noBytes 11 bytesTable).log :=
    .tail _ (.tail _ (.head _))
  have hfield : (0 : Nat) + 4 ≤ 0 + 0 + 1 := (h.logged _ hwrite).2.2
  omega

end

end Sm8850.Qmi
