import Sm8850.Qmi.DecodeSafety

/-! Which accepted messages the decoder has split along their TLV headers. -/
namespace Sm8850.Qmi

open Memory List Run

variable {inp : Nat → UInt8} {table eis rest : Table} {ei : ElemInfo} {st st' : DecState}
  {dec : Table → (dst src len : Nat) → Dec Nat} {base src len tlvLen stale pos n d fuel : Nat}

/-- From `pos` on the message is a sequence of TLVs, with the given types and lengths, that
ends at `len`. -/
inductive Tiles (inp : Nat → UInt8) (src len : Nat) : (pos : Nat) → List (UInt8 × Nat) → Prop
  | done : Tiles inp src len len []
  | tlv {pos : Nat} {tlvs : List (UInt8 × Nat)} :
      pos + tlvHdrSize + tlvLenAt inp (src + pos) ≤ len →
      Tiles inp src len (pos + tlvHdrSize + tlvLenAt inp (src + pos)) tlvs →
      Tiles inp src len pos ((tlvTypeAt inp (src + pos), tlvLenAt inp (src + pos)) :: tlvs)

/-- The TLVs whose elements were decoded, with their declared lengths and the bytes used. -/
def decodedTlvs (log : List Access) : List (UInt8 × Nat × Nat) :=
  log.filterMap (fun a => match a with
    | .element type declared used => some (type, declared, used)
    | _ => none)

/-- TLVs of the table that were decoded from what they declare. -/
def exactTlvs (table : Table) (tlvs : List (UInt8 × Nat)) : List (UInt8 × Nat × Nat) :=
  (tlvs.filter (fun tlv => (findEi table tlv.1).isSome)).map (fun tlv => (tlv.1, tlv.2, tlv.2))

/-- The headers tile the message, each TLV of the table was decoded from the bytes that it
declares, and all of the message is accounted for. -/
def Framed (inp : Nat → UInt8) (table : Table) (src len pos : Nat) (r : Dec Nat) : Prop :=
  ∃ tlvs, Tiles inp src len pos tlvs ∧ decodedTlvs r.log = exactTlvs table tlvs ∧ r.res = .ok len

section

/-- The element behind an OPT_FLAG. -/
def dropOptFlag : Table → Table
  | [] => []
  | ei :: rest => if ei.dataType = .optFlag then rest else ei :: rest

/-- The element behind a DATA_LEN, the entries and the bytes of the length. -/
def dropDataLen (inp : Nat → UInt8) (src stale : Nat) : Table → Table × Nat × Nat
  | [] => ([], stale, 0)
  | ei :: rest =>
    if ei.dataType = .dataLen then
      (rest, overlay stale (peek inp src (dataLenSize ei)), dataLenSize ei)
    else (ei :: rest, stale, 0)

/-- A basic element behind `eis` takes exactly `tlvLen` bytes; of strings and structs nothing
is asked. -/
def Declares (inp : Nat → UInt8) (src stale tlvLen : Nat) (eis : Table) : Prop :=
  ∀ ei rest dataLenValue lenSize,
    dropDataLen inp src stale (dropOptFlag eis) = (ei :: rest, dataLenValue, lenSize) →
    isBasic ei.dataType → tlvLen = lenSize + entries ei dataLenValue * ei.elemSize

/-- The value that `data_len_value` has behind the TLV. -/
def staleAfter (inp : Nat → UInt8) (src stale : Nat) (eis : Table) : Nat :=
  match dropDataLen inp src stale (dropOptFlag eis) with
  | ([], dataLenValue, _) => dataLenValue
  | (ei :: _, dataLenValue, _) => entries ei dataLenValue

end

/-- From `pos` on, unknown TLVs end inside the message and basic elements have the length that
their TLVs declare; `stale` is what `data_len_value` was left at. -/
inductive Honest (inp : Nat → UInt8) (table : Table) (src len : Nat) : (stale pos : Nat) → Prop
  | done {stale : Nat} : Honest inp table src len stale len
  | unknown {stale pos : Nat} : findEi table (tlvTypeAt inp (src + pos)) = none →
      pos + tlvHdrSize + tlvLenAt inp (src + pos) ≤ len →
      Honest inp table src len stale (pos + tlvHdrSize + tlvLenAt inp (src + pos)) →
      Honest inp table src len stale pos
  | known {stale pos : Nat} {eis : Table} :
      findEi table (tlvTypeAt inp (src + pos)) = some eis →
      Declares inp (src + (pos + tlvHdrSize)) stale (tlvLenAt inp (src + pos)) eis →
      Honest inp table src len (staleAfter inp (src + (pos + tlvHdrSize)) stale eis)
        (pos + tlvHdrSize + tlvLenAt inp (src + pos)) →
      Honest inp table src len stale pos

section

variable {srcLen count dst rc : Nat}

theorem decodeBasicElem_ok {elemLen elemSize : Nat} {bs : List UInt8}
    (h : (decodeBasicElem inp src elemLen elemSize srcLen).res = .ok bs) :
    elemLen * elemSize % 2 ^ 32 ≤ srcLen ∧ bs = peek inp src (elemLen * elemSize) := by
  unfold decodeBasicElem at h
  split at h
  · cases h
  · cases h
    exact ⟨by omega, rfl⟩

theorem decodeOptFlag_ok {eis' : Table} (h : (decodeOptFlag base eis).res = .ok eis') : eis' = dropOptFlag eis := by
  cases eis with
  | nil => cases h
  | cons ei rest =>
    rw [decodeOptFlag] at h
    rw [dropOptFlag]
    split at h
    · rename_i hflag
      cases h
      rw [if_pos hflag]
    · rename_i hflag
      cases h
      rw [if_neg hflag]

theorem decodeDataLen_ok {r : DecState × Nat} (h32 : len < 2 ^ 32) (hst : st.decodedBytes ≤ len)
    (h : (decodeDataLen inp base src len tlvLen st).res = .ok r) : ∃ dataLenValue lenSize,
      dropDataLen inp (src + st.decodedBytes) st.dataLenValue st.tempEi =
        (r.1.tempEi, dataLenValue, lenSize) ∧ r.1.dataLenValue = dataLenValue ∧
      r.1.decodedBytes = st.decodedBytes + lenSize ∧ r.1.decodedBytes ≤ len ∧ lenSize ≤ 2 ∧
      (lenSize = 0 → r.2 = tlvLen) ∧ (lenSize ≠ 0 → r.2 = sub32 tlvLen lenSize) := by
  obtain ⟨tempEi, v, k⟩ := st
  cases tempEi with
  | nil => cases h
  | cons ei rest =>
    rw [decodeDataLen] at h
    dsimp only at h hst ⊢
    rw [dropDataLen]
    split at h
    · rename_i hlen
      have hpos := dataLenSize_pos ei
      have htwo := dataLenSize_le ei
      obtain ⟨bs, hbs, hrest, -⟩ := res_bind_ok h
      obtain ⟨hle, rfl⟩ := decodeBasicElem_ok hbs
      rw [sub32_eq hst (by omega), Nat.one_mul] at hle
      cases hrest
      rw [Nat.one_mul, if_pos hlen]
      exact ⟨_, _, rfl, rfl, rfl, by dsimp only; omega, htwo, fun h => by omega, fun _ => rfl⟩
    · rename_i hlen
      cases h
      rw [if_neg hlen]
      exact ⟨_, _, rfl, rfl, rfl, hst, by omega, fun _ => rfl, fun h => absurd rfl h⟩

theorem decodeCount_ok {dataLenValue : Nat} (h : (decodeCount ei dataLenValue).res = .ok count) :
    count = entries ei dataLenValue := by
  cases harr : ei.arrayType with
  | noArray =>
    simp only [decodeCount, harr, res_pure] at h
    cases h
    simp [entries, harr]
  | staticArray =>
    simp only [decodeCount, harr, res_pure] at h
    cases h
    simp [entries, harr]
  | varLenArray =>
    simp only [decodeCount, harr] at h
    split at h
    · cases h
    · cases h
      simp [entries, harr]

theorem decodeStructElem_ok (h : (decodeStructElem dec ei dst src count tlvLen 2 srcLen).res = .ok rc) :
    rc = tlvLen ∧ tlvLen ≤ srcLen := by
  unfold decodeStructElem at h
  split at h
  · cases h
  · obtain ⟨⟨i, k⟩, -, hrest, -⟩ := res_bind_ok h
    dsimp only at hrest
    split at hrest
    · cases hrest
    · cases hrest
      omega

theorem decodeStringElem_ok (hsize : ei.elemSize = 1) (h32 : srcLen < 2 ^ 32) (hlen : ei.elemLen < 2 ^ 32)
    (h : (decodeStringElem inp ei base dst src tlvLen 1 srcLen).res = .ok rc) : rc = tlvLen ∧ tlvLen ≤ srcLen := by
  obtain ⟨⟨stringLen, used⟩, hstr, hrest, -⟩ := res_bind_ok h
  rw [decodeStringLen, if_pos rfl] at hstr
  cases hstr
  dsimp only at hrest
  split at hrest
  · cases hrest
  split at hrest
  · cases hrest
  obtain ⟨bs, hbs, hrest, -⟩ := res_bind_ok hrest
  obtain ⟨hle, rfl⟩ := decodeBasicElem_ok hbs
  cases hrest
  rw [hsize, Nat.mul_one] at hle
  rw [sub32_eq (Nat.zero_le _) (by omega), Nat.mod_eq_of_lt (by omega)] at hle
  rw [hsize, Nat.mul_one, length_peek]
  omega

/-- At the top, strings and structs take what is left of their TLV, and basic elements what
their entries need. -/
theorem decodePayload_ok (hok : FieldOk ei) (h32 : srcLen < 2 ^ 32)
    (h : (decodePayload inp dec 1 base ei src count tlvLen srcLen).res = .ok rc) :
    (isBasic ei.dataType → rc = count * ei.elemSize) ∧ (¬ isBasic ei.dataType → rc = tlvLen ∧ tlvLen ≤ srcLen) := by
  unfold decodePayload at h
  split at h
  · rename_i hbasic
    obtain ⟨bs, hbs, hrest, -⟩ := res_bind_ok h
    obtain ⟨-, rfl⟩ := decodeBasicElem_ok hbs
    cases hrest
    exact ⟨fun _ => length_peek _ _ _, fun h => absurd hbasic h⟩
  rename_i hbasic
  refine ⟨fun h => absurd h hbasic, fun _ => ?_⟩
  split at h
  · exact decodeStructElem_ok h
  split at h
  · rename_i hstring
    have hlen := hok.bounded
    rw [hok.string hstring, Nat.mul_one] at hlen
    exact decodeStringElem_ok (hok.string hstring) h32 hlen h
  · cases h

theorem dropOptFlag_suffix (eis : Table) : dropOptFlag eis <:+ eis := by
  cases eis with
  | nil => exact suffix_refl _
  | cons ei rest =>
    rw [dropOptFlag]
    split
    · exact suffix_cons ei rest
    · exact suffix_refl _

theorem dropDataLen_suffix (inp : Nat → UInt8) (src stale : Nat) (eis : Table) :
    (dropDataLen inp src stale eis).1 <:+ eis := by
  cases eis with
  | nil => exact suffix_refl _
  | cons ei rest =>
    rw [dropDataLen]
    split
    · exact suffix_cons ei rest
    · exact suffix_refl _

/-- After an element, `data_len_value` is left as it is by `staleAfter`, and the bytes used
are those declared exactly if `Declares`. -/
theorem decodeElem_ok (hT : Described (d + 1) table) (ht : eis <:+ table)
    (h31 : len < 2 ^ 31) (hpos : pos ≤ len) (htlv : tlvLen < 2 ^ 16)
    (h : (decodeElem inp dec 1 base src len tlvLen ⟨eis, stale, pos⟩).res = .ok st') :
    st'.dataLenValue = staleAfter inp (src + pos) stale eis ∧
      (st'.decodedBytes = pos + tlvLen ↔ Declares inp (src + pos) stale tlvLen eis) := by
  obtain ⟨eis', hflag, h, -⟩ := res_bind_ok h
  obtain rfl := decodeOptFlag_ok hflag
  obtain ⟨⟨⟨eis', v, k⟩, tlvLen'⟩, hdata, h, -⟩ := res_bind_ok h
  obtain ⟨v', lenSize, hdrop, hv, hk, hkle, htwo, hsame, hsub⟩ :=
    decodeDataLen_ok (by omega) hpos hdata
  dsimp only at hdrop hv hk hkle hsame hsub h
  subst hv
  cases eis' with
  | nil => cases h
  | cons ei rest =>
    dsimp only at h
    have hsuf : ei :: rest <:+ table := by
      have := dropDataLen_suffix inp (src + pos) stale (dropOptFlag eis)
      rw [hdrop] at this
      exact this.trans ((dropOptFlag_suffix eis).trans ht)
    obtain ⟨count, hcount, h, -⟩ := res_bind_ok h
    obtain ⟨rc, hrc, h, -⟩ := res_bind_ok h
    obtain rfl := decodeCount_ok hcount
    cases h
    have hstale : staleAfter inp (src + pos) stale eis = entries ei v := by
      rw [staleAfter, hdrop]
    refine ⟨hstale.symm, ?_⟩
    rcases hT.tail_cases hsuf with ⟨heoti, -⟩ | ⟨hok, -⟩
    · simp [decodePayload, heoti, isBasic] at hrc
    have h32 : sub32 len k < 2 ^ 32 := Nat.mod_lt _ (by decide)
    obtain ⟨hbasic, hother⟩ := decodePayload_ok hok h32 hrc
    rw [sub32_eq hkle (by omega)] at hother
    constructor
    · intro hdec ei' rest' v' lenSize' hdrop' hb
      rw [hdrop] at hdrop'
      cases hdrop'
      have hrc' := hbasic hb
      dsimp only at hdec
      omega
    · intro hdecl
      dsimp only
      by_cases hb : isBasic ei.dataType
      · have hrc' := hbasic hb
        have hlen := hdecl ei rest v lenSize hdrop hb
        omega
      · obtain ⟨hrc', hle⟩ := hother hb
        by_cases h0 : lenSize = 0
        · have := hsame h0
          omega
        · have := hsub h0
          unfold sub32 at this
          omega

end

section

theorem tiles_iff (hpos : pos < len) {tlvs : List (UInt8 × Nat)} : Tiles inp src len pos tlvs ↔ ∃ tlvs',
      tlvs = (tlvTypeAt inp (src + pos), tlvLenAt inp (src + pos)) :: tlvs' ∧
      pos + tlvHdrSize + tlvLenAt inp (src + pos) ≤ len ∧
      Tiles inp src len (pos + tlvHdrSize + tlvLenAt inp (src + pos)) tlvs' := by
  constructor
  · intro h
    cases h with
    | done => omega
    | tlv hle h => exact ⟨_, rfl, hle, h⟩
  · rintro ⟨tlvs', rfl, hle, h⟩
    exact .tlv hle h

theorem honest_le (h : Honest inp table src len stale pos) : pos ≤ len := by
  induction h with
  | done => exact Nat.le_refl _
  | unknown _ hle _ _ => omega
  | known _ _ _ ih => omega

theorem honest_unknown_iff (hpos : pos < len) (hfind : findEi table (tlvTypeAt inp (src + pos)) = none) :
    Honest inp table src len stale pos ↔
      Honest inp table src len stale (pos + tlvHdrSize + tlvLenAt inp (src + pos)) := by
  constructor
  · intro h
    cases h with
    | done => omega
    | unknown _ _ h => exact h
    | known hsome => simp [hfind] at hsome
  · intro h
    exact .unknown hfind (honest_le h) h

theorem honest_known_iff (hpos : pos < len) (hfind : findEi table (tlvTypeAt inp (src + pos)) = some eis) :
    Honest inp table src len stale pos ↔ Declares inp (src + (pos + tlvHdrSize)) stale (tlvLenAt inp (src + pos)) eis ∧
      Honest inp table src len (staleAfter inp (src + (pos + tlvHdrSize)) stale eis)
        (pos + tlvHdrSize + tlvLenAt inp (src + pos)) := by
  constructor
  · intro h
    cases h with
    | done => omega
    | unknown hnone => simp [hfind] at hnone
    | known hsome hdecl h =>
      rw [hfind] at hsome
      cases hsome
      exact ⟨hdecl, h⟩
  · rintro ⟨hdecl, h⟩
    exact .known hfind hdecl h

variable {hi lo : Nat} {r : Dec Nat}

/-- No TLV is recorded where only bytes are read and fields written. -/
theorem decodedTlvs_eq_nil {log : List Access} (h : ∀ a ∈ log, InBounds fieldSize False table base lo hi a) :
    decodedTlvs log = [] := by
  refine filterMap_eq_nil_iff.mpr (fun a ha => ?_)
  cases a with
  | read => rfl
  | write => rfl
  | element => exact (h _ ha).elim

theorem tlvLenAt_lt (inp : Nat → UInt8) (pos : Nat) : tlvLenAt inp pos < 2 ^ 16 := by
  have h := leNat_lt (peek inp (pos + 1) 2)
  rwa [length_peek] at h

theorem framed_skip (hpos : pos < len) (hnone : findEi table (tlvTypeAt inp (src + pos)) = none) (off k : Nat) :
    Framed inp table src len pos (emit (.read off k) >>= fun _ => r) ↔
      pos + tlvHdrSize + tlvLenAt inp (src + pos) ≤ len ∧
      Framed inp table src len (pos + tlvHdrSize + tlvLenAt inp (src + pos)) r := by
  have hexact : ∀ l tlvs, exactTlvs table ((tlvTypeAt inp (src + pos), l) :: tlvs) =
      exactTlvs table tlvs := by
    intro l tlvs
    simp [exactTlvs, hnone]
  constructor
  · rintro ⟨tlvs, htiles, hlog, hres⟩
    obtain ⟨tlvs', rfl, hle, htiles'⟩ := (tiles_iff hpos).mp htiles
    exact ⟨hle, tlvs', htiles', hlog.trans (hexact _ _), hres⟩
  · rintro ⟨hle, tlvs', htiles', hlog, hres⟩
    exact ⟨_, (tiles_iff hpos).mpr ⟨tlvs', rfl, hle, htiles'⟩, hlog.trans (hexact _ _).symm, hres⟩

theorem framed_elem {elem : Dec DecState} {used k off : Nat} (hpos : pos < len)
    (hsome : findEi table (tlvTypeAt inp (src + pos)) = some eis)
    (helem : ∀ a ∈ elem.log, InBounds fieldSize False table base lo hi a) (hres : elem.res = .ok st')
    {next : DecState → Dec Nat}
    (hnext : next st' = (emit (.element (tlvTypeAt inp (src + pos)) (tlvLenAt inp (src + pos)) used) >>= fun _ => r)) :
    Framed inp table src len pos (emit (.read off k) >>= fun _ => elem >>= next) ↔
      (used = tlvLenAt inp (src + pos) ∧ pos + tlvHdrSize + tlvLenAt inp (src + pos) ≤ len) ∧
      Framed inp table src len (pos + tlvHdrSize + tlvLenAt inp (src + pos)) r := by
  obtain ⟨log, res⟩ := elem
  dsimp only at hres helem
  subst hres
  have hlog : decodedTlvs (emit (.read off k) >>= fun _ => (⟨log, .ok st'⟩ : Dec DecState) >>= next).log =
      (tlvTypeAt inp (src + pos), tlvLenAt inp (src + pos), used) :: decodedTlvs r.log := by
    have happ : decodedTlvs (log ++ (next st').log) = decodedTlvs log ++ decodedTlvs (next st').log :=
      filterMap_append
    refine Eq.trans happ ?_
    rw [decodedTlvs_eq_nil helem, hnext]
    rfl
  have hexact : ∀ l tlvs, exactTlvs table ((tlvTypeAt inp (src + pos), l) :: tlvs) =
      (tlvTypeAt inp (src + pos), l, l) :: exactTlvs table tlvs := by
    intro l tlvs
    simp [exactTlvs, hsome]
  have hback : (emit (.read off k) >>= fun _ => (⟨log, .ok st'⟩ : Dec DecState) >>= next).res = r.res := by
    show (next st').res = r.res
    rw [hnext]
    rfl
  constructor
  · rintro ⟨tlvs, htiles, heq, hres⟩
    obtain ⟨tlvs', rfl, hle, htiles'⟩ := (tiles_iff hpos).mp htiles
    rw [hlog, hexact] at heq
    obtain ⟨hhead, htail⟩ := cons_eq_cons.mp heq
    simp only [Prod.mk.injEq, true_and] at hhead
    exact ⟨⟨hhead, hle⟩, tlvs', htiles', htail, hback.symm.trans hres⟩
  · rintro ⟨⟨hused, hle⟩, tlvs', htiles', heq, hres⟩
    refine ⟨_, (tiles_iff hpos).mpr ⟨tlvs', rfl, hle, htiles'⟩, ?_, hback.trans hres⟩
    rw [hlog, hexact, heq, hused]

/-- From any place that the loop reaches, an accepted message is framed if and only if it is
honest. -/
theorem decodeLoop_framed_iff (hT : Described (d + 1) table)
    (hdec : ∀ t, Described d t → NestedSafe dec t) (h31 : len < 2 ^ 31) (hpos : pos ≤ len)
    {t : Table} (h : (decodeLoop inp dec table 1 base src len fuel ⟨t, stale, pos⟩).res = .ok n) :
    Framed inp table src len pos (decodeLoop inp dec table 1 base src len fuel ⟨t, stale, pos⟩) ↔
      Honest inp table src len stale pos := by
  induction fuel generalizing t stale pos with
  | zero => cases h
  | succ fuel ih =>
    rw [decodeLoop] at h ⊢
    dsimp only at h ⊢
    by_cases hmore : pos < len
    · rw [if_pos hmore, if_pos rfl] at h ⊢
      by_cases hhdr : len < pos + tlvHdrSize
      · rw [if_pos hhdr] at h
        cases h
      rw [if_neg hhdr] at h ⊢
      cases hfind : findEi table (tlvTypeAt inp (src + pos)) with
      | none =>
        simp only [hfind] at h ⊢
        by_cases htype : tlvTypeAt inp (src + pos) < optionalTlvTypeStart
        · rw [if_pos htype] at h
          cases h
        rw [if_neg htype] at h ⊢
        rw [framed_skip hmore hfind, honest_unknown_iff hmore hfind]
        constructor
        · rintro ⟨hle, hframed⟩
          exact (ih hle h).mp hframed
        · intro hhonest
          exact ⟨honest_le hhonest, (ih (honest_le hhonest) h).mpr hhonest⟩
      | some eis =>
        simp only [hfind] at h ⊢
        obtain ⟨hne, hsuf⟩ := findEi_suffix hfind
        have hmeets : (decodeElem inp dec 1 base src len (tlvLenAt inp (src + pos))
            ⟨eis, stale, pos + tlvHdrSize⟩).Meets (InBounds fieldSize False table base src (src + len))
            IsErr _ :=
          decodeElem_meets (t := eis) hT hdec ⟨hne, hsuf, Nat.le_refl _⟩ h31 (by dsimp only; omega)
        obtain ⟨-, -, hloop, -⟩ := res_bind_ok h
        obtain ⟨st', helem, hloop', -⟩ := res_bind_ok hloop
        obtain ⟨-, -, hloop'', -⟩ := res_bind_ok hloop'
        obtain ⟨-, -, hge, hle⟩ := hmeets.returned st' helem
        dsimp only at hge
        obtain ⟨hstale, hdecl⟩ := decodeElem_ok hT hsuf h31 (by omega) (tlvLenAt_lt _ _) helem
        rw [framed_elem hmore hfind hmeets.logged helem rfl, honest_known_iff hmore hfind, ← hdecl, ← hstale]
        constructor
        · rintro ⟨⟨hused, -⟩, hframed⟩
          have hend : st'.decodedBytes = pos + tlvHdrSize + tlvLenAt inp (src + pos) := by omega
          refine ⟨hend, ?_⟩
          rw [← hend] at hframed ⊢
          exact (ih hle hloop'').mp hframed
        · rintro ⟨hend, hhonest⟩
          refine ⟨⟨by omega, by omega⟩, ?_⟩
          rw [← hend] at hhonest ⊢
          exact (ih hle hloop'').mpr hhonest
    · obtain rfl : pos = len := by omega
      rw [if_neg hmore]
      exact ⟨fun _ => .done, fun _ => ⟨[], .done, rfl, rfl⟩⟩

end

/-- Among the accepted messages, exactly the honest ones are split along their TLV headers. -/
theorem decode_framed_iff (d : Nat) (table : Table) (hT : Described d table) (inp : Nat → UInt8)
    (base src len n : Nat) (h31 : len < 2 ^ 31) (h : (qmiDecode inp d 1 table base src len).res = .ok n) :
    Framed inp table src len 0 (qmiDecode inp d 1 table base src len) ↔ Honest inp table src len 0 0 := by
  cases d with
  | zero => exact hT.elim
  | succ d =>
    rw [qmiDecode] at h ⊢
    refine decodeLoop_framed_iff hT (fun t ht dst s l hl => ?_) h31 (Nat.zero_le _) h
    exact (qmiDecode_meets ht (by omega) hl).mono (fun _ h => h.mono (fun h => by omega)) (fun _ h => h)
      (fun _ h => h (by omega))

section

/-- The TLV of `bytesTable` with two bytes. -/
def twoBytes : Nat → UInt8 := fun i => [1, 3, 0, 2, 7, 8][i]?.getD 0

theorem twoBytes_honest : Honest twoBytes bytesTable 0 6 0 0 := by
  have hfind : findEi bytesTable (tlvTypeAt twoBytes (0 + 0)) = some bytesTable := rfl
  refine .known hfind ?_ .done
  intro ei rest v k hdrop _
  cases hdrop
  rfl

theorem twoBytes_framed : (qmiDecode twoBytes 1 1 bytesTable 0 0 6).res = .ok 6 ∧
      Framed twoBytes bytesTable 0 6 0 (qmiDecode twoBytes 1 1 bytesTable 0 0 6) :=
  ⟨rfl, (decode_framed_iff 1 bytesTable bytesTable_described twoBytes 0 0 6 6 (by decide) rfl).mpr
    twoBytes_honest⟩

/-- An unknown TLV that declares five bytes where the message ends. -/
def overlong : Nat → UInt8 := fun i => [0x10, 5, 0][i]?.getD 0

theorem overlong_accepted : Described 1 bytesTable ∧ (qmiDecode overlong 1 1 bytesTable 0 0 3).res = .ok 8 ∧
      ¬ Framed overlong bytesTable 0 3 0 (qmiDecode overlong 1 1 bytesTable 0 0 3) := by
  have hres : (qmiDecode overlong 1 1 bytesTable 0 0 3).res = .ok 8 := rfl
  refine ⟨bytesTable_described, hres, ?_⟩
  rintro ⟨tlvs, -, -, hlen⟩
  rw [hres] at hlen
  cases hlen

end

end Sm8850.Qmi
