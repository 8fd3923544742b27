import Mathlib.Algebra.Order.BigOperators.Group.List
import Mathlib.Algebra.Order.Ring.Nat
import Sm8850.Qmi.Layout

/-! The encoder writes the pieces of the layout one after another, each behind a check of the
room that is left. -/
namespace Sm8850.Qmi

open Memory List Run Qmi.Group Piece EncState

variable {mem : Nat → UInt8} {α β : Type} {R D E k : Nat} {p : Piece} {ps qs : List Piece}

section

/-- What the check before a piece keeps free for the TLV header: nothing where a string in a
nested struct is checked. -/
def Piece.spare : Piece → Nat
  | .text width _ _ _ => if width = 0 then tlvHdrSize else 0
  | _ => tlvHdrSize

/-- The copies that write a piece at `off`. -/
def Piece.outs (off : Nat) : Piece → List Out
  | .text width _ _ bs =>
    if width = 0 then [⟨off, bs⟩] else [⟨off, leBytes width bs.length⟩, ⟨off + width, bs⟩]
  | p => [⟨off, p.wire⟩]

/-- Check and write pieces, `E` bytes being used already. -/
def gate (R D : Nat) : (E : Nat) → List Piece → Enc Nat
  | E, [] => pure E
  | E, p :: ps =>
    if R < E + p.size + p.spare then Run.fail (.err (-ETOOSMALL))
    else (⟨p.outs (D + E), .ok ()⟩ : Enc Unit) >>= fun _ => gate R D (E + p.size) ps

/-- The copies that write pieces one after the other. -/
def placed (D : Nat) : (E : Nat) → List Piece → List Out
  | _, [] => []
  | E, p :: ps => p.outs (D + E) ++ placed D (E + p.size) ps

/-- Write the pieces of a layout, and end as it does. -/
def gated (R D E : Nat) (r : Run Piece Stop α) : Enc (Nat × α) :=
  gate R D E r.log >>= fun E => match r.res with
    | .ok a => pure (E, a)
    | .error s => Run.fail s

theorem gate_append (ps qs : List Piece) : gate R D E (ps ++ qs) = gate R D E ps >>= fun E => gate R D E qs := by
  induction ps generalizing E with
  | nil => rfl
  | cons p ps ih =>
    rw [cons_append, gate, gate]
    split
    · rfl
    · rw [bind_assoc]
      congr 1
      funext _
      exact ih

@[simp] theorem gated_pure (a : α) : gated R D E (pure a) = pure (E, a) := rfl

theorem gated_bind (m : Run Piece Stop α) (f : α → Run Piece Stop β) :
    gated R D E (m >>= f) = gated R D E m >>= fun r => gated R D r.1 (f r.2) := by
  obtain ⟨log, s | a⟩ := m
  · show gate R D E log >>= _ = (gate R D E log >>= _) >>= _
    rw [bind_assoc]
    rfl
  · show gate R D E (log ++ (f a).log) >>= _ = (gate R D E log >>= _) >>= _
    rw [bind_assoc, gate_append, bind_assoc]
    rfl

theorem gated_emit_fail (h : R < E + p.size + p.spare) : gated R D E (emit p) = fail (.err (-ETOOSMALL)) := by
  show gate R D E [p] >>= _ = _
  rw [gate, if_pos h]
  rfl

theorem gated_emit_ok (h : E + p.size + p.spare ≤ R) :
    gated R D E (emit p) = ⟨p.outs (D + E), .ok (E + p.size, ())⟩ := by
  show gate R D E [p] >>= _ = _
  rw [gate, if_neg (by omega)]
  simp [gate, emit, bind_ok]

/-- Writing behind the first `k` bytes is writing into what is left. -/
theorem gate_shift (hk : k ≤ R) (ps : List Piece) :
    gate R D (k + E) ps = gate (R - k) (D + k) E ps >>= fun E => pure (k + E) := by
  induction ps generalizing E with
  | nil => rfl
  | cons p ps ih =>
    rw [gate, gate]
    by_cases hlt : R < k + E + p.size + p.spare
    · rw [if_pos hlt, if_pos (by omega)]
      rfl
    · rw [if_neg hlt, if_neg (by omega), bind_assoc, ← add_assoc D]
      congr 1
      funext _
      rw [add_assoc k]
      exact ih

theorem gated_shift (hk : k ≤ R) (r : Run Piece Stop α) :
    gated R D k r = gated (R - k) (D + k) 0 r >>= fun x => pure (k + x.1, x.2) := by
  have h := gate_shift (D := D) (E := 0) hk r.log
  rw [add_zero] at h
  rw [gated, h, gated, bind_assoc, bind_assoc]
  congr 1
  funext E
  obtain ⟨log, s | a⟩ := r
  · rfl
  · rfl

variable {E' : Nat}

theorem gate_ok (hE : E ≤ R) (h : (gate R D E ps).res = .ok E') : E' = E + wireSize ps ∧ E' ≤ R := by
  induction ps generalizing E with
  | nil =>
    cases h
    exact ⟨rfl, hE⟩
  | cons p ps ih =>
    rw [gate] at h
    split at h
    · cases h
    · obtain ⟨hsum, hle⟩ := ih (by omega) h
      rw [wireSize_cons]
      exact ⟨by omega, hle⟩

theorem log_gate_ok (h : (gate R D E ps).res = .ok E') : (gate R D E ps).log = placed D E ps := by
  induction ps generalizing E with
  | nil => rfl
  | cons p ps ih =>
    rw [gate] at h ⊢
    split at h
    · cases h
    · rename_i hroom
      rw [if_neg hroom, placed]
      exact congrArg (p.outs (D + E) ++ ·) (ih h)

theorem gated_ok {a : α} {r : Run Piece Stop α} (hE : E ≤ R) (h : (gated R D E r).res = .ok (E', a)) :
    r.res = .ok a ∧ E' = E + wireSize r.log ∧ E' ≤ R := by
  obtain ⟨E'', hgate, hrest, -⟩ := res_bind_ok h
  obtain ⟨log, s | b⟩ := r
  · cases hrest
  · cases hrest
    exact ⟨rfl, gate_ok hE hgate⟩

end

section
variable {enc : Table → (src dst outBufLen : Nat) → Enc Nat}
  {nested : Table → (base : Nat) → Run Piece Stop Unit} {g : Group} {s : EncState} {rest : Table}
  {l : ElemInfo} {top : Bool} {encLevel base n i count : Nat}

/-- A nested call of `qmi_encode` writes the pieces of its struct. -/
def Writes (enc : (src dst outBufLen : Nat) → Enc Nat) (nested : (base : Nat) → Run Piece Stop Unit) :
    Prop :=
  ∀ src dst R, R < 2 ^ 32 → enc src dst R = gated R dst 0 (nested src) >>= fun x => pure x.1

theorem encodeStructElem_eq {enc : (src dst outBufLen : Nat) → Enc Nat}
    {nested : (base : Nat) → Run Piece Stop Unit} (henc : Writes enc nested) (hR : R < 2 ^ 32)
    (hk : k ≤ R) (elemSize src : Nat) : encodeStructElem enc elemSize src D R n i k =
      gated R D k (structPieces nested elemSize src n i) >>= fun x => pure x.1 := by
  induction n generalizing i k with
  | zero => rfl
  | succ n ih =>
    rw [encodeStructElem, structPieces, sub32_eq hk (by omega), henc _ _ _ (by omega), gated_bind, gated_shift hk]
    simp only [bind_assoc, pure_bind]
    refine bind_congr (fun x hx => ?_)
    have hle := (gated_ok (Nat.zero_le _) hx).2.2
    exact ih (by omega)

theorem encodeCount_payload (hok : GroupOk g) (hlen : g.len = none) (v : Nat) :
    encodeCount g.payload v = pure (entries g.payload 0) := by
  have hvar : g.payload.arrayType ≠ .varLenArray := by
    intro h
    have := hok.varLen.mp h
    rw [hlen] at this
    cases this
  unfold encodeCount entries
  cases harr : g.payload.arrayType with
  | noArray => rfl
  | staticArray => rfl
  | varLenArray => exact absurd harr hvar

variable {v x fuel stale d : Nat} {ei e : ElemInfo} {t : UInt8} {gs : List Group} {table : Table} {size : Group → Nat}

theorem encodeCount_varLen (hok : GroupOk g) (hlen : g.len = some l) (hv : v ≠ 0) : encodeCount g.payload v =
      if g.payload.elemLen < v then fail (.err (-EINVAL)) else pure v := by
  have hvar : g.payload.arrayType = .varLenArray := hok.varLen.mpr (by simp [hlen])
  unfold encodeCount
  rw [hvar]
  simp [hv]

theorem encodeElem_basic (hbasic : isBasic ei.dataType) (hdst : s.bufDst = D + s.encodedBytes)
    (hsize : s.encodedBytes + s.dataLenValue * ei.elemSize < 2 ^ 32) :
    encodeElem mem enc encLevel base R ei rest s = gated R D s.encodedBytes (emit (.data (base + ei.offset)
        (peek mem (base + ei.offset) (s.dataLenValue * ei.elemSize)))) >>= fun x =>
        pure (s.update rest (x.1 - s.encodedBytes)) := by
  have hopt : ei.dataType ≠ .optFlag := by
    intro h
    simp [h, isBasic] at hbasic
  have hdata : ei.dataType ≠ .dataLen := by
    intro h
    simp [h, isBasic] at hbasic
  have hmod : (s.dataLenValue * ei.elemSize % 2 ^ 32 + s.encodedBytes) % 2 ^ 32 =
      s.encodedBytes + s.dataLenValue * ei.elemSize := by omega
  have hlen : (data (base + ei.offset)
      (peek mem (base + ei.offset) (s.dataLenValue * ei.elemSize))).size =
      s.dataLenValue * ei.elemSize := by rw [size_data, length_peek]
  have hspare : (data (base + ei.offset)
      (peek mem (base + ei.offset) (s.dataLenValue * ei.elemSize))).spare = tlvHdrSize := rfl
  rw [encodeElem, if_neg hopt, if_neg hdata, if_pos hbasic, hmod]
  by_cases hroom : R < s.encodedBytes + s.dataLenValue * ei.elemSize + tlvHdrSize
  · rw [if_pos hroom, gated_emit_fail (by omega)]
    rfl
  · rw [if_neg hroom, gated_emit_ok (by omega), hlen]
    simp [emit, bind_ok, outs, wire, hdst]

theorem encodeElem_struct (hstruct : ei.dataType = .struct) (henc : Writes (enc ei.eiArray) (nested ei.eiArray))
    (hdst : s.bufDst = D + s.encodedBytes) (hR : R - s.encodedBytes < 2 ^ 32) (hE : s.encodedBytes ≤ R) :
    encodeElem mem enc encLevel base R ei rest s = gated R D s.encodedBytes
        (structPieces (nested ei.eiArray) ei.elemSize (base + ei.offset) s.dataLenValue 0) >>= fun x =>
        pure (s.update rest (x.1 - s.encodedBytes)) := by
  have hbasic : ¬ isBasic ei.dataType := by simp [hstruct, isBasic]
  rw [encodeElem, if_neg (by simp [hstruct]), if_neg (by simp [hstruct]), if_neg hbasic, if_pos hstruct,
    sub32_eq hE hR, encodeStructElem_eq henc (by omega) (Nat.zero_le _), hdst, gated_shift hE]
  simp [bind_assoc]

theorem encodeElem_string (hstring : ei.dataType = .string) (hone : ei.elemSize = 1) (hlev : top ↔ encLevel = 1)
    (hdst : s.bufDst = D + s.encodedBytes) (hR : R - s.encodedBytes < 2 ^ 32) (hE : s.encodedBytes ≤ R)
    (hlen : ei.elemLen + 2 < 2 ^ 32) : encodeElem mem enc encLevel base R ei rest s =
      gated R D s.encodedBytes (payloadPieces mem nested top base ei count) >>= fun x =>
        pure (s.update rest (x.1 - s.encodedBytes)) := by
  have hbasic : ¬ isBasic ei.dataType := by simp [hstring, isBasic]
  have hstruct : ei.dataType ≠ .struct := by simp [hstring]
  have hpos := stringLenSize_pos ei
  have htwo := stringLenSize_le ei
  rw [encodeElem, if_neg (by simp [hstring]), if_neg (by simp [hstring]), if_neg hbasic, if_neg hstruct,
    if_pos hstring, sub32_eq hE hR, payloadPieces, if_neg hbasic, if_neg hstruct, encodeStringElem, hone]
  simp only [mul_one]
  by_cases hlong : ei.elemLen < strlen mem (base + ei.offset) (ei.elemLen + 1)
  · rw [if_pos hlong, if_pos hlong]
    rfl
  rw [if_neg hlong, if_neg hlong]
  obtain ⟨n, hn⟩ : ∃ n, strlen mem (base + ei.offset) (ei.elemLen + 1) = n := ⟨_, rfl⟩
  rw [hn] at hlong ⊢
  have hlen : ∀ width, (text width (base + ei.offset) ei.elemLen (peek mem (base + ei.offset) n)).size =
      width + n := by
    intro width
    rw [size_text, length_peek]
  cases top with
  | true =>
    have hspare : (text 0 (base + ei.offset) ei.elemLen (peek mem (base + ei.offset) n)).spare = tlvHdrSize := rfl
    have hlen0 := hlen 0
    rw [if_pos (hlev.mp rfl), if_pos rfl]
    by_cases hroom : R < s.encodedBytes + n + tlvHdrSize
    · rw [if_pos (by omega), gated_emit_fail (by omega)]
      rfl
    · rw [if_neg (by omega), gated_emit_ok (by omega), hlen0]
      simp only [emit, bind_ok, outs, hdst, zero_add, Nat.add_sub_cancel_left, if_true]
      rfl
  | false =>
    have hnot : ¬ encLevel = 1 := fun h => by simpa using hlev.mpr h
    have hne : stringLenSize ei ≠ 0 := by omega
    have hspare : (text (stringLenSize ei) (base + ei.offset) ei.elemLen
        (peek mem (base + ei.offset) n)).spare = 0 := by rw [spare, if_neg hne]
    have hlenw := hlen (stringLenSize ei)
    rw [if_neg hnot, if_neg Bool.false_ne_true, Nat.mod_eq_of_lt (by omega)]
    by_cases hroom : R < s.encodedBytes + (stringLenSize ei + n)
    · rw [if_pos (by omega), gated_emit_fail (by omega)]
      rfl
    · rw [if_neg (by omega), gated_emit_ok (by omega), hlenw]
      simp only [emit, bind_ok, outs, if_neg hne, hdst, Nat.add_sub_cancel_left, length_peek]
      rfl

/-- The switch of `qmi_encode` writes the data of a group. -/
theorem encodeElem_payload (hok : GroupOk g)
    (henc : g.payload.dataType = .struct → Writes (enc g.payload.eiArray) (nested g.payload.eiArray))
    (hlev : top ↔ encLevel = 1) (hcount : s.dataLenValue = count)
    (hdst : s.bufDst = D + s.encodedBytes) (hR : R - s.encodedBytes < 2 ^ 32) (hE : s.encodedBytes ≤ R)
    (hlen : g.payload.dataType = .string → g.payload.elemLen + 2 < 2 ^ 32) (hsize : s.encodedBytes +
      wireSize (payloadPieces mem nested top base g.payload count).log < 2 ^ 32) :
    encodeElem mem enc encLevel base R g.payload rest s =
      gated R D s.encodedBytes (payloadPieces mem nested top base g.payload count) >>= fun x =>
        pure (s.update rest (x.1 - s.encodedBytes)) := by
  subst hcount
  have hfield := hok.field g.payload (by simp [elems])
  rcases hok.kind with hbasic | hstruct | hstring
  · simp only [payloadPieces, if_pos hbasic, emit, wireSize_cons, size_data, length_peek] at hsize
    rw [encodeElem_basic hbasic hdst (by omega), payloadPieces, if_pos hbasic]
  · have hbasic : ¬ isBasic g.payload.dataType := by simp [hstruct, isBasic]
    rw [encodeElem_struct hstruct (henc hstruct) hdst hR hE, payloadPieces, if_neg hbasic, if_pos hstruct]
  · exact encodeElem_string hstring (hfield.string hstring) hlev hdst hR hE (hlen hstring)

theorem overlay_one {bs : List UInt8} (h : bs ≠ []) : overlay 1 bs = leNat bs := by
  refine overlay_of_lt (Nat.one_lt_pow ?_ (by decide))
  exact fun h0 => h (length_eq_zero_iff.mp h0)

/-- The state behind a length. -/
def EncState.afterLen (s : EncState) (encLevel : Nat) (rest : Table) (v rc : Nat) : EncState :=
  if v = 0 then
    { s.update rest rc with dataLenValue := v, tempEi := skipToNextElem encLevel rest }
  else { s.update rest rc with dataLenValue := v, encodeTlv := false }

theorem encodeElem_len (hok : GroupOk g) (hl : g.len = some l) (hone : s.dataLenValue = 1)
    (hdst : s.bufDst = D + s.encodedBytes) (hsize : s.encodedBytes + dataLenSize l < 2 ^ 32) (stale : Nat) :
    encodeElem mem enc encLevel base R l rest s =
      gated R D s.encodedBytes (emit (.count (dataLenSize l) (base + l.offset)
        (storedLen mem base l) stale)) >>= fun x =>
        pure (s.afterLen encLevel rest (storedLen mem base l) (x.1 - s.encodedBytes)) := by
  obtain ⟨htype, -, hsz⟩ := hok.len l (by simp [hl])
  have hv : overlay s.dataLenValue (peek mem (base + l.offset) l.elemSize) = storedLen mem base l := by
    rw [hone, storedLen]
    refine overlay_one (fun h => ?_)
    have := congrArg length h
    rw [length_peek] at this
    simp only [length_nil] at this
    omega
  have hspare : (count (dataLenSize l) (base + l.offset) (storedLen mem base l) stale).spare = tlvHdrSize := rfl
  have hlen := size_count (dataLenSize l) (base + l.offset) (storedLen mem base l) stale
  have hmod : (dataLenSize l + s.encodedBytes) % 2 ^ 32 = s.encodedBytes + dataLenSize l := by omega
  rw [encodeElem, if_neg (by simp [htype]), if_pos htype, encodeDataLen, hv, hmod]
  by_cases hroom : R < s.encodedBytes + dataLenSize l + tlvHdrSize
  · rw [if_pos hroom, gated_emit_fail (by omega)]
    rfl
  · rw [if_neg hroom, gated_emit_ok (by omega), hlen]
    simp only [emit, bind_ok, outs, wire, hdst, Nat.add_sub_cancel_left, afterLen]
    split
    · rfl
    · rfl

/-- The state behind a group, of which `x` bytes in all and `v` entries were encoded. -/
def EncState.behind (s : EncState) (rest : Table) (D x v : Nat) : EncState :=
  { s with
    tempEi := rest
    dataLenValue := v
    encodedBytes := x
    tlvLen := s.tlvLen + (x - s.encodedBytes)
    bufDst := D + x
    encodeTlv := true }

theorem update_eq_behind (hdst : s.bufDst = D + s.encodedBytes) (hx : s.encodedBytes ≤ x) :
    update { s with dataLenValue := v } rest (x - s.encodedBytes) =
      s.behind rest D x v := by
  simp only [update, behind, EncState.mk.injEq, true_and, and_true]
  omega

theorem encodeLoop_cons (htemp : s.tempEi = ei :: rest) (heoti : ei.dataType ≠ .eoti) :
    encodeLoop mem enc encLevel base R (fuel + 1) s = encodeCount ei s.dataLenValue >>= fun count =>
        encodeElem mem enc encLevel base R ei rest { s with dataLenValue := count } >>= fun s =>
          encodeTlvHdr encLevel ei.tlvType s >>= encodeLoop mem enc encLevel base R fuel := by
  rw [encodeLoop]
  simp [htemp, if_neg heoti]

/-- The loop of `qmi_encode` on a group without a length, whose data is encoded as with the room
`L`. -/
theorem encodeLoop_plain (hok : GroupOk g) (hl : g.len = none)
    (henc : g.payload.dataType = .struct → Writes (enc g.payload.eiArray) (nested g.payload.eiArray))
    (hlev : top ↔ encLevel = 1) (htemp : s.tempEi = g.payload :: rest) (hdst : s.bufDst = D + s.encodedBytes)
    {L : Nat} (hR : L - s.encodedBytes < 2 ^ 32) (hE : s.encodedBytes ≤ L)
    (hL : encodeElem mem enc encLevel base R g.payload rest { s with dataLenValue := entries g.payload 0 } = encodeElem mem enc encLevel base L g.payload rest { s with dataLenValue := entries g.payload 0 })
    (hlen : g.payload.dataType = .string → g.payload.elemLen + 2 < 2 ^ 32)
    (hsize : s.encodedBytes + wireSize (groupPieces mem nested top base stale g).log < 2 ^ 32) :
    encodeLoop mem enc encLevel base R (fuel + 1) s =
      gated L D s.encodedBytes (groupPieces mem nested top base stale g) >>= fun x =>
        encodeTlvHdr encLevel g.tlvType (s.behind rest D x.1 x.2) >>=
          encodeLoop mem enc encLevel base R fuel := by
  have heoti : g.payload.dataType ≠ .eoti := (hok.field g.payload (by simp [elems])).notEoti
  have hpieces : groupPieces mem nested top base stale g =
      payloadPieces mem nested top base g.payload (entries g.payload 0) >>= fun _ =>
        pure (entries g.payload 0) := by simp only [groupPieces, hl]
  rw [hpieces] at hsize ⊢
  rw [log_bind_pure] at hsize
  rw [encodeLoop_cons htemp heoti, encodeCount_payload hok hl, pure_bind, hL,
    encodeElem_payload (s := { s with dataLenValue := entries g.payload 0 }) hok henc hlev rfl hdst hR hE
      hlen hsize, gated_bind, bind_assoc, bind_assoc]
  refine bind_congr (fun x hx => ?_)
  obtain ⟨-, hsum, -⟩ := gated_ok hE hx
  rw [pure_bind, update_eq_behind hdst (by dsimp only at hsum; omega), gated_pure, pure_bind]
  rfl

theorem log_emit_bind {ε δ : Type} (e : ε) (f : Unit → Run ε δ β) : (emit e >>= f).log = e :: (f ()).log := rfl

theorem encodeTlvHdr_congr {t' : UInt8} (h : encLevel = 1 → t = t') :
    encodeTlvHdr encLevel t s = encodeTlvHdr encLevel t' s := by
  by_cases hlev : encLevel = 1
  · rw [h hlev]
  · rw [encodeTlvHdr, if_neg (fun h => hlev h.2), encodeTlvHdr, if_neg (fun h => hlev h.2)]

theorem encodeTlvHdr_off (h : s.encodeTlv = false) : encodeTlvHdr encLevel t s = pure s := by
  rw [encodeTlvHdr, if_neg (by simp [h])]

/-- The loop of `qmi_encode` on the length of a group. -/
theorem encodeLoop_len (hok : GroupOk g) (hl : g.len = some l) (htemp : s.tempEi = l :: ei :: rest)
    (hdst : s.bufDst = D + s.encodedBytes) (hsize : s.encodedBytes + dataLenSize l < 2 ^ 32) (stale fuel : Nat) :
    encodeLoop mem enc encLevel base R (fuel + 1) s = gated R D s.encodedBytes
          (emit (.count (dataLenSize l) (base + l.offset) (storedLen mem base l) stale)) >>=
        fun x => encodeTlvHdr encLevel l.tlvType (afterLen { s with dataLenValue := 1 }
            encLevel (ei :: rest) (storedLen mem base l) (x.1 - s.encodedBytes)) >>=
          encodeLoop mem enc encLevel base R fuel := by
  have hleoti : l.dataType ≠ .eoti := (hok.field l (by simp [elems, hl])).notEoti
  obtain ⟨-, hno, -⟩ := hok.len l (by simp [hl])
  have hone : ∀ v, encodeCount l v = pure 1 := by
    intro v
    simp [encodeCount, hno]
  rw [encodeLoop_cons htemp hleoti, hone, pure_bind,
    encodeElem_len (s := { s with dataLenValue := 1 }) hok hl rfl hdst hsize stale, bind_assoc]
  simp [pure_bind]

section
variable (hok : GroupOk g)
  (henc : g.payload.dataType = .struct → Writes (enc g.payload.eiArray) (nested g.payload.eiArray))
  (hlev : top = true ↔ encLevel = 1) (hskip : skipToNextElem encLevel (g.payload :: rest) = rest)
  (hdst : s.bufDst = D + s.encodedBytes) (hR : R < 2 ^ 32) (hE : s.encodedBytes ≤ R)
  (hlen : g.payload.dataType = .string → g.payload.elemLen + 2 < 2 ^ 32)
  (hsize : s.encodedBytes + wireSize (groupPieces mem nested top base stale g).log < 2 ^ 32)
include hok henc hlev hskip hdst hR hE hlen hsize

/-- The loop of `qmi_encode` on a group with a length. -/
theorem encodeLoop_counted (hl : g.len = some l) (htype : encLevel = 1 → l.tlvType = g.tlvType)
    (htemp : s.tempEi = l :: g.payload :: rest) :
    ∃ fuel', fuel ≤ fuel' ∧ encodeLoop mem enc encLevel base R (fuel + 2) s =
      gated R D s.encodedBytes (groupPieces mem nested top base stale g) >>= fun x =>
        encodeTlvHdr encLevel g.tlvType (s.behind rest D x.1 x.2) >>= encodeLoop mem enc encLevel base R fuel' := by
  have heoti : g.payload.dataType ≠ .eoti := (hok.field g.payload (by simp [elems])).notEoti
  obtain ⟨v, hv⟩ : ∃ v, storedLen mem base l = v := ⟨_, rfl⟩
  have hpieces : groupPieces mem nested top base stale g =
      emit (.count (dataLenSize l) (base + l.offset) v stale) >>= fun _ =>
        if v = 0 then pure 0
        else if g.payload.elemLen < v then fail (.err (-EINVAL))
        else payloadPieces mem nested top base g.payload v >>= fun _ => pure v := by
    simp [groupPieces, hl, hv]
  rw [hpieces] at hsize ⊢
  rw [log_emit_bind, wireSize_cons, size_count] at hsize
  rw [encodeLoop_len hok hl htemp hdst (by omega) stale, hv, gated_bind]
  by_cases h0 : v = 0
  · refine ⟨fuel + 1, by omega, ?_⟩
    rw [bind_assoc]
    refine bind_congr (fun x hx => ?_)
    obtain ⟨-, hsum, -⟩ := gated_ok hE hx
    rw [if_pos h0, gated_pure, pure_bind, encodeTlvHdr_congr htype, afterLen, if_pos h0, hskip, h0]
    congr 2
    simp only [update, behind, EncState.mk.injEq, true_and, and_true]
    omega
  · refine ⟨fuel, le_rfl, ?_⟩
    rw [bind_assoc]
    refine bind_congr (fun x hx => ?_)
    obtain ⟨-, hsum, hxR⟩ := gated_ok hE hx
    rw [if_neg h0] at hsize
    rw [if_neg h0, afterLen, if_neg h0, encodeTlvHdr_off rfl, pure_bind,
      encodeLoop_cons rfl heoti, encodeCount_varLen hok hl h0]
    by_cases hlong : g.payload.elemLen < v
    · rw [if_pos hlong, if_pos hlong]
      rfl
    rw [if_neg hlong] at hsize
    rw [if_neg hlong, if_neg hlong, pure_bind]
    obtain ⟨s₁, hs₁⟩ : ∃ s₁, s₁ = { update { s with dataLenValue := 1 } (g.payload :: rest)
        (x.1 - s.encodedBytes) with dataLenValue := v, encodeTlv := false } := ⟨_, rfl⟩
    have hE₁ : s₁.encodedBytes = x.1 := by
      rw [hs₁]
      show s.encodedBytes + (x.1 - s.encodedBytes) = x.1
      omega
    have hdst₁ : s₁.bufDst = D + s₁.encodedBytes := by
      rw [hE₁, hs₁]
      show s.bufDst + (x.1 - s.encodedBytes) = D + x.1
      omega
    have hxlen : x.1 = s.encodedBytes + dataLenSize l := by
      rw [hsum, show (emit (count (dataLenSize l) (base + l.offset) v stale) :
        Run Piece Stop Unit).log = [.count (dataLenSize l) (base + l.offset) v stale] from rfl,
        wireSize_cons, size_count]
      rfl
    rw [log_bind_pure] at hsize
    have hv₁ : s₁.dataLenValue = v := by rw [hs₁]
    rw [← hs₁, ← hE₁, encodeElem_payload (s := s₁) hok henc hlev hv₁ hdst₁ (by omega) (by omega) hlen
      (by omega), gated_bind, bind_assoc, bind_assoc]
    refine bind_congr (fun y hy => ?_)
    obtain ⟨-, hsum', -⟩ := gated_ok (by omega) hy
    rw [pure_bind, gated_pure, pure_bind]
    congr 2
    rw [hs₁]
    simp only [update, behind, EncState.mk.injEq, true_and, and_true]
    omega

/-- The loop of `qmi_encode` on what follows the flag of a group. -/
theorem encodeLoop_body (htype : encLevel = 1 → ∀ l ∈ g.len, l.tlvType = g.tlvType)
    (htemp : s.tempEi = g.len.toList ++ g.payload :: rest) (hfuel : s.tempEi.length < fuel) : ∃ fuel', rest.length < fuel' ∧ encodeLoop mem enc encLevel base R fuel s =
      gated R D s.encodedBytes (groupPieces mem nested top base stale g) >>= fun x =>
        encodeTlvHdr encLevel g.tlvType (s.behind rest D x.1 x.2) >>= encodeLoop mem enc encLevel base R fuel' := by
  cases hl : g.len with
  | none =>
    rw [hl] at htemp
    rw [htemp] at hfuel
    simp only [Option.toList_none, nil_append, length_cons] at hfuel
    obtain ⟨f, rfl⟩ : ∃ f, fuel = f + 1 := ⟨fuel - 1, by omega⟩
    exact ⟨f, by omega, encodeLoop_plain hok hl henc hlev htemp hdst (by omega) hE rfl hlen hsize⟩
  | some l =>
    rw [hl] at htemp
    rw [htemp] at hfuel
    simp only [Option.toList_some, singleton_append, length_cons] at hfuel
    obtain ⟨f, rfl⟩ : ∃ f, fuel = f + 2 := ⟨fuel - 2, by omega⟩
    obtain ⟨f', hf', heq⟩ : ∃ f', f ≤ f' ∧ encodeLoop mem enc encLevel base R (f + 2) s = _ :=
      encodeLoop_counted hok henc hlev hskip hdst hR hE hlen hsize hl (fun h => htype h l (by simp [hl])) htemp
    exact ⟨f', by omega, heq⟩

end

theorem wireSize_bind_ge (m : Run Piece Stop α) (f : α → Run Piece Stop β) :
    wireSize m.log ≤ wireSize (m >>= f).log := by
  obtain ⟨log, e | a⟩ := m
  · exact le_rfl
  · show wireSize log ≤ wireSize (log ++ (f a).log)
    rw [wireSize_append]
    omega

theorem wireSize_bind_ok {m : Run Piece Stop α} {f : α → Run Piece Stop β} {a : α}
    (h : m.res = .ok a) : wireSize (m >>= f).log = wireSize m.log + wireSize (f a).log := by
  obtain ⟨log, res⟩ := m
  subst h
  show wireSize (log ++ (f a).log) = _
  rw [wireSize_append]

/-- The loop of `qmi_encode` on the groups of a nested struct. -/
theorem encodeLoop_nested (he : e.dataType = .eoti) (hok : ∀ g ∈ gs, GroupOk g ∧ g.flag = none)
    (henc : ∀ g ∈ gs, g.payload.dataType = .struct → Writes (enc g.payload.eiArray) (nested g.payload.eiArray))
    (hlen : ∀ g ∈ gs, g.payload.dataType = .string → g.payload.elemLen + 2 < 2 ^ 32) (hlev : 1 < encLevel)
    (htemp : s.tempEi = gs.flatMap elems ++ [e]) (hdst : s.bufDst = D + s.encodedBytes) (hR : R < 2 ^ 32)
    (hE : s.encodedBytes ≤ R)
    (hsize : s.encodedBytes + wireSize (groupsPieces mem nested false base stale gs).log < 2 ^ 32)
    (hfuel : s.tempEi.length < fuel) : encodeLoop mem enc encLevel base R fuel s =
      gated R D s.encodedBytes (groupsPieces mem nested false base stale gs) >>= fun x => pure x.1 := by
  induction gs generalizing s stale fuel with
  | nil =>
    obtain ⟨f, rfl⟩ : ∃ f, fuel = f + 1 := ⟨fuel - 1, by omega⟩
    rw [encodeLoop]
    simp only [htemp, flatMap_nil, nil_append, if_pos he]
    rfl
  | cons g gs ih =>
    obtain ⟨hg, hflag⟩ := hok g (by simp)
    have htemp' : s.tempEi = g.len.toList ++ g.payload :: (gs.flatMap elems ++ [e]) := by
      rw [htemp]
      simp [elems, hflag]
    rw [groupsPieces] at hsize ⊢
    have hge := wireSize_bind_ge (groupPieces mem nested false base stale g)
      (fun stale => groupsPieces mem nested false base stale gs)
    have hnot : ¬ encLevel = 1 := by omega
    have hsize' : s.encodedBytes + wireSize (groupPieces mem nested false base stale g).log < 2 ^ 32 := by
      omega
    obtain ⟨f, hf, heq⟩ := encodeLoop_body hg (henc g (by simp)) (by simp [hnot]) (by rw [skipToNextElem, if_pos hlev])
      hdst hR hE (hlen g (by simp)) hsize' (fun h => absurd h hnot) htemp' hfuel
    rw [heq, gated_bind, bind_assoc]
    refine bind_congr (fun x hx => ?_)
    obtain ⟨hres, hsum, hle⟩ := gated_ok hE hx
    rw [wireSize_bind_ok hres] at hsize
    rw [encodeTlvHdr, if_neg (fun h => hnot h.2), pure_bind]
    exact ih (fun g hg => hok g (.tail _ hg))
      (fun g hg => henc g (.tail _ hg)) (fun g hg => hlen g (.tail _ hg))
      rfl rfl hle (by show x.1 + _ < _; omega) hf

theorem entrySize_le_maxWire (hg : g ∈ groups table) :
    7 + g.payload.elemLen * entrySize (maxWire d g.payload.eiArray) g.payload ≤ maxWire (d + 1) table := by
  exact single_le_sum (fun _ _ => Nat.zero_le _) _ (mem_map.mpr ⟨g, hg, rfl⟩)

/-- `qmi_encode` on a nested struct writes its pieces. -/
theorem qmiEncode_writes (hT : WellFormed d table) (hflag : ∀ g ∈ groups table, g.flag = none)
    (hmax : maxWire d table < 2 ^ 31) (hlev : 1 < encLevel) :
    Writes (qmiEncode mem d encLevel table) (pieces mem d table) := by
  induction d generalizing table encLevel with
  | zero => exact hT.elim
  | succ d ih =>
    intro src dst R hR
    have hbound : wireSize (pieces mem (d + 1) table src).log ≤ maxWire (d + 1) table :=
      wireSize_pieces_le hT
    obtain ⟨⟨e, htable, he⟩, hgroups⟩ := hT
    have hne : table ≠ [] := by
      rw [htable]
      simp
    have hentry : ∀ g ∈ groups table,
        7 + g.payload.elemLen * entrySize (maxWire d g.payload.eiArray) g.payload < 2 ^ 31 :=
      fun g hg => lt_of_le_of_lt (entrySize_le_maxWire hg) hmax
    have hpos : ∀ g ∈ groups table, 0 < g.payload.elemLen := fun g hg =>
      ((hgroups g hg).1.field g.payload (by simp [elems])).elemLen_pos
    rw [pieces] at hbound ⊢
    rw [qmiEncode, if_neg hne]
    simp only [if_neg (show ¬ encLevel = 1 by omega)]
    refine encodeLoop_nested (D := dst) he (fun g hg => ⟨(hgroups g hg).1, hflag g hg⟩)
      (fun g hg hstruct => ?_) (fun g hg hstring => ?_) hlev htable rfl hR (Nat.zero_le _) ?_
      (Nat.lt_succ_self _)
    · obtain ⟨hT', hflag', -⟩ := (hgroups g hg).2 hstruct
      have h := hentry g hg
      rw [entrySize, if_pos hstruct] at h
      have hmul : maxWire d g.payload.eiArray ≤ g.payload.elemLen * maxWire d g.payload.eiArray :=
        Nat.le_mul_of_pos_left _ (hpos g hg)
      exact ih hT' hflag' (by omega) (by omega)
    · have h := hentry g hg
      have hone := ((hgroups g hg).1.field g.payload (by simp [elems])).string hstring
      rw [entrySize, if_neg (by simp [hstring]), hone] at h
      omega
    · show 0 + _ < _
      omega

/-- The state in front of a TLV, with `E` bytes encoded. -/
def EncState.front (rest : Table) (v dst E : Nat) : EncState :=
  ⟨rest, v, E, 0, dst + E, dst + tlvHdrSize + E, false⟩

theorem skip_head (h : ∀ ei ∈ rest, ei.tlvType ≠ g.tlvType) :
    rest.dropWhile (fun e => e.tlvType = g.tlvType) = rest := by
  cases rest with
  | nil => rfl
  | cons ei rest => simp [h ei (by simp)]

theorem encodeLoop_flag {f : ElemInfo} (hok : GroupOk g) (hf : g.flag = some f) (htemp : s.tempEi = f :: rest)
    (hoff : s.encodeTlv = false) :
    encodeLoop mem enc encLevel base R (fuel + 1) s = encodeLoop mem enc encLevel base R fuel { s with
          tempEi := if mem (base + f.offset) ≠ 0 then rest else skipToNextElem encLevel (f :: rest)
          dataLenValue := 1 } := by
  obtain ⟨htype, hno⟩ := hok.flag f (by simp [hf])
  have heoti : f.dataType ≠ .eoti := by simp [htype]
  have hone : encodeCount f s.dataLenValue = pure 1 := by simp only [encodeCount, hno]
  have hhdr : encodeTlvHdr encLevel f.tlvType
        (encodeOptFlag mem encLevel base f rest { s with dataLenValue := 1 }) =
      pure (encodeOptFlag mem encLevel base f rest { s with dataLenValue := 1 }) :=
    encodeTlvHdr_off hoff
  rw [encodeLoop_cons htemp heoti, hone, pure_bind, encodeElem, if_pos htype, pure_bind, hhdr, pure_bind]
  rfl

/-- What the loop needs to know of a group at the top. -/
structure TopReady (mem : Nat → UInt8) (enc : Table → (src dst outBufLen : Nat) → Enc Nat)
    (nested : Table → (base : Nat) → Run Piece Stop Unit) (size : Group → Nat) (g : Group) : Prop where
  ok : GroupOk g
  writes : g.payload.dataType = .struct → Writes (enc g.payload.eiArray) (nested g.payload.eiArray)
  same : ∀ ei ∈ g.elems, ei.tlvType = g.tlvType
  string : g.payload.dataType = .string → g.payload.elemLen + 2 < 2 ^ 32
  size_le : ∀ base stale, wireSize (groupPieces mem nested true base stale g).log + tlvHdrSize ≤ size g
  filled : ∀ base stale, Filled (groupPieces mem nested true base stale g)
  ends : ∀ base stale, LaysOut true (groupPieces mem nested true base stale g)

/-- A group whose flag is cleared is skipped. -/
theorem encodeLoop_absent (hg : TopReady mem enc nested size g) (hrest : ∀ ei ∈ rest, ei.tlvType ≠ g.tlvType)
    (habsent : g.present mem base = false) (v dst E : Nat) (hfuel : (g.elems ++ rest).length < fuel) : ∃ fuel', rest.length < fuel' ∧
      encodeLoop mem enc 1 base R fuel (.front (g.elems ++ rest) v dst E) =
        encodeLoop mem enc 1 base R fuel' (.front rest 1 dst E) := by
  cases hf : g.flag with
  | none => simp [present, hf] at habsent
  | some f =>
    have hclear : ¬ mem (base + f.offset) ≠ 0 := by simpa [present, hf] using habsent
    have helems : g.elems = f :: (g.len.toList ++ [g.payload]) := by simp [elems, hf]
    rw [helems] at hfuel
    simp only [cons_append, length_cons, length_append] at hfuel
    obtain ⟨n, rfl⟩ : ∃ n, fuel = n + 1 := ⟨fuel - 1, by omega⟩
    refine ⟨n, by omega, ?_⟩
    have htype : f.tlvType = g.tlvType := hg.same f (by simp [helems])
    have hskip : skipToNextElem 1 (f :: (g.len.toList ++ [g.payload] ++ rest)) = rest := by
      rw [skipToNextElem, if_neg (by omega), htype, dropWhile_append_of_pos, skip_head hrest]
      intro ei hei
      rw [decide_eq_true_eq]
      exact hg.same ei (by rw [helems]; exact .tail _ hei)
    rw [helems, cons_append, encodeLoop_flag hg.ok hf rfl rfl, if_neg hclear, hskip]
    rfl

/-- The flag of a group that is present is passed over. -/
theorem encodeLoop_set (hok : GroupOk g) (hpresent : g.present mem base) (v dst E : Nat)
    (hfuel : (g.elems ++ rest).length < fuel) : ∃ fuel' v', (g.len.toList ++ g.payload :: rest).length < fuel' ∧
      encodeLoop mem enc 1 base R fuel (.front (g.elems ++ rest) v dst E) =
        encodeLoop mem enc 1 base R fuel' (.front (g.len.toList ++ g.payload :: rest) v' dst E) := by
  cases hf : g.flag with
  | none =>
    have helems : g.elems ++ rest = g.len.toList ++ g.payload :: rest := by simp [elems, hf]
    rw [helems] at hfuel ⊢
    exact ⟨fuel, v, hfuel, rfl⟩
  | some f =>
    have hset : mem (base + f.offset) ≠ 0 := by simpa [present, hf] using hpresent
    have helems : g.elems ++ rest = f :: (g.len.toList ++ g.payload :: rest) := by
      simp [elems, hf]
    rw [helems] at hfuel ⊢
    rw [length_cons] at hfuel
    obtain ⟨n, rfl⟩ : ∃ n, fuel = n + 1 := ⟨fuel - 1, by omega⟩
    refine ⟨n, 1, by omega, ?_⟩
    rw [encodeLoop_flag hok hf rfl rfl, if_pos hset]
    rfl

theorem encodeTlvHdr_front {dst E v' : Nat} {next : EncState → Enc Nat} {temp : Table} :
    encodeTlvHdr 1 t ((front temp v dst E).behind rest (dst + tlvHdrSize) x v') >>= next =
      emit ⟨dst + E, t :: leBytes 2 (x - E)⟩ >>= fun _ => next (.front rest v' dst (x + tlvHdrSize)) := by
  have hlen : ((front temp v dst E).behind rest (dst + tlvHdrSize) x v').tlvLen = x - E :=
    zero_add _
  rw [encodeTlvHdr, if_pos ⟨rfl, rfl⟩, bind_assoc, hlen]
  refine bind_congr (fun _ _ => ?_)
  rw [pure_bind]
  congr 1
  simp only [behind, front, EncState.mk.injEq, true_and, and_true]
  omega

/-- Once the encoder is behind its buffer, the room that it computes for a struct or a string
wraps around. -/
theorem encodeElem_wrap (hbasic : ¬ isBasic ei.dataType) (hlen : ei.dataType ≠ .dataLen) :
    encodeElem mem enc encLevel base R ei rest s = encodeElem mem enc encLevel base (R + 2 ^ 32) ei rest s := by
  have hsub : sub32 (R + 2 ^ 32) s.encodedBytes = sub32 R s.encodedBytes := by
    unfold sub32
    omega
  rw [encodeElem, encodeElem, if_neg hlen, if_neg hlen, if_neg hbasic, if_neg hbasic, hsub]

section
variable (hg : TopReady mem enc nested size g) (hpresent : g.present mem base = true) (v dst E stale : Nat)
  (hsize : E + wireSize (groupPieces mem nested true base stale g).log < 2 ^ 32) (hfuel : (g.elems ++ rest).length < fuel)
include hg hpresent hsize hfuel

/-- A group that is present is written behind the place for its header, then the header. -/
theorem encodeLoop_present (hrest : ∀ ei ∈ rest, ei.tlvType ≠ g.tlvType) (hR : R < 2 ^ 32) (hE : E ≤ R) :
    ∃ fuel', rest.length < fuel' ∧ encodeLoop mem enc 1 base R fuel (.front (g.elems ++ rest) v dst E) =
        gated R (dst + tlvHdrSize) E (groupPieces mem nested true base stale g) >>= fun x =>
          emit ⟨dst + E, g.tlvType :: leBytes 2 (x.1 - E)⟩ >>= fun _ =>
            encodeLoop mem enc 1 base R fuel' (.front rest x.2 dst (x.1 + tlvHdrSize)) := by
  have hskip : skipToNextElem 1 (g.payload :: rest) = rest := by
    exact skip_head hrest
  have hlen : ∀ l ∈ g.len, l.tlvType = g.tlvType := by
    intro l hl
    refine hg.same l ?_
    simp only [elems, mem_append, Option.mem_toList]
    exact .inr (.inl hl)
  obtain ⟨f, v', hf, hset⟩ := encodeLoop_set hg.ok hpresent v dst E hfuel
  obtain ⟨f', hf', heq⟩ := encodeLoop_body (s := .front (g.len.toList ++ g.payload :: rest) v' dst E)
    hg.ok hg.writes (by simp) hskip rfl hR hE hg.string hsize (fun _ => hlen) rfl hf
  exact ⟨f', hf', (hset.trans heq).trans (bind_congr (fun x _ => encodeTlvHdr_front))⟩

/-- Behind its buffer, the encoder goes on only with a struct or a string. -/
theorem encodeLoop_past {n : Nat} (hE : R < E)
    (hres : (encodeLoop mem enc 1 base R fuel (.front (g.elems ++ rest) v dst E)).res = .ok n) :
    ∃ fuel', rest.length < fuel' ∧ encodeLoop mem enc 1 base R fuel (.front (g.elems ++ rest) v dst E) =
        gated (R + 2 ^ 32) (dst + tlvHdrSize) E (groupPieces mem nested true base stale g) >>= fun x =>
          emit ⟨dst + E, g.tlvType :: leBytes 2 (x.1 - E)⟩ >>= fun _ =>
            encodeLoop mem enc 1 base R fuel' (.front rest x.2 dst (x.1 + tlvHdrSize)) := by
  obtain ⟨f, v', hf, hset⟩ := encodeLoop_set (R := R) hg.ok hpresent v dst E hfuel
  rw [hset] at hres ⊢
  rw [length_append, length_cons] at hf
  obtain ⟨f, rfl⟩ : ∃ m, f = m + 1 := ⟨f - 1, by omega⟩
  -- a piece that is checked here is refused
  have hrefuse : ∀ p : Piece, p.spare = tlvHdrSize →
      ∀ x, (gated R (dst + tlvHdrSize) E (emit p)).res ≠ .ok x := by
    intro p hp x hx
    rw [gated_emit_fail (by omega)] at hx
    cases hx
  cases hl : g.len with
  | some l =>
    have hle : dataLenSize l ≤ wireSize (groupPieces mem nested true base stale g).log := by
      simp only [groupPieces, hl]
      refine le_trans ?_ (wireSize_bind_ge (emit _) _)
      simp [emit, wireSize, size_count]
    have hstep : encodeLoop mem enc 1 base R (f + 1) (.front (l :: g.payload :: rest) v' dst E) = _ :=
      encodeLoop_len hg.ok hl rfl rfl (by simp only [front]; omega) stale f
    rw [hl] at hres
    obtain ⟨x, hx, -⟩ := res_bind_ok ((congrArg res hstep).symm.trans hres)
    exact absurd hx (hrefuse _ rfl x)
  | none =>
    rw [hl] at hres
    have heoti := (hg.ok.field g.payload (by simp [elems])).notEoti
    by_cases hbasic : isBasic g.payload.dataType
    · have hstep : encodeLoop mem enc 1 base R (f + 1) (.front (g.payload :: rest) v' dst E) = _ :=
        encodeLoop_cons rfl heoti
      simp only [groupPieces, hl, payloadPieces, if_pos hbasic, log_bind_pure, emit, wireSize_cons,
        size_data, length_peek] at hsize
      rw [encodeCount_payload hg.ok hl, pure_bind,
        encodeElem_basic hbasic rfl (by simp only [front]; omega)] at hstep
      obtain ⟨x, hx, -⟩ := res_bind_ok ((congrArg res hstep).symm.trans hres)
      obtain ⟨y, hy, -⟩ := res_bind_ok hx
      exact absurd hy (hrefuse _ rfl y)
    · have hnlen : g.payload.dataType ≠ .dataLen := by
        rcases hg.ok.kind with h | h | h
        · exact absurd h hbasic
        · simp [h]
        · simp [h]
      have hplain : encodeLoop mem enc 1 base R (f + 1) (.front (g.payload :: rest) v' dst E) = _ :=
        encodeLoop_plain (L := R + 2 ^ 32) hg.ok hl hg.writes (by simp) rfl rfl
          (by simp only [front]; omega) (by simp only [front]; omega)
          (encodeElem_wrap hbasic hnlen) hg.string hsize
      exact ⟨f, by omega, hplain.trans (bind_congr (fun x _ => encodeTlvHdr_front))⟩

end

/-- The same of the groups up to the end of the table. -/
structure TopLoop (mem : Nat → UInt8) (enc : Table → (src dst outBufLen : Nat) → Enc Nat)
    (nested : Table → (base : Nat) → Run Piece Stop Unit) (size : Group → Nat) (gs : List Group)
    (e : ElemInfo) : Prop where
  ready : ∀ g ∈ gs, TopReady mem enc nested size g
  distinct : gs.Pairwise (fun a b => a.tlvType ≠ b.tlvType)
  last : ∀ g ∈ gs, g.tlvType ≠ e.tlvType
  eoti : e.dataType = .eoti

theorem TopLoop.tail (h : TopLoop mem enc nested size (g :: gs) e) : TopLoop mem enc nested size gs e where
  ready := fun g hg => h.ready g (.tail _ hg)
  distinct := h.distinct.tail
  last := fun g hg => h.last g (.tail _ hg)
  eoti := h.eoti

theorem TopLoop.rest_types (h : TopLoop mem enc nested size (g :: gs) e) :
    ∀ ei ∈ gs.flatMap elems ++ [e], ei.tlvType ≠ g.tlvType := by
  intro ei hei
  rcases mem_append.mp hei with hei | hei
  · obtain ⟨g', hg', hei⟩ := mem_flatMap.mp hei
    rw [(h.ready g' (.tail _ hg')).same ei hei]
    exact ((pairwise_cons.mp h.distinct).1 g' hg').symm
  · rw [mem_singleton.mp hei]
    exact (h.last g (by simp)).symm

/-- The bound of `maxWire` for one group. -/
def groupSize (d : Nat) (g : Group) : Nat :=
  7 + g.payload.elemLen * entrySize (maxWire d g.payload.eiArray) g.payload

theorem maxWire_eq (d : Nat) (table : Table) : maxWire (d + 1) table = ((groups table).map (groupSize d)).sum := rfl

theorem topReady (hT : WellFormed (d + 1) table) (htop : TopTypes table) (hmax : maxWire (d + 1) table < 2 ^ 31)
    (hg : g ∈ groups table) : TopReady mem (qmiEncode mem d 2) (pieces mem d) (groupSize d) g := by
  obtain ⟨-, hgroups⟩ := hT
  obtain ⟨hok, hstruct⟩ := hgroups g hg
  have hentry := lt_of_le_of_lt (entrySize_le_maxWire (d := d) hg) hmax
  have hfield := hok.field g.payload (by simp [elems])
  refine ⟨hok, fun h => ?_, htop.same g hg, fun h => ?_, fun base stale => ?_,
    fun base stale => groupPieces_filled hok (fun h b => pieces_filled (hstruct h).1 (hstruct h).2.2),
    fun base stale => groupPieces_laysOut hok (fun h b => pieces_laysOut (hstruct h).1)⟩
  · obtain ⟨hT', hflag', -⟩ := hstruct h
    rw [entrySize, if_pos h] at hentry
    have hmul : maxWire d g.payload.eiArray ≤ g.payload.elemLen * maxWire d g.payload.eiArray :=
      Nat.le_mul_of_pos_left _ hfield.elemLen_pos
    exact qmiEncode_writes hT' hflag' (by omega) (by omega)
  · rw [entrySize, if_neg (by simp [h]), hfield.string h] at hentry
    omega
  · have h : wireSize (groupPieces mem (pieces mem d) true base stale g).log ≤
        4 + g.payload.elemLen * entrySize (maxWire d g.payload.eiArray) g.payload :=
      wireSize_groupPieces_le hok (fun h b => wireSize_pieces_le (hstruct h).1)
    unfold groupSize tlvHdrSize
    omega

/-- The call at the top runs the loop over its groups. -/
theorem qmiEncode_top (mem : Nat → UInt8) (hT : WellFormed (d + 1) table) (htop : TopTypes table)
    (hmax : maxWire (d + 1) table < 2 ^ 31) (base dst R : Nat) :
    ∃ e, TopLoop mem (qmiEncode mem d 2) (pieces mem d) (groupSize d) (groups table) e ∧
      0 + ((groups table).map (groupSize d)).sum < 2 ^ 32 ∧
      ((groups table).flatMap elems ++ [e]).length < table.length + 1 ∧
      qmiEncode mem (d + 1) 1 table base dst R = encodeLoop mem (qmiEncode mem d 2) 1 base R (table.length + 1)
        (.front ((groups table).flatMap elems ++ [e]) 0 dst 0) := by
  obtain ⟨e, htable, he⟩ := hT.1
  have hne : table ≠ [] := by
    rw [htable]
    simp
  refine ⟨e, ⟨fun g hg => topReady hT htop hmax hg, htop.distinct, htop.last e ?_ he, he⟩, ?_, ?_, ?_⟩
  · rw [htable]
    simp
  · rw [maxWire_eq] at hmax
    omega
  · rw [← htable]
    omega
  · rw [← htable, qmiEncode, if_neg hne]
    rfl

end

end Sm8850.Qmi
