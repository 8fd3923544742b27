import Sm8850.Qmi.Wire

/-! What the decoder stores when it is given the bytes of a layout. -/
namespace Sm8850.Qmi

open Memory List Run Piece

variable {α β : Type} {mem inp : Nat → UInt8} {ps qs : List Piece} {exp : Prop}
  {nested : Table → (base : Nat) → Run Piece Stop Unit}
  {dec : Table → (dst src len : Nat) → Dec Nat} {g : Group} {rest : Table} {top : Bool}
  {base src D srcLen tlvLen inBufLen decLevel stale count n i k elemSize addr : Nat}

section

/-- What is written to the struct. -/
def Access.cell : Access → Option (Nat × List UInt8)
  | .write _ _ addr bs => if bs = [] then none else some (addr, bs)
  | _ => none

/-- What a part of the decoder stores. -/
def stores (m : Dec α) : Run (Nat × List UInt8) Stop α := m.filterLog Access.cell

def put (addr : Nat) (bs : List UInt8) : Run (Nat × List UInt8) Stop Unit :=
  if bs = [] then pure () else Run.emit (addr, bs)

/-- What the decoder makes of a piece. -/
def Piece.replay : Piece → Run (Nat × List UInt8) Stop Unit
  | .count width addr n stale => do
    put addr (leBytes 4 (overlay stale (leBytes width n)))
    if overlay stale (leBytes width n) = n then pure () else Run.fail (.err (-ETOOSMALL))
  | .data addr bs => put addr bs
  | .text _ addr room bs =>
    if room ≤ bs.length then Run.fail (.err (-ETOOSMALL))
    else do
      put addr bs
      put (addr + bs.length) [0]

def replay : List Piece → Run (Nat × List UInt8) Stop Unit
  | [] => pure ()
  | p :: ps => do
    p.replay
    replay ps

theorem replay_append (ps qs : List Piece) : replay (ps ++ qs) = replay ps >>= fun _ => replay qs := by
  induction ps with
  | nil => rfl
  | cons p ps ih =>
    rw [cons_append, replay, replay, bind_assoc, ih]

/-- A piece is read back as it was: a length as it was, a string with room for its end. -/
def Piece.Clean : Piece → Prop
  | .count width _ n stale => stale < 256 ^ width ∧ n < 256 ^ width
  | .data _ _ => True
  | .text _ _ room bs => bs.length < room

def Clean (ps : List Piece) : Prop := ∀ p ∈ ps, p.Clean

theorem clean_append : Clean (ps ++ qs) ↔ Clean ps ∧ Clean qs := by
  simp [Clean, or_imp, forall_and]

/-- What a piece that is read back leaves in the struct. -/
def Piece.cells : Piece → List (Nat × List UInt8)
  | .count _ addr n _ => (put addr (leBytes 4 n)).log
  | .data addr bs => (put addr bs).log
  | .text _ addr _ bs => (put addr bs).log ++ (put (addr + bs.length) [0]).log

theorem put_eq (addr : Nat) (bs : List UInt8) : put addr bs = ⟨(put addr bs).log, .ok ()⟩ := by
  unfold put
  split
  · rfl
  · rfl

theorem overlay_of_clean {width : Nat} (h : Piece.Clean (.count width addr n stale)) :
    overlay stale (leBytes width n) = n := by
  obtain ⟨hstale, hn⟩ := h
  rw [overlay_of_lt (by rwa [length_leBytes]), leNat_leBytes_of_lt hn]

theorem replay_clean (h : Clean ps) : replay ps = ⟨ps.flatMap cells, .ok ()⟩ := by
  induction ps with
  | nil => rfl
  | cons p ps ih =>
    have hp : p.replay = ⟨p.cells, .ok ()⟩ := by
      have hclean := h p (by simp)
      cases p with
      | count width addr n stale =>
        rw [Piece.replay, overlay_of_clean hclean, if_pos rfl, put_eq, cells]
        exact congrArg₂ mk (append_nil _) rfl
      | data addr bs => exact put_eq addr bs
      | text width addr room bs =>
        rw [Piece.replay, if_neg (not_le.mpr hclean), put_eq, put_eq (addr + bs.length)]
        rfl
    rw [replay, hp, ih (fun q hq => h q (.tail _ hq))]
    rfl

/-- The length of an array can be written in its place on the wire. -/
def Piece.Small : Piece → Prop
  | .count width _ n _ => n < 256 ^ width
  | _ => True

theorem clean_of_replay {u : Unit} (hsmall : ∀ p ∈ ps, p.Small) (h : (replay ps).res = .ok u) : Clean ps := by
  induction ps with
  | nil =>
    intro p hp
    cases hp
  | cons p ps ih =>
    obtain ⟨v, hfirst, hrest, -⟩ := res_bind_ok h
    have hclean : p.Clean := by
      have hp := hsmall p (by simp)
      cases p with
      | count width addr n stale =>
        obtain ⟨-, -, hback, -⟩ := res_bind_ok hfirst
        split at hback
        · rename_i heq
          have hn : leNat (leBytes width n) = n := leNat_leBytes_of_lt hp
          rw [overlay, length_leBytes, hn] at heq
          refine ⟨?_, hp⟩
          by_contra hlt
          have hpos : 0 < stale / 256 ^ width := Nat.div_pos (by omega) (Nat.pow_pos (by omega))
          have hge := Nat.le_mul_of_pos_left (256 ^ width) hpos
          have hw : 0 < 256 ^ width := Nat.pow_pos (by omega)
          omega
        · cases hback
      | data addr bs => trivial
      | text width addr room bs =>
        rw [Piece.replay] at hfirst
        split at hfirst
        · cases hfirst
        · rename_i hroom
          exact not_le.mp hroom
    intro q hq
    rcases mem_cons.mp hq with rfl | hq
    · exact hclean
    · exact ih (fun q hq => hsmall q (.tail _ hq)) hrest q hq

theorem stores_bind (m : Dec α) (f : α → Dec β) :
    stores (m >>= f) = stores m >>= fun a => stores (f a) := filterLog_bind m f

theorem stores_write (ei : ElemInfo) (b addr : Nat) (bs : List UInt8) :
    stores (emit (.write ei b addr bs)) = put addr bs := by
  unfold put
  split
  · rename_i h
    simp [stores, filterLog, emit, Access.cell, h]
    rfl
  · rename_i h
    simp [stores, filterLog, emit, Access.cell, h]

theorem stores_basic {elemLen : Nat} (hle : elemLen * elemSize ≤ srcLen) (h32 : srcLen < 2 ^ 32) :
    stores (decodeBasicElem inp src elemLen elemSize srcLen) = pure (peek inp src (elemLen * elemSize)) := by
  rw [decodeBasicElem, if_neg (by rw [Nat.mod_eq_of_lt (by omega)]; omega)]
  rfl

end

section

/-- A nested call of the decoder makes of the bytes of a struct what they were made of, if its
lengths are read back as they were, or else if its table lets the decoder notice. -/
def Reads (inp : Nat → UInt8) (exp : Prop) (dec : (dst src len : Nat) → Dec Nat)
    (nested : (base : Nat) → Run Piece Stop Unit) : Prop :=
  ∀ base src len, (nested base).res = .ok () → Holds inp src (wires (nested base).log) →
    wireSize (nested base).log ≤ len → len < 2 ^ 32 → wireSize (nested base).log < 2 ^ 16 →
    (Clean (nested base).log ∨ exp) →
    stores (dec base src len) = replay (nested base).log >>= fun _ => pure (wireSize (nested base).log)

/-- Every struct takes room. -/
def TakesRoom (nested : (base : Nat) → Run Piece Stop Unit) : Prop :=
  ∀ base, (nested base).res = .ok () → 0 < wireSize (nested base).log

theorem structElems_replay {dec : (dst src len : Nat) → Dec Nat}
    {nested : (base : Nat) → Run Piece Stop Unit} (hdec : Reads inp exp dec nested)
    (hroom : TakesRoom nested) (hres : (structPieces nested elemSize addr n i).res = .ok ())
    (hholds : Holds inp (src + k) (wires (structPieces nested elemSize addr n i).log))
    (hsize : k + wireSize (structPieces nested elemSize addr n i).log ≤ tlvLen) (h32 : tlvLen < 2 ^ 32)
    (h16 : wireSize (structPieces nested elemSize addr n i).log < 2 ^ 16)
    (hclean : Clean (structPieces nested elemSize addr n i).log ∨ exp) :
    stores (structElems dec elemSize addr src tlvLen n i k) =
      replay (structPieces nested elemSize addr n i).log >>= fun _ =>
        pure (i + n, k + wireSize (structPieces nested elemSize addr n i).log) := by
  induction n generalizing i k with
  | zero => rfl
  | succ n ih =>
    rw [structPieces] at hres hholds hsize h16 hclean ⊢
    obtain ⟨u, hfirst, hrest, hlog⟩ := res_bind_ok hres
    rw [hlog] at hholds hsize h16 hclean ⊢
    rw [wires_append, holds_append, length_wires] at hholds
    rw [wireSize_append] at hsize h16 ⊢
    rw [clean_append] at hclean
    have hpos := hroom _ hfirst
    have hhead := hdec _ (src + k) (tlvLen - k) hfirst hholds.1 (by omega) (by omega) (by omega)
      (hclean.imp_left And.left)
    have htail := ih (i := i + 1) (k := k + wireSize (nested (addr + i * elemSize)).log) hrest
      (by rw [← add_assoc]; exact hholds.2) (by omega) (by omega) (hclean.imp_left And.right)
    rw [structElems, if_pos (by omega), stores_bind, hhead, replay_append, bind_assoc, bind_assoc]
    simp only [pure_bind]
    rw [htail]
    simp [add_assoc, add_comm 1 n]

/-- What the decoder needs to know of a group. -/
structure Readable (inp : Nat → UInt8) (exp : Prop) (dec : Table → (dst src len : Nat) → Dec Nat)
    (nested : Table → (base : Nat) → Run Piece Stop Unit) (g : Group) : Prop where
  ok : GroupOk g
  reads : g.payload.dataType = .struct →
    Reads inp exp (dec g.payload.eiArray) (nested g.payload.eiArray)
  room : g.payload.dataType = .struct → TakesRoom (nested g.payload.eiArray)
  expressible : exp → ∀ l ∈ g.len, g.payload.elemLen < 256 ^ dataLenSize l

variable {ei l : ElemInfo} {r : Run Piece Stop Nat}

theorem decodeStructElem_replay {ps : Run Piece Stop Unit}
    (hps : structPieces (nested ei.eiArray) ei.elemSize addr count 0 = ps)
    (hdec : Reads inp exp (dec ei.eiArray) (nested ei.eiArray)) (hroom : TakesRoom (nested ei.eiArray))
    (hres : ps.res = .ok ()) (hholds : Holds inp src (wires ps.log)) (hsize : wireSize ps.log ≤ tlvLen)
    (htlv : tlvLen ≤ srcLen) (h32 : srcLen < 2 ^ 32) (h16 : wireSize ps.log < 2 ^ 16) (hclean : Clean ps.log ∨ exp)
    (hlev : decLevel ≤ 2 → tlvLen = wireSize ps.log) :
    stores (decodeStructElem dec ei addr src count tlvLen decLevel srcLen) =
      replay ps.log >>= fun _ => pure (wireSize ps.log) := by
  subst hps
  have helems : stores (structElems (dec ei.eiArray) ei.elemSize addr src tlvLen count 0 0) = _ :=
    structElems_replay hdec hroom hres hholds (by omega) (by omega) h16 hclean
  rw [decodeStructElem, if_neg (by omega), stores_bind, helems, bind_assoc]
  simp only [pure_bind, zero_add]
  refine bind_congr (fun _ _ => ?_)
  rw [if_neg (by omega)]
  rfl

theorem decodeStringLen_replay (hlev : top ↔ decLevel = 1)
    (hholds : Holds inp src (leBytes (if top then 0 else stringLenSize ei) n)) (hn : n < 256 ^ stringLenSize ei)
    (htlv : top → tlvLen = n) (hsize : (if top then 0 else stringLenSize ei) ≤ srcLen) (h32 : srcLen < 2 ^ 32) :
    stores (decodeStringLen inp ei src tlvLen decLevel srcLen) = pure (n, if top then 0 else stringLenSize ei) := by
  unfold decodeStringLen
  cases top with
  | true =>
    rw [if_pos (hlev.mp rfl), htlv rfl]
    rfl
  | false =>
    simp only [if_neg Bool.false_ne_true] at hholds hsize ⊢
    rw [if_neg (fun h => by simpa using hlev.mpr h), stores_bind, stores_basic (by omega) h32, one_mul, pure_bind]
    unfold Holds at hholds
    rw [length_leBytes] at hholds
    rw [hholds, leNat_leBytes_of_lt hn]
    rfl

theorem decodeStringElem_replay {bs : List UInt8} (hone : ei.elemSize = 1) (hlev : top ↔ decLevel = 1)
    (hholds : Holds inp src (text (if top then 0 else stringLenSize ei) addr ei.elemLen bs).wire)
    (hbs : bs.length < 256 ^ stringLenSize ei) (htlv : if top then tlvLen = bs.length else bs.length ≤ tlvLen)
    (hsize : (if top then 0 else stringLenSize ei) + bs.length ≤ srcLen) (h32 : srcLen < 2 ^ 32) :
    stores (decodeStringElem inp ei base addr src tlvLen decLevel srcLen) =
      (text (if top then 0 else stringLenSize ei) addr ei.elemLen bs).replay >>= fun _ =>
        pure ((if top then 0 else stringLenSize ei) + bs.length) := by
  obtain ⟨hwidth, htext⟩ := holds_append.mp hholds
  rw [length_leBytes] at htext
  have hlen : stores (decodeStringLen inp ei src tlvLen decLevel srcLen) = _ :=
    decodeStringLen_replay hlev hwidth hbs (fun h => by rwa [if_pos h] at htlv) (by omega) h32
  have hle : ¬ tlvLen < bs.length := by
    split at htlv <;> omega
  rw [decodeStringElem, stores_bind, hlen, pure_bind, Piece.replay]
  dsimp only
  by_cases hroom : ei.elemLen ≤ bs.length
  · rw [if_pos hroom, if_pos hroom]
    rfl
  · rw [if_neg hroom, if_neg hroom, if_neg hle, stores_bind, hone, sub32_eq (by omega) (by omega),
      stores_basic (by omega) (by omega), mul_one, pure_bind, htext, stores_bind, stores_bind,
      stores_write, stores_write, bind_assoc]
    rfl

theorem replay_singleton (p : Piece) : replay [p] = p.replay := by
  rw [replay]
  obtain ⟨log, _ | u⟩ := p.replay
  · rfl
  · exact congrArg₂ mk (append_nil _) rfl

theorem wireSize_singleton (p : Piece) : wireSize [p] = p.size := by
  simp [wireSize]

theorem wires_singleton (p : Piece) : wires [p] = p.wire := by
  simp [wires]

theorem lt_of_stringLenSize (hle : n ≤ ei.elemLen) (h16 : n < 2 ^ 16) : n < 256 ^ stringLenSize ei := by
  unfold stringLenSize
  split
  · omega
  · omega

/-- The switch of `qmi_decode` stores the data of a group. -/
theorem decodePayload_replay (hg : Readable inp exp dec nested g)
    (hlev : top ↔ decLevel = 1) (hpos : 1 ≤ decLevel) {r : Run Piece Stop Unit}
    (hr : payloadPieces mem nested top base g.payload count = r) (hres : r.res = .ok ())
    (hholds : Holds inp src (wires r.log)) (hsize : wireSize r.log ≤ srcLen) (h32 : srcLen < 2 ^ 32)
    (h16 : wireSize r.log < 2 ^ 16) (htlv : tlvLen = if top then wireSize r.log else srcLen)
    (hclean : Clean r.log ∨ exp) : stores (decodePayload inp dec decLevel base g.payload src count tlvLen srcLen) =
      replay r.log >>= fun _ => pure (wireSize r.log) := by
  have hfield := hg.ok.field g.payload (by simp [Group.elems])
  have hle : wireSize r.log ≤ tlvLen ∧ tlvLen ≤ srcLen := by
    split at htlv <;> omega
  rcases hg.ok.kind with hbasic | hstruct | hstring
  · rw [payloadPieces_basic hbasic] at hr
    subst hr
    simp only [emit, wires_singleton, wireSize_singleton, size_data, length_peek, wire]
      at hholds hsize ⊢
    unfold Holds at hholds
    rw [length_peek] at hholds
    rw [decodePayload, if_pos hbasic, stores_bind, stores_basic hsize h32, pure_bind, hholds, stores_bind,
      length_peek, replay_singleton, stores_write]
    rfl
  · rw [payloadPieces_struct hstruct] at hr
    subst hr
    rw [decodePayload, if_neg (by simp [hstruct, isBasic]), if_pos hstruct]
    refine decodeStructElem_replay rfl (hg.reads hstruct) (hg.room hstruct) hres hholds hle.1 hle.2 h32 h16 hclean (fun h => ?_)
    rwa [if_pos (hlev.mpr (by omega))] at htlv
  · rw [payloadPieces_string hstring] at hr
    split at hr
    · subst hr
      cases hres
    · subst hr
      simp only [emit, wires_singleton, wireSize_singleton, size_text, replay_singleton]
        at hholds hsize h16 htlv hle ⊢
      rw [decodePayload, if_neg (by simp [hstring, isBasic]), if_neg (by simp [hstring]), if_pos hstring]
      refine decodeStringElem_replay (hfield.string hstring) hlev hholds ?_ ?_ hsize h32
      · rw [length_peek] at h16 ⊢
        exact lt_of_stringLenSize (by omega) (by omega)
      · cases top with
        | true => simpa using htlv
        | false =>
          show _ ≤ tlvLen
          omega

/-- The flag of a group is set. -/
def putFlag (base : Nat) (g : Group) : Run (Nat × List UInt8) Stop Unit :=
  match g.flag with
  | none => pure ()
  | some f => put (base + f.offset) [1]

section
variable (hok : GroupOk g)
include hok

theorem payload_notFlag : g.payload.dataType ≠ .optFlag ∧ g.payload.dataType ≠ .dataLen := by
  rcases hok.kind with h | h | h
  · constructor
    · intro h'
      simp [h', isBasic] at h
    · intro h'
      simp [h', isBasic] at h
  · simp [h]
  · simp [h]

theorem decodeOptFlag_replay : stores (decodeOptFlag base (g.elems ++ rest)) =
      putFlag base g >>= fun _ => pure (g.len.toList ++ g.payload :: rest) := by
  cases hf : g.flag with
  | some f =>
    have helems : g.elems ++ rest = f :: (g.len.toList ++ g.payload :: rest) := by
      simp [Group.elems, hf]
    rw [helems, decodeOptFlag, if_pos (hok.flag f (by simp [hf])).1, stores_bind, stores_write, putFlag, hf]
    rfl
  | none =>
    have helems : g.elems ++ rest = g.len.toList ++ g.payload :: rest := by
      simp [Group.elems, hf]
    rw [helems, putFlag, hf]
    cases hl : g.len with
    | some l =>
      have hne : l.dataType ≠ .optFlag := by simp [(hok.len l (by simp [hl])).1]
      show stores (decodeOptFlag base (l :: g.payload :: rest)) = _
      rw [decodeOptFlag, if_neg hne]
      rfl
    | none =>
      show stores (decodeOptFlag base (g.payload :: rest)) = _
      rw [decodeOptFlag, if_neg (payload_notFlag hok).1]
      rfl

theorem decodeDataLen_none : stores (decodeDataLen inp base src inBufLen tlvLen ⟨g.payload :: rest, stale, D⟩) =
      pure (⟨g.payload :: rest, stale, D⟩, tlvLen) := by
  unfold decodeDataLen
  dsimp only
  rw [if_neg (payload_notFlag hok).2]
  rfl

theorem decodeDataLen_some (hl : g.len = some l)
    (hholds : Holds inp (src + D) (leBytes (dataLenSize l) n)) (hroom : D + dataLenSize l ≤ inBufLen)
    (h32 : inBufLen < 2 ^ 32) : stores (decodeDataLen inp base src inBufLen tlvLen ⟨l :: ei :: rest, stale, D⟩) =
      put (base + l.offset) (leBytes 4 (overlay stale (leBytes (dataLenSize l) n))) >>= fun _ =>
        pure (⟨ei :: rest, overlay stale (leBytes (dataLenSize l) n), D + dataLenSize l⟩,
          sub32 tlvLen (dataLenSize l)) := by
  unfold Holds at hholds
  rw [length_leBytes] at hholds
  unfold decodeDataLen
  dsimp only
  rw [if_pos (hok.len l (by simp [hl])).1, sub32_eq (by omega) (by omega), stores_bind,
    stores_basic (by omega) (by omega), pure_bind, one_mul, hholds, stores_bind, stores_write]
  rfl

theorem decodeCount_none (hl : g.len = none) (v : Nat) : decodeCount g.payload v = pure (entries g.payload 0) := by
  have hvar : g.payload.arrayType ≠ .varLenArray := by simp [hok.varLen, hl]
  unfold decodeCount entries
  cases harr : g.payload.arrayType with
  | noArray => rfl
  | staticArray => rfl
  | varLenArray => exact absurd harr hvar

theorem decodeCount_some (hl : g.len = some l) (v : Nat) : decodeCount g.payload v =
      if g.payload.elemLen < v then fail (.err (-ETOOSMALL)) else pure v := by
  have hvar : g.payload.arrayType = .varLenArray := hok.varLen.mpr (by simp [hl])
  simp [decodeCount, hvar]

/-- An array without entries. -/
theorem payloadPieces_zero (hl : g.len = some l) :
    ∃ ps, payloadPieces mem nested top base g.payload 0 = ⟨ps, .ok ()⟩ ∧ wires ps = [] ∧
      wireSize ps = 0 ∧ Clean ps ∧ replay ps = pure () := by
  rcases hok.kind with hbasic | hstruct | hstring
  · refine ⟨[.data (base + g.payload.offset) []], ?_, rfl, rfl, ?_, rfl⟩
    · rw [payloadPieces_basic hbasic, zero_mul, peek_zero]
      rfl
    · intro p hp
      rw [mem_singleton.mp hp]
      trivial
  · refine ⟨[], ?_, rfl, rfl, ?_, rfl⟩
    · rw [payloadPieces_struct hstruct]
      rfl
    · intro p hp
      cases hp
  · have := hok.string hstring
    rw [hl] at this
    cases this

/-- What the pieces of a group with a length are: behind the length, those of its data. -/
theorem groupPieces_counted (hl : g.len = some l) (hres : (groupPieces mem nested top base stale g).res = .ok count) :
    ∃ ps qs, payloadPieces mem nested top base g.payload count = ⟨ps, .ok ()⟩ ∧
      count ≤ g.payload.elemLen ∧ count = storedLen mem base l ∧ (groupPieces mem nested top base stale g).log =
        .count (dataLenSize l) (base + l.offset) count stale :: qs ∧
      wires qs = wires ps ∧ wireSize qs = wireSize ps ∧ (Clean qs → Clean ps) ∧ replay qs = replay ps := by
  have hpieces : groupPieces mem nested top base stale g =
      emit (.count (dataLenSize l) (base + l.offset) (storedLen mem base l) stale) >>= fun _ =>
        if storedLen mem base l = 0 then pure 0
        else if g.payload.elemLen < storedLen mem base l then fail (.err (-EINVAL))
        else payloadPieces mem nested top base g.payload (storedLen mem base l) >>= fun _ =>
          pure (storedLen mem base l) := by simp only [groupPieces, hl]
  rw [hpieces] at hres ⊢
  rw [log_emit_bind]
  obtain ⟨-, -, hrest, -⟩ := res_bind_ok hres
  by_cases h0 : storedLen mem base l = 0
  · rw [if_pos h0] at hrest ⊢
    cases hrest
    obtain ⟨ps, hps, hwires, hsize, hclean, hreplay⟩ := payloadPieces_zero hok hl
    exact ⟨ps, [], hps, Nat.zero_le _, h0.symm, by rw [h0]; rfl, hwires.symm, hsize.symm, fun _ => hclean, hreplay.symm⟩
  · rw [if_neg h0] at hrest ⊢
    by_cases hlong : g.payload.elemLen < storedLen mem base l
    · rw [if_pos hlong] at hrest
      cases hrest
    · rw [if_neg hlong] at hrest ⊢
      obtain ⟨u, hpayload, hcount, -⟩ := res_bind_ok hrest
      cases hcount
      rw [log_bind_pure]
      refine ⟨_, _, ?_, by omega, rfl, rfl, rfl, rfl, id, rfl⟩
      rw [← hpayload]

end

/-- A count that is not read back as it was does not fit where the table is expressible. -/
theorem overlay_too_long {width elemLen : Nat} (hle : n ≤ elemLen) (hexp : elemLen < 256 ^ width)
    (hne : overlay stale (leBytes width n) ≠ n) : elemLen < overlay stale (leBytes width n) := by
  have hback : leNat (leBytes width n) = n := leNat_leBytes_of_lt (by omega)
  have hstale : ¬ stale < 256 ^ width := by
    intro h
    exact hne (by rw [overlay_of_lt (by rwa [length_leBytes]), hback])
  rw [overlay, length_leBytes, hback]
  have hpos : 0 < stale / 256 ^ width := Nat.div_pos (by omega) (Nat.pow_pos (by omega))
  have hge := Nat.le_mul_of_pos_left (256 ^ width) hpos
  omega

section
variable (hg : Readable inp exp dec nested g) (hlev : top = true ↔ decLevel = 1) (hpos : 1 ≤ decLevel)
  (hr : groupPieces mem nested top base stale g = r) (hres : r.res = .ok count)
  (hholds : Holds inp (src + D) (wires r.log)) (hroom : D + wireSize r.log ≤ inBufLen) (h32 : inBufLen < 2 ^ 32)
  (h16 : wireSize r.log < 2 ^ 16) (htlv : tlvLen = if top then wireSize r.log else inBufLen - D) (hclean : Clean r.log ∨ exp)
include hg hlev hpos hr hres hholds hroom h32 h16 htlv hclean

/-- One pass of the loop of `qmi_decode` on a group without a length. -/
theorem decodeElem_plain (hl : g.len = none) :
    stores (decodeElem inp dec decLevel base src inBufLen tlvLen ⟨g.elems ++ rest, stale, D⟩) =
      putFlag base g >>= fun _ => replay r.log >>= fun _ => pure ⟨rest, count, D + wireSize r.log⟩ := by
  have hpieces : groupPieces mem nested top base stale g =
      payloadPieces mem nested top base g.payload (entries g.payload 0) >>= fun _ =>
        pure (entries g.payload 0) := by simp only [groupPieces, hl]
  rw [hpieces] at hr
  subst hr
  obtain ⟨u, hok', hcount, -⟩ := res_bind_ok hres
  cases hcount
  rw [log_bind_pure] at hholds hroom h16 htlv hclean ⊢
  have hpayload : stores (decodePayload inp dec decLevel base g.payload (src + D) (entries g.payload 0)
      tlvLen (inBufLen - D)) = _ :=
    decodePayload_replay hg hlev hpos rfl hok' hholds (by omega) (by omega) h16 htlv hclean
  rw [decodeElem, stores_bind, decodeOptFlag_replay hg.ok, bind_assoc]
  refine bind_congr (fun _ _ => ?_)
  rw [pure_bind, stores_bind, hl]
  show stores (decodeDataLen inp base src inBufLen tlvLen ⟨g.payload :: rest, stale, D⟩) >>= _ = _
  rw [decodeDataLen_none hg.ok, pure_bind]
  dsimp only
  rw [decodeCount_none hg.ok hl, pure_bind, sub32_eq (by omega) (by omega), stores_bind, hpayload, bind_assoc]
  rfl

/-- The same on a group with a length. -/
theorem decodeElem_counted (hl : g.len = some l) :
    stores (decodeElem inp dec decLevel base src inBufLen tlvLen ⟨g.elems ++ rest, stale, D⟩) =
      putFlag base g >>= fun _ => replay r.log >>= fun _ => pure ⟨rest, count, D + wireSize r.log⟩ := by
  subst hr
  obtain ⟨ps, qs, hps, hn, -, hlog, hwires, hsizes, hcleans, hreplay⟩ := groupPieces_counted hg.ok hl hres
  rw [hlog] at hholds hroom h16 htlv hclean ⊢
  rw [wires_cons, holds_append] at hholds
  rw [wireSize_cons, size_count] at hroom h16 htlv ⊢
  obtain ⟨hlen, hdata⟩ := hholds
  rw [hwires, wire, length_leBytes, add_assoc] at hdata
  rw [hsizes] at hroom h16 htlv ⊢
  rw [decodeElem, stores_bind, decodeOptFlag_replay hg.ok, bind_assoc]
  refine bind_congr (fun _ _ => ?_)
  rw [pure_bind, stores_bind, hl]
  show stores (decodeDataLen inp base src inBufLen tlvLen ⟨l :: g.payload :: rest, stale, D⟩) >>= _ = _
  rw [decodeDataLen_some hg.ok hl hlen (by omega) h32, bind_assoc, replay, Piece.replay, bind_assoc, bind_assoc]
  refine bind_congr (fun _ _ => ?_)
  rw [pure_bind]
  dsimp only
  rw [decodeCount_some hg.ok hl]
  by_cases hback : overlay stale (leBytes (dataLenSize l) count) = count
  · have hsub : sub32 inBufLen (D + dataLenSize l) = inBufLen - (D + dataLenSize l) :=
      sub32_eq (by omega) (by omega)
    have hleft : sub32 tlvLen (dataLenSize l) =
        if top then wireSize ps else inBufLen - (D + dataLenSize l) := by
      rw [sub32_eq (by split at htlv <;> omega) (by split at htlv <;> omega), htlv]
      split <;> omega
    have hpayload : stores (decodePayload inp dec decLevel base g.payload (src + (D + dataLenSize l)) count
        (sub32 tlvLen (dataLenSize l)) (inBufLen - (D + dataLenSize l))) =
          replay ps >>= fun _ => pure (wireSize ps) := by
      refine decodePayload_replay hg hlev hpos hps rfl hdata (by dsimp only; omega) (by omega)
        (by dsimp only; omega) hleft ?_
      exact hclean.imp_left (fun h => hcleans (fun p hp => h p (.tail _ hp)))
    rw [hback, if_neg (by omega), if_pos rfl, pure_bind, pure_bind, hsub, stores_bind, hpayload, bind_assoc, hreplay]
    simp only [pure_bind, add_assoc]
    rfl
  · have hnot : ¬ Clean (Piece.count (dataLenSize l) (base + l.offset) count stale :: qs) :=
      fun h => hback (overlay_of_clean (h _ mem_cons_self))
    have hlong := overlay_too_long hn (hg.expressible (hclean.resolve_left hnot) l (by simp [hl])) hback
    rw [if_pos hlong, if_neg hback]
    rfl

/-- One pass of the loop of `qmi_decode` stores a group. -/
theorem decodeElem_replay :
    stores (decodeElem inp dec decLevel base src inBufLen tlvLen ⟨g.elems ++ rest, stale, D⟩) =
      putFlag base g >>= fun _ => replay r.log >>= fun _ => pure ⟨rest, count, D + wireSize r.log⟩ := by
  cases hl : g.len with
  | none => exact decodeElem_plain hg hlev hpos hr hres hholds hroom h32 h16 htlv hclean hl
  | some l => exact decodeElem_counted hg hlev hpos hr hres hholds hroom h32 h16 htlv hclean hl

end

end

section
variable {gs : List Group} {e : ElemInfo} {table : Table} {d fuel : Nat}

theorem Reads.mono {exp' : Prop} {dec : (dst src len : Nat) → Dec Nat}
    {nested : (base : Nat) → Run Piece Stop Unit} (h : Reads inp exp' dec nested) (himp : exp → exp') :
    Reads inp exp dec nested :=
  fun base src len hres hholds hsize h32 h16 hclean =>
    h base src len hres hholds hsize h32 h16 (hclean.imp_right himp)

theorem wireSize_pos {r : Run Piece Stop α} {a : α} (hlaid : LaysOut false r) (hfilled : Filled r)
    (hres : r.res = .ok a) : 0 < wireSize r.log := by
  have hne := hfilled a hres
  cases hlog : r.log with
  | nil => exact absurd hlog hne
  | cons p ps =>
    have hp := hlaid.logged p (by simp [hlog]) rfl
    rw [wireSize_cons]
    omega

/-- The loop of `qmi_decode` on the groups of a nested struct. -/
theorem decodeLoop_nested (he : e.dataType = .eoti) (hgs : ∀ g ∈ gs, Readable inp exp dec nested g ∧ g.flag = none)
    (hpos : ∀ g ∈ gs, ∀ stale count, (groupPieces mem nested false base stale g).res = .ok count →
      0 < wireSize (groupPieces mem nested false base stale g).log) (hlev : 1 < decLevel) {r : Run Piece Stop Unit}
    (hr : groupsPieces mem nested false base stale gs = r) (hres : r.res = .ok ())
    (hholds : Holds inp (src + D) (wires r.log)) (hroom : D + wireSize r.log ≤ inBufLen)
    (h32 : inBufLen < 2 ^ 32) (h16 : wireSize r.log < 2 ^ 16) (hclean : Clean r.log ∨ exp) (hfuel : gs.length < fuel) :
    stores (decodeLoop inp dec table decLevel base src inBufLen fuel ⟨gs.flatMap Group.elems ++ [e], stale, D⟩) =
      replay r.log >>= fun _ => pure (D + wireSize r.log) := by
  induction gs generalizing stale D fuel r with
  | nil =>
    subst hr
    obtain ⟨f, rfl⟩ : ∃ f, fuel = f + 1 := ⟨fuel - 1, by omega⟩
    rw [decodeLoop]
    split
    · rw [if_neg (by omega), if_pos (by simp [atEoti, he])]
      rfl
    · rfl
  | cons g gs ih =>
    obtain ⟨hg, hflag⟩ := hgs g (by simp)
    subst hr
    rw [groupsPieces] at hres hholds hroom h16 hclean ⊢
    obtain ⟨count, hfirst, hrest, hlog⟩ := res_bind_ok hres
    rw [hlog] at hholds hroom h16 hclean ⊢
    rw [wires_append, holds_append, length_wires] at hholds
    rw [wireSize_append] at hroom h16 ⊢
    rw [clean_append] at hclean
    have hsize := hpos g (by simp) stale count hfirst
    rw [length_cons] at hfuel
    obtain ⟨f, rfl⟩ : ∃ f, fuel = f + 1 := ⟨fuel - 1, by omega⟩
    have hlev' : false ↔ decLevel = 1 := by
      simp only [Bool.false_eq_true, false_iff]
      omega
    have helem : stores (decodeElem inp dec decLevel base src inBufLen (inBufLen - D)
        ⟨g.elems ++ (gs.flatMap Group.elems ++ [e]), stale, D⟩) = _ :=
      decodeElem_replay hg hlev' (by omega) rfl hfirst hholds.1 (by omega) h32 (by omega) rfl
        (hclean.imp_left And.left)
    have hnext := ih (fun g' hg' => hgs g' (.tail _ hg'))
      (fun g' hg' => hpos g' (.tail _ hg')) rfl hrest
      (by rw [← add_assoc]; exact hholds.2) (by omega) (by omega) (hclean.imp_left And.right)
      (show gs.length < f by omega)
    have hnot : atEoti (g.elems ++ (gs.flatMap Group.elems ++ [e])) = false := by
      cases hl : g.len with
      | none =>
        simpa [Group.elems, hflag, hl, atEoti] using
          (hg.ok.field g.payload (by simp [Group.elems])).notEoti
      | some l =>
        simpa [Group.elems, hflag, hl, atEoti] using (hg.ok.field l (by simp [Group.elems, hl])).notEoti
    rw [flatMap_cons, append_assoc, decodeLoop, if_pos (by dsimp only; omega), if_neg (by omega)]
    simp only [hnot, Bool.false_eq_true, if_false]
    rw [stores_bind, helem, putFlag, hflag]
    simp only [pure_bind, bind_assoc]
    rw [hnext, replay_append, bind_assoc]
    simp [add_assoc]

/-- The lengths of a table can express every number of entries that its arrays have room for. -/
def Expressible : (d : Nat) → Table → Prop
  | 0, _ => True
  | d + 1, table => ∀ g ∈ groups table, (∀ l ∈ g.len, g.payload.elemLen < 256 ^ dataLenSize l) ∧
      (g.payload.dataType = .struct → Expressible d g.payload.eiArray)

theorem pieces_takesRoom (hT : WellFormed d table) (hne : groups table ≠ []) : TakesRoom (pieces mem d table) :=
  fun _ hres => wireSize_pos (pieces_laysOut hT) (pieces_filled hT hne) hres

theorem length_le_flatMap_elems (gs : List Group) : gs.length ≤ (gs.flatMap Group.elems).length := by
  induction gs with
  | nil => exact le_rfl
  | cons g gs ih =>
    have hpos : 0 < g.elems.length := by simp [Group.elems]
    rw [flatMap_cons, length_append, length_cons]
    omega

/-- `qmi_decode` makes of the bytes of a nested struct what they were made of. -/
theorem qmiDecode_reads (hT : WellFormed d table) (hflag : ∀ g ∈ groups table, g.flag = none) (hlev : 1 < decLevel) :
    Reads inp (Expressible d table) (qmiDecode inp d decLevel table) (pieces mem d table) := by
  induction d generalizing table decLevel with
  | zero => exact hT.elim
  | succ d ih =>
    intro base src len hres hholds hsize h32 h16 hclean
    obtain ⟨⟨e, htable, he⟩, hgroups⟩ := hT
    have hgs : ∀ g ∈ groups table, Readable inp (Expressible (d + 1) table)
        (qmiDecode inp d (decLevel + 1)) (pieces mem d) g ∧ g.flag = none := by
      intro g hg
      obtain ⟨hok, hstruct⟩ := hgroups g hg
      refine ⟨⟨hok, fun hs => ?_, fun hs => ?_, fun h => (h g hg).1⟩, hflag g hg⟩
      · obtain ⟨hT', hflag', -⟩ := hstruct hs
        exact (ih hT' hflag' (by omega)).mono (fun h => (h g hg).2 hs)
      · exact pieces_takesRoom (hstruct hs).1 (hstruct hs).2.2
    have hpos : ∀ g ∈ groups table, ∀ stale count, (groupPieces mem (pieces mem d) false base stale g).res = .ok count →
          0 < wireSize (groupPieces mem (pieces mem d) false base stale g).log := by
      intro g hg stale count
      obtain ⟨hok, hstruct⟩ := hgroups g hg
      exact wireSize_pos (groupPieces_laysOut hok (fun hs b => pieces_laysOut (hstruct hs).1))
        (groupPieces_filled hok (fun hs b => pieces_filled (hstruct hs).1 (hstruct hs).2.2))
    have hfuel : (groups table).length < len + table.length + 1 := by
      have hle := length_le_flatMap_elems (groups table)
      have hlen := congrArg length htable
      rw [length_append] at hlen
      omega
    have hloop : stores (decodeLoop inp (qmiDecode inp d (decLevel + 1)) table decLevel base src len
        (len + table.length + 1) ⟨(groups table).flatMap Group.elems ++ [e], 0, 0⟩) = _ :=
      decodeLoop_nested he hgs hpos hlev rfl hres hholds (by rw [zero_add]; exact hsize) h32 h16
        hclean hfuel
    rw [← htable, zero_add] at hloop
    rw [qmiDecode]
    exact hloop

end

end Sm8850.Qmi
