import Sm8850.Qmi.Model

/-! The encoder of drivers/soc/qcom/qmi_encdec.c. -/
namespace Sm8850.Qmi

open Memory Run

/-- A copy into the output buffer. -/
structure Out where
  off : Nat
  bs : List UInt8

abbrev Enc := Run Out Stop

/-- The next element; at the top, the next one with another TLV type. -/
def skipToNextElem (level : Nat) : Table → Table
  | [] => []
  | ei :: rest => if 1 < level then rest else rest.dropWhile (fun e => e.tlvType = ei.tlvType)

section
variable (mem : Nat → UInt8)

/-- The bytes before the first NUL, of which no more than `bound` are looked at. -/
def strlen : (addr bound : Nat) → Nat
  | _, 0 => 0
  | addr, bound + 1 => if mem addr = 0 then 0 else strlen (addr + 1) bound + 1

def encodeStringElem (ei : ElemInfo) (src dst outBufLen encLevel : Nat) : Enc Nat :=
  let stringLen := strlen mem src (ei.elemLen + 1)
  if ei.elemLen < stringLen then fail (.err (-EINVAL))
  else if encLevel = 1 then
    if outBufLen < stringLen + tlvHdrSize then fail (.err (-ETOOSMALL))
    else do
      emit ⟨dst, peek mem src (stringLen * ei.elemSize)⟩
      pure (stringLen * ei.elemSize)
  else if outBufLen < (stringLen + stringLenSize ei) % 2 ^ 32 then fail (.err (-ETOOSMALL))
  else do
    emit ⟨dst, leBytes (stringLenSize ei) stringLen⟩
    emit ⟨dst + stringLenSize ei, peek mem src (stringLen * ei.elemSize)⟩
    pure (stringLenSize ei + stringLen * ei.elemSize)

/-- `qmi_encode_struct_elem`, with `n` elements to go after the first `i`. -/
def encodeStructElem (enc : (src dst outBufLen : Nat) → Enc Nat) (elemSize src dst outBufLen : Nat) :
    (n i encodedBytes : Nat) → Enc Nat
  | 0, _, encodedBytes => pure encodedBytes
  | n + 1, i, encodedBytes => do
    let rc ← enc (src + i * elemSize) (dst + encodedBytes) (sub32 outBufLen encodedBytes)
    encodeStructElem enc elemSize src dst outBufLen n (i + 1) (encodedBytes + rc)

/-- The variables of `qmi_encode` that live from one element to the next. -/
structure EncState where
  tempEi : Table
  dataLenValue : Nat
  encodedBytes : Nat
  tlvLen : Nat
  tlvPointer : Nat
  bufDst : Nat
  encodeTlv : Bool

/-- UPDATE_ENCODE_VARIABLES. -/
def EncState.update (st : EncState) (rest : Table) (rc : Nat) : EncState :=
  { st with
    tempEi := rest
    bufDst := st.bufDst + rc
    encodedBytes := st.encodedBytes + rc
    tlvLen := st.tlvLen + rc
    encodeTlv := true }

/-- The number of entries to encode. -/
def encodeCount (ei : ElemInfo) (dataLenValue : Nat) : Enc Nat :=
  match ei.arrayType with
  | .noArray => pure 1
  | .staticArray => pure ei.elemLen
  | .varLenArray =>
    if dataLenValue = 0 ∨ ei.elemLen < dataLenValue then fail (.err (-EINVAL))
    else pure dataLenValue

/-- An optional element is skipped when its flag is not set. -/
def encodeOptFlag (encLevel base : Nat) (ei : ElemInfo) (rest : Table) (st : EncState) : EncState :=
  { st with
    tempEi := if mem (base + ei.offset) ≠ 0 then rest else skipToNextElem encLevel (ei :: rest) }

/-- An empty array is skipped behind its length. -/
def encodeDataLen (encLevel base outBufLen : Nat) (ei : ElemInfo) (rest : Table) (st : EncState) :
    Enc EncState :=
  let dataLenValue := overlay st.dataLenValue (peek mem (base + ei.offset) ei.elemSize)
  if outBufLen < (dataLenSize ei + st.encodedBytes) % 2 ^ 32 + tlvHdrSize then
    fail (.err (-ETOOSMALL))
  else do
    emit ⟨st.bufDst, leBytes (dataLenSize ei) dataLenValue⟩
    let st := { st.update rest (dataLenSize ei) with dataLenValue := dataLenValue }
    if dataLenValue = 0 then pure { st with tempEi := skipToNextElem encLevel rest }
    else pure { st with encodeTlv := false }

/-- The switch of `qmi_encode`, once `data_len_value` is set. -/
def encodeElem (enc : Table → (src dst outBufLen : Nat) → Enc Nat) (encLevel base outBufLen : Nat)
    (ei : ElemInfo) (rest : Table) (st : EncState) : Enc EncState :=
  if ei.dataType = .optFlag then pure (encodeOptFlag mem encLevel base ei rest st)
  else if ei.dataType = .dataLen then encodeDataLen mem encLevel base outBufLen ei rest st
  else if isBasic ei.dataType then
    if outBufLen < (st.dataLenValue * ei.elemSize % 2 ^ 32 + st.encodedBytes) % 2 ^ 32 + tlvHdrSize
    then fail (.err (-ETOOSMALL))
    else do
      emit ⟨st.bufDst, peek mem (base + ei.offset) (st.dataLenValue * ei.elemSize)⟩
      pure (st.update rest (st.dataLenValue * ei.elemSize))
  else if ei.dataType = .struct then do
    let rc ← encodeStructElem (enc ei.eiArray) ei.elemSize (base + ei.offset) st.bufDst
      (sub32 outBufLen st.encodedBytes) st.dataLenValue 0 0
    pure (st.update rest rc)
  else if ei.dataType = .string then do
    let rc ← encodeStringElem mem ei (base + ei.offset) st.bufDst
      (sub32 outBufLen st.encodedBytes) encLevel
    pure (st.update rest rc)
  else fail (.err (-EINVAL))

/-- The header of a TLV goes in front of it once it is encoded. -/
def encodeTlvHdr (encLevel : Nat) (tlvType : UInt8) (st : EncState) : Enc EncState :=
  if st.encodeTlv ∧ encLevel = 1 then do
    emit ⟨st.tlvPointer, tlvType :: leBytes 2 st.tlvLen⟩
    pure { st with
      encodedBytes := st.encodedBytes + tlvHdrSize
      tlvPointer := st.bufDst
      tlvLen := 0
      bufDst := st.bufDst + tlvHdrSize
      encodeTlv := false }
  else pure st

def encodeLoop (enc : Table → (src dst outBufLen : Nat) → Enc Nat) (encLevel base outBufLen : Nat) :
    (fuel : Nat) → EncState → Enc Nat
  | 0, _ => fail .fuel
  | fuel + 1, st =>
    match st.tempEi with
    | [] => fail .wild
    | ei :: rest =>
      if ei.dataType = .eoti then pure st.encodedBytes
      else do
        let count ← encodeCount ei st.dataLenValue
        let st ← encodeElem mem enc encLevel base outBufLen ei rest { st with dataLenValue := count }
        let st ← encodeTlvHdr encLevel ei.tlvType st
        encodeLoop enc encLevel base outBufLen fuel st

/-- `qmi_encode` of the struct at `base` to the buffer at `dst`; `depth` bounds the nesting of
the tables. -/
def qmiEncode : (depth encLevel : Nat) → Table → (base dst outBufLen : Nat) → Enc Nat
  | 0, _, _, _, _, _ => fail .fuel
  | depth + 1, encLevel, table, base, dst, outBufLen =>
    if table = [] then pure 0
    else
      let bufDst := if encLevel = 1 then dst + tlvHdrSize else dst
      encodeLoop mem (qmiEncode depth (encLevel + 1)) encLevel base outBufLen (table.length + 1)
        ⟨table, 0, 0, 0, dst, bufDst, false⟩

/-- `qmi_encode_message` of a struct, into a buffer for the header and `len` bytes. -/
def qmiEncodeMessage (depth : Nat) (type : UInt8) (msgId len txnId : Nat) (ei : Table) : Enc Nat := do
  let msglen ← qmiEncode mem depth 1 ei 0 qmiHeaderSize (len % 2 ^ 32)
  emit ⟨0, type :: leBytes 2 txnId ++ leBytes 2 msgId ++ leBytes 2 msglen⟩
  pure (qmiHeaderSize + msglen)

end

end Sm8850.Qmi
