import Sm8850.Lib.Memory
import Sm8850.Lib.Run

/-! The element tables and the decoder of drivers/soc/qcom/qmi_encdec.c. -/
namespace Sm8850.Qmi

open Memory Run

inductive ElemType
  | eoti
  | optFlag
  | dataLen
  | unsigned1Byte
  | unsigned2Byte
  | unsigned4Byte
  | unsigned8Byte
  | signed2ByteEnum
  | signed4ByteEnum
  | struct
  | string
  deriving DecidableEq

inductive ArrayType
  | noArray
  | staticArray
  | varLenArray
  deriving DecidableEq

/-- `struct qmi_elem_info`. A pointer into a table is the rest of the table from there on;
the empty list is a null pointer or a place behind the table. -/
structure ElemInfo where
  dataType : ElemType
  elemLen : Nat
  elemSize : Nat
  arrayType : ArrayType
  tlvType : UInt8
  offset : Nat
  eiArray : List ElemInfo

abbrev Table := List ElemInfo

def EFAULT : Int := 14
def EINVAL : Int := 22
def ETOOSMALL : Int := 525

/-- How a call ends without a result: with an error code, with a read behind a table, or
with the fuel of the model used up. -/
inductive Stop
  | err (code : Int)
  | wild
  | fuel
  deriving DecidableEq

/-- What the decoder does: it reads the message, writes the field at `addr` of the struct at
`base`, and is done with a TLV. -/
inductive Access
  | read (off len : Nat)
  | write (ei : ElemInfo) (base addr : Nat) (bs : List UInt8)
  | element (type : UInt8) (declared used : Nat)

abbrev Dec := Run Access Stop

/-- TLV_TYPE_SIZE and TLV_LEN_SIZE. -/
def tlvHdrSize : Nat := 3
def optionalTlvTypeStart : UInt8 := 0x10

def isBasic : ElemType → Bool
  | .unsigned1Byte | .unsigned2Byte | .unsigned4Byte | .unsigned8Byte => true
  | .signed2ByteEnum | .signed4ByteEnum => true
  | _ => false

/-- The size of a DATA_LEN element on the wire. -/
def dataLenSize (ei : ElemInfo) : Nat := if ei.elemSize = 1 then 1 else 2

/-- The size of the length in front of a string in a nested structure. -/
def stringLenSize (ei : ElemInfo) : Nat := if ei.elemLen ≤ 255 then 1 else 2

/-- The number of entries of an element. -/
def entries (ei : ElemInfo) (dataLenValue : Nat) : Nat :=
  match ei.arrayType with
  | .noArray => 1
  | .staticArray => ei.elemLen
  | .varLenArray => dataLenValue

section
variable (inp : Nat → UInt8)

/-- `qmi_decode_basic_elem`: the bytes that are copied. -/
def decodeBasicElem (src elemLen elemSize srcLen : Nat) : Dec (List UInt8) :=
  if srcLen < elemLen * elemSize % 2 ^ 32 then fail (.err (-EINVAL))
  else do
    emit (.read src (elemLen * elemSize))
    pure (peek inp src (elemLen * elemSize))

/-- The loop of `qmi_decode_struct_elem`, with `n` elements to go after the first `i`. -/
def structElems (dec : (dst src len : Nat) → Dec Nat) (elemSize dst src tlvLen : Nat) :
    (n i decodedBytes : Nat) → Dec (Nat × Nat)
  | 0, i, decodedBytes => pure (i, decodedBytes)
  | n + 1, i, decodedBytes =>
    if decodedBytes < tlvLen then do
      let rc ← dec (dst + i * elemSize) (src + decodedBytes) (tlvLen - decodedBytes)
      structElems dec elemSize dst src tlvLen n (i + 1) (decodedBytes + rc)
    else pure (i, decodedBytes)

def decodeStructElem (dec : Table → (dst src len : Nat) → Dec Nat) (ei : ElemInfo)
    (dst src elemLen tlvLen decLevel srcLen : Nat) : Dec Nat :=
  if srcLen < tlvLen then fail (.err (-EINVAL))
  else do
    let (i, decodedBytes) ←
      structElems (dec ei.eiArray) ei.elemSize dst src tlvLen elemLen 0 0
    if (decLevel ≤ 2 ∧ decodedBytes ≠ tlvLen) ∨
        (2 < decLevel ∧ (i < elemLen ∨ tlvLen < decodedBytes)) then
      fail (.err (-EFAULT))
    else pure decodedBytes

/-- The string length and the size of its encoding. -/
def decodeStringLen (ei : ElemInfo) (src tlvLen decLevel srcLen : Nat) : Dec (Nat × Nat) :=
  if decLevel = 1 then pure (tlvLen, 0)
  else do
    let bs ← decodeBasicElem inp src 1 (stringLenSize ei) srcLen
    pure (leNat bs, stringLenSize ei)

def decodeStringElem (ei : ElemInfo) (base dst src tlvLen decLevel srcLen : Nat) : Dec Nat := do
  let (stringLen, decodedBytes) ← decodeStringLen inp ei src tlvLen decLevel srcLen
  if ei.elemLen ≤ stringLen then fail (.err (-ETOOSMALL))
  else if tlvLen < stringLen then fail (.err (-EFAULT))
  else do
    let bs ← decodeBasicElem inp (src + decodedBytes) stringLen ei.elemSize
      (sub32 srcLen decodedBytes)
    emit (.write ei base dst bs)
    emit (.write ei base (dst + stringLen) [0])
    pure (decodedBytes + bs.length)

def findEi (table : Table) (type : UInt8) : Option Table :=
  match table with
  | [] => none
  | ei :: rest =>
    if ei.dataType = .eoti then none
    else if ei.tlvType = type then some (ei :: rest)
    else findEi rest type

/-- The variables of `qmi_decode` that live from one element to the next. -/
structure DecState where
  tempEi : Table
  dataLenValue : Nat
  decodedBytes : Nat

/-- An OPT_FLAG element is set to 1. -/
def decodeOptFlag (base : Nat) : Table → Dec Table
  | [] => fail .wild
  | ei :: rest =>
    if ei.dataType = .optFlag then do
      emit (.write ei base (base + ei.offset) [1])
      pure rest
    else pure (ei :: rest)

/-- A DATA_LEN element overwrites the low bytes of `data_len_value`; also returns the length
left to the TLV. -/
def decodeDataLen (base src inBufLen tlvLen : Nat) (st : DecState) : Dec (DecState × Nat) :=
  match st.tempEi with
  | [] => fail .wild
  | ei :: rest =>
    if ei.dataType = .dataLen then do
      let bs ← decodeBasicElem inp (src + st.decodedBytes) 1 (dataLenSize ei)
        (sub32 inBufLen st.decodedBytes)
      let dataLenValue := overlay st.dataLenValue bs
      emit (.write ei base (base + ei.offset) (leBytes 4 dataLenValue))
      pure (⟨rest, dataLenValue, st.decodedBytes + dataLenSize ei⟩, sub32 tlvLen (dataLenSize ei))
    else pure (st, tlvLen)

/-- The number of entries to decode. -/
def decodeCount (ei : ElemInfo) (dataLenValue : Nat) : Dec Nat :=
  match ei.arrayType with
  | .noArray => pure 1
  | .staticArray => pure ei.elemLen
  | .varLenArray =>
    if ei.elemLen < dataLenValue then fail (.err (-ETOOSMALL)) else pure dataLenValue

/-- The switch of `qmi_decode`. -/
def decodePayload (dec : Table → (dst src len : Nat) → Dec Nat) (decLevel base : Nat)
    (ei : ElemInfo) (src count tlvLen srcLen : Nat) : Dec Nat :=
  if isBasic ei.dataType then do
    let bs ← decodeBasicElem inp src count ei.elemSize srcLen
    emit (.write ei base (base + ei.offset) bs)
    pure bs.length
  else if ei.dataType = .struct then
    decodeStructElem dec ei (base + ei.offset) src count tlvLen (decLevel + 1) srcLen
  else if ei.dataType = .string then
    decodeStringElem inp ei base (base + ei.offset) src tlvLen decLevel srcLen
  else fail (.err (-EINVAL))

/-- One pass of the loop of `qmi_decode` once the element and the TLV length are known. -/
def decodeElem (dec : Table → (dst src len : Nat) → Dec Nat)
    (decLevel base src inBufLen tlvLen : Nat) (st : DecState) : Dec DecState := do
  let tempEi ← decodeOptFlag base st.tempEi
  let (st, tlvLen) ← decodeDataLen inp base src inBufLen tlvLen { st with tempEi := tempEi }
  match st.tempEi with
  | [] => fail .wild
  | ei :: rest => do
    let count ← decodeCount ei st.dataLenValue
    let rc ← decodePayload inp dec decLevel base ei (src + st.decodedBytes) count tlvLen
      (sub32 inBufLen st.decodedBytes)
    pure ⟨rest, count, st.decodedBytes + rc⟩

/-- The type and the length of the TLV at `src`. -/
def tlvTypeAt (src : Nat) : UInt8 := inp src
def tlvLenAt (src : Nat) : Nat := leNat (peek inp (src + 1) 2)

def atEoti : Table → Bool
  | [] => false
  | ei :: _ => ei.dataType = .eoti

def decodeLoop (dec : Table → (dst src len : Nat) → Dec Nat) (table : Table)
    (decLevel base src inBufLen : Nat) : (fuel : Nat) → DecState → Dec Nat
  | 0, _ => fail .fuel
  | fuel + 1, st =>
    if st.decodedBytes < inBufLen then
      if decLevel = 1 then
        if inBufLen < st.decodedBytes + tlvHdrSize then fail (.err (-EINVAL))
        else do
          emit (.read (src + st.decodedBytes) tlvHdrSize)
          let tlvType := tlvTypeAt inp (src + st.decodedBytes)
          let tlvLen := tlvLenAt inp (src + st.decodedBytes)
          let decodedBytes := st.decodedBytes + tlvHdrSize
          match findEi table tlvType with
          | none =>
            if tlvType < optionalTlvTypeStart then fail (.err (-EINVAL))
            else
              let st := ⟨[], st.dataLenValue, decodedBytes + tlvLen⟩
              decodeLoop dec table decLevel base src inBufLen fuel st
          | some tempEi => do
            let st ← decodeElem inp dec decLevel base src inBufLen tlvLen
              ⟨tempEi, st.dataLenValue, decodedBytes⟩
            emit (.element tlvType tlvLen (st.decodedBytes - decodedBytes))
            decodeLoop dec table decLevel base src inBufLen fuel st
      else if atEoti st.tempEi then pure st.decodedBytes
      else do
        let st ← decodeElem inp dec decLevel base src inBufLen (inBufLen - st.decodedBytes) st
        decodeLoop dec table decLevel base src inBufLen fuel st
    else pure st.decodedBytes

/-- `qmi_decode` of the bytes at `src` into the struct at `base`; `depth` bounds the nesting
of the tables. -/
def qmiDecode : (depth decLevel : Nat) → Table → (base src inBufLen : Nat) → Dec Nat
  | 0, _, _, _, _, _ => fail .fuel
  | depth + 1, decLevel, table, base, src, inBufLen =>
    decodeLoop inp (qmiDecode depth (decLevel + 1)) table decLevel base src inBufLen
      (inBufLen + table.length + 1) ⟨table, 0, 0⟩

end

/-- `sizeof(struct qmi_header)`. -/
def qmiHeaderSize : Nat := 7

def qmiDecodeMessage (depth : Nat) (buf : Nat → UInt8) (len : Nat) (ei : Table) : Dec Nat :=
  if ei = [] then fail (.err (-EINVAL))
  else if len = 0 then fail (.err (-EINVAL))
  else qmiDecode buf depth 1 ei 0 qmiHeaderSize (sub32 len qmiHeaderSize)

end Sm8850.Qmi
