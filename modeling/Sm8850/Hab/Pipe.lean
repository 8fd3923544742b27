import Sm8850.Lib.Path
import Sm8850.Lib.Stream

/-! The HAB pipe (hab_pipe.c): one direction of a pipe between two VMs. A call is taken apart at its
accesses to the shared buffer, so that the calls of the two sides interleave byte by byte. -/
namespace Sm8850.Hab

abbrev U32 := BitVec 32
abbrev Byte := BitVec 8

/-- `struct hab_shared_buf`. -/
structure SharedBuf where
  rdCount : U32
  wrCount : U32
  size : U32
  data : Nat → Byte

/-- `tx_info` of `struct hab_pipe_endpoint`. -/
structure TxInfo where
  wrCount : U32
  index : U32

/-- An index that has reached the end of the buffer goes back to its start. -/
def wrap (bufSize index : U32) : U32 := if bufSize ≤ index then 0 else index

/-! ### Copies -/

/-- The two copies of a call: `count1` bytes from `start` on, and `count2` bytes from `second` on. -/
structure Copy where
  start : U32
  count1 : U32
  second : U32
  count2 : U32

/-- The two copies for `n` bytes from `index` on, as both calls make them. -/
def split (bufSize index n : U32) : Copy :=
  let count1 := if n ≤ bufSize - index then n else bufSize - index
  { start := index
    count1
    second := if 0 < count1 then wrap bufSize (index + count1) else index
    count2 := n - count1 }

def Copy.total (c : Copy) : U32 := c.count1 + c.count2

/-- The place of byte `k` in the buffer. -/
def Copy.cell (c : Copy) (k : Nat) : Nat :=
  if k < c.count1.toNat then c.start.toNat + k else c.second.toNat + (k - c.count1.toNat)

/-! ### `hab_pipe_write` -/

/-- Up to the first copy; `none` if nothing is written and 0 returned. -/
def writeBegin (tx : TxInfo) (rdCount bufSize numBytes : U32) : Option Copy :=
  if bufSize < tx.wrCount - rdCount then none
  else
    let space := bufSize - (tx.wrCount - rdCount)
    if space < numBytes ∨ numBytes = 0 then none
    else if bufSize < tx.index ∨ bufSize < numBytes then none
    else some (split bufSize tx.index numBytes)

/-- What the call returns. -/
def writeReturn (tx : TxInfo) (rdCount bufSize numBytes : U32) : U32 :=
  if (writeBegin tx rdCount bufSize numBytes).isSome then numBytes else 0

/-- `tx_info` behind the copies. -/
def writeEnd (tx : TxInfo) (bufSize : U32) (c : Copy) : TxInfo where
  wrCount := tx.wrCount + c.count1 + c.count2
  index := if 0 < c.count2 then wrap bufSize (c.second + c.count2) else c.second

/-! ### `hab_pipe_read` -/

/-- Up to the first copy; `none` if 0 is returned. -/
def readBegin (index : U32) (wrCount rdCount bufSize size : U32) : Option Copy :=
  let avail := wrCount - rdCount
  if avail = 0 ∨ size = 0 ∨ bufSize < index then none
  else some (split bufSize index (if avail < size then avail else size))

/-- `rx_info.index` behind the copies: here it is not wrapped again. -/
def readIndex (c : Copy) : U32 := if 0 < c.count2 then c.second + c.count2 else c.second

/-- `sizeof(struct hab_header)`. -/
def headerSize : U32 := 20

/-- `HAB_HEAD_SIGNATURE`. -/
def headSignature : U32 := 0xBEE1BEE1

/-- `signature` of the `struct hab_header` at the start of a buffer. -/
def signature (buf : Nat → Byte) : U32 := buf 15 ++ buf 14 ++ buf 13 ++ buf 12

/-- A read that has begun: `done` bytes are copied to `buf`. `retry` counts the mismatches, and
`again` says that the copy under way is not checked any more. -/
structure Reading where
  copy : Copy
  size : U32
  clear : Bool
  buf : Nat → Byte
  done : Nat
  retry : Nat
  again : Bool

/-- The copied bytes are those of a header whose signature counts. -/
def Reading.isHead (r : Reading) : Bool := r.clear && r.size == headerSize

/-- The signature is wrong and there is another try. -/
def Reading.retries (r : Reading) : Bool := r.isHead && !r.again && signature r.buf != headSignature && r.retry ≤ 1000

/-- `signature_mismatch` when the tries are over. -/
def Reading.verdict (r : Reading) (mismatch : Bool) : Bool :=
  if r.isHead then r.again || signature r.buf != headSignature else mismatch

/-- `rx_info.index` when the call returns. -/
def Reading.endIndex (r : Reading) (mismatch : Bool) (size : U32) : U32 :=
  if mismatch then wrap size (r.copy.start + 1) else readIndex r.copy

/-- What the call adds to `rd_count`. -/
def Reading.endCount (r : Reading) (mismatch : Bool) : U32 := if mismatch then 1 else r.copy.total

/-- What the call returns. -/
def Reading.ret (r : Reading) (mismatch : Bool) : U32 :=
  if mismatch then if r.retry < 1000 then 0xFFFFFFFE else 0xFFFFFFFF else r.copy.total

/-! ### The two sides -/

/-- A write that has begun, with `done` bytes copied. -/
structure Writing where
  bytes : List Byte
  copy : Copy
  done : Nat

/-- One direction of a pipe: `tx_info` of the writing endpoint, the index of the reading one, the
buffer between them, `signature_mismatch`, and the calls under way. -/
structure Pipe where
  tx : TxInfo
  rxIndex : U32
  sh : SharedBuf
  mismatch : Bool
  writing : Option Writing
  reading : Option Reading

/-- What has gone through: the bytes of the completed writes, how many of them are committed, and the
bytes that reads have returned. -/
structure History where
  sent : List Byte
  committed : Nat
  returned : List Byte

inductive Act where
  | writeBegin (bytes : List Byte)
  | writeByte
  | writeEnd
  | commit
  | readNone (size : U32)
  | readBegin (size : U32) (clear : Bool) (buf : Nat → Byte)
  | readByte
  | readRetry
  | readEnd

def Pipe.store (p : Pipe) (a : Nat) (b : Byte) : Pipe :=
  { p with sh := { p.sh with data := Function.update p.sh.data a b } }

/-- One action of either side. Reads are for at most the committed bytes; where a header is read, the
bytes that are next in the stream carry the signature. -/
inductive Step (bufSize : U32) : Pipe × History → Act → Pipe × History → Prop
  | writeRefused {p : Pipe} {h : History} {bytes : List Byte} :
      p.writing = none → bytes.length < 2 ^ 32 →
      writeBegin p.tx p.sh.rdCount bufSize (BitVec.ofNat 32 bytes.length) = none →
      Step bufSize (p, h) (.writeBegin bytes) (p, h)
  | writeBegin {p : Pipe} {h : History} {bytes : List Byte} {c : Copy} :
      p.writing = none → bytes.length < 2 ^ 32 →
      writeBegin p.tx p.sh.rdCount bufSize (BitVec.ofNat 32 bytes.length) = some c →
      Step bufSize (p, h) (.writeBegin bytes) ({ p with writing := some ⟨bytes, c, 0⟩ }, h)
  | writeByte {p : Pipe} {h : History} {w : Writing} {b : Byte} :
      p.writing = some w → w.bytes[w.done]? = some b →
      Step bufSize (p, h) .writeByte
        ({ p.store (w.copy.cell w.done) b with writing := some { w with done := w.done + 1 } }, h)
  | writeEnd {p : Pipe} {h : History} {w : Writing} :
      p.writing = some w → w.done = w.bytes.length →
      Step bufSize (p, h) .writeEnd
        ({ p with tx := writeEnd p.tx bufSize w.copy, writing := none }, { h with sent := h.sent ++ w.bytes })
  | commit {p : Pipe} {h : History} :
      p.writing = none →
      Step bufSize (p, h) .commit
        ({ p with sh := { p.sh with wrCount := p.tx.wrCount } }, { h with committed := h.sent.length })
  | readNone {p : Pipe} {h : History} {size : U32} :
      p.reading = none → size.toNat ≤ h.committed - h.returned.length →
      readBegin p.rxIndex p.sh.wrCount p.sh.rdCount bufSize size = none →
      Step bufSize (p, h) (.readNone size) (p, h)
  | readBegin {p : Pipe} {h : History} {size : U32} {clear : Bool} {buf : Nat → Byte} {c : Copy} :
      p.reading = none → size.toNat ≤ h.committed - h.returned.length →
      (clear = true → size = headerSize →
        signature (fun i => h.sent.getD (h.returned.length + i) 0) = headSignature) →
      readBegin p.rxIndex p.sh.wrCount p.sh.rdCount bufSize size = some c →
      Step bufSize (p, h) (.readBegin size clear buf)
        ({ p with reading := some ⟨c, size, clear, buf, 0, 0, false⟩ }, h)
  | readByte {p : Pipe} {h : History} {r : Reading} :
      p.reading = some r → r.done < r.copy.total.toNat →
      Step bufSize (p, h) .readByte
        ({ p with reading := some { r with
            buf := Function.update r.buf r.done (p.sh.data (r.copy.cell r.done)), done := r.done + 1 } }, h)
  | readRetry {p : Pipe} {h : History} {r : Reading} :
      p.reading = some r → r.done = r.copy.total.toNat → r.retries = true →
      Step bufSize (p, h) .readRetry
        ({ p with reading := some { r with done := 0, retry := r.retry + 1, again := p.mismatch } }, h)
  | readEnd {p : Pipe} {h : History} {r : Reading} :
      p.reading = some r → r.done = r.copy.total.toNat → r.retries = false →
      Step bufSize (p, h) .readEnd
        ({ p with
            rxIndex := r.endIndex (r.verdict p.mismatch) p.sh.size
            sh := { p.sh with rdCount := p.sh.rdCount + r.endCount (r.verdict p.mismatch) }
            mismatch := r.verdict p.mismatch
            reading := none },
          { h with returned := h.returned ++
              (List.range (if r.verdict p.mismatch then 0 else (r.ret false).toNat)).map r.buf })

end Sm8850.Hab
