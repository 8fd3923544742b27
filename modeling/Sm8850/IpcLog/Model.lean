import Sm8850.Lib.Path
import Sm8850.Lib.PagedRing

/-! The IPC log of kernel/trace/ipc_logging.c: the circular list of pages with its write,
destructive read and non-destructive read cursors, and the encoding of messages. -/
namespace Sm8850.IpcLog

open Memory UInt8

/-- PAGE_SIZE minus the page header. -/
def logPageDataSize : Nat := 4096 - 72

def maxMsgSize : Nat := 255

def EINVAL : Int := 22

def tsvTypeTimestamp : Nat := 1
def tsvTypePointer : Nat := 2
def tsvTypeInt32 : Nat := 3
def tsvTypeByteArray : Nat := 4
def tsvTypeQtimer : Nat := 5

/-- `struct ipc_log_page`, without the fields that only serve log extraction. -/
structure Page where
  readOffset : Nat
  writeOffset : Nat
  ndReadOffset : Nat
  data : Nat → UInt8

/-- `struct ipc_log_context`. A page pointer is the page's index in the list. -/
structure Context where
  numPages : Nat
  pages : Nat → Page
  writePage : Nat
  readPage : Nat
  ndReadPage : Nat
  writeAvail : Nat

def contextCreate (maxNumPages : Nat) : Context where
  numPages := maxNumPages
  pages := fun _ => ⟨0, 0, 0, fun _ => 0⟩
  writePage := 0
  readPage := 0
  ndReadPage := 0
  writeAvail := maxNumPages * logPageDataSize % 2 ^ 32

def Context.setPage (c : Context) (p : Nat) (pg : Page) : Context :=
  { c with pages := Function.update c.pages p pg }

def isNdReadEmpty (c : Context) : Bool :=
  c.ndReadPage = c.writePage &&
    (c.pages c.ndReadPage).ndReadOffset = (c.pages c.writePage).writeOffset

def isReadEmpty (c : Context) : Bool :=
  c.readPage = c.writePage && (c.pages c.readPage).readOffset = (c.pages c.writePage).writeOffset

def isNdReadEqualRead (c : Context) : Bool :=
  c.ndReadPage = c.readPage && (c.pages c.readPage).readOffset = (c.pages c.ndReadPage).ndReadOffset

def getNextPage (c : Context) (p : Nat) : Nat :=
  if c.numPages - 1 = p then 0 else p + 1

def Page.setNd (pg : Page) (off : Nat) : Page := { pg with ndReadOffset := off }
def Page.setRead (pg : Page) (off : Nat) : Page := { pg with readOffset := off }

def ipcLogRead (c : Context) (dataSize : Nat) : Context × List UInt8 :=
  let pg := c.pages c.ndReadPage
  let bytesToRead := min (logPageDataSize - pg.ndReadOffset) dataSize
  let data := peek pg.data pg.ndReadOffset bytesToRead
  if bytesToRead ≠ dataSize then
    let c := c.setPage c.ndReadPage (pg.setNd 0)
    let c : Context := { c with ndReadPage := getNextPage c c.ndReadPage }
    let pg := c.pages c.ndReadPage
    let rest := dataSize - bytesToRead
    (c.setPage c.ndReadPage (pg.setNd (pg.ndReadOffset + rest)),
      data ++ peek pg.data pg.ndReadOffset rest)
  else (c.setPage c.ndReadPage (pg.setNd (pg.ndReadOffset + bytesToRead)), data)

/-- The last part of `ipc_log_drop`, which moves the read cursor within its page. -/
def dropTail (c : Context) (bytesToRead dataSize : Nat) : Context :=
  let pushNdRead := isNdReadEqualRead c
  let pg := c.pages c.readPage
  let c := c.setPage c.readPage (pg.setRead (pg.readOffset + bytesToRead))
  let c : Context := { c with writeAvail := c.writeAvail + dataSize }
  if pushNdRead then
    let pg := c.pages c.ndReadPage
    c.setPage c.ndReadPage (pg.setNd (pg.ndReadOffset + bytesToRead))
  else c

def ipcLogDrop (c : Context) (dataSize : Nat) : Context × List UInt8 :=
  let pg := c.pages c.readPage
  let bytesToRead := min (logPageDataSize - pg.readOffset) dataSize
  let data := peek pg.data pg.readOffset bytesToRead
  if bytesToRead ≠ dataSize then
    let pushNdRead := isNdReadEqualRead c
    let c := c.setPage c.readPage (pg.setRead 0)
    let c : Context :=
      if pushNdRead then
        let c := c.setPage c.readPage ((c.pages c.readPage).setNd 0)
        let next := getNextPage c c.readPage
        { c with readPage := next, ndReadPage := next }
      else { c with readPage := getNextPage c c.readPage }
    let pg := c.pages c.readPage
    let rest := dataSize - bytesToRead
    (dropTail c rest dataSize, data ++ peek pg.data pg.readOffset rest)
  else (dropTail c bytesToRead dataSize, data)

/-- Returns the header and the body of the message read; none if there is no message. -/
def msgRead (c : Context) : Context × Option (List UInt8) :=
  if isNdReadEmpty c then (c, none)
  else
    let (c, hdr) := ipcLogRead c 2
    let (c, body) := ipcLogRead c (hdr.getD 1 0).toNat
    (c, some (hdr ++ body))

def msgDrop (c : Context) : Context :=
  if isReadEmpty c then c
  else
    let (c, hdr) := ipcLogDrop c 2
    (ipcLogDrop c (hdr.getD 1 0).toNat).1

/-- The loop that makes room for a message; none if `fuel` iterations are not enough. -/
def dropUntil (len : Nat) : Nat → Context → Option Context
  | 0, _ => none
  | fuel + 1, c => if c.writeAvail ≤ len then dropUntil len fuel (msgDrop c) else some c

def Page.write (pg : Page) (bytes : List UInt8) : Page :=
  { pg with data := poke pg.data pg.writeOffset bytes
            writeOffset := pg.writeOffset + bytes.length }

/-- The part of `ipc_log_write` after the loop. -/
def commit (c : Context) (buff : List UInt8) : Context :=
  let pg := c.pages c.writePage
  let bytesToWrite := min (logPageDataSize - pg.writeOffset) buff.length
  let c' := c.setPage c.writePage (pg.write (buff.take bytesToWrite))
  let c' : Context :=
    if bytesToWrite ≠ buff.length then
      let next := getNextPage c' c'.writePage
      let pg := { c'.pages next with writeOffset := 0 }
      { c'.setPage next (pg.write (buff.drop bytesToWrite)) with writePage := next }
    else c'
  { c' with writeAvail := c'.writeAvail - buff.length }

/-- `struct encode_context`. -/
structure EncodeContext where
  hdrType : UInt8
  hdrSize : UInt8
  buff : Nat → UInt8
  offset : Nat

/-- What `ipc_log_write` takes from the context. -/
def EncodeContext.bytes (e : EncodeContext) : List UInt8 := peek e.buff 0 e.offset

def msgEncodeStart (e : EncodeContext) (type : UInt32) : EncodeContext :=
  { e with hdrType := type.toUInt8, hdrSize := 0, offset := 2 }

def msgEncodeEnd (e : EncodeContext) : EncodeContext :=
  let size := ofNat (e.offset - 2)
  { e with hdrSize := size, buff := poke e.buff 0 [e.hdrType, size] }

def tsvWriteData (e : EncodeContext) (data : List UInt8) : EncodeContext × Int :=
  if maxMsgSize < e.offset + data.length then (e, -EINVAL)
  else ({ e with buff := poke e.buff e.offset data, offset := e.offset + data.length }, 0)

def tsvWriteHeader (e : EncodeContext) (type size : Nat) : EncodeContext × Int :=
  tsvWriteData e [ofNat type, ofNat size]

/-- The common body of the typed writers: a header, then the data. -/
def tsvWrite (e : EncodeContext) (type : Nat) (data : List UInt8) : EncodeContext × Int :=
  let (e, ret) := tsvWriteHeader e type data.length
  if ret ≠ 0 then (e, ret) else tsvWriteData e data

def tsvTimestampWrite (e : EncodeContext) (tNow : UInt64) : EncodeContext × Int :=
  tsvWrite e tsvTypeTimestamp (leBytes 8 tNow.toNat)

def tsvQtimerWrite (e : EncodeContext) (tNow : UInt64) : EncodeContext × Int :=
  tsvWrite e tsvTypeQtimer (leBytes 8 tNow.toNat)

def tsvPointerWrite (e : EncodeContext) (pointer : UInt64) : EncodeContext × Int :=
  tsvWrite e tsvTypePointer (leBytes 8 pointer.toNat)

def tsvInt32Write (e : EncodeContext) (n : BitVec 32) : EncodeContext × Int :=
  tsvWrite e tsvTypeInt32 (leBytes 4 n.toNat)

def tsvByteArrayWrite (e : EncodeContext) (data : List UInt8) : EncodeContext × Int :=
  tsvWrite e tsvTypeByteArray data

inductive TsvWrite where
  | timestamp (tNow : UInt64)
  | qtimer (tNow : UInt64)
  | pointer (ptr : UInt64)
  | int32 (n : BitVec 32)
  | byteArray (data : List UInt8)

def TsvWrite.apply (e : EncodeContext) : TsvWrite → EncodeContext
  | .timestamp tNow => (tsvTimestampWrite e tNow).1
  | .qtimer tNow => (tsvQtimerWrite e tNow).1
  | .pointer ptr => (tsvPointerWrite e ptr).1
  | .int32 n => (tsvInt32Write e n).1
  | .byteArray data => (tsvByteArrayWrite e data).1

/-- A message completed by start, any number of typed writes, and end. -/
def encodeMsg (e : EncodeContext) (type : UInt32) (writes : List TsvWrite) : EncodeContext :=
  msgEncodeEnd (writes.foldl TsvWrite.apply (msgEncodeStart e type))

def ipcLogWrite (fuel : Nat) (c : Context) (e : EncodeContext) : Option Context :=
  (dropUntil e.offset fuel c).map (fun c => commit c e.bytes)

inductive Action where
  | write (e : EncodeContext) (type : UInt32) (writes : List TsvWrite)
  | read (out : Option (List UInt8))

/-- A write that returns, or a read with its result. -/
def Step (c : Context) : Action → Context → Prop
  | .write e type writes, c' => ∃ fuel, ipcLogWrite fuel c (encodeMsg e type writes) = some c'
  | .read out, c' => msgRead c = (c', out)

end Sm8850.IpcLog
