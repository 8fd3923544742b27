import Sm8850.Lib.Memory
import Sm8850.Lib.Run
import Sm8850.Lib.Words

/-! Items of a private partition of drivers/soc/qcom/smem.c: `qcom_smem_alloc_private` and
`qcom_smem_get_private` with the calls they are made through. -/
namespace Sm8850.Smem

open Memory (peek poke leNat leBytes)

/-- `struct smem_partition`. Its header lies inside, and it is mapped below the addresses that stand
for errors. Its size and its cacheline come from 32-bit words of the partition table. -/
structure Partition where
  virtBase : Nat
  size : Nat
  cacheline : Nat
  holdsHeader : 32 ≤ size
  size_lt : size < 2 ^ 32
  cacheline_lt : cacheline < 2 ^ 32
  mapped : virtBase + size ≤ 2 ^ 64 - 4096

inductive Errno where
  | einval
  | eexist
  | enospc
  | enoent
  | etimedout
  deriving DecidableEq, Repr

/-- Why a call does not return a result: it fails, or a loop uses up the rounds the model gives
it. -/
inductive Stop where
  | errno (e : Errno)
  | rounds
  deriving DecidableEq, Repr

structure Access where
  isWrite : Bool
  addr : Nat
  len : Nat
  deriving DecidableEq, Repr

abbrev Acc := Run Access Stop

abbrev Mem := Nat → UInt8

def readLe (mem : Mem) (addr len : Nat) : Acc Nat := ⟨[⟨false, addr, len⟩], .ok (leNat (peek mem addr len))⟩

def writeLe (mem : Mem) (addr len x : Nat) : Acc Mem := ⟨[⟨true, addr, len⟩], .ok (poke mem addr (leBytes len x))⟩

def failWith {α : Type} (e : Errno) : Acc α := Run.fail (.errno e)

/-! ### Pointers -/

def ptrAdd (p k : Nat) : Nat := (p + k) % 2 ^ 64

def ptrSub (p k : Nat) : Nat := (p + (2 ^ 64 - k % 2 ^ 64)) % 2 ^ 64

/-- `ALIGN(x, a)` of a size_t. -/
def align (x a : Nat) : Nat :=
  ((BitVec.ofNat 64 x + (BitVec.ofNat 64 a - 1)) &&& ~~~(BitVec.ofNat 64 a - 1)).toNat

/-- `IN_PARTITION_RANGE`. -/
def inPartitionRange (ptr size start last : Nat) : Bool :=
  start ≤ ptr && ptr ≤ ptrAdd ptr size && ptrAdd ptr size ≤ last

/-- `sizeof(struct smem_partition_header)` and `sizeof(struct smem_private_entry)`. -/
def sizeofPhdr : Nat := 32
def sizeofEntry : Nat := 16

def smemPrivateCanary : Nat := 0xa5a5

def phdrToLastUncachedEntry (mem : Mem) (phdr : Nat) : Acc Nat := do
  let offsetFreeUncached ← readLe mem (phdr + 12) 4
  pure (ptrAdd phdr offsetFreeUncached)

def phdrToLastCachedEntry (mem : Mem) (phdr : Nat) : Acc Nat := do
  let offsetFreeCached ← readLe mem (phdr + 16) 4
  pure (ptrAdd phdr offsetFreeCached)

def phdrToFirstUncachedEntry (phdr : Nat) : Nat := ptrAdd phdr sizeofPhdr

def phdrToFirstCachedEntry (mem : Mem) (phdr cacheline : Nat) : Acc Nat := do
  let size ← readLe mem (phdr + 8) 4
  pure (ptrSub (ptrAdd phdr size) (align sizeofEntry cacheline))

def uncachedEntryNext (mem : Mem) (e : Nat) : Acc Nat := do
  let paddingHdr ← readLe mem (e + 10) 2
  let size ← readLe mem (e + 4) 4
  pure (ptrAdd (ptrAdd (ptrAdd e sizeofEntry) paddingHdr) size)

def cachedEntryNext (mem : Mem) (e cacheline : Nat) : Acc Nat := do
  let size ← readLe mem (e + 4) 4
  pure (ptrSub (ptrSub e size) (align sizeofEntry cacheline))

def uncachedEntryToItem (mem : Mem) (e : Nat) : Acc Nat := do
  let paddingHdr ← readLe mem (e + 10) 2
  pure (ptrAdd (ptrAdd e sizeofEntry) paddingHdr)

def cachedEntryToItem (mem : Mem) (e : Nat) : Acc Nat := do
  let size ← readLe mem (e + 4) 4
  pure (ptrSub e size)

/-! ### The walks over the entries -/

/-- What one round of a walk finds: the end of the list, the item, or the next entry. -/
inductive Round where
  | done
  | hit
  | next (e : Nat)

/-- The body of the loops over the entries: `more` is the condition of the loop, `next` the step,
and `onward` the check of the step. -/
def round (mem : Mem) (item e : Nat) (more : Bool) (next : Acc Nat) (onward : Nat → Bool) : Acc Round :=
  if more then do
    let canary ← readLe mem e 2
    if canary ≠ smemPrivateCanary then failWith .einval
    else do
      let it ← readLe mem (e + 2) 2
      if it = item then pure .hit
      else do
        let e' ← next
        if !onward e' then failWith .einval else pure (.next e')
  else pure .done

/-- A round over the uncached entries, which grow up to `last`. -/
def uncachedRound (mem : Mem) (item last e : Nat) : Acc Round :=
  round mem item e (e < last && ptrAdd e sizeofEntry < last) (uncachedEntryNext mem e) (fun e' => e < e')

/-- A round over the cached entries, which grow down to `last`. -/
def cachedRound (mem : Mem) (item last cacheline e : Nat) : Acc Round :=
  round mem item e (last < e) (cachedEntryNext mem e cacheline) (fun e' => e' < e)

/-- A loop over entries: where it ends, and whether that is the item. -/
def walk (body : Nat → Acc Round) : Nat → Nat → Acc (Bool × Nat)
  | 0, _ => Run.fail .rounds
  | n + 1, e => do
    match ← body e with
    | .done => pure (false, e)
    | .hit => pure (true, e)
    | .next e' => walk body n e'

/-- The size of the item of an entry, without its padding. -/
def entrySize (part : Partition) (mem : Mem) (e : Nat) : Acc Nat := do
  let eSize ← readLe mem (e + 4) 4
  let paddingData ← readLe mem (e + 8) 2
  if eSize < part.size ∧ paddingData < eSize then pure (eSize - paddingData) else failWith .einval

def qcomSmemGetPrivate (part : Partition) (mem : Mem) (item : Nat) : Acc (Nat × Nat) := do
  let phdr := part.virtBase
  let pEnd := ptrAdd phdr part.size
  let e := phdrToFirstUncachedEntry phdr
  let uncachedEnd ← phdrToLastUncachedEntry mem phdr
  let cachedEnd ← phdrToLastCachedEntry mem phdr
  if !inPartitionRange uncachedEnd 0 phdr cachedEnd || pEnd < cachedEnd then failWith .einval
  else do
    let (hit, e) ← walk (uncachedRound mem item uncachedEnd) part.size e
    if hit then do
      let size ← entrySize part mem e
      let itemPtr ← uncachedEntryToItem mem e
      if !inPartitionRange itemPtr size e uncachedEnd then failWith .einval else pure (itemPtr, size)
    else if uncachedEnd < e then failWith .einval
    else if cachedEnd = pEnd then failWith .enoent
    else do
      let e ← phdrToFirstCachedEntry mem phdr part.cacheline
      if !inPartitionRange cachedEnd 0 uncachedEnd pEnd || !inPartitionRange e sizeofEntry cachedEnd pEnd then
        failWith .einval
      else do
        let (hit, e) ← walk (cachedRound mem item cachedEnd part.cacheline) part.size e
        if hit then do
          let size ← entrySize part mem e
          let itemPtr ← cachedEntryToItem mem e
          if !inPartitionRange itemPtr size cachedEnd e then failWith .einval else pure (itemPtr, size)
        else if e < phdr then failWith .einval
        else failWith .enoent

/-- `alloc_size` for a requested size. -/
def allocSize (size : Nat) : Nat := (sizeofEntry + align size 8) % 2 ^ 64

/-- The entry written behind the last one, and the free offset behind it. -/
def writeEntry (mem : Mem) (phdr hdr item size : Nat) : Acc Mem := do
  let mem ← writeLe mem hdr 2 smemPrivateCanary
  let mem ← writeLe mem (hdr + 2) 2 item
  let mem ← writeLe mem (hdr + 4) 4 (align size 8)
  let hdrSize ← readLe mem (hdr + 4) 4
  let mem ← writeLe mem (hdr + 8) 2 (ptrSub hdrSize size)
  let mem ← writeLe mem (hdr + 10) 2 0
  let offsetFreeUncached ← readLe mem (phdr + 12) 4
  writeLe mem (phdr + 12) 4 (offsetFreeUncached + allocSize size)

/-- The memory after `qcom_smem_alloc_private`, where it succeeds. -/
def qcomSmemAllocPrivate (part : Partition) (mem : Mem) (item size : Nat) : Acc Mem := do
  let phdr := part.virtBase
  let pEnd := ptrAdd phdr part.size
  let hdr := phdrToFirstUncachedEntry phdr
  let last ← phdrToLastUncachedEntry mem phdr
  let cached ← phdrToLastCachedEntry mem phdr
  if !inPartitionRange last 0 phdr cached || pEnd < cached then failWith .einval
  else do
    let (hit, hdr) ← walk (uncachedRound mem item last) part.size hdr
    if hit then failWith .eexist
    else if last < hdr then failWith .einval
    else if cached < ptrAdd hdr (allocSize size) then failWith .enospc
    else writeEntry mem phdr hdr item size

/-! ### The calls for a host with a private partition -/

def smemItemLastFixed : Nat := 8

/-- `qcom_smem_alloc`. `locked` says whether the hardware lock was taken in time. -/
def qcomSmemAlloc (part : Partition) (itemCount : Nat) (mem : Mem) (locked : Bool) (item size : Nat) : Acc Mem :=
  if item < smemItemLastFixed then failWith .einval
  else if itemCount ≤ item then failWith .einval
  else if !locked then failWith .etimedout
  else qcomSmemAllocPrivate part mem item size

def qcomSmemGet (part : Partition) (itemCount : Nat) (mem : Mem) (item : Nat) : Acc (Nat × Nat) :=
  if itemCount ≤ item then failWith .einval else qcomSmemGetPrivate part mem item

end Sm8850.Smem
