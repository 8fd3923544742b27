import Sm8850.Lib.Stream
import Sm8850.Qrtr.Parse

/-! The FIFO of net/qrtr/gunyah.c. Every helper reads the shared head and tail anew; here these
words are arguments, so that the same definitions serve for an honest peer and for any other. -/
namespace Sm8850.Qrtr.Gunyah
open Memory List

abbrev U32 := BitVec 32
abbrev U64 := BitVec 64

/-- `FIFO_SIZE`, the `length` of both pipes. -/
def fifoSize : Nat := 0x4000

/-- `FIFO_FULL_RESERVE`. -/
def fullReserve : U32 := 8

/-- `MAX_PKT_SZ`. -/
def maxPktSz : Nat := 0x10000 + 32

/-! ### Copies -/

/-- A copy of `len` bytes between offset `fifo` of the FIFO and offset `data` of a buffer. -/
structure Copy where
  fifo : Nat
  data : Nat
  len : Nat

/-- The two copies of `count` bytes from `pos` on, around the end of the FIFO. -/
def copies (pos count : Nat) : List Copy :=
  let len := min count (fifoSize - pos)
  (if len ≠ 0 then [⟨pos, 0, len⟩] else []) ++ (if len ≠ count then [⟨0, len, count - len⟩] else [])

/-! ### Reading -/

/-- `gunyah_rx_avail`, a size_t. -/
def rxAvail (head tail : U32) : Nat :=
  let length : U64 := BitVec.ofNat 64 fifoSize
  let len : U64 := if head < tail then length - tail.setWidth 64 + head.setWidth 64 else (head - tail).setWidth 64
  if length < len then 0 else len.toNat

/-- `gunyah_rx_peak`; it copies nothing where the tail is far out. -/
def rxPeak (tail offset : U32) (count : Nat) : List Copy :=
  let tail := tail + offset
  let tail := if fifoSize ≤ tail.toNat then tail - BitVec.ofNat 32 fifoSize else tail
  if fifoSize < tail.toNat then [] else copies tail.toNat count

/-- The tail that `gunyah_rx_advance` stores. -/
def rxAdvance (tail : U32) (count : Nat) : U32 :=
  let tail := tail + BitVec.ofNat 32 count
  if fifoSize ≤ tail.toNat then BitVec.ofNat 32 (tail.toNat % fifoSize) else tail

/-! ### Writing -/

/-- `gunyah_tx_avail`. -/
def txAvail (head tail : U32) : Nat :=
  let avail : U32 := if tail ≤ head then BitVec.ofNat 32 fifoSize - head + tail else tail - head
  let avail := if avail < fullReserve then 0 else avail - fullReserve
  if fifoSize < head.toNat then 0 else avail.toNat

/-- The copies of `gunyah_tx_write`; `none` if it returns at once. -/
def txWrite (head : U32) (count : Nat) : Option (List Copy) :=
  if fifoSize < head.toNat then none else some (copies head.toNat count)

/-- The head that it stores behind them. -/
def txHead (head : U32) (count : Nat) : U32 :=
  let head := head + BitVec.ofNat 32 count
  if fifoSize ≤ head.toNat then head - BitVec.ofNat 32 fifoSize else head

/-! ### Nonlinear buffers -/

/-- The bytes that `gunyah_sg_copy_toio` copies: the pieces of the list one after the other, from
`skip` on, up to `buflen` bytes. -/
def sgCopyToio : List (List UInt8) → Nat → Nat → List UInt8
  | [], _, _ => []
  | piece :: rest, buflen, skip =>
    if piece.length ≤ skip then sgCopyToio rest buflen (skip - piece.length)
    else
      let bytes := (piece.drop skip).take buflen
      bytes ++ sgCopyToio rest (buflen - bytes.length) 0

/-- The FIFO after `gunyah_sg_write`. -/
def sgWrite (fifo : Nat → UInt8) (head : U32) (sg : List (List UInt8)) (offset count : Nat) : Nat → UInt8 :=
  if fifoSize < head.toNat then fifo
  else
    let len := min count (fifoSize - head.toNat)
    let first := if len ≠ 0 then sgCopyToio sg len offset else []
    let fifo := poke fifo head.toNat first
    if len ≠ count then poke fifo 0 (sgCopyToio sg (count - len) (offset + first.length)) else fifo

/-- The FIFO after one of the copies out of `data`. -/
def copyIn (data : List UInt8) (fifo : Nat → UInt8) (c : Copy) : Nat → UInt8 :=
  poke fifo c.fifo ((data.drop c.data).take c.len)

theorem sgCopyToio_eq (sg : List (List UInt8)) (buflen skip : Nat) :
    sgCopyToio sg buflen skip = (sg.flatten.drop skip).take buflen := by
  induction sg generalizing buflen skip with
  | nil => simp [sgCopyToio]
  | cons piece rest ih =>
    rw [sgCopyToio, flatten_cons]
    by_cases h : piece.length ≤ skip
    · rw [if_pos h, ih, drop_append, drop_eq_nil_of_le h, nil_append]
    · rw [if_neg h, drop_append_of_le_length (by omega), take_append]
      dsimp only
      rw [ih, drop_zero, length_take, length_drop]
      congr 2
      omega

/-- A nonlinear buffer is written like its bytes in one piece. -/
theorem sgWrite_eq (fifo : Nat → UInt8) (head : U32) (sg : List (List UInt8)) {offset count : Nat}
    (h : offset + count ≤ sg.flatten.length) : sgWrite fifo head sg offset count =
      ((txWrite head count).getD []).foldl (copyIn (sg.flatten.drop offset)) fifo := by
  unfold sgWrite txWrite
  split
  · rfl
  · have hle : min count (fifoSize - head.toNat) ≤ count := min_le_left _ _
    simp only [sgCopyToio_eq, copies, Option.getD_some]
    generalize min count (fifoSize - head.toNat) = len at hle ⊢
    have hlength : ((sg.flatten.drop offset).take len).length = len := by
      rw [length_take, length_drop]
      omega
    by_cases h0 : len = 0
    · subst h0
      by_cases h1 : 0 = count
      · subst h1
        simp
      · simp [h1, copyIn]
    · by_cases h1 : len = count
      · subst h1
        simp [h0, copyIn]
      · simp [h0, h1, hlength, copyIn]

theorem sgWrite_eq_two_pieces : sgWrite (fun _ => 0) 0 [[1, 2], [3]] 1 2 =
    ((txWrite 0 2).getD []).foldl (copyIn [2, 3]) (fun _ => 0) :=
  sgWrite_eq _ _ _ (by decide)

end Sm8850.Qrtr.Gunyah
