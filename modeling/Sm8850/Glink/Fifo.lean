import Sm8850.Lib.Ring
import Sm8850.Lib.Words

/-! The shared memory FIFO of drivers/rpmsg/qcom_glink_smem.c: its two indices, what the reader
sees between them and what the writer stores behind them. -/
namespace Sm8850.Glink
open List Nat BitVec Ring

abbrev U8 := UInt8
abbrev U16 := BitVec 16
abbrev U32 := BitVec 32
abbrev U64 := BitVec 64

/-- `struct glink_smem_pipe`: `length` is a size_t, the indices are words of the shared memory. -/
structure Pipe where
  length : U64
  fifo : Nat → U8
  head : U32
  tail : U32

def fifoFullReserve : U32 := 8
def txBlockedCmdReserve : U32 := 8

/-- `ALIGN(x, 8)` of a size_t. -/
def align8 (x : U64) : U64 := (x + 7) &&& ~~~7

def rxAvail (p : Pipe) : U64 :=
  let len :=
    if p.head < p.tail then p.length - p.tail.setWidth 64 + p.head.setWidth 64
    else (p.head - p.tail).setWidth 64
  if p.length < len then 0 else len

/-- The bytes copied from `tail + offset` on. A tail outside the FIFO leaves the buffer as it
is. -/
def rxPeek (p : Pipe) (buf : List U8) (offset : U32) (count : Nat) : List U8 :=
  if p.length < p.tail.setWidth 64 then buf
  else
    let tail := p.tail + offset
    let tail := if p.length ≤ tail.setWidth 64 then tail - p.length.setWidth 32 else tail
    let len := min count (p.length - tail.setWidth 64).toNat
    (range len).map (fun i => p.fifo (tail.toNat + i)) ++
      (range (count - len)).map p.fifo

def rxAdvance (p : Pipe) (count : U64) : Pipe :=
  let tail := p.tail + count.setWidth 32
  { p with tail := if p.length ≤ tail.setWidth 64 then (tail.setWidth 64 % p.length).setWidth 32
                   else tail }

def txAvail (p : Pipe) : U32 :=
  let avail :=
    if p.tail ≤ p.head then (p.length - p.head.setWidth 64 + p.tail.setWidth 64).setWidth 32
    else p.tail - p.head
  let avail :=
    if avail < fifoFullReserve + txBlockedCmdReserve then 0
    else avail - (fifoFullReserve + txBlockedCmdReserve)
  if p.length < avail.setWidth 64 then 0 else avail

/-- The stores of the two copies, and the index behind them. -/
def txWriteOne (length : U64) (head : U32) (data : List U8) : List (U8 × Nat) × U32 :=
  if length < head.setWidth 64 then ([], head)
  else
    let len := min data.length (length - head.setWidth 64).toNat
    let stores := (data.take len).zipIdx head.toNat ++ (data.drop len).zipIdx
    let head := head + BitVec.ofNat 32 data.length
    (stores, if length ≤ head.setWidth 64 then head - length.setWidth 32 else head)

/-- The stores of `glink_smem_tx_write`, and the head it publishes after them. -/
def txWrite (length : U64) (head : U32) (hdr data : List U8) : List (U8 × Nat) × U32 :=
  let (stores, head) := txWriteOne length head hdr
  let (stores', head) := txWriteOne length head data
  let head := (head + 7) &&& ~~~7
  (stores ++ stores', if length ≤ head.setWidth 64 then head - length.setWidth 32 else head)

/-- The bytes of a message in the FIFO: what is written, and what the alignment skips. -/
def frame (msg : List U8) : List (Option U8) :=
  msg.map some ++ replicate ((8 - msg.length % 8) % 8) none

theorem length_frame (msg : List U8) : (frame msg).length = (msg.length + 7) / 8 * 8 := by
  simp only [frame, length_append, length_map, length_replicate]
  omega

theorem length_frame_mod (msg : List U8) : (frame msg).length % 8 = 0 := by
  rw [length_frame]
  omega

/-- A FIFO whose length leaves room for the reserves and whose indices do not wrap before they
are reduced. -/
structure Fits (length : U64) : Prop where
  aligned : length.toNat % 8 = 0
  reserve : 16 ≤ length.toNat
  small : length.toNat ≤ 2 ^ 31

/-- Both indices are aligned positions of the FIFO. -/
structure Pipe.Wf (p : Pipe) : Prop where
  fits : Fits p.length
  head_lt : p.head.toNat < p.length.toNat
  head_aligned : p.head.toNat % 8 = 0
  tail_lt : p.tail.toNat < p.length.toNat
  tail_aligned : p.tail.toNat % 8 = 0

/-- The number of bytes between tail and head. -/
def Pipe.used (p : Pipe) : Nat :=
  if p.head.toNat < p.tail.toNat then p.length.toNat - p.tail.toNat + p.head.toNat
  else p.head.toNat - p.tail.toNat

section
variable {p : Pipe} {length : U64} {head : U32} {hdr data : List U8}

section
variable (h : p.Wf)
include h

theorem Pipe.Wf.used_lt : p.used < p.length.toNat := by
  have := h.head_lt
  unfold Pipe.used
  split <;> omega

theorem Pipe.Wf.used_aligned : p.used % 8 = 0 := by
  have := h.fits.aligned
  have := h.head_aligned
  have := h.tail_aligned
  unfold Pipe.used
  split <;> omega

theorem Pipe.Wf.head_eq : p.head.toNat = (p.tail.toNat + p.used) % p.length.toNat := by
  have hh := h.head_lt
  have ht := h.tail_lt
  unfold Pipe.used
  split
  · rw [show p.tail.toNat + (p.length.toNat - p.tail.toNat + p.head.toNat) =
      p.head.toNat + p.length.toNat by omega, add_mod_right, mod_eq_of_lt hh]
  · rw [show p.tail.toNat + (p.head.toNat - p.tail.toNat) = p.head.toNat by omega, mod_eq_of_lt hh]

theorem rxAvail_toNat : (rxAvail p).toNat = p.used := by
  have hh := h.head_lt
  have ht := h.tail_lt
  unfold rxAvail Pipe.used
  simp only [lt_def]
  split <;> split <;> bv_omega

theorem txAvail_toNat : (txAvail p).toNat = p.length.toNat - p.used - 16 := by
  have hs := h.fits.small
  have hh := h.head_lt
  have ht := h.tail_lt
  have hfree : (if p.tail ≤ p.head then
      (p.length - p.head.setWidth 64 + p.tail.setWidth 64).setWidth 32
      else p.tail - p.head).toNat = p.length.toNat - p.used := by
    unfold Pipe.used
    by_cases hcmp : p.head.toNat < p.tail.toNat
    · rw [if_pos hcmp, if_neg (by bv_omega)]
      bv_omega
    · rw [if_neg hcmp, if_pos (by bv_omega)]
      bv_omega
  unfold txAvail fifoFullReserve txBlockedCmdReserve
  generalize (if p.tail ≤ p.head then
      (p.length - p.head.setWidth 64 + p.tail.setWidth 64).setWidth 32
      else p.tail - p.head) = avail at hfree
  dsimp only
  by_cases hlow : avail.toNat < 16
  · rw [if_pos (show avail < 8 + 8 by bv_omega), if_neg (by bv_omega)]
    bv_omega
  · rw [if_neg (show ¬ avail < 8 + 8 by bv_omega), if_neg (by bv_omega)]
    bv_omega

/-- The tail moves around the ring. -/
theorem rxAdvance_tail {n : U64} (hn : n.toNat ≤ p.used) :
    (rxAdvance p n).tail.toNat = (p.tail.toNat + n.toNat) % p.length.toNat := by
  have hs := h.fits.small
  have ht := h.tail_lt
  have hu := h.used_lt
  have hsum : (p.tail + n.setWidth 32).toNat = p.tail.toNat + n.toNat := by bv_omega
  unfold rxAdvance
  dsimp only
  split
  · rw [toNat_setWidth, toNat_umod, toNat_setWidth, hsum,
      mod_eq_of_lt (show p.tail.toNat + n.toNat < 2 ^ 64 by omega)]
    have hlt : (p.tail.toNat + n.toNat) % p.length.toNat < p.length.toNat :=
      mod_lt _ (by omega)
    exact mod_eq_of_lt (by omega)
  · rename_i hge
    rw [hsum, mod_eq_of_lt]
    bv_omega

/-- What is peeked are the cells of the ring from the tail on. -/
theorem rxPeek_eq (buf : List U8) {offset : U32} {count : Nat} (hn : offset.toNat + count ≤ p.length.toNat) :
    rxPeek p buf offset count = (range count).map
        (fun i => p.fifo ((p.tail.toNat + offset.toNat + i) % p.length.toNat)) := by
  have hs := h.fits.small
  have ht := h.tail_lt
  unfold rxPeek
  rw [if_neg (by bv_omega)]
  dsimp only
  generalize hstart : (if p.length ≤ (p.tail + offset).setWidth 64 then
      p.tail + offset - p.length.setWidth 32 else p.tail + offset) = start
  have hpos : p.tail.toNat + offset.toNat = start.toNat ∨
      p.tail.toNat + offset.toNat = start.toNat + p.length.toNat := by
    subst hstart
    split <;> bv_omega
  have hmod : ∀ i, (p.tail.toNat + offset.toNat + i) % p.length.toNat =
      (start.toNat + i) % p.length.toNat := by
    intro i
    rcases hpos with he | he
    · rw [he]
    · rw [he, add_right_comm, add_mod_right]
  have hlt : start.toNat < p.length.toNat := by
    subst hstart
    split <;> bv_omega
  simp only [hmod]
  rw [map_range_ring p.fifo hlt (by omega) rfl,
    show (p.length - start.setWidth 64).toNat = p.length.toNat - start.toNat by bv_omega]

end

/-- One copy stores its bytes around the ring and moves the index behind them. -/
theorem txWriteOne_eq (data : List U8) (hf : Fits length) (hh : head.toNat < length.toNat)
    (hd : data.length ≤ length.toNat) : (txWriteOne length head data).1 = stores length.toNat head.toNat data ∧
    (txWriteOne length head data).2.toNat = (head.toNat + data.length) % length.toNat := by
  have hs := hf.small
  have hsum : (head + BitVec.ofNat 32 data.length).toNat = head.toNat + data.length := by
    rw [toNat_add, toNat_ofNat, mod_eq_of_lt (a := data.length) (by omega),
      mod_eq_of_lt (by omega)]
  unfold txWriteOne
  rw [if_neg (by bv_omega)]
  constructor
  · dsimp only
    rw [stores_eq_copies (le_of_lt hh) hd rfl,
      show (length - head.setWidth 64).toNat = length.toNat - head.toNat by bv_omega]
  · dsimp only
    generalize head + BitVec.ofNat 32 data.length = next at hsum
    split
    · rename_i hge
      rw [← hsum, mod_eq_sub_mod (by bv_omega), mod_eq_of_lt (by bv_omega)]
      bv_omega
    · rw [← hsum, mod_eq_of_lt (by bv_omega)]

/-- The head rounded up to the alignment. -/
theorem alignHead_toNat (hh : head.toNat < 2 ^ 31) : ((head + 7) &&& ~~~7).toNat = (head.toNat + 7) / 8 * 8 := by
  have hsum : (head + 7).toNat = head.toNat + 7 := by bv_omega
  rw [← hsum]
  exact Words.toNat_and_not_mask (head + 7) 3

/-- Rounding up to the alignment commutes with the wrap around an aligned length. -/
theorem align_mod {x l : Nat} (hl : l % 8 = 0) : (x % l + 7) / 8 * 8 % l = (x + 7) / 8 * 8 % l := by
  obtain ⟨q, rfl⟩ : ∃ q, l = 8 * q := ⟨l / 8, by omega⟩
  have hx := div_add_mod x (8 * q)
  generalize x % (8 * q) = r at hx ⊢
  have hsum : (x + 7) / 8 * 8 = (r + 7) / 8 * 8 + 8 * q * (x / (8 * q)) := by
    rw [mul_assoc] at hx ⊢
    omega
  rw [hsum, add_mul_mod_self_left]

/-- A message goes into the cells behind the head, which then moves behind its frame. -/
theorem txWrite_eq (hf : Fits length) (hh : head.toNat < length.toNat)
    (ha : head.toNat % 8 = 0) (hd : hdr.length + data.length ≤ length.toNat) :
    (txWrite length head hdr data).1 = stores length.toNat head.toNat (hdr ++ data) ∧
    (txWrite length head hdr data).2.toNat = (head.toNat + (frame (hdr ++ data)).length) % length.toNat := by
  have hs := hf.small
  have hal := hf.aligned
  obtain ⟨hst₁, hh₁⟩ := txWriteOne_eq hdr hf hh (by omega)
  have hlt₁ : (txWriteOne length head hdr).2.toNat < length.toNat := by
    rw [hh₁]
    exact mod_lt _ (by omega)
  obtain ⟨hst₂, hh₂⟩ := txWriteOne_eq data hf hlt₁ (by omega)
  constructor
  · show (txWriteOne length head hdr).1 ++ (txWriteOne length (txWriteOne length head hdr).2 data).1 = _
    rw [hst₁, hst₂, hh₁, stores_mod, ← stores_append]
  · have hlt₂ : (txWriteOne length (txWriteOne length head hdr).2 data).2.toNat <
        length.toNat := by
      rw [hh₂]
      exact mod_lt _ (by omega)
    rw [hh₁, mod_add_mod, add_assoc, ← length_append] at hh₂
    unfold txWrite
    dsimp only
    generalize (txWriteOne length (txWriteOne length head hdr).2 data).2 = next at hh₂ hlt₂
    have hround := alignHead_toNat (show next.toNat < 2 ^ 31 by omega)
    have hgoal : (head.toNat + (frame (hdr ++ data)).length) % length.toNat =
        (next.toNat + 7) / 8 * 8 % length.toNat := by
      rw [length_frame, hh₂, align_mod hal]
      congr 1
      omega
    rw [hgoal, ← hround]
    generalize (next + 7) &&& ~~~(7 : U32) = up at hround
    split
    · rw [mod_eq_sub_mod (by bv_omega), mod_eq_of_lt (by bv_omega)]
      bv_omega
    · rw [mod_eq_of_lt (by bv_omega)]

end

end Sm8850.Glink
