import Sm8850.IpcLog.Model

/-! The fields of a message: the readers that match the typed writers, and what they find after a write that
had no room for its data. -/
namespace Sm8850.IpcLog

open Memory List

/-- `tsv_read_data`, with the bytes it copies; `tsv_read_header` is the same for a header. -/
def tsvReadData (e : EncodeContext) (size : Nat) : EncodeContext × List UInt8 :=
  if maxMsgSize < e.offset + size then
    let n : Int := maxMsgSize - e.offset - 1
    ({ e with offset := (e.offset + n).toNat }, peek e.buff e.offset (n % 2 ^ 64).toNat)
  else ({ e with offset := e.offset + size }, peek e.buff e.offset size)

/-- The common body of the typed readers; none if the header has another type. -/
def tsvRead (e : EncodeContext) (type : Nat) (size : UInt8 → Nat) : EncodeContext × Option (List UInt8) :=
  let (e, hdr) := tsvReadData e 2
  if (hdr.getD 0 0).toNat ≠ type then (e, none)
  else
    let (e, val) := tsvReadData e (size (hdr.getD 1 0))
    (e, some val)

def tsvTimestampRead (e : EncodeContext) := tsvRead e tsvTypeTimestamp (fun _ => 8)
def tsvQtimerRead (e : EncodeContext) := tsvRead e tsvTypeQtimer (fun _ => 8)
def tsvPointerRead (e : EncodeContext) := tsvRead e tsvTypePointer (fun _ => 8)
def tsvInt32Read (e : EncodeContext) := tsvRead e tsvTypeInt32 (fun _ => 4)
def tsvByteArrayRead (e : EncodeContext) := tsvRead e tsvTypeByteArray UInt8.toNat

namespace TsvWrite

/-- The writer, with its return value. -/
def write (e : EncodeContext) : TsvWrite → EncodeContext × Int
  | timestamp tNow => tsvTimestampWrite e tNow
  | qtimer tNow => tsvQtimerWrite e tNow
  | pointer ptr => tsvPointerWrite e ptr
  | int32 n => tsvInt32Write e n
  | byteArray data => tsvByteArrayWrite e data

/-- The reader that matches the writer. -/
def read (e : EncodeContext) : TsvWrite → EncodeContext × Option (List UInt8)
  | timestamp _ => tsvTimestampRead e
  | qtimer _ => tsvQtimerRead e
  | pointer _ => tsvPointerRead e
  | int32 _ => tsvInt32Read e
  | byteArray _ => tsvByteArrayRead e

def type : TsvWrite → Nat
  | timestamp _ => tsvTypeTimestamp
  | qtimer _ => tsvTypeQtimer
  | pointer _ => tsvTypePointer
  | int32 _ => tsvTypeInt32
  | byteArray _ => tsvTypeByteArray

/-- The size the reader expects, by the size in the header. -/
def readSize : TsvWrite → UInt8 → Nat
  | int32 _, _ => 4
  | byteArray _, n => n.toNat
  | _, _ => 8

/-- The value written. -/
def data : TsvWrite → List UInt8
  | timestamp v | qtimer v | pointer v => leBytes 8 v.toNat
  | int32 n => leBytes 4 n.toNat
  | byteArray data => data

def field (x : TsvWrite) : List UInt8 := UInt8.ofNat x.type :: UInt8.ofNat x.data.length :: x.data

end TsvWrite

open TsvWrite

/-- The writes that return 0. -/
def written (e : EncodeContext) : List TsvWrite → List TsvWrite
  | [] => []
  | x :: xs => if (x.write e).2 = 0 then x :: written (x.write e).1 xs else written (x.write e).1 xs

/-- The values that readers called one after another yield. -/
def readFields (e : EncodeContext) : List TsvWrite → List (Option (List UInt8))
  | [] => []
  | x :: xs => (x.read e).2 :: readFields (x.read e).1 xs

/-- The context into which `msg_read` copies a message. -/
def received (d : EncodeContext) (msg : List UInt8) : EncodeContext :=
  { hdrType := msg.getD 0 0, hdrSize := msg.getD 1 0, buff := poke d.buff 2 (msg.drop 2), offset := 2 }

/-- The size of a message with these fields, less its header. -/
def fieldsSize (xs : List TsvWrite) : Nat := (xs.map (fun x => x.field.length)).sum

/-- From offset `n` on, no write finds room for its header but not for its data. -/
def Whole : Nat → List TsvWrite → Prop
  | _, [] => True
  | n, x :: xs => n + 2 ≤ maxMsgSize → n + x.field.length ≤ maxMsgSize ∧ Whole (n + x.field.length) xs

section
variable {e d : EncodeContext} {x : TsvWrite} {xs : List TsvWrite}

theorem length_bytes (e : EncodeContext) : e.bytes.length = e.offset := by
  simp [EncodeContext.bytes, peek]

theorem length_field : x.field.length = x.data.length + 2 := rfl

@[simp] theorem fieldsSize_cons : fieldsSize (x :: xs) = x.field.length + fieldsSize xs := by
  simp [fieldsSize]

theorem length_fields : (xs.flatMap field).length = fieldsSize xs := length_flatMap

theorem apply_eq : x.apply e = (x.write e).1 := by
  cases x <;> rfl

theorem read_eq : x.read e = tsvRead e x.type x.readSize := by
  cases x <;> rfl

theorem write_eq : x.write e = tsvWrite e x.type x.data := by
  cases x <;> rfl

theorem tsvWriteData_full {data : List UInt8} (h : maxMsgSize < e.offset + data.length) :
    tsvWriteData e data = (e, -EINVAL) := if_pos h

theorem tsvWriteData_fits (data : List UInt8) (h : e.offset + data.length ≤ maxMsgSize) :
    ∃ u : EncodeContext, tsvWriteData e data = (u, 0) ∧ u.offset = e.offset + data.length ∧ u.bytes = e.bytes ++ data := by
  refine ⟨_, if_neg (not_lt.mpr h), rfl, ?_⟩
  have hleft : peek (poke e.buff e.offset data) 0 e.offset = peek e.buff 0 e.offset :=
    peek_poke_disjoint (by omega)
  simp [EncodeContext.bytes, peek_add, hleft, peek_poke_self]

/-- What a write does, by what there is room for. -/
inductive Writes (e : EncodeContext) (x : TsvWrite) : Prop
  | whole {u : EncodeContext} (heq : x.write e = (u, 0)) (hfit : e.offset + x.field.length ≤ maxMsgSize)
      (ho : u.offset = e.offset + x.field.length) (hb : u.bytes = e.bytes ++ x.field)
  | cut {u : EncodeContext} (heq : x.write e = (u, -EINVAL)) (hhdr : e.offset + 2 ≤ maxMsgSize)
      (hfit : maxMsgSize < e.offset + x.field.length) (ho : u.offset = e.offset + 2)
  | full (heq : x.write e = (e, -EINVAL)) (hhdr : maxMsgSize < e.offset + 2)

theorem write_cases (e : EncodeContext) (x : TsvWrite) : Writes e x := by
  have hlen := length_field (x := x)
  have heq := write_eq (e := e) (x := x)
  unfold tsvWrite tsvWriteHeader at heq
  rcases lt_or_ge maxMsgSize (e.offset + 2) with hhdr | hhdr
  · rw [tsvWriteData_full hhdr] at heq
    exact .full heq hhdr
  · obtain ⟨u, hu, ho, hb⟩ := tsvWriteData_fits (e := e) [UInt8.ofNat x.type, UInt8.ofNat x.data.length] hhdr
    rw [hu] at heq
    change u.offset = e.offset + 2 at ho
    change x.write e = tsvWriteData u x.data at heq
    rcases lt_or_ge maxMsgSize (u.offset + x.data.length) with hfit | hfit
    · exact .cut (heq.trans (tsvWriteData_full hfit)) hhdr (by omega) ho
    · obtain ⟨v, hv, ho', hb'⟩ := tsvWriteData_fits _ hfit
      refine .whole (heq.trans hv) (by omega) (by omega) ?_
      rw [hb', hb, append_assoc]
      rfl

theorem written_zero {u : EncodeContext} (h : x.write e = (u, 0)) : written e (x :: xs) = x :: written u xs := by
  rw [written, h, if_pos rfl]

theorem written_failed {u : EncodeContext} (h : x.write e = (u, -EINVAL)) : written e (x :: xs) = written u xs := by
  rw [written, h, if_neg (show (-EINVAL) ≠ 0 by decide)]

theorem foldl_apply {u : EncodeContext} {r : Int} (h : x.write e = (u, r)) :
    (x :: xs).foldl apply e = xs.foldl apply u := by
  rw [foldl_cons, apply_eq, h]

/-- The message holds what was written, and what was written is all of it only if no header stands
without its data. -/
theorem apply_offset (xs : List TsvWrite) (e : EncodeContext) (hmax : e.offset ≤ maxMsgSize) :
    e.offset + fieldsSize (written e xs) ≤ (xs.foldl apply e).offset ∧
      (xs.foldl apply e).offset ≤ maxMsgSize ∧
      ((xs.foldl apply e).offset ≤ e.offset + fieldsSize (written e xs) → Whole e.offset xs) := by
  induction xs generalizing e with
  | nil => exact ⟨le_rfl, hmax, fun _ => trivial⟩
  | cons x xs ih =>
    rcases write_cases e x with @⟨u, heq, hfit, ho, hb⟩ | @⟨u, heq, hhdr, hfit, ho⟩ | ⟨heq, hhdr⟩
    · obtain ⟨hle, hmax', hwhole⟩ := ih u (ho ▸ hfit)
      rw [foldl_apply heq, written_zero heq, fieldsSize_cons, ← add_assoc, ← ho]
      exact ⟨hle, hmax', fun h _ => ⟨hfit, ho ▸ hwhole h⟩⟩
    · obtain ⟨hle, hmax', -⟩ := ih u (ho ▸ hhdr)
      rw [foldl_apply heq, written_failed heq]
      exact ⟨by omega, hmax', fun h => by omega⟩
    · rw [foldl_apply heq, written_failed heq]
      obtain ⟨hle, hmax', -⟩ := ih e hmax
      exact ⟨hle, hmax', fun _ hfits => absurd hfits (not_le.mpr hhdr)⟩

theorem bytes_of_whole (xs : List TsvWrite) (h : Whole e.offset xs) :
    (xs.foldl apply e).bytes = e.bytes ++ (written e xs).flatMap field := by
  induction xs generalizing e with
  | nil => simp [written]
  | cons x xs ih =>
    rcases write_cases e x with ⟨heq, hfit, ho, hb⟩ | ⟨heq, hhdr, hfit, ho⟩ | ⟨heq, hhdr⟩
    · have hlen := length_field (x := x)
      rw [foldl_apply heq, written_zero heq, ih (ho ▸ (h (by omega)).2), hb, flatMap_cons, append_assoc]
    · exact absurd (h hhdr).1 (not_le.mpr hfit)
    · rw [foldl_apply heq, written_failed heq]
      -- nothing is written once there is no room for a header
      refine ih ?_
      cases xs with
      | nil => trivial
      | cons y ys => exact fun hfits => absurd hfits (not_le.mpr hhdr)

theorem tsvReadData_fits (bs : List UInt8) (hfit : d.offset + bs.length ≤ maxMsgSize)
    (h : peek d.buff d.offset bs.length = bs) :
    tsvReadData d bs.length = ({ d with offset := d.offset + bs.length }, bs) := by
  unfold tsvReadData
  rw [if_neg (not_lt.mpr hfit), h]

theorem tsvRead_field {type : Nat} {data : List UInt8} {size : UInt8 → Nat} (htype : type < 256)
    (hsize : size (UInt8.ofNat data.length) = data.length) (hfit : d.offset + (2 + data.length) ≤ maxMsgSize)
    (h : peek d.buff d.offset (2 + data.length) = [UInt8.ofNat type, UInt8.ofNat data.length] ++ data) :
    tsvRead d type size = ({ d with offset := d.offset + (2 + data.length) }, some data) := by
  rw [peek_add] at h
  obtain ⟨hhdr, hdata⟩ := append_inj h (by simp)
  have hread := tsvReadData_fits (d := d) [UInt8.ofNat type, UInt8.ofNat data.length] (by simp; omega) hhdr
  have hval := tsvReadData_fits (d := { d with offset := d.offset + 2 }) data (by simp; omega) hdata
  simp only [length_cons, length_nil, zero_add, Nat.reduceAdd] at hread
  simp [tsvRead, hread, hsize, hval, Nat.mod_eq_of_lt htype, add_assoc]

theorem read_field (hfit : d.offset + x.field.length ≤ maxMsgSize)
    (h : peek d.buff d.offset x.field.length = x.field) :
    x.read d = ({ d with offset := d.offset + x.field.length }, some x.data) := by
  rw [length_field, add_comm x.data.length] at hfit h ⊢
  have hmax : d.offset + (2 + x.data.length) ≤ 255 := hfit
  have hbyte : (UInt8.ofNat x.data.length).toNat = x.data.length := by
    rw [UInt8.toNat_ofNat', Nat.mod_eq_of_lt (by omega)]
  have hsize : x.readSize (UInt8.ofNat x.data.length) = x.data.length := by
    cases x <;> first | exact (length_leBytes _ _).symm | exact hbyte
  have htype : x.type < 256 := by
    cases x <;> simp [type, tsvTypeTimestamp, tsvTypeQtimer, tsvTypePointer, tsvTypeInt32, tsvTypeByteArray]
  rw [read_eq]
  exact tsvRead_field htype hsize hfit h

theorem readFields_fields (hfit : d.offset + (xs.flatMap field).length ≤ maxMsgSize)
    (h : peek d.buff d.offset (xs.flatMap field).length = xs.flatMap field) :
    readFields d xs = xs.map (fun x => some x.data) := by
  induction xs generalizing d with
  | nil => rfl
  | cons x xs ih =>
    rw [flatMap_cons, length_append] at hfit h
    rw [peek_add] at h
    obtain ⟨hfst, hrest⟩ := append_inj h (by simp)
    have hread := read_field (by omega) hfst
    simp only [readFields, hread, map_cons, List.cons.injEq, true_and]
    exact ih (by simp only; omega) hrest

end

/-- Reading a message back yields the values whose writes returned 0, and its header counts the bytes they
occupy. -/
structure Traceless (d m : EncodeContext) (done : List TsvWrite) : Prop where
  values : readFields (received d m.bytes) done = done.map (fun x => some x.data)
  size : m.hdrSize.toNat = fieldsSize done

/-- A failed write leaves no trace exactly if there was no room for its header either. -/
theorem traceless_iff (e d : EncodeContext) (type : UInt32) (xs : List TsvWrite) :
    Traceless d (encodeMsg e type xs) (written (msgEncodeStart e type) xs) ↔ Whole 2 xs := by
  obtain ⟨hle, hmax, hwhole⟩ := apply_offset xs (msgEncodeStart e type) (show 2 ≤ 255 by decide)
  have hbytes := bytes_of_whole (e := msgEncodeStart e type) xs
  unfold encodeMsg
  generalize written (msgEncodeStart e type) xs = done at hle hwhole hbytes ⊢
  generalize xs.foldl apply (msgEncodeStart e type) = u at hle hmax hwhole hbytes ⊢
  change 2 + _ ≤ u.offset at hle
  have hsize : (msgEncodeEnd u).hdrSize.toNat = u.offset - 2 := by
    change u.offset ≤ 255 at hmax
    rw [msgEncodeEnd, UInt8.toNat_ofNat', Nat.mod_eq_of_lt (by omega)]
  constructor
  · intro h
    have heq := h.size
    exact hwhole (show u.offset ≤ 2 + _ by omega)
  · intro h
    have hu := hbytes h
    have hlen := congrArg length hu
    rw [length_append, length_bytes, length_bytes, length_fields] at hlen
    change u.offset = 2 + _ at hlen
    refine ⟨readFields_fields ?_ ?_, by omega⟩
    · rw [length_fields]
      exact hlen ▸ hmax
    · have hdrop : (msgEncodeEnd u).bytes.drop 2 = u.bytes.drop 2 := by
        change (peek (poke u.buff 0 _) 0 u.offset).drop 2 = (peek u.buff 0 u.offset).drop 2
        rw [hlen, peek_add, peek_add, List.drop_left' (length_peek _ _ _), List.drop_left' (length_peek _ _ _)]
        exact peek_poke_disjoint (.inr (le_refl 2))
      rw [received, hdrop, hu, List.drop_left' (show (msgEncodeStart e type).bytes.length = 2 from length_bytes _)]
      exact peek_poke_self _ _ _

/-- A byte array that is too long, then a number. -/
def tooLong : List TsvWrite := [.byteArray (replicate 252 0), .int32 7]

/-- The number is written but not read back: the reader finds the header of the byte array. -/
theorem cut_field_stays : (written (msgEncodeStart ⟨0, 0, fun _ => 0, 0⟩ 1) tooLong).map data = [[7, 0, 0, 0]] ∧
    readFields (received ⟨0, 0, fun _ => 0, 0⟩ (encodeMsg ⟨0, 0, fun _ => 0, 0⟩ 1 tooLong).bytes)
      (written (msgEncodeStart ⟨0, 0, fun _ => 0, 0⟩ 1) tooLong) = [none] ∧
    (encodeMsg ⟨0, 0, fun _ => 0, 0⟩ 1 tooLong).hdrSize = 8 := by
  decide +kernel

end Sm8850.IpcLog
