import Mathlib.Algebra.GroupWithZero.Nat
import Sm8850.Qmi.DecodeSafety
import Sm8850.Qmi.Encoder

/-! What a table and a struct say a message is: groups of elements, and the pieces that they
put on the wire. -/
namespace Sm8850.Qmi

open Memory List Run

/-- The elements of one TLV: an optional flag, the length of an array, and the data. -/
structure Group where
  flag : Option ElemInfo
  len : Option ElemInfo
  payload : ElemInfo

def Group.elems (g : Group) : Table := g.flag.toList ++ (g.len.toList ++ [g.payload])

def Group.tlvType (g : Group) : UInt8 := g.payload.tlvType

/-- Split off an element of the given type. -/
def takeElem (type : ElemType) : Table → Option ElemInfo × Table
  | [] => (none, [])
  | ei :: rest => if ei.dataType = type then (some ei, rest) else (none, ei :: rest)

/-- The groups of a table. -/
def groupsOf : (fuel : Nat) → Table → List Group
  | 0, _ => []
  | fuel + 1, table =>
    let (flag, table) := takeElem .optFlag table
    let (len, table) := takeElem .dataLen table
    match table with
    | [] => []
    | ei :: rest => if ei.dataType = .eoti then [] else ⟨flag, len, ei⟩ :: groupsOf fuel rest

def groups (table : Table) : List Group := groupsOf table.length table

section

/-- A group as it has to be: arrays of variable length come with their length, and only these
do. -/
structure GroupOk (g : Group) : Prop where
  flag : ∀ f ∈ g.flag, f.dataType = .optFlag ∧ f.arrayType = .noArray
  len : ∀ l ∈ g.len, l.dataType = .dataLen ∧ l.arrayType = .noArray ∧
    (l.elemSize = 1 ∨ l.elemSize = 2 ∨ l.elemSize = 4)
  kind : isBasic g.payload.dataType ∨ g.payload.dataType = .struct ∨ g.payload.dataType = .string
  varLen : g.payload.arrayType = .varLenArray ↔ g.len.isSome
  string : g.payload.dataType = .string → g.len = none
  field : ∀ ei ∈ g.elems, FieldOk ei

/-- A table in which every struct has a field. -/
def WellFormed : (d : Nat) → Table → Prop
  | 0, _ => False
  | d + 1, table => (∃ e, table = (groups table).flatMap Group.elems ++ [e] ∧ e.dataType = .eoti) ∧
      ∀ g ∈ groups table, GroupOk g ∧ (g.payload.dataType = .struct →
        WellFormed d g.payload.eiArray ∧
        (∀ g' ∈ groups g.payload.eiArray, g'.flag = none) ∧ groups g.payload.eiArray ≠ [])

/-- At the top, a TLV type belongs to one group, and not to the end of the table. -/
structure TopTypes (table : Table) : Prop where
  same : ∀ g ∈ groups table, ∀ ei ∈ g.elems, ei.tlvType = g.tlvType
  distinct : (groups table).Pairwise (fun a b => a.tlvType ≠ b.tlvType)
  last : ∀ e ∈ table, e.dataType = .eoti → ∀ g ∈ groups table, g.tlvType ≠ e.tlvType

end

/-- What goes on the wire between two TLV headers: a length, with the value of
`data_len_value` before it, data, or a string, with the size of the length in front of it and
the room for it in the struct. -/
inductive Piece
  | count (width addr n stale : Nat)
  | data (addr : Nat) (bs : List UInt8)
  | text (width addr room : Nat) (bs : List UInt8)

def Piece.wire : Piece → List UInt8
  | .count width _ n _ => leBytes width n
  | .data _ bs => bs
  | .text width _ _ bs => leBytes width bs.length ++ bs

def Piece.size (p : Piece) : Nat := p.wire.length

def wireSize (ps : List Piece) : Nat := (ps.map Piece.size).sum

section
variable (mem : Nat → UInt8)

/-- The pieces of `n` structs from the `i`-th on. -/
def structPieces (nested : (base : Nat) → Run Piece Stop Unit) (elemSize addr : Nat) :
    (n i : Nat) → Run Piece Stop Unit
  | 0, _ => pure ()
  | n + 1, i => do
    nested (addr + i * elemSize)
    structPieces nested elemSize addr n (i + 1)

def payloadPieces (nested : Table → (base : Nat) → Run Piece Stop Unit) (top : Bool) (base : Nat)
    (ei : ElemInfo) (count : Nat) : Run Piece Stop Unit :=
  let addr := base + ei.offset
  if isBasic ei.dataType then emit (.data addr (peek mem addr (count * ei.elemSize)))
  else if ei.dataType = .struct then structPieces (nested ei.eiArray) ei.elemSize addr count 0
  else
    let n := strlen mem addr (ei.elemLen + 1)
    if ei.elemLen < n then fail (.err (-EINVAL))
    else emit (.text (if top then 0 else stringLenSize ei) addr ei.elemLen (peek mem addr n))

section
variable {mem : Nat → UInt8} {nested : Table → (base : Nat) → Run Piece Stop Unit} {top : Bool}
  {base count : Nat} {ei : ElemInfo}

theorem payloadPieces_basic (h : isBasic ei.dataType) :
    payloadPieces mem nested top base ei count = emit (.data (base + ei.offset)
      (peek mem (base + ei.offset) (count * ei.elemSize))) := by
  rw [payloadPieces, if_pos h]

theorem payloadPieces_struct (h : ei.dataType = .struct) : payloadPieces mem nested top base ei count =
      structPieces (nested ei.eiArray) ei.elemSize (base + ei.offset) count 0 := by
  rw [payloadPieces, if_neg (by simp [h, isBasic]), if_pos h]

theorem payloadPieces_string (h : ei.dataType = .string) : payloadPieces mem nested top base ei count =
      if ei.elemLen < strlen mem (base + ei.offset) (ei.elemLen + 1) then fail (.err (-EINVAL))
      else emit (.text (if top then 0 else stringLenSize ei) (base + ei.offset) ei.elemLen
        (peek mem (base + ei.offset) (strlen mem (base + ei.offset) (ei.elemLen + 1)))) := by
  rw [payloadPieces, if_neg (by simp [h, isBasic]), if_neg (by simp [h])]

end

/-- The length that the struct holds for an array. -/
def storedLen (base : Nat) (ei : ElemInfo) : Nat := leNat (peek mem (base + ei.offset) ei.elemSize)

/-- A group goes into the message unless its flag is cleared. -/
def Group.present (base : Nat) (g : Group) : Bool :=
  match g.flag with
  | none => true
  | some f => mem (base + f.offset) ≠ 0

/-- The pieces of a group; returns the number of entries. -/
def groupPieces (nested : Table → (base : Nat) → Run Piece Stop Unit) (top : Bool) (base stale : Nat)
    (g : Group) : Run Piece Stop Nat :=
  match g.len with
  | none => do
    let count := entries g.payload 0
    payloadPieces mem nested top base g.payload count
    pure count
  | some l => do
    let count := storedLen mem base l
    emit (.count (dataLenSize l) (base + l.offset) count stale)
    if count = 0 then pure 0
    else if g.payload.elemLen < count then fail (.err (-EINVAL))
    else do
      payloadPieces mem nested top base g.payload count
      pure count

def groupsPieces (nested : Table → (base : Nat) → Run Piece Stop Unit) (top : Bool) (base : Nat) :
    (stale : Nat) → List Group → Run Piece Stop Unit
  | _, [] => pure ()
  | stale, g :: gs => do
    let stale ← groupPieces mem nested top base stale g
    groupsPieces nested top base stale gs

/-- The pieces of each TLV at the top, up to the first that cannot be encoded. -/
def tlvPieces (nested : Table → (base : Nat) → Run Piece Stop Unit) (base : Nat) :
    (stale : Nat) → List Group → List (List Piece)
  | _, [] => []
  | stale, g :: gs =>
    if g.present mem base then
      let r := groupPieces mem nested true base stale g
      r.log :: match r.res with
        | .ok count => tlvPieces nested base count gs
        | .error _ => []
    else tlvPieces nested base stale gs

/-- The pieces of a nested struct. -/
def pieces : (depth : Nat) → Table → (base : Nat) → Run Piece Stop Unit
  | 0, _, _ => fail .fuel
  | depth + 1, table, base => groupsPieces mem (pieces depth) false base 0 (groups table)

/-- The pieces of each TLV of a message. -/
def topPieces : (depth : Nat) → Table → (base : Nat) → List (List Piece)
  | 0, _, _ => []
  | depth + 1, table, base => tlvPieces mem (pieces mem depth) base 0 (groups table)

end

/-- The longest message of a table: for each group a header, an array length, a string length
and the data. -/
def maxWire : (depth : Nat) → Table → Nat
  | 0, _ => 0
  | depth + 1, table => ((groups table).map (fun g =>
      7 + g.payload.elemLen *
        (if g.payload.dataType = .struct then maxWire depth g.payload.eiArray
          else g.payload.elemSize))).sum

section
variable {mem : Nat → UInt8} {nested : Table → (base : Nat) → Run Piece Stop Unit} {ei : ElemInfo}
  {g : Group} {top : Bool} {base stale count n i elemSize addr bound d : Nat}

theorem wireSize_append (ps qs : List Piece) : wireSize (ps ++ qs) = wireSize ps + wireSize qs := by
  simp [wireSize]

theorem wireSize_cons (p : Piece) (ps : List Piece) : wireSize (p :: ps) = p.size + wireSize ps := by
  simp [wireSize]

theorem wireSize_bind_le {α β : Type} {m : Run Piece Stop α} {f : α → Run Piece Stop β} {x y : Nat}
    (hm : wireSize m.log ≤ x) (hf : ∀ a, m.res = .ok a → wireSize (f a).log ≤ y) : wireSize (m >>= f).log ≤ x + y := by
  obtain ⟨log, e | a⟩ := m
  · exact Nat.le_trans hm (Nat.le_add_right x y)
  · show wireSize (log ++ (f a).log) ≤ x + y
    rw [wireSize_append]
    exact Nat.add_le_add hm (hf a rfl)

theorem wireSize_structPieces_le {nested : (base : Nat) → Run Piece Stop Unit}
    (h : ∀ b, wireSize (nested b).log ≤ bound) : wireSize (structPieces nested elemSize addr n i).log ≤ n * bound := by
  induction n generalizing i with
  | zero => exact Nat.zero_le _
  | succ n ih =>
    rw [structPieces, Nat.succ_mul, Nat.add_comm (n * bound)]
    exact wireSize_bind_le (h _) (fun _ _ => ih)

theorem entries_le (hok : GroupOk g) : entries g.payload 0 ≤ g.payload.elemLen := by
  have hpos := (hok.field g.payload (by simp [Group.elems])).elemLen_pos
  unfold entries
  split
  · exact hpos
  · exact Nat.le_refl _
  · exact Nat.zero_le _

/-- What one entry takes on the wire at most. -/
def entrySize (bound : Nat) (ei : ElemInfo) : Nat :=
  if ei.dataType = .struct then bound else ei.elemSize

section
variable (hok : GroupOk g) (hnested : g.payload.dataType = .struct → ∀ b, wireSize (nested g.payload.eiArray b).log ≤ bound)
include hok hnested

theorem wireSize_payloadPieces_le
    (hcount : count ≤ g.payload.elemLen) : wireSize (payloadPieces mem nested top base g.payload count).log ≤
      2 + g.payload.elemLen * entrySize bound g.payload := by
  have hmul : ∀ x, count * x ≤ g.payload.elemLen * x := fun x => Nat.mul_le_mul_right x hcount
  unfold payloadPieces
  split
  · rename_i hbasic
    have hentry : entrySize bound g.payload = g.payload.elemSize := by
      rw [entrySize, if_neg]
      intro h
      simp [h, isBasic] at hbasic
    rw [hentry]
    have h := hmul g.payload.elemSize
    simp only [emit, wireSize, Piece.size, Piece.wire, map_cons, map_nil, sum_cons, sum_nil, length_peek]
    omega
  split
  · rename_i hstruct
    have hentry : entrySize bound g.payload = bound := by rw [entrySize, if_pos hstruct]
    have h := hmul bound
    rw [hentry]
    exact Nat.le_trans (wireSize_structPieces_le (hnested hstruct)) (by omega)
  · rename_i hbasic hstruct
    have hstring : g.payload.dataType = .string := by
      rcases hok.kind with h | h | h
      · exact absurd h hbasic
      · exact absurd h hstruct
      · exact h
    have hsize := (hok.field g.payload (by simp [Group.elems])).string hstring
    dsimp only
    split
    · exact Nat.zero_le _
    · have hentry : entrySize bound g.payload = 1 := by rw [entrySize, if_neg hstruct, hsize]
      have hwidth := stringLenSize_le g.payload
      rw [hentry]
      simp only [emit, wireSize, Piece.size, Piece.wire, map_cons, map_nil, sum_cons,
        sum_nil, length_append, length_leBytes, length_peek]
      split <;> omega

theorem wireSize_groupPieces_le :
    wireSize (groupPieces mem nested top base stale g).log ≤ 4 + g.payload.elemLen * entrySize bound g.payload := by
  cases hlen : g.len with
  | none =>
    simp only [groupPieces, hlen]
    refine Nat.le_trans (wireSize_bind_le (y := 0)
      (wireSize_payloadPieces_le hok hnested (entries_le hok)) (fun _ _ => Nat.le_refl 0)) ?_
    omega
  | some l =>
    have hwidth := dataLenSize_le l
    simp only [groupPieces, hlen]
    refine Nat.le_trans (wireSize_bind_le (x := 2)
      (y := 2 + g.payload.elemLen * entrySize bound g.payload) ?_ (fun _ _ => ?_)) ?_
    · simp only [emit, wireSize, Piece.size, Piece.wire, map_cons, map_nil, sum_cons, sum_nil, length_leBytes]
      omega
    · split
      · exact Nat.zero_le _
      split
      · exact Nat.zero_le _
      · exact Nat.le_trans (wireSize_bind_le (y := 0)
          (wireSize_payloadPieces_le hok hnested (by omega)) (fun _ _ => Nat.le_refl 0)) (by omega)
    · omega

end

theorem wireSize_groupsPieces_le {gs : List Group} (hok : ∀ g ∈ gs, GroupOk g) {size : Group → Nat}
    (hsize : ∀ g ∈ gs, ∀ stale, wireSize (groupPieces mem nested top base stale g).log ≤ size g) :
    wireSize (groupsPieces mem nested top base stale gs).log ≤ (gs.map size).sum := by
  induction gs generalizing stale with
  | nil => exact Nat.zero_le _
  | cons g gs ih =>
    rw [groupsPieces, map_cons, sum_cons]
    refine wireSize_bind_le (hsize g (by simp) stale) (fun _ _ => ?_)
    exact ih (fun g hg => hok g (.tail _ hg))
      (fun g hg => hsize g (.tail _ hg))

/-- No nested struct is longer than `maxWire` allows. -/
theorem wireSize_pieces_le {table : Table} (hT : WellFormed d table) :
    wireSize (pieces mem d table base).log ≤ maxWire d table := by
  induction d generalizing table base with
  | zero => exact hT.elim
  | succ d ih =>
    obtain ⟨-, hgroups⟩ := hT
    rw [pieces, maxWire]
    refine wireSize_groupsPieces_le (fun g hg => (hgroups g hg).1) (fun g hg stale => ?_)
    obtain ⟨hok, hstruct⟩ := hgroups g hg
    refine Nat.le_trans (wireSize_groupPieces_le hok (fun h b => ih (hstruct h).1)) ?_
    unfold entrySize
    omega

end

section
variable {α β : Type} {r : Run Piece Stop α} {mem : Nat → UInt8} {nested : Table → (base : Nat) → Run Piece Stop Unit}
  {g : Group} {top : Bool} {base stale count elemSize addr n i d : Nat} {table : Table}

/-- A layout that can be encoded has a piece. -/
def Filled (r : Run Piece Stop α) : Prop := ∀ a, r.res = .ok a → r.log ≠ []

theorem Filled.bind {m : Run Piece Stop α} {f : α → Run Piece Stop β} (h : Filled m) : Filled (m >>= f) := by
  intro b hb
  obtain ⟨a, ha, -, hlog⟩ := res_bind_ok hb
  rw [hlog]
  exact append_ne_nil_of_left_ne_nil (h a ha) _

theorem filled_emit (p : Piece) : Filled (emit p : Run Piece Stop Unit) :=
  fun _ _ => cons_ne_nil _ _

theorem payloadPieces_filled (hcount : 0 < count)
    (hnested : g.payload.dataType = .struct → ∀ b, Filled (nested g.payload.eiArray b)) :
    Filled (payloadPieces mem nested top base g.payload count) := by
  unfold payloadPieces
  split
  · exact filled_emit _
  split
  · rename_i hstruct
    obtain ⟨n, rfl⟩ : ∃ n, count = n + 1 := ⟨count - 1, by omega⟩
    exact (hnested hstruct _).bind
  · dsimp only
    split
    · intro a ha
      cases ha
    · exact filled_emit _

theorem entries_pos (hok : GroupOk g) (hlen : g.len = none) : 0 < entries g.payload 0 := by
  have hpos := (hok.field g.payload (by simp [Group.elems])).elemLen_pos
  have hvar : g.payload.arrayType ≠ .varLenArray := by simp [hok.varLen, hlen]
  unfold entries
  split
  · exact Nat.one_pos
  · exact hpos
  · contradiction

theorem groupPieces_filled (hok : GroupOk g)
    (hnested : g.payload.dataType = .struct → ∀ b, Filled (nested g.payload.eiArray b)) :
    Filled (groupPieces mem nested top base stale g) := by
  cases hlen : g.len with
  | none =>
    simp only [groupPieces, hlen]
    exact (payloadPieces_filled (entries_pos hok hlen) hnested).bind
  | some l =>
    simp only [groupPieces, hlen]
    exact (filled_emit _).bind

theorem pieces_filled (hT : WellFormed d table) (hne : groups table ≠ []) : Filled (pieces mem d table base) := by
  induction d generalizing table base with
  | zero => exact hT.elim
  | succ d ih =>
    obtain ⟨-, hgroups⟩ := hT
    rw [pieces]
    cases hg : groups table with
    | nil => exact absurd hg hne
    | cons g gs =>
      obtain ⟨hok, hstruct⟩ := hgroups g (by simp [hg])
      exact (groupPieces_filled hok (fun h b => ih (hstruct h).1 (hstruct h).2.2)).bind

theorem size_data (addr : Nat) (bs : List UInt8) : (Piece.data addr bs).size = bs.length := rfl

theorem size_text (width addr room : Nat) (bs : List UInt8) :
    (Piece.text width addr room bs).size = width + bs.length := by
  simp [Piece.size, Piece.wire]

theorem size_count (width addr n stale : Nat) : (Piece.count width addr n stale).size = width := by
  simp [Piece.size, Piece.wire]

theorem stringLenSize_pos (ei : ElemInfo) : 0 < stringLenSize ei := by
  unfold stringLenSize
  split <;> omega

/-- A layout ends, with an error code if it cannot be encoded; in a nested struct every piece
takes room. -/
def LaysOut (top : Bool) (r : Run Piece Stop α) : Prop :=
  r.Meets (fun p => top = false → 0 < p.size) IsErr (fun _ => True)

theorem laysOut_emit {p : Piece} (h : top = false → 0 < p.size) : LaysOut top (emit p : Run Piece Stop Unit) where
  logged := by
    intro q hq
    rw [mem_singleton.mp hq]
    exact h
  failed := by
    intro s hs
    cases hs
  returned := fun _ _ => trivial

theorem LaysOut.weaken (h : LaysOut false r) : LaysOut top r :=
  h.mono (fun _ hp _ => hp rfl) (fun _ h => h) (fun _ h => h)

theorem structPieces_laysOut {nested : (base : Nat) → Run Piece Stop Unit}
    (h : ∀ b, LaysOut top (nested b)) : LaysOut top (structPieces nested elemSize addr n i) := by
  induction n generalizing i with
  | zero => exact meets_pure trivial
  | succ n ih => exact (h _).bind (fun _ _ => ih)

theorem payloadPieces_laysOut (hok : GroupOk g) (hcount : 0 < count)
    (hnested : g.payload.dataType = .struct → ∀ b, LaysOut false (nested g.payload.eiArray b)) :
    LaysOut top (payloadPieces mem nested top base g.payload count) := by
  unfold payloadPieces
  split
  · refine laysOut_emit (fun _ => ?_)
    rw [size_data, length_peek]
    exact Nat.mul_pos hcount (hok.field g.payload (by simp [Group.elems])).elemSize_pos
  split
  · rename_i hstruct
    exact structPieces_laysOut (fun b => LaysOut.weaken (hnested hstruct b))
  · dsimp only
    split
    · exact meets_fail (isErr _)
    · refine laysOut_emit (fun htop => ?_)
      rw [size_text, htop, if_neg Bool.false_ne_true]
      exact Nat.add_pos_left (stringLenSize_pos _) _

theorem groupPieces_laysOut (hok : GroupOk g)
    (hnested : g.payload.dataType = .struct → ∀ b, LaysOut false (nested g.payload.eiArray b)) :
    LaysOut top (groupPieces mem nested top base stale g) := by
  unfold groupPieces
  split
  · rename_i hlen
    exact (payloadPieces_laysOut hok (entries_pos hok hlen) hnested).bind
      (fun _ _ => meets_pure trivial)
  · refine Meets.bind (laysOut_emit (fun _ => ?_)) (fun _ _ => ?_)
    · rw [size_count]
      exact dataLenSize_pos _
    split
    · exact meets_pure trivial
    split
    · exact meets_fail (isErr _)
    · exact (payloadPieces_laysOut hok (by omega) hnested).bind (fun _ _ => meets_pure trivial)

theorem groupsPieces_laysOut {gs : List Group}
    (h : ∀ g ∈ gs, ∀ stale, LaysOut top (groupPieces mem nested top base stale g)) :
    LaysOut top (groupsPieces mem nested top base stale gs) := by
  induction gs generalizing stale with
  | nil => exact meets_pure trivial
  | cons g gs ih =>
    exact (h g (by simp) stale).bind (fun _ _ => ih (fun g hg => h g (.tail _ hg)))

theorem pieces_laysOut (hT : WellFormed d table) : LaysOut false (pieces mem d table base) := by
  induction d generalizing table base with
  | zero => exact hT.elim
  | succ d ih =>
    obtain ⟨-, hgroups⟩ := hT
    refine groupsPieces_laysOut (fun g hg _ => ?_)
    exact groupPieces_laysOut (hgroups g hg).1 (fun h b => ih ((hgroups g hg).2 h).1)

end

end Sm8850.Qmi
