import Mathlib.Data.List.Nodup
import Mathlib.Data.List.Pairwise
import Sm8850.Qmi.Replay

/-! Messages of the TLVs of a table, in any order and among others. -/
namespace Sm8850.Qmi

open Memory List Run

variable {mem inp : Nat → UInt8} {exp : Prop} {nested : Table → (base : Nat) → Run Piece Stop Unit}
  {dec : Table → (dst src len : Nat) → Dec Nat} {g : Group} {gs : List Group} {top : Bool}
  {table rest : Table} {base src D inBufLen stale fuel d : Nat}

/-- A TLV of a message: of a group of the table, or another one. -/
inductive Item
  | known (g : Group)
  | extra (type : UInt8) (bs : List UInt8)

open Item

def Item.group : Item → Option Group
  | .known g => some g
  | .extra _ _ => none

section
variable (mem nested base)

def Item.wire : Item → List UInt8
  | .known g => groupWire mem nested base g
  | .extra type bs => tlv type bs

def itemsWire (items : List Item) : List UInt8 := items.flatMap (Item.wire mem nested base)

/-- The number of entries of a group. -/
def groupCount (base : Nat) (g : Group) : Nat :=
  match g.len with
  | none => entries g.payload 0
  | some l => storedLen mem base l

/-- What the decoder makes of the TLVs, each with the `data_len_value` that the one before
leaves. -/
def replayItems : (stale : Nat) → List Item → Run (Nat × List UInt8) Stop Unit
  | _, [] => pure ()
  | stale, .extra _ _ :: items => replayItems stale items
  | stale, .known g :: items => do
    putFlag base g
    replay (groupPieces mem nested true base stale g).log
    replayItems (groupCount mem base g) items

def CleanItems : (stale : Nat) → List Item → Prop
  | _, [] => True
  | stale, .extra _ _ :: items => CleanItems stale items
  | stale, .known g :: items => Clean (groupPieces mem nested true base stale g).log ∧
      CleanItems (groupCount mem base g) items

end

section

theorem groupPieces_count {count : Nat} (hok : GroupOk g)
    (hres : (groupPieces mem nested top base stale g).res = .ok count) : count = groupCount mem base g := by
  cases hl : g.len with
  | none =>
    simp only [groupPieces, hl] at hres
    obtain ⟨-, -, hcount, -⟩ := res_bind_ok hres
    cases hcount
    simp [groupCount, hl]
  | some l =>
    obtain ⟨-, -, -, -, hcount, -⟩ := groupPieces_counted hok hl hres
    simp [groupCount, hl, hcount]

/-- Only the note of the value before a length depends on that value. -/
theorem groupPieces_stale (mem : Nat → UInt8) (nested : Table → (base : Nat) → Run Piece Stop Unit)
    (top : Bool) (base : Nat) (g : Group) (s s' : Nat) :
    (groupPieces mem nested top base s g).res = (groupPieces mem nested top base s' g).res ∧
      wires (groupPieces mem nested top base s g).log = wires (groupPieces mem nested top base s' g).log ∧
      (groupPieces mem nested top base s g).log.flatMap Piece.cells =
        (groupPieces mem nested top base s' g).log.flatMap Piece.cells := by
  cases hl : g.len with
  | none =>
    simp only [groupPieces, hl]
    exact ⟨trivial, trivial, trivial⟩
  | some l =>
    simp only [groupPieces, hl, log_emit_bind, wires_cons, flatMap_cons]
    exact ⟨rfl, rfl, rfl⟩

theorem findEi_skip {ei : List ElemInfo} {t : UInt8} (h : ∀ e ∈ ei, e.dataType ≠ .eoti ∧ e.tlvType ≠ t) :
    findEi (ei ++ rest) t = findEi rest t := by
  induction ei with
  | nil => rfl
  | cons e ei ih =>
    obtain ⟨heoti, htype⟩ := h e (by simp)
    rw [cons_append, findEi, if_neg heoti, if_neg htype]
    exact ih (fun e' he' => h e' (.tail _ he'))

theorem findEi_head (hok : GroupOk g) (hsame : ∀ ei ∈ g.elems, ei.tlvType = g.tlvType) :
    findEi (g.elems ++ rest) g.tlvType = some (g.elems ++ rest) := by
  cases helems : g.elems with
  | nil => simp [Group.elems] at helems
  | cons ei elems =>
    have hmem : ei ∈ g.elems := by simp [helems]
    rw [cons_append, findEi, if_neg (hok.field ei hmem).notEoti, if_pos (hsame ei hmem)]

/-- A group of the table is found by its type. -/
theorem findEi_group (hok : ∀ g ∈ gs, GroupOk g) (hsame : ∀ g ∈ gs, ∀ ei ∈ g.elems, ei.tlvType = g.tlvType)
    (hdist : gs.Pairwise (fun a b => a.tlvType ≠ b.tlvType)) (hg : g ∈ gs) :
    ∃ rest', findEi (gs.flatMap Group.elems ++ rest) g.tlvType = some (g.elems ++ rest') := by
  induction gs with
  | nil => cases hg
  | cons g₁ gs ih =>
    rw [flatMap_cons, append_assoc]
    rcases mem_cons.mp hg with rfl | hg
    · exact ⟨_, findEi_head (hok g (by simp)) (hsame g (by simp))⟩
    · have hne : g₁.tlvType ≠ g.tlvType := (pairwise_cons.mp hdist).1 g hg
      rw [findEi_skip (fun e he => ⟨((hok g₁ (by simp)).field e he).notEoti, by
        rw [hsame g₁ (by simp) e he]; exact hne⟩)]
      exact ih (fun g' hg' => hok g' (.tail _ hg'))
        (fun g' hg' => hsame g' (.tail _ hg')) hdist.tail hg

theorem findEi_absent {t : UInt8} (h : ∀ ei ∈ table, ei.tlvType ≠ t) : findEi table t = none := by
  induction table with
  | nil => rfl
  | cons ei table ih =>
    rw [findEi]
    split
    · rfl
    · rw [if_neg (h ei (by simp))]
      exact ih (fun e he => h e (.tail _ he))

end

section
variable {items : List Item}

/-- A TLV header is read back. -/
theorem holds_tlv {off : Nat} {t : UInt8} {bs : List UInt8} (h : Holds inp off (tlv t bs)) (h16 : bs.length < 2 ^ 16) :
    tlvTypeAt inp off = t ∧ tlvLenAt inp off = bs.length ∧ Holds inp (off + tlvHdrSize) bs := by
  obtain ⟨hhdr, hbs⟩ := holds_append.mp h
  obtain ⟨htype, hlen⟩ := holds_append.mp (show Holds inp off ([t] ++ leBytes 2 bs.length) from hhdr)
  refine ⟨head_eq_of_cons_eq htype, ?_, ?_⟩
  · unfold Holds at hlen
    rw [length_leBytes] at hlen
    rw [tlvLenAt]
    exact (congrArg leNat hlen).trans (leNat_leBytes_of_lt (by omega))
  · rw [length_cons, length_leBytes] at hbs
    exact hbs

/-- What the decoder needs to know of the TLVs of a message. -/
structure ItemsOk (mem inp : Nat → UInt8) (exp : Prop) (dec : Table → (dst src len : Nat) → Dec Nat)
    (nested : Table → (base : Nat) → Run Piece Stop Unit) (table : Table) (base : Nat)
    (items : List Item) : Prop where
  known : ∀ g, .known g ∈ items → Readable inp exp dec nested g ∧
    (∃ rest, findEi table g.tlvType = some (g.elems ++ rest)) ∧
    (∃ count, (groupPieces mem nested true base 0 g).res = .ok count) ∧
    wireSize (groupPieces mem nested true base 0 g).log < 2 ^ 16
  extra : ∀ t bs, .extra t bs ∈ items → findEi table t = none ∧ ¬ t < optionalTlvTypeStart ∧
    bs.length < 2 ^ 16

theorem ItemsOk.tail {item : Item} (h : ItemsOk mem inp exp dec nested table base (item :: items)) :
    ItemsOk mem inp exp dec nested table base items where
  known := fun g hg => h.known g (.tail _ hg)
  extra := fun t bs hbs => h.extra t bs (.tail _ hbs)

/-- The loop of `qmi_decode` passes over a TLV that is not in the table. -/
theorem decodeLoop_extra {type : UInt8} {bs : List UInt8} (hholds : Holds inp (src + D) (tlv type bs))
    (hroom : D + (tlvHdrSize + bs.length) ≤ inBufLen) (hnone : findEi table type = none)
    (hopt : ¬ type < optionalTlvTypeStart) (h16 : bs.length < 2 ^ 16) (t : Table) :
    stores (decodeLoop inp dec table 1 base src inBufLen (fuel + 1) ⟨t, stale, D⟩) =
      stores (decodeLoop inp dec table 1 base src inBufLen fuel ⟨[], stale, D + (tlvHdrSize + bs.length)⟩) := by
  obtain ⟨htype, hlen, -⟩ := holds_tlv hholds h16
  have hpos : 0 < tlvHdrSize := by decide
  rw [decodeLoop, if_pos (by dsimp only; omega), if_pos rfl, if_neg (by dsimp only; omega), stores_bind]
  simp only [htype, hlen, hnone, if_neg hopt, add_assoc]
  rfl

/-- The loop of `qmi_decode` stores the TLV of a group. -/
theorem decodeLoop_known {count : Nat} (hg : Readable inp exp dec nested g)
    (hfind : findEi table g.tlvType = some (g.elems ++ rest))
    (hres : (groupPieces mem nested true base 0 g).res = .ok count)
    (hholds : Holds inp (src + D) (groupWire mem nested base g))
    (hroom : D + (groupWire mem nested base g).length ≤ inBufLen) (h32 : inBufLen < 2 ^ 32)
    (h16 : wireSize (groupPieces mem nested true base 0 g).log < 2 ^ 16)
    (hclean : Clean (groupPieces mem nested true base stale g).log ∨ exp) (t : Table) :
    stores (decodeLoop inp dec table 1 base src inBufLen (fuel + 1) ⟨t, stale, D⟩) = putFlag base g >>= fun _ =>
        replay (groupPieces mem nested true base stale g).log >>= fun _ =>
          stores (decodeLoop inp dec table 1 base src inBufLen fuel
            ⟨rest, count, D + (groupWire mem nested base g).length⟩) := by
  obtain ⟨hsame, hwires, -⟩ := groupPieces_stale mem nested true base g stale 0
  have hsize : wireSize (groupPieces mem nested true base stale g).log =
      wireSize (groupPieces mem nested true base 0 g).log := by
    rw [← length_wires, hwires, length_wires]
  obtain ⟨htype, hlen, hbody⟩ := holds_tlv hholds (by rw [length_wires]; exact h16)
  rw [length_wires] at hlen
  rw [length_groupWire] at hroom ⊢
  have helem : stores (decodeElem inp dec 1 base src inBufLen
      (wireSize (groupPieces mem nested true base 0 g).log)
      ⟨g.elems ++ rest, stale, D + tlvHdrSize⟩) = _ :=
    decodeElem_replay hg (by simp) (le_refl 1) rfl (hsame.trans hres)
      (by rw [hwires, ← add_assoc]; exact hbody) (by omega) h32 (by omega) (by rw [hsize]; rfl) hclean
  have hpos : 0 < tlvHdrSize := by decide
  rw [decodeLoop, if_pos (by dsimp only; omega), if_pos rfl, if_neg (by dsimp only; omega), stores_bind]
  simp only [htype, hlen, hfind]
  rw [stores_bind, helem]
  simp only [bind_assoc, pure_bind, hsize, add_assoc, add_comm tlvHdrSize]
  rfl

/-- The loop of `qmi_decode` at the top goes from TLV to TLV. -/
theorem decodeLoop_items (hitems : ItemsOk mem inp exp dec nested table base items)
    (hholds : Holds inp (src + D) (itemsWire mem nested base items))
    (hlen : D + (itemsWire mem nested base items).length = inBufLen) (h32 : inBufLen < 2 ^ 32)
    (hclean : CleanItems mem nested base stale items ∨ exp) (hfuel : items.length < fuel) (t : Table) :
    stores (decodeLoop inp dec table 1 base src inBufLen fuel ⟨t, stale, D⟩) =
      replayItems mem nested base stale items >>= fun _ => pure inBufLen := by
  induction items generalizing D stale fuel t with
  | nil =>
    obtain ⟨f, rfl⟩ : ∃ f, fuel = f + 1 := ⟨fuel - 1, by omega⟩
    have hD : D = inBufLen := by simpa [itemsWire] using hlen
    rw [decodeLoop, if_neg (by dsimp only; omega), hD]
    rfl
  | cons item items ih =>
    have hwire : itemsWire mem nested base (item :: items) =
        item.wire mem nested base ++ itemsWire mem nested base items := rfl
    rw [hwire] at hholds hlen
    rw [length_append] at hlen
    rw [length_cons] at hfuel
    obtain ⟨f, rfl⟩ : ∃ f, fuel = f + 1 := ⟨fuel - 1, by omega⟩
    obtain ⟨hfirst, hrest⟩ := holds_append.mp hholds
    rw [add_assoc] at hrest
    cases item with
    | extra type bs =>
      obtain ⟨hnone, hopt, h16⟩ := hitems.extra type bs (by simp)
      have hsize : (wire mem nested base (.extra type bs)).length = tlvHdrSize + bs.length :=
        length_tlv type bs
      rw [decodeLoop_extra hfirst (by omega) hnone hopt h16]
      rw [hsize] at hlen hrest
      exact ih hitems.tail hrest (by omega) hclean (by omega) []
    | known g =>
      obtain ⟨hg, ⟨rest, hfind⟩, ⟨count, hcount⟩, h16⟩ := hitems.known g (by simp)
      have hroom : D + (groupWire mem nested base g).length ≤ inBufLen :=
        le_trans (Nat.add_le_add_left (Nat.le_add_right _ _) D) (le_of_eq hlen)
      rw [decodeLoop_known hg hfind hcount hfirst hroom h32 h16 (hclean.imp_left And.left), replayItems, bind_assoc]
      refine bind_congr (fun _ _ => ?_)
      rw [bind_assoc]
      refine bind_congr (fun _ _ => ?_)
      rw [← groupPieces_count hg.ok hcount]
      have hnext : CleanItems mem nested base count items ∨ exp := by
        rw [groupPieces_count hg.ok hcount]
        exact hclean.imp_left And.right
      exact ih hitems.tail hrest (by omega) hnext (by omega) rest

end

section
variable {α β : Type} {P : Piece → Prop} {count n i elemSize addr : Nat}

/-- The pieces of a layout that can be encoded satisfy `P`. -/
def Logs (P : Piece → Prop) (r : Run Piece Stop α) : Prop := ∀ a, r.res = .ok a → ∀ p ∈ r.log, P p

theorem Logs.bind {m : Run Piece Stop α} {f : α → Run Piece Stop β} (hm : Logs P m)
    (hf : ∀ a, Logs P (f a)) : Logs P (m >>= f) := by
  intro b hb p hp
  obtain ⟨a, ha, hfa, hlog⟩ := res_bind_ok hb
  rw [hlog] at hp
  rcases mem_append.mp hp with hp | hp
  · exact hm a ha p hp
  · exact hf a b hfa p hp

theorem logs_pure (a : α) : Logs P (pure a) := by
  intro b _ p hp
  cases hp

theorem logs_emit {p : Piece} (h : P p) : Logs P (emit p : Run Piece Stop Unit) := by
  intro _ _ q hq
  rw [mem_singleton.mp hq]
  exact h

theorem logs_structPieces {nested : (base : Nat) → Run Piece Stop Unit}
    (h : ∀ j < i + n, Logs P (nested (addr + j * elemSize))) : Logs P (structPieces nested elemSize addr n i) := by
  induction n generalizing i with
  | zero => exact logs_pure ()
  | succ n ih => exact (h i (by omega)).bind (fun _ => ih (fun j hj => h j (by omega)))

theorem groupCount_le (hok : GroupOk g) {a : Nat} (hres : (groupPieces mem nested top base stale g).res = .ok a) :
    groupCount mem base g ≤ g.payload.elemLen := by
  cases hl : g.len with
  | none =>
    simp only [groupCount, hl]
    exact entries_le hok
  | some l =>
    obtain ⟨-, -, -, hle, hcount, -⟩ := groupPieces_counted hok hl hres
    simp only [groupCount, hl]
    omega

section
variable (hok : GroupOk g) (htext : g.payload.dataType = .string → ∀ width, P (.text width (base + g.payload.offset)
  g.payload.elemLen (peek mem (base + g.payload.offset) (strlen mem (base + g.payload.offset) (g.payload.elemLen + 1)))))
include hok htext

theorem logs_payloadPieces (hdata : P (.data (base + g.payload.offset)
      (peek mem (base + g.payload.offset) (count * g.payload.elemSize))))
    (hstruct : g.payload.dataType = .struct → ∀ j < count,
      Logs P (nested g.payload.eiArray (base + g.payload.offset + j * g.payload.elemSize))) :
    Logs P (payloadPieces mem nested top base g.payload count) := by
  rcases hok.kind with h | h | h
  · rw [payloadPieces_basic h]
    exact logs_emit hdata
  · rw [payloadPieces_struct h]
    exact logs_structPieces (fun j hj => hstruct h j (by omega))
  · rw [payloadPieces_string h]
    split
    · intro _ hres
      cases hres
    · exact logs_emit (htext h _)

/-- A property of the pieces of a group, by the kinds of pieces. -/
theorem logs_groupPieces (hlen : ∀ l ∈ g.len, storedLen mem base l ≤ g.payload.elemLen →
      P (.count (dataLenSize l) (base + l.offset) (storedLen mem base l) stale))
    (hdata : groupCount mem base g ≤ g.payload.elemLen → P (.data (base + g.payload.offset)
      (peek mem (base + g.payload.offset) (groupCount mem base g * g.payload.elemSize))))
    (hstruct : g.payload.dataType = .struct → ∀ j < groupCount mem base g, j < g.payload.elemLen →
      Logs P (nested g.payload.eiArray (base + g.payload.offset + j * g.payload.elemSize))) :
    Logs P (groupPieces mem nested top base stale g) := by
  intro a ha
  have hle := groupCount_le hok ha
  have hpayload : Logs P (payloadPieces mem nested top base g.payload (groupCount mem base g)) :=
    logs_payloadPieces hok htext (hdata hle) (fun h j hj => hstruct h j hj (by omega))
  cases hl : g.len with
  | none =>
    have hcount : groupCount mem base g = entries g.payload 0 := by simp only [groupCount, hl]
    rw [hcount] at hpayload
    simp only [groupPieces, hl] at ha ⊢
    exact hpayload.bind (fun _ => logs_pure _) a ha
  | some l =>
    have hcount : groupCount mem base g = storedLen mem base l := by simp only [groupCount, hl]
    rw [hcount] at hpayload hle
    simp only [groupPieces, hl] at ha ⊢
    refine Logs.bind (logs_emit (hlen l (by simp [hl]) hle)) (fun _ => ?_) a ha
    split
    · exact logs_pure _
    split
    · intro _ hres
      cases hres
    · exact hpayload.bind (fun _ => logs_pure _)

end

theorem logs_groupsPieces (h : ∀ g ∈ gs, ∀ stale, Logs P (groupPieces mem nested top base stale g)) :
    Logs P (groupsPieces mem nested top base stale gs) := by
  induction gs generalizing stale with
  | nil => exact logs_pure ()
  | cons g gs ih =>
    exact (h g (by simp) stale).bind (fun _ => ih (fun g hg => h g (.tail _ hg)))

/-- Where the lengths of a table are expressible, they fit in their place on the wire. -/
theorem groupPieces_small (hok : GroupOk g) (hexp : ∀ l ∈ g.len, g.payload.elemLen < 256 ^ dataLenSize l)
    (hnested : g.payload.dataType = .struct → ∀ b, Logs Piece.Small (nested g.payload.eiArray b)) :
    Logs Piece.Small (groupPieces mem nested top base stale g) :=
  logs_groupPieces hok (fun _ _ => trivial) (fun l hl hn => lt_of_le_of_lt hn (hexp l hl)) (fun _ => trivial)
    (fun hs _ _ _ => hnested hs _)

theorem pieces_small (hT : WellFormed d table) (hexp : Expressible d table) :
    Logs Piece.Small (pieces mem d table base) := by
  induction d generalizing table base with
  | zero => exact hT.elim
  | succ d ih =>
    obtain ⟨-, hgroups⟩ := hT
    refine logs_groupsPieces (fun g hg stale => ?_)
    obtain ⟨hok, hstruct⟩ := hgroups g hg
    exact groupPieces_small hok (hexp g hg).1 (fun hs _ => ih (hstruct hs).1 ((hexp g hg).2 hs))

end

section
variable {size lo hi i : Nat}

/-- The elements of a table describe different fields of a struct of `size` bytes, and so do
those of the tables nested in it. -/
def FieldsFit : (d : Nat) → Table → (size : Nat) → Prop
  | 0, _, _ => True
  | d + 1, table, size => FieldsDisjoint fieldSize table ∧ ∀ g ∈ groups table,
      (∀ ei ∈ g.elems, ei.offset + fieldSize ei ≤ size) ∧
      (g.payload.dataType = .struct → FieldsFit d g.payload.eiArray g.payload.elemSize)

/-- The byte `i` is in the field of an element of the group. -/
def InField (base : Nat) (g : Group) (i : Nat) : Prop :=
  ∃ ei ∈ g.elems, base + ei.offset ≤ i ∧ i < base + ei.offset + fieldSize ei

/-- The same of an element other than its flag. -/
def InData (base : Nat) (g : Group) (i : Nat) : Prop :=
  ∃ ei ∈ g.len.toList ++ [g.payload], base + ei.offset ≤ i ∧ i < base + ei.offset + fieldSize ei

theorem InData.inField {base : Nat} (h : InData base g i) : InField base g i := by
  obtain ⟨ei, hei, hin⟩ := h
  exact ⟨ei, mem_append_right _ hei, hin⟩

theorem touches_put {addr : Nat} {bs : List UInt8} : Touches (put addr bs).log i ↔ addr ≤ i ∧ i < addr + bs.length := by
  unfold put
  split
  · rename_i h
    simp only [h, log_pure, Touches, length_nil]
    constructor
    · rintro ⟨w, hw, -⟩
      cases hw
    · omega
  · simp [emit, Touches]

theorem touches_cells {p : Piece} :
    Touches p.cells i ↔ match p with
      | .count _ addr _ _ => addr ≤ i ∧ i < addr + 4
      | .data addr bs => addr ≤ i ∧ i < addr + bs.length
      | .text _ addr _ bs => addr ≤ i ∧ i < addr + bs.length + 1 := by
  cases p with
  | count width addr n stale =>
    simp [Piece.cells, touches_put]
  | data addr bs => exact touches_put
  | text width addr room bs =>
    simp only [Piece.cells, touches_append, touches_put, length_singleton]
    omega

theorem touches_flatMap {ps : List Piece} : Touches (ps.flatMap Piece.cells) i ↔ ∃ p ∈ ps, Touches p.cells i := by
  simp only [Touches, mem_flatMap]
  constructor
  · rintro ⟨w, ⟨p, hp, hw⟩, hin⟩
    exact ⟨p, hp, w, hw, hin⟩
  · rintro ⟨p, hp, w, hw, hin⟩
    exact ⟨w, ⟨p, hp, hw⟩, hin⟩

/-- The pieces of a group go to its fields. -/
theorem groupPieces_inData (hok : GroupOk g) (hnested : g.payload.dataType = .struct → ∀ b, Logs
      (fun p => p.Clean → ∀ i, Touches p.cells i → b ≤ i ∧ i < b + g.payload.elemSize) (nested g.payload.eiArray b)) :
    Logs (fun p => p.Clean → ∀ i, Touches p.cells i → InData base g i) (groupPieces mem nested top base stale g) := by
  have hmem : g.payload ∈ g.len.toList ++ [g.payload] := by simp
  have hfield : g.payload.dataType ≠ .dataLen → fieldSize g.payload =
      g.payload.elemLen * g.payload.elemSize := fun h => by rw [fieldSize, if_neg h]
  have hsize := hfield (payload_notFlag hok).2
  refine logs_groupPieces hok (fun hs width hclean i hi => ?_) (fun l hl _ _ i hi => ?_) (fun hn _ i hi => ?_)
    (fun hs j _ hj a ha p hp hclean i hi => ?_)
  · obtain ⟨hlo, hhi⟩ := touches_cells.mp hi
    have hroom := hclean
    unfold Piece.Clean at hroom
    rw [(hok.field g.payload (by simp [Group.elems])).string hs, mul_one] at hsize
    exact ⟨g.payload, hmem, hlo, by omega⟩
  · obtain ⟨hlo, hhi⟩ := touches_cells.mp hi
    refine ⟨l, ?_, hlo, ?_⟩
    · exact mem_append_left _ (Option.mem_toList.mpr hl)
    · rwa [fieldSize, if_pos (hok.len l hl).1]
  · obtain ⟨hlo, hhi⟩ := touches_cells.mp hi
    rw [length_peek] at hhi
    have hmul := Nat.mul_le_mul_right g.payload.elemSize hn
    exact ⟨g.payload, hmem, hlo, by omega⟩
  · obtain ⟨hlo, hhi⟩ := hnested hs _ a ha p hp hclean i hi
    have hmul := Nat.mul_le_mul_right g.payload.elemSize (show j + 1 ≤ g.payload.elemLen by omega)
    rw [Nat.succ_mul] at hmul
    exact ⟨g.payload, hmem, by omega, by omega⟩

theorem pieces_inside (hT : WellFormed d table) (hfit : FieldsFit d table size) :
    Logs (fun p => p.Clean → ∀ i, Touches p.cells i → base ≤ i ∧ i < base + size) (pieces mem d table base) := by
  induction d generalizing table base size with
  | zero => exact hT.elim
  | succ d ih =>
    obtain ⟨-, hgroups⟩ := hT
    refine logs_groupsPieces (fun g hg stale a ha p hp hclean i hi => ?_)
    obtain ⟨hok, hstruct⟩ := hgroups g hg
    obtain ⟨helems, hnested⟩ := hfit.2 g hg
    obtain ⟨ei, hei, hlo, hhi⟩ := (groupPieces_inData hok
      (fun hs b => ih (hstruct hs).1 (hnested hs)) a ha p hp hclean i hi).inField
    have hle := helems ei hei
    omega

/-- What the TLV of a group leaves in the struct. -/
def groupCells (mem : Nat → UInt8) (nested : Table → (base : Nat) → Run Piece Stop Unit) (base : Nat)
    (g : Group) : List (Nat × List UInt8) :=
  (putFlag base g).log ++ (groupPieces mem nested true base 0 g).log.flatMap Piece.cells

theorem putFlag_eq (base : Nat) (g : Group) : putFlag base g = ⟨(putFlag base g).log, .ok ()⟩ := by
  unfold putFlag
  split
  · rfl
  · exact put_eq _ _

theorem groupCells_inField {count : Nat} (hok : GroupOk g) (hnested : g.payload.dataType = .struct → ∀ b, Logs
      (fun p => p.Clean → ∀ i, Touches p.cells i → b ≤ i ∧ i < b + g.payload.elemSize) (nested g.payload.eiArray b))
    (hres : (groupPieces mem nested true base 0 g).res = .ok count)
    (hclean : Clean (groupPieces mem nested true base 0 g).log)
    (hi : Touches (groupCells mem nested base g) i) : InField base g i := by
  rcases touches_append.mp hi with hi | hi
  · unfold putFlag at hi
    split at hi
    · obtain ⟨w, hw, -⟩ := hi
      cases hw
    · rename_i f hf
      have hmem : f ∈ g.elems := by simp [Group.elems, hf]
      obtain ⟨hlo, hhi⟩ := touches_put.mp hi
      have hpos := (hok.field f hmem).nonempty
      refine ⟨f, hmem, hlo, ?_⟩
      rw [fieldSize, if_neg (by simp [(hok.flag f (by simp [hf])).1])]
      rw [length_singleton] at hhi
      omega
  · obtain ⟨p, hp, hi⟩ := touches_flatMap.mp hi
    exact (groupPieces_inData hok hnested count hres p hp (hclean p hp) i hi).inField

/-- Two groups of a table have no byte in common. -/
theorem inField_disjoint (hfit : FieldsDisjoint fieldSize (gs.flatMap Group.elems ++ rest)) :
    gs.Pairwise (fun a b => ∀ i, ¬ (InField base a i ∧ InField base b i)) := by
  have hpair := (pairwise_append.mp hfit).1
  refine (pairwise_flatMap.mp hpair).2.imp (fun {a b} h i => ?_)
  rintro ⟨⟨x, hx, hxlo, hxhi⟩, ⟨y, hy, hylo, hyhi⟩⟩
  have := h x hx y hy
  omega

end

section
variable {items : List Item} {msg : Nat → UInt8} {size : Nat}

theorem replayItems_clean (h : CleanItems mem nested base stale items) : replayItems mem nested base stale items =
      ⟨(items.filterMap group).flatMap (groupCells mem nested base), .ok ()⟩ := by
  induction items generalizing stale with
  | nil => rfl
  | cons item items ih =>
    cases item with
    | extra type bs => exact ih h
    | known g =>
      have hcells := (groupPieces_stale mem nested true base g stale 0).2.2
      have hmap : (known g :: items).filterMap group = g :: items.filterMap group := rfl
      rw [replayItems, replay_clean h.1, ih h.2, putFlag_eq, hcells, hmap, flatMap_cons, groupCells, append_assoc]
      rfl

theorem replayItems_known {u : Unit} (h : (replayItems mem nested base stale (.known g :: items)).res = .ok u) :
    (∃ v, (replay (groupPieces mem nested true base stale g).log).res = .ok v) ∧
      (replayItems mem nested base (groupCount mem base g) items).res = .ok u := by
  obtain ⟨-, -, h, -⟩ := res_bind_ok h
  obtain ⟨v, hv, h, -⟩ := res_bind_ok h
  exact ⟨⟨v, hv⟩, h⟩

/-- The groups that are in the message of a struct. -/
def presentGroups (mem : Nat → UInt8) (table : Table) : List Group :=
  (groups table).filter (·.present mem 0)

/-- The TLVs of a struct in some order, with any number of optional TLVs between them that the
table does not know. -/
structure Arrangement (mem : Nat → UInt8) (table : Table) (items : List Item) : Prop where
  perm : (items.filterMap Item.group).Perm (presentGroups mem table)
  extra : ∀ t bs, .extra t bs ∈ items → optionalTlvTypeStart ≤ t ∧ (∀ ei ∈ table, ei.tlvType ≠ t) ∧
    bs.length < 2 ^ 16

theorem filterMap_known (l : List Group) : (l.map known).filterMap group = l := by
  simp [filterMap_map, Function.comp_def, group]

theorem arrangement_known {l : List Group} (h : l.Perm (presentGroups mem table)) :
    Arrangement mem table (l.map known) where
  perm := by
    rwa [filterMap_known]
  extra := by
    intro t bs hmem
    obtain ⟨g, -, hg⟩ := mem_map.mp hmem
    cases hg

theorem Arrangement.mem_present (h : Arrangement mem table items) (hg : .known g ∈ items) :
    g ∈ presentGroups mem table :=
  h.perm.mem_iff.mp (mem_filterMap.mpr ⟨.known g, hg, rfl⟩)

/-- The message can be taken apart: every group can be encoded, in a TLV of at most 65535
bytes. -/
structure Encodes (mem : Nat → UInt8) (d : Nat) (table : Table) : Prop where
  counts : ∀ g ∈ presentGroups mem table,
    ∃ count, (groupPieces mem (pieces mem d) true 0 0 g).res = .ok count
  sizes : ∀ g ∈ presentGroups mem table, wireSize (groupPieces mem (pieces mem d) true 0 0 g).log < 2 ^ 16

theorem readable_top (hT : WellFormed (d + 1) table) (hg : g ∈ groups table) :
    Readable inp (Expressible (d + 1) table) (qmiDecode inp d 2) (pieces mem d) g := by
  obtain ⟨-, hgroups⟩ := hT
  obtain ⟨hok, hstruct⟩ := hgroups g hg
  refine ⟨hok, fun hs => ?_, fun hs => ?_, fun h => (h g hg).1⟩
  · obtain ⟨hT', hflag, -⟩ := hstruct hs
    exact (qmiDecode_reads hT' hflag (by omega)).mono (fun h => (h g hg).2 hs)
  · exact pieces_takesRoom (hstruct hs).1 (hstruct hs).2.2

theorem itemsOk_of_arrangement (hT : WellFormed (d + 1) table) (htop : TopTypes table)
    (henc : Encodes mem d table) (h : Arrangement mem table items) :
    ItemsOk mem inp (Expressible (d + 1) table) (qmiDecode inp d 2) (pieces mem d) table 0 items where
  known := by
    intro g hg
    have hpresent := h.mem_present hg
    have hmem : g ∈ groups table := (mem_filter.mp hpresent).1
    refine ⟨readable_top hT hmem, ?_, henc.counts g hpresent, henc.sizes g hpresent⟩
    obtain ⟨⟨e, htable, -⟩, hgroups⟩ := hT
    rw [htable]
    exact findEi_group (fun g hg => (hgroups g hg).1) htop.same htop.distinct hmem
  extra := by
    intro t bs hmem
    obtain ⟨hopt, habsent, hlen⟩ := h.extra t bs hmem
    exact ⟨findEi_absent habsent, UInt8.not_lt.mpr hopt, hlen⟩

theorem length_le_itemsWire (items : List Item) : items.length ≤ (itemsWire mem nested base items).length := by
  induction items with
  | nil => exact Nat.zero_le _
  | cons item items ih =>
    have hpos : 0 < (item.wire mem nested base).length := by
      cases item with
      | known g => exact Nat.lt_of_lt_of_eq (Nat.succ_pos _) (length_groupWire mem nested base g).symm
      | extra t bs => exact Nat.succ_pos _
    show items.length + 1 ≤ (item.wire mem nested base ++ itemsWire mem nested base items).length
    rw [length_append]
    omega

/-- The struct that the decoder leaves. -/
def decodedStruct (inp : Nat → UInt8) (d : Nat) (table : Table) (src len : Nat) (out : Nat → UInt8) :
    Nat → UInt8 :=
  store out (stores (qmiDecode inp d 1 table 0 src len)).log

/-- Whatever TLV is decoded before the one of a group, its lengths are read back as they were. -/
def Unambiguous (mem : Nat → UInt8) (d : Nat) (table : Table) : Prop :=
  ∀ g ∈ presentGroups mem table, ∀ stale,
    (stale = 0 ∨ ∃ g' ∈ presentGroups mem table, g' ≠ g ∧ stale = groupCount mem 0 g') →
      Clean (groupPieces mem (pieces mem d) true 0 stale g).log

/-- Every arrangement is decoded, to the same struct as the message `msg`. -/
def OrderIndependent (mem : Nat → UInt8) (d : Nat) (table : Table) (msg : Nat → UInt8) (dst n : Nat) :
    Prop :=
  ∀ items, Arrangement mem table items → (itemsWire mem (pieces mem d) 0 items).length < 2 ^ 31 →
    ∀ inp src, Holds inp src (itemsWire mem (pieces mem d) 0 items) →
      (∃ k, (qmiDecode inp (d + 1) 1 table 0 src
        (itemsWire mem (pieces mem d) 0 items).length).res = .ok k) ∧
      ∀ out, decodedStruct inp (d + 1) table src (itemsWire mem (pieces mem d) 0 items).length out =
        decodedStruct msg (d + 1) table dst n out

theorem cleanItems_of_unambiguous (h : Unambiguous mem d table)
    (hmem : ∀ g, .known g ∈ items → g ∈ presentGroups mem table) (hnodup : (items.filterMap group).Nodup)
    (hstale : stale = 0 ∨ ∃ g ∈ presentGroups mem table, .known g ∉ items ∧ stale = groupCount mem 0 g) :
    CleanItems mem (pieces mem d) 0 stale items := by
  induction items generalizing stale with
  | nil => trivial
  | cons item items ih =>
    have hmem' : ∀ g, .known g ∈ items → g ∈ presentGroups mem table :=
      fun g hg => hmem g (.tail _ hg)
    cases item with
    | extra t bs =>
      refine ih hmem' hnodup (hstale.imp_right ?_)
      rintro ⟨g, hg, hnot, heq⟩
      exact ⟨g, hg, fun hin => hnot (.tail _ hin), heq⟩
    | known g =>
      have hg := hmem g (by simp)
      obtain ⟨hnotin, hnodup'⟩ := nodup_cons.mp
        (show (g :: items.filterMap group).Nodup from hnodup)
      refine ⟨h g hg stale (hstale.imp_right ?_), ih hmem' hnodup' (.inr ⟨g, hg, ?_, rfl⟩)⟩
      · rintro ⟨g', hg', hnot, heq⟩
        exact ⟨g', hg', fun hsame => hnot (by rw [hsame]; simp), heq⟩
      · exact fun hin => hnotin (mem_filterMap.mpr ⟨_, hin, rfl⟩)

theorem presentGroups_nodup (htop : TopTypes table) : (presentGroups mem table).Nodup := by
  refine Nodup.filter _ (htop.distinct.imp ?_)
  intro a b hne hab
  exact hne (by rw [hab])

theorem Arrangement.clean (htop : TopTypes table) (hun : Unambiguous mem d table)
    (h : Arrangement mem table items) : CleanItems mem (pieces mem d) 0 0 items :=
  cleanItems_of_unambiguous hun (fun _ => h.mem_present)
    (h.perm.nodup_iff.mpr (presentGroups_nodup htop)) (.inl rfl)

section
variable (hT : WellFormed (d + 1) table) (htop : TopTypes table) (henc : Encodes mem d table) (h : Arrangement mem table items)
  (hholds : Holds inp src (itemsWire mem (pieces mem d) 0 items)) (hlen : (itemsWire mem (pieces mem d) 0 items).length < 2 ^ 32)
include hT htop henc h hholds hlen

/-- `qmi_decode` of an arrangement. -/
theorem qmiDecode_items (hclean : CleanItems mem (pieces mem d) 0 0 items ∨ Expressible (d + 1) table) :
    stores (qmiDecode inp (d + 1) 1 table 0 src (itemsWire mem (pieces mem d) 0 items).length) =
      replayItems mem (pieces mem d) 0 0 items >>= fun _ => pure (itemsWire mem (pieces mem d) 0 items).length := by
  have hle : items.length ≤ (itemsWire mem (pieces mem d) 0 items).length := length_le_itemsWire items
  exact decodeLoop_items (itemsOk_of_arrangement hT htop henc h) hholds (zero_add _) hlen hclean
    (by omega) table

/-- An arrangement of an unambiguous message is decoded, whatever the order. -/
theorem qmiDecode_arrangement (hun : Unambiguous mem d table) :
    stores (qmiDecode inp (d + 1) 1 table 0 src (itemsWire mem (pieces mem d) 0 items).length) =
      ⟨(items.filterMap group).flatMap (groupCells mem (pieces mem d) 0),
        .ok (itemsWire mem (pieces mem d) 0 items).length⟩ := by
  have hclean := h.clean htop hun
  rw [qmiDecode_items hT htop henc h hholds hlen (.inl hclean), replayItems_clean hclean]
  exact congrArg₂ mk (append_nil _) rfl

end

/-- The groups that are present go to different bytes. -/
theorem groupCells_disjoint (hT : WellFormed (d + 1) table) (hfit : FieldsFit (d + 1) table size)
    (henc : Encodes mem d table)
    (hclean : ∀ g ∈ presentGroups mem table, Clean (groupPieces mem (pieces mem d) true 0 0 g).log)
    {a b : Group} (ha : a ∈ presentGroups mem table) (hb : b ∈ presentGroups mem table) (hab : a ≠ b) (i : Nat) :
    ¬ (Touches (groupCells mem (pieces mem d) 0 a) i ∧ Touches (groupCells mem (pieces mem d) 0 b) i) := by
  obtain ⟨⟨e, htable, -⟩, hgroups⟩ := hT
  have hin : ∀ g ∈ presentGroups mem table, Touches (groupCells mem (pieces mem d) 0 g) i →
      InField 0 g i := by
    intro g hg hi
    have hmem : g ∈ groups table := (mem_filter.mp hg).1
    obtain ⟨hok, hstruct⟩ := hgroups g hmem
    obtain ⟨count, hcount⟩ := henc.counts g hg
    exact groupCells_inField hok (fun hs b => pieces_inside (hstruct hs).1 ((hfit.2 g hmem).2 hs)) hcount
      (hclean g hg) hi
  have hfields : FieldsDisjoint fieldSize ((groups table).flatMap Group.elems ++ [e]) := htable ▸ hfit.1
  have hpair : (groups table).Pairwise (fun a b => ∀ i, ¬ (InField 0 a i ∧ InField 0 b i)) :=
    inField_disjoint hfields
  have : Std.Symm (fun a b => ∀ i, ¬ (InField 0 a i ∧ InField 0 b i)) := ⟨fun _ _ h i hi => h i hi.symm⟩
  have hdisj := hpair.forall (mem_filter.mp ha).1 (mem_filter.mp hb).1 hab
  rintro ⟨hia, hib⟩
  exact hdisj i ⟨hin a ha hia, hin b hb hib⟩

theorem itemsWire_known (l : List Group) :
    itemsWire mem nested base (l.map known) = l.flatMap (groupWire mem nested base) := by
  simp only [itemsWire, flatMap_map]
  rfl

/-- The message is not longer than `maxWire` allows. -/
theorem length_message_le (hT : WellFormed (d + 1) table) {l : List Group} (hl : l.Perm (presentGroups mem table)) :
    (l.flatMap (groupWire mem (pieces mem d) 0)).length ≤ maxWire (d + 1) table := by
  have hbound : ∀ g ∈ groups table, (groupWire mem (pieces mem d) 0 g).length ≤ groupSize d g := by
    intro g hg
    obtain ⟨hok, hstruct⟩ := hT.2 g hg
    have h : wireSize (groupPieces mem (pieces mem d) true 0 0 g).log ≤
        4 + g.payload.elemLen * entrySize (maxWire d g.payload.eiArray) g.payload :=
      wireSize_groupPieces_le hok (fun h b => wireSize_pieces_le (hstruct h).1)
    rw [length_groupWire]
    unfold groupSize tlvHdrSize
    omega
  rw [length_flatMap, (hl.map _).sum_eq, maxWire_eq]
  calc ((presentGroups mem table).map (fun g => (groupWire mem (pieces mem d) 0 g).length)).sum
      ≤ ((groups table).map (fun g => (groupWire mem (pieces mem d) 0 g).length)).sum :=
        (filter_sublist.map _).sum_le_sum (fun _ _ => Nat.zero_le _)
    _ ≤ ((groups table).map (groupSize d)).sum := sum_le_sum hbound

section
variable (hT : WellFormed (d + 1) table) (htop : TopTypes table) (hmax : maxWire (d + 1) table < 2 ^ 31)
  (henc : Encodes mem d table) (hexp : Expressible (d + 1) table)
include hT htop hmax henc hexp

/-- A group is decoded first, or behind another one, in some arrangement. -/
theorem clean_of_decoded {n dst : Nat} (hind : OrderIndependent mem d table msg dst n)
    {l : List Group} (hl : l.Perm (presentGroups mem table)) :
    ∃ u, (replayItems mem (pieces mem d) 0 0 (l.map known)).res = .ok u := by
  have harr := arrangement_known hl
  have hlen : (itemsWire mem (pieces mem d) 0 (l.map known)).length < 2 ^ 31 := by
    rw [itemsWire_known]
    exact lt_of_le_of_lt (length_message_le hT hl) hmax
  have hholds : Holds (poke (fun _ => 0) 0 (itemsWire mem (pieces mem d) 0 (l.map known))) 0
      (itemsWire mem (pieces mem d) 0 (l.map known)) := peek_poke_self _ _ _
  obtain ⟨⟨k, hk⟩, -⟩ := hind _ harr hlen _ 0 hholds
  have hitems := qmiDecode_items hT htop henc harr hholds (by omega) (.inr hexp)
  obtain ⟨u, hu, -⟩ := res_bind_ok ((congrArg res hitems).symm.trans hk)
  exact ⟨u, hu⟩

theorem unambiguous_of_orderIndependent {n dst : Nat} (hind : OrderIndependent mem d table msg dst n) :
    Unambiguous mem d table := by
  intro g hg stale hstale
  have hmem : g ∈ groups table := (mem_filter.mp hg).1
  obtain ⟨hok, hstruct⟩ := hT.2 g hmem
  obtain ⟨count, hcount⟩ := henc.counts g hg
  have hsmall : Logs Piece.Small (groupPieces mem (pieces mem d) true 0 stale g) :=
    groupPieces_small hok (hexp g hmem).1 (fun hs _ => pieces_small (hstruct hs).1 ((hexp g hmem).2 hs))
  have hres := (groupPieces_stale mem (pieces mem d) true 0 g stale 0).1.trans hcount
  suffices h : ∃ v, (replay (groupPieces mem (pieces mem d) true 0 stale g).log).res = .ok v by
    obtain ⟨v, hv⟩ := h
    exact clean_of_replay (hsmall count hres) hv
  obtain ⟨a, b, hab⟩ := append_of_mem hg
  have hfirst : (g :: (a ++ b)).Perm (presentGroups mem table) := hab ▸ perm_middle.symm
  rcases hstale with rfl | ⟨g', hg', hne, rfl⟩
  · obtain ⟨u, hu⟩ := clean_of_decoded hT htop hmax henc hexp hind hfirst
    exact (replayItems_known hu).1
  · have hin : g' ∈ a ++ b := (mem_cons.mp (hfirst.mem_iff.mpr hg')).resolve_left hne
    obtain ⟨a', b', hab'⟩ := append_of_mem hin
    have hsecond : (g' :: g :: (a' ++ b')).Perm (presentGroups mem table) := by
      refine (Perm.swap g g' _).trans (Perm.trans ?_ hfirst)
      rw [hab']
      exact perm_middle.symm.cons g
    obtain ⟨u, hu⟩ := clean_of_decoded hT htop hmax henc hexp hind hsecond
    exact (replayItems_known (replayItems_known hu).2).1

end

end

/-- The TLVs that `qmi_encode` produces are decoded in any order and among unknown optional ones,
to the same struct, if whatever TLV is decoded before another its lengths are read back as they
were; where the lengths of the table are expressible, only then. -/
theorem reordered_decodes (d size : Nat) (table : Table) (hT : WellFormed (d + 1) table)
    (htop : TopTypes table) (hfit : FieldsFit (d + 1) table size)
    (hmax : maxWire (d + 1) table < 2 ^ 31) (mem m₀ : Nat → UInt8) (dst R n : Nat) (hR : R < 2 ^ 32)
    (hres : (qmiEncode mem (d + 1) 1 table 0 dst R).res = .ok n) (hsizes : ∀ g ∈ presentGroups mem table,
      wireSize (groupPieces mem (pieces mem d) true 0 0 g).log < 2 ^ 16) :
    Holds (store m₀ (outCells (qmiEncode mem (d + 1) 1 table 0 dst R).log)) dst
      ((presentGroups mem table).flatMap (groupWire mem (pieces mem d) 0)) ∧
    (Unambiguous mem d table → OrderIndependent mem d table
      (store m₀ (outCells (qmiEncode mem (d + 1) 1 table 0 dst R).log)) dst n) ∧
    (Expressible (d + 1) table → OrderIndependent mem d table
      (store m₀ (outCells (qmiEncode mem (d + 1) 1 table 0 dst R).log)) dst n → Unambiguous mem d table) := by
  obtain ⟨hcounts, hwrote⟩ := qmiEncode_ok hT htop hmax hR hres
  have henc : Encodes mem d table :=
    ⟨fun g hg => hcounts g (mem_filter.mp hg).1 (mem_filter.mp hg).2, hsizes⟩
  refine ⟨hwrote.holds m₀, fun hun items harr hlen inp src hholds => ?_, fun hexp hind =>
    unambiguous_of_orderIndependent hT htop hmax henc hexp hind⟩
  have hdecoded := qmiDecode_arrangement hT htop henc harr hholds (by omega) hun
  refine ⟨⟨_, congrArg Run.res hdecoded⟩, fun out => ?_⟩
  have hn : n = (itemsWire mem (pieces mem d) 0 ((presentGroups mem table).map Item.known)).length := by
    rw [itemsWire_known]
    have := hwrote.length
    unfold messageWire at this
    exact Nat.add_left_cancel this
  have hmsg := hwrote.holds m₀
  rw [messageWire, ← presentGroups, ← itemsWire_known] at hmsg
  have hshort : (itemsWire mem (pieces mem d) 0 ((presentGroups mem table).map Item.known)).length <
      2 ^ 32 := by
    rw [itemsWire_known]
    have := length_message_le hT (Perm.refl (presentGroups mem table))
    omega
  have hfirst := qmiDecode_arrangement hT htop henc (arrangement_known (Perm.refl _)) hmsg hshort hun
  rw [← hn] at hfirst
  rw [decodedStruct, decodedStruct, hdecoded, hfirst, filterMap_known]
  exact store_flatMap_perm harr.perm (fun a ha b hb hab => groupCells_disjoint hT hfit henc
    (fun g hg => hun g hg 0 (.inl rfl)) (harr.perm.mem_iff.mp ha) (harr.perm.mem_iff.mp hb) hab)

section
variable {k : Nat}

def blockEi (k : Nat) : ElemInfo := ⟨.unsigned1Byte, k, 1, .staticArray, 2, 8, []⟩

/-- At most two bytes, and a block of `k` bytes. -/
def pairTable (k : Nat) : Table := [lenEi, bytesEi, blockEi k, endEi]

def bytesGroup : Group := ⟨none, some lenEi, bytesEi⟩
def blockGroup (k : Nat) : Group := ⟨none, none, blockEi k⟩

theorem forall_mem_two {α : Type} {P : α → Prop} {a b : α} (ha : P a) (hb : P b) : ∀ x ∈ [a, b], P x :=
  forall_mem_cons.mpr ⟨ha, forall_mem_singleton.mpr hb⟩

theorem forall_pairTable {P : Group → Prop} (hbytes : P bytesGroup) (hblock : P (blockGroup k)) :
    ∀ g ∈ groups (pairTable k), P g := forall_mem_two hbytes hblock

theorem bytesGroup_ok : GroupOk bytesGroup := by
  refine ⟨by simp [bytesGroup], ?_, by decide, by decide, nofun, forall_mem_two ?_ ?_⟩
  · intro l hl
    cases hl
    exact ⟨rfl, rfl, .inl rfl⟩
  · exact ⟨by decide, by decide, by decide, nofun⟩
  · exact ⟨by decide, by decide, by decide, nofun⟩

theorem blockGroup_ok (hpos : 0 < k) (hk : k < 2 ^ 31) : GroupOk (blockGroup k) := by
  refine ⟨by simp [blockGroup], by simp [blockGroup], .inl rfl, ?_, nofun, fun ei hei => ?_⟩
  · simp [blockGroup, blockEi]
  · cases mem_singleton.mp (show ei ∈ [blockEi k] from hei)
    refine ⟨by simp [blockEi], ?_, ?_, nofun⟩
    · simpa [blockEi] using hpos
    · simp only [blockEi]
      omega

theorem pairTable_wellFormed (hpos : 0 < k) (hk : k < 2 ^ 31) : WellFormed 1 (pairTable k) :=
  ⟨⟨endEi, rfl, rfl⟩, forall_pairTable ⟨bytesGroup_ok, nofun⟩
    ⟨blockGroup_ok hpos hk, nofun⟩⟩

theorem pairTable_topTypes (k : Nat) : TopTypes (pairTable k) where
  same := forall_pairTable (forall_mem_two rfl rfl) (forall_mem_singleton.mpr rfl)
  distinct := pairwise_pair.mpr (show (1 : UInt8) ≠ 2 by decide)
  last := by
    intro e he htype
    have hlast : e = endEi := by
      simp only [pairTable, mem_cons, not_mem_nil, or_false] at he
      rcases he with rfl | rfl | rfl | rfl
      · cases htype
      · cases htype
      · cases htype
      · rfl
    rw [hlast]
    exact forall_pairTable (by decide) (show (2 : UInt8) ≠ 0 by decide)

theorem pairTable_fieldsFit (k : Nat) : FieldsFit 1 (pairTable k) (8 + k) := by
  refine ⟨?_, forall_pairTable ⟨forall_mem_two ?_ ?_, fun _ => trivial⟩
    ⟨forall_mem_singleton.mpr ?_, fun _ => trivial⟩⟩
  · simp [FieldsDisjoint, pairTable, lenEi, bytesEi, blockEi, endEi, fieldSize]
  · simp [lenEi, fieldSize]
    omega
  · simp [bytesGroup, bytesEi, fieldSize]
    omega
  · simp [blockGroup, blockEi, fieldSize]

/-- One byte, and a block of zeros. -/
def oneByte : Nat → UInt8 := fun i => if i = 0 then 1 else 0

theorem oneByte_unambiguous : Unambiguous oneByte 0 (pairTable 4) := by
  intro g hg stale hstale
  have hlt : stale < 256 := by
    rcases hstale with rfl | ⟨g', hg', -, rfl⟩
    · decide
    · exact forall_pairTable (P := fun g' => groupCount oneByte 0 g' < 256) (by decide) (by decide) g' hg'
  clear hstale
  revert g
  refine forall_pairTable ?_ ?_
  · exact forall_mem_two (P := Piece.Clean) (a := .count 1 0 1 stale) (b := .data 4 [0]) ⟨hlt, by decide⟩ trivial
  · exact (forall_mem_singleton (p := Piece.Clean) (a := .data 8 [0, 0, 0, 0])).mpr trivial

theorem oneByte_independent : (qmiEncode oneByte 1 1 (pairTable 4) 0 0 16).res = .ok 12 ∧
      OrderIndependent oneByte 0 (pairTable 4)
        (store (fun _ => 0) (outCells (qmiEncode oneByte 1 1 (pairTable 4) 0 0 16).log)) 0 12 :=
  ⟨rfl, (reordered_decodes 0 12 (pairTable 4) (pairTable_wellFormed (by decide) (by decide))
    (pairTable_topTypes 4) (pairTable_fieldsFit 4) (by decide) oneByte (fun _ => 0) 0 16 12 (by decide) rfl
    (by decide)).2.1 oneByte_unambiguous⟩

/-- The TLVs of one byte and of a block of 256 bytes, the block first. -/
def blockFirst : Nat → UInt8 := fun i =>
  if i = 0 then 2 else if i = 2 then 1 else if i = 259 then 1 else if i = 260 then 2
  else if i = 262 then 1 else 0

/-- Behind a block of 256 entries the length 1 is read as 257. -/
theorem blockFirst_rejected :
    WellFormed 1 (pairTable 256) ∧ TopTypes (pairTable 256) ∧ FieldsFit 1 (pairTable 256) 264 ∧
      (qmiEncode oneByte 1 1 (pairTable 256) 0 0 300).res = .ok 264 ∧
      (qmiDecode (store (fun _ => 0) (outCells (qmiEncode oneByte 1 1 (pairTable 256) 0 0 300).log)) 1 1
        (pairTable 256) 0 0 264).res = .ok 264 ∧
      Arrangement oneByte (pairTable 256) [.known (blockGroup 256), .known bytesGroup] ∧
      Holds blockFirst 0 (itemsWire oneByte (pieces oneByte 0) 0 [.known (blockGroup 256), .known bytesGroup]) ∧
      (qmiDecode blockFirst 1 1 (pairTable 256) 0 0 264).res = .error (.err (-ETOOSMALL)) := by
  refine ⟨pairTable_wellFormed (by decide) (by decide), pairTable_topTypes 256, pairTable_fieldsFit 256, rfl,
    ?_, arrangement_known (l := [blockGroup 256, bytesGroup]) (Perm.swap _ _ _), ?_, ?_⟩
  · decide +kernel
  · unfold Holds
    decide +kernel
  · decide +kernel

end

end Sm8850.Qmi
