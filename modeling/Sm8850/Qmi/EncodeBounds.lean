import Sm8850.Qmi.Gate

/-! When the encoder stays inside its buffer. -/
namespace Sm8850.Qmi

open Memory List Run

variable {mem : Nat → UInt8} {α β : Type} {R D E k : Nat} {p : Piece} {ps qs : List Piece}

section
variable {dst : Nat}

/-- The first piece that leaves no room for the TLV header is refused. -/
def Guarded (R : Nat) : (E : Nat) → List Piece → Prop
  | _, [] => True
  | E, p :: ps =>
    if E + p.size + tlvHdrSize ≤ R then Guarded R (E + p.size) ps else R < E + p.size + p.spare

/-- The same for the pieces of one TLV after the other. -/
def GuardedAll (R : Nat) : (E : Nat) → List (List Piece) → Prop
  | _, [] => True
  | E, ps :: rest =>
    if E + wireSize ps + tlvHdrSize ≤ R then GuardedAll R (E + wireSize ps + tlvHdrSize) rest
    else Guarded R E ps

instance decidableGuarded : ∀ R E ps, Decidable (Guarded R E ps)
  | _, _, [] => .isTrue trivial
  | R, E, p :: ps =>
    have := decidableGuarded R (E + p.size) ps
    inferInstanceAs (Decidable (ite _ _ _))

instance decidableGuardedAll : ∀ R E pss, Decidable (GuardedAll R E pss)
  | _, _, [] => .isTrue trivial
  | R, E, ps :: rest =>
    have := decidableGuardedAll R (E + wireSize ps + tlvHdrSize) rest
    inferInstanceAs (Decidable (ite _ _ _))

def InRange (lo hi : Nat) (w : Out) : Prop := ∀ i < w.bs.length, lo ≤ w.off + i ∧ w.off + i < hi

/-- The copies write the bytes from `lo` to `hi`, each of them once. -/
structure Covers (log : List Out) (lo hi : Nat) : Prop where
  total : (log.map (fun w => w.bs.length)).sum = hi - lo
  cells : ∀ i, (∃ w ∈ log, w.off ≤ i ∧ i < w.off + w.bs.length) ↔ lo ≤ i ∧ i < hi

theorem covers_nil (lo : Nat) : Covers [] lo lo where
  total := by simp
  cells := by
    intro i
    simp

theorem covers_singleton (off : Nat) (bs : List UInt8) : Covers [⟨off, bs⟩] off (off + bs.length) where
  total := by simp
  cells := by
    intro i
    simp

variable {a b : List Out} {hi lo : Nat} {r : Run Piece Stop α}

theorem Covers.append {mid : Nat} (ha : Covers a lo mid) (hb : Covers b mid hi) (h₁ : lo ≤ mid) (h₂ : mid ≤ hi) :
    Covers (a ++ b) lo hi where
  total := by
    rw [map_append, sum_append, ha.total, hb.total]
    omega
  cells := by
    intro i
    have hi := ha.cells i
    have hi' := hb.cells i
    simp only [mem_append, or_and_right, exists_or, hi, hi']
    omega

theorem Covers.perm (h : Covers a lo hi) (hp : a.Perm b) : Covers b lo hi where
  total := by
    rw [← h.total]
    exact ((hp.map _).sum_eq).symm
  cells := by
    intro i
    rw [← h.cells i]
    simp [hp.mem_iff]

theorem Covers.inRange {log : List Out} (h : Covers log lo hi) : ∀ w ∈ log, InRange lo hi w :=
  fun w hw i hi => (h.cells (w.off + i)).mp ⟨w, hw, by omega, by omega⟩

theorem covers_outs (off : Nat) (p : Piece) : Covers (p.outs off) off (off + p.size) := by
  cases p with
  | count width addr n stale => exact covers_singleton _ _
  | data addr bs => exact covers_singleton _ _
  | text width addr room bs =>
    rw [size_text, Piece.outs]
    split
    · rename_i h0
      rw [h0, zero_add]
      exact covers_singleton _ _
    · have h₁ := covers_singleton off (leBytes width bs.length)
      have h₂ := covers_singleton (off + width) bs
      rw [length_leBytes] at h₁
      rw [add_assoc] at h₂
      exact h₁.append h₂ (by omega) (by omega)

theorem covers_placed (D E : Nat) (ps : List Piece) : Covers (placed D E ps) (D + E) (D + E + wireSize ps) := by
  induction ps generalizing E with
  | nil => exact covers_nil _
  | cons p ps ih =>
    have h := ih (E + p.size)
    rw [← add_assoc] at h
    rw [placed, wireSize_cons, ← add_assoc]
    exact (covers_outs (D + E) p).append h (by omega) (by omega)

theorem spare_le (p : Piece) : p.spare ≤ tlvHdrSize := by
  unfold Piece.spare
  split
  · split <;> omega
  · exact le_rfl

theorem size_pos_of_spare (h : p.spare < tlvHdrSize) : 0 < p.size := by
  cases p with
  | count width addr n stale => exact absurd h (lt_irrefl _)
  | data addr bs => exact absurd h (lt_irrefl _)
  | text width addr room bs =>
    rw [size_text]
    rcases Nat.eq_zero_or_pos width with h0 | h0
    · rw [Piece.spare, if_pos h0] at h
      exact absurd h (lt_irrefl _)
    · omega

theorem gate_fits (h : E + wireSize ps + tlvHdrSize ≤ R) : gate R D E ps = ⟨placed D E ps, .ok (E + wireSize ps)⟩ := by
  induction ps generalizing E with
  | nil => rfl
  | cons p ps ih =>
    rw [wireSize_cons] at h
    have hspare := spare_le p
    rw [gate, if_neg (by omega), ih (by omega), placed, wireSize_cons, add_assoc]
    rfl

theorem gated_fits (h : E + wireSize r.log + tlvHdrSize ≤ R) :
    gated R D E r = ⟨placed D E r.log, r.res.map (fun a => (E + wireSize r.log, a))⟩ := by
  obtain ⟨log, s | a⟩ := r
  · rw [gated, gate_fits h]
    exact congrArg₂ mk (append_nil _) rfl
  · rw [gated, gate_fits h]
    exact congrArg₂ mk (append_nil _) rfl

theorem log_gated (r : Run Piece Stop α) : (gated R D E r).log = (gate R D E r.log).log := by
  rw [gated]
  obtain ⟨log, s | E'⟩ := gate R D E r.log
  · rfl
  · obtain ⟨log', s | a⟩ := r
    · exact append_nil _
    · exact append_nil _

/-- Behind the place for a header, the pieces are written inside the buffer exactly when they
are guarded. -/
theorem gate_inRange_iff : (∀ w ∈ (gate R (dst + tlvHdrSize) E ps).log, InRange dst (dst + R) w) ↔ Guarded R E ps := by
  induction ps generalizing E with
  | nil => simp [gate, Guarded]
  | cons p ps ih =>
    have hcov := covers_outs (dst + tlvHdrSize + E) p
    rw [gate, Guarded]
    by_cases hfits : E + p.size + tlvHdrSize ≤ R
    · have hspare := spare_le p
      rw [if_pos hfits, if_neg (by omega), ← ih, bind_ok]
      simp only [mem_append, or_imp, forall_and, and_iff_right_iff_imp]
      intro _ w hw i hi
      have h := hcov.inRange w hw i hi
      omega
    · rw [if_neg hfits]
      by_cases hrefuse : R < E + p.size + p.spare
      · simp [hrefuse]
      · rw [if_neg hrefuse, bind_ok]
        refine iff_of_false (fun h => ?_) hrefuse
        have hpos : 0 < p.size := size_pos_of_spare (by omega)
        -- the last byte of the piece is behind the buffer
        obtain ⟨w, hw, hlo, hhi⟩ := (hcov.cells (dst + tlvHdrSize + E + (p.size - 1))).mpr (by omega)
        have h := h w (mem_append_left _ hw) (dst + tlvHdrSize + E + (p.size - 1) - w.off) (by omega)
        omega

theorem guarded_fails (h : Guarded R E ps) (hne : ps ≠ []) (hlong : R < E + wireSize ps + tlvHdrSize) :
    (gate R D E ps).res = .error (.err (-ETOOSMALL)) := by
  induction ps generalizing E with
  | nil => exact absurd rfl hne
  | cons p ps ih =>
    rw [wireSize_cons] at hlong
    rw [Guarded] at h
    have hspare := spare_le p
    rw [gate]
    split at h
    · have hne' : ps ≠ [] := by
        rintro rfl
        simp only [wireSize, map_nil, sum_nil] at hlong
        omega
      rw [if_neg (by omega)]
      exact ih h hne' (by omega)
    · rw [if_pos h]
      rfl

theorem gated_refused (hguard : Guarded R E r.log) (hfilled : Filled r) (hends : LaysOut true r)
    (hlong : R < E + wireSize r.log + tlvHdrSize) : ∃ s, IsErr s ∧ (gated R D E r).res = .error s := by
  by_cases hne : r.log = []
  · obtain ⟨log, s | a⟩ := r
    · exact ⟨s, hends.failed s rfl, by simp [gated, show log = [] from hne, gate]⟩
    · exact absurd hne (hfilled a rfl)
  · refine ⟨_, isErr (-ETOOSMALL), ?_⟩
    rw [gated, bind_of_error (guarded_fails hguard hne hlong)]

end

/-- With `E` bytes encoded, the rest is written inside the buffer, each byte once, and the
number returned is the count of bytes. -/
structure Bounded (dst R E : Nat) (r : Enc Nat) : Prop where
  range : ∀ w ∈ r.log, InRange dst (dst + R) w
  written : ∀ n, r.res = .ok n → E ≤ n ∧ n ≤ R ∧ Covers r.log (dst + E) (dst + n)
  ends : ∀ s, r.res = .error s → IsErr s

section
variable {enc : Table → (src dst outBufLen : Nat) → Enc Nat}
  {nested : Table → (base : Nat) → Run Piece Stop Unit} {gs : List Group} {e : ElemInfo}
  {size : Group → Nat} {base dst stale v fuel : Nat}

theorem bounded_pure (hE : E ≤ R) : Bounded dst R E (pure E) where
  range := by simp
  written := by
    intro n hn
    cases hn
    exact ⟨le_rfl, hE, covers_nil _⟩
  ends := by simp

/-- A TLV that fits, in front of the rest. -/
theorem Bounded.tlv {r : Enc Nat} {t : UInt8} (h : Bounded dst R (E + wireSize ps + tlvHdrSize) r)
    (hfits : E + wireSize ps + tlvHdrSize ≤ R) (len : Nat) : Bounded dst R E ⟨placed (dst + tlvHdrSize) E ps ++
      (⟨dst + E, t :: leBytes 2 len⟩ :: r.log), r.res⟩ := by
  have hhdr := covers_singleton (dst + E) (t :: leBytes 2 len)
  rw [length_cons, length_leBytes] at hhdr
  have hplaced := covers_placed (dst + tlvHdrSize) E ps
  unfold tlvHdrSize at hplaced hfits h
  rw [show dst + 3 + E = dst + E + (2 + 1) by omega] at hplaced
  have hboth := (hhdr.append hplaced (by omega) (by omega)).perm perm_append_comm
  refine ⟨fun w hw => ?_, fun n hn => ?_, h.ends⟩
  · rw [append_cons] at hw
    rcases mem_append.mp hw with hw | hw
    · intro i hi
      have := hboth.inRange w hw i hi
      omega
    · exact h.range w hw
  · obtain ⟨hle, hnR, hrest⟩ := h.written n hn
    rw [append_cons]
    rw [show dst + (E + wireSize ps + 3) = dst + E + (2 + 1) + wireSize ps by omega] at hrest
    exact ⟨by omega, hnR, hboth.append hrest (by omega) (by omega)⟩

/-- A TLV that cannot be encoded. -/
theorem bounded_error {log : List Out} {s : Stop} (hlog : ∀ w ∈ log, InRange dst (dst + R) w)
    (hs : IsErr s) : Bounded dst R E ⟨log, .error s⟩ where
  range := hlog
  written := by
    intro n hn
    cases hn
  ends := by
    intro s' hs'
    cases hs'
    exact hs

theorem placed_inRange (hfits : E + wireSize ps + tlvHdrSize ≤ R) :
    ∀ w ∈ placed (dst + tlvHdrSize) E ps, InRange dst (dst + R) w := by
  intro w hw i hi
  have h := (covers_placed (dst + tlvHdrSize) E ps).inRange w hw i hi
  omega

theorem encodeLoop_end {s : EncState} (he : e.dataType = .eoti) (htemp : s.tempEi = [e])
    (hfuel : 0 < fuel) {encLevel : Nat} : encodeLoop mem enc encLevel base R fuel s = pure s.encodedBytes := by
  obtain ⟨f, rfl⟩ : ∃ f, fuel = f + 1 := ⟨fuel - 1, by omega⟩
  rw [encodeLoop]
  simp [htemp, if_pos he]

/-- Guarded pieces are written inside the buffer, and pieces that are written inside the buffer are
guarded. -/
theorem encodeLoop_guarded (htop : TopLoop mem enc nested size gs e)
    (hR : R < 2 ^ 32) (hE : E ≤ R) (hsize : E + (gs.map size).sum < 2 ^ 32)
    (hfuel : (gs.flatMap Group.elems ++ [e]).length < fuel) :
    let r := encodeLoop mem enc 1 base R fuel (.front (gs.flatMap Group.elems ++ [e]) v dst E)
    let ps := tlvPieces mem nested base stale gs
    (GuardedAll R E ps → Bounded dst R E r) ∧ ((∀ w ∈ r.log, InRange dst (dst + R) w) → GuardedAll R E ps) := by
  induction gs generalizing E v fuel stale with
  | nil =>
    rw [encodeLoop_end htop.eoti rfl (by omega)]
    exact ⟨fun _ => bounded_pure hE, fun _ => trivial⟩
  | cons g gs ih =>
    have hg := htop.ready g (by simp)
    have hgsize := hg.size_le base stale
    rw [map_cons, sum_cons] at hsize
    rw [flatMap_cons, append_assoc] at hfuel ⊢
    rw [tlvPieces]
    cases hpresent : g.present mem base with
    | false =>
      obtain ⟨f, hf, heq⟩ := encodeLoop_absent hg htop.rest_types hpresent v dst E hfuel
      rw [heq, if_neg Bool.false_ne_true]
      exact ih htop.tail hE (by omega) hf
    | true =>
      obtain ⟨f, hf, heq⟩ := encodeLoop_present hg hpresent v dst E stale (by omega) hfuel htop.rest_types hR hE
      dsimp only
      rw [heq, if_pos rfl, GuardedAll]
      have hends := hg.ends base stale
      have hfilled := hg.filled base stale
      generalize groupPieces mem nested true base stale g = r at *
      by_cases hfits : E + wireSize r.log + tlvHdrSize ≤ R
      · rw [if_pos hfits, gated_fits hfits]
        obtain ⟨ps, s | count⟩ := r
        · exact ⟨fun _ => bounded_error (placed_inRange hfits) (hends.failed s rfl), fun _ => trivial⟩
        · obtain ⟨hin, hout⟩ := ih (v := count) htop.tail hfits (by dsimp only at hgsize ⊢; omega) hf
          refine ⟨fun hguard => (hin hguard).tlv hfits _, fun hrange => hout fun w hw => ?_⟩
          exact hrange w (mem_append_right _ (.tail _ hw))
      · rw [if_neg hfits]
        refine ⟨fun hguard => ?_, fun hrange => gate_inRange_iff.mp fun w hw => hrange w ?_⟩
        · have hlog : ∀ w ∈ (gated R (dst + tlvHdrSize) E r).log, InRange dst (dst + R) w := by
            rw [log_gated]
            exact gate_inRange_iff.mpr hguard
          obtain ⟨s, hs, hres⟩ := gated_refused hguard hfilled hends (by omega)
          rw [bind_of_error hres]
          exact bounded_error hlog hs
        · exact mem_log_bind (by rwa [log_gated])

end

/-- The call at the top stays inside its buffer exactly when the pieces are guarded. -/
theorem qmiEncode_bounded_iff {d : Nat} {table : Table} (hT : WellFormed d table)
    (htop : TopTypes table) (hmax : maxWire d table < 2 ^ 31) (hR : R < 2 ^ 32) (base dst : Nat) :
    Bounded dst R 0 (qmiEncode mem d 1 table base dst R) ↔ GuardedAll R 0 (topPieces mem d table base) := by
  cases d with
  | zero => exact hT.elim
  | succ d =>
    obtain ⟨e, hloop, hsize, hfuel, heq⟩ := qmiEncode_top mem hT htop hmax base dst R
    rw [heq, topPieces]
    obtain ⟨hin, hout⟩ := encodeLoop_guarded hloop hR (Nat.zero_le _) hsize hfuel
    exact ⟨fun h => hout h.range, hin⟩

/-- `qmi_encode` stays inside its buffer, and `qmi_encode_message` inside what it allocates,
exactly when the first piece that leaves no room for a TLV header is refused. -/
theorem encode_bounded_iff (d : Nat) (table : Table) (hT : WellFormed d table) (htop : TopTypes table)
    (hmax : maxWire d table < 2 ^ 31) (mem : Nat → UInt8) (R : Nat) (hR : R < 2 ^ 32) :
    ((∀ dst, Bounded dst R 0 (qmiEncode mem d 1 table 0 dst R)) ∧ ∀ type msgId len txnId, len % 2 ^ 32 = R →
        ∀ w ∈ (qmiEncodeMessage mem d type msgId len txnId table).log, InRange 0 (qmiHeaderSize + len) w) ↔
      GuardedAll R 0 (topPieces mem d table 0) := by
  constructor
  · rintro ⟨h, -⟩
    exact (qmiEncode_bounded_iff hT htop hmax hR 0 0).mp (h 0)
  · intro h
    have hbounded := fun dst => (qmiEncode_bounded_iff hT htop hmax hR 0 dst).mpr h
    refine ⟨hbounded, fun type msgId len txnId hlen w hw => ?_⟩
    rw [qmiEncodeMessage, hlen] at hw
    have hle : R ≤ len := hlen ▸ Nat.mod_le _ _
    rcases mem_bind_log hw with hw | ⟨n, -, hw⟩
    · intro i hi
      have := (hbounded qmiHeaderSize).range w hw i hi
      omega
    · rw [mem_singleton.mp hw]
      intro i hi
      simp only [length_cons, length_append, length_leBytes] at hi
      unfold qmiHeaderSize
      dsimp only
      omega

section

def nameEi : ElemInfo := ⟨.string, 16, 1, .noArray, 0, 0, []⟩
def recordEi : ElemInfo := ⟨.struct, 1, 16, .noArray, 1, 0, [nameEi, endEi]⟩

/-- A struct with a name. -/
def recordTable : Table := [recordEi, endEi]

theorem nameTable_wellFormed : WellFormed 1 [nameEi, endEi] := by
  refine ⟨⟨endEi, rfl, rfl⟩, fun g hg => ?_⟩
  cases mem_singleton.mp (show g ∈ [⟨none, none, nameEi⟩] from hg)
  refine ⟨⟨by simp, by simp, by decide, by decide, by simp, fun ei hei => ?_⟩, nofun⟩
  cases mem_singleton.mp (show ei ∈ [nameEi] from hei)
  exact ⟨by decide, by decide, by decide, fun _ => rfl⟩

theorem recordTable_wellFormed : WellFormed 2 recordTable := by
  refine ⟨⟨endEi, rfl, rfl⟩, fun g hg => ?_⟩
  cases mem_singleton.mp (show g ∈ [⟨none, none, recordEi⟩] from hg)
  refine ⟨⟨by simp, by simp, by decide, by decide, nofun, fun ei hei => ?_⟩,
    fun _ => ⟨nameTable_wellFormed, fun g hg => ?_, by decide⟩⟩
  · cases mem_singleton.mp (show ei ∈ [recordEi] from hei)
    exact ⟨by decide, by decide, by decide, nofun⟩
  · cases mem_singleton.mp (show g ∈ [⟨none, none, nameEi⟩] from hg)
    rfl

theorem recordTable_topTypes : TopTypes recordTable where
  same := by
    intro g hg ei hei
    cases mem_singleton.mp (show g ∈ [⟨none, none, recordEi⟩] from hg)
    cases mem_singleton.mp (show ei ∈ [recordEi] from hei)
    rfl
  distinct := pairwise_singleton _ _
  last := by
    intro e he htype g hg
    cases mem_singleton.mp (show g ∈ [⟨none, none, recordEi⟩] from hg)
    rcases mem_cons.mp he with rfl | he
    · cases htype
    · cases mem_singleton.mp he
      decide

/-- A name of four letters. -/
def fourLetters : Nat → UInt8 := fun i => [97, 98, 99, 100][i]?.getD 0

/-- With room for the name and the header the message is written. -/
theorem fourLetters_bounded : ((∀ dst, Bounded dst 8 0 (qmiEncode fourLetters 2 1 recordTable 0 dst 8)) ∧
      ∀ type msgId len txnId, len % 2 ^ 32 = 8 →
        ∀ w ∈ (qmiEncodeMessage fourLetters 2 type msgId len txnId recordTable).log,
          InRange 0 (qmiHeaderSize + len) w) :=
  (encode_bounded_iff 2 recordTable recordTable_wellFormed recordTable_topTypes (by decide) fourLetters 8
    (by decide)).mpr (by decide)

/-- With room for the name only, the header and the name are written all the same. -/
theorem fourLetters_overrun : WellFormed 2 recordTable ∧ TopTypes recordTable ∧
      (qmiEncode fourLetters 2 1 recordTable 0 0 5).res = .ok 8 ∧
      ¬ Bounded 0 5 0 (qmiEncode fourLetters 2 1 recordTable 0 0 5) ∧
      ∃ w ∈ (qmiEncodeMessage fourLetters 2 0 0 5 1 recordTable).log, ¬ InRange 0 (qmiHeaderSize + 5) w := by
  refine ⟨recordTable_wellFormed, recordTable_topTypes, rfl, fun h => ?_,
    ⟨11, [97, 98, 99, 100]⟩, .tail _ (.head _), fun h => ?_⟩
  · have hle := (h.written 8 rfl).2.1
    omega
  · have hlast := (h 3 (by decide)).2
    unfold qmiHeaderSize at hlast
    dsimp only at hlast
    omega

end

end Sm8850.Qmi
