import Sm8850.Qmi.Reorder

/-! A message gives back the struct that it was made from. -/
namespace Sm8850.Qmi

open Memory List Run Nat Option Item

variable {mem out buf : Nat → UInt8} {nested : Table → (base : Nat) → Run Piece Stop Unit} {g : Group}
  {gs : List Group} {top : Bool} {table : Table} {base stale count d size i n : Nat}

section
variable (mem out : Nat → UInt8)

/-- The length of an array is kept in 32 bits. -/
def u32At (addr : Nat) : Nat := leNat (peek mem addr 4)

def fieldCount (base : Nat) (g : Group) : Nat :=
  match g.len with
  | none => entries g.payload 0
  | some l => u32At mem (base + l.offset)

/-- Strings end within their field, and no array is longer than its field. -/
def ValueOk : (d : Nat) → Table → (base : Nat) → Prop
  | 0, _, _ => True
  | d + 1, table, base => ∀ g ∈ groups table, g.present mem base = true →
      (∀ l ∈ g.len, u32At mem (base + l.offset) ≤ g.payload.elemLen) ∧
      (g.payload.dataType = .string →
        strlen mem (base + g.payload.offset) g.payload.elemLen < g.payload.elemLen) ∧
      (g.payload.dataType = .struct → ∀ i < fieldCount mem base g,
        ValueOk d g.payload.eiArray (base + g.payload.offset + i * g.payload.elemSize))

/-- Every present field has the same value in both structs: flags, lengths, the entries in use,
strings with their end, nested structs. -/
def Same : (d : Nat) → Table → (base : Nat) → Prop
  | 0, _, _ => True
  | d + 1, table, base => ∀ g ∈ groups table, g.present mem base = true →
      (∀ f ∈ g.flag, out (base + f.offset) = mem (base + f.offset)) ∧
      (∀ l ∈ g.len, u32At out (base + l.offset) = u32At mem (base + l.offset)) ∧
      (isBasic g.payload.dataType = true →
        peek out (base + g.payload.offset) (fieldCount mem base g * g.payload.elemSize) =
          peek mem (base + g.payload.offset) (fieldCount mem base g * g.payload.elemSize)) ∧
      (g.payload.dataType = .string →
        peek out (base + g.payload.offset) (strlen mem (base + g.payload.offset) g.payload.elemLen + 1) =
          peek mem (base + g.payload.offset)
            (strlen mem (base + g.payload.offset) g.payload.elemLen + 1)) ∧
      (g.payload.dataType = .struct → ∀ i < fieldCount mem base g,
        Same d g.payload.eiArray (base + g.payload.offset + i * g.payload.elemSize))

/-- A length fits in its place on the wire, and so does the number of entries of the element
before it. -/
def Piece.Kept : Piece → Prop
  | .count width addr _ stale => stale < 256 ^ width ∧ u32At mem addr < 256 ^ width
  | _ => True

/-- The message fits in the length field of its header, the lengths of arrays fit in theirs, and
flags that are set hold 1. -/
structure Recoverable (d : Nat) (table : Table) : Prop where
  total : ((topPieces mem d table 0).map (fun ps => wireSize ps + tlvHdrSize)).sum < 2 ^ 16
  kept : ∀ ps ∈ topPieces mem d table 0, ∀ p ∈ ps, p.Kept mem
  flags : ∀ g ∈ presentGroups mem table, ∀ f ∈ g.flag, mem f.offset = 1

/-- The message of `n` bytes in `buf` is decoded, to the end that its header states, and every
present field gets its value. -/
structure RoundTrips (buf : Nat → UInt8) (n d : Nat) (table : Table) : Prop where
  consumed : (qmiDecodeMessage d buf n table).res = .ok (n - qmiHeaderSize)
  header : leNat (peek buf 5 2) = n - qmiHeaderSize
  same : ∀ init, Same mem (store init (stores (qmiDecodeMessage d buf n table)).log) d table 0

end

section

/-- With a NUL within the bound, one byte more makes no difference. -/
theorem strlen_succ {addr bound : Nat} (h : strlen mem addr bound < bound) :
    strlen mem addr (bound + 1) = strlen mem addr bound ∧ mem (addr + strlen mem addr bound) = 0 := by
  induction bound generalizing addr with
  | zero => exact absurd h (Nat.not_lt_zero _)
  | succ bound ih =>
    have hstep : ∀ b, strlen mem addr (b + 1) = if mem addr = 0 then 0 else strlen mem (addr + 1) b + 1 := fun _ => rfl
    rw [hstep (bound + 1), hstep bound]
    rw [hstep bound] at h
    by_cases h0 : mem addr = 0
    · rw [if_pos h0, if_pos h0]
      exact ⟨rfl, h0⟩
    · rw [if_neg h0] at h
      rw [if_neg h0, if_neg h0]
      obtain ⟨hlen, hend⟩ := @ih (addr + 1) (by omega)
      refine ⟨by rw [hlen], ?_⟩
      rw [← hend]
      exact congrArg mem (by omega)

theorem u32At_lt {l : ElemInfo} {addr : Nat} (hsize : l.elemSize = 1 ∨ l.elemSize = 2 ∨ l.elemSize = 4)
    (h : u32At mem addr < 256 ^ dataLenSize l) : leNat (peek mem addr l.elemSize) = u32At mem addr := by
  have hwidth : dataLenSize l ≤ l.elemSize := by
    unfold dataLenSize
    split <;> omega
  exact leNat_peek_low (by omega) (lt_of_lt_of_le h (Nat.pow_le_pow_right (by omega) hwidth))

theorem storedLen_le {l : ElemInfo} (hsize : l.elemSize = 1 ∨ l.elemSize = 2 ∨ l.elemSize = 4) :
    storedLen mem base l ≤ u32At mem (base + l.offset) :=
  leNat_peek_le (by omega)

theorem groupCount_le_fieldCount (hok : GroupOk g) : groupCount mem base g ≤ fieldCount mem base g := by
  unfold groupCount fieldCount
  cases hl : g.len with
  | none => exact le_rfl
  | some l => exact storedLen_le (hok.len l (by simp [hl])).2.2

theorem copies_put {addr : Nat} {bs : List UInt8} (h : Holds mem addr bs) : Copies mem (put addr bs).log := by
  unfold put
  split
  · intro w hw
    cases hw
  · exact copies_singleton h

/-- A piece whose lengths are kept is read back, and what it leaves is what the struct holds. -/
theorem groupPieces_kept (hok : GroupOk g) (hstring : g.payload.dataType = .string →
      strlen mem (base + g.payload.offset) g.payload.elemLen < g.payload.elemLen)
    (hnested : g.payload.dataType = .struct → ∀ j < fieldCount mem base g,
      Logs (fun p => p.Kept mem → p.Clean ∧ Copies mem p.cells)
        (nested g.payload.eiArray (base + g.payload.offset + j * g.payload.elemSize))) :
    Logs (fun p => p.Kept mem → p.Clean ∧ Copies mem p.cells) (groupPieces mem nested top base stale g) := by
  have hcount : groupCount mem base g ≤ fieldCount mem base g := groupCount_le_fieldCount hok
  refine logs_groupPieces hok (fun hs width _ => ?_) (fun l hl _ hkept => ?_) (fun _ _ => ⟨trivial, ?_⟩)
    (fun hs j hj _ => hnested hs j (by omega))
  · obtain ⟨hlen, hend⟩ := strlen_succ (hstring hs)
    refine ⟨?_, copies_append.mpr ⟨copies_put ?_, copies_put ?_⟩⟩
    · show (peek mem _ _).length < g.payload.elemLen
      rw [length_peek, hlen]
      exact hstring hs
    · unfold Holds
      rw [length_peek]
    · rw [length_peek, hlen]
      exact congrArg (· :: []) hend
  · obtain ⟨hstale, hlen⟩ := hkept
    have hsame : storedLen mem base l = u32At mem (base + l.offset) :=
      u32At_lt (hok.len l hl).2.2 hlen
    refine ⟨⟨hstale, hsame ▸ hlen⟩, copies_put ?_⟩
    have hbytes := leBytes_leNat (peek mem (base + l.offset) 4)
    rw [length_peek] at hbytes
    rw [hsame, u32At, hbytes]
    unfold Holds
    rw [length_peek]
  · refine copies_put ?_
    unfold Holds
    rw [length_peek]

theorem pieces_kept (hT : WellFormed d table) (hflag : ∀ g ∈ groups table, g.flag = none)
    (hval : ValueOk mem d table base) :
    Logs (fun p => p.Kept mem → p.Clean ∧ Copies mem p.cells) (pieces mem d table base) := by
  induction d generalizing table base with
  | zero => exact hT.elim
  | succ d ih =>
    obtain ⟨-, hgroups⟩ := hT
    refine logs_groupsPieces (fun g hg stale => ?_)
    obtain ⟨hok, hstruct⟩ := hgroups g hg
    obtain ⟨-, hstring, hnested⟩ := hval g hg (by simp [Group.present, hflag g hg])
    exact groupPieces_kept hok hstring
      (fun hs j hj => ih (hstruct hs).1 (hstruct hs).2.1 (hnested hs j hj))

/-- Where the lengths of the table are expressible, a piece that is read back is kept. -/
theorem groupPieces_clean_kept (hok : GroupOk g) (hlen : ∀ l ∈ g.len, u32At mem (base + l.offset) ≤ g.payload.elemLen)
    (hexp : ∀ l ∈ g.len, g.payload.elemLen < 256 ^ dataLenSize l)
    (hnested : g.payload.dataType = .struct → ∀ j < fieldCount mem base g, Logs (fun p => p.Clean → p.Kept mem)
        (nested g.payload.eiArray (base + g.payload.offset + j * g.payload.elemSize))) :
    Logs (fun p => p.Clean → p.Kept mem) (groupPieces mem nested top base stale g) := by
  have hcount : groupCount mem base g ≤ fieldCount mem base g := groupCount_le_fieldCount hok
  exact logs_groupPieces hok (fun _ _ _ => trivial)
    (fun l hl _ hclean => ⟨hclean.1, lt_of_le_of_lt (hlen l hl) (hexp l hl)⟩) (fun _ _ => trivial) (fun hs j hj _ => hnested hs j (by omega))

theorem pieces_clean_kept (hT : WellFormed d table) (hflag : ∀ g ∈ groups table, g.flag = none)
    (hval : ValueOk mem d table base) (hexp : Expressible d table) :
    Logs (fun p => p.Clean → p.Kept mem) (pieces mem d table base) := by
  induction d generalizing table base with
  | zero => exact hT.elim
  | succ d ih =>
    obtain ⟨-, hgroups⟩ := hT
    refine logs_groupsPieces (fun g hg stale => ?_)
    obtain ⟨hok, hstruct⟩ := hgroups g hg
    obtain ⟨hlen, -, hnested⟩ := hval g hg (by simp [Group.present, hflag g hg])
    exact groupPieces_clean_kept hok hlen (hexp g hg).1 (fun hs j hj =>
      ih (hstruct hs).1 (hstruct hs).2.1 (hnested hs j hj) ((hexp g hg).2 hs))

end

section
variable {ps : List Piece}

/-- The cells that the pieces leave hold the same in both structs. -/
def Agree (mem out : Nat → UInt8) (ps : List Piece) : Prop :=
  ∀ p ∈ ps, ∀ i, Touches p.cells i → out i = mem i

theorem Agree.sub {qs : List Piece} (h : Agree mem out ps) (hsub : ∀ p ∈ qs, p ∈ ps) : Agree mem out qs :=
  fun p hp => h p (hsub p hp)

theorem structPieces_ok {nested : (base : Nat) → Run Piece Stop Unit} {elemSize addr : Nat} {u : Unit}
    (hres : (structPieces nested elemSize addr n i).res = .ok u) {j : Nat} (hlo : i ≤ j) (hj : j < i + n) :
    (∃ v, (nested (addr + j * elemSize)).res = .ok v) ∧
      ∀ p ∈ (nested (addr + j * elemSize)).log, p ∈ (structPieces nested elemSize addr n i).log := by
  induction n generalizing i with
  | zero => omega
  | succ n ih =>
    obtain ⟨v, hv, hrest, hlog⟩ := res_bind_ok hres
    rw [structPieces, hlog]
    rcases eq_or_lt_of_le hlo with rfl | hlt
    · exact ⟨⟨v, hv⟩, fun p hp => mem_append_left _ hp⟩
    · obtain ⟨hok, hsub⟩ := ih hrest hlt (by omega)
      exact ⟨hok, fun p hp => mem_append_right _ (hsub p hp)⟩

theorem groupsPieces_ok {u : Unit} (hres : (groupsPieces mem nested top base stale gs).res = .ok u)
    (hg : g ∈ gs) : ∃ s count, (groupPieces mem nested top base s g).res = .ok count ∧
      ∀ p ∈ (groupPieces mem nested top base s g).log, p ∈ (groupsPieces mem nested top base stale gs).log := by
  induction gs generalizing stale with
  | nil => cases hg
  | cons g₁ gs ih =>
    obtain ⟨count, hcount, hrest, hlog⟩ := res_bind_ok hres
    rw [groupsPieces, hlog]
    rcases mem_cons.mp hg with rfl | hg
    · exact ⟨stale, count, hcount, fun p hp => mem_append_left _ hp⟩
    · obtain ⟨s, count', hcount', hsub⟩ := ih hrest hg
      exact ⟨s, count', hcount', fun p hp => mem_append_right _ (hsub p hp)⟩

/-- The pieces of a group hold its length and, unless it is empty, its payload. -/
theorem groupPieces_parts (hres : (groupPieces mem nested top base stale g).res = .ok count) :
    (∀ l ∈ g.len, .count (dataLenSize l) (base + l.offset) (storedLen mem base l) stale ∈
      (groupPieces mem nested top base stale g).log) ∧ (0 < groupCount mem base g →
      (∃ u, (payloadPieces mem nested top base g.payload (groupCount mem base g)).res = .ok u) ∧
      ∀ p ∈ (payloadPieces mem nested top base g.payload (groupCount mem base g)).log,
        p ∈ (groupPieces mem nested top base stale g).log) := by
  cases hl : g.len with
  | none =>
    refine ⟨nofun, fun _ => ?_⟩
    simp only [groupPieces, groupCount, hl] at hres ⊢
    obtain ⟨u, hu, -, hlog⟩ := res_bind_ok hres
    rw [hlog]
    exact ⟨⟨u, hu⟩, fun p hp => mem_append_left _ hp⟩
  | some l =>
    simp only [groupPieces, groupCount, hl, log_emit_bind] at hres ⊢
    refine ⟨fun l' hl' => ?_, fun hpos => ?_⟩
    · cases hl'
      exact .head _
    · obtain ⟨-, -, hres, -⟩ := res_bind_ok hres
      rw [if_neg (by omega)] at hres ⊢
      split at hres
      · cases hres
      · rename_i hle
        rw [if_neg hle]
        obtain ⟨u, hu, -, hlog⟩ := res_bind_ok hres
        rw [hlog]
        exact ⟨⟨u, hu⟩, fun p hp => .tail _ (mem_append_left _ hp)⟩

/-- What `Same` says of a group, its flag apart. -/
theorem groupPieces_same (hok : GroupOk g) (hres : (groupPieces mem nested top base stale g).res = .ok count)
    (hkept : ∀ p ∈ (groupPieces mem nested top base stale g).log, p.Kept mem)
    (hagree : Agree mem out (groupPieces mem nested top base stale g).log) (hstring : g.payload.dataType = .string →
      strlen mem (base + g.payload.offset) g.payload.elemLen < g.payload.elemLen) {P : Nat → Prop}
    (hnested : g.payload.dataType = .struct → ∀ j < fieldCount mem base g, ∀ u,
      (nested g.payload.eiArray (base + g.payload.offset + j * g.payload.elemSize)).res = .ok u →
      (∀ p ∈ (nested g.payload.eiArray (base + g.payload.offset + j * g.payload.elemSize)).log, p.Kept mem) →
      Agree mem out (nested g.payload.eiArray (base + g.payload.offset + j * g.payload.elemSize)).log → P j) :
    (∀ l ∈ g.len, u32At out (base + l.offset) = u32At mem (base + l.offset)) ∧ (isBasic g.payload.dataType →
      peek out (base + g.payload.offset) (fieldCount mem base g * g.payload.elemSize) =
        peek mem (base + g.payload.offset) (fieldCount mem base g * g.payload.elemSize)) ∧
    (g.payload.dataType = .string →
      peek out (base + g.payload.offset) (strlen mem (base + g.payload.offset) g.payload.elemLen + 1) =
        peek mem (base + g.payload.offset) (strlen mem (base + g.payload.offset) g.payload.elemLen + 1)) ∧
    (g.payload.dataType = .struct → ∀ j < fieldCount mem base g, P j) := by
  obtain ⟨hlens, hpayload⟩ := groupPieces_parts hres
  have hcount : groupCount mem base g = fieldCount mem base g := by
    cases hl : g.len with
    | none => simp [groupCount, fieldCount, hl]
    | some l =>
      have hmem : l ∈ g.len := by simp [hl]
      simp only [groupCount, fieldCount, hl]
      exact u32At_lt (hok.len l hmem).2.2 (hkept _ (hlens l hmem)).2
  rw [hcount] at hpayload
  refine ⟨fun l hl => ?_, fun hb => ?_, fun hs => ?_, fun hs j hj => ?_⟩
  · refine congrArg leNat (peek_congr (fun i hlo hhi => ?_))
    exact hagree _ (hlens l hl) i (touches_cells.mpr ⟨hlo, hhi⟩)
  · rcases Nat.eq_zero_or_pos (fieldCount mem base g) with h0 | hpos
    · rw [h0, zero_mul, peek_zero, peek_zero]
    · have hin := (hpayload hpos).2
      rw [payloadPieces_basic hb] at hin
      refine peek_congr (fun i hlo hhi => ?_)
      refine hagree _ (hin _ (mem_singleton.mpr rfl)) i (touches_cells.mpr ⟨hlo, ?_⟩)
      rwa [length_peek]
  · have hpos : 0 < fieldCount mem base g := by
      simp only [fieldCount, hok.string hs]
      exact entries_pos hok (hok.string hs)
    obtain ⟨hlen, -⟩ := strlen_succ (hstring hs)
    have hlt := hstring hs
    have hin := (hpayload hpos).2
    rw [payloadPieces_string hs, if_neg (by omega)] at hin
    refine peek_congr (fun i hlo hhi => ?_)
    refine hagree _ (hin _ (mem_singleton.mpr rfl)) i (touches_cells.mpr ⟨hlo, ?_⟩)
    rw [length_peek, hlen]
    omega
  · obtain ⟨⟨u, hu⟩, hin⟩ := hpayload (by omega)
    rw [payloadPieces_struct hs] at hu hin
    obtain ⟨⟨v, hv⟩, hsub⟩ := structPieces_ok hu (Nat.zero_le j) (by omega)
    exact hnested hs j hj v hv (fun p hp => hkept p (hin p (hsub p hp)))
      (hagree.sub (fun p hp => hin p (hsub p hp)))

theorem pieces_same {u : Unit} (hT : WellFormed d table) (hflag : ∀ g ∈ groups table, g.flag = none)
    (hval : ValueOk mem d table base) (hres : (pieces mem d table base).res = .ok u)
    (hkept : ∀ p ∈ (pieces mem d table base).log, p.Kept mem)
    (hagree : Agree mem out (pieces mem d table base).log) : Same mem out d table base := by
  induction d generalizing table base u with
  | zero => exact hT.elim
  | succ d ih =>
    obtain ⟨-, hgroups⟩ := hT
    intro g hg hpresent
    obtain ⟨hok, hstruct⟩ := hgroups g hg
    obtain ⟨-, hstring, hnested⟩ := hval g hg hpresent
    obtain ⟨s, count, hcount, hsub⟩ := groupsPieces_ok hres hg
    refine ⟨fun f hf => ?_, groupPieces_same hok hcount (fun p hp => hkept p (hsub p hp))
      (hagree.sub hsub) hstring (fun hs j hj v hv hk ha =>
        ih (hstruct hs).1 (hstruct hs).2.1 (hnested hs j hj) hv hk ha)⟩
    rw [hflag g hg] at hf
    cases hf

end

section

/-- The pieces of groups, each with the length that the one before leaves. -/
def groupLogs (mem : Nat → UInt8) (nested : Table → (base : Nat) → Run Piece Stop Unit) (base : Nat) :
    (stale : Nat) → List Group → List (List Piece)
  | _, [] => []
  | stale, g :: gs => (groupPieces mem nested true base stale g).log :: groupLogs mem nested base (groupCount mem base g) gs

theorem tlvPieces_eq (hcounts : ∀ g ∈ gs, g.present mem base →
      ∃ count, (groupPieces mem nested true base 0 g).res = .ok count) (hok : ∀ g ∈ gs, GroupOk g) :
    tlvPieces mem nested base stale gs = groupLogs mem nested base stale (gs.filter (·.present mem base)) := by
  induction gs generalizing stale with
  | nil => rfl
  | cons g gs ih =>
    have ih := fun s => @ih s (fun g' hg' => hcounts g' (.tail _ hg'))
      (fun g' hg' => hok g' (.tail _ hg'))
    cases hpresent : g.present mem base with
    | false =>
      rw [tlvPieces, hpresent, if_neg Bool.false_ne_true, filter_cons_of_neg (by simp [hpresent])]
      exact ih stale
    | true =>
      obtain ⟨count, hcount⟩ := hcounts g (by simp) hpresent
      have hres := (groupPieces_stale mem nested true base g stale 0).1.trans hcount
      rw [tlvPieces, hpresent, if_pos rfl, filter_cons_of_pos hpresent, groupLogs,
        ← groupPieces_count (hok g (by simp)) hres, ← ih count]
      simp [hres]

theorem topPieces_eq (hT : WellFormed (d + 1) table) (hcounts : ∀ g ∈ presentGroups mem table,
      ∃ count, (groupPieces mem (pieces mem d) true 0 0 g).res = .ok count) :
    topPieces mem (d + 1) table 0 = groupLogs mem (pieces mem d) 0 0 (presentGroups mem table) :=
  tlvPieces_eq (fun g hg hp => hcounts g (mem_filter.mpr ⟨hg, hp⟩)) fun g hg => (hT.2 g hg).1

theorem forall_groupLogs : (∀ ps ∈ groupLogs mem nested base stale gs, Clean ps) ↔
    CleanItems mem nested base stale (gs.map known) := by
  induction gs generalizing stale with
  | nil => simp [groupLogs, CleanItems]
  | cons g gs ih =>
    rw [groupLogs, forall_mem_cons, ih]
    rfl

theorem groupLogs_total : ((groupLogs mem nested base stale gs).map (fun ps => wireSize ps + tlvHdrSize)).sum =
    (gs.flatMap (groupWire mem nested base)).length := by
  induction gs generalizing stale with
  | nil => rfl
  | cons g gs ih =>
    have hwires := (groupPieces_stale mem nested true base g stale 0).2.1
    rw [groupLogs, map_cons, sum_cons, ih, flatMap_cons, length_append, length_groupWire, ← length_wires, hwires,
      length_wires]

theorem mem_groupLogs (hg : g ∈ gs) (stale : Nat) :
    ∃ s, (groupPieces mem nested true base s g).log ∈ groupLogs mem nested base stale gs := by
  induction gs generalizing stale with
  | nil => cases hg
  | cons g₁ gs ih =>
    rcases mem_cons.mp hg with rfl | hg
    · exact ⟨stale, .head _⟩
    · exact (ih hg _).imp fun s hs => .tail _ hs

theorem of_mem_groupLogs {ps : List Piece} (h : ps ∈ groupLogs mem nested base stale gs) :
    ∃ g ∈ gs, ∃ s, ps = (groupPieces mem nested true base s g).log := by
  induction gs generalizing stale with
  | nil => cases h
  | cons g gs ih =>
    rcases mem_cons.mp h with rfl | h
    · exact ⟨g, by simp, stale, rfl⟩
    · obtain ⟨g', hg', hrest⟩ := ih h
      exact ⟨g', .tail _ hg', hrest⟩

/-- Whatever length is left before it, a group that is present can be encoded. -/
theorem present_counts (hcounts : ∀ g ∈ presentGroups mem table,
      ∃ count, (groupPieces mem (pieces mem d) true 0 0 g).res = .ok count) (hg : g ∈ presentGroups mem table) (s : Nat) :
    ∃ count, (groupPieces mem (pieces mem d) true 0 s g).res = .ok count :=
  (hcounts g hg).imp fun _ => (groupPieces_stale mem (pieces mem d) true 0 g s 0).1.trans

theorem cleanItems_of_replay {u : Unit}
    (hsmall : ∀ g ∈ gs, ∀ s, ∀ p ∈ (groupPieces mem nested true base s g).log, p.Small)
    (h : (replayItems mem nested base stale (gs.map known)).res = .ok u) :
    CleanItems mem nested base stale (gs.map known) := by
  induction gs generalizing stale with
  | nil => trivial
  | cons g gs ih =>
    obtain ⟨⟨v, hv⟩, hrest⟩ := replayItems_known h
    exact ⟨clean_of_replay (hsmall g (by simp) stale) hv, ih (fun g' hg' => hsmall g' (.tail _ hg')) hrest⟩

theorem groupPieces_clean_zero (h : Clean (groupPieces mem nested top base stale g).log) :
    Clean (groupPieces mem nested top base 0 g).log := by
  cases hl : g.len with
  | none =>
    simp only [groupPieces, hl] at h ⊢
    exact h
  | some l =>
    simp only [groupPieces, hl, log_emit_bind] at h ⊢
    obtain ⟨hcount, hrest⟩ := forall_mem_cons.mp h
    exact forall_mem_cons.mpr ⟨⟨Nat.pow_pos (by omega), hcount.2⟩, hrest⟩

theorem cleanItems_zero {items : List Item} (h : CleanItems mem nested base stale items)
    (hg : .known g ∈ items) : Clean (groupPieces mem nested true base 0 g).log := by
  induction items generalizing stale with
  | nil => cases hg
  | cons item items ih =>
    cases item with
    | extra t bs => exact ih h ((mem_cons.mp hg).resolve_left (fun he => by cases he))
    | known g₁ =>
      rcases mem_cons.mp hg with he | hg
      · cases he
        exact groupPieces_clean_zero h.1
      · exact ih h.2 hg

/-- The bytes that `qmi_encode_message` produces. -/
theorem qmiEncodeMessage_ok {type : UInt8} {msgId len txnId : Nat} (hT : WellFormed (d + 1) table)
    (htop : TopTypes table) (hmax : maxWire (d + 1) table < 2 ^ 31)
    (hres : (qmiEncodeMessage mem (d + 1) type msgId len txnId table).res = .ok n) (m₀ : Nat → UInt8) :
    (∀ g ∈ presentGroups mem table, ∃ count, (groupPieces mem (pieces mem d) true 0 0 g).res = .ok count) ∧
    n = qmiHeaderSize + (messageWire mem (pieces mem d) 0 (groups table)).length ∧
    Holds (store m₀ (outCells (qmiEncodeMessage mem (d + 1) type msgId len txnId table).log)) qmiHeaderSize
      (messageWire mem (pieces mem d) 0 (groups table)) ∧
    leNat (peek (store m₀ (outCells (qmiEncodeMessage mem (d + 1) type msgId len txnId table).log)) 5 2) =
      (messageWire mem (pieces mem d) 0 (groups table)).length % 2 ^ 16 := by
  obtain ⟨msglen, hmsg, hn, hlog⟩ := res_bind_ok hres
  cases hn
  obtain ⟨hcounts, hwrote⟩ := qmiEncode_ok hT htop hmax (mod_lt _ (by decide)) hmsg
  have hlen := Nat.add_left_cancel hwrote.length
  have hhdr := wrote_singleton 0 (type :: leBytes 2 txnId ++ leBytes 2 msgId ++ leBytes 2 msglen)
  simp only [length_append, length_cons, length_leBytes] at hhdr
  have hall := ((hhdr.append hwrote).perm perm_append_comm).holds m₀
  obtain ⟨hfront, hbody⟩ := holds_append.mp hall
  obtain ⟨-, hlast⟩ := holds_append.mp hfront
  simp only [length_append, length_cons, length_leBytes] at hlast hbody
  unfold qmiEncodeMessage
  rw [hlog, ← hlen]
  refine ⟨fun g hg => hcounts g (mem_filter.mp hg).1 (mem_filter.mp hg).2, rfl, hbody, ?_⟩
  unfold Holds at hlast
  rw [length_leBytes] at hlast
  exact (congrArg leNat hlast).trans (leNat_leBytes _ _)

end

section

theorem length_groupWire_le (hg : g ∈ presentGroups mem table) :
    wireSize (groupPieces mem (pieces mem d) true 0 0 g).log ≤
      (messageWire mem (pieces mem d) 0 (groups table)).length := by
  have hone := le_sum_of_mem
    (mem_map_of_mem (f := fun g => (groupWire mem (pieces mem d) 0 g).length) hg)
  rw [length_groupWire] at hone
  rw [messageWire, length_flatMap]
  exact le_trans (Nat.le_add_right _ _) hone

/-- `qmi_decode_message` of the message of a struct. -/
theorem stores_message (hT : WellFormed (d + 1) table) (htop : TopTypes table) (henc : Encodes mem d table)
    (hholds : Holds buf qmiHeaderSize (messageWire mem (pieces mem d) 0 (groups table)))
    (hlen : (messageWire mem (pieces mem d) 0 (groups table)).length < 2 ^ 32)
    (hn : n = qmiHeaderSize + (messageWire mem (pieces mem d) 0 (groups table)).length)
    (hclean : CleanItems mem (pieces mem d) 0 0 ((presentGroups mem table).map known) ∨
      Expressible (d + 1) table) : stores (qmiDecodeMessage (d + 1) buf n table) =
      replayItems mem (pieces mem d) 0 0 ((presentGroups mem table).map known) >>= fun _ =>
        pure (n - qmiHeaderSize) := by
  have hne : table ≠ [] := by
    obtain ⟨⟨e, htable, -⟩, -⟩ := hT
    rw [htable]
    exact append_ne_nil_of_right_ne_nil _ (cons_ne_nil _ _)
  have hheader : 0 < qmiHeaderSize := by decide
  have hwire : messageWire mem (pieces mem d) 0 (groups table) =
      itemsWire mem (pieces mem d) 0 ((presentGroups mem table).map known) :=
    (itemsWire_known _).symm
  have hitems := qmiDecode_items hT htop henc (arrangement_known (List.Perm.refl _)) (hwire ▸ hholds)
    (hwire ▸ hlen) hclean
  rw [qmiDecodeMessage, if_neg hne, if_neg (by omega), sub32_eq (by omega) (by omega), hn,
    Nat.add_sub_cancel_left, hwire]
  exact hitems

theorem copies_flatMap {ps : List Piece} (h : ∀ p ∈ ps, Copies mem p.cells) : Copies mem (ps.flatMap Piece.cells) := by
  intro w hw
  obtain ⟨p, hp, hw⟩ := mem_flatMap.mp hw
  exact h p hp w hw

section
variable (hT : WellFormed (d + 1) table)
include hT

theorem groupPieces_kept_top (hval : ValueOk mem (d + 1) table 0)
    (hg : g ∈ presentGroups mem table) (stale : Nat) : Logs (fun p => p.Kept mem → p.Clean ∧ Copies mem p.cells)
      (groupPieces mem (pieces mem d) true 0 stale g) := by
  obtain ⟨hmem, hpresent⟩ := mem_filter.mp hg
  obtain ⟨hok, hstruct⟩ := hT.2 g hmem
  obtain ⟨-, hstring, hnested⟩ := hval g hmem hpresent
  exact groupPieces_kept hok hstring
    (fun hs j hj => pieces_kept (hstruct hs).1 (hstruct hs).2.1 (hnested hs j hj))

/-- With every length kept, all that the TLVs leave is what the struct holds. -/
theorem copies_message (hval : ValueOk mem (d + 1) table 0)
    (henc : Encodes mem d table) (hrec : Recoverable mem (d + 1) table) :
    Copies mem ((presentGroups mem table).flatMap (groupCells mem (pieces mem d) 0)) := by
  intro w hw
  obtain ⟨g, hg, hw⟩ := mem_flatMap.mp hw
  rcases mem_append.mp hw with hw | hw
  · unfold putFlag at hw
    split at hw
    · cases hw
    · rename_i f hf
      have hone : mem (0 + f.offset) = 1 := by
        rw [zero_add]
        exact hrec.flags g hg f (by simp [hf])
      have hholds : Holds mem (0 + f.offset) [1] := congrArg (· :: []) hone
      exact copies_put hholds w hw
  · obtain ⟨s, hs⟩ := mem_groupLogs hg 0
    rw [← topPieces_eq hT henc.counts] at hs
    obtain ⟨count, hres⟩ := present_counts henc.counts hg s
    rw [← (groupPieces_stale mem (pieces mem d) true 0 g s 0).2.2] at hw
    refine copies_flatMap (fun p hp => ?_) w hw
    exact (groupPieces_kept_top hT hval hg s count hres p hp (hrec.kept _ hs p hp)).2

/-- A flag ends up as 1. -/
theorem store_flag {f : ElemInfo} (hfit : FieldsFit (d + 1) table size)
    (htop : TopTypes table) (henc : Encodes mem d table)
    (hclean : ∀ g ∈ presentGroups mem table, Clean (groupPieces mem (pieces mem d) true 0 0 g).log)
    (hg : g ∈ presentGroups mem table) (hf : f ∈ g.flag) (init : Nat → UInt8) :
    store init ((presentGroups mem table).flatMap (groupCells mem (pieces mem d) 0)) f.offset = 1 := by
  have hmem : g ∈ groups table := (mem_filter.mp hg).1
  obtain ⟨hok, hstruct⟩ := hT.2 g hmem
  have hflag : (putFlag 0 g).log = [(f.offset, [1])] := by
    simp only [putFlag, mem_def.mp hf, zero_add]
    rfl
  have htouch : Touches (groupCells mem (pieces mem d) 0 g) f.offset := by
    refine touches_append.mpr (.inl ?_)
    rw [hflag]
    exact ⟨_, mem_singleton.mpr rfl, le_rfl, lt_succ_self _⟩
  -- The data of the group is in other fields than its flag.
  have hdata : ¬ Touches ((groupPieces mem (pieces mem d) true 0 0 g).log.flatMap Piece.cells) f.offset := by
    intro hi
    obtain ⟨p, hp, hi⟩ := touches_flatMap.mp hi
    obtain ⟨count, hcount⟩ := henc.counts g hg
    obtain ⟨ei, hei, hlo, hhi⟩ := groupPieces_inData hok
      (fun hs b => pieces_inside (hstruct hs).1 ((hfit.2 g hmem).2 hs)) count hcount p hp (hclean g hg p hp)
      f.offset hi
    obtain ⟨⟨e, htable, -⟩, -⟩ := hT
    have hfields : FieldsDisjoint fieldSize ((groups table).flatMap Group.elems ++ [e]) := htable ▸ hfit.1
    have helems := (pairwise_flatMap.mp (pairwise_append.mp hfields).1).1 g hmem
    have hdisj := (pairwise_append.mp helems).2.2 f (mem_toList.mpr hf) ei hei
    have hpos := (hok.field f (by simp [Group.elems, mem_def.mp hf])).nonempty
    have hsize : fieldSize f = f.elemLen * f.elemSize := by
      rw [fieldSize, if_neg (by simp [(hok.flag f hf).1])]
    omega
  have hgroup : ∀ m, store m (groupCells mem (pieces mem d) 0 g) f.offset = 1 := by
    intro m
    rw [groupCells, store_append, store_outside hdata, hflag]
    have hcell : poke m f.offset [(1 : UInt8)] (f.offset + 0) = [(1 : UInt8)][0] := poke_inside (by decide)
    exact hcell
  obtain ⟨a, b, hab⟩ := append_of_mem hg
  have hnodup : (presentGroups mem table).Nodup := presentGroups_nodup htop
  have hother : ¬ Touches (b.flatMap (groupCells mem (pieces mem d) 0)) f.offset := by
    rintro ⟨w, hw, hin⟩
    obtain ⟨g', hg', hw⟩ := mem_flatMap.mp hw
    have hne : g ≠ g' := by
      rintro rfl
      rw [hab] at hnodup
      exact (nodup_cons.mp (nodup_append.mp hnodup).2.1).1 hg'
    have hin' : g' ∈ presentGroups mem table := by
      rw [hab]
      exact mem_append_right _ (.tail _ hg')
    exact groupCells_disjoint hT hfit henc hclean hg hin' hne f.offset ⟨htouch, w, hw, hin⟩
  rw [hab, flatMap_append, flatMap_cons, store_append, store_append, store_outside hother]
  exact hgroup _

end

/-- What `qmi_encode_message` leaves in the `n` bytes of `buf`. -/
structure Encoded (mem buf : Nat → UInt8) (d n : Nat) (table : Table) : Prop where
  counts : ∀ g ∈ presentGroups mem table, ∃ count, (groupPieces mem (pieces mem d) true 0 0 g).res = .ok count
  length : n = qmiHeaderSize + (messageWire mem (pieces mem d) 0 (groups table)).length
  holds : Holds buf qmiHeaderSize (messageWire mem (pieces mem d) 0 (groups table))
  header : leNat (peek buf 5 2) = (messageWire mem (pieces mem d) 0 (groups table)).length % 2 ^ 16

section
variable (hT : WellFormed (d + 1) table) (htop : TopTypes table) (hval : ValueOk mem (d + 1) table 0)
  (h : Encoded mem buf d n table)
include hT htop hval h

theorem roundTrips_of_recoverable (hrec : Recoverable mem (d + 1) table) : RoundTrips mem buf n (d + 1) table := by
  have hn := h.length
  have htotal := hrec.total
  rw [topPieces_eq hT h.counts, groupLogs_total] at htotal
  change (messageWire mem (pieces mem d) 0 (groups table)).length < 2 ^ 16 at htotal
  have henc : Encodes mem d table :=
    ⟨h.counts, fun g hg => lt_of_le_of_lt (length_groupWire_le hg) htotal⟩
  have hclean : CleanItems mem (pieces mem d) 0 0 ((presentGroups mem table).map known) := by
    refine forall_groupLogs.mp (fun ps hps p hp => ?_)
    have hkept := hrec.kept ps (topPieces_eq hT h.counts ▸ hps) p hp
    obtain ⟨g, hg, s, rfl⟩ := of_mem_groupLogs hps
    obtain ⟨count, hres⟩ := present_counts h.counts hg s
    exact (groupPieces_kept_top hT hval hg s count hres p hp hkept).1
  have hstores := stores_message hT htop henc h.holds (by omega) hn (.inl hclean)
  rw [replayItems_clean hclean, filterMap_known] at hstores
  have hlog : (stores (qmiDecodeMessage (d + 1) buf n table)).log =
      (presentGroups mem table).flatMap (groupCells mem (pieces mem d) 0) := by
    rw [hstores]
    exact append_nil _
  have hcopies := copies_message hT hval henc hrec
  refine ⟨congrArg res hstores, ?_, fun init g hg hgp => ?_⟩
  · rw [h.header, mod_eq_of_lt htotal]
    omega
  · have hmem : g ∈ presentGroups mem table := mem_filter.mpr ⟨hg, hgp⟩
    have hcell : ∀ i, Touches (groupCells mem (pieces mem d) 0 g) i →
        store init (stores (qmiDecodeMessage (d + 1) buf n table)).log i = mem i := by
      rintro i ⟨w, hw, hin⟩
      rw [hlog]
      exact store_copies hcopies ⟨w, mem_flatMap.mpr ⟨g, hmem, hw⟩, hin⟩
    obtain ⟨hok, hstruct⟩ := hT.2 g hg
    obtain ⟨-, hstring, hnested⟩ := hval g hg hgp
    obtain ⟨s, hs⟩ := mem_groupLogs hmem 0
    rw [← topPieces_eq hT h.counts] at hs
    obtain ⟨count, hres⟩ := present_counts h.counts hmem s
    refine ⟨fun f hf => hcell _ (touches_append.mpr (.inl ?_)),
      groupPieces_same hok hres (hrec.kept _ hs) (fun p hp i hi => hcell i ?_) hstring
        (fun hst j hj v hv hk ha =>
          pieces_same (hstruct hst).1 (hstruct hst).2.1 (hnested hst j hj) hv hk ha)⟩
    · simp only [putFlag, mem_def.mp hf]
      exact touches_put.mpr ⟨le_rfl, lt_succ_self _⟩
    · refine touches_append.mpr (.inr ?_)
      rw [← (groupPieces_stale mem (pieces mem d) true 0 g s 0).2.2]
      exact touches_flatMap.mpr ⟨p, hp, hi⟩

theorem recoverable_of_roundTrips (hfit : FieldsFit (d + 1) table size) (hexp : Expressible (d + 1) table)
    (hrt : RoundTrips mem buf n (d + 1) table) : Recoverable mem (d + 1) table := by
  have hn := h.length
  have htotal : (messageWire mem (pieces mem d) 0 (groups table)).length < 2 ^ 16 := by
    have hlen := hrt.header
    rw [h.header, hn, Nat.add_sub_cancel_left] at hlen
    rw [← hlen]
    exact mod_lt _ (by decide)
  have henc : Encodes mem d table :=
    ⟨h.counts, fun g hg => lt_of_le_of_lt (length_groupWire_le hg) htotal⟩
  have hstores := stores_message hT htop henc h.holds (by omega) hn (.inr hexp)
  obtain ⟨u, hu, -⟩ := res_bind_ok ((congrArg res hstores).symm.trans hrt.consumed)
  have hclean : CleanItems mem (pieces mem d) 0 0 ((presentGroups mem table).map known) := by
    refine cleanItems_of_replay (fun g hg s => ?_) hu
    have hmem : g ∈ groups table := (mem_filter.mp hg).1
    obtain ⟨hok, hstruct⟩ := hT.2 g hmem
    obtain ⟨count, hres⟩ := present_counts h.counts hg s
    exact groupPieces_small hok (hexp g hmem).1
      (fun hs _ => pieces_small (hstruct hs).1 ((hexp g hmem).2 hs)) count hres
  have hzero : ∀ g ∈ presentGroups mem table, Clean (groupPieces mem (pieces mem d) true 0 0 g).log :=
    fun g hg => cleanItems_zero hclean (mem_map_of_mem hg)
  refine ⟨?_, fun ps hps p hp => ?_, fun g hg f hf => ?_⟩
  · rw [topPieces_eq hT h.counts, groupLogs_total]
    exact htotal
  · rw [topPieces_eq hT h.counts] at hps
    have hpclean := forall_groupLogs.mpr hclean ps hps p hp
    obtain ⟨g, hg, s, rfl⟩ := of_mem_groupLogs hps
    obtain ⟨hmem, hgp⟩ := mem_filter.mp hg
    obtain ⟨hok, hstruct⟩ := hT.2 g hmem
    obtain ⟨hlen, -, hnested⟩ := hval g hmem hgp
    obtain ⟨count, hres⟩ := present_counts h.counts hg s
    exact groupPieces_clean_kept hok hlen (hexp g hmem).1 (fun hs j hj => pieces_clean_kept (hstruct hs).1
      (hstruct hs).2.1 (hnested hs j hj) ((hexp g hmem).2 hs)) count hres p hp hpclean
  · obtain ⟨hmem, hgp⟩ := mem_filter.mp hg
    have hsame := (hrt.same mem g hmem hgp).1 f hf
    rw [hstores, replayItems_clean hclean, filterMap_known] at hsame
    have hone := store_flag hT hfit htop henc hzero hg hf mem
    rw [zero_add] at hsame
    rw [← hsame, ← hone]
    exact congrArg (fun ws => store mem ws f.offset) (append_nil _)

end

end

/-- What `qmi_encode_message` makes of a struct is decoded and gives every present field its value
back, if the message fits in the length of its header, every array length and the number of
entries of the element before it fit in the length of the array on the wire, and flags that are set
hold 1; where the lengths of the table are expressible, only then. -/
theorem encoded_message_round_trips (d size : Nat) (table : Table) (hT : WellFormed (d + 1) table)
    (htop : TopTypes table) (hfit : FieldsFit (d + 1) table size)
    (hmax : maxWire (d + 1) table < 2 ^ 31) (mem m₀ : Nat → UInt8) (hval : ValueOk mem (d + 1) table 0)
    (type : UInt8) (msgId len txnId n : Nat)
    (hres : (qmiEncodeMessage mem (d + 1) type msgId len txnId table).res = .ok n) :
    (Recoverable mem (d + 1) table → RoundTrips mem
      (store m₀ (outCells (qmiEncodeMessage mem (d + 1) type msgId len txnId table).log)) n (d + 1) table) ∧
    (Expressible (d + 1) table → RoundTrips mem
      (store m₀ (outCells (qmiEncodeMessage mem (d + 1) type msgId len txnId table).log)) n (d + 1) table →
        Recoverable mem (d + 1) table) := by
  obtain ⟨hcounts, hn, hholds, hheader⟩ := qmiEncodeMessage_ok hT htop hmax hres m₀
  have h : Encoded mem _ d n table := ⟨hcounts, hn, hholds, hheader⟩
  exact ⟨roundTrips_of_recoverable hT htop hval h, recoverable_of_roundTrips hT htop hval h hfit⟩

section
variable {k : Nat}

/-- A block of `k` bytes, and at most two bytes. -/
def swappedTable (k : Nat) : Table := [blockEi k, lenEi, bytesEi, endEi]

theorem mem_swappedTable (hg : g ∈ groups (swappedTable k)) : g ∈ groups (pairTable k) :=
  (List.Perm.swap bytesGroup (blockGroup k) []).mem_iff.mp hg

theorem swappedTable_wellFormed (hpos : 0 < k) (hk : k < 2 ^ 31) : WellFormed 1 (swappedTable k) :=
  ⟨⟨endEi, rfl, rfl⟩, fun g hg => (pairTable_wellFormed hpos hk).2 g (mem_swappedTable hg)⟩

theorem swappedTable_topTypes (k : Nat) : TopTypes (swappedTable k) where
  same := fun g hg => (pairTable_topTypes k).same g (mem_swappedTable hg)
  distinct := pairwise_pair.mpr (show (2 : UInt8) ≠ 1 by decide)
  last := by
    intro e he htype g hg
    refine (pairTable_topTypes k).last e ?_ htype g (mem_swappedTable hg)
    simp only [swappedTable, pairTable, mem_cons, not_mem_nil, or_false] at he ⊢
    tauto

theorem swappedTable_fieldsFit (k : Nat) : FieldsFit 1 (swappedTable k) (8 + k) := by
  refine ⟨?_, fun g hg => (pairTable_fieldsFit k).2 g (mem_swappedTable hg)⟩
  simp [FieldsDisjoint, swappedTable, lenEi, bytesEi, blockEi, endEi, fieldSize]

theorem oneByte_valueOk (k : Nat) : ValueOk oneByte 1 (swappedTable k) 0 := by
  intro g hg _
  rcases mem_cons.mp (show g ∈ [blockGroup k, bytesGroup] from hg) with rfl | hg
  · exact ⟨nofun, nofun, nofun⟩
  · cases mem_singleton.mp hg
    refine ⟨fun l hl => ?_, nofun, nofun⟩
    cases hl
    decide

theorem oneByte_recoverable : Recoverable oneByte 1 (swappedTable 4) where
  total := by decide
  kept := by
    intro ps hps p hp
    rcases mem_cons.mp
      (show ps ∈ [[.data 8 [0, 0, 0, 0]], [.count 1 0 1 4, .data 4 [0]]] from hps) with rfl | hps
    · cases mem_singleton.mp hp
      trivial
    · cases mem_singleton.mp hps
      rcases mem_cons.mp hp with rfl | hp
      · exact ⟨by decide, by decide⟩
      · cases mem_singleton.mp hp
        trivial
  flags := by
    intro g hg f hf
    rcases mem_cons.mp (show g ∈ [blockGroup 4, bytesGroup] from hg) with rfl | hg
    · cases hf
    · cases mem_singleton.mp hg
      cases hf

theorem oneByte_round_trips : (qmiEncodeMessage oneByte 1 0 32 16 1 (swappedTable 4)).res = .ok 19 ∧
      RoundTrips oneByte (store (fun _ => 0)
        (outCells (qmiEncodeMessage oneByte 1 0 32 16 1 (swappedTable 4)).log)) 19 1 (swappedTable 4) :=
  ⟨rfl, (encoded_message_round_trips 0 12 (swappedTable 4) (swappedTable_wellFormed (by decide) (by decide))
    (swappedTable_topTypes 4) (swappedTable_fieldsFit 4) (by decide) oneByte (fun _ => 0) (oneByte_valueOk 4)
    0 32 16 1 19 rfl).1 oneByte_recoverable⟩

/-- Behind a block of 256 bytes the length 1 is read as 257. -/
theorem oneByte_behind_block :
    WellFormed 1 (swappedTable 256) ∧ TopTypes (swappedTable 256) ∧ FieldsFit 1 (swappedTable 256) 264 ∧
      ValueOk oneByte 1 (swappedTable 256) 0 ∧
      (qmiEncodeMessage oneByte 1 0 32 300 1 (swappedTable 256)).res = .ok 271 ∧ (qmiDecodeMessage 1 (store (fun _ => 0)
        (outCells (qmiEncodeMessage oneByte 1 0 32 300 1 (swappedTable 256)).log)) 271
          (swappedTable 256)).res = .error (.err (-ETOOSMALL)) := by
  refine ⟨swappedTable_wellFormed (by decide) (by decide), swappedTable_topTypes 256,
    swappedTable_fieldsFit 256, oneByte_valueOk 256, rfl, ?_⟩
  decide +kernel

end

end Sm8850.Qmi
