import Sm8850.Iopt.Scatter
import Sm8850.Iopt.Refine

/-! `qcom_arm_lpae_map_sg` against mapping the pages of the list one at a time. -/
namespace Sm8850.Iopt
open TableTree Lts List Nat

variable {d : Data} {hg : Geom d} {s s' s₀ : State} {x y k n : Nat}

/-! ### The loops -/

/-- A part of the call has mapped more chunks after `sg`, with the bytes of `phys`, at most `size`
of them and, without an error, all of them if `whole`. -/
def Progress (hg : Geom d) (prot : U64) (iova : Nat) (s₀ : State) (sg : List Piece) (phys : Nat → Option Nat)
    (size : Nat) (whole : Prop) (s : State) (err : Option Errno) (mapped : Nat) : Prop :=
  ∃ l, Scattered hg prot iova s₀ (sg ++ l) s ∧ mapped = sgLength sg + sgLength l ∧ sgLength l ≤ size ∧
    (∀ off < sgLength l, sgPhys l off = phys off) ∧ (err = none → whole → sgLength l = size)

section
variable {iova : Nat} {prot : U64} {sg l : List Piece} {phys phys' : Nat → Option Nat} {size size' mapped : Nat}
  {whole : Prop} {err : Option Errno}

theorem Scattered.progress_nil (h : Scattered hg prot iova s₀ sg s) (hw : err = none → whole → size = 0) :
    Progress hg prot iova s₀ sg phys size whole s err (sgLength sg) := by
  refine ⟨[], by rwa [append_nil], rfl, Nat.zero_le _, nofun, ?_⟩
  exact fun h₁ h₂ => (hw h₁ h₂).symm

/-- What comes after chunks of `size` bytes. -/
theorem Progress.after (h : Progress hg prot iova s₀ (sg ++ l) phys' size' whole s err mapped)
    (hl : ∀ off < sgLength l, sgPhys l off = phys off)
    (hphys : ∀ off, phys' off = phys (sgLength l + off)) (hsize : size = sgLength l + size') :
    Progress hg prot iova s₀ sg phys size whole s err mapped := by
  obtain ⟨l', hsc, hm, hle, hbytes, hall⟩ := h
  refine ⟨l ++ l', by rwa [← append_assoc], ?_, ?_, fun off hoff => ?_, fun h₁ h₂ => ?_⟩
  · rw [hm, sgLength_append, sgLength_append, add_assoc]
  · rw [sgLength_append]
    omega
  · rw [sgLength_append] at hoff
    rw [sgPhys_append]
    split
    · rename_i hlt
      exact hl off hlt
    · rw [hbytes _ (by omega), hphys]
      congr 1
      omega
  · rw [sgLength_append, hall h₁ h₂, hsize]

end

section
variable {iova : Nat} {sg : List Piece} [Fact (Fits d)] (hI : Inv hg s₀)
include hI

theorem mapBySizeLoop_progress {prot : U64} (hprot : iopteVal prot = 0) {fuel p size : Nat} {ms : MapState}
    (hsc : Scattered hg prot iova s₀ sg s) (hx : x = iova + sgLength sg) (hcache : CacheOk hg s x ms)
    (hxal : d.blockSize 3 ∣ x) (hpal : d.blockSize 3 ∣ p) (hsal : d.blockSize 3 ∣ size) (hfuel : size ≤ fuel)
    (hin : ∀ y, x ≤ y → y < x + size → d.InRange y) (hpa : p + size ≤ 2 ^ d.paBits) :
    let r := mapBySizeLoop d prot fuel s x p size (sgLength sg) ms
    Progress hg prot iova s₀ sg (fun off => some (p + off)) size True r.1 r.2.1 r.2.2.1 ∧
      (r.2.1 = none → CacheOk hg r.1 (x + size) r.2.2.2) := by
  induction fuel generalizing s sg x p size ms with
  | zero =>
    obtain rfl : size = 0 := by omega
    exact ⟨hsc.progress_nil fun _ _ => rfl, fun _ => hcache⟩
  | succ fuel ih =>
    rw [mapBySizeLoop_succ]
    by_cases h0 : size = 0
    · rw [if_pos h0]
      subst h0
      exact ⟨hsc.progress_nil fun _ _ => rfl, fun _ => hcache⟩
    · rw [if_neg h0]
      have hp64 : p < 2 ^ 64 := by
        have : 2 ^ d.paBits ≤ 2 ^ 52 := Nat.pow_le_pow_right (by omega) (by unfold Data.paBits; split <;> omega)
        omega
      have hx64 : x < 2 ^ 64 := InRange.lt hg (hin x le_rfl (by omega))
      obtain ⟨n, hn, hbit, hle, hxn, hpn⟩ := choosePgsize_spec hg hxal hpal hsal (by omega) hx64 hp64
      rw [hn]
      have hdvd := minPage_dvd hg hbit
      have hat : ChunkAt d x p (2 ^ n) :=
        ⟨Nat.two_pow_pos n, hxn, hpn, fun y h₁ h₂ => hin y h₁ (by omega), by omega⟩
      have hend := chunkStep_end (hsc.inv hprot hI) hprot hat hcache hbit rfl
      generalize chunkStep d prot s (2 ^ n) x p ms = res at hend ⊢
      cases hend with
      | fail e ms' hgrow =>
        refine ⟨Scattered.progress_nil (.stop hsc (hx ▸ hgrow)) ?_, ?_⟩
        · intro h
          cases h
        · intro h
          cases h
      | @mapped s₁ ms' hchunk hcache' =>
        have hsc' : Scattered hg prot iova s₀ (sg ++ [⟨p, 2 ^ n⟩]) s₁ := .chunk hsc (hx ▸ hchunk)
        have hlen : sgLength sg + 2 ^ n = sgLength (sg ++ [⟨p, 2 ^ n⟩]) := by simp
        obtain ⟨hprog, hnext⟩ := ih hsc' (by rw [← hlen, hx, add_assoc]) hcache' (Nat.dvd_add hxal hdvd)
          (Nat.dvd_add hpal hdvd) (Nat.dvd_sub hsal hdvd) (by have := Nat.two_pow_pos n; omega)
          (fun y h₁ h₂ => hin y (by omega) (by omega)) (by omega)
        rw [hlen]
        have hone : ∀ off < sgLength [(⟨p, 2 ^ n⟩ : Piece)], sgPhys [⟨p, 2 ^ n⟩] off = some (p + off) := by
          intro off hoff
          rw [sgPhys, if_pos (by simpa using hoff)]
        refine ⟨hprog.after hone (fun off => ?_) ?_, fun h => ?_⟩
        · simp [add_assoc]
        · simp
          omega
        · have := hnext h
          rwa [show x + 2 ^ n + (size - 2 ^ n) = x + size by omega] at this

variable {prot : Prot} (haccess : (prot.read || prot.write) = true)
include haccess

theorem mapByPgsize_progress (start len : Nat) {ms : MapState}
    (hsc : Scattered hg (protToPte d prot) iova s₀ sg s) (hcache : CacheOk hg s (iova + sgLength sg) ms)
    (hin : ∀ y, iova + sgLength sg ≤ y → y < iova + sgLength sg + len → d.InRange y) :
    let r := mapByPgsize d s (iova + sgLength sg) start len (sgLength sg) prot ms
    Progress hg (protToPte d prot) iova s₀ sg (fun off => some (start + off)) len True r.1 r.2.1 r.2.2.1 ∧
      (r.2.1 = none → CacheOk hg r.1 (iova + sgLength sg + len) r.2.2.2) := by
  have hfail : ∀ e : Errno, Progress hg (protToPte d prot) iova s₀ sg (fun off => some (start + off)) len True s
      (some e) (sgLength sg) ∧ (some e = none → CacheOk hg s (iova + sgLength sg + len) ms) := by
    intro e
    refine ⟨hsc.progress_nil ?_, ?_⟩
    · intro h
      cases h
    · intro h
      cases h
  unfold mapByPgsize
  by_cases hal : ((iova + sgLength sg) ||| start ||| len) % 2 ^ ffs d.cfg.pgsizeBitmap ≠ 0
  · rw [if_pos hal]
    exact hfail _
  · rw [if_neg hal]
    rw [not_not, minPage_eq hg] at hal
    obtain ⟨hal', hlal⟩ := two_pow_dvd_or.mp (dvd_of_mod_eq_zero hal)
    obtain ⟨hxal, hpal⟩ := two_pow_dvd_or.mp hal'
    by_cases hr : iaext d (iova + sgLength sg + len - 1) ≠ 0 ∨ (start + len - 1) / 2 ^ d.cfg.oas ≠ 0
    · rw [if_pos hr]
      exact hfail _
    · obtain ⟨-, hoas⟩ := not_or.mp hr
      rw [if_neg hr, if_neg (by simp [haccess])]
      have hlt : start + len - 1 < 2 ^ d.cfg.oas := by
        rwa [not_not, div_eq_zero_iff_lt (Nat.two_pow_pos _)] at hoas
      have hpa : 2 ^ d.cfg.oas ≤ 2 ^ d.paBits := Nat.pow_le_pow_right (by omega) hg.oas
      exact mapBySizeLoop_progress hI (iopteVal_protToPte d prot) hsc rfl hcache hxal hpal hlal le_rfl hin (by omega)

/-- The loop over the pieces, of which the last one comes twice. `start` and `len` are the run of
pieces before them. -/
theorem mapSgLoop_progress (rest : List Piece) (last : Piece) (start len : Nat) {ms : MapState}
    (hsc : Scattered hg (protToPte d prot) iova s₀ sg s) (hcache : CacheOk hg s (iova + sgLength sg) ms)
    (hend : rest = [] → last.phys + last.length = start + len) (hlast : rest ≠ [] → rest.getLast? = some last)
    (hin : ∀ y, iova + sgLength sg ≤ y → y < iova + sgLength sg + (len + sgLength rest) → d.InRange y) :
    let r := mapSgLoop d iova prot (rest ++ [last]) s start len (sgLength sg) ms
    Progress hg (protToPte d prot) iova s₀ sg (sgPhys (⟨start, len⟩ :: rest)) (len + sgLength rest)
      (0 < last.length) r.1 r.2.1 r.2.2 := by
  induction rest generalizing s sg start len ms with
  | nil =>
    have hend := hend rfl
    rw [nil_append, mapSgLoop]
    have hrun : ∀ off < len, some (start + off) = sgPhys [⟨start, len⟩] off := by
      intro off hoff
      rw [sgPhys, if_pos hoff]
    by_cases hflush : len ≠ 0 ∧ last.phys ≠ start + len
    · rw [if_pos hflush]
      obtain ⟨⟨l, hl, hm, hle, hbytes, hall⟩, -⟩ := mapByPgsize_progress hI haccess start len hsc hcache
        (fun y h₁ h₂ => hin y h₁ (by rw [sgLength_nil]; omega))
      generalize mapByPgsize d s (iova + sgLength sg) start len (sgLength sg) prot ms = res at hl hm hall ⊢
      obtain ⟨s₁, err, m, ms'⟩ := res
      have hdone : Progress hg (protToPte d prot) iova s₀ sg (sgPhys [⟨start, len⟩]) (len + sgLength [])
          (0 < last.length) s₁ err m := by
        refine ⟨l, hl, hm, by rw [sgLength_nil]; omega, fun off hoff => ?_, fun h _ => ?_⟩
        · exact (hbytes off hoff).trans (hrun off (by omega))
        · rw [hall h trivial, sgLength_nil, add_zero]
      cases err with
      | none => exact hdone
      | some e => exact hdone
    · -- nothing is pending, or the last piece was empty
      rw [if_neg hflush]
      have hnone : 0 < last.length → len + sgLength [] = 0 := by
        intro hpos
        by_contra hne
        exact hflush ⟨by simpa using hne, by omega⟩
      split
      · exact hsc.progress_nil fun _ h => hnone h
      · exact hsc.progress_nil fun _ h => hnone h
  | cons p rest ih =>
    have hlast' : rest ≠ [] → rest.getLast? = some last := by
      intro hne
      have := hlast (cons_ne_nil p rest)
      rwa [getLast?_cons_of_ne_nil hne] at this
    have hend' : rest = [] → last = p := by
      rintro rfl
      have := hlast (cons_ne_nil p [])
      exact (Option.some.inj this).symm
    rw [sgLength_cons] at hin ⊢
    rw [cons_append, mapSgLoop]
    by_cases hflush : len ≠ 0 ∧ p.phys ≠ start + len
    · rw [if_pos hflush]
      obtain ⟨⟨l, hl, hm, hle, hbytes, hall⟩, hcache'⟩ := mapByPgsize_progress hI haccess start len hsc hcache
        (fun y h₁ h₂ => hin y h₁ (by omega))
      generalize mapByPgsize d s (iova + sgLength sg) start len (sgLength sg) prot ms = res at hl hm hall hcache' ⊢
      obtain ⟨s₁, err, m, ms'⟩ := res
      have hrun : ∀ off < sgLength l, sgPhys l off = sgPhys (⟨start, len⟩ :: p :: rest) off := by
        intro off hoff
        rw [hbytes off hoff, sgPhys, if_pos (show off < len by omega)]
      cases err with
      | some e => exact ⟨l, hl, hm, by omega, hrun, fun h => by cases h⟩
      | none =>
        have hfull : sgLength l = len := hall rfl trivial
        have hlen : m = sgLength (sg ++ l) := by rw [sgLength_append]; exact hm
        have hnext := hcache' rfl
        rw [← hfull, add_assoc, ← sgLength_append] at hnext
        have hrest := ih p.phys p.length hl hnext (fun h => by rw [hend' h]) hlast'
          (fun y h₁ h₂ => hin y (by rw [sgLength_append] at h₁; omega) (by rw [sgLength_append] at h₂; omega))
        rw [hlen]
        refine hrest.after hrun (fun off => ?_) (by rw [hfull])
        rw [hfull]
        conv_rhs => rw [sgPhys]
        rw [if_neg (by simp), Nat.add_sub_cancel_left]
    · rw [if_neg hflush]
      by_cases h0 : len ≠ 0
      · have hadj : p.phys = start + len := by
          by_contra hne
          exact hflush ⟨h0, hne⟩
        rw [if_pos h0, sgPhys_merge start len p rest hadj, ← add_assoc]
        exact ih start (len + p.length) hsc hcache (fun h => by rw [hend' h]; omega) hlast'
          (fun y h₁ h₂ => hin y h₁ (by omega))
      · obtain rfl : len = 0 := not_not.mp h0
        rw [if_neg h0, sgPhys_empty, zero_add]
        exact ih p.phys p.length hsc hcache (fun h => by rw [hend' h]) hlast'
          (fun y h₁ h₂ => hin y h₁ (by omega))

/-- What a call comes down to. -/
theorem mapSg_progress (hin : ∀ y, iova ≤ y → y < iova + sgLength sg → d.InRange y) : let r := mapSg d s₀ iova sg prot
    ∃ l, Scattered hg (protToPte d prot) iova s₀ l r.1 ∧ r.2.2 = sgLength l ∧ sgLength l ≤ sgLength sg ∧
      (∀ off < sgLength l, sgPhys l off = sgPhys sg off) ∧
      (r.2.1 = none → (∀ p, sg.getLast? = some p → 0 < p.length) → sgLength l = sgLength sg) := by
  intro r
  cases hlast : sg.getLast? with
  | none =>
    obtain rfl := getLast?_eq_none_iff.mp hlast
    exact ⟨[], .nil, rfl, le_rfl, fun _ _ => rfl, fun _ _ => rfl⟩
  | some last =>
    have hnil : Scattered hg (protToPte d prot) iova s₀ [] s₀ := .nil
    have hprog := mapSgLoop_progress hI haccess sg last 0 0 hnil (CacheOk.zero hg s₀ _)
      (fun h => by rw [h] at hlast; cases hlast) (fun _ => hlast) (fun y h₁ h₂ => hin y (by simpa using h₁) (by simpa using h₂))
    have hr : r = mapSgLoop d iova prot (sg ++ [last]) s₀ 0 0 (sgLength []) MapState.zero := by
      change mapSgLoop d iova prot (sg ++ sg.getLast?.toList) s₀ 0 0 0 MapState.zero = _
      rw [hlast]
      rfl
    rw [hr]
    obtain ⟨l, hl, hm, hle, hbytes, hall⟩ := hprog
    rw [sgPhys_empty, zero_add] at *
    refine ⟨l, hl, by rw [hm, sgLength_nil, zero_add], hle, hbytes, fun h hw => ?_⟩
    exact hall h (hw last rfl)

end

/-- Without access nothing is written. -/
theorem mapSgLoop_noAccess {prot : Prot} (hno : (prot.read || prot.write) = false) {iova : Nat} (sg : List Piece)
    (s : State) (start len mapped : Nat) (ms : MapState) : (mapSgLoop d iova prot sg s start len mapped ms).1 = s := by
  induction sg generalizing start len mapped ms with
  | nil => rfl
  | cons p rest ih =>
    rw [mapSgLoop]
    split_ifs
    · have hsame : (mapByPgsize d s (iova + mapped) start len mapped prot ms).1 = s := by
        unfold mapByPgsize
        dsimp only
        split_ifs with _ _ h
        · rfl
        · rfl
        · rfl
        · simp [hno] at h
      generalize mapByPgsize d s (iova + mapped) start len mapped prot ms = res at hsame
      obtain ⟨s₁, err, m, ms'⟩ := res
      cases hsame
      cases err with
      | none => exact ih _ _ _ _
      | some e => rfl
    · exact ih _ _ _ _
    · exact ih _ _ _ _

/-! ### Page by page -/

def minPagesz (d : Data) : Nat := 2 ^ ffs d.cfg.pgsizeBitmap

section
variable {B : Nat}

end

section
variable {prot : Prot} [Fact (Fits d)] (haccess : (prot.read || prot.write) = true)
include haccess

end

/-- A list whose pieces are page aligned, for addresses inside the input range. Physical addresses
are 64-bit words. -/
structure SgReq (d : Data) (iova : Nat) (sg : List Piece) : Prop where
  first : minPagesz d ∣ iova
  phys : ∀ p ∈ sg, minPagesz d ∣ p.phys ∧ p.phys + p.length < 2 ^ 64
  length : ∀ p ∈ sg, minPagesz d ∣ p.length
  inside : ∀ y, iova ≤ y → y < iova + sgLength sg → d.InRange y

inductive Op where
  | call (c : Call)
  | mapSg (iova : Nat) (sg : List Piece) (prot : Prot)

def Op.Aligned (d : Data) : Op → Prop
  | .call c => c.Aligned d
  | .mapSg iova sg _ => SgReq d iova sg

def Op.run (d : Data) (s : State) : Op → State
  | .call c => c.run d s
  | .mapSg iova sg prot => (Iopt.mapSg d s iova sg prot).1

def OpStep (d : Data) (s : State) (op : Op) (s' : State) : Prop := op.Aligned d ∧ s' = op.run d s

theorem mapSg_inv {iova : Nat} {sg : List Piece} {prot : Prot} [Fact (Fits d)] (hreq : SgReq d iova sg)
    (hI : Inv hg s) : Inv hg (mapSg d s iova sg prot).1 := by
  cases hprot : (prot.read || prot.write) with
  | false =>
    rw [mapSg, mapSgLoop_noAccess hprot]
    exact hI
  | true =>
    obtain ⟨l, hsc, -⟩ := mapSg_progress hI hprot hreq.inside
    exact hsc.inv (iopteVal_protToPte d prot) hI

/-- Every operation keeps the tree in order. -/
theorem opStep_inv {op : Op} [Fact (Fits d)] (h : OpStep d s op s') (hI : Inv hg s) : Inv hg s' := by
  obtain ⟨hal, rfl⟩ := h
  cases op with
  | call c =>
    cases c with
    | map iova paddr pgsize pgcount prot => exact (mapPages_outcome hI).inv (iopteVal_protToPte d prot) hI
    | unmap iova pgsize pgcount => exact (unmapPages_end hI).inv hal hI
  | mapSg iova sg prot => exact mapSg_inv hal hI

theorem path_inv {run : List (Op × State)} [Fact (Fits d)] (hF : Fresh d s) (hrun : Path (OpStep d) s run) :
    Inv hg (final s run) :=
  hrun.invariant (fun _ _ _ h hI => opStep_inv h hI) (hF.shaped).inv _ (final_mem s run)

/-! ### The call -/

def readWrite : Prot := ⟨true, true, false, false, false, false, false, false⟩

def noAccess : Prot := ⟨false, false, false, false, false, false, false, false⟩

theorem plainTable_sgReq {sg : List Piece} (h : ∀ p ∈ sg, (0x1000 ∣ p.phys ∧ p.phys + p.length < 2 ^ 64) ∧ 0x1000 ∣ p.length)
    (hlen : sgLength sg ≤ 2 ^ 32) : SgReq plainTable.1 0 sg := by
  have hmin : minPagesz plainTable.1 = 0x1000 := by decide +kernel
  refine ⟨Nat.dvd_zero _, fun p hp => ?_, fun p hp => ?_, fun y _ hlt => plainTable_inRange.mpr (by omega)⟩
  · rw [hmin]
    exact (h p hp).1
  · rw [hmin]
    exact (h p hp).2

/-- Two adjacent pieces and one apart from them. -/
def threePieces : List Piece := [⟨0x100000, 0x1000⟩, ⟨0x101000, 0x1000⟩, ⟨0x300000, 0x1000⟩]

/-- After any aligned calls, with or without the hint and whichever allocations fail, a table that a walk
reads is an allocated page with entries of its level, and only walks of the same path read it. -/
theorem walks_share_no_table {cfg : Cfg} {fmt : Fmt} {s₀ : State} {run : List (Op × State)} {j t : Nat}
    (halloc : allocPgtableS1 cfg fmt s₀ = some (d, s)) (hfit : Fits d) (hrun : Path (OpStep d) s run)
    (hk : d.startLevel + k ≤ 3) (hj : d.startLevel + j ≤ 3) : let u := final s run
    let hg := allocPgtableS1_geom halloc
    TableAt hg u.mem x k t → TableAt hg u.mem y j t → t ∈ u.pages ∧ (k = j ∧ SamePath (shape d hg) k x y) ∧
      ∀ i < d.ptesPerTable, Typed d (d.startLevel + k) (u.mem (t + i)) := by
  intro u hg hx hy
  have : Fact (Fits d) := ⟨hfit⟩
  have hI : Inv hg u := path_inv (allocPgtableS1_spec halloc).2.1 hrun
  have hk := lt_depth hg (lt_succ_of_le hk)
  exact ⟨(hI.tree.pages x k t hk hx).1, hI.tree.unique x y k j t hk (lt_depth hg (lt_succ_of_le hj)) hx hy,
    fun i => hI.typed x k t i hk hx⟩

theorem walks_share_no_table_pages : let op := Op.mapSg 0 threePieces readWrite
    1536 ∈ (op.run plainTable.1 plainTable.2).pages := by
  intro op
  have hrun : Path (OpStep plainTable.1) plainTable.2 [(op, op.run plainTable.1 plainTable.2)] :=
    ⟨⟨plainTable_sgReq (by decide) (by decide), rfl⟩, trivial⟩
  have htable : TableAt (allocPgtableS1_geom plainTable_alloc) (op.run plainTable.1 plainTable.2).mem 0 2 1536 := by
    decide +kernel
  exact (walks_share_no_table plainTable_alloc plainTable_fits hrun (by decide +kernel) (by decide +kernel) htable htable).1

end Sm8850.Iopt
