import Sm8850.Rpmh.Model

/-! The caches of sleep and wake votes (drivers/soc/qcom/rpmh.c), and the flush that writes them to the
TCSes of a channel. -/
namespace Sm8850.Rpmh
open List Nat

/-! ### The caches -/

def uintMax : Nat := 2 ^ 32 - 1

def cmdDbMaxResources : Nat := 250

def maxRpmhPayload : Nat := 16

/-- `struct cache_req`. -/
structure CacheReq where
  addr : Nat
  sleepVal : Nat
  wakeVal : Nat

/-- `struct rpmh_ctrlr`. -/
structure Ctrlr where
  dirty : Bool
  batchSleep : List Cmd
  batchWake : List Cmd
  nonBatch : List CacheReq

inductive RpmhState where
  | sleep
  | wakeOnly
  | activeOnly

def CacheReq.set (state : RpmhState) (data : Nat) (req : CacheReq) : CacheReq :=
  match state with
  | .activeOnly | .wakeOnly => { req with wakeVal := data }
  | .sleep => { req with sleepVal := data }

/-- What makes `cache_rpm_request` set the dirty flag. -/
def CacheReq.dirties (old new : CacheReq) : Bool :=
  (new.sleepVal != old.sleepVal || new.wakeVal != old.wakeVal) && new.sleepVal != uintMax && new.wakeVal != uintMax

/-- The request for the address of a command, or a new one, gets the value. -/
def cacheIn (state : RpmhState) (cmd : Cmd) : List CacheReq → List CacheReq × Bool
  | [] =>
    let req : CacheReq := ⟨cmd.addr, uintMax, uintMax⟩
    ([req.set state cmd.data], req.dirties (req.set state cmd.data))
  | req :: reqs =>
    if req.addr = cmd.addr then (req.set state cmd.data :: reqs, req.dirties (req.set state cmd.data))
    else
      let (reqs, dirties) := cacheIn state cmd reqs
      (req :: reqs, dirties)

def cacheRpmRequest (c : Ctrlr) (state : RpmhState) (cmd : Cmd) : Option Ctrlr :=
  if cmdDbMaxResources ≤ c.nonBatch.length then none
  else
    let (reqs, dirties) := cacheIn state cmd c.nonBatch
    some { c with nonBatch := reqs, dirty := c.dirty || dirties }

def fillRpmhMsg (cmds : List Cmd) : Option (List Cmd) :=
  if cmds = [] ∨ maxRpmhPayload < cmds.length then none else some cmds

/-- `rpmh_write_batch` of a sleep or a wake set. The old set is gone also when the new one is
refused. -/
def rpmhWriteBatch (c : Ctrlr) (wake : Bool) (cmds : List Cmd) : Ctrlr :=
  let batch := (fillRpmhMsg cmds).getD []
  if wake then { c with batchWake := batch, dirty := true } else { c with batchSleep := batch, dirty := true }

def rpmhInvalidate (c : Ctrlr) : Ctrlr := { c with batchSleep := [], batchWake := [], dirty := true }

def isReqValid (req : CacheReq) : Bool :=
  req.sleepVal != uintMax && req.wakeVal != uintMax && req.sleepVal != req.wakeVal

/-- The commands the caches prescribe for the sleep and the wake TCSes. -/
def sleepCmds (c : Ctrlr) : List Cmd := c.batchSleep ++ (c.nonBatch.filter isReqValid).map (fun p => ⟨p.addr, p.sleepVal⟩)
def wakeCmds (c : Ctrlr) : List Cmd := c.batchWake ++ (c.nonBatch.filter isReqValid).map (fun p => ⟨p.addr, p.wakeVal⟩)

/-! ### Slots -/

/-- An RSC with the slots of its groups that are taken. -/
structure Drv (cfg : Config) where
  rsc : Rsc
  slots : Fin cfg.channels → TcsType → Nat → Bool

/-- `bitmap_find_next_zero_area`: the first area of `n` zeros from `start` on. -/
def findNextZeroArea (slots : Nat → Bool) (size start n : Nat) : Option Nat :=
  (range size).find? fun k => decide (start ≤ k) && decide (k + n ≤ size) && (range n).all fun j => !slots (k + j)

/-- The loop of `find_slots` from TCS `m` on. It ends at the last TCS, where there is no area. -/
def findSlotsFrom (slots : Nat → Bool) (ncpt num n : Nat) : Nat → Nat → Option Nat
  | 0, _ => none
  | fuel + 1, m =>
    match findNextZeroArea slots (ncpt * num) (m * ncpt) n with
    | none => none
    | some slot => if (m + 1) * ncpt ≤ slot + n - 1 then findSlotsFrom slots ncpt num n fuel (m + 1) else some slot

def findSlots (slots : Nat → Bool) (ncpt num n : Nat) : Option Nat := findSlotsFrom slots ncpt num n (num + 1) 0

section
variable (cfg : Config) (ch : Fin cfg.channels) (ty : TcsType)

def slotCount : Nat := cfg.ncpt * (cfg.group ch ty).num

def setSlots (slots : Fin cfg.channels → TcsType → Nat → Bool) (new : Nat → Bool) : Fin cfg.channels → TcsType → Nat → Bool :=
  Function.update slots ch (Function.update (slots ch) ty new)

def tcsInvalidate (d : Drv cfg) : Drv cfg :=
  if (range (slotCount cfg ch ty)).all (fun k => !d.slots ch ty k) then d
  else
    { rsc := { d.rsc with enable := fun i j => d.rsc.enable i j && !decide ((cfg.group ch ty).Has i) }
      slots := setSlots cfg ch ty d.slots (fun _ => false) }

/-- `rpmh_rsc_write_ctrl_data`. Without room nothing is written. -/
def rpmhRscWriteCtrlData (d : Drv cfg) (cmds : List Cmd) : Option (Drv cfg) :=
  if cmds = [] then some d
  else
    match findSlots (d.slots ch ty) cfg.ncpt (cfg.group ch ty).num cmds.length with
    | none => none
    | some slot => some
        { rsc := tcsBufferWrite d.rsc ((cfg.group ch ty).offset + slot / cfg.ncpt) (slot % cfg.ncpt) cmds
          slots := setSlots cfg ch ty d.slots fun k =>
            d.slots ch ty k || (decide (slot ≤ k) && decide (k < slot + cmds.length)) }

/-- The loop of `_rpmh_flush` over the cached requests: what it leaves, and whether it got through. -/
def flushReqs (d : Drv cfg) : List CacheReq → Drv cfg × Bool
  | [] => (d, true)
  | p :: ps =>
    if !isReqValid p then flushReqs d ps
    else
      match rpmhRscWriteCtrlData cfg ch .sleep d [⟨p.addr, p.sleepVal⟩] with
      | none => (d, false)
      | some d =>
        match rpmhRscWriteCtrlData cfg ch .wake d [⟨p.addr, p.wakeVal⟩] with
        | none => (d, false)
        | some d => flushReqs d ps

def flushBatch (d : Drv cfg) (c : Ctrlr) : Drv cfg × Bool :=
  match rpmhRscWriteCtrlData cfg ch .sleep d c.batchSleep with
  | none => (d, false)
  | some d =>
    match rpmhRscWriteCtrlData cfg ch .wake d c.batchWake with
    | none => (d, false)
    | some d => (d, true)

/-- `rpmh_rsc_invalidate`. -/
def rpmhRscInvalidate (d : Drv cfg) : Drv cfg := tcsInvalidate cfg ch .wake (tcsInvalidate cfg ch .sleep d)

/-- `rpmh_flush`, and whether it returns 0. -/
def rpmhFlush (d : Drv cfg) (c : Ctrlr) : Drv cfg × Ctrlr × Bool :=
  if !c.dirty then (d, c, true)
  else
    match flushBatch cfg ch (rpmhRscInvalidate cfg ch d) c with
    | (d, false) => (d, c, false)
    | (d, true) =>
      match flushReqs cfg ch d c.nonBatch with
      | (d, false) => (d, c, false)
      | (d, true) => (d, { c with dirty := false }, true)

end

/-! ### Cells: the commands of a group in the order of its slots -/

section
variable (cfg : Config) (r : Rsc) (ch : Fin cfg.channels) (ty : TcsType) (k : Nat)

def cellTcs : Nat := (cfg.group ch ty).offset + k / cfg.ncpt

def cellOn : Bool := r.enable (cellTcs cfg ch ty k) (k % cfg.ncpt)

def cellCmd : Cmd := r.cmd (cellTcs cfg ch ty k) (k % cfg.ncpt)

/-- The commands that are enabled in the TCSes of a group. -/
def contents : List Cmd :=
  (range (slotCount cfg ch ty)).filterMap fun k => if cellOn cfg r ch ty k then some (cellCmd cfg r ch ty k) else none

end

/-- The slots of a group hold the commands of a list, from the first slot on. -/
structure Stored (cfg : Config) (d : Drv cfg) (ch : Fin cfg.channels) (ty : TcsType) (l : List Cmd) : Prop where
  fits : l.length ≤ slotCount cfg ch ty
  slots : ∀ k < slotCount cfg ch ty, d.slots ch ty k = decide (k < l.length)
  cells : ∀ k, (h : k < l.length) → cellOn cfg d.rsc ch ty k = true ∧ cellCmd cfg d.rsc ch ty k = l[k]

/-- The enabled commands of a group are in slots that are taken. -/
def Tidy (cfg : Config) (d : Drv cfg) (ch : Fin cfg.channels) (ty : TcsType) : Prop :=
  ∀ k < slotCount cfg ch ty, cellOn cfg d.rsc ch ty k = true → d.slots ch ty k = true

section
variable {cfg : Config} {d d' : Drv cfg} {r r' : Rsc} {ch ch' : Fin cfg.channels} {ty ty' : TcsType} {k n m slot : Nat}
  {l cmds : List Cmd} {slots : Nat → Bool}

theorem cellTcs_has (h : k < slotCount cfg ch ty) : (cfg.group ch ty).Has (cellTcs cfg ch ty k) := by
  have hdiv : k / cfg.ncpt < (cfg.group ch ty).num := Nat.div_lt_of_lt_mul h
  exact ⟨Nat.le_add_right _ _, Nat.add_lt_add_left hdiv _⟩

theorem contents_of_stored (h : Stored cfg d ch ty l) (htidy : Tidy cfg d ch ty) : contents cfg d.rsc ch ty = l := by
  refine Eq.trans (filterMap_congr fun k hk => ?_) (filterMap_range_getElem? h.fits)
  have hk' := mem_range.mp hk
  by_cases hlt : k < l.length
  · rw [(h.cells k hlt).1, if_pos rfl, (h.cells k hlt).2, getElem?_eq_getElem hlt]
  · have hoff : cellOn cfg d.rsc ch ty k ≠ true := by
      intro hon
      have hslot := htidy k hk' hon
      rw [h.slots k hk'] at hslot
      exact hlt (by simpa using hslot)
    rw [if_neg hoff, getElem?_eq_none (by omega)]

/-! ### Finding slots -/

/-- The `n` slots from `k` on are free, and all of them are in one TCS of the group. -/
structure Room (slots : Nat → Bool) (ncpt num n k : Nat) : Prop where
  inside : k % ncpt + n ≤ ncpt
  size : k + n ≤ ncpt * num
  free : ∀ j < n, slots (k + j) = false

/-- The loop of `find_slots` where it ends by itself. -/
def findSlotsIn (slots : Nat → Bool) (ncpt num n : Nat) : Nat → Nat → Option (Option Nat)
  | 0, _ => none
  | fuel + 1, m =>
    match findNextZeroArea slots (ncpt * num) (m * ncpt) n with
    | none => some none
    | some slot => if (m + 1) * ncpt ≤ slot + n - 1 then findSlotsIn slots ncpt num n fuel (m + 1) else some (some slot)

section
variable {ncpt num fuel : Nat}

theorem findSlotsFrom_eq : findSlotsFrom slots ncpt num n fuel m = (findSlotsIn slots ncpt num n fuel m).join := by
  induction fuel generalizing m with
  | zero => rfl
  | succ fuel ih =>
    rw [findSlotsFrom, findSlotsIn]
    cases findNextZeroArea slots (ncpt * num) (m * ncpt) n with
    | none => rfl
    | some slot =>
      dsimp only
      split
      · exact ih
      · rfl

theorem area_true {size start : Nat} : (decide (start ≤ k) && decide (k + n ≤ size) && (range n).all fun j => !slots (k + j)) =
    true ↔ (start ≤ k ∧ k + n ≤ size) ∧ ∀ j < n, slots (k + j) = false := by
  simp

theorem mod_add_le {c : Nat} (hlo : m * c ≤ k) (hhi : k < (m + 1) * c) : k % c + n ≤ c ↔ k + n ≤ (m + 1) * c := by
  rw [succ_mul] at hhi ⊢
  have hmod : k % c = k - m * c := by
    rw [mod_eq_sub, Nat.div_eq_of_lt_le hlo (by rw [succ_mul]; exact hhi), mul_comm]
  omega

/-- From TCS `m` on the loop ends, with the first slot that has room if there is one. -/
theorem findSlotsIn_spec (hn : 1 ≤ n) (hfuel : num < fuel + m) (hm : m ≤ num)
    (hbefore : ∀ k, Room slots ncpt num n k → m * ncpt ≤ k) : ∃ r, findSlotsIn slots ncpt num n fuel m = some r ∧
      (∀ k, Room slots ncpt num n k → ∃ slot ≤ k, r = some slot) ∧ ∀ slot, r = some slot → Room slots ncpt num n slot := by
  induction fuel generalizing m with
  | zero => omega
  | succ fuel ih =>
    rw [findSlotsIn]
    cases harea : findNextZeroArea slots (ncpt * num) (m * ncpt) n with
    | none =>
      refine ⟨none, rfl, fun k hk => ?_, nofun⟩
      have hsize := hk.size
      exact absurd (area_true.mpr ⟨⟨hbefore k hk, hsize⟩, hk.free⟩) (find?_eq_none.mp harea k (mem_range.mpr (by omega)))
    | some area =>
      obtain ⟨hat, -, hmin⟩ := find?_range_eq_some.mp harea
      obtain ⟨⟨hstart, hsize⟩, hfree⟩ := area_true.mp hat
      have hleast : ∀ k, Room slots ncpt num n k → area ≤ k := by
        intro k hk
        by_contra hlt
        have hnot := hmin k (by omega)
        rw [area_true.mpr ⟨⟨hbefore k hk, hk.size⟩, hk.free⟩] at hnot
        cases hnot
      dsimp only
      split
      · next hcross =>
        have hlt : (m + 1) * ncpt < num * ncpt := by
          rw [mul_comm num]
          omega
        refine ih (by omega) (le_of_lt (Nat.lt_of_mul_lt_mul_right hlt)) fun k hk => ?_
        by_contra hk'
        have := (mod_add_le (hbefore k hk) (by omega)).mp hk.inside
        have := hleast k hk
        omega
      · next hinside =>
        refine ⟨some area, rfl, fun k hk => ⟨area, hleast k hk, rfl⟩, ?_⟩
        rintro _ ⟨⟩
        exact ⟨(mod_add_le hstart (by omega)).mpr (by omega), hsize, hfree⟩

theorem findSlots_spec (hn : 1 ≤ n) (slots : Nat → Bool) (ncpt num : Nat) :
    ∃ r, findSlotsIn slots ncpt num n (num + 1) 0 = some r ∧ findSlots slots ncpt num n = r ∧
      (∀ k, Room slots ncpt num n k → ∃ slot ≤ k, r = some slot) ∧ ∀ slot, r = some slot → Room slots ncpt num n slot := by
  have hall : ∀ k, Room slots ncpt num n k → 0 * ncpt ≤ k := fun k _ => by omega
  obtain ⟨r, hr, hspec⟩ := findSlotsIn_spec hn (lt_succ_self num) (Nat.zero_le _) hall
  exact ⟨r, hr, by rw [findSlots, findSlotsFrom_eq, hr]; rfl, hspec⟩

/-- `find_slots` where its loop ends: the slots with the new ones marked, the TCS and the command. -/
def findSlotsMark (slots : Nat → Bool) (ncpt num offset n : Nat) : Option (Option ((Nat → Bool) × Nat × Nat)) :=
  (findSlotsIn slots ncpt num n (num + 1) 0).map fun r => r.map fun slot =>
    (fun k => slots k || (decide (slot ≤ k) && decide (k < slot + n)), offset + slot / ncpt, slot % ncpt)

/-- The search ends, with slots of one TCS that were free and are now marked if there are any. -/
theorem find_slots_exact (slots : Nat → Bool) (ncpt num offset n : Nat) (hn : 1 ≤ n) :
    ∃ r, findSlotsMark slots ncpt num offset n = some r ∧ (r.isSome ↔ ∃ k, Room slots ncpt num n k) ∧
      ∀ marked tcsId cmdId, r = some (marked, tcsId, cmdId) → ∃ slot, Room slots ncpt num n slot ∧
        tcsId = offset + slot / ncpt ∧ cmdId = slot % ncpt ∧
        ∀ k, marked k = true ↔ slots k = true ∨ slot ≤ k ∧ k < slot + n := by
  obtain ⟨r, hr, -, hleast, hroom⟩ := findSlots_spec hn slots ncpt num
  rw [findSlotsMark, hr]
  refine ⟨_, rfl, ?_, ?_⟩
  · rw [Option.isSome_map, Option.isSome_iff_exists]
    refine ⟨fun ⟨slot, hslot⟩ => ⟨slot, hroom slot hslot⟩, ?_⟩
    rintro ⟨k, hk⟩
    obtain ⟨slot, -, heq⟩ := hleast k hk
    exact ⟨slot, heq⟩
  · intro marked tcsId cmdId h
    obtain ⟨slot, hslot, heq⟩ := Option.map_eq_some_iff.mp h
    cases heq
    exact ⟨slot, hroom slot hslot, rfl, rfl, fun k => by simp⟩

theorem find_slots_second_tcs : ∃ r, findSlotsMark (fun k => k == 1) 4 2 3 3 = some r ∧ r.isSome := by
  obtain ⟨r, hr, hiff, -⟩ := find_slots_exact (fun k => k == 1) 4 2 3 3 (by decide)
  exact ⟨r, hr, hiff.mpr ⟨4, by decide, by decide, by decide⟩⟩

end

/-- In a bitmap whose first `m` slots are taken. -/
theorem findSlots_some {ncpt num : Nat} (hslots : ∀ k < ncpt * num, slots k = decide (k < m)) (hn : 1 ≤ n)
    (hkind : n = 1 ∨ m = 0) (hpos : 0 < ncpt) (h : findSlots slots ncpt num n = some slot) :
    slot = m ∧ slot % ncpt + n ≤ ncpt ∧ slot + n ≤ ncpt * num := by
  obtain ⟨r, -, hr, hleast, hroom⟩ := findSlots_spec hn slots ncpt num
  obtain ⟨hinside, hsize, hfree⟩ := hroom slot (hr.symm.trans h)
  have hge := hfree 0 (by omega)
  rw [add_zero, hslots slot (by omega), decide_eq_false_iff_not] at hge
  have hfits : m % ncpt + n ≤ ncpt := by
    rcases hkind with rfl | rfl
    · exact mod_lt m hpos
    · rw [zero_mod]
      omega
  have hfirst : Room slots ncpt num n m := by
    refine ⟨hfits, by omega, fun j hj => ?_⟩
    rw [hslots _ (by omega), decide_eq_false_iff_not]
    omega
  obtain ⟨slot', hle, heq⟩ := hleast m hfirst
  obtain rfl := Option.some.inj (h.symm.trans (hr.trans heq))
  exact ⟨by omega, hinside, hsize⟩

/-! ### Writing a message -/

/-- The slots of a message in one TCS. -/
theorem area_iff {c : Nat} (hfit : slot % c + n ≤ c) :
    k / c = slot / c ∧ slot % c ≤ k % c ∧ k % c < slot % c + n ↔ slot ≤ k ∧ k < slot + n := by
  have hslot := div_add_mod slot c
  have hk := div_add_mod k c
  constructor
  · rintro ⟨hdiv, hlo, hhi⟩
    rw [hdiv] at hk
    omega
  · rintro ⟨hlo, hhi⟩
    have hdiv : k / c = slot / c := by
      refine Nat.div_eq_of_lt_le ?_ ?_
      · rw [mul_comm]
        omega
      · rw [succ_mul, mul_comm]
        omega
    rw [hdiv] at hk
    exact ⟨hdiv, by omega, by omega⟩

theorem cellCmd_write_old (hold : k < slot) :
    cellCmd cfg (tcsBufferWrite r (cellTcs cfg ch ty slot) (slot % cfg.ncpt) cmds) ch ty k = cellCmd cfg r ch ty k := by
  have hk := div_add_mod k cfg.ncpt
  have hslot := div_add_mod slot cfg.ncpt
  unfold cellCmd tcsBufferWrite
  dsimp only
  by_cases htcs : cellTcs cfg ch ty k = cellTcs cfg ch ty slot
  · have hdiv : k / cfg.ncpt = slot / cfg.ncpt := Nat.add_left_cancel htcs
    rw [hdiv] at hk
    rw [htcs, Function.update_self, writeCmds_before (by omega)]
  · rw [Function.update_of_ne htcs]

section
variable (hfit : slot % cfg.ncpt + cmds.length ≤ cfg.ncpt)

include hfit

theorem cellOn_write (hslot : slot < slotCount cfg ch ty) (hk : k < slotCount cfg ch' ty') :
    cellOn cfg (tcsBufferWrite r (cellTcs cfg ch ty slot) (slot % cfg.ncpt) cmds) ch' ty' k =
      (cellOn cfg r ch' ty' k || decide ((ch' = ch ∧ ty' = ty) ∧ slot ≤ k ∧ k < slot + cmds.length)) := by
  have harea := area_iff (k := k) hfit
  unfold cellOn tcsBufferWrite
  dsimp only
  by_cases htcs : cellTcs cfg ch' ty' k = cellTcs cfg ch ty slot
  · obtain ⟨rfl, rfl⟩ := cfg.apart _ _ _ _ _ (cellTcs_has hk) (htcs ▸ cellTcs_has hslot)
    have hdiv : k / cfg.ncpt = slot / cfg.ncpt := Nat.add_left_cancel htcs
    rw [htcs, Function.update_self, ← Bool.decide_and]
    congr 1
    refine decide_eq_decide.mpr ⟨fun h => ⟨⟨rfl, rfl⟩, harea.mp ⟨hdiv, h.1, h.2⟩⟩, fun h => (harea.mpr h.2).2⟩
  · rw [Function.update_of_ne htcs, decide_eq_false, Bool.or_false]
    rintro ⟨⟨rfl, rfl⟩, hin⟩
    refine htcs ?_
    unfold cellTcs
    rw [(harea.mpr hin).1]

theorem cellCmd_write_new (hlo : slot ≤ k) (hhi : k < slot + cmds.length) (h : k - slot < cmds.length) :
    cellCmd cfg (tcsBufferWrite r (cellTcs cfg ch ty slot) (slot % cfg.ncpt) cmds) ch ty k = cmds[k - slot] := by
  obtain ⟨hdiv, hge, hlt⟩ := (area_iff hfit).mpr ⟨hlo, hhi⟩
  have hk := div_add_mod k cfg.ncpt
  have hslot := div_add_mod slot cfg.ncpt
  rw [hdiv] at hk
  have hidx : k % cfg.ncpt = slot % cfg.ncpt + (k - slot) := by omega
  have htcs : cellTcs cfg ch ty k = cellTcs cfg ch ty slot := by
    unfold cellTcs
    rw [hdiv]
  unfold cellCmd tcsBufferWrite
  dsimp only
  rw [htcs, Function.update_self, hidx, writeCmds_at h]

end

/-- What a flush of a channel leaves alone: all but the sleep and wake TCSes of the channel. -/
structure Frame (cfg : Config) (ch : Fin cfg.channels) (d d' : Drv cfg) : Prop where
  job : d'.rsc.job = d.rsc.job
  irqStatus : d'.rsc.irqStatus = d.rsc.irqStatus
  irqEnable : d'.rsc.irqEnable = d.rsc.irqEnable
  handling : d'.rsc.handling = d.rsc.handling
  rows : ∀ i, ¬ (cfg.group ch .sleep).Has i → ¬ (cfg.group ch .wake).Has i → d'.rsc.enable i = d.rsc.enable i
  cmds : ∀ i, ¬ (cfg.group ch .sleep).Has i → ¬ (cfg.group ch .wake).Has i → d'.rsc.cmd i = d.rsc.cmd i
  slots : ∀ c, c ≠ ch → d'.slots c = d.slots c

theorem Frame.refl (d : Drv cfg) : Frame cfg ch d d := ⟨rfl, rfl, rfl, rfl, fun _ _ _ => rfl, fun _ _ _ => rfl, fun _ _ => rfl⟩

theorem Frame.trans {d'' : Drv cfg} (h : Frame cfg ch d d') (h' : Frame cfg ch d' d'') : Frame cfg ch d d'' :=
  ⟨h'.job.trans h.job, h'.irqStatus.trans h.irqStatus, h'.irqEnable.trans h.irqEnable, h'.handling.trans h.handling,
    fun i h₁ h₂ => (h'.rows i h₁ h₂).trans (h.rows i h₁ h₂), fun i h₁ h₂ => (h'.cmds i h₁ h₂).trans (h.cmds i h₁ h₂),
    fun c hc => (h'.slots c hc).trans (h.slots c hc)⟩

theorem setSlots_self (f : Fin cfg.channels → TcsType → Nat → Bool) (new : Nat → Bool) :
    setSlots cfg ch ty f new ch ty = new := by
  unfold setSlots
  rw [Function.update_self, Function.update_self]

theorem setSlots_type (f : Fin cfg.channels → TcsType → Nat → Bool) (new : Nat → Bool) (h : ty' ≠ ty) :
    setSlots cfg ch ty f new ch ty' = f ch ty' := by
  unfold setSlots
  rw [Function.update_self, Function.update_of_ne h]

theorem setSlots_channel (f : Fin cfg.channels → TcsType → Nat → Bool) (new : Nat → Bool) (h : ch' ≠ ch) :
    setSlots cfg ch ty f new ch' = f ch' := by
  unfold setSlots
  rw [Function.update_of_ne h]

/-- The slots, the cells and what is enabled of one group. -/
structure SameGroup (cfg : Config) (ch : Fin cfg.channels) (ty : TcsType) (d d' : Drv cfg) : Prop where
  slots : d'.slots ch ty = d.slots ch ty
  on : ∀ k < slotCount cfg ch ty, cellOn cfg d'.rsc ch ty k = cellOn cfg d.rsc ch ty k
  cmd : ∀ k < slotCount cfg ch ty, cellCmd cfg d'.rsc ch ty k = cellCmd cfg d.rsc ch ty k

theorem Stored.same (h : Stored cfg d ch ty l) (hs : SameGroup cfg ch ty d d') : Stored cfg d' ch ty l where
  fits := h.fits
  slots k hk := by
    rw [hs.slots]
    exact h.slots k hk
  cells k hk := by
    have hfits := h.fits
    rw [hs.on k (by omega), hs.cmd k (by omega)]
    exact h.cells k hk

theorem Tidy.same (h : Tidy cfg d ch ty) (hs : SameGroup cfg ch ty d d') : Tidy cfg d' ch ty := by
  intro k hk hon
  rw [hs.on k hk] at hon
  rw [hs.slots]
  exact h k hk hon

/-- Registers outside a group are those of the other groups. -/
theorem sameGroup_of_rows (hslots : d'.slots ch ty = d.slots ch ty)
    (hrows : ∀ i, (cfg.group ch ty).Has i → d'.rsc.enable i = d.rsc.enable i ∧ d'.rsc.cmd i = d.rsc.cmd i) :
    SameGroup cfg ch ty d d' where
  slots := hslots
  on k hk := by
    unfold cellOn
    rw [(hrows _ (cellTcs_has hk)).1]
  cmd k hk := by
    unfold cellCmd
    rw [(hrows _ (cellTcs_has hk)).2]

/-- The sleep and wake TCSes of a channel hold two lists of commands, and nothing else. -/
structure Holding (cfg : Config) (ch : Fin cfg.channels) (d : Drv cfg) (sl wl : List Cmd) : Prop where
  sleep : Stored cfg d ch .sleep sl
  wake : Stored cfg d ch .wake wl
  tidySleep : Tidy cfg d ch .sleep
  tidyWake : Tidy cfg d ch .wake

/-- A message that fits goes behind what is stored. -/
theorem stored_write (hs : Stored cfg d ch ty l) (ht : Tidy cfg d ch ty) (hkind : cmds.length = 1 ∨ l = [])
    (h : rpmhRscWriteCtrlData cfg ch ty d cmds = some d') : Stored cfg d' ch ty (l ++ cmds) ∧ Tidy cfg d' ch ty := by
  unfold rpmhRscWriteCtrlData at h
  split at h
  · next hnil =>
    cases h
    rw [hnil, append_nil]
    exact ⟨hs, ht⟩
  · next hne =>
    split at h
    · cases h
    · next slot hslot =>
      cases h
      have hpos : 1 ≤ cmds.length := length_pos_iff.mpr hne
      have hkind' : cmds.length = 1 ∨ l.length = 0 := hkind.imp_right length_eq_zero_iff.mpr
      obtain ⟨rfl, hfit, hsize⟩ := findSlots_some hs.slots hpos hkind' cfg.ncpt_pos hslot
      have hlt : l.length < slotCount cfg ch ty := lt_of_lt_of_le (by omega) hsize
      refine ⟨⟨?_, ?_, ?_⟩, ?_⟩
      · rw [length_append]
        exact hsize
      · intro k hk
        dsimp only
        rw [setSlots_self, hs.slots k hk, length_append, ← Bool.decide_and, ← Bool.decide_or]
        exact decide_eq_decide.mpr (by omega)
      · intro k hk
        rw [length_append] at hk
        have hk' : k < slotCount cfg ch ty := lt_of_lt_of_le hk hsize
        refine ⟨?_, ?_⟩
        · refine (cellOn_write hfit hlt hk').trans ?_
          by_cases hold : k < l.length
          · rw [(hs.cells k hold).1, Bool.true_or]
          · rw [decide_eq_true ⟨⟨rfl, rfl⟩, by omega, hk⟩, Bool.or_true]
        · by_cases hold : k < l.length
          · rw [getElem_append_left hold, ← (hs.cells k hold).2]
            exact cellCmd_write_old hold
          · rw [getElem_append_right (by omega)]
            exact cellCmd_write_new hfit (by omega) hk (by omega)
      · intro k hk hon
        dsimp only
        rw [setSlots_self]
        replace hon := (cellOn_write hfit hlt hk).symm.trans hon
        rw [Bool.or_eq_true, decide_eq_true_iff] at hon
        rcases hon with hon | ⟨-, hin⟩
        · rw [ht k hk hon, Bool.true_or]
        · rw [decide_eq_true hin.1, decide_eq_true hin.2]
          simp

theorem frame_write (hty : ty = .sleep ∨ ty = .wake) (hs : Stored cfg d ch ty l) (hkind : cmds.length = 1 ∨ l = [])
    (h : rpmhRscWriteCtrlData cfg ch ty d cmds = some d') :
    Frame cfg ch d d' ∧ ∀ ty', ty' ≠ ty → SameGroup cfg ch ty' d d' := by
  unfold rpmhRscWriteCtrlData at h
  split at h
  · cases h
    exact ⟨.refl d, fun _ _ => ⟨rfl, fun _ _ => rfl, fun _ _ => rfl⟩⟩
  · next hne =>
    split at h
    · cases h
    · next slot hslot =>
      cases h
      have hpos : 1 ≤ cmds.length := length_pos_iff.mpr hne
      have hkind' : cmds.length = 1 ∨ l.length = 0 := hkind.imp_right length_eq_zero_iff.mpr
      obtain ⟨rfl, hfit, hsize⟩ := findSlots_some hs.slots hpos hkind' cfg.ncpt_pos hslot
      have hhas : (cfg.group ch ty).Has (cellTcs cfg ch ty l.length) :=
        cellTcs_has (lt_of_lt_of_le (by omega) hsize)
      have hother : ∀ i, ¬ (cfg.group ch ty).Has i → i ≠ cellTcs cfg ch ty l.length := by
        rintro i hi rfl
        exact hi hhas
      refine ⟨⟨rfl, rfl, rfl, rfl, fun i h₁ h₂ => ?_, fun i h₁ h₂ => ?_, fun c hc => setSlots_channel _ _ hc⟩, fun ty' hne' => ?_⟩
      · exact Function.update_of_ne (hother i (by rcases hty with rfl | rfl <;> assumption)) ..
      · exact Function.update_of_ne (hother i (by rcases hty with rfl | rfl <;> assumption)) ..
      · refine sameGroup_of_rows (setSlots_type _ _ hne') fun i hi => ?_
        have hnot : ¬ (cfg.group ch ty).Has i := fun hi' => hne' (cfg.apart _ _ _ _ _ hi hi').2
        exact ⟨Function.update_of_ne (hother i hnot) .., Function.update_of_ne (hother i hnot) ..⟩

section
variable {sl wl : List Cmd} {c : Ctrlr}

theorem Holding.writeSleep (h : Holding cfg ch d sl wl) (hkind : cmds.length = 1 ∨ sl = [])
    (hw : rpmhRscWriteCtrlData cfg ch .sleep d cmds = some d') : Holding cfg ch d' (sl ++ cmds) wl ∧ Frame cfg ch d d' := by
  obtain ⟨hstored, htidy⟩ := stored_write h.sleep h.tidySleep hkind hw
  obtain ⟨hframe, hsame⟩ := frame_write (.inl rfl) h.sleep hkind hw
  have hwake := hsame .wake (by decide)
  exact ⟨⟨hstored, h.wake.same hwake, htidy, h.tidyWake.same hwake⟩, hframe⟩

theorem Holding.writeWake (h : Holding cfg ch d sl wl) (hkind : cmds.length = 1 ∨ wl = [])
    (hw : rpmhRscWriteCtrlData cfg ch .wake d cmds = some d') : Holding cfg ch d' sl (wl ++ cmds) ∧ Frame cfg ch d d' := by
  obtain ⟨hstored, htidy⟩ := stored_write h.wake h.tidyWake hkind hw
  obtain ⟨hframe, hsame⟩ := frame_write (.inr rfl) h.wake hkind hw
  have hsleep := hsame .sleep (by decide)
  exact ⟨⟨h.sleep.same hsleep, hstored, h.tidySleep.same hsleep, htidy⟩, hframe⟩

/-! ### Flushing -/

/-- An invalidated group is empty. -/
theorem invalidate_spec (hty : ty = .sleep ∨ ty = .wake) (ht : Tidy cfg d ch ty) :
    Stored cfg (tcsInvalidate cfg ch ty d) ch ty [] ∧ Tidy cfg (tcsInvalidate cfg ch ty d) ch ty ∧
      Frame cfg ch d (tcsInvalidate cfg ch ty d) ∧ ∀ ty', ty' ≠ ty → SameGroup cfg ch ty' d (tcsInvalidate cfg ch ty d) := by
  unfold tcsInvalidate
  split
  · next hempty =>
    have hzero : ∀ k < slotCount cfg ch ty, d.slots ch ty k = false := by
      intro k hk
      simpa using all_eq_true.mp hempty k (mem_range.mpr hk)
    refine ⟨⟨Nat.zero_le _, fun k hk => ?_, nofun⟩, ht, .refl d,
      fun _ _ => ⟨rfl, fun _ _ => rfl, fun _ _ => rfl⟩⟩
    rw [hzero k hk]
    rfl
  · have hoff : ∀ k < slotCount cfg ch ty, cellOn cfg { d.rsc with
        enable := fun i j => d.rsc.enable i j && !decide ((cfg.group ch ty).Has i) } ch ty k = false := by
      intro k hk
      unfold cellOn
      simp [cellTcs_has hk]
    have hkept : ∀ i, ¬ (cfg.group ch ty).Has i →
        (fun j => d.rsc.enable i j && !decide ((cfg.group ch ty).Has i)) = d.rsc.enable i := by
      intro i hi
      funext j
      simp [hi]
    refine ⟨⟨Nat.zero_le _, fun k hk => ?_, nofun⟩, fun k hk hon => ?_,
      ⟨rfl, rfl, rfl, rfl, fun i h₁ h₂ => ?_, fun _ _ _ => rfl, fun c hc => setSlots_channel _ _ hc⟩, fun ty' hne => ?_⟩
    · dsimp only
      rw [setSlots_self]
      rfl
    · cases (hoff k hk).symm.trans hon
    · exact hkept i (by rcases hty with rfl | rfl <;> assumption)
    · refine sameGroup_of_rows (setSlots_type _ _ hne) fun i hi => ⟨?_, rfl⟩
      exact hkept i fun hi' => hne (cfg.apart _ _ _ _ _ hi hi').2

theorem rpmhRscInvalidate_spec (hsleep : Tidy cfg d ch .sleep) (hwake : Tidy cfg d ch .wake) :
    Holding cfg ch (rpmhRscInvalidate cfg ch d) [] [] ∧ Frame cfg ch d (rpmhRscInvalidate cfg ch d) := by
  obtain ⟨hs, hts, hframe, hsame⟩ := invalidate_spec (.inl rfl) hsleep
  obtain ⟨hw, htw, hframe', hsame'⟩ := invalidate_spec (.inr rfl) (hwake.same (hsame .wake (by decide)))
  have hkept := hsame' .sleep (by decide)
  exact ⟨⟨hs.same hkept, hw, hts.same hkept, htw⟩, hframe.trans hframe'⟩

/-- What a part of a flush leaves: some lists, and if it gets through the given ones. -/
structure Flushed (cfg : Config) (ch : Fin cfg.channels) (d : Drv cfg) (p : Drv cfg × Bool) (sl wl : List Cmd) : Prop where
  frame : Frame cfg ch d p.1
  some : ∃ sl wl, Holding cfg ch p.1 sl wl
  all : p.2 = true → Holding cfg ch p.1 sl wl

theorem flushBatch_spec (h : Holding cfg ch d [] []) :
    Flushed cfg ch d (flushBatch cfg ch d c) c.batchSleep c.batchWake := by
  unfold flushBatch
  cases hs : rpmhRscWriteCtrlData cfg ch .sleep d c.batchSleep with
  | none => exact ⟨.refl d, ⟨_, _, h⟩, nofun⟩
  | some d₁ =>
    obtain ⟨h₁, hframe₁⟩ := h.writeSleep (.inr rfl) hs
    dsimp only
    cases hw : rpmhRscWriteCtrlData cfg ch .wake d₁ c.batchWake with
    | none => exact ⟨hframe₁, ⟨_, _, h₁⟩, nofun⟩
    | some d₂ =>
      obtain ⟨h₂, hframe₂⟩ := h₁.writeWake (.inr rfl) hw
      exact ⟨hframe₁.trans hframe₂, ⟨_, _, h₂⟩, fun _ => h₂⟩

/-- The loop over the requests, by induction on them: every valid one adds a command to each list. -/
theorem flushReqs_spec (reqs : List CacheReq) (h : Holding cfg ch d sl wl) :
    Flushed cfg ch d (flushReqs cfg ch d reqs) (sl ++ (reqs.filter isReqValid).map (fun p => ⟨p.addr, p.sleepVal⟩))
      (wl ++ (reqs.filter isReqValid).map (fun p => ⟨p.addr, p.wakeVal⟩)) := by
  induction reqs generalizing d sl wl with
  | nil =>
    rw [filter_nil, map_nil, map_nil, append_nil, append_nil]
    exact ⟨.refl d, ⟨_, _, h⟩, fun _ => h⟩
  | cons p ps ih =>
    rw [flushReqs]
    by_cases hvalid : isReqValid p
    · rw [if_neg (by simp [hvalid]), filter_cons_of_pos hvalid, map_cons, map_cons]
      cases hs : rpmhRscWriteCtrlData cfg ch .sleep d [⟨p.addr, p.sleepVal⟩] with
      | none => exact ⟨.refl d, ⟨_, _, h⟩, nofun⟩
      | some d₁ =>
        obtain ⟨h₁, hframe₁⟩ := h.writeSleep (.inl rfl) hs
        dsimp only
        cases hw : rpmhRscWriteCtrlData cfg ch .wake d₁ [⟨p.addr, p.wakeVal⟩] with
        | none => exact ⟨hframe₁, ⟨_, _, h₁⟩, nofun⟩
        | some d₂ =>
          obtain ⟨h₂, hframe₂⟩ := h₁.writeWake (.inl rfl) hw
          have hrest := ih h₂
          rw [append_assoc, append_assoc] at hrest
          exact ⟨(hframe₁.trans hframe₂).trans hrest.frame, hrest.some, hrest.all⟩
    · rw [if_pos (by simpa using hvalid), filter_cons_of_neg hvalid]
      exact ih h

/-- A flush that is not skipped: where it returns 0, the TCSes of the channel hold what the caches
prescribe. -/
theorem rpmhFlush_dirty (hdirty : c.dirty) (hsleep : Tidy cfg d ch .sleep) (hwake : Tidy cfg d ch .wake) :
    Flushed cfg ch d ((rpmhFlush cfg ch d c).1, (rpmhFlush cfg ch d c).2.2) (sleepCmds c) (wakeCmds c) ∧
      (rpmhFlush cfg ch d c).2.1 = { c with dirty := !(rpmhFlush cfg ch d c).2.2 } := by
  obtain ⟨h₀, hframe₀⟩ := rpmhRscInvalidate_spec hsleep hwake
  have hbatch := flushBatch_spec (c := c) h₀
  unfold rpmhFlush
  rw [if_neg (by simp [hdirty])]
  cases hb : flushBatch cfg ch (rpmhRscInvalidate cfg ch d) c with
  | mk d₁ ok₁ =>
    rw [hb] at hbatch
    cases ok₁ with
    | false =>
      refine ⟨⟨hframe₀.trans hbatch.frame, hbatch.some, nofun⟩, ?_⟩
      cases c
      exact congrArg (fun b => Ctrlr.mk b _ _ _) hdirty
    | true =>
      have hreqs := flushReqs_spec c.nonBatch (hbatch.all rfl)
      dsimp only at hreqs ⊢
      cases hr : flushReqs cfg ch d₁ c.nonBatch with
      | mk d₂ ok₂ =>
        rw [hr] at hreqs
        have hframe := (hframe₀.trans hbatch.frame).trans hreqs.frame
        cases ok₂ with
        | false =>
          refine ⟨⟨hframe, hreqs.some, nofun⟩, ?_⟩
          cases c
          exact congrArg (fun b => Ctrlr.mk b _ _ _) hdirty
        | true => exact ⟨⟨hframe, hreqs.some, hreqs.all⟩, rfl⟩

end

end

end Sm8850.Rpmh
