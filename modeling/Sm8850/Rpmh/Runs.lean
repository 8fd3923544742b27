import Sm8850.Rpmh.Flush
import Sm8850.Lib.Path

/-! Runs of cache updates, transfers and flushes: when a flush that returns 0 leaves in the TCSes of its
channel what the caches prescribe. -/
namespace Sm8850.Rpmh
open Function List

/-- The driver with its caches. `programmed` remembers which channels have been flushed since the
caches were last marked dirty. -/
structure Sys (cfg : Config) where
  drv : Drv cfg
  ctrlr : Ctrlr
  programmed : Fin cfg.channels → Bool

/-- A step of a transfer, one command of `rpmh_write` or `rpmh_write_async` put in the cache, a batch, an
invalidation and a flush. -/
inductive Op (cfg : Config) where
  | rsc (a : Act cfg)
  | cache (state : RpmhState) (cmd : Cmd)
  | batch (wake : Bool) (cmds : List Cmd)
  | invalidate
  | flush (ch : Fin cfg.channels)

variable {cfg : Config}

/-- The caches have been marked dirty. -/
def Sys.update (s : Sys cfg) (c : Ctrlr) : Sys cfg :=
  { s with ctrlr := c, programmed := fun ch => s.programmed ch && !c.dirty }

def Sys.flush (s : Sys cfg) (ch : Fin cfg.channels) : Sys cfg :=
  let (d, c, ok) := rpmhFlush cfg ch s.drv s.ctrlr
  ⟨d, c, if ok then Function.update s.programmed ch (s.programmed ch || s.ctrlr.dirty) else s.programmed⟩

inductive SysStep (cfg : Config) : Sys cfg → Op cfg → Sys cfg → Prop
  | rsc {s : Sys cfg} {a : Act cfg} {r : Rsc} (hstep : Step cfg s.drv.rsc a r) :
      SysStep cfg s (.rsc a) { s with drv := { s.drv with rsc := r } }
  | cache {s : Sys cfg} {state : RpmhState} {cmd : Cmd} {c : Ctrlr} (hcache : cacheRpmRequest s.ctrlr state cmd = some c) :
      SysStep cfg s (.cache state cmd) (s.update c)
  | full {s : Sys cfg} {state : RpmhState} {cmd : Cmd} (hcache : cacheRpmRequest s.ctrlr state cmd = none) :
      SysStep cfg s (.cache state cmd) s
  | batch {s : Sys cfg} {wake : Bool} {cmds : List Cmd} : SysStep cfg s (.batch wake cmds) (s.update (rpmhWriteBatch s.ctrlr wake cmds))
  | invalidate {s : Sys cfg} : SysStep cfg s .invalidate (s.update (rpmhInvalidate s.ctrlr))
  | flush {s : Sys cfg} {ch : Fin cfg.channels} : SysStep cfg s (.flush ch) (s.flush ch)

/-- Nothing is cached and no TCS holds a command. -/
def Sys.initial : Sys cfg where
  drv := ⟨.initial, fun _ _ _ => false⟩
  ctrlr := ⟨false, [], [], []⟩
  programmed _ := true

/-- The sleep and wake TCSes of a channel hold exactly what the caches prescribe. -/
def Holds (s : Sys cfg) (ch : Fin cfg.channels) : Prop :=
  contents cfg s.drv.rsc ch .sleep = sleepCmds s.ctrlr ∧ contents cfg s.drv.rsc ch .wake = wakeCmds s.ctrlr

/-- A flush that returns 0 leaves what the caches prescribe. -/
def FlushGood (s : Sys cfg) : Op cfg → Sys cfg → Prop
  | .flush ch, t => (rpmhFlush cfg ch s.drv s.ctrlr).2.2 = true → Holds t ch
  | _, _ => True

/-- A transfer is on a TCS, or its interrupt has not been handled to the end. -/
def Lent (r : Rsc) (i : Nat) : Prop := r.job i ≠ none ∨ r.irqStatus i = true ∨ r.handling i = true

/-- The condition for a step. A transfer that borrows a wake TCS takes one that is not lent and, unless
the caches are dirty, has no command. The value that stands for an unset vote does not unset a request
that is in the TCSes. No wake TCS of a flushed channel is lent, and a flush that is skipped is for a
channel that has been programmed since the caches were dirty. -/
def Orderly (s : Sys cfg) : Op cfg → Prop
  | .rsc (.send ch msg) => activeType cfg ch = .wake → ∀ i, claimTcsForReq cfg s.drv.rsc (activeGroup cfg ch) msg.cmds = some i →
      ¬ Lent s.drv.rsc i ∧ (s.ctrlr.dirty = true ∨ ∀ j < cfg.ncpt, s.drv.rsc.enable i j = false)
  | .cache _ cmd => s.ctrlr.dirty = true ∨ cmd.data ≠ uintMax ∨
      ∀ req ∈ s.ctrlr.nonBatch, req.addr = cmd.addr → isReqValid req = false
  | .flush ch => (∀ i, (cfg.group ch .wake).Has i → ¬ Lent s.drv.rsc i) ∧ (s.ctrlr.dirty = true ∨ s.programmed ch = true)
  | _ => True

/-! ### The invariant -/

/-- What orderly steps keep. -/
structure Inv (s : Sys cfg) : Prop where
  lent : ∀ i, Lent s.drv.rsc i → ∃ ch, (activeGroup cfg ch).Has i
  tidySleep : ∀ ch, Tidy cfg s.drv ch .sleep
  tidyWake : ∀ ch, ∀ k < slotCount cfg ch .wake, ¬ Lent s.drv.rsc (cellTcs cfg ch .wake k) →
    cellOn cfg s.drv.rsc ch .wake k = true → s.drv.slots ch .wake k = true
  -- a transfer on a borrowed TCS has its interrupt ahead of it
  running : ∀ ch i, activeType cfg ch = .wake → (cfg.group ch .wake).Has i → s.drv.rsc.job i ≠ none →
    s.drv.rsc.irqEnable i = true ∧ s.drv.rsc.irqStatus i = false ∧ s.drv.rsc.handling i = false
  pending : ∀ ch i, activeType cfg ch = .wake → (cfg.group ch .wake).Has i → s.drv.rsc.irqStatus i = true →
    s.drv.rsc.handling i = false
  reclaimed : ∀ ch i, activeType cfg ch = .wake → (cfg.group ch .wake).Has i → s.drv.rsc.handling i = true →
    ∀ j, s.drv.rsc.enable i j = false
  dirty : s.ctrlr.dirty = true → ∀ ch, s.programmed ch = false
  stored : s.ctrlr.dirty = false → ∀ ch, s.programmed ch = true →
    Stored cfg s.drv ch .sleep (sleepCmds s.ctrlr) ∧ Stored cfg s.drv ch .wake (wakeCmds s.ctrlr) ∧
      ∀ k < (wakeCmds s.ctrlr).length, ¬ Lent s.drv.rsc (cellTcs cfg ch .wake k)

section
variable {s t : Sys cfg} {r r' : Rsc} {ch ch' : Fin cfg.channels} {i k l : Nat} {a : Act cfg} {c : Ctrlr} {cmd : Cmd} {state : RpmhState}

theorem inv_initial : Inv (Sys.initial : Sys cfg) where
  lent i h := by
    rcases h with h | h | h
    · exact absurd rfl h
    · cases h
    · cases h
  tidySleep ch k _ hon := by cases hon
  tidyWake ch k _ _ hon := by cases hon
  running ch i _ _ h := absurd rfl h
  pending ch i _ _ h := by cases h
  reclaimed ch i _ _ h := by cases h
  dirty h := by cases h
  stored _ ch _ :=
    ⟨⟨Nat.zero_le _, fun _ _ => rfl, nofun⟩,
      ⟨Nat.zero_le _, fun _ _ => rfl, nofun⟩, nofun⟩

/-- A TCS that transfers use is a sleep TCS of no channel. -/
theorem not_sleep_of_active (h : (activeGroup cfg ch).Has i) : ¬ (cfg.group ch' .sleep).Has i := by
  intro hsleep
  have hty := (cfg.apart _ _ _ _ _ h hsleep).2
  unfold activeType at hty
  split at hty <;> cases hty

/-- A wake TCS that transfers use is borrowed. -/
theorem borrowed_of_active (h : (activeGroup cfg ch).Has i) (hwake : (cfg.group ch' .wake).Has i) :
    ch = ch' ∧ activeType cfg ch' = .wake := by
  obtain ⟨rfl, hty⟩ := cfg.apart _ _ _ _ _ h hwake
  exact ⟨rfl, hty⟩

/-! ### Steps of transfers -/

/-- A step leaves everything about a TCS as it is. -/
structure SameTcs (r r' : Rsc) (l : Nat) : Prop where
  job : r'.job l = r.job l
  irqEnable : r'.irqEnable l = r.irqEnable l
  irqStatus : r'.irqStatus l = r.irqStatus l
  handling : r'.handling l = r.handling l
  enable : r'.enable l = r.enable l
  cmd : r'.cmd l = r.cmd l

/-- Where the transfer on a borrowed TCS stands. -/
structure Phase (r : Rsc) (l : Nat) : Prop where
  running : r.job l ≠ none → r.irqEnable l = true ∧ r.irqStatus l = false ∧ r.handling l = false
  pending : r.irqStatus l = true → r.handling l = false
  reclaimed : r.handling l = true → ∀ j, r.enable l j = false

theorem SameTcs.lent (he : SameTcs r r' l) : Lent r' l ↔ Lent r l := by
  unfold Lent
  rw [he.job, he.irqStatus, he.handling]

theorem SameTcs.phase (he : SameTcs r r' l) (h : Phase r l) : Phase r' l := by
  constructor
  · rw [he.job, he.irqEnable, he.irqStatus, he.handling]
    exact h.running
  · rw [he.irqStatus, he.handling]
    exact h.pending
  · rw [he.handling, he.enable]
    exact h.reclaimed

section
variable (h : Inv s)
include h

theorem Inv.phase (hborrow : activeType cfg ch = .wake) (hl : (cfg.group ch .wake).Has l) : Phase s.drv.rsc l :=
  ⟨h.running ch l hborrow hl, h.pending ch l hborrow hl, h.reclaimed ch l hborrow hl⟩

/-- A TCS that transfers use may change: no sleep TCS does, and no wake TCS that holds a stored command.
A wake TCS that is given back has no command. -/
theorem inv_rsc_of_tcs (hactive : (activeGroup cfg ch).Has i) (hsame : ∀ l, l ≠ i → SameTcs s.drv.rsc r l)
    (hfree : s.ctrlr.dirty = false → ∀ ch, s.programmed ch → ∀ k < (wakeCmds s.ctrlr).length, cellTcs cfg ch .wake k ≠ i)
    (hphase : activeType cfg ch = .wake → (cfg.group ch .wake).Has i → Phase r i ∧ (Lent r i ∨ ∀ j, r.enable i j = false)) :
    Inv { s with drv := { s.drv with rsc := r } } := by
  have hsleep : ∀ ch, SameGroup cfg ch .sleep s.drv { s.drv with rsc := r } := by
    intro ch
    refine sameGroup_of_rows rfl fun l hl => ?_
    have he := hsame l fun hli => not_sleep_of_active hactive (hli ▸ hl)
    exact ⟨he.enable, he.cmd⟩
  have hwake : ∀ ch k, cellTcs cfg ch .wake k ≠ i → cellOn cfg r ch .wake k = cellOn cfg s.drv.rsc ch .wake k ∧
      cellCmd cfg r ch .wake k = cellCmd cfg s.drv.rsc ch .wake k := by
    intro ch k hk
    unfold cellOn cellCmd
    rw [(hsame _ hk).enable, (hsame _ hk).cmd]
    exact ⟨rfl, rfl⟩
  have hphases : ∀ ch l, activeType cfg ch = .wake → (cfg.group ch .wake).Has l → Phase r l := by
    intro ch' l hborrow hl
    by_cases hli : l = i
    · subst hli
      obtain ⟨rfl, -⟩ := borrowed_of_active hactive hl
      exact (hphase hborrow hl).1
    · exact (hsame l hli).phase (h.phase hborrow hl)
  refine ⟨fun l hl => ?_, fun ch => (h.tidySleep ch).same (hsleep ch), fun ch' k hk hno hon => ?_,
    fun ch l hb hl => (hphases ch l hb hl).running, fun ch l hb hl => (hphases ch l hb hl).pending,
    fun ch l hb hl => (hphases ch l hb hl).reclaimed, h.dirty, fun hd ch hp => ?_⟩
  · by_cases hli : l = i
    · exact ⟨ch, hli ▸ hactive⟩
    · exact h.lent l ((hsame l hli).lent.mp hl)
  · by_cases hki : cellTcs cfg ch' .wake k = i
    · have hhas := cellTcs_has hk
      rw [hki] at hhas hno
      obtain ⟨rfl, hborrow⟩ := borrowed_of_active hactive hhas
      have hoff := (hphase hborrow hhas).2.resolve_left hno (k % cfg.ncpt)
      unfold cellOn at hon
      rw [hki, hoff] at hon
      cases hon
    · rw [(hwake ch' k hki).1] at hon
      exact h.tidyWake ch' k hk (fun hl => hno ((hsame _ hki).lent.mpr hl)) hon
  · obtain ⟨hs, hw, hl⟩ := h.stored hd ch hp
    refine ⟨hs.same (hsleep ch), ⟨hw.fits, hw.slots, fun k hk => ?_⟩, fun k hk hlk => ?_⟩
    · have hki := hfree hd ch hp k hk
      rw [(hwake ch k hki).1, (hwake ch k hki).2]
      exact hw.cells k hk
    · exact hl k hk ((hsame _ (hfree hd ch hp k hk)).lent.mp hlk)

/-- A TCS that is lent holds no stored command. -/
theorem inv_rsc_of_lent (hlent : Lent s.drv.rsc i) (hsame : ∀ l, l ≠ i → SameTcs s.drv.rsc r l)
    (hphase : Phase s.drv.rsc i → Phase r i ∧ (Lent r i ∨ ∀ j, r.enable i j = false)) :
    Inv { s with drv := { s.drv with rsc := r } } := by
  obtain ⟨ch, hactive⟩ := h.lent i hlent
  refine inv_rsc_of_tcs h hactive hsame (fun hd ch' hp k hk heq => ?_) fun hborrow hhas => hphase (h.phase hborrow hhas)
  exact (h.stored hd ch' hp).2.2 k hk (heq ▸ hlent)

theorem inv_send {msg : Msg cfg} (hok : Orderly s (.rsc (.send ch msg)))
    (hclaim : claimTcsForReq cfg s.drv.rsc (activeGroup cfg ch) msg.cmds = some i) :
    Inv { s with drv := { s.drv with rsc := sendData cfg s.drv.rsc ch msg i } } := by
  obtain ⟨-, hhas, -⟩ := find_claim hclaim
  refine inv_rsc_of_tcs h hhas (fun l hl => ?_) (fun hd ch' hp k hk heq => ?_) (fun hborrow _ => ?_)
  · refine ⟨?_, ?_, by rw [irqStatus_sendData], by rw [handling_sendData], (rows_sendData hl).1, (rows_sendData hl).2⟩
    · rw [job_sendData, update_of_ne hl]
    · rw [irqEnable_sendData, update_of_ne hl]
  · obtain ⟨-, hw, -⟩ := h.stored hd ch' hp
    have hk' : k < slotCount cfg ch' .wake := lt_of_lt_of_le hk hw.fits
    obtain ⟨rfl, hborrow⟩ := borrowed_of_active hhas (heq ▸ cellTcs_has hk')
    have hon := (hw.cells k hk).1
    unfold cellOn at hon
    rcases (hok hborrow i hclaim).2 with hdirty | hclear
    · cases hd.symm.trans hdirty
    · rw [heq, hclear _ (Nat.mod_lt _ cfg.ncpt_pos)] at hon
      cases hon
  · -- the claimed TCS is borrowed, and was not lent
    have hnot := (hok hborrow i hclaim).1
    unfold Lent at hnot
    simp only [not_or, Bool.not_eq_true] at hnot
    obtain ⟨-, hirq, hhandling⟩ := hnot
    refine ⟨⟨fun _ => ?_, fun _ => ?_, fun hh => ?_⟩, .inl (.inl ?_)⟩
    · rw [irqEnable_sendData, irqStatus_sendData, handling_sendData, update_self, hborrow]
      exact ⟨by simp, hirq, hhandling⟩
    · rw [handling_sendData, hhandling]
    · rw [handling_sendData, hhandling] at hh
      cases hh
    · rw [job_sendData, update_self]
      exact Option.some_ne_none _

theorem inv_deliver {cmds cs : List Cmd} (hjob : s.drv.rsc.job i = some ⟨cmds, cmd :: cs⟩) :
    Inv { s with drv := { s.drv with rsc := deliverCmd s.drv.rsc i cmds cs } } := by
  have hsome : s.drv.rsc.job i ≠ none := by simp [hjob]
  refine inv_rsc_of_lent h (.inl hsome) (fun l hl => ⟨update_of_ne hl .., rfl, rfl, rfl, rfl, rfl⟩) fun hold => ?_
  refine ⟨⟨fun _ => hold.running hsome, hold.pending, hold.reclaimed⟩, .inl (.inl ?_)⟩
  simp [deliverCmd]

theorem inv_finish {cmds : List Cmd} (hjob : s.drv.rsc.job i = some ⟨cmds, []⟩) :
    Inv { s with drv := { s.drv with rsc := finishJob s.drv.rsc i } } := by
  have hsome : s.drv.rsc.job i ≠ none := by simp [hjob]
  refine inv_rsc_of_lent h (.inl hsome)
    (fun l hl => ⟨update_of_ne hl .., rfl, update_of_ne hl .., rfl, rfl, rfl⟩) fun hold => ?_
  obtain ⟨henable, -, hhandling⟩ := hold.running hsome
  refine ⟨⟨fun hj => absurd (update_self ..) hj, fun _ => hhandling, hold.reclaimed⟩, .inl (.inr (.inl ?_))⟩
  simp [finishJob, henable]

theorem inv_reclaim (hirq : s.drv.rsc.irqStatus i) :
    Inv { s with drv := { s.drv with rsc := reclaimTcs s.drv.rsc i } } := by
  refine inv_rsc_of_lent h (.inr (.inl hirq))
    (fun l hl => ⟨rfl, rfl, update_of_ne hl .., update_of_ne hl .., update_of_ne hl .., rfl⟩) fun hold => ?_
  refine ⟨⟨fun hj => ?_, fun hirq' => ?_, fun _ j => ?_⟩, .inl (.inr (.inr (update_self ..)))⟩
  · cases hirq.symm.trans (hold.running hj).2.1
  · simp [reclaimTcs] at hirq'
  · simp [reclaimTcs]

theorem inv_release (hhandling : s.drv.rsc.handling i) :
    Inv { s with drv := { s.drv with rsc := releaseTcs s.drv.rsc i cfg } } := by
  refine inv_rsc_of_lent h (.inr (.inr hhandling))
    (fun l hl => ⟨rfl, update_of_ne hl .., rfl, update_of_ne hl .., rfl, rfl⟩) fun hold => ?_
  refine ⟨⟨fun hj => ?_, fun _ => update_self .., fun hh => ?_⟩, .inr (hold.reclaimed hhandling)⟩
  · cases hhandling.symm.trans (hold.running hj).2.2
  · simp [releaseTcs] at hh

theorem inv_rsc (hok : Orderly s (.rsc a)) (hstep : Step cfg s.drv.rsc a r) :
    Inv { s with drv := { s.drv with rsc := r } } := by
  cases hstep with
  | send hclaim => exact inv_send h hok hclaim
  | deliver hjob => exact inv_deliver h hjob
  | finish hjob => exact inv_finish h hjob
  | reclaim hirq => exact inv_reclaim h hirq
  | release hhandling => exact inv_release h hhandling

end

/-! ### Updates of the caches -/

/-- A value that does not mark the caches dirty is the old one, or the request is not programmed before
and after. -/
theorem set_clean {req : CacheReq} {data : Nat} (hclean : req.dirties (req.set state data) = false)
    (hok : data ≠ uintMax ∨ isReqValid req = false) :
    req.set state data = req ∨ isReqValid (req.set state data) = false ∧ isReqValid req = false := by
  obtain ⟨addr, sleepVal, wakeVal⟩ := req
  unfold CacheReq.dirties CacheReq.set at *
  unfold isReqValid at *
  cases state <;>
  · dsimp only at hclean hok ⊢
    simp only [Bool.and_eq_false_iff, Bool.or_eq_false_iff, bne_eq_false_iff_eq, CacheReq.mk.injEq] at hclean hok ⊢
    grind

/-- What a value put in the cache does not mark dirty does not change what the caches prescribe. -/
theorem cacheIn_clean {reqs : List CacheReq} (hok : cmd.data ≠ uintMax ∨ ∀ req ∈ reqs, req.addr = cmd.addr → isReqValid req = false)
    (hclean : (cacheIn state cmd reqs).2 = false) :
    (cacheIn state cmd reqs).1.filter isReqValid = reqs.filter isReqValid := by
  induction reqs with
  | nil =>
    rw [cacheIn] at hclean ⊢
    have hnew : isReqValid ⟨cmd.addr, uintMax, uintMax⟩ = false := rfl
    rcases set_clean hclean (.inr hnew) with heq | ⟨hinvalid, -⟩
    · dsimp only
      rw [heq]
      rfl
    · dsimp only
      rw [filter_cons_of_neg (by simp [hinvalid])]
  | cons req reqs ih =>
    rw [cacheIn] at hclean ⊢
    by_cases haddr : req.addr = cmd.addr
    · rw [if_pos haddr] at hclean ⊢
      rcases set_clean hclean (hok.imp_right fun h => h req mem_cons_self haddr) with heq | ⟨hinvalid, hinvalid'⟩
      · rw [heq]
      · rw [filter_cons_of_neg (by simp [hinvalid]), filter_cons_of_neg (by simp [hinvalid'])]
    · rw [if_neg haddr] at hclean ⊢
      have hrest := ih (hok.imp_right fun h req' hreq => h req' (mem_cons_of_mem _ hreq)) hclean
      dsimp only
      rw [filter_cons, filter_cons, hrest]

theorem inv_update (h : Inv s) (hclean : c.dirty = false → s.ctrlr.dirty = false ∧ sleepCmds c = sleepCmds s.ctrlr ∧
    wakeCmds c = wakeCmds s.ctrlr) : Inv (s.update c) where
  lent := h.lent
  tidySleep := h.tidySleep
  tidyWake := h.tidyWake
  running := h.running
  pending := h.pending
  reclaimed := h.reclaimed
  dirty hd ch := by
    have hd' : c.dirty := hd
    change (s.programmed ch && !c.dirty) = false
    rw [hd', Bool.not_true, Bool.and_false]
  stored hd ch hp := by
    obtain ⟨hd', hsleep, hwake⟩ := hclean hd
    change Stored cfg s.drv ch .sleep (sleepCmds c) ∧ Stored cfg s.drv ch .wake (wakeCmds c) ∧
      ∀ k < (wakeCmds c).length, ¬ Lent s.drv.rsc (cellTcs cfg ch .wake k)
    rw [hsleep, hwake]
    exact h.stored hd' ch (Bool.and_eq_true_iff.mp hp).1

theorem inv_cache (h : Inv s) (hok : Orderly s (.cache state cmd)) (hcache : cacheRpmRequest s.ctrlr state cmd = some c) :
    Inv (s.update c) := by
  refine inv_update h fun hd => ?_
  unfold cacheRpmRequest at hcache
  split at hcache
  · cases hcache
  · cases hcache
    have hd' : s.ctrlr.dirty = false ∧ (cacheIn state cmd s.ctrlr.nonBatch).2 = false := Bool.or_eq_false_iff.mp hd
    have hok' : cmd.data ≠ uintMax ∨ ∀ req ∈ s.ctrlr.nonBatch, req.addr = cmd.addr → isReqValid req = false := by
      refine hok.resolve_left ?_
      rw [hd'.1]
      exact Bool.false_ne_true
    have hsame := cacheIn_clean hok' hd'.2
    refine ⟨hd'.1, ?_, ?_⟩
    · unfold sleepCmds
      dsimp only
      rw [hsame]
    · unfold wakeCmds
      dsimp only
      rw [hsame]

/-! ### Flushes -/

/-- Nothing of the wake TCSes of a channel is lent. -/
theorem tidyWake_of_free (h : Inv s) (hfree : ∀ i, (cfg.group ch .wake).Has i → ¬ Lent s.drv.rsc i) : Tidy cfg s.drv ch .wake :=
  fun k hk hon => h.tidyWake ch k hk (hfree _ (cellTcs_has hk)) hon

theorem flush_skipped (hd : s.ctrlr.dirty = false) : rpmhFlush cfg ch s.drv s.ctrlr = (s.drv, s.ctrlr, true) := by
  unfold rpmhFlush
  rw [hd]
  rfl

theorem sys_flush_skipped (hd : s.ctrlr.dirty = false) : s.flush ch = s := by
  unfold Sys.flush
  rw [flush_skipped hd, hd]
  dsimp only
  rw [if_pos rfl, Bool.or_false, update_eq_self]

theorem holds_of_stored (h : Inv s) (hd : s.ctrlr.dirty = false) (hp : s.programmed ch)
    (hfree : ∀ i, (cfg.group ch .wake).Has i → ¬ Lent s.drv.rsc i) : Holds s ch := by
  obtain ⟨hs, hw, -⟩ := h.stored hd ch hp
  exact ⟨contents_of_stored hs (h.tidySleep ch), contents_of_stored hw (tidyWake_of_free h hfree)⟩

theorem not_has_other (hne : ch' ≠ ch) {ty ty' : TcsType} (hi : (cfg.group ch' ty).Has i) : ¬ (cfg.group ch ty').Has i :=
  fun hi' => hne (cfg.apart _ _ _ _ _ hi hi').1

/-- The other channels do not notice a flush. -/
theorem Frame.other {d d' : Drv cfg} {ty : TcsType} (hf : Frame cfg ch d d') (hne : ch' ≠ ch) : SameGroup cfg ch' ty d d' :=
  sameGroup_of_rows (congrFun (hf.slots ch' hne) ty) fun i hi =>
    ⟨hf.rows i (not_has_other hne hi) (not_has_other hne hi), hf.cmds i (not_has_other hne hi) (not_has_other hne hi)⟩

theorem Frame.lent {d d' : Drv cfg} (hf : Frame cfg ch d d') : Lent d'.rsc i ↔ Lent d.rsc i := by
  unfold Lent
  rw [hf.job, hf.irqStatus, hf.handling]

theorem inv_flush_dirty (h : Inv s) (hd : s.ctrlr.dirty) (hfree : ∀ i, (cfg.group ch .wake).Has i → ¬ Lent s.drv.rsc i) :
    Inv (s.flush ch) ∧ ((rpmhFlush cfg ch s.drv s.ctrlr).2.2 → Holds (s.flush ch) ch) := by
  obtain ⟨hflushed, hctrlr⟩ := rpmhFlush_dirty hd (h.tidySleep ch) (tidyWake_of_free h hfree)
  unfold Sys.flush
  rcases hres : rpmhFlush cfg ch s.drv s.ctrlr with ⟨d, c, ok⟩
  rw [hres] at hflushed hctrlr
  dsimp only at hflushed hctrlr ⊢
  obtain ⟨hframe, ⟨sl, wl, hsome⟩, hall⟩ := hflushed
  dsimp only at hframe hsome hall
  have hcmds : sleepCmds c = sleepCmds s.ctrlr ∧ wakeCmds c = wakeCmds s.ctrlr := by
    rw [hctrlr]
    exact ⟨rfl, rfl⟩
  have hdirty : c.dirty = !ok := by rw [hctrlr]
  have hnone := h.dirty hd
  have hlent : ∀ i, Lent d.rsc i ↔ Lent s.drv.rsc i := fun i => hframe.lent
  refine ⟨⟨fun i hi => h.lent i ((hlent i).mp hi), fun ch' => ?_, fun ch' k hk hno hon => ?_, fun ch' i hb hi hj => ?_,
    fun ch' i hb hi hirq => ?_, fun ch' i hb hi hh => ?_, fun hd' ch' => ?_, fun hd' ch' hp => ?_⟩, fun hok => ?_⟩
  · by_cases hne : ch' = ch
    · subst hne
      exact hsome.tidySleep
    · exact (h.tidySleep ch').same (hframe.other hne)
  · dsimp only at hno hon ⊢
    by_cases hne : ch' = ch
    · subst hne
      exact hsome.tidyWake k hk hon
    · have hsame : SameGroup cfg ch' .wake s.drv d := hframe.other hne
      rw [hsame.on k hk] at hon
      rw [hsame.slots]
      exact h.tidyWake ch' k hk (fun hl => hno ((hlent _).mpr hl)) hon
  · dsimp only at hj ⊢
    rw [hframe.job] at hj
    rw [hframe.irqEnable, hframe.irqStatus, hframe.handling]
    exact h.running ch' i hb hi hj
  · dsimp only at hirq ⊢
    rw [hframe.irqStatus] at hirq
    rw [hframe.handling]
    exact h.pending ch' i hb hi hirq
  · dsimp only at hh ⊢
    rw [hframe.handling] at hh
    -- a TCS whose interrupt is being handled is lent, so not of this channel
    have hne : ch' ≠ ch := by
      rintro rfl
      exact hfree i hi (.inr (.inr hh))
    rw [hframe.rows i (not_has_other hne hi) (not_has_other hne hi)]
    exact h.reclaimed ch' i hb hi hh
  · dsimp only at hd' ⊢
    rw [hdirty] at hd'
    rw [if_neg (by simpa using hd')]
    exact hnone ch'
  · dsimp only at hd' hp ⊢
    rw [hdirty, Bool.not_eq_false'] at hd'
    rw [if_pos hd'] at hp
    have hch : ch' = ch := by
      by_contra hne
      rw [update_of_ne hne, hnone ch'] at hp
      cases hp
    subst hch
    have hheld := hall hd'
    rw [hcmds.1, hcmds.2]
    refine ⟨hheld.sleep, hheld.wake, fun k hk hl => ?_⟩
    exact hfree _ (cellTcs_has (lt_of_lt_of_le hk hheld.wake.fits)) ((hlent _).mp hl)
  · have hheld := hall hok
    unfold Holds
    dsimp only
    rw [hcmds.1, hcmds.2]
    exact ⟨contents_of_stored hheld.sleep hheld.tidySleep, contents_of_stored hheld.wake hheld.tidyWake⟩

/-! ### Runs -/

/-- An orderly step keeps the invariant, and a flush that returns 0 leaves what it should. -/
theorem orderly_step {op : Op cfg} (hstep : SysStep cfg s op t) (hok : Orderly s op) (h : Inv s) :
    FlushGood s op t ∧ Inv t := by
  cases hstep with
  | rsc hrsc => exact ⟨trivial, inv_rsc h hok hrsc⟩
  | cache hcache => exact ⟨trivial, inv_cache h hok hcache⟩
  | full hcache => exact ⟨trivial, h⟩
  | batch =>
    refine ⟨trivial, inv_update h fun hd => ?_⟩
    unfold rpmhWriteBatch at hd
    dsimp only at hd
    split at hd <;> cases hd
  | invalidate =>
    refine ⟨trivial, inv_update h fun hd => ?_⟩
    cases hd
  | @flush ch =>
    obtain ⟨hfree, hprog⟩ := hok
    cases hd : s.ctrlr.dirty with
    | true =>
      obtain ⟨hinv, hgood⟩ := inv_flush_dirty h hd hfree
      exact ⟨hgood, hinv⟩
    | false =>
      have hp : s.programmed ch := hprog.resolve_left (by rw [hd]; exact Bool.false_ne_true)
      rw [sys_flush_skipped hd]
      exact ⟨fun _ => holds_of_stored h hd hp hfree, h⟩

/-- In a run of orderly steps every flush that returns 0 leaves in the TCSes of its channel exactly
what the caches prescribe. -/
theorem flush_programs_caches {run : List (Op cfg × Sys cfg)} (hrun : Lts.Path (SysStep cfg) .initial run)
    (hok : Lts.Steps Orderly .initial run) : Lts.Path FlushGood .initial run :=
  hrun.good_of_steps (I := Inv) (fun _ _ _ => orderly_step) hok inv_initial

end

/-! ### Two channels -/

theorem sixteen_pos : 0 < 16 := by decide

theorem twoChannels_apart (c : Fin 2) (t : TcsType) (c' : Fin 2) (t' : TcsType) (i : Nat)
    (h : Group.Has ⟨3 * c.val + (match t with | .active => 0 | .sleep => 1 | .wake => 2), 1⟩ i)
    (h' : Group.Has ⟨3 * c'.val + (match t' with | .active => 0 | .sleep => 1 | .wake => 2), 1⟩ i) : c = c' ∧ t = t' := by
  unfold Group.Has at h h'
  cases t <;> cases t' <;> dsimp only at h h' <;> refine ⟨Fin.ext ?_, ?_⟩ <;> first | rfl | omega

def twoChannels : Config where
  channels := 2
  ncpt := 16
  group ch ty := ⟨3 * ch.val + (match ty with | .active => 0 | .sleep => 1 | .wake => 2), 1⟩
  ncpt_pos := sixteen_pos
  apart := twoChannels_apart

def firstChannel : Fin twoChannels.channels := ⟨0, by decide⟩
def secondChannel : Fin twoChannels.channels := ⟨1, by decide⟩

/-- A sleep set is cached and flushed to the first channel. -/
def cached : Sys twoChannels := (Sys.initial : Sys twoChannels).update (rpmhWriteBatch ⟨false, [], [], []⟩ false [⟨1, 5⟩])

def firstFlush : List (Op twoChannels × Sys twoChannels) :=
  [(.batch false [⟨1, 5⟩], cached), (.flush firstChannel, cached.flush firstChannel)]

theorem path_firstFlush : Lts.Path (SysStep twoChannels) .initial firstFlush := ⟨.batch, .flush, trivial⟩

theorem orderly_firstFlush : Lts.Steps Orderly .initial firstFlush := by
  refine ⟨trivial, ⟨?_, .inl rfl⟩, trivial⟩
  intro i _ hlent
  rcases hlent with h | h | h
  · exact h rfl
  · cases h
  · cases h

theorem flush_programs_first : Lts.Path FlushGood .initial firstFlush := flush_programs_caches path_firstFlush orderly_firstFlush

/-- A flush of the second channel is skipped and returns 0, but its TCSes are empty. -/
theorem flush_skips_channel :
    Lts.Path (SysStep twoChannels) .initial (firstFlush ++ [(.flush secondChannel, (cached.flush firstChannel).flush secondChannel)]) ∧
      (rpmhFlush twoChannels secondChannel (cached.flush firstChannel).drv (cached.flush firstChannel).ctrlr).2.2 = true ∧
      contents twoChannels ((cached.flush firstChannel).flush secondChannel).drv.rsc secondChannel .sleep = [] ∧
      sleepCmds ((cached.flush firstChannel).flush secondChannel).ctrlr = [⟨1, 5⟩] :=
  ⟨⟨.batch, .flush, .flush, trivial⟩, by decide +kernel, by decide +kernel, by decide +kernel⟩

end Sm8850.Rpmh
