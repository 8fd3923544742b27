import Sm8850.Gunyah.Resources

/-! What the steps for one entry do to the capability tables. -/
namespace Sm8850.Gunyah
open Function Option Tables Entry

/-- A place for a capability, other than the records of the vCPUs. -/
inductive Slot
  | mq (label : Label) (dir : Dir)
  | dbTx (label : Label)
  | dbRx (label : Label)
  | vpmGrp
  | wdog
  deriving DecidableEq

def Entry.slot (e : Entry) : Option Slot :=
  match e.type with
  | .mqTx => some (.mq e.label .tx)
  | .mqRx => some (.mq e.label .rx)
  | .dbTx => some (.dbTx e.label)
  | .dbRx => some (.dbRx e.label)
  | .vpmGrp => some .vpmGrp
  | .watchdog => some .wdog
  | .vcpu | .virtioMmio | .unknown => none

def Entry.isMq (e : Entry) : Bool := e.type = .mqTx || e.type = .mqRx

def Tables.occupied (t : Tables) : Slot → Bool
  | .mq label dir => ((t.msgq label).bind (· dir)).isSome
  | .dbTx label => (t.dblTx label).isSome
  | .dbRx label => (t.dblRx label).isSome
  | .vpmGrp => t.vpmGrp.isSome
  | .wdog => t.wdog.isSome

def Tables.listed (t : Tables) (label : Label) : Bool := (t.msgq label).isSome

def Tables.setMsgq (t : Tables) (label : Label) (q : Option (Dir → Option (CapId × Int))) : Tables :=
  { t with msgq := update t.msgq label q }

/-- The two directions of a message queue, empty where it is not listed. -/
def Tables.row (t : Tables) (label : Label) : Dir → Option (CapId × Int) := fun d => (t.msgq label).bind (· d)

section Fails

variable (env : Env) (taken : Slot → Bool) (listed : Label → Bool) (e : Entry)

/-- `gh_msgq_populate_cap_info` gives up before it asks for the IRQ. -/
def mqRefused (dir : Dir) : Bool :=
  e.label.toInt < env.minMsgq || taken (.mq e.label dir) || (!listed e.label && e.fate.alloc < 0)

/-- The step of the second loop for an entry fails, where `taken` slots are occupied and `listed` message
queues exist. -/
def stepFails : Bool :=
  match e.type with
  | .mqTx => mqRefused env taken listed e .tx || requestIrq e (getIrq env e) < 0
  | .mqRx => mqRefused env taken listed e .rx || requestIrq e (getIrq env e) < 0
  | .vcpu => false
  | .dbTx => !decide (dblLabelOk env e) || 0 < getIrq env e
  | .dbRx => !decide (dblLabelOk env e) || getIrq env e ≤ 0 || e.fate.request < 0
  | .vpmGrp => env.proxyCb && env.supportsProxy && !taken .vpmGrp && requestIrq e (getIrq env e) < 0
  | .virtioMmio => env.virtioCb && e.fate.virtio < 0
  | .watchdog => env.proxyCb && (!env.supportsProxy || e.fate.wdog < 0)
  | .unknown => true

/-- The queue that a failing step takes off the list. -/
def dropped : Option Label :=
  match e.type with
  | .mqTx => if mqRefused env taken listed e .tx then none else some e.label
  | .mqRx => if mqRefused env taken listed e .rx then none else some e.label
  | _ => none

end Fails

section Msgq

variable {env : Env} {t : Tables} {e : Entry} {dir : Dir} {irq : Int}

/-- The three ways in which a message queue is populated. -/
inductive MsgqOutcome (env : Env) (t : Tables) (e : Entry) (dir : Dir) (irq : Int) : Prop
  | refused (r : Int) (hr : r < 0) (href : mqRefused env t.occupied t.listed e dir = true)
      (heq : msgqPopulateCapInfo env t e dir irq = (t, r))
  | dropped (href : mqRefused env t.occupied t.listed e dir = false) (hreq : requestIrq e irq < 0)
      (heq : msgqPopulateCapInfo env t e dir irq = (t.setMsgq e.label none, requestIrq e irq))
  | stored (href : mqRefused env t.occupied t.listed e dir = false) (hreq : 0 ≤ requestIrq e irq)
      (heq : msgqPopulateCapInfo env t e dir irq =
        (t.setMsgq e.label (some (update (t.row e.label) dir (some (e.capId, irq)))), 0))

theorem msgqOutcome_of_request (href : mqRefused env t.occupied t.listed e dir = false)
    (heq : msgqPopulateCapInfo env t e dir irq = msgqRequest t e dir irq (t.row e.label)) :
    MsgqOutcome env t e dir irq := by
  by_cases hr : requestIrq e irq < 0
  · refine .dropped href hr ?_
    rw [heq, msgqRequest, if_pos hr]
    rfl
  · refine .stored href (by omega) ?_
    rw [heq, msgqRequest, if_neg hr]
    rfl

theorem msgqPopulate_outcome (env : Env) (t : Tables) (e : Entry) (dir : Dir) (h0 : 0 ≤ irq) :
    MsgqOutcome env t e dir irq := by
  have hirq : ¬ irq < 0 := by omega
  by_cases hl : e.label.toInt < env.minMsgq
  · exact .refused (-EINVAL) (by decide) (by simp [mqRefused, hl]) (by simp [msgqPopulateCapInfo, hl])
  rcases eq_none_or_eq_some (t.msgq e.label) with hq | ⟨q, hq⟩
  · by_cases ha : e.fate.alloc < 0
    · exact .refused e.fate.alloc ha (by simp [mqRefused, listed, hq, ha])
        (by simp [msgqPopulateCapInfo, hl, hirq, hq, ha])
    · have hrow : t.row e.label = fun _ => none := by funext d; simp [row, hq]
      apply msgqOutcome_of_request
      · simp only [mqRefused, occupied, hq]
        simp [ha, hl]
      · simp [msgqPopulateCapInfo, hl, hirq, hq, ha, hrow]
  · have hrow : t.row e.label = q := by funext d; simp [row, hq]
    rcases eq_none_or_eq_some (q dir) with hd | ⟨v, hd⟩
    · apply msgqOutcome_of_request
      · simp [mqRefused, occupied, listed, hq, hd, hl]
      · simp [msgqPopulateCapInfo, hl, hirq, hq, hd, hrow]
    · exact .refused (-EINVAL) (by decide) (by simp [mqRefused, occupied, hq, hd])
        (by simp [msgqPopulateCapInfo, hl, hirq, hq, hd])

end Msgq

/-- The tables with an entry's capability, and its IRQ where there is one, in a slot; the VPM group keeps its first
IRQ. -/
def Tables.store (t : Tables) (e : Entry) (irq : Int) : Slot → Tables
  | .mq label dir => t.setMsgq label (some (update (t.row label) dir (some (e.capId, irq))))
  | .dbTx label => { t with dblTx := update t.dblTx label (some e.capId) }
  | .dbRx label =>
    { t with
      dblIrq := update t.dblIrq label irq
      dblRx := update t.dblRx label (some e.capId) }
  | .vpmGrp => { t with vpmGrp := t.vpmGrp.or (some irq) }
  | .wdog => { t with wdog := some e.capId }

/-- The tables with a slot emptied. -/
def Tables.clear (t : Tables) : Slot → Tables
  | .mq label dir => t.setMsgq label (some (update (t.row label) dir none))
  | .dbTx label => { t with dblTx := update t.dblTx label none }
  | .dbRx label =>
    { t with
      dblIrq := update t.dblIrq label 0
      dblRx := update t.dblRx label none }
  | .vpmGrp => { t with vpmGrp := none }
  | .wdog => { t with wdog := none }

/-- The slot that the entry stores its capability in. -/
def Entry.target (env : Env) (e : Entry) : Option Slot := if e.stores env then e.slot else none

/-- What a failing step leaves behind: its message queue is off the list, or the IRQ of its doorbell noted. -/
def Tables.spoiled (env : Env) (t : Tables) (e : Entry) (irq : Int) : Tables :=
  match dropped env t.occupied t.listed e with
  | some label => t.setMsgq label none
  | none =>
    if e.type = .dbRx ∧ dblLabelOk env e ∧ 0 < irq then { t with dblIrq := update t.dblIrq e.label irq } else t

section Slots

variable {env : Env} {t : Tables} {e : Entry} {irq : Int}

theorem target_eq_some {sl : Slot} : e.target env = some sl ↔ e.stores env ∧ e.slot = some sl := by
  unfold target
  split
  · next h => simp [h]
  · next h => simp [h]

theorem target_mq (env : Env) {label : Label} {dir : Dir} : e.target env = some (.mq label dir) ↔ e.slot = some (.mq label dir) := by
  rw [target_eq_some]
  refine ⟨And.right, fun h => ⟨?_, h⟩⟩
  cases ht : e.type <;> simp [slot, ht] at h <;> simp [stores, ht]

theorem row_isSome (t : Tables) (label : Label) (dir : Dir) :
    t.occupied (.mq label dir) = (t.row label dir).isSome := rfl

theorem row_setMsgq (label l : Label) (q : Option (Dir → Option (CapId × Int))) (d : Dir) :
    (t.setMsgq label q).row l d = if l = label then q.bind (· d) else t.row l d := by
  by_cases hl : l = label
  · subst hl; simp [setMsgq, row]
  · simp [setMsgq, row, hl]

theorem row_update (l label : Label) (dir d : Dir) (v : Option (CapId × Int)) :
    (t.setMsgq l (some (update (t.row l) dir v))).row label d = if Slot.mq l dir = .mq label d then v else t.row label d := by
  rw [row_setMsgq]
  by_cases hl : label = l
  · subst hl
    by_cases hd : d = dir
    · simp [hd]
    · simp [hd, Ne.symm hd]
  · simp [hl, Ne.symm hl]

theorem row_store (sl : Slot) (label : Label) (d : Dir) :
    (t.store e irq sl).row label d = if sl = .mq label d then some (e.capId, irq) else t.row label d := by
  cases sl with
  | mq l dir => exact row_update ..
  | _ => simp only [store, reduceCtorEq, if_false]; rfl

theorem row_clear (sl : Slot) (label : Label) (d : Dir) :
    (t.clear sl).row label d = if sl = .mq label d then none else t.row label d := by
  cases sl with
  | mq l dir => exact row_update ..
  | _ => simp only [clear, reduceCtorEq, if_false]; rfl

theorem occupied_store (sl x : Slot) : (t.store e irq sl).occupied x = (t.occupied x || decide (sl = x)) := by
  cases x with
  | mq l d =>
    rw [row_isSome, row_isSome, row_store]
    by_cases h : sl = .mq l d <;> simp [h]
  | dbTx l | dbRx l =>
    cases sl with
    | dbTx k | dbRx k => by_cases hk : l = k <;> simp [store, occupied, hk, eq_comm]
    | _ => simp [store, setMsgq, occupied]
  | vpmGrp | wdog => cases sl <;> simp [store, setMsgq, occupied]

theorem occupied_clear (sl x : Slot) : (t.clear sl).occupied x = (t.occupied x && !decide (sl = x)) := by
  cases x with
  | mq l d =>
    rw [row_isSome, row_isSome, row_clear]
    by_cases h : sl = .mq l d <;> simp [h]
  | dbTx l | dbRx l =>
    cases sl with
    | dbTx k | dbRx k => by_cases hk : l = k <;> simp [clear, occupied, hk, eq_comm]
    | _ => simp [clear, setMsgq, occupied]
  | vpmGrp | wdog => cases sl <;> simp [clear, setMsgq, occupied]

theorem listed_setMsgq (label l : Label) (q : Option (Dir → Option (CapId × Int))) :
    (t.setMsgq label q).listed l = if l = label then q.isSome else t.listed l := by
  by_cases hl : l = label
  · subst hl; simp [setMsgq, listed]
  · simp [setMsgq, listed, hl]

@[simp] theorem vcpus_store (sl : Slot) : (t.store e irq sl).vcpus = t.vcpus := by cases sl <;> rfl

@[simp] theorem vcpus_clear (sl : Slot) : (t.clear sl).vcpus = t.vcpus := by cases sl <;> rfl

end Slots

section Populate

variable {env : Env} {t : Tables} {e : Entry}

/-- The step of the second loop for an entry: it fails as the tables and the entry say, or stores the
capability of the entry. -/
inductive EntryOutcome (env : Env) (t : Tables) (e : Entry) (r : Tables × Int) : Prop
  | failed (hf : stepFails env t.occupied t.listed e = true) (hr : r.2 < 0)
      (ht : r.1 = t.spoiled env e (getIrq env e))
  | stored (hf : stepFails env t.occupied t.listed e = false) (hr : 0 ≤ r.2)
      (ht : r.1 = (e.target env).elim t (t.store e (getIrq env e)))

theorem entryOutcome_mq (h0 : 0 ≤ getIrq env e) {dir : Dir} (hslot : e.slot = some (.mq e.label dir))
    (hfails : stepFails env t.occupied t.listed e =
      (mqRefused env t.occupied t.listed e dir || decide (requestIrq e (getIrq env e) < 0)))
    (hdrop : dropped env t.occupied t.listed e =
      if mqRefused env t.occupied t.listed e dir then none else some e.label) (hty : e.type ≠ .dbRx) :
    EntryOutcome env t e (msgqPopulateCapInfo env t e dir (getIrq env e)) := by
  cases msgqPopulate_outcome env t e dir h0 with
  | refused r hr href heq =>
    rw [heq]
    exact .failed (by simp [hfails, href]) hr (by simp [spoiled, hdrop, href, hty])
  | dropped href hreq heq =>
    rw [heq]
    exact .failed (by simp [hfails, hreq]) hreq (by simp [spoiled, hdrop, href])
  | stored href hreq heq =>
    rw [heq]
    refine .stored (by simp [hfails, href, hreq]) le_rfl ?_
    rw [(target_mq env).mpr hslot]
    rfl

section Outcome

attribute [local simp] populateEntry stepFails dblPopulateCapInfo vpmGrpSet wdogManage Entry.target Entry.stores
  Entry.slot Tables.store Tables.spoiled dropped EINVAL ENXIO

theorem populateEntry_outcome (env : Env) (t : Tables) (h0 : 0 ≤ getIrq env e) :
    EntryOutcome env t e (populateEntry env t e (getIrq env e)) := by
  cases ht : e.type with
  | mqTx | mqRx =>
    simp only [populateEntry, ht]
    exact entryOutcome_mq h0 (by simp [ht]) (by simp [ht]) (by simp [ht]) (by simp [ht])
  | vcpu =>
    exact .stored (by simp [ht]) (by simpa [ht]) (by simp [ht])
  | unknown =>
    refine .failed ?_ ?_ ?_ <;> simp [ht]
  | virtioMmio =>
    by_cases hf : env.virtioCb ∧ e.fate.virtio < 0
    · refine .failed ?_ ?_ ?_ <;> simp [ht, hf]
    · refine .stored (by simpa [ht] using hf) ?_ ?_ <;> simp only [populateEntry, ht] <;> split
      · next hc => exact not_lt.mp fun h => hf ⟨hc, h⟩
      · exact h0
      · simp [ht]
      · simp [ht]
  | dbTx =>
    by_cases hl : dblLabelOk env e
    · by_cases hi : 0 < getIrq env e
      · refine .failed ?_ ?_ ?_ <;> simp [ht, hl, hi]
      · refine .stored ?_ ?_ ?_ <;> simp [ht, hl, hi]
    · refine .failed ?_ ?_ ?_ <;> simp [ht, hl]
  | dbRx =>
    by_cases hl : dblLabelOk env e
    · by_cases hi : getIrq env e ≤ 0
      · refine .failed ?_ ?_ ?_ <;> simp [ht, hl, hi, not_lt.mpr hi]
      · have hi' := not_le.mp hi
        by_cases hr : e.fate.request < 0
        · refine .failed ?_ ?_ ?_ <;> simp [ht, hl, hi, hr, hi']
        · exact .stored (by simp [ht, hl, hi', hr]) (by simpa [ht, hl, hi, hr] using not_lt.mp hr)
            (by simp [ht, hl, hi, hr])
    · refine .failed ?_ ?_ ?_ <;> simp [ht, hl]
  | vpmGrp =>
    by_cases hc : env.proxyCb ∧ env.supportsProxy
    · obtain ⟨hc, hp⟩ := hc
      cases hv : t.vpmGrp with
      | some v =>
        have hkept : { t with vpmGrp := some v } = t := by rw [← hv]
        refine .stored ?_ ?_ ?_ <;> simp [ht, hc, hp, occupied, hv, hkept]
      | none =>
        by_cases hr : requestIrq e (getIrq env e) < 0
        · refine .failed ?_ ?_ ?_ <;> simp [ht, occupied, hv, hc, hp, hr]
        · exact .stored (by simp [ht, hr]) (by simpa [ht, hc, hp, hv, hr] using not_lt.mp hr)
            (by simp [ht, hc, hp, hv, hr])
    · have hst : (env.proxyCb && env.supportsProxy) = false := by simpa using hc
      refine .stored (by simp [ht, hst]) ?_ ?_
      · cases hc' : env.proxyCb <;> cases hp : env.supportsProxy <;> simp_all
      · cases hc' : env.proxyCb <;> cases hp : env.supportsProxy <;> simp_all
  | watchdog =>
    cases hc : env.proxyCb with
    | false =>
      exact .stored (by simp [ht, hc]) (by simpa [ht, hc]) (by simp [ht, hc])
    | true =>
      by_cases hf : env.supportsProxy ∧ 0 ≤ e.fate.wdog
      · have hw := not_lt.mpr hf.2
        refine .stored ?_ ?_ ?_ <;> simp [ht, hc, hf, hw]
      · refine .failed (by simpa [ht, hc, imp_iff_not_or] using hf) ?_ ?_
        · cases hp : env.supportsProxy <;> simp_all
        · cases hp : env.supportsProxy <;> simp_all

end Outcome

section
variable (h0 : 0 ≤ getIrq env e) (hok : stepFails env t.occupied t.listed e = false)
include h0 hok

/-- A step that succeeds stores the capability of its entry. -/
theorem populateEntry_stored :
    (populateEntry env t e (getIrq env e)).1 = (e.target env).elim t (t.store e (getIrq env e)) := by
  cases populateEntry_outcome env t h0 with
  | failed hf hr ht => rw [hf] at hok; cases hok
  | stored hf hr ht => exact ht

/-- A step that succeeds occupies the slot of its entry and no other. -/
theorem populateEntry_occupied (sl : Slot) : (populateEntry env t e (getIrq env e)).1.occupied sl ↔
      t.occupied sl ∨ e.stores env ∧ e.slot = some sl := by
  rw [populateEntry_stored h0 hok, ← target_eq_some]
  cases e.target env with
  | none => simp
  | some x => simp [occupied_store]

end

theorem isMq_iff : e.isMq ↔ ∃ dir, e.slot = some (.mq e.label dir) := by
  cases ht : e.type <;> simp [isMq, slot, ht]

section
variable (h0 : 0 ≤ getIrq env e)
include h0

theorem populateEntry_listed (hok : stepFails env t.occupied t.listed e = false) (label : Label) :
    (populateEntry env t e (getIrq env e)).1.listed label ↔
      t.listed label ∨ e.isMq ∧ e.label = label := by
  rw [populateEntry_stored h0 hok]
  by_cases hm : e.isMq
  · obtain ⟨dir, hslot⟩ := isMq_iff.mp hm
    rw [(target_mq env).mpr hslot, elim_some, store, listed_setMsgq]
    by_cases hl : label = e.label
    · simp [hm, hl]
    · simp [hl, Ne.symm hl]
  · have hsame : ((e.target env).elim t (t.store e (getIrq env e))).listed label = t.listed label := by
      cases htar : e.target env with
      | none => rfl
      | some x =>
        cases x with
        | mq l dir =>
          rw [target_mq env] at htar
          cases ht : e.type <;> simp [slot, isMq, ht] at htar hm
        | _ => rfl
    simp [hsame, hm]

/-- The second loop leaves the records of the vCPUs alone. -/
theorem populateEntry_vcpus : (populateEntry env t e (getIrq env e)).1.vcpus = t.vcpus := by
  cases populateEntry_outcome env t h0 with
  | failed hf hr ht =>
    rw [ht, spoiled]
    split
    · rfl
    · split <;> rfl
  | stored hf hr ht =>
    rw [ht]
    cases e.target env <;> simp

/-- The doorbells' IRQs after a step: only an Rx doorbell that gets as far as its IRQ notes one. -/
theorem populateEntry_dblIrq (label : Label) : (populateEntry env t e (getIrq env e)).1.dblIrq label =
      if e.type = .dbRx ∧ dblLabelOk env e ∧ 0 < getIrq env e ∧ e.label = label then getIrq env e
      else t.dblIrq label := by
  cases populateEntry_outcome env t h0 with
  | failed hf hr ht =>
    rw [ht, spoiled]
    cases hty : e.type with
    | dbRx =>
      simp only [dropped, hty, true_and]
      by_cases hc : dblLabelOk env e ∧ 0 < getIrq env e
      · by_cases hl : label = e.label
        · simp [hc, hl]
        · simp [hc, hl, Ne.symm hl]
      · rw [if_neg hc, if_neg fun h => hc ⟨h.1, h.2.1⟩]
    | mqTx | mqRx => simp only [dropped, hty]; split <;> simp [setMsgq]
    | _ => simp [dropped, hty]
  | stored hf hr ht =>
    rw [ht]
    cases hty : e.type with
    | dbRx =>
      simp only [stepFails, hty, Bool.or_eq_false_iff, Bool.not_eq_false', decide_eq_true_eq,
        decide_eq_false_iff_not] at hf
      have hi : 0 < getIrq env e := by omega
      by_cases hl : label = e.label
      · simp [target, stores, slot, hty, store, hf, hi, hl]
      · simp [target, stores, slot, hty, store, hl, Ne.symm hl]
    | vpmGrp | watchdog => simp only [target, stores, slot, hty]; split <;> simp [store]
    | _ => simp [target, stores, slot, hty, store, setMsgq]

/-- A step that succeeds notes capability and IRQ for its direction of the queue. -/
theorem populateEntry_row (hok : stepFails env t.occupied t.listed e = false) (label : Label) (d : Dir) :
    (populateEntry env t e (getIrq env e)).1.row label d =
      if e.slot = some (.mq label d) then some (e.capId, getIrq env e) else t.row label d := by
  simp only [populateEntry_stored h0 hok, ← target_mq env]
  cases e.target env with
  | none => simp
  | some x => simp [row_store]

/-- The VPM group keeps the IRQ of the first entry for it. -/
theorem populateEntry_vpmGrp (hok : stepFails env t.occupied t.listed e = false) :
    (populateEntry env t e (getIrq env e)).1.vpmGrp =
      if e.type = .vpmGrp ∧ (env.proxyCb && env.supportsProxy) ∧ t.vpmGrp = none then some (getIrq env e)
      else t.vpmGrp := by
  rw [populateEntry_stored h0 hok]
  cases hty : e.type with
  | vpmGrp =>
    cases hst : env.proxyCb && env.supportsProxy with
    | false => simp [target, stores, hty, hst]
    | true => cases hv : t.vpmGrp <;> simp [target, stores, slot, hty, hst, store, hv]
  | watchdog => simp only [target, stores, slot, hty]; split <;> simp [store]
  | _ => simp [target, stores, slot, hty, store, setMsgq]

end

end Populate

section Reset

variable {env : Env} {t : Tables} {e : Entry} {later : Bool} {irq ret : Int}

/-- What the checks of a step that succeeded have established about its entry. -/
structure Sound (env : Env) (e : Entry) : Prop where
  known : e.type ≠ .unknown
  mq : e.isMq = true → 0 ≤ e.label.toInt
  db : e.type = .dbTx ∨ e.type = .dbRx → dblLabelOk env e
  wdog : e.type = .watchdog → env.proxyCb = true → env.supportsProxy = true ∧ 0 ≤ e.fate.wdog

theorem sound_of_passes {taken : Slot → Bool} {listed : Label → Bool}
    (hok : stepFails env taken listed e = false) : Sound env e where
  known := by
    intro ht
    simp [stepFails, ht] at hok
  mq := by
    intro hm
    have hmin : (env.minMsgq : Int) ≤ e.label.toInt := by
      rcases (by simpa [isMq] using hm : e.type = .mqTx ∨ e.type = .mqRx) with ht | ht
      · simp only [stepFails, ht, mqRefused, Bool.or_eq_false_iff, decide_eq_false_iff_not] at hok
        omega
      · simp only [stepFails, ht, mqRefused, Bool.or_eq_false_iff, decide_eq_false_iff_not] at hok
        omega
    omega
  db := by
    rintro (ht | ht)
    · simp only [stepFails, ht, Bool.or_eq_false_iff, Bool.not_eq_false', decide_eq_true_eq] at hok
      exact hok.1
    · simp only [stepFails, ht, Bool.or_eq_false_iff, Bool.not_eq_false', decide_eq_true_eq] at hok
      exact hok.1.1
  wdog := by
    intro ht hc
    simp only [stepFails, ht, hc, Bool.true_and, Bool.or_eq_false_iff, Bool.not_eq_false',
      decide_eq_false_iff_not] at hok
    exact ⟨hok.1, by omega⟩

/-- The reset of an entry whose step had succeeded fails: the message queue is not there, or the doorbell
has been reset already. -/
def resetFails (t : Tables) (e : Entry) : Bool :=
  match e.type with
  | .mqTx => !t.occupied (.mq e.label .tx)
  | .mqRx => !t.occupied (.mq e.label .rx)
  | .dbRx => t.dblIrq e.label = 0
  | _ => false

/-- The two ways in which a message queue is reset. -/
theorem msgqReset_cases (t : Tables) (irq : Int) (hl : 0 ≤ e.label.toInt) (dir : Dir) :
    (t.occupied (.mq e.label dir) = false ∧ ∃ r < 0, msgqResetCapInfo t e dir irq = (t, irq, r)) ∨
      ∃ v, t.row e.label dir = some v ∧ msgqResetCapInfo t e dir irq =
        (t.setMsgq e.label (some (update (t.row e.label) dir none)), v.2, 0) := by
  have hneg : ¬ e.label.toInt < 0 := by omega
  rcases eq_none_or_eq_some (t.msgq e.label) with hq | ⟨q, hq⟩
  · left
    exact ⟨by simp [occupied, hq], -EINVAL, by decide, by simp [msgqResetCapInfo, hneg, hq]⟩
  · have hrow : t.row e.label = q := by funext d; simp [row, hq]
    rcases eq_none_or_eq_some (q dir) with hd | ⟨v, hd⟩
    · left
      exact ⟨by simp [occupied, hq, hd], - ENXIO, by decide, by simp [msgqResetCapInfo, hneg, hq, hd]⟩
    · right
      refine ⟨v, by rw [hrow, hd], ?_⟩
      simp only [msgqResetCapInfo, hneg, if_false, hq, hd, hrow]
      rfl

theorem vcpuRelease_of_find_none {c : CapId} {l : List (CapId × Int)}
    (h : l.find? (fun v => decide (v.1 = c)) = none) : vcpuRelease c l = l := by
  induction l with
  | nil => rfl
  | cons v l ih =>
    by_cases hv : v.1 = c
    · simp [hv] at h
    · simp only [List.find?_cons, hv, decide_false] at h
      simp [vcpuRelease, hv, ih h]

/-- The tables after the reset of an entry whose slot is filled. -/
def Tables.reset (env : Env) (later : Bool) (t : Tables) (e : Entry) : Tables :=
  if e.type = .vcpu then
    if env.proxyCb && env.supportsProxy && !later then { t with vcpus := vcpuRelease e.capId t.vcpus } else t
  else (e.target env).elim t t.clear

section Cases

attribute [local simp] resetEntry resetFails Tables.reset Entry.target Entry.stores Entry.slot Tables.clear
  dblResetCapInfo

/-- What a reset does: it fails and leaves the tables alone, or it empties the slot of its entry. -/
theorem resetEntry_cases (later : Bool) (t : Tables) (irq : Int) (hs : Sound env e) (hret : 0 ≤ ret) :
    let r := resetEntry env later t e irq ret
    (resetFails t e → r.2.2 < 0 ∧ r.1 = t) ∧
      (resetFails t e = false → 0 ≤ r.2.2 ∧ r.1 = t.reset env later e) := by
  intro r
  have hmq : ∀ dir, 0 ≤ e.label.toInt → (t.occupied (.mq e.label dir) = false →
        (msgqResetCapInfo t e dir irq).2.2 < 0 ∧ (msgqResetCapInfo t e dir irq).1 = t) ∧
      (t.occupied (.mq e.label dir) → 0 ≤ (msgqResetCapInfo t e dir irq).2.2 ∧
        (msgqResetCapInfo t e dir irq).1 = t.clear (.mq e.label dir)) := by
    intro dir hl
    rcases msgqReset_cases t irq hl dir with ⟨hno, r, hr, heq⟩ | ⟨v, hv, heq⟩
    · rw [heq, hno]
      exact ⟨fun _ => ⟨hr, rfl⟩, nofun⟩
    · rw [heq, row_isSome, hv]
      exact ⟨nofun, fun _ => ⟨le_rfl, rfl⟩⟩
  cases ht : e.type with
  | mqTx => simpa [r, ht] using hmq .tx (hs.mq (by simp [isMq, ht]))
  | mqRx => simpa [r, ht] using hmq .rx (hs.mq (by simp [isMq, ht]))
  | dbTx => simp [r, ht, hs.db (.inl ht)]
  | dbRx => by_cases hz : t.dblIrq e.label = 0 <;> simp [r, ht, hs.db (.inr ht), hz, ENXIO]
  | vcpu =>
    refine ⟨fun h => by simp [ht] at h, fun _ => ?_⟩
    simp only [r, resetEntry, reset, ht, vcpuAffinityReset]
    cases env.proxyCb <;> cases env.supportsProxy <;> cases later <;> simp [hret]
    cases hf : t.vcpus.find? (fun v => decide (v.1 = e.capId)) with
    | none => simp [vcpuRelease_of_find_none hf]
    | some v => simp
  | virtioMmio => simpa [r, ht] using hret
  | vpmGrp =>
    refine ⟨fun h => by simp [ht] at h, fun _ => ?_⟩
    simp only [r, resetEntry, reset, target, stores, slot, ht, vpmGrpReset]
    cases env.proxyCb <;> cases env.supportsProxy <;> simp [hret]
    cases hv : t.vpmGrp with
    | none => simp [← hv]
    | some v => simp
  | watchdog =>
    refine ⟨fun h => by simp [ht] at h, fun _ => ?_⟩
    cases hc : env.proxyCb with
    | false => simpa [r, ht, hc] using hret
    | true =>
      obtain ⟨hp, hw⟩ := hs.wdog ht hc
      simp [r, ht, hc, wdogManage, hp, not_lt.mpr hw]
  | unknown => exact absurd ht hs.known

end Cases

theorem reset_of_ne (later : Bool) (hty : e.type ≠ .vcpu) : t.reset env later e = (e.target env).elim t t.clear :=
  if_neg hty

theorem target_of_vcpu (hty : e.type = .vcpu) : e.target env = none := by simp [target, stores, hty]

theorem reset_occupied (later : Bool) (sl : Slot) :
    (t.reset env later e).occupied sl = (t.occupied sl && !(e.stores env && decide (e.slot = some sl))) := by
  have htar : (e.stores env && decide (e.slot = some sl)) = decide (e.target env = some sl) := by
    simp [target_eq_some]
  rw [htar]
  by_cases hty : e.type = .vcpu
  · rw [target_of_vcpu hty, reset, if_pos hty]
    split <;> cases sl <;> simp [occupied]
  · rw [reset_of_ne later hty]
    cases e.target env with
    | none => simp
    | some x => simp [occupied_clear]

theorem reset_dblIrq (later : Bool) (label : Label) :
    (t.reset env later e).dblIrq label = if e.type = .dbRx ∧ e.label = label then 0 else t.dblIrq label := by
  unfold reset target stores slot
  cases hty : e.type with
  | dbRx => by_cases hl : label = e.label <;> simp [clear, hl, Ne.symm]
  | vcpu | vpmGrp | watchdog => dsimp only; split_ifs <;> simp_all [clear]
  | _ => simp [clear, setMsgq]

theorem reset_row (later : Bool) (label : Label) (d : Dir) :
    (t.reset env later e).row label d = if e.slot = some (.mq label d) then none else t.row label d := by
  simp only [← target_mq env]
  by_cases hty : e.type = .vcpu
  · rw [target_of_vcpu hty, reset, if_pos hty]
    split <;> rfl
  · rw [reset_of_ne later hty]
    cases e.target env with
    | none => simp
    | some x => simp [row_clear]

theorem reset_vpmGrp (later : Bool) : (t.reset env later e).vpmGrp =
    if e.type = .vpmGrp ∧ (env.proxyCb && env.supportsProxy) then none else t.vpmGrp := by
  unfold reset target stores slot
  cases hty : e.type with
  | vcpu | vpmGrp | watchdog => dsimp only; split_ifs <;> simp_all [clear]
  | _ => simp [clear, setMsgq]

theorem reset_vcpus (later : Bool) : (t.reset env later e).vcpus =
    if e.type = .vcpu ∧ (env.proxyCb && env.supportsProxy && !later) then vcpuRelease e.capId t.vcpus
    else t.vcpus := by
  by_cases hty : e.type = .vcpu
  · simp only [reset, hty, true_and, if_true]
    split <;> rfl
  · rw [reset_of_ne later hty, if_neg fun h => hty h.1]
    cases e.target env <;> simp

end Reset

end Sm8850.Gunyah
