import Mathlib.Algebra.BigOperators.Ring.Finset
import Sm8850.Lib.Path
import Sm8850.Lib.Sums

/-! The statistics that kernel/sched/walt keeps of the tasks on each runqueue: what the hooks of the core
scheduler and the updates of a task's demand do to them. -/
namespace Sm8850.Walt.Stats
open Function Bool Finset

/-! ### The code -/

/-- `struct walt_sched_stats`. `clamped` notes that a clamp to zero or a `BUG_ON` was met. -/
structure SchedStats where
  nrBigTasks : Int := 0
  nrRtgHighPrioTasks : Int := 0
  nrTrailblazerTasks : Int := 0
  nrGiantTasks : Int := 0
  cumulativeRunnableAvgScaled : Int := 0
  predDemandsSumScaled : Int := 0
  clamped : Bool := false

/-- `struct walt_task_struct`, as far as the statistics need it. `idle` and `fair` are what
`walt_is_idle_task` and `walt_fair_task` return, and `onRq` is the CPU on which the task is queued and runnable. -/
structure Task where
  idle : Bool := false
  fair : Bool := true
  onRq : Option Nat := none
  prevOnRq : Nat := 0
  misfit : Bool := false
  rtgHighPrio : Bool := false
  trailblazer : Bool := false
  giant : Bool := false
  demand : Nat := 0
  demandScaled : Nat := 0
  predDemandScaled : Nat := 0
  sumHistory : Nat → Nat := fun _ => 0
  cidx : Nat := 0
  highUtilHistory : Nat := 0

open Stats.Task

/-- `sysctl_sched_window_stats_policy`. -/
inductive Policy where
  | recent
  | max
  | maxRecentAvg
  | avg

/-- The policy, `walt_scale_demand_divisor`, and the capacities of the CPUs that the giant and the
trailblazer tasks are measured by. -/
structure Config where
  policy : Policy
  divisor : Nat
  giantCap : Nat
  primeCap : Nat

/-- What `update_history` is called with and what it reads besides the task: whether the task is in a related
thread group, the trailblazer feature, a pipeline in progress, and the outcome of `predict_and_update_buckets`. -/
structure Sample where
  runtime : Nat
  samples : Nat
  markStart : Nat
  clock : Nat
  inGroup : Bool
  feature : Bool
  pipeline : Bool
  pred : Nat

def ravgHistSize : Nat := 5

def fixupCumulativeRunnableAvg (st : SchedStats) (demandDelta predDelta : Int) : SchedStats :=
  let cra := st.cumulativeRunnableAvgScaled + demandDelta
  let pds := st.predDemandsSumScaled + predDelta
  { st with
    cumulativeRunnableAvgScaled := if cra < 0 then 0 else cra
    predDemandsSumScaled := if pds < 0 then 0 else pds
    clamped := st.clamped || cra < 0 || pds < 0 }

def fixupNrGiant (c : Config) (t : Task) (st : SchedStats) (updatedDemand : Nat) : Task × SchedStats :=
  if 70 * c.giantCap / 100 < updatedDemand then
    if !t.giant then ({ t with giant := true }, { st with nrGiantTasks := st.nrGiantTasks + 1 }) else (t, st)
  else if t.giant then
    let nr := st.nrGiantTasks - 1
    ({ t with giant := false },
      { st with nrGiantTasks := if nr < 0 then 0 else nr, clamped := st.clamped || nr < 0 })
  else (t, st)

def fixupWaltSchedStatsCommon (c : Config) (t : Task) (st : SchedStats) (updatedDemand updatedPred : Nat) :
    Task × SchedStats :=
  let st := fixupCumulativeRunnableAvg st (updatedDemand - t.demandScaled) (updatedPred - t.predDemandScaled)
  if t.fair then fixupNrGiant c t st updatedDemand else (t, st)

def incRqWaltStats (t : Task) (st : SchedStats) (rtgHighPrio : Bool) : Task × SchedStats :=
  ({ t with rtgHighPrio },
    { st with
      nrBigTasks := st.nrBigTasks + t.misfit.toInt
      nrRtgHighPrioTasks := st.nrRtgHighPrioTasks + rtgHighPrio.toInt
      nrTrailblazerTasks := st.nrTrailblazerTasks + t.trailblazer.toInt
      nrGiantTasks := st.nrGiantTasks + t.giant.toInt })

def decRqWaltStats (t : Task) (st : SchedStats) : SchedStats :=
  let big := st.nrBigTasks - t.misfit.toInt
  let trailblazer := st.nrTrailblazerTasks - t.trailblazer.toInt
  let giant := st.nrGiantTasks - t.giant.toInt
  { st with
    nrBigTasks := big
    nrRtgHighPrioTasks := st.nrRtgHighPrioTasks - t.rtgHighPrio.toInt
    nrTrailblazerTasks := trailblazer
    nrGiantTasks := if giant < 0 then 0 else giant
    clamped := st.clamped || giant < 0 || big < 0 || trailblazer < 0 }

/-- The trailblazer flag of the task, its demand and, where it is on the runqueue, the number of trailblazers. -/
def updateTrailblazerAccounting (c : Config) (x : Sample) (t : Task) (st : SchedStats) (demand : Nat) :
    Task × SchedStats × Nat :=
  let high := if x.feature && x.markStart + 3000000000 < x.clock then 0 else t.highUtilHistory
  let now := !x.pipeline && x.feature && ((demand ≤ x.runtime && 230 ≤ high) || 243 ≤ high)
  let st :=
    if t.onRq.isSome then
      if t.trailblazer && !now then { st with nrTrailblazerTasks := st.nrTrailblazerTasks - 1 }
      else if !t.trailblazer && now then { st with nrTrailblazerTasks := st.nrTrailblazerTasks + 1 }
      else st
    else st
  let demand := if now then 1024 * c.divisor % 2 ^ 32 else demand
  let high :=
    if (c.primeCap - c.primeCap / 8) % 2 ^ 16 ≤ x.runtime / c.divisor % 2 ^ 16 then min (high + 8) 255 else high - 1
  ({ t with trailblazer := now, highUtilHistory := high }, st, demand)

/-- The loop that pushes a runtime on the history. -/
def push (runtime : Nat) : Nat → (Nat → Nat) → Nat → (Nat → Nat) × Nat
  | 0, hist, cidx => (hist, cidx)
  | samples + 1, hist, cidx => push runtime samples (update hist cidx runtime) ((cidx + 1) % ravgHistSize)

/-- The demand that the policy takes from the history. -/
def policyDemand (policy : Policy) (hist : Nat → Nat) (runtime : Nat) : Nat :=
  let hist := (List.range ravgHistSize).map hist
  let avg := hist.sum / ravgHistSize
  match policy with
  | .recent => runtime
  | .max => hist.foldl Nat.max 0
  | .avg => avg
  | .maxRecentAvg => Nat.max avg runtime

def updateHistory (c : Config) (x : Sample) (t : Task) (st : SchedStats) : Task × SchedStats :=
  if x.runtime = 0 || t.idle || x.samples = 0 then (t, st)
  else
    let h := push x.runtime x.samples t.sumHistory t.cidx
    let t := { t with sumHistory := h.1, cidx := h.2 }
    let demand := policyDemand c.policy h.1 x.runtime
    let r := if t.fair && x.inGroup then updateTrailblazerAccounting c x t st demand else (t, st, demand)
    let demandScaled := r.2.2 / c.divisor % 2 ^ 16
    let q :=
      if r.1.onRq.isSome then fixupWaltSchedStatsCommon c r.1 r.2.1 demandScaled x.pred else (r.1, r.2.1)
    ({ q.1 with demand := r.2.2, demandScaled, predDemandScaled := x.pred }, q.2)

/-- `update_task_pred_demand` past the tests of the event. `pred` is what `get_pred_busy` returns. -/
def updateTaskPredDemand (c : Config) (currWindowScaled pred : Nat) (t : Task) (st : SchedStats) :
    Task × SchedStats :=
  if t.idle || currWindowScaled ≤ t.predDemandScaled then (t, st)
  else
    let q := if t.onRq.isSome then fixupWaltSchedStatsCommon c t st t.demandScaled pred else (t, st)
    ({ q.1 with predDemandScaled := pred }, q.2)

/-- The hook sees a task with delayed dequeue that is not waking up. -/
def ignoresEnqueue (schedDelayed enqueueDelayed : Bool) : Bool := schedDelayed && !enqueueDelayed

def androidRvhEnqueueTask (schedDelayed enqueueDelayed fits rtgHighPrio : Bool) (t : Task) (st : SchedStats) :
    Task × SchedStats :=
  if ignoresEnqueue schedDelayed enqueueDelayed then (t, st)
  else
    let doubleEnqueue := t.prevOnRq = 1
    let t := { t with prevOnRq := 1 }
    let q :=
      if t.fair then
        let t := { t with misfit := !fits }
        if doubleEnqueue then (t, st) else incRqWaltStats t st rtgHighPrio
      else (t, st)
    (q.1, if doubleEnqueue then q.2 else fixupCumulativeRunnableAvg q.2 q.1.demandScaled q.1.predDemandScaled)

def ignoresDequeue (schedDelayed : Bool) (t : Task) : Bool := schedDelayed && t.prevOnRq = 2

def androidRvhDequeueTask (schedDelayed : Bool) (t : Task) (st : SchedStats) : Task × SchedStats :=
  if ignoresDequeue schedDelayed t then (t, st)
  else
    let doubleDequeue := t.prevOnRq = 2
    let t := { t with prevOnRq := 2 }
    let st := if t.fair && !doubleDequeue then decRqWaltStats t st else st
    (t, if doubleDequeue then st else fixupCumulativeRunnableAvg st (-t.demandScaled) (-t.predDemandScaled))

/-- `android_rvh_update_misfit_status`; `load` is the new `misfit_task_load` of the runqueue. -/
def androidRvhUpdateMisfitStatus (load : Nat) (t : Task) (st : SchedStats) : Task × SchedStats :=
  let misfit : Bool := load ≠ 0
  let change := misfit.toInt - t.misfit.toInt
  if change ≠ 0 then
    let nr := st.nrBigTasks + change
    ({ t with misfit }, { st with nrBigTasks := nr, clamped := st.clamped || nr < 0 })
  else (t, st)

/-- `init_new_task_load`. -/
def initNewTaskLoad (demand demandScaled : Nat) (t : Task) : Task :=
  { t with
    prevOnRq := 0
    misfit := false
    rtgHighPrio := false
    trailblazer := false
    giant := false
    demand
    demandScaled
    predDemandScaled := 0
    sumHistory := fun _ => demand
    cidx := 0
    highUtilHistory := 0 }

/-! ### Runs -/

/-- What happens to a task. -/
inductive Act where
  | init (demand demandScaled : Nat)
  | setFair (fair : Bool)
  | enqueue (schedDelayed enqueueDelayed fits rtgHighPrio : Bool)
  | dequeue (schedDelayed : Bool)
  | history (x : Sample)
  | predDemand (currWindowScaled pred : Nat)
  | misfit (load : Nat)

/-- The discipline of the core scheduler: a task is started and changes its class while it is off the
runqueues, is enqueued and dequeued in turn, is updated on its own runqueue, and gets its misfit status while
it runs as a fair task. -/
def Enabled (cpu : Nat) (t : Task) : Act → Prop
  | .init .. | .setFair _ => t.onRq = none
  | .enqueue delayed wakes .. => ignoresEnqueue delayed wakes = true ∨ t.onRq = none
  | .dequeue delayed => ignoresDequeue delayed t = true ∨ t.onRq = some cpu
  | .history _ | .predDemand .. => t.onRq = none ∨ t.onRq = some cpu
  | .misfit _ => t.fair = true ∧ t.onRq = some cpu

/-- The hook or the update, and where the core scheduler leaves the task. -/
def perform (c : Config) (cpu : Nat) (t : Task) (st : SchedStats) : Act → Task × SchedStats
  | .init demand demandScaled => (initNewTaskLoad demand demandScaled t, st)
  | .setFair fair => ({ t with fair }, st)
  | .enqueue delayed wakes fits rtg =>
    let r := androidRvhEnqueueTask delayed wakes fits rtg t st
    (if ignoresEnqueue delayed wakes then r.1 else { r.1 with onRq := some cpu }, r.2)
  | .dequeue delayed =>
    let r := androidRvhDequeueTask delayed t st
    (if ignoresDequeue delayed t then r.1 else { r.1 with onRq := none }, r.2)
  | .history x => updateHistory c x t st
  | .predDemand currWindowScaled pred => updateTaskPredDemand c currWindowScaled pred t st
  | .misfit load => androidRvhUpdateMisfitStatus load t st

variable {ι : Type}

structure State (ι : Type) where
  tasks : ι → Task
  stats : Nat → SchedStats

/-- An act on a task and a runqueue. -/
structure Event (ι : Type) where
  task : ι
  cpu : Nat
  act : Act

def Step [DecidableEq ι] (c : Config) (s : State ι) (e : Event ι) (s' : State ι) : Prop :=
  Enabled e.cpu (s.tasks e.task) e.act ∧
    let r := perform c e.cpu (s.tasks e.task) (s.stats e.cpu) e.act
    s' = ⟨update s.tasks e.task r.1, update s.stats e.cpu r.2⟩

/-- WALT starts: the tasks that exist have no demand, wherever they are queued. -/
def start (idle fair : ι → Bool) (onRq : ι → Option Nat) : State ι :=
  ⟨fun p => { idle := idle p, fair := fair p, onRq := onRq p }, fun _ => {}⟩

/-! ### The counters -/

inductive Counter where
  | big
  | rtgHighPrio
  | trailblazer
  | giant
  | demand
  | pred

def SchedStats.get (st : SchedStats) : Counter → Int
  | .big => st.nrBigTasks
  | .rtgHighPrio => st.nrRtgHighPrioTasks
  | .trailblazer => st.nrTrailblazerTasks
  | .giant => st.nrGiantTasks
  | .demand => st.cumulativeRunnableAvgScaled
  | .pred => st.predDemandsSumScaled

/-- What a task that is on the runqueue counts for. -/
def Task.value (t : Task) : Counter → Int
  | .big => (t.fair && t.misfit).toInt
  | .rtgHighPrio => (t.fair && t.rtgHighPrio).toInt
  | .trailblazer => (t.fair && t.trailblazer).toInt
  | .giant => (t.fair && t.giant).toInt
  | .demand => t.demandScaled
  | .pred => t.predDemandScaled

/-- What a task counts for on a CPU. -/
def Task.share (cpu : Nat) (k : Counter) (t : Task) : Int := if t.onRq = some cpu then t.value k else 0

/-- The hooks have seen the task come and go. -/
def Task.Seen (t : Task) : Prop := (t.onRq = none → t.prevOnRq ≠ 1) ∧ (t.onRq ≠ none → t.prevOnRq ≠ 2)

/-- Every counter is the sum over the tasks on the runqueue, and no clamp has been met. -/
structure Exact [Fintype ι] (s : State ι) : Prop where
  sums : ∀ cpu k, (s.stats cpu).get k = ∑ p, (s.tasks p).share cpu k
  unclamped : ∀ cpu, (s.stats cpu).clamped = false

theorem Task.value_nonneg (t : Task) (k : Counter) : 0 ≤ t.value k := by
  cases k with
  | demand | pred => exact Int.natCast_nonneg _
  | _ =>
    dsimp only [value]
    cases (_ && _ : Bool) <;> decide

theorem Task.share_nonneg (t : Task) (cpu : Nat) (k : Counter) : 0 ≤ t.share cpu k := by
  unfold share
  split_ifs
  · exact t.value_nonneg k
  · exact le_rfl

/-! ### What an act does to the counters -/

section
variable {c : Config} {cpu : Nat} {t : Task} {st : SchedStats}

/-- The task and the statistics move together: every counter changes by what the task counts for. -/
structure Follows (cpu : Nat) (t : Task) (st : SchedStats) (r : Task × SchedStats) : Prop where
  seen : r.1.Seen
  change : ∀ k, r.2.get k = st.get k - t.share cpu k + r.1.share cpu k
  unclamped : r.2.clamped = st.clamped
  apart : ∀ other, other ≠ cpu → ∀ k, r.1.share other k = t.share other k

theorem follows_of_same (hS : t.Seen) : Follows cpu t st (t, st) := ⟨hS, fun k => by simp, rfl, fun _ _ _ => rfl⟩

/-- A task that is off the runqueues is off them after the act, and the statistics stay. -/
theorem follows_of_off {t' : Task} (hS : t'.Seen) (h : t.onRq = none) (h' : t'.onRq = none) :
    Follows cpu t st (t', st) :=
  ⟨hS, by simp [share, h, h'], rfl, by simp [share, h, h']⟩

variable {r : Task × SchedStats} {delayed : Bool}

/-- A task that is on the runqueue stays there. -/
theorem follows_of_on (hS : t.Seen) (h : t.onRq = some cpu) (h' : r.1.onRq = t.onRq) (hprev : r.1.prevOnRq = t.prevOnRq)
    (hget : ∀ k, r.2.get k = st.get k - t.value k + r.1.value k) (hc : r.2.clamped = st.clamped) :
    Follows cpu t st r := by
  refine ⟨?_, fun k => ?_, hc, fun other hne k => ?_⟩
  · unfold Task.Seen
    rw [h', hprev]
    exact hS
  · simp only [share, h', h, if_true]
    exact hget k
  · simp [share, h', h, hne.symm]

theorem follows_of_entered (h : t.onRq = none) (h' : r.1.onRq = some cpu) (hprev : r.1.prevOnRq = 1)
    (hget : ∀ k, r.2.get k = st.get k + r.1.value k) (hc : r.2.clamped = st.clamped) : Follows cpu t st r :=
  ⟨by simp [Task.Seen, h', hprev], fun k => by simp [share, h, h', hget], hc,
    fun other hne k => by simp [share, h, h', hne.symm]⟩

theorem follows_of_left (h : t.onRq = some cpu) (h' : r.1.onRq = none) (hprev : r.1.prevOnRq = 2)
    (hget : ∀ k, r.2.get k = st.get k - t.value k) (hc : r.2.clamped = st.clamped) : Follows cpu t st r :=
  ⟨by simp [Task.Seen, h', hprev], fun k => by simp [share, h, h', hget], hc,
    fun other hne k => by simp [share, h, h', hne.symm]⟩

theorem fixupCumulativeRunnableAvg_eq {d p : Int} (hd : 0 ≤ st.cumulativeRunnableAvgScaled + d)
    (hp : 0 ≤ st.predDemandsSumScaled + p) : fixupCumulativeRunnableAvg st d p = { st with
        cumulativeRunnableAvgScaled := st.cumulativeRunnableAvgScaled + d
        predDemandsSumScaled := st.predDemandsSumScaled + p } := by
  simp [fixupCumulativeRunnableAvg, not_lt.mpr hd, not_lt.mpr hp]

theorem fixupNrGiant_eq {demand : Nat} (h : t.giant.toInt ≤ st.nrGiantTasks) :
    fixupNrGiant c t st demand = ({ t with giant := 70 * c.giantCap / 100 < demand },
      { st with nrGiantTasks := st.nrGiantTasks - t.giant.toInt + (decide (70 * c.giantCap / 100 < demand)).toInt }) := by
  obtain ⟨_, _, _, _, _, _, _, giant⟩ := t
  unfold fixupNrGiant
  by_cases hlt : 70 * c.giantCap / 100 < demand
  · cases giant <;> simp [hlt]
  · cases giant with
    | true =>
      have hpos : ¬ st.nrGiantTasks - 1 < 0 := by
        change 1 ≤ _ at h
        omega
      simp [hlt, hpos]
    | false => simp [hlt]

/-- The runqueue's counters are fixed up by the changes of the task. -/
theorem fixupWaltSchedStatsCommon_spec (demand pred : Nat) (hle : ∀ k, t.value k ≤ st.get k) :
    let r := fixupWaltSchedStatsCommon c t st demand pred
    let t' := { r.1 with demandScaled := demand, predDemandScaled := pred }
    (∃ giant, r.1 = { t with giant }) ∧ (∀ k, r.2.get k = st.get k - t.value k + t'.value k) ∧
      r.2.clamped = st.clamped := by
  have hd := hle .demand
  have hp := hle .pred
  have hg := hle .giant
  simp only [SchedStats.get, value] at hd hp hg
  dsimp only [fixupWaltSchedStatsCommon]
  rw [fixupCumulativeRunnableAvg_eq (by omega) (by omega)]
  by_cases hf : t.fair
  · rw [hf, Bool.true_and] at hg
    rw [if_pos hf, fixupNrGiant_eq (by exact hg)]
    refine ⟨⟨_, rfl⟩, fun k => ?_, rfl⟩
    cases k <;> simp only [SchedStats.get, value, hf, Bool.true_and] <;> omega
  · rw [if_neg hf]
    refine ⟨⟨t.giant, rfl⟩, fun k => ?_, rfl⟩
    cases k <;> simp only [SchedStats.get, value, hf, Bool.false_and] <;> omega

theorem updateTrailblazerAccounting_spec (c : Config) (x : Sample) (demand : Nat) (hf : t.fair) :
    let r := updateTrailblazerAccounting c x t st demand
    (∃ trailblazer highUtilHistory, r.1 = { t with trailblazer, highUtilHistory }) ∧
      (t.onRq = none → r.2.1 = st) ∧ (t.onRq = some cpu → ∀ k, r.2.1.get k = st.get k - t.value k + r.1.value k) ∧
      r.2.1.clamped = st.clamped := by
  dsimp only [updateTrailblazerAccounting]
  generalize (!x.pipeline && x.feature && _) = now
  refine ⟨⟨_, _, rfl⟩, fun h => by simp [h], fun h k => ?_, ?_⟩
  · cases k <;> cases ht : t.trailblazer <;> cases now <;> simp [h, hf, ht, SchedStats.get, value]
  · split_ifs <;> rfl

theorem updateHistory_follows (c : Config) (x : Sample) (hS : t.Seen) (hE : t.onRq = none ∨ t.onRq = some cpu)
    (hle : ∀ k, t.share cpu k ≤ st.get k) : Follows cpu t st (updateHistory c x t st) := by
  unfold updateHistory
  split_ifs with hskip
  · exact follows_of_same hS
  · dsimp only
    set h := push x.runtime x.samples t.sumHistory t.cidx
    set t₁ : Task := { t with sumHistory := h.1, cidx := h.2 } with ht₁
    set r := if t₁.fair && x.inGroup then
      updateTrailblazerAccounting c x t₁ st (policyDemand c.policy h.1 x.runtime) else
      (t₁, st, policyDemand c.policy h.1 x.runtime) with hr
    have hval : ∀ k, t₁.value k = t.value k := fun k => by cases k <;> rfl
    -- the trailblazer accounting changes one flag and one counter
    have hspec : (∃ trailblazer highUtilHistory, r.1 = { t₁ with trailblazer, highUtilHistory }) ∧
        (t.onRq = none → r.2.1 = st) ∧ (t.onRq = some cpu → ∀ k, r.2.1.get k = st.get k - t.value k + r.1.value k) ∧
        r.2.1.clamped = st.clamped := by
      by_cases hcase : (t₁.fair && x.inGroup)
      · rw [hr, if_pos hcase]
        simp only [← hval]
        exact updateTrailblazerAccounting_spec c x _ (and_eq_true_iff.mp hcase).1
      · rw [hr, if_neg hcase]
        refine ⟨⟨t.trailblazer, t.highUtilHistory, rfl⟩, fun _ => rfl, fun _ k => ?_, rfl⟩
        simp [hval]
    obtain ⟨⟨trailblazer, high, hr₁⟩, hnone, hsome, hclamp⟩ := hspec
    have hon : r.1.onRq = t.onRq := by rw [hr₁]
    have hprev : r.1.prevOnRq = t.prevOnRq := by rw [hr₁]
    rcases hE with hE | hE
    · rw [if_neg (by simp [hon, hE]), hnone hE]
      exact follows_of_off (by simpa [Task.Seen, hon, hprev] using hS) hE (hon.trans hE)
    · rw [if_pos (by simp [hon, hE])]
      have hle' : ∀ k, r.1.value k ≤ r.2.1.get k := by
        intro k
        have := hle k
        rw [share, if_pos hE] at this
        rw [hsome hE k]
        omega
      obtain ⟨⟨giant, hq⟩, hget, hq'⟩ :=
        fixupWaltSchedStatsCommon_spec (c := c) (r.2.2 / c.divisor % 2 ^ 16) x.pred hle'
      refine follows_of_on hS hE (by rw [← hon, hq]) (by rw [← hprev, hq]) (fun k => ?_) (hq'.trans hclamp)
      rw [hget, hsome hE k]
      cases k <;> simp only [value] <;> omega

theorem updateTaskPredDemand_follows (c : Config) (currWindowScaled pred : Nat) (hS : t.Seen)
    (hE : t.onRq = none ∨ t.onRq = some cpu) (hle : ∀ k, t.share cpu k ≤ st.get k) :
    Follows cpu t st (updateTaskPredDemand c currWindowScaled pred t st) := by
  unfold updateTaskPredDemand
  split_ifs with hskip hon
  · exact follows_of_same hS
  · have hE := hE.resolve_left (by simpa [Option.isSome_iff_ne_none] using hon)
    simp only [share, hE, if_true] at hle
    obtain ⟨⟨giant, hq⟩, hget, hq'⟩ := fixupWaltSchedStatsCommon_spec (c := c) t.demandScaled pred hle
    dsimp only
    refine follows_of_on hS hE (by rw [hq]) (by rw [hq]) (fun k => ?_) hq'
    rw [hget, hq]
  · have hE : t.onRq = none := by simpa using hon
    exact follows_of_off hS hE hE

theorem enqueue_follows {wakes : Bool} (fits rtg : Bool) (hS : t.Seen) (h : t.onRq = none)
    (hi : ignoresEnqueue delayed wakes = false) (hle : ∀ k, 0 ≤ st.get k) :
    let r := androidRvhEnqueueTask delayed wakes fits rtg t st
    Follows cpu t st ({ r.1 with onRq := some cpu }, r.2) := by
  have hd := hle .demand
  have hp := hle .pred
  simp only [SchedStats.get] at hd hp
  have hsingle : t.prevOnRq ≠ 1 := hS.1 h
  dsimp only [androidRvhEnqueueTask]
  cases hf : t.fair with
  | true =>
    simp only [hi, hsingle, if_false, if_true, false_eq_true, incRqWaltStats]
    rw [fixupCumulativeRunnableAvg_eq (by simp only; omega) (by simp only; omega)]
    refine follows_of_entered h rfl rfl (fun k => ?_) rfl
    cases k <;> simp [SchedStats.get, value]
  | false =>
    simp only [hi, hsingle, if_false, false_eq_true]
    rw [fixupCumulativeRunnableAvg_eq (by omega) (by omega)]
    refine follows_of_entered h rfl rfl (fun k => ?_) rfl
    cases k <;> simp [SchedStats.get, value]

theorem dequeue_follows (hS : t.Seen) (h : t.onRq = some cpu) (hi : ignoresDequeue delayed t = false)
    (hle : ∀ k, t.value k ≤ st.get k) : let r := androidRvhDequeueTask delayed t st
    Follows cpu t st ({ r.1 with onRq := none }, r.2) := by
  have hb := hle .big
  have ht := hle .trailblazer
  have hg := hle .giant
  have hd := hle .demand
  have hp := hle .pred
  have hsingle : t.prevOnRq ≠ 2 := hS.2 (by simp [h])
  dsimp only [androidRvhDequeueTask]
  cases hf : t.fair with
  | true =>
    simp only [SchedStats.get, value, hf, Bool.true_and] at hb ht hg hd hp
    simp only [hi, hsingle, if_false, if_true, decide_false, Bool.false_eq_true, Bool.not_false, Bool.and_self,
      decRqWaltStats]
    rw [fixupCumulativeRunnableAvg_eq (by simp only; omega) (by simp only; omega)]
    refine follows_of_left h rfl rfl (fun k => ?_) ?_
    · cases k <;> simp [SchedStats.get, value, hf, hg, Int.sub_eq_add_neg]
    · simp [not_lt.mpr hb, not_lt.mpr ht, not_lt.mpr hg]
  | false =>
    simp only [SchedStats.get, value] at hd hp
    simp only [hi, hsingle, if_false, decide_false, Bool.false_eq_true, Bool.false_and]
    rw [fixupCumulativeRunnableAvg_eq (by omega) (by omega)]
    refine follows_of_left h rfl rfl (fun k => ?_) rfl
    cases k <;> simp [SchedStats.get, value, hf, Int.sub_eq_add_neg]

theorem misfit_follows (load : Nat) (hS : t.Seen) (hf : t.fair) (h : t.onRq = some cpu)
    (hle : ∀ k, t.value k ≤ st.get k) : Follows cpu t st (androidRvhUpdateMisfitStatus load t st) := by
  have hb := hle .big
  simp only [SchedStats.get, value, hf, Bool.true_and] at hb
  dsimp only [androidRvhUpdateMisfitStatus]
  generalize decide (load ≠ 0) = misfit
  have hpos : 0 ≤ misfit.toInt := by cases misfit <;> decide
  split_ifs with hchange
  · refine follows_of_on hS h rfl rfl (fun k => ?_) ?_
    · cases k <;> simp [SchedStats.get, value, hf]
      omega
    · have : ¬ st.nrBigTasks + (misfit.toInt - t.misfit.toInt) < 0 := by omega
      simp [this]
  · exact follows_of_same hS

theorem perform_follows (c : Config) (a : Act) (hS : t.Seen) (hE : Enabled cpu t a)
    (hle : ∀ k, t.share cpu k ≤ st.get k) (h0 : ∀ k, 0 ≤ st.get k) : Follows cpu t st (perform c cpu t st a) := by
  have hvalue : t.onRq = some cpu → ∀ k, t.value k ≤ st.get k := by
    intro h k
    have := hle k
    rwa [share, if_pos h] at this
  cases a with
  | init demand demandScaled => exact follows_of_off ⟨fun _ => Nat.zero_ne_one, fun h => absurd hE h⟩ hE hE
  | setFair fair => exact follows_of_off hS hE hE
  | enqueue delayed wakes fits rtg =>
    dsimp only [perform]
    cases hi : ignoresEnqueue delayed wakes with
    | true =>
      simp only [androidRvhEnqueueTask, hi, if_true]
      exact follows_of_same hS
    | false => exact enqueue_follows fits rtg hS (hE.resolve_left (by simp [hi])) hi h0
  | dequeue delayed =>
    dsimp only [perform]
    cases hi : ignoresDequeue delayed t with
    | true =>
      simp only [androidRvhDequeueTask, hi, if_true]
      exact follows_of_same hS
    | false =>
      have hE := hE.resolve_left (by simp [hi])
      exact dequeue_follows hS hE hi (hvalue hE)
  | history x => exact updateHistory_follows c x hS hE hle
  | predDemand currWindowScaled pred => exact updateTaskPredDemand_follows c currWindowScaled pred hS hE hle
  | misfit load => exact misfit_follows load hS hE.1 hE.2 (hvalue hE.2)

end

/-! ### Every run -/

section
variable [Fintype ι] {c : Config} {s s' : State ι} {e : Event ι}

theorem Exact.share_le (h : Exact s) (p : ι) (cpu : Nat) (k : Counter) :
    (s.tasks p).share cpu k ≤ (s.stats cpu).get k := by
  rw [h.sums]
  refine single_le_sum (f := fun p => (s.tasks p).share cpu k) (fun q _ => ?_) (mem_univ p)
  exact (s.tasks q).share_nonneg cpu k

theorem Exact.nonneg (h : Exact s) (cpu : Nat) (k : Counter) : 0 ≤ (s.stats cpu).get k := by
  rw [h.sums]
  exact sum_nonneg fun q _ => (s.tasks q).share_nonneg cpu k

theorem exact_step [DecidableEq ι] (hstep : Step c s e s') (h : Exact s ∧ ∀ p, (s.tasks p).Seen) :
    Exact s' ∧ ∀ p, (s'.tasks p).Seen := by
  obtain ⟨hE, rfl⟩ := hstep
  obtain ⟨hexact, hseen⟩ := h
  have hF := perform_follows c e.act (hseen e.task) hE (hexact.share_le e.task e.cpu) (hexact.nonneg e.cpu)
  set r := perform c e.cpu (s.tasks e.task) (s.stats e.cpu) e.act
  refine ⟨⟨fun cpu k => ?_, fun cpu => ?_⟩, fun p => ?_⟩ <;> dsimp only
  · rw [Sums.sum_update (share cpu k), ← hexact.sums]
    rcases eq_or_ne cpu e.cpu with rfl | hne
    · rw [update_self]
      exact hF.change k
    · rw [update_of_ne hne, hF.apart cpu hne k]
      omega
  · rcases eq_or_ne cpu e.cpu with rfl | hne
    · rw [update_self, hF.unclamped]
      exact hexact.unclamped _
    · rw [update_of_ne hne]
      exact hexact.unclamped cpu
  · rcases eq_or_ne p e.task with rfl | hne
    · rw [update_self]
      exact hF.seen
    · rw [update_of_ne hne]
      exact hseen p

theorem exact_start (idle fair : ι → Bool) (onRq : ι → Option Nat) :
    Exact (start idle fair onRq) ∧ ∀ p, ((start idle fair onRq).tasks p).Seen := by
  refine ⟨⟨fun cpu k => ?_, fun _ => rfl⟩, fun p => ⟨fun _ => Nat.zero_ne_one, fun _ => (by decide : 0 ≠ 2)⟩⟩
  have hzero : ((start idle fair onRq).stats cpu).get k = 0 := by cases k <;> rfl
  rw [hzero, sum_eq_zero fun p _ => ?_]
  cases k <;> simp [share, value, start, ite_self]

/-- The sum over the tasks that are enqueued on a CPU. -/
def State.sum (s : State ι) (cpu : Nat) (f : Task → Nat) : Int :=
  ∑ p ∈ Finset.univ.filter (fun p => (s.tasks p).onRq = some cpu), (f (s.tasks p) : Int)

/-- The number of fair tasks with a flag that are enqueued on a CPU. -/
def State.nr (s : State ι) (cpu : Nat) (flag : Task → Bool) : Int :=
  (Finset.univ.filter fun p => (s.tasks p).onRq = some cpu ∧ (s.tasks p).fair = true ∧ flag (s.tasks p) = true).card

variable {k : Counter}

theorem sum_share (s : State ι) (cpu : Nat) {f : Task → Nat} (hk : ∀ t : Task, t.value k = f t) :
    ∑ p, (s.tasks p).share cpu k = s.sum cpu f := by
  simp [State.sum, sum_filter, share, hk]

theorem nr_share (s : State ι) (cpu : Nat) {flag : Task → Bool} (hk : ∀ t : Task, t.value k = (t.fair && flag t).toInt) :
    ∑ p, (s.tasks p).share cpu k = s.nr cpu flag := by
  rw [State.nr, card_filter, Nat.cast_sum]
  refine sum_congr rfl fun p _ => ?_
  rw [share, hk]
  cases (s.tasks p).fair <;> cases flag (s.tasks p) <;> simp

/-- In every state of every run from the start of WALT the statistics of each runqueue are the sums over the
tasks enqueued on it, and no clamp or `BUG_ON` has been met. -/
theorem stats_are_sums [DecidableEq ι] (c : Config) (idle fair : ι → Bool) (onRq : ι → Option Nat)
    (run : List (Event ι × State ι)) (hrun : Lts.Path (Step c) (start idle fair onRq) run) :
    ∀ s ∈ start idle fair onRq :: run.map Prod.snd, ∀ cpu,
      (s.stats cpu).cumulativeRunnableAvgScaled = s.sum cpu Task.demandScaled ∧
      (s.stats cpu).predDemandsSumScaled = s.sum cpu Task.predDemandScaled ∧
      (s.stats cpu).nrBigTasks = s.nr cpu Task.misfit ∧ (s.stats cpu).nrTrailblazerTasks = s.nr cpu Task.trailblazer ∧
      (s.stats cpu).nrGiantTasks = s.nr cpu Task.giant ∧ (s.stats cpu).clamped = false := by
  intro s hs cpu
  obtain ⟨h, -⟩ := Lts.Path.invariant (fun _ _ _ hstep h => exact_step hstep h) hrun
    (exact_start idle fair onRq) s hs
  exact ⟨(h.sums cpu .demand).trans (sum_share s cpu fun _ => rfl),
    (h.sums cpu .pred).trans (sum_share s cpu fun _ => rfl), (h.sums cpu .big).trans (nr_share s cpu fun _ => rfl),
    (h.sums cpu .trailblazer).trans (nr_share s cpu fun _ => rfl),
    (h.sums cpu .giant).trans (nr_share s cpu fun _ => rfl), h.unclamped cpu⟩

/-- A new task with a demand of 900 is enqueued on CPU 0, where it does not fit. -/
theorem stats_are_sums_misfit : ∃ run : List (Event Unit × State Unit),
    Lts.Path (Step ⟨.recent, 1, 1024, 1024⟩) (start (fun _ => false) (fun _ => true) (fun _ => none)) run ∧
      ∃ s ∈ run.map Prod.snd, (s.stats 0).nrBigTasks = 1 ∧ s.nr 0 Task.misfit = 1 ∧ s.sum 0 Task.demandScaled = 900 := by
  let c : Config := ⟨.recent, 1, 1024, 1024⟩
  let s₀ : State Unit := start (fun _ => false) (fun _ => true) (fun _ => none)
  let next (s : State Unit) (e : Event Unit) : State Unit :=
    let r := perform c e.cpu (s.tasks e.task) (s.stats e.cpu) e.act
    ⟨update s.tasks e.task r.1, update s.stats e.cpu r.2⟩
  let e₁ : Event Unit := ⟨(), 0, .init 900 900⟩
  let e₂ : Event Unit := ⟨(), 0, .enqueue false false false false⟩
  have hp : Lts.Path (Step c) s₀ [(e₁, next s₀ e₁), (e₂, next (next s₀ e₁) e₂)] :=
    ⟨⟨rfl, rfl⟩, ⟨.inr rfl, rfl⟩, trivial⟩
  have h := stats_are_sums c _ _ _ _ hp (next (next s₀ e₁) e₂) (by simp) 0
  have hbig : ((next (next s₀ e₁) e₂).stats 0).nrBigTasks = 1 := by decide
  have hdemand : ((next (next s₀ e₁) e₂).stats 0).cumulativeRunnableAvgScaled = 900 := by decide
  exact ⟨_, hp, _, by simp, hbig, h.2.2.1 ▸ hbig, h.1 ▸ hdemand⟩

end

end Sm8850.Walt.Stats
