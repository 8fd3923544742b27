import Mathlib.Data.List.Perm.Basic
import Sm8850.Lib.Path
import Sm8850.Walt.TopTasks

/-! Runs of one runqueue of kernel/sched/walt/walt.c: windows roll over, tasks are updated when they
are due and come and go by migration. -/
namespace Sm8850.Walt

open Lts List Prod

/-! ### The functions around the tables -/

/-- `sched_ravg_window` and `sched_load_granule`. -/
structure Tunables where
  window : Nat
  granule : Nat
  window_pos : 0 < window

/-- What `scale_exec_time` takes from the runqueue and from the group of the task. -/
structure Scale where
  taskExecScale : Nat
  boostedTaskLoad : Option Nat
  deriving DecidableEq

def scaleExecTime (sc : Scale) (delta : Nat) : Nat :=
  let delta := delta * sc.taskExecScale / 1024
  match sc.boostedTaskLoad with
  | none => delta
  | some boost => delta * (1024 + boost) / 1024

def updateWindowStart (c : Tunables) (wallclock : Nat) (w : Wrq) : Wrq :=
  let delta := wallclock - w.windowStart
  if delta < c.window then w
  else
    let nrWindows := delta / c.window
    rolloverTopTasks { w with windowStart := w.windowStart + nrWindows * c.window } (1 < nrWindows)

def rolloverTaskWindow (p : Task) (fullWindow : Bool) : Task :=
  { p with prevWindow := if fullWindow then 0 else p.currWindow, currWindow := 0 }

/-- The windows of a task as `update_cpu_busy_time` leaves them. -/
def account (c : Tunables) (p : Task) (windowStart wallclock : Nat) (busy : Bool) (sc : Scale)
    (newWindow fullWindow : Bool) : Task :=
  let markStart := p.markStart
  let p := if newWindow then { rolloverTaskWindow p fullWindow with windowStart } else p
  if !busy then p
  else if !newWindow then { p with currWindow := p.currWindow + scaleExecTime sc (wallclock - markStart) }
  else
    { p with
      prevWindow :=
        if !fullWindow then p.prevWindow + scaleExecTime sc (windowStart - markStart) else scaleExecTime sc c.window
      currWindow := scaleExecTime sc (wallclock - windowStart) }

/-- `update_cpu_busy_time` for a task that is not the idle task. `busy` is what
`account_busy_for_cpu_time` returns. -/
def updateCpuBusyTime (c : Tunables) (p : Task) (w : Wrq) (wallclock : Nat) (busy : Bool) (sc : Scale) : Task × Wrq :=
  let newWindow := p.markStart < w.windowStart
  let fullWindow := newWindow && c.window ≤ w.windowStart - p.markStart
  let p' := account c p w.windowStart wallclock busy sc newWindow fullWindow
  (p', updateTopTasks c.granule p' w p.currWindow newWindow fullWindow)

/-- `walt_update_task_ravg` after `update_window_start`, for a task that has been marked before. -/
def updateTaskRavg (c : Tunables) (p : Task) (w : Wrq) (wallclock : Nat) (busy : Bool) (sc : Scale) : Task × Wrq :=
  if p.markStart = wallclock then (p, w)
  else
    let r := updateCpuBusyTime c p w wallclock busy sc
    ({ r.1 with markStart := wallclock }, r.2)

/-! ### Runs -/

structure State where
  wrq : Wrq
  clock : Nat
  tasks : List Task

inductive Event where
  | roll (wallclock : Nat)
  | update (p : Task) (wallclock : Nat) (busy : Bool) (sc : Scale)
  | leave (p : Task) (wallclock : Nat) (sc : Scale)
  | join (p : Task) (wallclock : Nat) (sc : Scale)

/-- The windows of a task belong to one of the windows up to the current one, in which it was last
marked. A task marked at the very start of its window has no load in it yet. -/
structure Timed (c : Tunables) (windowStart clock : Nat) (p : Task) : Prop where
  lag : ∃ k, p.windowStart + k * c.window = windowStart
  lower : p.windowStart ≤ p.markStart
  upper : p.markStart < p.windowStart + c.window
  marked : p.markStart ≤ clock
  fresh : p.markStart = p.windowStart → p.currWindow = 0

/-- The tasks after an event. -/
def nextTasks (c : Tunables) (s : State) : Event → List Task
  | .roll _ => s.tasks
  | .update p wallclock busy sc => (updateTaskRavg c p s.wrq wallclock busy sc).1 :: s.tasks.erase p
  | .leave p _ _ => s.tasks.erase p
  | .join p wallclock sc => (updateTaskRavg c p s.wrq wallclock false sc).1 :: s.tasks

/-- The runqueue after an event. Migration updates the task first, without busy time. -/
def nextWrq (c : Tunables) (s : State) : Event → Wrq
  | .roll wallclock => updateWindowStart c wallclock s.wrq
  | .update p wallclock busy sc => (updateTaskRavg c p s.wrq wallclock busy sc).2
  | .leave p wallclock sc =>
    let r := updateTaskRavg c p s.wrq wallclock false sc
    migrateTopTasksSubtraction c.granule r.1 r.2
  | .join p wallclock sc =>
    let r := updateTaskRavg c p s.wrq wallclock false sc
    migrateTopTasksAddition c.granule r.1 r.2

def Event.wallclock : Event → Nat
  | .roll wallclock | .update _ wallclock _ _ | .leave _ wallclock _ | .join _ wallclock _ => wallclock

/-- Time goes on, and the window of the runqueue is brought up to the time before a task is
touched. -/
def Enabled (c : Tunables) (s : State) : Event → Prop
  | .roll _ => True
  | .update p wallclock _ _ | .leave p wallclock _ => p ∈ s.tasks ∧ wallclock < s.wrq.windowStart + c.window
  | .join p wallclock _ => Timed c s.wrq.windowStart wallclock p ∧ wallclock < s.wrq.windowStart + c.window

inductive Step (c : Tunables) : State → Event → State → Prop
  | mk {s : State} {e : Event} : s.clock ≤ e.wallclock → Enabled c s e →
      Step c s e ⟨nextWrq c s e, e.wallclock, nextTasks c s e⟩

/-- An empty runqueue. -/
def initial (windowStart : Nat) : State :=
  ⟨⟨windowStart, false, fun _ => (Table.cleared 0).count, fun _ => (Table.cleared 0).bits, 0, 0⟩, windowStart, []⟩

/-! ### The numbers the tables stand for -/

/-- Where a task is counted in the current window, and in the previous one. A task that is one
window behind still has its entry there. -/
def currEntry (c : Tunables) (windowStart : Nat) (p : Task) : Option Nat :=
  if p.windowStart = windowStart then entry c.granule p.currWindow else none

def prevEntry (c : Tunables) (windowStart : Nat) (p : Task) : Option Nat :=
  if p.windowStart = windowStart then entry c.granule p.prevWindow
  else if p.windowStart + c.window = windowStart then entry c.granule p.currWindow
  else none

/-- How many tasks are counted at an index. -/
def tally (f : Task → Option Nat) (l : List Task) (i : Nat) : Nat := l.countP (fun p => f p = some i)

theorem tally_cons (f : Task → Option Nat) (p : Task) (l : List Task) : tally f (p :: l) = plus (tally f l) (f p) := by
  funext i
  simp [tally, plus, countP_cons]

theorem tally_erase (f : Task → Option Nat) {p : Task} {l : List Task} (h : p ∈ l) :
    tally f l = plus (tally f (l.erase p)) (f p) := by
  rw [← tally_cons]
  funext i
  exact (perm_cons_erase h).countP_eq _

/-- The tables of both windows are exact. -/
def TopTasksExact (c : Tunables) (s : State) : Prop :=
  Exact s.wrq.curr (tally (currEntry c s.wrq.windowStart) s.tasks) ∧
    Exact s.wrq.prev (tally (prevEntry c s.wrq.windowStart) s.tasks)

/-! ### One update -/

section
variable {c : Tunables} {p : Task} {w : Wrq} {wallclock clock : Nat} {busy : Bool} {sc : Scale} {n m : Nat → Nat}

theorem updateTopTasks_windowStart {granule old : Nat} {newWindow fullWindow : Bool} :
    (updateTopTasks granule p w old newWindow fullWindow).windowStart = w.windowStart := by
  unfold updateTopTasks
  split
  · rfl
  · dsimp only
    split
    · rfl
    · split <;> rfl

theorem updateTaskRavg_windowStart : (updateTaskRavg c p w wallclock busy sc).2.windowStart = w.windowStart := by
  unfold updateTaskRavg updateCpuBusyTime
  split
  · rfl
  · exact updateTopTasks_windowStart

/-- The cases of an update by the window the task was last updated in. -/
theorem Timed.cases (h : Timed c w.windowStart clock p) :
    (¬ p.markStart < w.windowStart ∧ p.windowStart = w.windowStart) ∨
    (p.markStart < w.windowStart ∧ ¬ c.window ≤ w.windowStart - p.markStart ∧
      p.windowStart ≠ w.windowStart ∧ p.windowStart + c.window = w.windowStart) ∨
    (p.markStart < w.windowStart ∧ c.window ≤ w.windowStart - p.markStart ∧
      currEntry c w.windowStart p = none ∧ prevEntry c w.windowStart p = none) := by
  obtain ⟨⟨k, hk⟩, hlower, hupper, -, hfresh⟩ := h
  rcases k with - | - | k
  · left
    omega
  · by_cases hfull : c.window ≤ w.windowStart - p.markStart
    · right; right
      have hzero : p.currWindow = 0 := hfresh (by omega)
      refine ⟨by omega, hfull, if_neg (by omega), ?_⟩
      rw [prevEntry, if_neg (by omega), if_pos (by omega), entry, if_pos hzero]
    · right; left
      omega
  · right; right
    have hk' : p.windowStart + k * c.window + 2 * c.window = w.windowStart := by
      rw [← hk, Nat.add_mul, Nat.add_mul]
      omega
    refine ⟨by omega, by omega, if_neg (by omega), ?_⟩
    rw [prevEntry, if_neg (by omega), if_neg (by omega)]

/-- All numbers with one more entry are counts of a byte. -/
def Room (n : Nat → Nat) (e : Option Nat) : Prop := ∀ i < numLoadIndices, plus n e i < 256

variable {T : Table} {p' : Task}

theorem Exact.room {e : Option Nat} (h : Exact T (plus n e)) : Room n e := h.fits

theorem Exact.room_none (h : Exact T n) : Room n none := by
  exact h.fits

section
variable {granule old : Nat}

variable {T : Table} {P : Prop}

/-- A load is added to a table that does not count it. -/
theorem Exact.addLoad {load : Nat} (h : Exact T n) (hroom : Room n (entry granule load)) :
    Exact (if load ≠ 0 then T.add (loadToIndex granule load) else T) (plus n (entry granule load)) := by
  unfold entry at hroom ⊢
  by_cases hload : load = 0
  · rw [if_neg (not_not.mpr hload), if_pos hload, plus_none]
    exact h
  · rw [if_neg hload] at hroom
    rw [if_pos hload, if_neg hload]
    exact h.add (loadToIndex_lt _ _) hroom

theorem curr_ite [Decidable P] : (if P then w.setCurr T else w).curr = if P then T else w.curr := by
  split <;> simp

theorem prev_ite [Decidable P] : (if P then w.setCurr T else w).prev = w.prev := by
  split <;> simp

theorem updateTopTasks_within (hc : Exact w.curr (plus n (entry granule old))) (hle : old ≤ p.currWindow)
    (hroom : Room n (entry granule p.currWindow)) :
    Exact (updateTopTasks granule p w old false false).curr (plus n (entry granule p.currWindow)) ∧
      (updateTopTasks granule p w old false false).prev = w.prev := by
  unfold updateTopTasks
  split
  · next h =>
    rw [← h.1]
    exact ⟨hc, rfl⟩
  · simp only [Bool.not_false, if_true, Wrq.setCurr_curr, Wrq.setCurr_prev]
    exact ⟨hc.reload hle hroom, trivial⟩

theorem updateTopTasks_rolled (granule : Nat) (p : Task) (old : Nat) (fullWindow : Bool) (hc : Exact w.curr n)
    (hroom : Room n (entry granule p.currWindow)) :
    Exact (updateTopTasks granule p w old true fullWindow).curr (plus n (entry granule p.currWindow)) ∧
      (updateTopTasks granule p w old true fullWindow).prev =
        if fullWindow then w.prev.fullWindow p.prevWindow (loadToIndex granule p.prevWindow)
        else w.prev.partWindow old p.prevWindow (loadToIndex granule old) (loadToIndex granule p.prevWindow) := by
  unfold updateTopTasks
  simp only [Bool.not_true, Bool.false_eq_true, and_false, if_false, curr_ite, prev_ite, Wrq.setPrev_curr,
    Wrq.setPrev_prev, and_true]
  exact hc.addLoad hroom

end

/-! The windows of a task in the three cases. -/

theorem account_within (c : Tunables) (wallclock : Nat) (busy : Bool) (sc : Scale) (h : p.windowStart = w.windowStart) :
    let p' := account c p w.windowStart wallclock busy sc false false
    p'.windowStart = w.windowStart ∧ p'.prevWindow = p.prevWindow ∧ p.currWindow ≤ p'.currWindow := by
  cases busy <;> simp [account, h]

theorem account_part (c : Tunables) (p : Task) (w : Wrq) (wallclock : Nat) (busy : Bool) (sc : Scale) :
    let p' := account c p w.windowStart wallclock busy sc true false
    p'.windowStart = w.windowStart ∧ p.currWindow ≤ p'.prevWindow := by
  cases busy <;> simp [account, rolloverTaskWindow]

theorem account_full (c : Tunables) (p : Task) (w : Wrq) (wallclock : Nat) (busy : Bool) (sc : Scale) :
    let p' := account c p w.windowStart wallclock busy sc true true
    p'.windowStart = w.windowStart ∧ p'.prevWindow = if busy then scaleExecTime sc c.window else 0 := by
  cases busy <;> simp [account, rolloverTaskWindow]

/-- The condition on an update: after a whole window the top is overwritten. -/
def TopKept (c : Tunables) (p : Task) (w : Wrq) (busy : Bool) (sc : Scale) : Prop :=
  p.markStart < w.windowStart → c.window ≤ w.windowStart - p.markStart → busy = true →
    scaleExecTime sc c.window ≠ 0 → w.prevTop ≤ loadToIndex c.granule (scaleExecTime sc c.window)

theorem currEntry_synced (h : p'.windowStart = w.windowStart) :
    currEntry c w.windowStart p' = entry c.granule p'.currWindow := if_pos h

theorem prevEntry_synced (h : p'.windowStart = w.windowStart) :
    prevEntry c w.windowStart p' = entry c.granule p'.prevWindow := if_pos h

/-- An update moves the entries of the task and leaves the tables exact, unless an entry finds no
room or the top is overwritten by a smaller one. -/
theorem updateCpuBusyTime_exact (hT : Timed c w.windowStart clock p)
    (hc : Exact w.curr (plus n (currEntry c w.windowStart p)))
    (hp : Exact w.prev (plus m (prevEntry c w.windowStart p))) : let r := updateCpuBusyTime c p w wallclock busy sc
    Exact r.2.curr (plus n (currEntry c w.windowStart r.1)) ∧ Exact r.2.prev (plus m (prevEntry c w.windowStart r.1)) ↔
      Room n (currEntry c w.windowStart r.1) ∧ Room m (prevEntry c w.windowStart r.1) ∧ TopKept c p w busy sc := by
  unfold updateCpuBusyTime
  rcases hT.cases with ⟨hnew, hws⟩ | ⟨hnew, hpart, hne, hlag⟩ | ⟨hnew, hfull, hnc, hnp⟩
  · -- the window has not changed
    have hkept : TopKept c p w busy sc := fun h => absurd h hnew
    simp only [hnew, decide_false, Bool.false_and]
    obtain ⟨hws', hprev, hle⟩ := account_within c wallclock busy sc hws
    rw [currEntry_synced hws', prevEntry_synced hws', hprev]
    rw [currEntry_synced hws] at hc
    rw [prevEntry_synced hws] at hp
    constructor
    · rintro ⟨hc', hp'⟩
      exact ⟨hc'.room, hp'.room, hkept⟩
    · rintro ⟨hroom, -, -⟩
      obtain ⟨hc', hp'⟩ := updateTopTasks_within hc hle hroom
      rw [hp']
      exact ⟨hc', hp⟩
  · -- the task is one window behind, and its entry is in the previous table
    have hkept : TopKept c p w busy sc := fun _ h => absurd h hpart
    simp only [hnew, hpart, decide_true, decide_false, Bool.and_false]
    obtain ⟨hws', hle⟩ := account_part c p w wallclock busy sc
    rw [currEntry_synced hws', prevEntry_synced hws']
    rw [currEntry, if_neg hne, plus_none] at hc
    rw [prevEntry, if_neg hne, if_pos hlag] at hp
    constructor
    · rintro ⟨hc', hp'⟩
      exact ⟨hc'.room, hp'.room, hkept⟩
    · rintro ⟨hroomc, hroomp, -⟩
      obtain ⟨hc', hp'⟩ := updateTopTasks_rolled c.granule _ p.currWindow false hc hroomc
      rw [hp']
      exact ⟨hc', hp.partWindow hle hroomp⟩
  · -- the task has no entry any more
    simp only [hnew, hfull, decide_true, Bool.and_true]
    obtain ⟨hws', hprev⟩ := account_full c p w wallclock busy sc
    rw [currEntry_synced hws', prevEntry_synced hws']
    rw [hnc, plus_none] at hc
    rw [hnp, plus_none] at hp
    have htop : TopKept c p w busy sc ↔ ((account c p w.windowStart wallclock busy sc true true).prevWindow ≠ 0 →
          w.prev.top ≤ loadToIndex c.granule (account c p w.windowStart wallclock busy sc true true).prevWindow) := by
      rw [hprev]
      cases busy
      · simp [TopKept]
      · simp [TopKept, hnew, hfull, Wrq.prev]
    constructor
    · rintro ⟨hc', hp'⟩
      have hroomp := hp'.room
      obtain ⟨-, hp''⟩ := updateTopTasks_rolled c.granule _ p.currWindow true hc hc'.room
      rw [hp'', if_pos rfl] at hp'
      exact ⟨hc'.room, hroomp, htop.mpr ((hp.fullWindow _ _ hroomp).mp hp')⟩
    · rintro ⟨hroomc, hroomp, hkept⟩
      obtain ⟨hc', hp'⟩ := updateTopTasks_rolled c.granule _ p.currWindow true hc hroomc
      rw [hp', if_pos rfl]
      exact ⟨hc', (hp.fullWindow _ _ hroomp).mpr (htop.mp hkept)⟩

theorem updateTaskRavg_exact (hT : Timed c w.windowStart clock p) (hne : p.markStart ≠ wallclock)
    (hc : Exact w.curr (plus n (currEntry c w.windowStart p)))
    (hp : Exact w.prev (plus m (prevEntry c w.windowStart p))) : let r := updateTaskRavg c p w wallclock busy sc
    Exact r.2.curr (plus n (currEntry c w.windowStart r.1)) ∧ Exact r.2.prev (plus m (prevEntry c w.windowStart r.1)) ↔
      Room n (currEntry c w.windowStart r.1) ∧ Room m (prevEntry c w.windowStart r.1) ∧ TopKept c p w busy sc := by
  intro r
  have hr : r = updateTaskRavg c p w wallclock busy sc := rfl
  rw [updateTaskRavg, if_neg hne] at hr
  rw [hr]
  exact updateCpuBusyTime_exact hT hc hp

/-- Without busy time an update only brings the task up to the window: its entries stay. -/
theorem updateTaskRavg_sync (wallclock : Nat) (sc : Scale) (hT : Timed c w.windowStart clock p) (hc : Exact w.curr n)
    (hp : Exact w.prev m) : let r := updateTaskRavg c p w wallclock false sc
    Exact r.2.curr n ∧ Exact r.2.prev m ∧ currEntry c w.windowStart r.1 = currEntry c w.windowStart p ∧
      prevEntry c w.windowStart r.1 = prevEntry c w.windowStart p := by
  unfold updateTaskRavg updateCpuBusyTime
  split
  · exact ⟨hc, hp, rfl, rfl⟩
  · dsimp only
    rcases hT.cases with ⟨hnew, hws⟩ | ⟨hnew, hpart, hne, hlag⟩ | ⟨hnew, hfull, hnc, hnp⟩
    · simp only [hnew, decide_false, Bool.false_and]
      have hsame : account c p w.windowStart wallclock false sc false false = p := by simp [account]
      rw [hsame, updateTopTasks, if_pos ⟨rfl, rfl⟩]
      exact ⟨hc, hp, rfl, rfl⟩
    · simp only [hnew, hpart, decide_true, decide_false, Bool.and_false]
      have hrolled : account c p w.windowStart wallclock false sc true false =
          ⟨p.markStart, w.windowStart, 0, p.currWindow⟩ := by simp [account, rolloverTaskWindow]
      rw [hrolled]
      obtain ⟨hc', hp'⟩ := updateTopTasks_rolled c.granule ⟨p.markStart, w.windowStart, 0, p.currWindow⟩ p.currWindow false hc hc.room_none
      rw [hp']
      refine ⟨by simpa [entry] using hc', by simpa [Table.partWindow] using hp, ?_, ?_⟩
      · rw [currEntry_synced rfl, currEntry, if_neg hne]
        rfl
      · rw [prevEntry_synced rfl, prevEntry, if_neg hne, if_pos hlag]
    · simp only [hnew, hfull, decide_true, Bool.and_true]
      have hrolled : account c p w.windowStart wallclock false sc true true =
          ⟨p.markStart, w.windowStart, 0, 0⟩ := by simp [account, rolloverTaskWindow]
      rw [hrolled]
      obtain ⟨hc', hp'⟩ := updateTopTasks_rolled c.granule ⟨p.markStart, w.windowStart, 0, 0⟩ p.currWindow true hc hc.room_none
      rw [hp', if_pos rfl, hnc, hnp]
      refine ⟨by simpa [entry] using hc', ?_, currEntry_synced rfl, prevEntry_synced rfl⟩
      have := (hp.fullWindow c.granule 0 hp.room_none).mpr (fun h => absurd rfl h)
      simpa [entry] using this

end

/-! ### The time -/

section
variable {c : Tunables} {p : Task} {w : Wrq} {wallclock clock : Nat} {busy : Bool} {sc : Scale} {s t : State} {e : Event}

theorem scaleExecTime_zero (sc : Scale) : scaleExecTime sc 0 = 0 := by
  unfold scaleExecTime
  cases sc.boostedTaskLoad <;> simp

/-- An update marks the task at the time and brings it up to the window. -/
theorem Timed.synced (h : Timed c w.windowStart clock p) (hclock : clock ≤ wallclock) (hws : w.windowStart ≤ wallclock)
    (busy : Bool) (sc : Scale) : let q := (updateTaskRavg c p w wallclock busy sc).1
    q.windowStart = w.windowStart ∧ q.markStart = wallclock ∧ (wallclock = w.windowStart → q.currWindow = 0) := by
  have hmark := h.marked
  unfold updateTaskRavg updateCpuBusyTime
  rcases h.cases with ⟨hnew, hws'⟩ | ⟨hnew, hpart, -, -⟩ | ⟨hnew, hfull, -, -⟩
  · split
    · next heq => exact ⟨hws', heq, fun hstart => h.fresh (by omega)⟩
    · simp only [hnew, decide_false, Bool.false_and]
      exact ⟨(account_within c wallclock busy sc hws').1, trivial, fun hstart => by omega⟩
  · rw [if_neg (by omega)]
    simp only [hnew, hpart, decide_true, decide_false, Bool.and_false]
    refine ⟨(account_part c p w wallclock busy sc).1, trivial, fun hstart => ?_⟩
    cases busy <;> simp [account, rolloverTaskWindow, hstart, scaleExecTime_zero]
  · rw [if_neg (by omega)]
    simp only [hnew, hfull, decide_true, Bool.and_true]
    refine ⟨(account_full c p w wallclock busy sc).1, trivial, fun hstart => ?_⟩
    cases busy <;> simp [account, rolloverTaskWindow, hstart, scaleExecTime_zero]

/-- An updated task is in the current window. -/
theorem Timed.update (h : Timed c w.windowStart clock p) (hclock : clock ≤ wallclock) (hws : w.windowStart ≤ wallclock)
    (hend : wallclock < w.windowStart + c.window) :
    Timed c w.windowStart wallclock (updateTaskRavg c p w wallclock busy sc).1 := by
  obtain ⟨hsame, hmark, hfresh⟩ := h.synced hclock hws busy sc
  refine ⟨⟨0, by simp [hsame]⟩, ?_, ?_, hmark.le, fun hstart => hfresh ?_⟩
  · rwa [hsame, hmark]
  · rwa [hsame, hmark]
  · rwa [hmark, hsame] at hstart

/-- The windows of the runqueue and of its tasks. -/
structure Inv (c : Tunables) (s : State) : Prop where
  clock : s.wrq.windowStart ≤ s.clock
  timed : ∀ p ∈ s.tasks, Timed c s.wrq.windowStart s.clock p

theorem migrateTopTasksSubtraction_windowStart {granule : Nat} :
    (migrateTopTasksSubtraction granule p w).windowStart = w.windowStart := by
  unfold migrateTopTasksSubtraction
  split <;> split <;> rfl

theorem migrateTopTasksAddition_windowStart {granule : Nat} :
    (migrateTopTasksAddition granule p w).windowStart = w.windowStart := by
  unfold migrateTopTasksAddition
  split <;> split <;> rfl

theorem updateWindowStart_windowStart (c : Tunables) (wallclock : Nat) (w : Wrq) :
    (updateWindowStart c wallclock w).windowStart = w.windowStart + (wallclock - w.windowStart) / c.window * c.window := by
  unfold updateWindowStart
  dsimp only
  split
  · next h => rw [Nat.div_eq_of_lt h, Nat.zero_mul, Nat.add_zero]
  · unfold rolloverTopTasks
    split <;> rfl

theorem Timed.later {windowStart k clock' : Nat} (h : Timed c windowStart clock p) (hclock : clock ≤ clock') :
    Timed c (windowStart + k * c.window) clock' p := by
  obtain ⟨⟨j, hj⟩, hlower, hupper, hmarked, hfresh⟩ := h
  exact ⟨⟨j + k, by rw [← hj, Nat.add_mul, Nat.add_assoc]⟩, hlower, hupper, hmarked.trans hclock, hfresh⟩

/-- A step that leaves the window of the runqueue. -/
theorem Inv.next {w' : Wrq} {l : List Task} (hI : Inv c s) (hclock : s.clock ≤ wallclock)
    (hws : w'.windowStart = s.wrq.windowStart) (htimed : ∀ p ∈ l, Timed c s.wrq.windowStart wallclock p) :
    Inv c ⟨w', wallclock, l⟩ := by
  refine ⟨?_, fun p hp => ?_⟩
  · rw [hws]
    exact hI.clock.trans hclock
  · rw [hws]
    exact htimed p hp

theorem Inv.step (h : Step c s e t) (hI : Inv c s) : Inv c t := by
  obtain ⟨hclock, hen⟩ := h
  have hws := hI.clock.trans hclock
  have hlater : ∀ p ∈ s.tasks, Timed c s.wrq.windowStart e.wallclock p := by
    intro p hp
    have := (hI.timed p hp).later (k := 0) hclock
    rwa [Nat.zero_mul, Nat.add_zero] at this
  cases e with
  | roll wallclock =>
    refine ⟨?_, fun p hp => ?_⟩
    · change (updateWindowStart c wallclock s.wrq).windowStart ≤ wallclock
      have hle : s.wrq.windowStart ≤ wallclock := hws
      have := Nat.div_mul_le_self (wallclock - s.wrq.windowStart) c.window
      rw [updateWindowStart_windowStart]
      omega
    · change Timed c (updateWindowStart c wallclock s.wrq).windowStart wallclock p
      rw [updateWindowStart_windowStart]
      exact (hI.timed p hp).later hclock
  | update p wallclock busy sc =>
    refine hI.next hclock updateTaskRavg_windowStart fun q hq => ?_
    rcases mem_cons.mp hq with rfl | hq
    · exact (hI.timed p hen.1).update hclock hws hen.2
    · exact hlater q (mem_of_mem_erase hq)
  | leave p wallclock sc =>
    refine hI.next hclock (migrateTopTasksSubtraction_windowStart.trans updateTaskRavg_windowStart) fun q hq => ?_
    exact hlater q (mem_of_mem_erase hq)
  | join p wallclock sc =>
    refine hI.next hclock (migrateTopTasksAddition_windowStart.trans updateTaskRavg_windowStart) fun q hq => ?_
    rcases mem_cons.mp hq with rfl | hq
    · exact hen.1.update le_rfl hws hen.2
    · exact hlater q hq

end

/-! ### Steps -/

/-- Every number the tables have to hold is that of a byte. -/
def CountsFit (c : Tunables) (windowStart : Nat) (tasks : List Task) : Prop :=
  ∀ i < numLoadIndices, tally (currEntry c windowStart) tasks i < 256 ∧ tally (prevEntry c windowStart) tasks i < 256

/-- When the only task at the top index goes, the search finds the next one: no other index is
above `999 - top`. -/
def Found (T : Table) (gone : Option Nat) (n : Nat → Nat) : Prop :=
  gone = some T.top → n T.top = 0 → ∀ i < numLoadIndices, n i ≠ 0 → i + T.top < numLoadIndices

/-- The condition on a step. -/
def StepOk (c : Tunables) (s : State) (e : Event) : Prop :=
  CountsFit c s.wrq.windowStart (nextTasks c s e) ∧
    match e with
    | .update p _ busy sc => TopKept c p s.wrq busy sc
    | .leave p _ _ =>
      Found s.wrq.curr (currEntry c s.wrq.windowStart p) (tally (currEntry c s.wrq.windowStart) (s.tasks.erase p)) ∧
        Found s.wrq.prev (prevEntry c s.wrq.windowStart p) (tally (prevEntry c s.wrq.windowStart) (s.tasks.erase p))
    | _ => True

section
variable {c : Tunables} {s t : State} {e : Event} {p : Task} {wallclock : Nat} {busy : Bool} {sc : Scale}

variable {windowStart : Nat} {f : Task → Option Nat} {l : List Task} {T : Table}

theorem currEntry_none_of_lt (hT : Timed c s.wrq.windowStart s.clock p) (h : s.wrq.windowStart < windowStart) :
    currEntry c windowStart p = none := by
  obtain ⟨k, hk⟩ := hT.lag
  exact if_neg (by omega)

theorem tally_eq_zero (h : ∀ p ∈ l, f p = none) : tally f l = fun _ => 0 := by
  funext i
  rw [tally, countP_eq_zero]
  intro p hp
  simp [h p hp]

theorem tally_congr {g : Task → Option Nat} (h : ∀ p ∈ l, f p = g p) : tally f l = tally g l := by
  funext i
  refine countP_congr fun p hp => ?_
  simp [h p hp]

/-- A rollover empties the current table, and what it held is the previous one. -/
theorem exact_roll (hI : Inv c s) (hP : TopTasksExact c s) :
    TopTasksExact c ⟨updateWindowStart c wallclock s.wrq, wallclock, s.tasks⟩ := by
  have hpos := c.window_pos
  by_cases hlt : wallclock - s.wrq.windowStart < c.window
  · have hsame : updateWindowStart c wallclock s.wrq = s.wrq := by rw [updateWindowStart, if_pos hlt]
    rw [TopTasksExact, hsame]
    exact hP
  · have hone : 1 ≤ (wallclock - s.wrq.windowStart) / c.window := by
      rw [Nat.le_div_iff_mul_le hpos]
      omega
    have hws := updateWindowStart_windowStart c wallclock s.wrq
    have hmul : 1 * c.window ≤ (wallclock - s.wrq.windowStart) / c.window * c.window := Nat.mul_le_mul_right _ hone
    constructor
    · rw [tally_eq_zero (fun p hp => currEntry_none_of_lt (hI.timed p hp) (by rw [hws]; omega))]
      rw [updateWindowStart, if_neg hlt, rolloverTopTasks_curr]
      exact exact_cleared
    · by_cases hfull : 1 < (wallclock - s.wrq.windowStart) / c.window
      · have hnone : ∀ p ∈ s.tasks, prevEntry c (updateWindowStart c wallclock s.wrq).windowStart p = none := by
          intro p hp
          obtain ⟨k, hk⟩ := (hI.timed p hp).lag
          have : 2 * c.window ≤ (wallclock - s.wrq.windowStart) / c.window * c.window := Nat.mul_le_mul_right _ hfull
          rw [hws, prevEntry, if_neg (by omega), if_neg (by omega)]
        rw [tally_eq_zero hnone]
        rw [updateWindowStart, if_neg hlt, rolloverTopTasks_prev]
        simp only [hfull, decide_true, if_true]
        exact exact_cleared
      · have hnr : (wallclock - s.wrq.windowStart) / c.window = 1 := by omega
        rw [hnr, Nat.one_mul] at hws
        have hsame : ∀ p ∈ s.tasks, prevEntry c (updateWindowStart c wallclock s.wrq).windowStart p =
            currEntry c s.wrq.windowStart p := by
          intro p hp
          obtain ⟨k, hk⟩ := (hI.timed p hp).lag
          rw [hws, prevEntry, if_neg (by omega), currEntry]
          simp
        rw [tally_congr hsame]
        rw [updateWindowStart, if_neg hlt, rolloverTopTasks_prev]
        simp only [hfull, decide_false, Bool.false_eq_true, if_false]
        exact hP.1

theorem countsFit_of_exact (hP : TopTasksExact c s) : CountsFit c s.wrq.windowStart s.tasks :=
  fun i hi => ⟨hP.1.fits i hi, hP.2.fits i hi⟩

theorem countsFit_cons : CountsFit c windowStart (p :: l) ↔
    Room (tally (currEntry c windowStart) l) (currEntry c windowStart p) ∧
      Room (tally (prevEntry c windowStart) l) (prevEntry c windowStart p) := by
  unfold CountsFit Room
  rw [tally_cons, tally_cons]
  exact ⟨fun h => ⟨fun i hi => (h i hi).1, fun i hi => (h i hi).2⟩, fun h i hi => ⟨h.1 i hi, h.2 i hi⟩⟩

/-- The tables with the entries of one task apart. -/
theorem TopTasksExact.split (hP : TopTasksExact c s) (hp : p ∈ s.tasks) :
    Exact s.wrq.curr (plus (tally (currEntry c s.wrq.windowStart) (s.tasks.erase p)) (currEntry c s.wrq.windowStart p)) ∧
      Exact s.wrq.prev
        (plus (tally (prevEntry c s.wrq.windowStart) (s.tasks.erase p)) (prevEntry c s.wrq.windowStart p)) := by
  rw [← tally_erase _ hp, ← tally_erase _ hp]
  exact hP

theorem exact_update (hI : Inv c s) (hP : TopTasksExact c s) (hclock : s.clock ≤ wallclock) (hp : p ∈ s.tasks) :
    TopTasksExact c ⟨(updateTaskRavg c p s.wrq wallclock busy sc).2, wallclock,
        (updateTaskRavg c p s.wrq wallclock busy sc).1 :: s.tasks.erase p⟩ ↔
      StepOk c s (.update p wallclock busy sc) := by
  have hT := hI.timed p hp
  have hws := hI.clock
  obtain ⟨hc, hpv⟩ := hP.split hp
  unfold StepOk TopTasksExact
  simp only [nextTasks, updateTaskRavg_windowStart, tally_cons, countsFit_cons]
  by_cases hmark : p.markStart = wallclock
  · have hsame : updateTaskRavg c p s.wrq wallclock busy sc = (p, s.wrq) := by rw [updateTaskRavg, if_pos hmark]
    rw [hsame]
    refine ⟨fun h => ⟨⟨h.1.room, h.2.room⟩, fun hlt => ?_⟩, fun _ => ⟨hc, hpv⟩⟩
    omega
  · exact (updateTaskRavg_exact hT hmark hc hpv).trans and_assoc.symm

/-- One table when a load leaves it. -/
theorem Exact.subtractLoad {n : Nat → Nat} {granule load : Nat} (h : Exact T (plus n (entry granule load))) :
    Exact (if load ≠ 0 then T.subtract (loadToIndex granule load) else T) n ↔ Found T (entry granule load) n := by
  unfold entry Found at *
  by_cases hload : load = 0
  · rw [if_pos hload, plus_none] at h
    simp [hload, h]
  · rw [if_neg hload] at h
    rw [if_pos hload, if_neg hload, h.subtract (loadToIndex_lt _ _), Option.some.injEq]
    refine forall_congr' fun htop => ?_
    rw [htop]

theorem subtraction_curr {granule : Nat} {w : Wrq} : (migrateTopTasksSubtraction granule p w).curr =
    if p.currWindow ≠ 0 then w.curr.subtract (loadToIndex granule p.currWindow) else w.curr := by
  unfold migrateTopTasksSubtraction
  split <;> split <;> simp

theorem subtraction_prev {granule : Nat} {w : Wrq} : (migrateTopTasksSubtraction granule p w).prev =
    if p.prevWindow ≠ 0 then w.prev.subtract (loadToIndex granule p.prevWindow) else w.prev := by
  unfold migrateTopTasksSubtraction
  split <;> split <;> simp

theorem addition_curr {granule : Nat} {w : Wrq} : (migrateTopTasksAddition granule p w).curr =
    if p.currWindow ≠ 0 then w.curr.add (loadToIndex granule p.currWindow) else w.curr := by
  unfold migrateTopTasksAddition
  split <;> split <;> simp

theorem addition_prev {granule : Nat} {w : Wrq} : (migrateTopTasksAddition granule p w).prev =
    if p.prevWindow ≠ 0 then w.prev.add (loadToIndex granule p.prevWindow) else w.prev := by
  unfold migrateTopTasksAddition
  split <;> split <;> simp

theorem Found.congr {T' : Table} {gone : Option Nat} {n : Nat → Nat} (h : T'.top = T.top) :
    Found T' gone n ↔ Found T gone n := by
  unfold Found
  rw [h]

theorem exact_leave (hI : Inv c s) (hP : TopTasksExact c s) (hclock : s.clock ≤ wallclock) (hp : p ∈ s.tasks) :
    TopTasksExact c ⟨nextWrq c s (.leave p wallclock sc), wallclock, s.tasks.erase p⟩ ↔
      StepOk c s (.leave p wallclock sc) := by
  have hT := hI.timed p hp
  obtain ⟨hc, hpv⟩ := hP.split hp
  obtain ⟨hc', hpv', hec, hep⟩ := updateTaskRavg_sync wallclock sc hT hc hpv
  obtain ⟨hws, -, -⟩ := hT.synced hclock (hI.clock.trans hclock) false sc
  have hfit : CountsFit c s.wrq.windowStart (s.tasks.erase p) := by
    intro i hi
    have h₁ := hc.fits i hi
    have h₂ := hpv.fits i hi
    unfold plus at h₁ h₂
    omega
  rw [currEntry_synced hws] at hec
  rw [prevEntry_synced hws] at hep
  rw [← hec] at hc'
  rw [← hep] at hpv'
  have hctop : (updateTaskRavg c p s.wrq wallclock false sc).2.curr.top = s.wrq.curr.top := by
    rw [← hec] at hc
    exact hc'.top.unique hc.top
  have hptop : (updateTaskRavg c p s.wrq wallclock false sc).2.prev.top = s.wrq.prev.top := by
    rw [← hep] at hpv
    exact hpv'.top.unique hpv.top
  have hwsEq : (nextWrq c s (.leave p wallclock sc)).windowStart = s.wrq.windowStart :=
    migrateTopTasksSubtraction_windowStart.trans updateTaskRavg_windowStart
  unfold TopTasksExact StepOk
  rw [hwsEq]
  dsimp only [nextWrq, nextTasks]
  rw [subtraction_curr, subtraction_prev, hc'.subtractLoad, hpv'.subtractLoad, Found.congr hctop, Found.congr hptop,
    hec, hep]
  exact (and_iff_right hfit).symm

theorem exact_join (hP : TopTasksExact c s) (hT : Timed c s.wrq.windowStart wallclock p)
    (hws : s.wrq.windowStart ≤ wallclock) :
    TopTasksExact c ⟨nextWrq c s (.join p wallclock sc), wallclock, nextTasks c s (.join p wallclock sc)⟩ ↔
      StepOk c s (.join p wallclock sc) := by
  obtain ⟨hc, hpv, -, -⟩ := updateTaskRavg_sync wallclock sc hT hP.1 hP.2
  obtain ⟨hws', -, -⟩ := hT.synced le_rfl hws false sc
  have hwsEq : (nextWrq c s (.join p wallclock sc)).windowStart = s.wrq.windowStart :=
    migrateTopTasksAddition_windowStart.trans updateTaskRavg_windowStart
  unfold TopTasksExact StepOk
  rw [hwsEq]
  dsimp only [nextWrq, nextTasks]
  rw [countsFit_cons, tally_cons, tally_cons, currEntry_synced hws', prevEntry_synced hws', addition_curr, addition_prev,
    and_true]
  exact ⟨fun h => ⟨h.1.room, h.2.room⟩, fun h => ⟨hc.addLoad h.1, hpv.addLoad h.2⟩⟩

theorem exact_step (h : Step c s e t) (hI : Inv c s) (hP : TopTasksExact c s) : TopTasksExact c t ↔ StepOk c s e := by
  obtain ⟨hclock, hen⟩ := h
  cases e with
  | roll wallclock => exact iff_of_true (exact_roll hI hP) ⟨countsFit_of_exact hP, trivial⟩
  | update p wallclock busy sc => exact exact_update hI hP hclock hen.1
  | leave p wallclock sc => exact exact_leave hI hP hclock hen.1
  | join p wallclock sc => exact exact_join hP hen.1 (hI.clock.trans hclock)

end

theorem inv_initial (c : Tunables) (windowStart : Nat) : Inv c (initial windowStart) :=
  ⟨le_rfl, nofun⟩

theorem exact_initial (c : Tunables) (windowStart : Nat) : TopTasksExact c (initial windowStart) :=
  ⟨exact_cleared, exact_cleared⟩

/-- Along a run from an empty runqueue the tables are exact in every state exactly when every step
meets the condition in the state before it. -/
theorem topTasks_exact_iff (c : Tunables) (windowStart : Nat) {run : List (Event × State)}
    (hrun : Path (Step c) (initial windowStart) run) :
    (∀ s ∈ initial windowStart :: run.map snd, TopTasksExact c s) ↔
      Steps (StepOk c) (initial windowStart) run := by
  have hI : ∀ s e t, Step c s e t → Inv c s → TopTasksExact c s → TopTasksExact c t → Inv c t :=
    fun _ _ _ h hI _ _ => hI.step h
  have hstep : ∀ s e t, Step c s e t → Inv c s → TopTasksExact c s → (TopTasksExact c t ↔ StepOk c s e) :=
    fun _ _ _ h hI hP => exact_step h hI hP
  exact hrun.always_iff_steps hI hstep (inv_initial c windowStart) (exact_initial c windowStart)

/-! ### Two tasks of which the larger one leaves -/

def loadsOfOne : Tunables := ⟨1000, 1, by decide⟩

def unscaled : Scale := ⟨1024, none⟩

/-- A task that was last marked at 950 and has the load `a`. -/
def loaded (a : Nat) : Task := ⟨950, 0, a, 0⟩

def after (s : State) (e : Event) : State := ⟨nextWrq loadsOfOne s e, e.wallclock, nextTasks loadsOfOne s e⟩

def cameOne (a : Nat) : State := after (initial 0) (.join (loaded a) 950 unscaled)

def cameTwo (a b : Nat) : State := after (cameOne a) (.join (loaded b) 950 unscaled)

/-- Tasks with the loads `a` and `b` come, and the first one goes. -/
def firstLeaves (a b : Nat) : List (Event × State) :=
  [(.join (loaded a) 950 unscaled, cameOne a), (.join (loaded b) 950 unscaled, cameTwo a b),
    (.leave (loaded a) 960 unscaled, after (cameTwo a b) (.leave (loaded a) 960 unscaled))]

theorem cameTwo_tasks (a b : Nat) : (cameTwo a b).tasks = [loaded b, loaded a] := by
  simp [cameTwo, cameOne, after, nextTasks, initial, updateTaskRavg, loaded]

theorem cameTwo_windowStart (a b : Nat) : (cameTwo a b).wrq.windowStart = 0 :=
  (migrateTopTasksAddition_windowStart.trans updateTaskRavg_windowStart).trans
    (migrateTopTasksAddition_windowStart.trans updateTaskRavg_windowStart)

theorem firstLeaves_path (a b : Nat) : Path (Step loadsOfOne) (initial 0) (firstLeaves a b) := by
  have htimed : ∀ load, Timed loadsOfOne 0 950 (loaded load) := by
    intro load
    exact ⟨⟨0, rfl⟩, Nat.zero_le _, (by decide : 950 < 0 + 1000), le_rfl, nofun⟩
  have hone : (cameOne a).wrq.windowStart = 0 := migrateTopTasksAddition_windowStart.trans updateTaskRavg_windowStart
  have htwo := cameTwo_windowStart a b
  refine ⟨.mk (Nat.zero_le _) ⟨htimed a, by decide⟩, .mk le_rfl ⟨?_, ?_⟩, .mk (by decide : 950 ≤ 960) ⟨?_, ?_⟩, trivial⟩
  · rw [hone]
    exact htimed b
  · rw [hone]
    decide
  · rw [cameTwo_tasks]
    simp
  · rw [htwo]
    decide

/-- With the loads 300 and 200 the search for the next top finds 200. -/
theorem topTasks_exact_small : Path (Step loadsOfOne) (initial 0) (firstLeaves 300 200) ∧
    ∀ s ∈ initial 0 :: (firstLeaves 300 200).map snd, TopTasksExact loadsOfOne s := by
  have hfew : ∀ windowStart l, length l ≤ 2 → CountsFit loadsOfOne windowStart l := by
    intro windowStart l hl i _
    have hle : ∀ f, tally f l i ≤ 2 := fun f => countP_le_length.trans hl
    exact ⟨lt_of_le_of_lt (hle _) (by decide), lt_of_le_of_lt (hle _) (by decide)⟩
  refine ⟨firstLeaves_path 300 200, (topTasks_exact_iff loadsOfOne 0 (firstLeaves_path 300 200)).mpr
    ⟨⟨hfew _ _ (by decide), trivial⟩, ⟨hfew _ _ (by decide), trivial⟩, ⟨hfew _ _ (by decide), ?_, ?_⟩, trivial⟩⟩
  · rw [cameTwo_windowStart]
    intro _ _ i hi hn
    have hall : ∀ i < numLoadIndices, tally (currEntry loadsOfOne 0) ((cameTwo 300 200).tasks.erase (loaded 300)) i ≠ 0 →
        i + 300 < numLoadIndices := by decide +kernel
    exact hall i hi hn
  · rw [cameTwo_windowStart]
    intro h
    cases h

/-- With the loads 900 and 800 it starts behind the bit of 800 and reports an empty table. -/
theorem topTasks_top_lost : ∃ run, Path (Step loadsOfOne) (initial 0) run ∧ ∃ s ∈ run.map snd,
    s.wrq.curr.count 800 = 1 ∧ s.wrq.curr.bits (numLoadIndices - 1 - 800) = true ∧ s.wrq.currTop = 0 ∧
      ¬ TopTasksExact loadsOfOne s := by
  refine ⟨firstLeaves 900 800, firstLeaves_path 900 800, after (cameTwo 900 800) (.leave (loaded 900) 960 unscaled),
    by simp [firstLeaves], ?_⟩
  have hcount : (after (cameTwo 900 800) (.leave (loaded 900) 960 unscaled)).wrq.curr.count 800 = 1 := by decide +kernel
  have hbit : (after (cameTwo 900 800) (.leave (loaded 900) 960 unscaled)).wrq.curr.bits (numLoadIndices - 1 - 800) =
      true := by decide +kernel
  have htop : (after (cameTwo 900 800) (.leave (loaded 900) 960 unscaled)).wrq.currTop = 0 := by decide +kernel
  refine ⟨hcount, hbit, htop, fun hexact => ?_⟩
  have hused := hexact.1.count 800 (by decide)
  have hle : 800 ≤ (after (cameTwo 900 800) (.leave (loaded 900) 960 unscaled)).wrq.currTop :=
    hexact.1.top.1 800 (by decide) (by rw [← hused, hcount]; decide)
  exact absurd hle (by decide)

end Sm8850.Walt
