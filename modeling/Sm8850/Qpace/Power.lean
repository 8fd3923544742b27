import Sm8850.Lib.Path
import Sm8850.Lib.Sums

/-! The references that keep the engine awake (qpace.c): one for each ring that holds items, and one for
each call of `get_qpace`. -/
namespace Sm8850.Qpace
open Lts Finset Option

/-- `item_count` of a transfer ring, and its entry of `rings_inited_since_activation`. -/
structure Ring where
  itemCount : Nat
  inited : Bool

open Ring

/-- `active_rings`, whether `pm_stay_awake` is in force, the rings, and the calls of `get_qpace` that are
not put yet. -/
structure State (ι : Type) where
  activeRings : Int
  awake : Bool
  ring : ι → Ring
  gets : Nat

open State

inductive Act (ι : Type) where
  | get
  | put
  | queue (r : ι)
  | consumeEr (r : ι) (events : Nat) (consume : Bool)

variable {ι : Type} {s t : State ι} {r : ι} {a : Act ι} {x : Ring} {k : Int}

/-- `_get_qpace`. -/
def getQpace (s : State ι) : State ι :=
  { s with
    awake := if s.activeRings = 0 then true else s.awake
    activeRings := s.activeRings + 1 }

/-- `_put_qpace`. -/
def putQpace (s : State ι) : State ι :=
  if s.activeRings - 1 = 0 then
    { s with activeRings := 0, awake := false, ring := fun r => { s.ring r with inited := false } }
  else { s with activeRings := s.activeRings - 1 }

def start : State ι := ⟨0, false, fun _ => ⟨0, false⟩, 0⟩

/-- The condition for a step: no call consumes the events of a ring without items. -/
def HasItems (s : State ι) : Act ι → Prop
  | .consumeEr r _ true => (s.ring r).itemCount ≠ 0
  | _ => True

/-- What a ring counts for. -/
def Ring.holds (x : Ring) : Int := if x.itemCount = 0 then 0 else 1

/-- `k` references are held. -/
structure Held (s : State ι) (k : Int) : Prop where
  active : s.activeRings = k
  awake : s.awake = true ↔ k ≠ 0

theorem Held.get (h : Held s k) (hk : 0 ≤ k) : Held (getQpace s) (k + 1) := by
  refine ⟨by simp [getQpace, h.active], ?_⟩
  have hpos : k + 1 ≠ 0 := by omega
  by_cases hz : k = 0 <;> simp_all [getQpace, h.active, h.awake]

theorem putQpace_activeRings : (putQpace s).activeRings = s.activeRings - 1 := by
  unfold putQpace
  split_ifs with hz
  · exact hz.symm
  · rfl

theorem putQpace_itemCount : ((putQpace s).ring r).itemCount = (s.ring r).itemCount := by
  unfold putQpace
  split_ifs <;> rfl

theorem putQpace_gets : (putQpace s).gets = s.gets := by
  unfold putQpace
  split_ifs <;> rfl

theorem Held.put (h : Held s (k + 1)) (hk : 0 ≤ k) : Held (putQpace s) k := by
  refine ⟨by rw [putQpace_activeRings, h.active, add_sub_cancel_right], ?_⟩
  unfold putQpace
  rw [h.active, add_sub_cancel_right]
  split_ifs with hz
  · simp [hz]
  · exact h.awake.trans (iff_of_true (by omega) hz)

variable [Fintype ι]

/-- The number of rings with items and of outstanding calls. -/
def State.users (s : State ι) : Int := (∑ r, (s.ring r).holds) + s.gets

/-- The references are those of the users, so that the engine is awake exactly while there is one, and a
ring that holds items will not be initialised again. -/
structure Exact (s : State ι) : Prop where
  held : Held s s.users
  inited : ∀ r, (s.ring r).itemCount ≠ 0 → (s.ring r).inited = true

theorem exact_start : Exact (start : State ι) :=
  ⟨⟨by simp [users, start, holds], by simp [users, start, holds]⟩, fun _ h => absurd rfl h⟩

theorem Ring.holds_nonneg (x : Ring) : 0 ≤ x.holds := by
  unfold holds
  split_ifs <;> omega

theorem holds_le_users : (s.ring r).holds ≤ s.users := by
  have hle := single_le_sum (fun q _ => (s.ring q).holds_nonneg) (mem_univ r)
  unfold users
  omega

theorem users_nonneg : 0 ≤ s.users :=
  add_nonneg (sum_nonneg fun r _ => (s.ring r).holds_nonneg) (Int.natCast_nonneg _)

theorem users_putQpace : (putQpace s).users = s.users := by
  simp [users, holds, putQpace_itemCount, putQpace_gets]

/-- Where one reference too many is held, giving it back leaves the right number. -/
theorem exact_putQpace (h : Held s (s.users + 1)) (hinit : ∀ r, (s.ring r).itemCount ≠ 0 → (s.ring r).inited) :
    Exact (putQpace s) := by
  refine ⟨users_putQpace (s := s) ▸ h.put users_nonneg, fun r hr => ?_⟩
  rw [putQpace_itemCount] at hr
  have hpos := holds_le_users (s := s) (r := r)
  rw [holds, if_neg hr] at hpos
  rw [putQpace, if_neg (by rw [h.active]; omega)]
  exact hinit r hr

variable [DecidableEq ι]

def State.setRing (s : State ι) (r : ι) (x : Ring) : State ι := { s with ring := Function.update s.ring r x }

/-- `get_ring`: the first item brings the ring in use, initialised if it was not since the activation. -/
def getRing (s : State ι) (r : ι) : State ι :=
  if (s.ring r).itemCount = 0 then (getQpace s).setRing r ⟨1, true⟩
  else s.setRing r { s.ring r with itemCount := (s.ring r).itemCount + 1 }

/-- `put_ring`. -/
def putRing (s : State ι) (r : ι) (consumed : Nat) : State ι :=
  if (s.ring r).itemCount - consumed = 0 then putQpace (s.setRing r ⟨0, (s.ring r).inited⟩)
  else s.setRing r { s.ring r with itemCount := (s.ring r).itemCount - consumed }

/-- There is at most one event for each item of a ring. -/
def State.next (s : State ι) : Act ι → Option (State ι)
  | .get => some { getQpace s with gets := s.gets + 1 }
  | .put => if s.gets = 0 then none else some { putQpace s with gets := s.gets - 1 }
  | .queue r => some (getRing s r)
  | .consumeEr r events consume => if events ≤ (s.ring r).itemCount then
      some (if consume then putRing s r events else s) else none

omit [Fintype ι] in
theorem inited_setRing (h : ∀ r, (s.ring r).itemCount ≠ 0 → (s.ring r).inited)
    (hx : x.itemCount ≠ 0 → x.inited) (r q : ι) (hq : ((s.setRing r x).ring q).itemCount ≠ 0) :
    ((s.setRing r x).ring q).inited := by
  rcases eq_or_ne q r with rfl | hne <;> simp_all [setRing]

theorem users_setRing : (s.setRing r x).users = s.users - (s.ring r).holds + x.holds := by
  have hsum := Sums.sum_update holds s.ring r x
  simp only [users, setRing, hsum]
  omega

/-- A ring changes without a change of the references. -/
theorem Exact.setRing (h : Exact s) (hx : x.holds = (s.ring r).holds) (hinit : x.itemCount ≠ 0 → x.inited) :
    Exact (s.setRing r x) := by
  have husers : (s.setRing r x).users = s.users := by rw [users_setRing, hx, sub_add_cancel]
  exact ⟨husers ▸ ⟨h.held.active, h.held.awake⟩, inited_setRing h.inited hinit r⟩

theorem exact_putRing {events : Nat} (h : Exact s) (hn : events ≤ (s.ring r).itemCount) :
    Exact (putRing s r events) ↔ (s.ring r).itemCount ≠ 0 := by
  unfold putRing
  split_ifs with hz
  · have hinit := inited_setRing (x := ⟨0, (s.ring r).inited⟩) h.inited (fun h0 => absurd rfl h0) r
    have husers : (s.setRing r ⟨0, (s.ring r).inited⟩).users = s.users - (s.ring r).holds :=
      users_setRing.trans (add_zero _)
    unfold holds at husers
    split_ifs at husers with hitem
    · -- the ring had no reference, and one is given back all the same
      refine iff_of_false (fun hx => ?_) (not_not.mpr hitem)
      have hactive := hx.held.active
      rw [users_putQpace, putQpace_activeRings, husers, sub_zero, ← h.held.active] at hactive
      change s.activeRings - 1 = s.activeRings at hactive
      omega
    · refine iff_of_true (exact_putQpace ?_ hinit) hitem
      rw [husers, sub_add_cancel]
      exact ⟨h.held.active, h.held.awake⟩
  · refine iff_of_true (h.setRing ?_ fun _ => h.inited r (by omega)) (by omega)
    rw [holds, holds, if_neg hz, if_neg (by omega)]

theorem exact_step (ht : s.next a = some t) (h : Exact s) : Exact t ↔ HasItems s a := by
  cases a with
  | get =>
    obtain rfl := some.inj ht
    have husers : ({ getQpace s with gets := s.gets + 1 } : State ι).users = s.users + 1 := by
      simp [users, getQpace, add_assoc]
    have hheld := h.held.get users_nonneg
    exact iff_of_true ⟨husers ▸ ⟨hheld.active, hheld.awake⟩, h.inited⟩ trivial
  | put =>
    obtain ⟨hg, ht⟩ := ite_none_left_eq_some.mp ht
    obtain rfl := some.inj ht
    -- the call stops counting before the reference is given back
    have husers : ({ s with gets := s.gets - 1 } : State ι).users + 1 = s.users := by
      simp only [users]
      omega
    have hput := exact_putQpace (s := { s with gets := s.gets - 1 })
      (husers ▸ ⟨h.held.active, h.held.awake⟩) h.inited
    refine iff_of_true ?_ trivial
    have hcomm : ({ putQpace s with gets := s.gets - 1 } : State ι) = putQpace { s with gets := s.gets - 1 } := by
      simp only [putQpace]
      split_ifs <;> rfl
    rw [hcomm]
    exact hput
  | queue r =>
    obtain rfl := some.inj ht
    refine iff_of_true ?_ trivial
    by_cases hz : (s.ring r).itemCount = 0
    · rw [getRing, if_pos hz]
      have hheld := h.held.get users_nonneg
      have husers : ((getQpace s).setRing r ⟨1, true⟩).users = s.users + 1 := by
        rw [users_setRing]
        simp [users, getQpace, holds, hz]
      exact ⟨husers ▸ ⟨hheld.active, hheld.awake⟩, inited_setRing h.inited (fun _ => rfl) r⟩
    · rw [getRing, if_neg hz]
      refine h.setRing ?_ fun _ => h.inited r hz
      rw [holds, holds, if_neg hz, if_neg (Nat.succ_ne_zero _)]
  | consumeEr r events consume =>
    obtain ⟨hn, ht⟩ := ite_none_right_eq_some.mp ht
    obtain rfl := some.inj ht
    cases consume with
    | true => exact exact_putRing h hn
    | false => exact iff_of_true h trivial

/-- The references are exact along a run exactly if no call of it consumes the events of an empty ring. -/
theorem references_exact_iff {run : List (Act ι × State ι)} (hrun : Path (fun s a t => s.next a = some t) start run) :
    (∀ s ∈ start :: run.map Prod.snd, Exact s) ↔ Steps HasItems start run := by
  apply Path.always_iff_steps (I := fun _ => True) _ _ hrun trivial exact_start
  · intro s a t _ _ _ _
    trivial
  · intro s a t ht _ h
    exact exact_step ht h

theorem references_exact_item : Exact (putRing (getRing (start : State (Fin 2)) 0) 0 1) := by
  have hrun : Path (fun (s : State (Fin 2)) a t => s.next a = some t) start
      [(.queue 0, getRing start 0), (.consumeEr 0 1 true, putRing (getRing start 0) 0 1)] := ⟨rfl, rfl, trivial⟩
  exact (references_exact_iff hrun).mpr ⟨trivial, by simp [HasItems, getRing, State.setRing, start], trivial⟩ _ (by simp)

/-- A call on an empty ring gives back a reference that nobody took. -/
theorem empty_ring_released :
    ((start : State (Fin 2)).next (.consumeEr 0 0 true)).map (fun s => (s.activeRings, s.users)) = some (-1, 0) := by
  decide

end Sm8850.Qpace
