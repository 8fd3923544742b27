import Sm8850.Gunyah.Rollback

/-! The IRQs that populating obtains and unpopulating puts. -/
namespace Sm8850.Gunyah
open List Ledger Prod Set Entry

section Pure

variable (env : Env)

/-- What the variable `irq` of `gh_rm_unpopulate_hyp_res` holds after an entry: the IRQ that the entry
reports, or that of an entry before it. The entries `all` are populated and `seen` have been reset. -/
def reported (all seen : List Entry) (irq : Int) (e : Entry) : Int :=
  match e.type with
  | .mqTx | .mqRx | .dbRx => getIrq env e
  | .dbTx => 0
  | .vcpu =>
    if env.proxyCb && env.supportsProxy then
      match all.find? (fun y => decide (y.recorded env) && decide (y.capId = e.capId)) with
      | none => irq
      | some y =>
        -- a vCPU that was reset before reports `U32_MAX`
        if seen.any (fun z => decide (z.type = .vcpu) && decide (z.capId = e.capId)) then -1 else getIrq env y
    else irq
  | .vpmGrp =>
    if env.proxyCb && env.supportsProxy && !seen.any (fun z => decide (z.type = .vpmGrp)) then getIrq env e
    else irq
  | .virtioMmio | .watchdog | .unknown => irq

end Pure

section Vcpus

variable {env : Env}

theorem find_vcpuRelease (cap c : CapId) (l : List (CapId × Int)) :
    ((vcpuRelease cap l).find? (fun v => decide (v.1 = c))).map snd =
      if c = cap then (l.find? (fun v => decide (v.1 = c))).map (fun _ => -1)
      else (l.find? (fun v => decide (v.1 = c))).map snd := by
  induction l with
  | nil => simp [vcpuRelease]
  | cons v l ih =>
    by_cases hv : v.1 = cap
    · by_cases hc : c = cap
      · simp [vcpuRelease, hv, hc]
      · have hvc : ¬ cap = c := Ne.symm hc
        simp [vcpuRelease, hv, hc, hvc]
    · by_cases hvc : v.1 = c
      · have hc : ¬ c = cap := fun h => hv (hvc.trans h)
        simp [vcpuRelease, hvc, hc]
      · simp only [vcpuRelease, hv, if_false, find?_cons, hvc, decide_false]
        exact ih

end Vcpus

section Loop

variable {env : Env} {all seen rest entries : List Entry} {x e : Entry} {t : Tables} {s : St} {i : Nat} {irq ret : Int}

/-- The tables in which unpopulating has reset `seen` and `rest` is still to come. -/
structure Emptying (env : Env) (all seen rest : List Entry) (t : Tables) : Prop where
  mq : ∀ y ∈ rest, isValidDblMsgq env y = true → ∀ label dir, y.slot = some (.mq label dir) →
    ∃ cap, t.row label dir = some (cap, getIrq env y)
  db : ∀ y ∈ rest, isValidDblMsgq env y = true → y.type = .dbRx → t.dblIrq y.label = getIrq env y
  dbIrq : ∀ y ∈ rest, isValidDblMsgq env y = true → y.type = .dbRx → getIrq env y ≠ 0
  vpm : (env.proxyCb && env.supportsProxy) = true → t.vpmGrp =
    if seen.any (fun z => decide (z.type = .vpmGrp)) then none
    else (rest.find? (fun y => decide (y.type = .vpmGrp))).map (getIrq env)
  vcpu : (env.proxyCb && env.supportsProxy) = true → ∀ c,
    (t.vcpus.find? (fun v => decide (v.1 = c))).map snd =
      (all.find? (fun y => decide (y.recorded env) && decide (y.capId = c))).map (fun y =>
        if seen.any (fun z => decide (z.type = .vcpu) && decide (z.capId = c)) then -1 else getIrq env y)
  sound : ∀ y ∈ rest, isValidDblMsgq env y = true → Sound env y
  apart : rest.Pairwise (fun y x => ¬ Clash env y x)
  rxApart : rest.Pairwise (RxApart env)

section
variable (h : Emptying env all seen (x :: rest) t) (hv : isValidDblMsgq env x = true)
include h hv

theorem Emptying.not_resetFails : resetFails t x = false := by
  cases ht : x.type with
  | mqTx =>
    obtain ⟨cap, hrow⟩ := h.mq x (by simp) hv x.label .tx (by simp [slot, ht])
    simp [resetFails, ht, row_isSome, hrow]
  | mqRx =>
    obtain ⟨cap, hrow⟩ := h.mq x (by simp) hv x.label .rx (by simp [slot, ht])
    simp [resetFails, ht, row_isSome, hrow]
  | dbRx =>
    have hirq := h.db x (by simp) hv ht
    have hne := h.dbIrq x (by simp) hv ht
    simp [resetFails, ht, hirq, hne]
  | _ => simp [resetFails, ht]

theorem Emptying.next (h0 : 0 ≤ ret) : Emptying env all (seen ++ [x]) rest (resetEntry env false t x irq ret).1 := by
  obtain ⟨happ, hrest⟩ := pairwise_cons.mp h.apart
  obtain ⟨hrx, hrxrest⟩ := pairwise_cons.mp h.rxApart
  have hs := h.sound x (by simp) hv
  have hok := h.not_resetFails hv
  rw [((resetEntry_cases false t irq hs h0).2 hok).2]
  constructor
  · intro y hy hvy label dir hslot
    have hne : x.slot ≠ some (.mq label dir) := by
      intro hxs
      exact happ y hy ⟨hv, hvy, isMq_of_slot hslot, hxs.trans hslot.symm⟩
    rw [reset_row, if_neg hne]
    exact h.mq y (.tail _ hy) hvy label dir hslot
  · intro y hy hvy hty
    have hne : ¬ (x.type = .dbRx ∧ x.label = y.label) := by
      rintro ⟨htx, hl⟩
      exact hrx y hy ⟨hv, hvy, htx, hty, hl⟩
    rw [reset_dblIrq, if_neg hne]
    exact h.db y (.tail _ hy) hvy hty
  · exact fun y hy => h.dbIrq y (.tail _ hy)
  · intro hc
    have hold := h.vpm hc
    rw [reset_vpmGrp, hc]
    by_cases ht : x.type = .vpmGrp
    · simp [ht]
    · simp only [ht, false_and, if_false, any_append, any_cons, any_nil, decide_false, Bool.or_false]
      rw [hold, find?_cons]
      simp [ht]
  · intro hc c
    have hold := h.vcpu hc c
    rw [reset_vcpus, hc]
    by_cases ht : x.type = .vcpu
    · simp only [ht, true_and, Bool.not_false, Bool.and_self, if_true]
      rw [find_vcpuRelease]
      by_cases hcap : c = x.capId
      · subst hcap
        have hconst : ∀ o : Option (CapId × Int), o.map (fun _ => (-1 : Int)) = (o.map snd).map (fun _ => -1) := by
          intro o
          cases o <;> rfl
        rw [hconst, hold]
        simp [ht, Function.comp_def]
      · rw [if_neg hcap, hold]
        simp [ht, Ne.symm hcap]
    · simp only [ht, false_and, if_false]
      rw [hold]
      simp [ht]
  · exact fun y hy => h.sound y (.tail _ hy)
  · exact hrest
  · exact hrxrest

end

theorem Emptying.skip (h : Emptying env all seen (x :: rest) t) (hv : isValidDblMsgq env x = false) :
    Emptying env all (seen ++ [x]) rest t := by
  have hvpm : x.type ≠ .vpmGrp := by
    intro ht
    simp [isValidDblMsgq, ht] at hv
  have hvcpu : x.type ≠ .vcpu := by
    intro ht
    simp [isValidDblMsgq, ht] at hv
  constructor
  · exact fun y hy => h.mq y (.tail _ hy)
  · exact fun y hy => h.db y (.tail _ hy)
  · exact fun y hy => h.dbIrq y (.tail _ hy)
  · intro hc
    rw [h.vpm hc, find?_cons]
    simp [hvpm]
  · intro hc c
    rw [h.vcpu hc c]
    simp [hvcpu]
  · exact fun y hy => h.sound y (.tail _ hy)
  · exact (pairwise_cons.mp h.apart).2
  · exact (pairwise_cons.mp h.rxApart).2

end Loop

section Populate

variable {env : Env} {entries : List Entry} {t : Tables}

@[simp] theorem allResUnpopulated_log (s : St) : (allResUnpopulated env s).log = s.log := by
  unfold allResUnpopulated
  split <;> rfl

end Populate

end Sm8850.Gunyah
