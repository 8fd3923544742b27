import Sm8850.Qrtr.Flow

/-! Which interleavings leave a sender asleep with nothing outstanding to wake it. -/
namespace Sm8850.Qrtr
open Option Prod Lts State

open Sm8850.Ns (U32 SockaddrQrtr)

variable {s t : State} {a : Action} {i j : Nat} {c : Call} {m : Msg} {key : U64} {e : Nat}
  {flow : Flow}

/-- A packet whose confirmation resets the flow's current round of counting. -/
def Msg.Confirms (m : Msg) (key : U64) (e : Nat) : Prop :=
  m.confirmRx = true ∧ flowKey m.dest = key ∧ m.epoch = some e

def Outstanding (s : State) (i : Nat) (key : U64) (e : Nat) : Prop :=
  ∃ m, (s.pc i = .issued m ∨ s.pc i = .sent m) ∧ m.Confirms key e

/-- Some confirm_rx packet of the round was issued and has not failed. -/
def Live (s : State) (key : U64) (e : Nat) : Prop := ∃ i, Outstanding s i key e

/-- Some confirm_rx packet of the round was lost and the flow does not know: the failure
is about to be recorded, or was recorded under another key. -/
def Unrecorded (s : State) (key : U64) (e : Nat) : Prop :=
  ∃ i m, m.Confirms key e ∧
    (s.pc i = .lost m ∨ (s.pc i = .failed m ∧ flowFailedKey m.dest ≠ flowKey m.dest))

/-- Every sleeping sender waits for a confirm_rx packet that is still outstanding. -/
def NoneStranded (s : State) : Prop :=
  ∀ i c flow, s.pc i = .asleep c → s.flow (flowKey c.dest) = some flow →
    Live s (flowKey c.dest) flow.epoch

/-- The step neither loses the last confirm_rx packet a sleeper waits for, nor puts a
sender to sleep on a round whose confirm_rx packet was lost without trace. -/
def StepOk (s : State) : Action → Prop
  | .check i _ => ∀ c flow, s.pc i = .atFlow c ∨ s.pc i = .woken c →
      s.flow (flowKey c.dest) = some flow → c.timeo = true → mayProceed s.ep flow = false →
      Unrecorded s (flowKey c.dest) flow.epoch → Live s (flowKey c.dest) flow.epoch
  | .xmit i ok => ∀ m flow, ok = false → s.pc i = .issued m →
      s.flow (flowKey m.dest) = some flow → m.Confirms (flowKey m.dest) flow.epoch →
      (∃ j c, s.pc j = .asleep c ∧ flowKey c.dest = flowKey m.dest) →
      ∃ j, j ≠ i ∧ Outstanding s j (flowKey m.dest) flow.epoch
  | _ => True

/-- The places in which a call holds a reference to its flow. -/
def State.At (s : State) (i : Nat) (c : Call) : Prop :=
  s.pc i = .atFlow c ∨ s.pc i = .asleep c ∨ s.pc i = .woken c

/-- The process that takes the step. -/
def Action.proc : Action → Option Nat
  | .call i _ _ | .forward i _ _ | .check i _ | .timeout i _ | .signal i _ | .xmit i _
  | .flowFailed i => some i
  | .resume _ => none

/-- What a step can do. -/
inductive Effect (s : State) : Action → State → Prop where
  | enter {i : Nat} {c : Call} {alloc : Bool} (hpc : s.pc i = .idle) :
      Effect s (.call i c alloc) (txWaitFlow s i c alloc)
  | pass {i : Nat} {dest : SockaddrQrtr} {confirmRx : Bool} (hpc : s.pc i = .idle) :
      Effect s (.forward i dest confirmRx) (s.setPc i (.issued ⟨dest, confirmRx, none⟩))
  | leave {i : Nat} {a : Action} {c : Call} {flow : Flow} {ret : Int} {alloc : Bool}
      (hpc : s.At i c) (hflow : s.flow (flowKey c.dest) = some flow) (hok : StepOk s a)
      (hproc : a.proc = some i) : Effect s a (leaveWait s i c flow ret alloc)
  | sleep {i : Nat} {c : Call} {flow : Flow} {alloc : Bool}
      (hpc : s.pc i = .atFlow c ∨ s.pc i = .woken c)
      (hflow : s.flow (flowKey c.dest) = some flow) (htimeo : c.timeo = true)
      (hwait : mayProceed s.ep flow = false) : Effect s (.check i alloc) (s.setPc i (.asleep c))
  | sent {i : Nat} {m : Msg} (hpc : s.pc i = .issued m) :
      Effect s (.xmit i true) (s.setPc i (.sent m))
  | lost {i : Nat} {m : Msg} (hpc : s.pc i = .issued m) :
      Effect s (.xmit i false) (s.setPc i (if m.confirmRx then .lost m else .failed m))
  | flowFailed {i : Nat} {m : Msg} (hpc : s.pc i = .lost m) :
      Effect s (.flowFailed i) ((txFlowFailed s m.dest).setPc i (.failed m))
  | resume {src : SockaddrQrtr} : Effect s (.resume src) (txResume s src)

theorem waiting_eq_some (h : s.waiting i = some (c, flow)) : s.At i c ∧ s.flow (flowKey c.dest) = some flow := by
  unfold waiting at h
  unfold State.At
  cases hpc : s.pc i with
  | atFlow c' | asleep c' | woken c' =>
    rw [hpc] at h
    obtain ⟨flow', hflow, heq⟩ := map_eq_some_iff.mp h
    obtain ⟨rfl, rfl⟩ := mk.inj heq
    exact ⟨by simp, hflow⟩
  | _ => simp [hpc] at h

theorem check_effect {alloc : Bool} (hpc : s.pc i = .atFlow c ∨ s.pc i = .woken c)
    (hflow : s.flow (flowKey c.dest) = some flow) : Effect s (.check i alloc) (checkWait s i c flow alloc) := by
  have hat : s.At i c := by
    rcases hpc with hpc | hpc
    · exact .inl hpc
    · exact .inr (.inr hpc)
  unfold checkWait
  have huniq : ∀ c' flow', s.pc i = .atFlow c' ∨ s.pc i = .woken c' →
      s.flow (flowKey c'.dest) = some flow' → c' = c ∧ flow' = flow := by
    intro c' flow' hpc' hflow'
    obtain rfl : c' = c := by
      rcases hpc with hpc | hpc <;> rcases hpc' with hpc' | hpc' <;> simp_all
    exact ⟨rfl, some.inj (hflow'.symm.trans hflow)⟩
  by_cases hgo : mayProceed s.ep flow
  · rw [if_pos hgo]
    refine .leave hat hflow ?_ rfl
    intro c' flow' hpc' hflow' _ hwait
    obtain ⟨rfl, rfl⟩ := huniq c' flow' hpc' hflow'
    simp [hgo] at hwait
  · rw [if_neg hgo]
    by_cases ht : c.timeo
    · rw [if_pos ht]
      exact .sleep hpc hflow ht (by simpa using hgo)
    · rw [if_neg ht]
      refine .leave hat hflow ?_ rfl
      intro c' flow' hpc' hflow' ht'
      obtain ⟨rfl, rfl⟩ := huniq c' flow' hpc' hflow'
      exact absurd ht' ht

theorem step_effect (h : Step s a t) : Effect s a t := by
  unfold Step at h
  cases a with
  | call i c alloc =>
    simp only [step] at h
    split at h
    · cases h
      exact .enter ‹_›
    · cases h
  | forward i dest confirmRx =>
    simp only [step] at h
    split at h
    · cases h
      exact .pass ‹_›
    · cases h
  | check i alloc =>
    simp only [step] at h
    split at h
    · cases h
    · rename_i hw hne
      cases h
      obtain ⟨hat, hflow⟩ := waiting_eq_some hw
      rcases hat with hpc | hpc | hpc
      · exact check_effect (.inl hpc) hflow
      · exact absurd hpc (hne _)
      · exact check_effect (.inr hpc) hflow
    · cases h
  | timeout i alloc =>
    simp only [step] at h
    split at h
    · cases h
    · rename_i hw _
      cases h
      obtain ⟨hat, hflow⟩ := waiting_eq_some hw
      exact .leave hat hflow trivial rfl
    · cases h
  | signal i alloc =>
    simp only [step] at h
    split at h
    · rename_i hw
      split at h
      · cases h
        obtain ⟨hat, hflow⟩ := waiting_eq_some hw
        exact .leave hat hflow trivial rfl
      · cases h
    · cases h
  | xmit i ok =>
    simp only [step] at h
    split at h
    · rename_i hpc
      cases ok with
      | true =>
        simp only [if_true] at h
        split at h
        · cases h
          exact .sent hpc
        · cases h
      | false =>
        cases h
        exact .lost hpc
    · cases h
  | flowFailed i =>
    simp only [step] at h
    split at h
    · cases h
      exact .flowFailed ‹_›
    · cases h
  | resume src =>
    cases h
    exact .resume

section
variable {p : Pc} {k : U64}

@[simp] theorem setPc_flow : (s.setPc i p).flow key = s.flow key := rfl

@[simp] theorem setPc_pc : (s.setPc i p).pc j = if j = i then p else s.pc j := by
  simp [setPc, Function.update_apply]

@[simp] theorem setFlow_pc : (s.setFlow key flow).pc = s.pc := rfl

@[simp] theorem setFlow_flow : (s.setFlow key flow).flow k = if k = key then some flow else s.flow k := by
  have hkey : k.toNat = key.toNat ↔ k = key := BitVec.toNat_inj
  simp [setFlow, State.flow, hkey]

theorem live_setFlow : Live (s.setFlow k flow) key e ↔ Live s key e := Iff.rfl

theorem outstanding_setPc (hne : j ≠ i) : Outstanding (s.setPc i p) j key e ↔ Outstanding s j key e := by
  simp [Outstanding, hne]

/-- A process that has no packet outstanding can move without ending anything. -/
theorem Live.setPc (h : Live s key e) (hpc : ¬ Outstanding s i key e) : Live (s.setPc i p) key e := by
  obtain ⟨j, hj⟩ := h
  have hne : j ≠ i := by
    rintro rfl
    exact hpc hj
  exact ⟨j, (outstanding_setPc hne).mpr hj⟩

theorem Unrecorded.setPc (h : Unrecorded s key e)
    (hpc : ∀ m, s.pc i ≠ .lost m ∧ s.pc i ≠ .failed m) : Unrecorded (s.setPc i p) key e := by
  obtain ⟨j, m, hm, hj⟩ := h
  have hne : j ≠ i := by
    rintro rfl
    rcases hj with hj | ⟨hj, _⟩
    · exact (hpc m).1 hj
    · exact (hpc m).2 hj
  exact ⟨j, m, hm, by simpa [hne] using hj⟩

theorem live_of_issued (h : s.pc i = .issued m) (hm : m.Confirms key e) : Live s key e :=
  ⟨i, m, .inl h, hm⟩

end

/-- Processes that hold no packet. -/
def Pc.Bare : Pc → Prop
  | .issued _ | .sent _ | .lost _ | .failed _ => False
  | _ => True

theorem not_outstanding_of_bare (h : (s.pc i).Bare) : ¬ Outstanding s i key e := by
  rintro ⟨m, hm | hm, _⟩ <;> simp [hm, Pc.Bare] at h

theorem not_lost_of_bare (h : (s.pc i).Bare) (m : Msg) : s.pc i ≠ .lost m ∧ s.pc i ≠ .failed m := by
  constructor <;> intro hm <;> simp [hm, Pc.Bare] at h

theorem State.At.bare (h : s.At i c) : (s.pc i).Bare := by
  rcases h with h | h | h <;> simp [h, Pc.Bare]

structure Inv (s : State) : Prop where
  /-- A call in the wait has found its flow. -/
  found : ∀ i c, s.At i c → ∃ flow, s.flow (flowKey c.dest) = some flow
  /-- Past the low watermark the round's confirm_rx packet is outstanding, or lost. -/
  round : ∀ key flow, s.flow key = some flow → txFlowLow ≤ flow.pending →
    flow.txFailed = true ∨ Live s key flow.epoch ∨ Unrecorded s key flow.epoch

theorem inv_init (ep : Bool) : Inv (init ep) where
  found := by
    rintro i c (h | h | h) <;> cases h
  round := by
    intro key flow h
    simp [State.flow, init] at h

/-- A process moves between places where it holds no packet, or issues one; no flow is
touched. -/
theorem inv_setPc (hI : Inv s) {p : Pc} (hbare : (s.pc i).Bare)
    (hat : ∀ c, p = .atFlow c ∨ p = .asleep c ∨ p = .woken c →
      ∃ flow, s.flow (flowKey c.dest) = some flow) : Inv (s.setPc i p) where
  found := by
    intro j c h
    by_cases hj : j = i
    · exact hat c (by simpa [State.At, hj] using h)
    · exact hI.found j c (by simpa [State.At, hj] using h)
  round := by
    intro key flow hflow hlow
    rcases hI.round key flow hflow hlow with h | h | h
    · exact .inl h
    · exact .inr (.inl (h.setPc (not_outstanding_of_bare hbare)))
    · exact .inr (.inr (h.setPc (not_lost_of_bare hbare)))

/-- A flow is replaced by one of the same round that is as well off. -/
theorem inv_setFlow (hI : Inv s) (hround : txFlowLow ≤ flow.pending → flow.txFailed ∨ Live s key flow.epoch ∨
      Unrecorded s key flow.epoch) : Inv (s.setFlow key flow) where
  found := by
    intro i c h
    obtain ⟨flow', h'⟩ := hI.found i c h
    by_cases hk : flowKey c.dest = key
    · exact ⟨flow, by simp [hk]⟩
    · exact ⟨flow', by simp [hk, h']⟩
  round := by
    intro k flow' h hlow
    rw [setFlow_flow] at h
    split at h
    · rename_i hk
      subst hk
      obtain rfl := some.inj h
      exact hround hlow
    · exact hI.round k flow' h hlow

/-- No sender goes to sleep, no round ends and no outstanding packet is lost. -/
theorem NoneStranded.mono (h : NoneStranded s) (hsleep : ∀ j c, t.pc j = .asleep c → s.pc j = .asleep c)
    (hflow : ∀ j c flow', s.pc j = .asleep c → t.flow (flowKey c.dest) = some flow' →
      ∃ flow, s.flow (flowKey c.dest) = some flow ∧ flow.epoch = flow'.epoch)
    (hlive : ∀ key e, Live s key e → Live t key e) : NoneStranded t := by
  intro j c flow' hj hf'
  have hj' := hsleep j c hj
  obtain ⟨flow, hf, hepoch⟩ := hflow j c flow' hj' hf'
  rw [← hepoch]
  exact hlive _ _ (h j c flow hj' hf)

theorem txDecide_spec (ep : Bool) (flow : Flow) (sk : Nat) (ret : Int) (alloc : Bool) :
    (txDecide ep flow sk ret alloc).1.epoch = flow.epoch ∧ (txFlowLow ≤ (txDecide ep flow sk ret alloc).1.pending →
      0 < (txDecide ep flow sk ret alloc).2 ∨ (txFlowLow ≤ flow.pending ∧
        (flow.txFailed → (txDecide ep flow sk ret alloc).1.txFailed))) := by
  unfold txDecide
  by_cases hret : ret < 0
  · simp [hret]
    exact fun h => .inr h
  by_cases hep : ep
  · by_cases hfail : flow.txFailed
    · simp [hret, hep, hfail]
    · by_cases hhigh : ret = 0 ∧ txFlowHigh ≤ flow.pending
      · have hlow : txFlowLow ≤ flow.pending := le_trans (by decide) hhigh.2
        simp only [if_neg hret, hep, if_neg hfail, if_pos hhigh, hlow, true_and, Bool.not_true,
          Bool.false_eq_true, if_false]
        split
        · exact ⟨rfl, fun _ => .inr id⟩
        · split
          · exact ⟨rfl, fun _ => .inr id⟩
          · exact ⟨rfl, fun _ => .inr id⟩
      · simp only [if_neg hret, hep, if_neg hfail, if_neg hhigh, Bool.not_true, Bool.false_eq_true, if_false, true_and]
        intro hlow
        by_cases heq : flow.pending + 1 = txFlowLow
        · simp [heq]
        · exact .inr ⟨by omega, fun h => absurd h hfail⟩
  · simp [hret, hep]
    exact fun h => .inr h

theorem inv_leaveWait (hI : Inv s) (hat : s.At i c)
    (hflow : s.flow (flowKey c.dest) = some flow) (ret : Int) (alloc : Bool) :
    Inv (leaveWait s i c flow ret alloc) := by
  obtain ⟨hepoch, hlow⟩ := txDecide_spec s.ep flow c.sk ret alloc
  unfold leaveWait
  generalize txDecide s.ep flow c.sk ret alloc = r at hepoch hlow
  obtain ⟨flow', r⟩ := r
  dsimp only at hepoch hlow ⊢
  generalize hp : (if r < 0 then Pc.refused r
    else Pc.issued ⟨c.dest, decide (r ≠ 0), some flow'.epoch⟩) = p
  have hmove : Inv (s.setPc i p) := by
    refine inv_setPc hI hat.bare ?_
    rintro c' h
    subst hp
    split at h <;> simp at h
  change Inv ((s.setPc i p).setFlow (flowKey c.dest) flow')
  refine inv_setFlow hmove ?_
  intro h
  rcases hlow h with hr | ⟨hl, hf⟩
  · have hissued : (s.setPc i p).pc i = .issued ⟨c.dest, true, some flow'.epoch⟩ := by
      have h₁ : ¬ r < 0 := by omega
      have h₂ : r ≠ 0 := by omega
      simp [← hp, h₁, h₂]
    exact .inr (.inl (live_of_issued hissued ⟨rfl, rfl, rfl⟩))
  · rcases hI.round _ _ hflow hl with h | h | h
    · exact .inl (hf h)
    · rw [hepoch]
      exact .inr (.inl (h.setPc (not_outstanding_of_bare hat.bare)))
    · rw [hepoch]
      exact .inr (.inr (h.setPc (not_lost_of_bare hat.bare)))

theorem noneStranded_leaveWait (h : NoneStranded s) (hat : s.At i c)
    (hflow : s.flow (flowKey c.dest) = some flow) (ret : Int) (alloc : Bool) :
    NoneStranded (leaveWait s i c flow ret alloc) := by
  obtain ⟨hepoch, _⟩ := txDecide_spec s.ep flow c.sk ret alloc
  unfold leaveWait
  generalize txDecide s.ep flow c.sk ret alloc = r at hepoch
  obtain ⟨flow', r⟩ := r
  dsimp only at hepoch ⊢
  refine h.mono ?_ ?_ ?_
  · intro j c' hj
    by_cases hji : j = i
    · simp only [setPc_pc, hji, if_true] at hj
      split at hj <;> cases hj
    · simpa [hji] using hj
  · intro j c' f hj hf
    rw [setPc_flow, setFlow_flow] at hf
    split at hf
    · rename_i hk
      obtain rfl := some.inj hf
      refine ⟨flow, ?_, hepoch.symm⟩
      rw [hk]
      exact hflow
    · exact ⟨f, hf, rfl⟩
  · intro key e hl
    exact Live.setPc (live_setFlow.mpr hl) (not_outstanding_of_bare hat.bare)

theorem bare_of_idle (h : s.pc i = .idle) : (s.pc i).Bare := by simp [h, Pc.Bare]

theorem NoneStranded.setPc {p : Pc} (h : NoneStranded s) (hbare : (s.pc i).Bare)
    (hp : ∀ c, p ≠ .asleep c) : NoneStranded (s.setPc i p) := by
  refine h.mono ?_ (fun j c f _ hf => ⟨f, hf, rfl⟩)
    (fun key e hl => hl.setPc (not_outstanding_of_bare hbare))
  intro j c hj
  by_cases hji : j = i
  · exact absurd (by simpa [hji] using hj) (hp c)
  · simpa [hji] using hj

theorem enter_step (hI : Inv s) (hpc : s.pc i = .idle) (alloc : Bool) :
    Inv (txWaitFlow s i c alloc) ∧ (NoneStranded s → NoneStranded (txWaitFlow s i c alloc)) := by
  have hbare := bare_of_idle hpc
  unfold txWaitFlow
  split
  · exact ⟨inv_setPc hI hbare (by simp), fun h => h.setPc hbare (by simp)⟩
  · cases hflow : s.flow (flowKey c.dest) with
    | some flow =>
      refine ⟨inv_setPc hI hbare ?_, fun h => h.setPc hbare (by simp)⟩
      rintro c' (h | h | h) <;> cases h
      exact ⟨flow, hflow⟩
    | none =>
      cases alloc with
      | true =>
        have hnew : Inv (s.setFlow (flowKey c.dest) flowInit) :=
          inv_setFlow hI (fun h => absurd h (by decide))
        refine ⟨inv_setPc hnew hbare ?_, fun h => ?_⟩
        · rintro c' (h | h | h) <;> cases h
          exact ⟨flowInit, by simp⟩
        · refine h.mono ?_ ?_ (fun key e hl => Live.setPc (live_setFlow.mpr hl)
            (not_outstanding_of_bare hbare))
          · intro j c' hj
            by_cases hji : j = i
            · simp [hji] at hj
            · simpa [hji] using hj
          · intro j c' f hj hf
            obtain ⟨f', hf'⟩ := hI.found j c' (.inr (.inl hj))
            have hk : flowKey c'.dest ≠ flowKey c.dest := by
              intro hk
              rw [hk, hflow] at hf'
              cases hf'
            exact ⟨f, by simpa [hk] using hf, rfl⟩
      | false =>
        exact ⟨inv_setPc hI hbare (by simp), fun h => h.setPc hbare (by simp)⟩

/-- Falling asleep is safe exactly when the round's confirm_rx packet was not lost. -/
theorem sleep_step (hI : Inv s) (hpc : s.pc i = .atFlow c ∨ s.pc i = .woken c)
    (hflow : s.flow (flowKey c.dest) = some flow) (htimeo : c.timeo)
    (hwait : mayProceed s.ep flow = false) (alloc : Bool) : Inv (s.setPc i (.asleep c)) ∧
      (NoneStranded s → (NoneStranded (s.setPc i (.asleep c)) ↔ StepOk s (.check i alloc))) := by
  have hbare : (s.pc i).Bare := by
    rcases hpc with h | h <;> simp [h, Pc.Bare]
  have hno : ∀ key e, ¬ Outstanding s i key e := fun key e => not_outstanding_of_bare hbare
  have hlive : ∀ key e, Live (s.setPc i (.asleep c)) key e → Live s key e := by
    rintro key e ⟨j, hj⟩
    by_cases hji : j = i
    · obtain ⟨m, hm, _⟩ := hj
      simp [hji] at hm
    · exact ⟨j, (outstanding_setPc hji).mp hj⟩
  refine ⟨inv_setPc hI hbare ?_, fun h => ⟨?_, ?_⟩⟩
  · rintro c' (h | h | h) <;> cases h
    exact ⟨flow, hflow⟩
  · intro h' c' flow' hpc' hflow' _ _ _
    obtain rfl : c' = c := by
      rcases hpc with hpc | hpc <;> rcases hpc' with hpc' | hpc' <;> simp_all
    exact hlive _ _ (h' i c' flow' (by simp) hflow')
  · intro hok j c' flow' hj hflow'
    by_cases hji : j = i
    · have hc : c = c' := by simpa [hji] using hj
      subst hc
      obtain rfl : flow' = flow := some.inj (hflow'.symm.trans hflow)
      have hnow : txFlowHigh ≤ flow'.pending ∧ flow'.txFailed = false := by
        simp only [mayProceed, Bool.or_eq_false_iff, decide_eq_false_iff_not] at hwait
        exact ⟨by omega, hwait.1.2⟩
      have hlow : txFlowLow ≤ flow'.pending := le_trans (by decide) hnow.1
      have hl : Live s (flowKey c.dest) flow'.epoch := by
        rcases hI.round _ _ hflow hlow with hf | hl | hu
        · simp [hnow.2] at hf
        · exact hl
        · exact hok c flow' hpc hflow htimeo hwait hu
      exact hl.setPc (hno _ _)
    · have hj' : s.pc j = .asleep c' := by simpa [hji] using hj
      exact (h j c' flow' hj' hflow').setPc (hno _ _)

theorem sent_step (hI : Inv s) (hpc : s.pc i = .issued m) :
    Inv (s.setPc i (.sent m)) ∧ (NoneStranded s → NoneStranded (s.setPc i (.sent m))) := by
  have hlive : ∀ key e, Live s key e → Live (s.setPc i (.sent m)) key e := by
    rintro key e ⟨j, hj⟩
    by_cases hji : j = i
    · obtain ⟨m', hm', hc⟩ := hj
      obtain rfl : m = m' := by simpa [hji, hpc] using hm'
      exact ⟨i, m, .inr (by simp), hc⟩
    · exact ⟨j, (outstanding_setPc hji).mpr hj⟩
  have hlost : ∀ m', s.pc i ≠ .lost m' ∧ s.pc i ≠ .failed m' := by simp [hpc]
  refine ⟨⟨?_, ?_⟩, fun h => h.mono ?_ (fun j c f _ hf => ⟨f, hf, rfl⟩) hlive⟩
  · intro j c h
    by_cases hji : j = i
    · simp [State.At, hji] at h
    · exact hI.found j c (by simpa [State.At, hji] using h)
  · intro key flow hflow hlow
    rcases hI.round key flow hflow hlow with h | h | h
    · exact .inl h
    · exact .inr (.inl (hlive _ _ h))
    · exact .inr (.inr (h.setPc hlost))
  · intro j c hj
    by_cases hji : j = i
    · simp [hji] at hj
    · simpa [hji] using hj

/-- Losing a packet is safe exactly when no sleeper waits for it alone. -/
theorem lost_step (hI : Inv s) (hpc : s.pc i = .issued m) :
    Inv (s.setPc i (if m.confirmRx then .lost m else .failed m)) ∧
      (NoneStranded s → (NoneStranded (s.setPc i (if m.confirmRx then .lost m else .failed m)) ↔
        StepOk s (.xmit i false))) := by
  generalize hp : (if m.confirmRx then Pc.lost m else Pc.failed m) = p
  have hnew : ∀ c m', p ≠ .atFlow c ∧ p ≠ .asleep c ∧ p ≠ .woken c ∧ p ≠ .issued m' ∧
      p ≠ .sent m' := by
    intro c m'
    subst hp
    split <;> simp
  have hself : ∀ key e, Outstanding s i key e ↔ m.Confirms key e := by
    intro key e
    simp [Outstanding, hpc]
  have hlive : ∀ key e, Live (s.setPc i p) key e ↔ ∃ j, j ≠ i ∧ Outstanding s j key e := by
    intro key e
    constructor
    · rintro ⟨j, hj⟩
      by_cases hji : j = i
      · obtain ⟨m', hm', _⟩ := hj
        have hne := hnew ⟨m.dest, 0, true, true⟩ m'
        simp only [hji, setPc_pc, if_true] at hm'
        rcases hm' with hm' | hm'
        · exact absurd hm' hne.2.2.2.1
        · exact absurd hm' hne.2.2.2.2
      · exact ⟨j, hji, (outstanding_setPc hji).mp hj⟩
    · rintro ⟨j, hji, hj⟩
      exact ⟨j, (outstanding_setPc hji).mpr hj⟩
  have hsleep : ∀ j c, (s.setPc i p).pc j = .asleep c ↔ s.pc j = .asleep c := by
    intro j c
    by_cases hji : j = i
    · simp [hji, hpc, (hnew c m).2.1]
    · simp [hji]
  refine ⟨⟨?_, ?_⟩, fun h => ⟨?_, ?_⟩⟩
  · intro j c h
    by_cases hji : j = i
    · simp [State.At, hji, (hnew c m).1, (hnew c m).2.1, (hnew c m).2.2.1] at h
    · exact hI.found j c (by simpa [State.At, hji] using h)
  · intro key flow hflow hlow
    rcases hI.round key flow hflow hlow with h | ⟨j, hj⟩ | h
    · exact .inl h
    · by_cases hji : j = i
      · have hm := (hself _ _).mp (hji ▸ hj)
        refine .inr (.inr ⟨i, m, hm, .inl ?_⟩)
        simp [← hp, hm.1]
      · exact .inr (.inl ((hlive _ _).mpr ⟨j, hji, hj⟩))
    · exact .inr (.inr (h.setPc (by simp [hpc])))
  · rintro h' m' flow _ hpc' hflow _ ⟨j, c, hj, hk⟩
    obtain rfl : m = m' := by simpa [hpc] using hpc'
    have hl := h' j c flow ((hsleep j c).mpr hj) (by rw [setPc_flow, hk]; exact hflow)
    rw [hk] at hl
    exact (hlive _ _).mp hl
  · intro hok j c flow hj hflow
    have hj' := (hsleep j c).mp hj
    obtain ⟨k, hk⟩ := h j c flow hj' hflow
    by_cases hki : k = i
    · have hm := (hself _ _).mp (hki ▸ hk)
      rw [← hm.2.1]
      refine (hlive _ _).mpr (hok m flow rfl hpc ?_ ⟨hm.1, rfl, hm.2.2⟩ ⟨j, c, hj', hm.2.1.symm⟩)
      rw [hm.2.1]
      exact hflow
    · exact (hlive _ _).mpr ⟨k, hki, hk⟩

theorem flowFailed_step (hI : Inv s) (hpc : s.pc i = .lost m) : Inv ((txFlowFailed s m.dest).setPc i (.failed m)) ∧
      (NoneStranded s → NoneStranded ((txFlowFailed s m.dest).setPc i (.failed m))) := by
  have hpcs : (txFlowFailed s m.dest).pc = s.pc := by
    unfold txFlowFailed
    split <;> rfl
  have hflow : ∀ key flow', (txFlowFailed s m.dest).flow key = some flow' →
      ∃ flow, s.flow key = some flow ∧ flow.epoch = flow'.epoch ∧ flow.pending = flow'.pending ∧
        (flow'.txFailed ∨ (flow'.txFailed = flow.txFailed ∧ flowFailedKey m.dest ≠ key)) := by
    intro key flow' h
    unfold txFlowFailed at h
    split at h
    · rename_i hnone
      refine ⟨flow', h, rfl, rfl, .inr ⟨rfl, ?_⟩⟩
      rintro rfl
      rw [hnone] at h
      cases h
    · rename_i flow hsome
      rw [setFlow_flow] at h
      split at h
      · rename_i hk
        obtain rfl := some.inj h
        exact ⟨flow, hk ▸ hsome, rfl, rfl, .inl rfl⟩
      · rename_i hk
        exact ⟨flow', h, rfl, rfl, .inr ⟨rfl, fun he => hk he.symm⟩⟩
  have hbare : ∀ key e, ¬ Outstanding s i key e := by
    rintro key e ⟨m', hm' | hm', _⟩ <;> simp [hpc] at hm'
  have hlive : ∀ key e, Live s key e → Live ((txFlowFailed s m.dest).setPc i (.failed m)) key e := by
    rintro key e ⟨j, hj⟩
    have hji : j ≠ i := by
      rintro rfl
      exact hbare key e hj
    refine ⟨j, (outstanding_setPc hji).mpr ?_⟩
    simpa only [Outstanding, hpcs] using hj
  have hsleep : ∀ j c, ((txFlowFailed s m.dest).setPc i (.failed m)).pc j = .asleep c →
      s.pc j = .asleep c := by
    intro j c hj
    by_cases hji : j = i
    · simp [hji] at hj
    · simpa [hji, hpcs] using hj
  refine ⟨⟨?_, ?_⟩, fun h => h.mono hsleep ?_ hlive⟩
  · intro j c h
    have hji : j ≠ i := by
      rintro rfl
      simp [State.At] at h
    obtain ⟨flow, hf⟩ := hI.found j c (by simpa [State.At, hji, hpcs] using h)
    rw [setPc_flow]
    unfold txFlowFailed
    split
    · exact ⟨flow, hf⟩
    · rw [setFlow_flow]
      split
      · exact ⟨_, rfl⟩
      · exact ⟨flow, hf⟩
  · intro key flow' hf hlow
    obtain ⟨flow, hf', he, hp, hfail⟩ := hflow key flow' hf
    rcases hfail with hfail | ⟨hfail, hkey⟩
    · exact .inl hfail
    · rw [← he, hfail]
      rcases hI.round key flow hf' (hp ▸ hlow) with h | h | ⟨j, m', hm', hj⟩
      · exact .inl h
      · exact .inr (.inl (hlive _ _ h))
      · refine .inr (.inr ⟨j, m', hm', ?_⟩)
        by_cases hji : j = i
        · obtain rfl : m = m' := by simpa [hji, hpc] using hj
          exact .inr ⟨by simp [hji], by rw [hm'.2.1]; exact hkey⟩
        · simpa [hji, hpcs] using hj
  · intro j c flow' _ hf
    obtain ⟨flow, hf', he, _⟩ := hflow _ flow' hf
    exact ⟨flow, hf', he⟩

section
variable {p q : Pc}

/-- Waking moves sleepers only. -/
theorem wakeUp_eq (hq : ∀ c, q ≠ .asleep c ∧ q ≠ .woken c) : wakeUp key p = q ↔ p = q := by
  cases p with
  | asleep c =>
    simp only [wakeUp]
    split
    · exact ⟨fun h => absurd h.symm (hq c).2, fun h => absurd h.symm (hq c).1⟩
    · exact Iff.rfl
  | _ => rfl

theorem wakeUp_asleep : wakeUp key p = .asleep c ↔ p = .asleep c ∧ flowKey c.dest ≠ key := by
  cases p with
  | asleep c' =>
    simp only [wakeUp]
    by_cases hk : flowKey c'.dest = key
    · simp only [if_pos hk]
      constructor
      · intro h
        cases h
      · rintro ⟨h, hne⟩
        cases h
        exact absurd hk hne
    · simp only [if_neg hk]
      constructor
      · intro h
        cases h
        exact ⟨rfl, hk⟩
      · exact fun h => h.1
  | _ => simp [wakeUp]

theorem at_of_wakeUp {pc : Nat → Pc} (hpc : ∀ j, s.pc j = wakeUp key (pc j)) (h : s.At j c) :
    pc j = .atFlow c ∨ pc j = .asleep c ∨ pc j = .woken c := by
  unfold State.At at h
  rw [hpc] at h
  cases hp : pc j with
  | asleep c' =>
    rw [hp] at h
    simp only [wakeUp] at h
    split at h <;> simp_all
  | _ => simp_all [wakeUp]

theorem outstanding_wakeUp (hpc : ∀ j, t.pc j = wakeUp key (s.pc j)) {k : U64} :
    Outstanding t j k e ↔ Outstanding s j k e := by
  unfold Outstanding
  simp [hpc, wakeUp_eq (q := .issued _) (by simp), wakeUp_eq (q := .sent _) (by simp)]

theorem unrecorded_wakeUp (hpc : ∀ j, t.pc j = wakeUp key (s.pc j)) {k : U64} :
    Unrecorded t k e ↔ Unrecorded s k e := by
  unfold Unrecorded
  simp [hpc, wakeUp_eq (q := .lost _) (by simp), wakeUp_eq (q := .failed _) (by simp)]

end

theorem resume_step (hI : Inv s) (src : SockaddrQrtr) :
    Inv (txResume s src) ∧ (NoneStranded s → NoneStranded (txResume s src)) := by
  unfold txResume
  cases hflow : s.flow (flowKey src) with
  | none => exact ⟨hI, id⟩
  | some flow =>
    dsimp only
    generalize hf : (⟨0, flow.txFailed, [], flow.epoch + 1⟩ : Flow) = flow'
    have hround : Inv (s.setFlow (flowKey src) flow') := by
      refine inv_setFlow hI (fun hlow => ?_)
      simp [← hf, txFlowLow] at hlow
    generalize ht : mk s.ep (s.setFlow (flowKey src) flow').flows
      (fun i => wakeUp (flowKey src) (s.pc i)) = t
    have hpc : ∀ j, t.pc j = wakeUp (flowKey src) (s.pc j) := fun j => ht ▸ rfl
    have hflows : ∀ k, t.flow k = (s.setFlow (flowKey src) flow').flow k := fun k => ht ▸ rfl
    have hlive : ∀ k e, Live t k e ↔ Live s k e := by
      intro k e
      simp [Live, outstanding_wakeUp hpc]
    suffices hkeep : Inv t ∧ (NoneStranded s → NoneStranded t) by
      rw [← ht] at hkeep
      exact hkeep
    refine ⟨⟨?_, ?_⟩, fun h => ?_⟩
    · intro j c hat
      rw [hflows]
      exact hround.found j c (at_of_wakeUp hpc hat)
    · intro k f hk hlow
      rw [hlive, unrecorded_wakeUp hpc]
      exact hround.round k f (hflows k ▸ hk) hlow
    · intro j c f hj hk
      rw [hpc, wakeUp_asleep] at hj
      rw [hflows, setFlow_flow, if_neg hj.2] at hk
      rw [hlive]
      exact h j c f hj.1 hk

/-- One step strands nobody exactly when it is allowed. -/
theorem strand_step (hI : Inv s) (h : Step s a t) : Inv t ∧ (NoneStranded s → (NoneStranded t ↔ StepOk s a)) := by
  have of_keeps : ∀ {u : State}, StepOk s a → (Inv u ∧ (NoneStranded s → NoneStranded u)) →
      Inv u ∧ (NoneStranded s → (NoneStranded u ↔ StepOk s a)) := by
    rintro u hok ⟨hu, hkeep⟩
    exact ⟨hu, fun hs => ⟨fun _ => hok, fun _ => hkeep hs⟩⟩
  cases step_effect h with
  | enter hpc => exact of_keeps trivial (enter_step hI hpc _)
  | pass hpc =>
    have hbare := bare_of_idle hpc
    exact of_keeps trivial ⟨inv_setPc hI hbare (by simp), fun hs => hs.setPc hbare (by simp)⟩
  | leave hpc hflow hok _ =>
    exact of_keeps hok ⟨inv_leaveWait hI hpc hflow _ _, fun hs => noneStranded_leaveWait hs hpc hflow _ _⟩
  | sleep hpc hflow htimeo hwait => exact sleep_step hI hpc hflow htimeo hwait _
  | sent hpc =>
    refine of_keeps ?_ (sent_step hI hpc)
    intro m flow hf
    cases hf
  | lost hpc => exact lost_step hI hpc
  | flowFailed hpc => exact of_keeps trivial (flowFailed_step hI hpc)
  | resume => exact of_keeps trivial (resume_step hI _)

/-- Along every interleaving, no sender is ever stranded exactly when no step loses the
last confirm_rx packet of a sleeper or starts a sleep after an unrecorded loss. -/
theorem none_stranded_iff {ep : Bool} {run : List (Action × State)} (hrun : Lts.Path Step (init ep) run) :
    (∀ u ∈ init ep :: run.map snd, NoneStranded u) ↔ Steps StepOk (init ep) run := by
  have hinit : NoneStranded (init ep) := by
    intro i c flow h
    cases h
  refine Lts.Path.always_iff_steps (I := Inv) ?_ ?_ hrun (inv_init ep) hinit
  · intro s a t h hI _ _
    exact (strand_step hI h).1
  · intro s a t h hI hs
    exact (strand_step hI h).2 hs

def sendCall : Call := ⟨⟨2, 7⟩, 0, true, true⟩

/-- Ten senders pass the flow control and an eleventh goes to sleep. -/
def fillFlow : List Action :=
  (List.range 11).flatMap (fun i => [.call i sendCall true, .check i true])

theorem fillFlow_none_stranded : ∃ run, Lts.Path Step (init true) run ∧
      ((∀ u ∈ init true :: run.map snd, NoneStranded u) ↔ Steps StepOk (init true) run) ∧
      (final (init true) run).pc 10 = .asleep sendCall := by
  obtain ⟨t, ht, hpc⟩ : ∃ t, exec step (init true) fillFlow = some t ∧
      t.pc 10 = .asleep sendCall := ⟨_, rfl, by decide⟩
  obtain ⟨run, hrun, hfinal⟩ := path_of_exec ht
  exact ⟨run, hrun, none_stranded_iff hrun, hfinal ▸ hpc⟩

theorem idle_step (h : Step s a t) (hne : a.proc ≠ some i) (hi : s.pc i = .idle) : t.pc i = .idle := by
  have hother : ∀ {j : Nat} {p : Pc}, some j ≠ some i → (s.setPc j p).pc i = .idle := by
    intro j p hj
    have hij : i ≠ j := fun he => hj (he ▸ rfl)
    simp [hij, hi]
  cases step_effect h with
  | @enter j c alloc _ =>
    unfold txWaitFlow
    split
    · exact hother hne
    · split
      · exact hother hne
      · split <;> exact hother hne
  | pass _ | sleep _ _ _ _ | sent _ | lost _ => exact hother hne
  | leave _ _ _ hproc => exact hother (hproc ▸ hne)
  | @flowFailed j m _ =>
    have hpcs : (txFlowFailed s m.dest).pc = s.pc := by
      unfold txFlowFailed
      split <;> rfl
    have hij : i ≠ j := fun he => hne (he ▸ rfl)
    simp [hij, hpcs, hi]
  | @resume src =>
    unfold txResume
    split
    · exact hi
    · simp [hi, wakeUp]

/-- The fifth sender, who carries the confirm_rx flag, then fails to transmit. -/
def confirmLost : List Action := fillFlow ++ [.xmit 4 false]

/-- Whether the process has a confirm_rx packet that has not failed. -/
def Pc.confirming : Pc → Bool
  | .issued m | .sent m => m.confirmRx
  | _ => false

theorem confirmLost_stranded : ∃ run, Lts.Path Step (init true) run ∧
      ¬ ∀ u ∈ init true :: run.map snd, NoneStranded u := by
  obtain ⟨t, ht, hsleep, hflow, hnone⟩ : ∃ t, exec step (init true) confirmLost = some t ∧
      t.pc 10 = .asleep sendCall ∧ (t.flow (flowKey sendCall.dest)).isSome = true ∧
      ∀ k < 11, (t.pc k).confirming = false := ⟨_, rfl, by decide, by decide, by decide⟩
  have hprocs : ∀ a ∈ confirmLost, ∃ j < 11, a.proc = some j := by decide
  obtain ⟨run, hrun, hfinal⟩ := path_of_exec ht
  refine ⟨run, hrun, fun hall => ?_⟩
  have hlast := hall _ (final_mem _ _)
  rw [hfinal] at hlast
  obtain ⟨flow, hflow⟩ := isSome_iff_exists.mp hflow
  obtain ⟨k, m, hm, hconf⟩ := hlast 10 sendCall flow hsleep hflow
  by_cases hk : k < 11
  · have hoff := hnone k hk
    rcases hm with hm | hm <;> simp [hm, Pc.confirming, hconf.1] at hoff
  · have hspare : ∀ a ∈ confirmLost, a.proc ≠ some k := by
      intro a ha hproc
      obtain ⟨j, hj, hp⟩ := hprocs a ha
      have hjk : j = k := some.inj (hp.symm.trans hproc)
      omega
    have hstart : (init true).pc k = .idle := rfl
    have hidle : t.pc k = .idle := by
      refine exec_invariant (I := fun s => s.pc k = .idle) ?_ ht hspare hstart
      intro s a t h hne hi
      exact idle_step h hne hi
    simp [hidle] at hm

end Sm8850.Qrtr
