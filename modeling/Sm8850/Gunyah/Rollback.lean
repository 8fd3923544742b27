import Mathlib.Data.List.TakeWhile
import Sm8850.Gunyah.Tables

/-! What `gh_rm_populate_hyp_res` leaves behind when it fails. -/
namespace Sm8850.Gunyah
open List Ledger Entry Tables

section Pure

variable (env : Env) (t₀ : Tables)

/-- A slot is occupied once the entries `target` are populated. -/
def takenBy (target : List Entry) (sl : Slot) : Bool :=
  t₀.occupied sl || target.any (fun y => isValidDblMsgq env y && y.stores env && decide (y.slot = some sl))

/-- A message queue is listed once the entries `target` are populated. -/
def listedBy (target : List Entry) (label : Label) : Bool :=
  t₀.listed label || target.any (fun y => isValidDblMsgq env y && y.isMq && decide (y.label = label))

/-- The second loop fails at an entry when the entries `target` are populated. -/
def entryFails (target : List Entry) (e : Entry) : Bool :=
  isValidDblMsgq env e &&
    (getIrq env e < 0 || stepFails env (takenBy env t₀ target) (listedBy env t₀ target) e)

/-- The step of `e` fails when the entries `target` are populated. -/
abbrev failsAfter (target : List Entry) (e : Entry) : Bool :=
  stepFails env (takenBy env t₀ target) (listedBy env t₀ target) e

/-- The second loop gets past the entries `l`. -/
def passes : List Entry → List Entry → Bool
  | _, [] => true
  | target, e :: l => !entryFails env t₀ target e && passes (target ++ [e]) l

/-- The rollback stops at an entry: its message queue has been taken off the list, or an entry before it
has reset the same doorbell. -/
def stuck (gone : Option Label) (seen : List Entry) (x : Entry) : Bool :=
  (x.isMq && decide (gone = some x.label)) ||
    (decide (x.type = .dbRx) &&
      seen.any (fun y => isValidDblMsgq env y && decide (y.type = .dbRx) && decide (y.label = x.label)))

end Pure

section Vcpus

variable {env : Env} {e : Entry} {s : St} {i : Nat} {ret : Int}

@[simp] theorem obtainIrq_t (irq : Int) : (obtainIrq i irq s).t = s.t := by
  unfold obtainIrq
  split <;> rfl

@[simp] theorem obtainIrq_populated (irq : Int) : (obtainIrq i irq s).populated = s.populated := by
  unfold obtainIrq
  split <;> rfl

@[simp] theorem putIrq_t (irq : Int) : (putIrq env i irq s).t = s.t := by
  unfold putIrq
  split
  · rfl
  · split <;> rfl

@[simp] theorem putIrq_populated (irq : Int) : (putIrq env i irq s).populated = s.populated := by
  unfold putIrq
  split
  · rfl
  · split <;> rfl

end Vcpus

section Loop

variable {env : Env} {t₀ : Tables} {vs : List (CapId × Int)} {p₀ target entries : List Entry} {e : Entry}
  {s : St} {i : Nat} {ret : Int}

/-- Two entries of which the second finds its message queue taken by the first. -/
def Clash (env : Env) (y x : Entry) : Prop :=
  isValidDblMsgq env y = true ∧ isValidDblMsgq env x = true ∧ x.isMq = true ∧ y.slot = x.slot

/-- Two entries that are not for the same Rx doorbell. -/
def RxApart (env : Env) (y x : Entry) : Prop :=
  ¬ (isValidDblMsgq env y = true ∧ isValidDblMsgq env x = true ∧ y.type = .dbRx ∧ x.type = .dbRx ∧
    y.label = x.label)

/-- The tables hold the IRQs of the entries `target`, and the VPM group that of the first entry for it. -/
structure Filled (env : Env) (target : List Entry) (t : Tables) : Prop where
  mq : ∀ y ∈ target, isValidDblMsgq env y = true → ∀ label dir, y.slot = some (.mq label dir) →
    ∃ cap, t.row label dir = some (cap, getIrq env y)
  db : ∀ y ∈ target, isValidDblMsgq env y = true → y.type = .dbRx → t.dblIrq y.label = getIrq env y
  vpm : t.vpmGrp = if env.proxyCb && env.supportsProxy then
    (target.find? (fun y => decide (y.type = .vpmGrp))).map (getIrq env) else none

/-- The state in which the second loop has populated the entries `target`. -/
structure Reach (env : Env) (t₀ : Tables) (vs : List (CapId × Int)) (p₀ target : List Entry) (s : St) : Prop where
  occ : ∀ sl, s.t.occupied sl = takenBy env t₀ target sl
  lst : ∀ label, s.t.listed label = listedBy env t₀ target label
  vcpus : s.t.vcpus = vs
  pop : ∀ x, x ∈ s.populated ↔ x ∈ p₀ ∨ x ∈ target ∧ isValidDblMsgq env x = true ∧ x.stores env = true
  irqs : ∀ y ∈ target, isValidDblMsgq env y = true → y.type = .dbRx → s.t.dblIrq y.label ≠ 0
  sound : ∀ y ∈ target, isValidDblMsgq env y = true → Sound env y
  apart : target.Pairwise (fun y x => ¬ Clash env y x)
  filled : target.Pairwise (RxApart env) → Filled env target s.t

theorem pairwise_snoc {α : Type} {R : α → α → Prop} {e : α} {l : List α} :
    (l ++ [e]).Pairwise R ↔ l.Pairwise R ∧ ∀ y ∈ l, R y e := by
  simp [pairwise_append]

theorem mem_snoc {α : Type} {y e : α} {l : List α} : y ∈ l ++ [e] ↔ y ∈ l ∨ y = e := by simp

/-- The entries that are stored, with one more. -/
theorem stored_snoc {x : Entry} : x ∈ target ++ [e] ∧ isValidDblMsgq env x ∧ x.stores env ↔
    x ∈ target ∧ isValidDblMsgq env x ∧ x.stores env ∨
      x = e ∧ isValidDblMsgq env e ∧ e.stores env := by
  rw [mem_snoc, or_and_right]
  refine or_congr_right (and_congr_right ?_)
  rintro rfl
  rfl

theorem isMq_of_slot {label : Label} {dir : Dir} (h : e.slot = some (.mq label dir)) : e.isMq := by
  cases ht : e.type <;> simp [slot, ht] at h <;> simp [isMq, ht]

theorem takenBy_of_mem {x : Entry} {sl : Slot} (hx : x ∈ target) (hv : isValidDblMsgq env x)
    (hst : x.stores env) (hsl : x.slot = some sl) : takenBy env t₀ target sl := by
  simp only [takenBy, Bool.or_eq_true, any_eq_true]
  exact .inr ⟨x, hx, by simp [hv, hst, hsl]⟩

/-- The step of an entry goes by the entries before it. -/
theorem Reach.stepFails_eq (h : Reach env t₀ vs p₀ target s) (e : Entry) :
    stepFails env s.t.occupied s.t.listed e = failsAfter env t₀ target e := by
  rw [funext h.occ, funext h.lst]

theorem takenBy_snoc (target : List Entry) (e : Entry) (sl : Slot) : takenBy env t₀ (target ++ [e]) sl =
      (takenBy env t₀ target sl || (isValidDblMsgq env e && e.stores env && decide (e.slot = some sl))) := by
  simp [takenBy, Bool.or_assoc]

theorem listedBy_snoc (target : List Entry) (e : Entry) (label : Label) : listedBy env t₀ (target ++ [e]) label =
      (listedBy env t₀ target label || (isValidDblMsgq env e && e.isMq && decide (e.label = label))) := by
  simp [listedBy, Bool.or_assoc]

/-- An entry that passes finds its message queue free. -/
theorem not_clash_of_passes (hpass : failsAfter env t₀ target e = false) {y : Entry} (hy : y ∈ target) :
    ¬ Clash env y e := by
  rintro ⟨hvy, -, hm, hslot⟩
  have htaken : ∀ dir, e.slot = some (.mq e.label dir) → takenBy env t₀ target (.mq e.label dir) := by
    intro dir hs
    obtain ⟨hst, hys⟩ := target_eq_some.mp ((target_mq env).mpr (hslot.trans hs))
    exact takenBy_of_mem hy hvy hst hys
  rcases (by simpa [isMq] using hm : e.type = .mqTx ∨ e.type = .mqRx) with ht | ht
  · have := htaken .tx (by simp [slot, ht])
    simp [stepFails, ht, mqRefused, this] at hpass
  · have := htaken .rx (by simp [slot, ht])
    simp [stepFails, ht, mqRefused, this] at hpass

/-- An entry that passes notes its IRQ and leaves those of the entries before it. -/
theorem Filled.next {t : Tables} (h : Filled env target t) (hok : stepFails env t.occupied t.listed e = false) (hv : isValidDblMsgq env e) (h0 : 0 ≤ getIrq env e)
    (hpass : failsAfter env t₀ target e = false) (hrx : ∀ y ∈ target, RxApart env y e) :
    Filled env (target ++ [e]) (populateEntry env t e (getIrq env e)).1 := by
  constructor
  · intro y hy hvy label dir hs
    rw [populateEntry_row h0 hok]
    rcases mem_snoc.mp hy with hy | rfl
    · have hne : e.slot ≠ some (.mq label dir) := by
        intro hes
        exact not_clash_of_passes hpass hy ⟨hvy, hv, isMq_of_slot hes, hs.trans hes.symm⟩
      rw [if_neg hne]
      exact h.mq y hy hvy label dir hs
    · rw [if_pos hs]
      exact ⟨y.capId, rfl⟩
  · intro y hy hvy hty
    rw [populateEntry_dblIrq h0]
    rcases mem_snoc.mp hy with hy | rfl
    · have hne : ¬ (e.type = .dbRx ∧ dblLabelOk env e ∧ 0 < getIrq env e ∧ e.label = y.label) := by
        rintro ⟨hte, -, -, hl⟩
        exact hrx y hy ⟨hvy, hv, hty, hte, hl.symm⟩
      rw [if_neg hne]
      exact h.db y hy hvy hty
    · simp only [stepFails, hty, Bool.or_eq_false_iff, Bool.not_eq_false', decide_eq_true_eq,
        decide_eq_false_iff_not] at hpass
      rw [if_pos ⟨hty, hpass.1.1, by omega, rfl⟩]
  · rw [populateEntry_vpmGrp h0 hok, h.vpm, find?_append]
    cases hc : (env.proxyCb && env.supportsProxy) with
    | false => simp
    | true =>
      cases hf : target.find? (fun y => decide (y.type = .vpmGrp)) with
      | some y => simp
      | none =>
        by_cases hte : e.type = .vpmGrp
        · simp [hte]
        · simp [hte]

section
variable (h : Reach env t₀ vs p₀ target s)
include h

/-- An entry that passes is added to those that are populated. -/
theorem Reach.next (hv : isValidDblMsgq env e) (h0 : 0 ≤ getIrq env e)
    (hpass : failsAfter env t₀ target e = false) (log : List (Ledger.Event Nat Int)) :
    Reach env t₀ vs p₀ (target ++ [e]) ⟨(populateEntry env s.t e (getIrq env e)).1, log,
      if e.stores env then e :: s.populated else s.populated⟩ := by
  have hok := (h.stepFails_eq e).trans hpass
  constructor
  · intro sl
    rw [Bool.eq_iff_iff]
    rw [populateEntry_occupied h0 hok sl, takenBy_snoc, h.occ]
    simp [hv]
  · intro label
    rw [Bool.eq_iff_iff]
    rw [populateEntry_listed h0 hok label, listedBy_snoc, h.lst]
    simp [hv]
  · exact (populateEntry_vcpus h0).trans h.vcpus
  · intro x
    rw [stored_snoc, ← or_assoc, ← h.pop]
    cases hst : e.stores env with
    | true => simp [hv, or_comm]
    | false => simp
  · intro y hy hvy hty
    rw [populateEntry_dblIrq h0]
    split
    · rename_i hcase
      omega
    · rename_i hcase
      rcases mem_snoc.mp hy with hy | rfl
      · exact h.irqs y hy hvy hty
      · -- the entry itself has got past its checks, so it has noted its IRQ
        simp only [stepFails, hty, Bool.or_eq_false_iff, Bool.not_eq_false', decide_eq_true_eq,
          decide_eq_false_iff_not] at hpass
        exact absurd ⟨hty, hpass.1.1, by omega, rfl⟩ hcase
  · intro y hy hvy
    rcases mem_snoc.mp hy with hy | rfl
    · exact h.sound y hy hvy
    · exact sound_of_passes hpass
  · exact pairwise_snoc.mpr ⟨h.apart, fun y hy => not_clash_of_passes hpass hy⟩
  · intro hrx
    obtain ⟨hrx₁, hrx₂⟩ := pairwise_snoc.mp hrx
    exact (h.filled hrx₁).next hok hv h0 hpass hrx₂

/-- An entry that is passed over changes nothing. -/
theorem Reach.skip (hv : isValidDblMsgq env e = false) : Reach env t₀ vs p₀ (target ++ [e]) s := by
  have hne : ∀ y ∈ target ++ [e], isValidDblMsgq env y → y ∈ target := by
    intro y hy hvy
    rcases mem_snoc.mp hy with hy | rfl
    · exact hy
    · rw [hv] at hvy
      cases hvy
  constructor
  · intro sl
    rw [takenBy_snoc, h.occ]
    simp [hv]
  · intro label
    rw [listedBy_snoc, h.lst]
    simp [hv]
  · exact h.vcpus
  · intro x
    rw [h.pop, stored_snoc]
    simp [hv]
  · exact fun y hy hvy => h.irqs y (hne y hy hvy) hvy
  · exact fun y hy hvy => h.sound y (hne y hy hvy) hvy
  · refine pairwise_snoc.mpr ⟨h.apart, fun y _ hclash => ?_⟩
    cases hv.symm.trans hclash.2.1
  · intro hrx
    have hfilled := h.filled (pairwise_snoc.mp hrx).1
    refine ⟨fun y hy hvy => hfilled.mq y (hne y hy hvy) hvy, fun y hy hvy => hfilled.db y (hne y hy hvy) hvy, ?_⟩
    have hte : e.type ≠ .vpmGrp := by
      intro ht
      simp [isValidDblMsgq, ht] at hv
    rw [hfilled.vpm, find?_append]
    simp [hte]

end

end Loop

section Undo

variable {env : Env} {gone : Option Label} {seen rest target entries : List Entry} {x e : Entry} {t : Tables}
  {s : St} {i : Nat} {irq ret : Int}

/-- An Rx doorbell of the entries `seen`. -/
def rxIn (env : Env) (seen : List Entry) (label : Label) : Bool :=
  seen.any (fun y => isValidDblMsgq env y && decide (y.type = .dbRx) && decide (y.label = label))

/-- The tables in which the rollback has reset `seen` and `rest` is still to come. -/
structure Rolling (env : Env) (gone : Option Label) (seen rest : List Entry) (t : Tables) : Prop where
  mq : ∀ x ∈ rest, isValidDblMsgq env x = true → x.isMq = true → ∀ sl, x.slot = some sl →
    t.occupied sl = !decide (gone = some x.label)
  db : ∀ x ∈ rest, isValidDblMsgq env x = true → x.type = .dbRx →
    decide (t.dblIrq x.label = 0) = rxIn env seen x.label
  sound : ∀ x ∈ rest, isValidDblMsgq env x = true → Sound env x
  apart : rest.Pairwise (fun y x => ¬ Clash env y x)

theorem Rolling.resetFails_eq (h : Rolling env gone seen (x :: rest) t) (hv : isValidDblMsgq env x) :
    resetFails t x = stuck env gone seen x := by
  cases ht : x.type with
  | mqTx =>
    have hmq := h.mq x (by simp) hv (by simp [isMq, ht]) (.mq x.label .tx) (by simp [slot, ht])
    simp [resetFails, stuck, isMq, ht, hmq]
  | mqRx =>
    have hmq := h.mq x (by simp) hv (by simp [isMq, ht]) (.mq x.label .rx) (by simp [slot, ht])
    simp [resetFails, stuck, isMq, ht, hmq]
  | dbRx =>
    have hdb := h.db x (by simp) hv ht
    rw [rxIn] at hdb
    simp [resetFails, stuck, isMq, ht, hdb]
  | _ => simp [resetFails, stuck, isMq, ht]

theorem Rolling.next (later : Bool) (irq : Int) (h : Rolling env gone seen (x :: rest) t) (hv : isValidDblMsgq env x)
    (hfree : stuck env gone seen x = false) (h0 : 0 ≤ ret) :
    Rolling env gone (seen ++ [x]) rest (resetEntry env later t x irq ret).1 := by
  obtain ⟨happ, hrest⟩ := pairwise_cons.mp h.apart
  obtain ⟨-, heq⟩ := (resetEntry_cases later t irq (h.sound x (by simp) hv) h0).2
    (by rw [h.resetFails_eq hv]; exact hfree)
  rw [heq]
  constructor
  · intro y hy hvy hm sl hsl
    have hold := h.mq y (.tail _ hy) hvy hm sl hsl
    have hne : x.slot ≠ some sl := by
      intro hxs
      exact happ y hy ⟨hv, hvy, hm, hxs.trans hsl.symm⟩
    rw [reset_occupied, hold]
    simp [hne]
  · intro y hy hvy hty
    have hold := h.db y (.tail _ hy) hvy hty
    have hsnoc : rxIn env (seen ++ [x]) y.label =
        (rxIn env seen y.label || (decide (x.type = .dbRx) && decide (x.label = y.label))) := by
      simp [rxIn, hv]
    rw [reset_dblIrq, hsnoc, ← hold]
    by_cases hx : x.type = .dbRx ∧ x.label = y.label
    · simp [hx]
    · rcases not_and_or.mp hx with hx' | hx'
      · simp [hx']
      · simp [hx']
  · exact fun y hy hvy => h.sound y (.tail _ hy) hvy
  · exact hrest

theorem Rolling.skip (h : Rolling env gone seen (x :: rest) t) (hv : isValidDblMsgq env x = false) :
    Rolling env gone (seen ++ [x]) rest t := by
  constructor
  · exact fun y hy => h.mq y (.tail _ hy)
  · intro y hy hvy hty
    rw [h.db y (.tail _ hy) hvy hty]
    simp [rxIn, hv]
  · exact fun y hy hvy => h.sound y (.tail _ hy) hvy
  · exact (pairwise_cons.mp h.apart).2

end Undo

section Failure

variable {env : Env} {t₀ : Tables} {entries target rest : List Entry} {e : Entry} {s : St}

end Failure

end Sm8850.Gunyah
