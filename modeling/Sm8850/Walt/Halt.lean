import Mathlib.Data.List.Sort
import Sm8850.Lib.Path

/-! Pausing of CPUs: the two halt masks and the votes of the clients (`walt_halt.c`). -/
namespace Sm8850.Walt.Halt
open List

/-- `enum pause_type`. -/
inductive PauseType
  | halt
  | partialHalt
  deriving DecidableEq, Repr

/-- `enum pause_client`. -/
inductive PauseClient
  | coreCtl
  | thermal
  | hyp
  | sbt
  deriving DecidableEq, Repr

/-- The bit by which a client votes. -/
def PauseClient.bit : PauseClient → BitVec 8
  | .coreCtl => 0x01
  | .thermal => 0x02
  | .hyp => 0x04
  | .sbt => 0x08

theorem PauseClient.bit_ne_zero (c : PauseClient) : c.bit ≠ 0 := by
  cases c <;> decide

abbrev Cpumask := Nat → Bool

/-- The CPUs of the machine and the first of those that run 32-bit tasks (`nrCpus` where none does). -/
structure Config where
  nrCpus : Nat
  first32 : Nat

@[ext]
structure State where
  /-- `cpu_halt_mask` and `cpu_partial_halt_mask` -/
  mask : PauseType → Cpumask
  /-- `halt_state[cpu].client_vote_mask[type]` -/
  votes : PauseType → Nat → BitVec 8

def EINVAL : Int := 22
def EAGAIN : Int := 11

theorem einval_neg : -EINVAL < 0 := by decide

/-- The CPUs `for_each_cpu` visits, in its order. -/
def forEachCpu (c : Config) (cpus : Cpumask) : List Nat :=
  (range c.nrCpus).filter cpus

def cpumaskSetCpu (cpu : Nat) (type : PauseType) (s : State) : State :=
  { s with mask := fun t x => if t = type ∧ x = cpu then true else s.mask t x }

def cpumaskClearCpu (cpu : Nat) (type : PauseType) (s : State) : State :=
  { s with mask := fun t x => if t = type ∧ x = cpu then false else s.mask t x }

/-- The loop of `halt_cpus`: the bits set before the failing CPU stay set. -/
def haltLoop (c : Config) (type : PauseType) : List Nat → State → State × Int
  | [], s => (s, 0)
  | cpu :: rest, s =>
    if cpu = c.first32 then (s, -EINVAL) else haltLoop c type rest (cpumaskSetCpu cpu type s)

def haltCpus (c : Config) (cpus : Cpumask) (type : PauseType) (s : State) : State × Int :=
  haltLoop c type (forEachCpu c cpus) s

def startCpus (c : Config) (cpus : Cpumask) (type : PauseType) (s : State) : State × Int :=
  ((forEachCpu c cpus).foldl (fun s cpu => cpumaskClearCpu cpu type s) s, 0)

def updateClients (c : Config) (cpus : Cpumask) (halt : Bool) (client : PauseClient) (type : PauseType)
    (s : State) : State :=
  (forEachCpu c cpus).foldl (fun s cpu =>
    { s with votes := fun t x =>
        if t = type ∧ x = cpu then
          if halt then s.votes t x ||| client.bit else s.votes t x &&& ~~~client.bit
        else s.votes t x }) s

/-- Keep the CPUs on which nobody votes for `type`. -/
def updateHaltCpus (c : Config) (s : State) (cpus : Cpumask) (type : PauseType) : Cpumask :=
  fun cpu => cpus cpu && !(decide (cpu < c.nrCpus) && s.votes type cpu != 0)

def waltHaltCpus (c : Config) (cpus : Cpumask) (client : PauseClient) (type : PauseType) (s : State) :
    State × Int :=
  let requested := cpus
  let cpus := updateHaltCpus c s cpus type
  if forEachCpu c cpus = [] then (updateClients c requested true client type s, 0)
  else
    let (s', ret) := haltCpus c cpus type s
    if ret < 0 then (s', ret) else (updateClients c requested true client type s', ret)

def waltStartCpus (c : Config) (cpus : Cpumask) (client : PauseClient) (type : PauseType) (s : State) :
    State × Int :=
  let requested := cpus
  let s₁ := updateClients c requested false client type s
  let cpus := updateHaltCpus c s₁ cpus type
  let (s₂, ret) := startCpus c cpus type s₁
  -- the votes are restored on an error
  if ret < 0 then (updateClients c requested true client type s₂, ret) else (s₂, ret)

/-- A call of the interface; `disabled` is `walt_disabled` at that time. -/
structure Request where
  disabled : Bool
  resume : Bool
  type : PauseType
  client : PauseClient
  cpus : Cpumask

/-- `walt_pause_cpus`, `walt_partial_pause_cpus`, `walt_resume_cpus` and `walt_partial_resume_cpus`. -/
def request (c : Config) (r : Request) (s : State) : State × Int :=
  if r.disabled then (s, -EAGAIN)
  else if r.resume then waltStartCpus c r.cpus r.client r.type s
  else waltHaltCpus c r.cpus r.client r.type s

/-- At boot no CPU is halted and nobody votes. -/
def State.boot : State := ⟨fun _ _ => false, fun _ _ => 0⟩

def RequestStep (c : Config) (s : State) (r : Request) (t : State) : Prop :=
  (request c r s).1 = t

/-- The masks hold exactly the CPUs that somebody votes for. -/
def Follows (c : Config) (s : State) : Prop :=
  ∀ type, ∀ cpu < c.nrCpus, s.mask type cpu = true ↔ s.votes type cpu ≠ 0

/-- The masks follow the votes after the request, and one that fails has changed nothing. -/
def Faithful (c : Config) (s : State) (r : Request) (t : State) : Prop :=
  Follows c t ∧ ((request c r s).2 < 0 → t = s)

/-- CPU `cpu` is asked for and nobody votes for it. -/
def Fresh (s : State) (r : Request) (cpu : Nat) : Prop :=
  r.cpus cpu = true ∧ s.votes r.type cpu = 0

/-- A pause that reaches the first 32-bit CPU has no unpaused CPU to set before it. -/
def NoneBefore32 (c : Config) (s : State) (r : Request) : Prop :=
  r.disabled = false → r.resume = false → c.first32 < c.nrCpus → Fresh s r c.first32 →
    ∀ cpu < c.first32, ¬ Fresh s r cpu

section Loops

variable {c : Config} {type : PauseType} {client : PauseClient} {cpus : Cpumask} {s : State} {cpu : Nat}

@[simp] theorem mem_forEachCpu : cpu ∈ forEachCpu c cpus ↔ cpu < c.nrCpus ∧ cpus cpu := by
  simp [forEachCpu]

theorem forEachCpu_sorted (c : Config) (cpus : Cpumask) : (forEachCpu c cpus).Pairwise (· < ·) :=
  List.Pairwise.filter _ pairwise_lt_range

theorem updateHaltCpus_eq_true (hcpu : cpu < c.nrCpus) :
    updateHaltCpus c s cpus type cpu ↔ cpus cpu ∧ s.votes type cpu = 0 := by
  simp [updateHaltCpus, hcpu]

theorem haltLoop_ret (l : List Nat) (s : State) : (haltLoop c type l s).2 = if c.first32 ∈ l then -EINVAL else 0 := by
  induction l generalizing s with
  | nil => rfl
  | cons x l ih =>
    by_cases hx : x = c.first32
    · simp [haltLoop, hx]
    · simp [haltLoop, hx, ih, Ne.symm hx]

theorem haltLoop_votes (l : List Nat) (s : State) : (haltLoop c type l s).1.votes = s.votes := by
  induction l generalizing s with
  | nil => rfl
  | cons x l ih =>
    by_cases hx : x = c.first32
    · simp [haltLoop, hx]
    · simp only [haltLoop, hx, if_false]
      exact ih _

theorem haltLoop_other {t : PauseType} (ht : t ≠ type) (l : List Nat) (s : State) :
    (haltLoop c type l s).1.mask t = s.mask t := by
  induction l generalizing s with
  | nil => rfl
  | cons x l ih =>
    by_cases hx : x = c.first32
    · simp [haltLoop, hx]
    · simp only [haltLoop, hx, if_false]
      rw [ih]
      funext y
      simp [cpumaskSetCpu, ht]

/-- The loop sets the bits of an ascending list up to the first 32-bit CPU. -/
theorem haltLoop_mask (l : List Nat) (hl : l.Pairwise (· < ·)) (s : State) :
    (haltLoop c type l s).1.mask type cpu ↔
      s.mask type cpu ∨ cpu ∈ l ∧ (c.first32 ∈ l → cpu < c.first32) := by
  induction l generalizing s with
  | nil => simp [haltLoop]
  | cons x l ih =>
    obtain ⟨hx, hl⟩ := pairwise_cons.mp hl
    by_cases h32 : x = c.first32
    · -- nothing of an ascending list is below its head
      have hnone : ¬ (cpu ∈ x :: l ∧ (c.first32 ∈ x :: l → cpu < c.first32)) := by
        rintro ⟨hmem, hlt⟩
        have hlt := hlt (by simp [h32])
        rcases mem_cons.mp hmem with rfl | hmem
        · omega
        · have := hx cpu hmem
          omega
      simp only [haltLoop, h32, if_true]
      rw [← h32]
      simp only [h32] at hnone ⊢
      exact ⟨.inl, fun h => h.resolve_right hnone⟩
    · simp only [haltLoop, h32, if_false]
      rw [ih hl]
      have hhead : c.first32 ∈ l → x < c.first32 := hx c.first32
      simp only [cpumaskSetCpu, true_and, mem_cons, Ne.symm h32, false_or]
      by_cases hcx : cpu = x
      · subst hcx
        simpa using .inr hhead
      · simp [hcx]

theorem startCpus_votes : (startCpus c cpus type s).1.votes = s.votes := by
  unfold startCpus
  generalize forEachCpu c cpus = l
  induction l generalizing s with
  | nil => rfl
  | cons x l ih => exact ih

theorem startCpus_mask (t : PauseType) : (startCpus c cpus type s).1.mask t cpu ↔
      s.mask t cpu ∧ ¬ (t = type ∧ cpu ∈ forEachCpu c cpus) := by
  unfold startCpus
  generalize forEachCpu c cpus = l
  induction l generalizing s with
  | nil => simp
  | cons x l ih =>
    simp only [foldl_cons]
    rw [ih]
    by_cases ht : t = type
    · by_cases hx : cpu = x
      · simp [cpumaskClearCpu, ht, hx]
      · simp [cpumaskClearCpu, ht, hx]
    · simp [cpumaskClearCpu, ht]

@[simp] theorem updateClients_mask (halt : Bool) : (updateClients c cpus halt client type s).mask = s.mask := by
  unfold updateClients
  generalize forEachCpu c cpus = l
  induction l generalizing s with
  | nil => rfl
  | cons x l ih => exact ih

theorem updateClients_votes (halt : Bool) (t : PauseType) (cpu : Nat) :
    (updateClients c cpus halt client type s).votes t cpu = if t = type ∧ cpu ∈ forEachCpu c cpus then
        if halt then s.votes t cpu ||| client.bit else s.votes t cpu &&& ~~~client.bit else s.votes t cpu := by
  unfold updateClients
  have hnodup : (forEachCpu c cpus).Pairwise (· < ·) := forEachCpu_sorted c cpus
  generalize forEachCpu c cpus = l at hnodup
  induction l generalizing s with
  | nil => simp
  | cons x l ih =>
    obtain ⟨hx, hl⟩ := pairwise_cons.mp hnodup
    simp only [foldl_cons]
    rw [ih hl]
    by_cases ht : t = type
    · by_cases hcx : cpu = x
      · -- the list is ascending, so the CPU is visited once
        have hnot : cpu ∉ l := fun hmem => absurd (hx cpu hmem) (by omega)
        simp [ht, hcx, hcx ▸ hnot]
      · simp [ht, hcx]
    · simp [ht]

end Loops

section Requests

variable {c : Config} {r : Request} {s : State}

theorem or_bit_ne_zero (v : BitVec 8) (client : PauseClient) : v ||| client.bit ≠ 0 := by
  intro h
  exact client.bit_ne_zero (BitVec.or_eq_zero_iff.mp h).2

/-- A resume takes a vote away and clears the bits of the CPUs left without one. -/
theorem waltStartCpus_follows (cpus : Cpumask) (client : PauseClient) (type : PauseType) (h : Follows c s) :
    Follows c (waltStartCpus c cpus client type s).1 ∧ (waltStartCpus c cpus client type s).2 = 0 := by
  refine ⟨?_, rfl⟩
  intro t cpu hcpu
  set s₁ := updateClients c cpus false client type s with hs₁
  have hres : (waltStartCpus c cpus client type s).1 = (startCpus c (updateHaltCpus c s₁ cpus type) type s₁).1 := rfl
  rw [hres, startCpus_mask, startCpus_votes, mem_forEachCpu, updateHaltCpus_eq_true hcpu]
  have hold := h t cpu hcpu
  have hmask : s₁.mask = s.mask := updateClients_mask false
  have hvotes : s₁.votes t cpu = if t = type ∧ cpu ∈ forEachCpu c cpus then
      s.votes t cpu &&& ~~~client.bit else s.votes t cpu := updateClients_votes false t cpu
  rw [hmask]
  by_cases hin : t = type ∧ cpu ∈ forEachCpu c cpus
  · obtain ⟨rfl, hmem⟩ := hin
    have hreq := (mem_forEachCpu.mp hmem).2
    constructor
    · rintro ⟨-, hno⟩ hzero
      exact hno ⟨rfl, hcpu, hreq, hzero⟩
    · intro hne
      refine ⟨hold.mpr ?_, fun hno => hne hno.2.2.2⟩
      intro hzero
      apply hne
      rw [hvotes, hzero]
      simp
  · rw [if_neg hin] at hvotes
    rw [hvotes, ← hold]
    refine ⟨fun hm => hm.1, fun hm => ⟨hm, ?_⟩⟩
    rintro ⟨ht, -, hreq, -⟩
    exact hin ⟨ht, mem_forEachCpu.mpr ⟨hcpu, hreq⟩⟩

/-- What a pause does: it fails exactly when it reaches the first 32-bit CPU, and then only masks moved. -/
theorem waltHaltCpus_cases (c : Config) (cpus : Cpumask) (client : PauseClient) (type : PauseType) (s : State) :
    let fresh := forEachCpu c (updateHaltCpus c s cpus type)
    (c.first32 ∉ fresh ∧ waltHaltCpus c cpus client type s =
        (updateClients c cpus true client type (haltLoop c type fresh s).1, 0)) ∨
      (c.first32 ∈ fresh ∧ waltHaltCpus c cpus client type s = ((haltLoop c type fresh s).1, -EINVAL)) := by
  intro fresh
  have hret : (haltLoop c type fresh s).2 = if c.first32 ∈ fresh then -EINVAL else 0 := haltLoop_ret fresh s
  by_cases hempty : fresh = []
  · left
    refine ⟨by simp [hempty], ?_⟩
    have hloop : (haltLoop c type fresh s).1 = s := by rw [hempty]; rfl
    rw [hloop]
    exact if_pos hempty
  · have hres : waltHaltCpus c cpus client type s = if (haltLoop c type fresh s).2 < 0 then haltLoop c type fresh s
        else (updateClients c cpus true client type (haltLoop c type fresh s).1, (haltLoop c type fresh s).2) :=
      if_neg hempty
    rw [hres, hret]
    by_cases h32 : c.first32 ∈ fresh
    · right
      refine ⟨h32, ?_⟩
      rw [if_pos h32] at hret ⊢
      rw [if_pos einval_neg, ← hret]
    · left
      refine ⟨h32, ?_⟩
      rw [if_neg h32]
      rfl

/-- A pause that does not fail gives every CPU it asks for a vote and a mask bit. -/
theorem pause_follows {cpus : Cpumask} {client : PauseClient} {type : PauseType} (h : Follows c s)
    (h32 : c.first32 ∉ forEachCpu c (updateHaltCpus c s cpus type)) : Follows c (updateClients c cpus true client type
      (haltLoop c type (forEachCpu c (updateHaltCpus c s cpus type)) s).1) := by
  intro t cpu hcpu
  have hold := h t cpu hcpu
  rw [updateClients_mask, updateClients_votes, haltLoop_votes]
  by_cases ht : t = type
  · subst ht
    rw [haltLoop_mask _ (forEachCpu_sorted _ _)]
    simp only [h32, false_imp_iff, and_true, mem_forEachCpu, updateHaltCpus_eq_true hcpu, hcpu, true_and]
    by_cases hreq : cpus cpu
    · rw [if_pos hreq]
      refine ⟨fun _ => or_bit_ne_zero _ client, fun _ => ?_⟩
      by_cases hzero : s.votes t cpu = 0
      · exact .inr ⟨hreq, hzero⟩
      · exact .inl (hold.mpr hzero)
    · rw [if_neg hreq, ← hold]
      exact ⟨fun hm => hm.resolve_right (fun hin => hreq hin.1), .inl⟩
  · rw [haltLoop_other ht, if_neg (fun hin => ht hin.1)]
    exact hold

/-- A pause that fails is undone exactly when nothing was set before the failing CPU. -/
theorem failed_pause_iff {cpus : Cpumask} {type : PauseType} (h : Follows c s)
    (h32 : c.first32 ∈ forEachCpu c (updateHaltCpus c s cpus type)) :
    (haltLoop c type (forEachCpu c (updateHaltCpus c s cpus type)) s).1 = s ↔
      ∀ cpu < c.first32, ¬ (cpus cpu ∧ s.votes type cpu = 0) := by
  have hlt := (mem_forEachCpu.mp h32).1
  constructor
  · rintro hsame cpu hcpu ⟨hreq, hzero⟩
    have hin : cpu < c.nrCpus := hcpu.trans hlt
    have hfresh : cpu ∈ forEachCpu c (updateHaltCpus c s cpus type) :=
      mem_forEachCpu.mpr ⟨hin, (updateHaltCpus_eq_true hin).mpr ⟨hreq, hzero⟩⟩
    have hset : s.mask type cpu := by
      rw [← hsame, haltLoop_mask _ (forEachCpu_sorted _ _)]
      exact .inr ⟨hfresh, fun _ => hcpu⟩
    exact (h type cpu hin).mp hset hzero
  · intro hnone
    have hmask : (haltLoop c type (forEachCpu c (updateHaltCpus c s cpus type)) s).1.mask = s.mask := by
      funext t cpu
      by_cases ht : t = type
      · subst ht
        rw [Bool.eq_iff_iff, haltLoop_mask _ (forEachCpu_sorted _ _)]
        refine ⟨fun hm => hm.resolve_right ?_, .inl⟩
        rintro ⟨hfresh, hbelow⟩
        obtain ⟨hin, hup⟩ := mem_forEachCpu.mp hfresh
        exact hnone cpu (hbelow h32) ((updateHaltCpus_eq_true hin).mp hup)
      · rw [haltLoop_other ht]
    exact State.ext hmask (haltLoop_votes _ s)

theorem mem_fresh32 (c : Config) (s : State) (r : Request) :
    c.first32 ∈ forEachCpu c (updateHaltCpus c s r.cpus r.type) ↔ c.first32 < c.nrCpus ∧ Fresh s r c.first32 := by
  rw [mem_forEachCpu]
  constructor
  · rintro ⟨hlt, hup⟩
    exact ⟨hlt, (updateHaltCpus_eq_true hlt).mp hup⟩
  · rintro ⟨hlt, hfresh⟩
    exact ⟨hlt, (updateHaltCpus_eq_true hlt).mpr hfresh⟩

/-- One request from masks that follow the votes. -/
theorem request_faithful_iff {t : State} (hstep : RequestStep c s r t) (h : Follows c s) :
    Faithful c s r t ↔ NoneBefore32 c s r := by
  subst hstep
  cases hd : r.disabled with
  | true =>
    have hreq : request c r s = (s, -EAGAIN) := by simp [request, hd]
    refine iff_of_true ?_ (fun hoff => absurd hoff (by simp [hd]))
    rw [Faithful, hreq]
    exact ⟨h, fun _ => rfl⟩
  | false =>
    cases hr : r.resume with
    | true =>
      have hreq : request c r s = waltStartCpus c r.cpus r.client r.type s := by simp [request, hd, hr]
      refine iff_of_true ?_ (fun _ hoff => absurd hoff (by simp [hr]))
      obtain ⟨hfollows, hret⟩ := waltStartCpus_follows r.cpus r.client r.type h
      rw [Faithful, hreq, hret]
      exact ⟨hfollows, fun hneg => absurd hneg (by decide)⟩
    | false =>
      have hreq : request c r s = waltHaltCpus c r.cpus r.client r.type s := by simp [request, hd, hr]
      rw [Faithful, hreq]
      rcases waltHaltCpus_cases c r.cpus r.client r.type s with ⟨h32, hres⟩ | ⟨h32, hres⟩
      · rw [hres]
        refine iff_of_true ⟨pause_follows h h32, fun hneg => absurd hneg (lt_irrefl 0)⟩ ?_
        intro _ _ hlt hfresh
        exact absurd ((mem_fresh32 c s r).mpr ⟨hlt, hfresh⟩) h32
      · rw [hres]
        obtain ⟨hlt, hfresh⟩ := (mem_fresh32 c s r).mp h32
        have hiff := failed_pause_iff h h32
        constructor
        · rintro ⟨-, hsame⟩ _ _ _ _
          exact hiff.mp (hsame einval_neg)
        · intro hnone
          have hsame := hiff.mpr (hnone hd hr hlt hfresh)
          refine ⟨?_, fun _ => hsame⟩
          dsimp only
          rw [hsame]
          exact h

/-- The CPUs that somebody votes to pause are paused. -/
def Paused (c : Config) (s : State) : Prop := ∀ type, ∀ cpu < c.nrCpus, s.votes type cpu ≠ 0 → s.mask type cpu

theorem request_paused (h : Paused c s) : Paused c (request c r s).1 := by
  intro t cpu hcpu
  unfold request
  split_ifs
  · exact h t cpu hcpu
  · set s₁ := updateClients c r.cpus false r.client r.type s
    change (startCpus c (updateHaltCpus c s₁ r.cpus r.type) r.type s₁).1.votes t cpu ≠ 0 →
      (startCpus c (updateHaltCpus c s₁ r.cpus r.type) r.type s₁).1.mask t cpu
    rw [startCpus_mask, startCpus_votes, mem_forEachCpu, updateHaltCpus_eq_true hcpu, updateClients_mask]
    intro hv
    refine ⟨h t cpu hcpu fun hzero => hv ?_, fun hno => hv (hno.1 ▸ hno.2.2.2)⟩
    rw [updateClients_votes, hzero]
    simp
  · have hkeep : ∀ l : List Nat, l.Pairwise (· < ·) → s.mask t cpu → (haltLoop c r.type l s).1.mask t cpu := by
      intro l hl hm
      by_cases ht : t = r.type
      · rw [ht, haltLoop_mask l hl]
        exact .inl (ht ▸ hm)
      · rwa [haltLoop_other ht]
    have hsorted := forEachCpu_sorted c (updateHaltCpus c s r.cpus r.type)
    rcases waltHaltCpus_cases c r.cpus r.client r.type s with ⟨h32, hres⟩ | ⟨-, hres⟩
    · rw [hres, updateClients_votes, updateClients_mask, haltLoop_votes]
      intro hv
      by_cases hold : s.votes t cpu = 0
      · split at hv
        · rename_i hin
          obtain ⟨rfl, hin⟩ := hin
          rw [haltLoop_mask _ hsorted]
          exact .inr ⟨mem_forEachCpu.mpr ⟨hcpu, (updateHaltCpus_eq_true hcpu).mpr ⟨(mem_forEachCpu.mp hin).2, hold⟩⟩,
            fun hin => absurd hin h32⟩
        · exact absurd hold hv
      · exact hkeep _ hsorted (h t cpu hcpu hold)
    · rw [hres, haltLoop_votes]
      exact fun hv => hkeep _ hsorted (h t cpu hcpu hv)

/-- After any requests, among them such that fail, a CPU that somebody votes to pause is paused. -/
theorem voted_cpus_paused (c : Config) (rs : List Request) :
    Paused c (rs.foldl (fun s r => (request c r s).1) State.boot) :=
  foldlRecOn rs _ (fun _ _ _ h => absurd rfl h) fun _ h _ _ => request_paused h

end Requests

theorem boot_follows (c : Config) : Follows c State.boot := by
  intro type cpu _
  simp [State.boot]

/-- For every run of requests from boot: the masks follow the votes after each of them and the failing ones
change nothing, exactly when no pause meets the first 32-bit CPU with an unpaused CPU before it. -/
theorem masks_follow_votes (c : Config) (p : List (Request × State)) (hp : Lts.Path (RequestStep c) State.boot p) :
    Lts.Path (Faithful c) State.boot p ↔ Lts.Steps (NoneBefore32 c) State.boot p :=
  Lts.Path.good_iff_steps (fun _ _ _ _ _ hgood => hgood.1)
    (fun _ _ _ hstep hs => request_faithful_iff hstep hs) hp (boot_follows c)

/-- The machine of the runs below: four CPUs, of which CPU 2 is the first to run 32-bit tasks. -/
def quad : Config := ⟨4, 2⟩

/-- A full pause of CPUs `a` and `b`. -/
def pausePair (client : PauseClient) (a b : Nat) : Request :=
  ⟨false, false, .halt, client, fun cpu => cpu == a || cpu == b⟩

/-- CPUs 0 and 1 are paused, then the pause of CPU 2 with a CPU that is paused already fails cleanly. -/
theorem masks_follow_votes_quad : ∃ p, Lts.Path (RequestStep quad) State.boot p ∧ p.length = 2 ∧
      Lts.Path (Faithful quad) State.boot p := by
  let s₁ := (request quad (pausePair .thermal 0 1) State.boot).1
  let s₂ := (request quad (pausePair .coreCtl 0 2) s₁).1
  have hp : Lts.Path (RequestStep quad) State.boot
      [(pausePair .thermal 0 1, s₁), (pausePair .coreCtl 0 2, s₂)] := ⟨rfl, rfl, trivial⟩
  refine ⟨_, hp, rfl, (masks_follow_votes quad _ hp).mpr ⟨?_, ?_, trivial⟩⟩
  · intro _ _ _ hfresh
    exact absurd hfresh.1 (by decide)
  · intro _ _ _ _ cpu hcpu hfresh
    have hcases : cpu = 0 ∨ cpu = 1 := by simp only [quad] at hcpu; omega
    rcases hcases with rfl | rfl
    · exact absurd hfresh.2 (by decide)
    · exact absurd hfresh.1 (by decide)

/-- A pause of CPUs 0 and 2 fails at CPU 2 and leaves CPU 0 halted with nobody to release it. -/
theorem failed_pause_leaks : (request quad (pausePair .thermal 0 2) State.boot).2 = -EINVAL ∧
      (request quad (pausePair .thermal 0 2) State.boot).1.mask .halt 0 = true ∧
      (request quad (pausePair .thermal 0 2) State.boot).1.votes .halt 0 = 0 := by
  refine ⟨by decide, by decide, by decide⟩

end Sm8850.Walt.Halt
