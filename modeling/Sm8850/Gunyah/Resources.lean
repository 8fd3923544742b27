import Sm8850.Lib.Ledger

/-! The resources of a Gunyah VM: the capability tables and the calls of the resource manager driver
that fill and empty them (`gh_rm_core.c`, with the tables of `gh_msgq.c`, `gh_dbl.c` and the proxy
scheduler of `gh_proxy_sched.c`). -/
namespace Sm8850.Gunyah
open Function

/-- `GH_RM_RES_TYPE_*`. -/
inductive ResType
  | dbTx
  | dbRx
  | mqTx
  | mqRx
  | vcpu
  | vpmGrp
  | virtioMmio
  | watchdog
  | unknown
  deriving DecidableEq, Repr

inductive Dir
  | tx
  | rx
  deriving DecidableEq, Repr

abbrev Label := BitVec 32
abbrev CapId := BitVec 64

def EINVAL : Int := 22
def ENXIO : Int := 6

/-- What the kernel answers to the calls made for one entry, after the retries on `-EAGAIN`. -/
structure Fate where
  /-- `request_irq`, `request_threaded_irq` -/
  request : Int
  /-- `gh_msgq_alloc_entry` -/
  alloc : Int
  /-- the checks of `gh_populate_vm_vcpu_info` and its `request_irq` -/
  vcpuSet : Int
  /-- `wakeup_source_register` -/
  wakeup : Bool
  /-- the VM lookup of `gh_wdog_manage` -/
  wdog : Int
  /-- `gh_virtio_mmio_fn` -/
  virtio : Int

/-- `struct gh_vm_get_hyp_res_resp_entry`. -/
structure Entry where
  type : ResType
  label : Label
  capId : CapId
  virqHandle : BitVec 32
  virq : BitVec 32
  fate : Fate

/-- The configuration, the interrupt domain and the registered callbacks. -/
structure Env where
  /-- `GUNYAH_QCOM_MIN_MSGQ` -/
  minMsgq : Nat
  /-- `GUNYAH_QCOM_MIN_BELL`, which is also `GH_DBL_TUI_LABEL` -/
  minBell : Nat
  /-- `GH_DBL_LABEL_MAX` -/
  dblMax : Nat
  /-- `gh_rm_core_skip_irq_cleanup` -/
  skipIrqCleanup : Bool
  virqToIrq : BitVec 32 → Int
  /-- the callbacks of the proxy scheduler are registered -/
  proxyCb : Bool
  /-- `is_vm_supports_proxy` -/
  supportsProxy : Bool
  /-- `gh_virtio_mmio_fn` is registered -/
  virtioCb : Bool

/-- The capability tables. In `msgq` a queue is listed or not, and a direction of it has both a
capability and an IRQ or neither; a doorbell can have an IRQ without a capability. -/
structure Tables where
  msgq : Label → Option (Dir → Option (CapId × Int))
  dblTx : Label → Option CapId
  dblRx : Label → Option CapId
  dblIrq : Label → Int
  /-- capability and IRQ of the vCPUs of the VM, in the order in which they were populated -/
  vcpus : List (CapId × Int)
  vpmGrp : Option Int
  wdog : Option CapId

/-- The tables, the ledger of the IRQs by position of the entry, and the entries that have stored a
capability. -/
structure St where
  t : Tables
  log : List (Ledger.Event Nat Int)
  populated : List Entry

/-- `is_valid_dbl_msgq`. -/
def isValidDblMsgq (env : Env) (e : Entry) : Bool :=
  if (e.type = .mqTx ∨ e.type = .mqRx) ∧ e.label.toNat < env.minMsgq then false
  else if (e.type = .dbTx ∨ e.type = .dbRx) ∧ e.label.toNat < env.minBell then false
  else true

/-- `gh_rm_get_irq`. -/
def getIrq (env : Env) (e : Entry) : Int :=
  if (e.virqHandle = 0 ∧ e.virq = 0) ∨ e.virq = BitVec.allOnes 32 then 0 else env.virqToIrq e.virq

/-- The IRQ of entry `i` is mapped; 0 stands for no IRQ. -/
def obtainIrq (i : Nat) (irq : Int) (s : St) : St :=
  if 0 < irq then { s with log := s.log ++ [.get i irq] } else s

/-- `gh_rm_put_irq`; `gh_put_irq` refuses 0. -/
def putIrq (env : Env) (i : Nat) (irq : Int) (s : St) : St :=
  if env.skipIrqCleanup then s
  else if 0 < irq then { s with log := s.log ++ [.put i irq] } else s

/-- IRQ 0 has no descriptor. -/
def requestIrq (e : Entry) (irq : Int) : Int :=
  if irq = 0 then -EINVAL else e.fate.request

/-- The second half of `gh_msgq_populate_cap_info`: where the IRQ is refused, the queue is taken off
the list whatever it holds. -/
def msgqRequest (t : Tables) (e : Entry) (dir : Dir) (irq : Int) (q : Dir → Option (CapId × Int)) : Tables × Int :=
  if requestIrq e irq < 0 then
    ({ t with msgq := update t.msgq e.label none }, requestIrq e irq)
  else
    ({ t with msgq := update t.msgq e.label (some (update q dir (some (e.capId, irq)))) }, 0)

def msgqPopulateCapInfo (env : Env) (t : Tables) (e : Entry) (dir : Dir) (irq : Int) : Tables × Int :=
  if e.label.toInt < env.minMsgq then (t, -EINVAL)
  else if irq < 0 then (t, - ENXIO)
  else
    match t.msgq e.label with
    | some q => if (q dir).isSome then (t, -EINVAL) else msgqRequest t e dir irq q
    | none => if e.fate.alloc < 0 then (t, e.fate.alloc) else msgqRequest t e dir irq (fun _ => none)

def msgqResetCapInfo (t : Tables) (e : Entry) (dir : Dir) (irq : Int) : Tables × Int × Int :=
  if e.label.toInt < 0 then (t, irq, -EINVAL)
  else
    match t.msgq e.label with
    | none => (t, irq, -EINVAL)
    | some q =>
      match q dir with
      | none => (t, irq, - ENXIO)
      | some (_, old) =>
        ({ t with msgq := update t.msgq e.label (some (update q dir none)) }, old, 0)

def dblLabelOk (env : Env) (e : Entry) : Prop :=
  env.minBell ≤ e.label.toNat ∧ e.label.toNat < env.dblMax

instance (env : Env) (e : Entry) : Decidable (dblLabelOk env e) := inferInstanceAs (Decidable (_ ∧ _))

def dblPopulateCapInfo (env : Env) (t : Tables) (e : Entry) (dir : Dir) (irq : Int) : Tables × Int :=
  if ¬ dblLabelOk env e then (t, -EINVAL)
  else
    match dir with
    | .tx =>
      if 0 < irq then (t, - ENXIO)
      else ({ t with dblTx := update t.dblTx e.label (some e.capId) }, 0)
    | .rx =>
      if irq ≤ 0 then (t, - ENXIO)
      else
        -- the IRQ is noted before it is requested, and stays noted where it is refused
        let t := { t with dblIrq := update t.dblIrq e.label irq }
        if e.fate.request < 0 then (t, e.fate.request)
        else ({ t with dblRx := update t.dblRx e.label (some e.capId) }, e.fate.request)

def dblResetCapInfo (env : Env) (t : Tables) (e : Entry) (dir : Dir) (irq : Int) : Tables × Int × Int :=
  if ¬ dblLabelOk env e then (t, irq, -EINVAL)
  else
    match dir with
    | .tx => ({ t with dblTx := update t.dblTx e.label none }, 0, 0)
    | .rx =>
      if t.dblIrq e.label = 0 then (t, irq, - ENXIO)
      else
        ({ t with
            dblIrq := update t.dblIrq e.label 0
            dblRx := update t.dblRx e.label none }, t.dblIrq e.label, 0)

/-- The first vCPU with the capability gives up its IRQ; it stays in the table with `U32_MAX`. -/
def vcpuRelease (cap : CapId) : List (CapId × Int) → List (CapId × Int)
  | [] => []
  | v :: l => if v.1 = cap then (v.1, -1) :: l else v :: vcpuRelease cap l

/-- `gh_unpopulate_vm_vcpu_info`. -/
def vcpuAffinityReset (env : Env) (t : Tables) (e : Entry) (irq : Int) : Tables × Int × Int :=
  if !env.supportsProxy then (t, irq, 0)
  else
    match t.vcpus.find? (fun v => v.1 = e.capId) with
    | none => (t, irq, 0)
    | some v => ({ t with vcpus := vcpuRelease e.capId t.vcpus }, v.2, 0)

/-- `gh_populate_vm_vpm_grp_info`. -/
def vpmGrpSet (env : Env) (t : Tables) (e : Entry) (irq : Int) : Tables × Int :=
  if !env.supportsProxy then (t, 0)
  else if t.vpmGrp.isSome then (t, 0)
  else if requestIrq e irq < 0 then (t, requestIrq e irq)
  else ({ t with vpmGrp := some irq }, requestIrq e irq)

/-- `gh_unpopulate_vm_vpm_grp_info`. -/
def vpmGrpReset (env : Env) (t : Tables) (irq : Int) : Tables × Int × Int :=
  if !env.supportsProxy then (t, irq, 0)
  else
    match t.vpmGrp with
    | none => (t, irq, 0)
    | some old => ({ t with vpmGrp := none }, old, 0)

/-- `gh_wdog_manage`. -/
def wdogManage (env : Env) (t : Tables) (e : Entry) (populate : Bool) : Tables × Int :=
  if !env.supportsProxy then (t, -EINVAL)
  else if e.fate.wdog < 0 then (t, e.fate.wdog)
  else ({ t with wdog := if populate then some e.capId else none }, 0)

/-- `gh_populate_all_res_info` when the resources are gone: `gh_reset_vm`. -/
def allResUnpopulated (env : Env) (s : St) : St :=
  if env.proxyCb && env.supportsProxy then { s with t := { s.t with vcpus := [], vpmGrp := none } } else s

/-- The vCPU of the entry gets a record in the table. -/
def Entry.recorded (env : Env) (e : Entry) : Prop :=
  e.type = .vcpu ∧ env.proxyCb = true ∧ env.supportsProxy = true ∧ getIrq env e ≠ 0 ∧ e.fate.wakeup = true

instance (env : Env) (e : Entry) : Decidable (e.recorded env) :=
  inferInstanceAs (Decidable (_ ∧ _ ∧ _ ∧ _ ∧ _))

/-- The entry stores a capability in the second loop when its step succeeds. -/
def Entry.stores (env : Env) (e : Entry) : Bool :=
  match e.type with
  | .dbTx | .dbRx | .mqTx | .mqRx => true
  | .vpmGrp => env.proxyCb && env.supportsProxy
  | .watchdog => env.proxyCb
  | .vcpu | .virtioMmio | .unknown => false

/-- The `switch` of the second loop; `ret` still holds the IRQ where no function is called. -/
def populateEntry (env : Env) (t : Tables) (e : Entry) (irq : Int) : Tables × Int :=
  match e.type with
  | .mqTx => msgqPopulateCapInfo env t e .tx irq
  | .mqRx => msgqPopulateCapInfo env t e .rx irq
  | .vcpu => (t, irq)
  | .dbTx => dblPopulateCapInfo env t e .tx irq
  | .dbRx => dblPopulateCapInfo env t e .rx irq
  | .vpmGrp => if env.proxyCb then vpmGrpSet env t e irq else (t, irq)
  | .virtioMmio => if env.virtioCb then (t, e.fate.virtio) else (t, irq)
  | .watchdog => if env.proxyCb then wdogManage env t e true else (t, irq)
  | .unknown => (t, -EINVAL)

/-- The `switch` of the unpopulate loops: tables, the shared variable `irq` and `ret`. The loop of
`gh_rm_unpopulate_target_hyp_res` leaves the vCPUs for later. -/
def resetEntry (env : Env) (later : Bool) (t : Tables) (e : Entry) (irq ret : Int) : Tables × Int × Int :=
  match e.type with
  | .mqTx => msgqResetCapInfo t e .tx irq
  | .mqRx => msgqResetCapInfo t e .rx irq
  | .dbTx => dblResetCapInfo env t e .tx irq
  | .dbRx => dblResetCapInfo env t e .rx irq
  | .vcpu => if env.proxyCb && !later then vcpuAffinityReset env t e irq else (t, irq, ret)
  | .virtioMmio => (t, irq, ret)
  | .vpmGrp => if env.proxyCb then vpmGrpReset env t irq else (t, irq, ret)
  | .watchdog =>
    if env.proxyCb then
      let (t, ret) := wdogManage env t e false
      (t, irq, ret)
    else (t, irq, ret)
  | .unknown => (t, irq, -EINVAL)

/-- A VM that holds nothing yet; the message queues and doorbells may have other users. -/
def Tables.fresh (t : Tables) : Tables := { t with vcpus := [], vpmGrp := none, wdog := none }

def St.start (t : Tables) : St := ⟨t.fresh, [], []⟩

end Sm8850.Gunyah
