import Mathlib.Data.List.Basic
import Mathlib.Data.Nat.Bitwise

/-! Active-only transfers of an RSC (drivers/soc/qcom/rpmh-rsc.c): the trigger command sets (TCSes),
the claim of one for a message, its trigger, and the interrupt that completes it. -/
namespace Sm8850.Rpmh
open List Function

/-- `struct tcs_cmd`. -/
structure Cmd where
  addr : Nat
  data : Nat
  deriving DecidableEq, Repr

inductive TcsType where
  | active
  | sleep
  | wake
  deriving DecidableEq, Repr

/-- Where the TCSes of a `struct tcs_group` are. -/
structure Group where
  offset : Nat
  num : Nat

def Group.Has (g : Group) (i : Nat) : Prop := g.offset ≤ i ∧ i < g.offset + g.num

instance (g : Group) (i : Nat) : Decidable (g.Has i) := inferInstanceAs (Decidable (_ ∧ _))

/-- The TCSes of an RSC: their number of commands, and the groups of its channels, which have no
TCS in common. -/
structure Config where
  channels : Nat
  ncpt : Nat
  group : Fin channels → TcsType → Group
  ncpt_pos : 0 < ncpt
  apart : ∀ c t c' t' i, (group c t).Has i → (group c' t').Has i → c = c' ∧ t = t'

/-- A transfer that hardware is still processing: the commands it was triggered with, and those
that have not reached their resource. -/
structure Job where
  cmds : List Cmd
  left : List Cmd

/-- The registers of the TCSes, and what the driver and the hardware know about them. `handling` is
the time in the interrupt handler between the writes to the registers and the release of the TCS. -/
structure Rsc where
  enable : Nat → Nat → Bool
  cmd : Nat → Nat → Cmd
  irqEnable : Nat → Bool
  irqStatus : Nat → Bool
  inUse : Nat → Bool
  handling : Nat → Bool
  job : Nat → Option Job

/-- A message to send, which fits into one TCS. -/
structure Msg (cfg : Config) where
  cmds : List Cmd
  waitForCompl : Bool
  nonempty : cmds ≠ []
  fits : cmds.length ≤ cfg.ncpt

/-! ### Resource addresses -/

def slaveId (addr : Nat) : Nat := addr / 2 ^ 16 % 2 ^ 4

def vrmAddr (addr : Nat) : Nat := addr / 2 ^ 4 % 2 ^ 16

def cmdDbHwVrm : Nat := 4

def cmdDbMatchResourceAddr (addr₁ addr₂ : Nat) : Bool :=
  if addr₁ = addr₂ then true
  else slaveId addr₁ = cmdDbHwVrm && vrmAddr addr₁ = vrmAddr addr₂

/-! ### Registers -/

/-- The loop of `__tcs_buffer_write`. -/
def writeCmds (cmd : Nat → Cmd) : Nat → List Cmd → Nat → Cmd
  | _, [] => cmd
  | j, c :: cs => writeCmds (update cmd j c) (j + 1) cs

def tcsBufferWrite (s : Rsc) (i j : Nat) (cmds : List Cmd) : Rsc :=
  { s with
    cmd := update s.cmd i (writeCmds (s.cmd i) j cmds)
    enable := update s.enable i (fun k => s.enable i k || (decide (j ≤ k) && decide (k < j + cmds.length))) }

/-- The commands that are enabled in a TCS. -/
def enabledCmds (cfg : Config) (s : Rsc) (i : Nat) : List Cmd :=
  (range cfg.ncpt).filterMap (fun j => if s.enable i j then some (s.cmd i j) else none)

section
variable (cfg : Config) (s : Rsc)

/-- `get_tcs_for_msg` of an active-only message: without TCSes of its own it borrows those of the
wake set. -/
def activeType (ch : Fin cfg.channels) : TcsType := if (cfg.group ch .active).num = 0 then .wake else .active

def activeGroup (ch : Fin cfg.channels) : Group := cfg.group ch (activeType cfg ch)

def checkForReqInflight (g : Group) (cmds : List Cmd) : Bool :=
  (range' g.offset g.num).any fun i => s.inUse i && (range cfg.ncpt).any fun j =>
    s.enable i j && cmds.any fun c => cmdDbMatchResourceAddr c.addr (s.cmd i j).addr

/-- The first TCS that is not in use, if it is idle. -/
def findFreeTcs (g : Group) : Option Nat :=
  match (range' g.offset g.num).find? (fun i => !s.inUse i) with
  | none => none
  | some i => if (s.job i).isNone then some i else none

def claimTcsForReq (g : Group) (cmds : List Cmd) : Option Nat :=
  if checkForReqInflight cfg s g cmds then none else findFreeTcs s g

/-- The part of `rpmh_rsc_send_data` behind the claim of a TCS. -/
def sendData (ch : Fin cfg.channels) (msg : Msg cfg) (i : Nat) : Rsc :=
  let s := { s with inUse := update s.inUse i true }
  let s := { s with enable := update s.enable i (fun _ => false) }
  let s := { s with irqEnable := update s.irqEnable i (msg.waitForCompl || activeType cfg ch != .active) }
  let s := tcsBufferWrite s i 0 msg.cmds
  let s := { s with job := update s.job i (some ⟨enabledCmds cfg s i, enabledCmds cfg s i⟩) }
  if msg.waitForCompl then s else { s with inUse := update s.inUse i false }

end

/-! ### What happens to the TCSes -/

/-- A message is sent, a TCS passes its next command on or is done, and the interrupt handler
reclaims a TCS in two parts. -/
inductive Act (cfg : Config) where
  | send (ch : Fin cfg.channels) (msg : Msg cfg)
  | deliver (i : Nat)
  | finish (i : Nat)
  | reclaim (i : Nat)
  | release (i : Nat)

/-- The transfer on a TCS belongs to a wake TCS that has been borrowed. -/
def borrowed (cfg : Config) (i : Nat) : Bool :=
  decide (∃ ch, activeType cfg ch = .wake ∧ (cfg.group ch .wake).Has i)

section
variable (s : Rsc) (i : Nat)

def deliverCmd (cmds cs : List Cmd) : Rsc := { s with job := update s.job i (some ⟨cmds, cs⟩) }

/-- The last command of a transfer has been passed on. -/
def finishJob : Rsc :=
  { s with
    job := update s.job i none
    irqStatus := update s.irqStatus i (s.irqStatus i || s.irqEnable i) }

/-- The first part of `tcs_tx_done`, which also untriggers a borrowed TCS. -/
def reclaimTcs : Rsc :=
  { s with
    enable := update s.enable i (fun _ => false)
    irqStatus := update s.irqStatus i false
    handling := update s.handling i true }

/-- The second part, under the lock. The interrupt of a borrowed TCS is disabled. -/
def releaseTcs (cfg : Config) : Rsc :=
  { s with
    inUse := update s.inUse i false
    irqEnable := update s.irqEnable i (s.irqEnable i && !borrowed cfg i)
    handling := update s.handling i false }

end

inductive Step (cfg : Config) : Rsc → Act cfg → Rsc → Prop
  | send {s : Rsc} {ch : Fin cfg.channels} {msg : Msg cfg} {i : Nat}
      (hclaim : claimTcsForReq cfg s (activeGroup cfg ch) msg.cmds = some i) :
      Step cfg s (.send ch msg) (sendData cfg s ch msg i)
  | deliver {s : Rsc} {i : Nat} {cmds : List Cmd} {c : Cmd} {cs : List Cmd} (hjob : s.job i = some ⟨cmds, c :: cs⟩) :
      Step cfg s (.deliver i) (deliverCmd s i cmds cs)
  | finish {s : Rsc} {i : Nat} {cmds : List Cmd} (hjob : s.job i = some ⟨cmds, []⟩) : Step cfg s (.finish i) (finishJob s i)
  | reclaim {s : Rsc} {i : Nat} (hirq : s.irqStatus i = true) : Step cfg s (.reclaim i) (reclaimTcs s i)
  | release {s : Rsc} {i : Nat} (hhandling : s.handling i = true) : Step cfg s (.release i) (releaseTcs s i cfg)

/-- Before the first message. -/
def Rsc.initial : Rsc where
  enable _ _ := false
  cmd _ _ := ⟨0, 0⟩
  irqEnable _ := false
  irqStatus _ := false
  inUse _ := false
  handling _ := false
  job _ := none

/-! ### Lemmas -/

section
variable {cfg : Config} {s t : Rsc} {i j k : Nat} {cmds : List Cmd} {c : Cmd} {g : Group} {ch : Fin cfg.channels} {msg : Msg cfg}

theorem match_iff {a b : Nat} : cmdDbMatchResourceAddr a b ↔
    a = b ∨ slaveId a = cmdDbHwVrm ∧ vrmAddr a = vrmAddr b := by
  unfold cmdDbMatchResourceAddr
  by_cases h : a = b
  · simp [h]
  · simp [h]

theorem slaveId_of_vrmAddr {a b : Nat} (h : vrmAddr a = vrmAddr b) : slaveId a = slaveId b := by
  unfold vrmAddr at h
  unfold slaveId
  omega

theorem match_comm {a b : Nat} : cmdDbMatchResourceAddr a b ↔ cmdDbMatchResourceAddr b a := by
  have key : ∀ a b, cmdDbMatchResourceAddr a b → cmdDbMatchResourceAddr b a := by
    intro a b h
    rw [match_iff] at h ⊢
    rcases h with rfl | ⟨hs, hv⟩
    · exact .inl rfl
    · exact .inr ⟨slaveId_of_vrmAddr hv ▸ hs, hv.symm⟩
  exact ⟨key a b, key b a⟩

theorem match_trans {a b d : Nat} (hab : cmdDbMatchResourceAddr a b) (hbd : cmdDbMatchResourceAddr b d) :
    cmdDbMatchResourceAddr a d := by
  rw [match_iff] at hab hbd ⊢
  rcases hab with rfl | ⟨hs, hv⟩
  · exact hbd
  · rcases hbd with rfl | ⟨-, hv'⟩
    · exact .inr ⟨hs, hv⟩
    · exact .inr ⟨hs, hv.trans hv'⟩

theorem writeCmds_before {f : Nat → Cmd} (h : k < j) : writeCmds f j cmds k = f k := by
  induction cmds generalizing f j with
  | nil => rfl
  | cons c cmds ih =>
    rw [writeCmds, ih (by omega)]
    exact update_of_ne (by omega) ..

theorem writeCmds_at {f : Nat → Cmd} (h : k < cmds.length) : writeCmds f j cmds (j + k) = cmds[k] := by
  induction cmds generalizing f j k with
  | nil => cases h
  | cons c cmds ih =>
    rw [writeCmds]
    cases k with
    | zero =>
      rw [writeCmds_before (by omega)]
      exact update_self ..
    | succ k =>
      have hk : k < cmds.length := by simpa using h
      have hidx : j + (k + 1) = j + 1 + k := by omega
      rw [hidx, ih hk]
      rfl

theorem filterMap_range_getElem? {α : Type} {l : List α} {n : Nat} (h : l.length ≤ n) :
    (range n).filterMap (fun k => l[k]?) = l := by
  induction l generalizing n with
  | nil =>
    rw [filterMap_eq_nil_iff]
    intro k _
    rfl
  | cons a l ih =>
    obtain ⟨m, rfl⟩ : ∃ m, n = m + 1 := ⟨n - 1, by rw [length_cons] at h; omega⟩
    have hm : l.length ≤ m := by simpa using h
    rw [range_succ_eq_map, filterMap_cons, filterMap_map]
    exact congrArg (a :: ·) (ih hm)

/-- A message written to a TCS without enabled commands is what is enabled there. -/
theorem enabledCmds_write (hclear : ∀ k, s.enable i k = false) (hfits : cmds.length ≤ cfg.ncpt) :
    enabledCmds cfg (tcsBufferWrite s i 0 cmds) i = cmds := by
  refine Eq.trans (filterMap_congr fun k _ => ?_) (filterMap_range_getElem? hfits)
  have henable : (tcsBufferWrite s i 0 cmds).enable i k = decide (k < cmds.length) := by
    simp [tcsBufferWrite, hclear]
  rw [henable]
  by_cases hk : k < cmds.length
  · have hat := writeCmds_at (f := s.cmd i) (j := 0) hk
    rw [zero_add] at hat
    rw [if_pos (by simpa using hk), getElem?_eq_getElem hk, ← hat]
    simp [tcsBufferWrite]
  · rw [if_neg (by simpa using hk), getElem?_eq_none (by omega)]

/-! ### Claiming and sending -/

theorem find_claim (h : claimTcsForReq cfg s g cmds = some i) :
    checkForReqInflight cfg s g cmds = false ∧ g.Has i ∧ s.job i = none := by
  unfold claimTcsForReq at h
  split at h
  · cases h
  · next hcheck =>
    unfold findFreeTcs at h
    split at h
    · cases h
    · next k hk =>
      split at h
      · next hidle =>
        cases h
        have hmem := mem_range'_1.mp (mem_of_find?_eq_some hk)
        exact ⟨by simpa using hcheck, hmem, by simpa using hidle⟩
      · cases h

theorem job_sendData (s : Rsc) (ch : Fin cfg.channels) (msg : Msg cfg) (i : Nat) :
    (sendData cfg s ch msg i).job = update s.job i (some ⟨msg.cmds, msg.cmds⟩) := by
  have hjob : (sendData cfg s ch msg i).job = update s.job i
      (some ⟨enabledCmds cfg (tcsBufferWrite { s with
        inUse := update s.inUse i true
        enable := update s.enable i (fun _ => false)
        irqEnable := update s.irqEnable i (msg.waitForCompl || activeType cfg ch != .active) } i 0 msg.cmds) i,
        enabledCmds cfg (tcsBufferWrite { s with
        inUse := update s.inUse i true
        enable := update s.enable i (fun _ => false)
        irqEnable := update s.irqEnable i (msg.waitForCompl || activeType cfg ch != .active) } i 0 msg.cmds) i⟩) := by
    unfold sendData
    dsimp only
    split <;> rfl
  rw [hjob, enabledCmds_write _ msg.fits]
  intro k
  change update s.enable i (fun _ => false) i k = false
  rw [update_self]

/-- A send changes the registers of the TCS it has claimed. -/
theorem rows_sendData (h : k ≠ i) :
    (sendData cfg s ch msg i).enable k = s.enable k ∧ (sendData cfg s ch msg i).cmd k = s.cmd k := by
  unfold sendData tcsBufferWrite
  dsimp only
  split <;> simp [update_of_ne h]

theorem irqStatus_sendData : (sendData cfg s ch msg i).irqStatus = s.irqStatus := by
  unfold sendData
  dsimp only
  split <;> rfl

theorem handling_sendData : (sendData cfg s ch msg i).handling = s.handling := by
  unfold sendData
  dsimp only
  split <;> rfl

theorem irqEnable_sendData : (sendData cfg s ch msg i).irqEnable =
    update s.irqEnable i (msg.waitForCompl || activeType cfg ch != .active) := by
  unfold sendData
  dsimp only
  split <;> rfl

end

end Sm8850.Rpmh
