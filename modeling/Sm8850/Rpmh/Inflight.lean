import Sm8850.Rpmh.Model
import Sm8850.Lib.Path

/-! Votes for one resource: which sends keep two transfers to it from being under way at once, and
so keep its votes in order. -/
namespace Sm8850.Rpmh
open List Function

/-- An RSC with the commands that have been sent and those that have reached their resource. -/
structure Traced where
  rsc : Rsc
  issued : List Cmd
  reached : List Cmd

def Traced.initial : Traced := ⟨.initial, [], []⟩

variable {cfg : Config}

/-- What a step sends. -/
def issuedBy : Act cfg → List Cmd
  | .send _ msg => msg.cmds
  | _ => []

/-- What reaches its resource in a step. -/
def reachedBy (s : Rsc) : Act cfg → List Cmd
  | .deliver i => (s.job i).elim [] (fun job => job.left.take 1)
  | _ => []

structure TracedStep (cfg : Config) (s : Traced) (a : Act cfg) (t : Traced) : Prop where
  step : Step cfg s.rsc a t.rsc
  issued : t.issued = s.issued ++ issuedBy a
  reached : t.reached = s.reached ++ reachedBy s.rsc a

/-- No two TCSes that hardware is processing have commands to one resource. -/
def NoConflict (s : Rsc) : Prop :=
  ∀ i k a b, i ≠ k → s.job i = some a → s.job k = some b →
    ∀ x ∈ a.cmds, ∀ y ∈ b.cmds, ¬ cmdDbMatchResourceAddr x.addr y.addr = true

/-- The votes for a resource. -/
def votes (r : Nat) (l : List Cmd) : List Cmd := l.filter (fun c => cmdDbMatchResourceAddr r c.addr)

/-- The check for transfers under way sees a command: its TCS is in the group it looks at and in use,
and the command is still enabled there. -/
def Seen (cfg : Config) (s : Rsc) (g : Group) (i : Nat) (x : Cmd) : Prop :=
  g.Has i ∧ s.inUse i = true ∧ ∃ j < cfg.ncpt, s.enable i j = true ∧ s.cmd i j = x

/-- What has been sent to a resource and has not reached it is left in the one transfer to it. -/
structure Accounted (s : Traced) : Prop where
  left : ∀ i job, s.rsc.job i = some job → job.left <:+ job.cmds
  busy : ∀ r i job, s.rsc.job i = some job → (∃ x ∈ job.cmds, cmdDbMatchResourceAddr r x.addr = true) →
    votes r s.issued = votes r s.reached ++ votes r job.left
  idle : ∀ r, (∀ i job, s.rsc.job i = some job → ∀ x ∈ job.cmds, ¬ cmdDbMatchResourceAddr r x.addr = true) →
    votes r s.issued = votes r s.reached

section
variable {r : Nat} {l l' : List Cmd} {c : Cmd}

theorem votes_append : votes r (l ++ l') = votes r l ++ votes r l' := filter_append ..

theorem votes_none (h : ∀ x ∈ l, ¬ cmdDbMatchResourceAddr r x.addr) : votes r l = [] := filter_eq_nil_iff.mpr h

end

section
variable {s t : Traced} {a : Act cfg} {ch : Fin cfg.channels} {msg : Msg cfg} {i : Nat} {run : List (Act cfg × Traced)}

/-! ### Sending -/

/-- The transfer on a TCS starts, or goes on. -/
theorem accounted_set {cmds left : List Cmd} (hnew : t.rsc.job = update s.rsc.job i (some ⟨cmds, left⟩))
    (hold : ∀ job, s.rsc.job i = some job → job.cmds = cmds) (hleft : left <:+ cmds)
    (hmine : ∀ r, (∃ x ∈ cmds, cmdDbMatchResourceAddr r x.addr) → votes r t.issued = votes r t.reached ++ votes r left)
    (hother : ∀ r, (∀ x ∈ cmds, ¬ cmdDbMatchResourceAddr r x.addr) →
      votes r t.issued = votes r s.issued ∧ votes r t.reached = votes r s.reached)
    (hacc : Accounted s) (hno : NoConflict t.rsc) : Accounted t := by
  have hself : t.rsc.job i = some ⟨cmds, left⟩ := by rw [hnew, update_self]
  have hrest : ∀ k, k ≠ i → t.rsc.job k = s.rsc.job k := fun k hk => by rw [hnew, update_of_ne hk]
  refine ⟨fun k job hk => ?_, fun r k job hk hr => ?_, fun r hr => ?_⟩
  · by_cases hki : k = i
    · subst hki
      cases hself.symm.trans hk
      exact hleft
    · exact hacc.left k job ((hrest k hki).symm.trans hk)
  · by_cases hki : k = i
    · subst hki
      cases hself.symm.trans hk
      exact hmine r hr
    · obtain ⟨y, hy, hry⟩ := hr
      obtain ⟨hissued, hreached⟩ := hother r fun x hx hmatch =>
        hno k i job _ hki hk hself y hy x hx (match_trans (match_comm.mp hry) hmatch)
      rw [hissued, hreached]
      exact hacc.busy r k job ((hrest k hki).symm.trans hk) ⟨y, hy, hry⟩
  · obtain ⟨hissued, hreached⟩ := hother r (hr i _ hself)
    rw [hissued, hreached]
    refine hacc.idle r fun k job hk => ?_
    by_cases hki : k = i
    · subst hki
      rw [hold job hk]
      exact hr k _ hself
    · exact hr k job ((hrest k hki).trans hk)

theorem accounted_send (hclaim : claimTcsForReq cfg s.rsc (activeGroup cfg ch) msg.cmds = some i)
    (hrsc : t.rsc = sendData cfg s.rsc ch msg i) (hissued : t.issued = s.issued ++ msg.cmds)
    (hreached : t.reached = s.reached) (hacc : Accounted s) (hno : NoConflict t.rsc) : Accounted t := by
  obtain ⟨-, -, hidle⟩ := find_claim hclaim
  have hjob : t.rsc.job = update s.rsc.job i (some ⟨msg.cmds, msg.cmds⟩) := by rw [hrsc, job_sendData]
  refine accounted_set hjob (fun job hk => ?_) suffix_rfl (fun r hr => ?_) (fun r hr => ?_) hacc hno
  · cases hidle.symm.trans hk
  · rw [hissued, hreached, votes_append]
    -- the message is the only transfer to the resource
    rw [hacc.idle r fun l b hb x hx hmatch => ?_]
    obtain ⟨y, hy, hry⟩ := hr
    have hl : l ≠ i := by
      rintro rfl
      cases hidle.symm.trans hb
    refine hno i l ⟨msg.cmds, msg.cmds⟩ b hl.symm ?_ ?_ y hy x hx (match_trans (match_comm.mp hry) hmatch)
    · rw [hjob, update_self]
    · rwa [hjob, update_of_ne hl]
  · rw [hissued, hreached, votes_append, votes_none hr, append_nil]
    exact ⟨rfl, rfl⟩

theorem accounted_deliver {cmds cs : List Cmd} {c : Cmd} (hjob : s.rsc.job i = some ⟨cmds, c :: cs⟩)
    (hnew : t.rsc.job = update s.rsc.job i (some ⟨cmds, cs⟩)) (hissued : t.issued = s.issued)
    (hreached : t.reached = s.reached ++ [c]) (hacc : Accounted s) (hno : NoConflict t.rsc) : Accounted t := by
  have hsuffix := hacc.left i _ hjob
  refine accounted_set hnew (fun job hk => ?_) ((suffix_cons c cs).trans hsuffix) (fun r hr => ?_) (fun r hr => ?_) hacc hno
  · cases hjob.symm.trans hk
    rfl
  · have hleft : votes r (c :: cs) = votes r [c] ++ votes r cs := votes_append (l := [c])
    rw [hissued, hreached, votes_append, hacc.busy r i _ hjob hr, append_assoc, ← hleft]
  · have hnone : votes r [c] = [] := by
      refine votes_none fun x hx => ?_
      obtain rfl := mem_singleton.mp hx
      exact hr x (hsuffix.mem mem_cons_self)
    rw [hissued, hreached, votes_append, hnone, append_nil]
    exact ⟨rfl, rfl⟩

theorem accounted_finish {cmds : List Cmd} (hjob : s.rsc.job i = some ⟨cmds, []⟩)
    (hnew : t.rsc.job = update s.rsc.job i none) (hissued : t.issued = s.issued)
    (hreached : t.reached = s.reached) (hacc : Accounted s) : Accounted t := by
  have hold : ∀ k job, t.rsc.job k = some job → s.rsc.job k = some job := by
    intro k job hk
    by_cases hki : k = i
    · subst hki
      rw [hnew, update_self] at hk
      cases hk
    · rwa [hnew, update_of_ne hki] at hk
  refine ⟨fun k job hk => hacc.left k job (hold k job hk), fun r k job hk hr => ?_, fun r hr => ?_⟩
  · rw [hissued, hreached]
    exact hacc.busy r k job (hold k job hk) hr
  · rw [hissued, hreached]
    by_cases hmine : ∃ x ∈ cmds, cmdDbMatchResourceAddr r x.addr
    · exact (hacc.busy r i _ hjob hmine).trans (append_nil _)
    · refine hacc.idle r fun k job hk x hx hmatch => ?_
      by_cases hki : k = i
      · subst hki
        cases hjob.symm.trans hk
        exact hmine ⟨x, hx, hmatch⟩
      · have hk' : t.rsc.job k = some job := by rwa [hnew, update_of_ne hki]
        exact hr k job hk' x hx hmatch

theorem Accounted.congr (hacc : Accounted s) (hjob : t.rsc.job = s.rsc.job) (hissued : t.issued = s.issued)
    (hreached : t.reached = s.reached) : Accounted t := by
  refine ⟨?_, ?_, ?_⟩
  · rw [hjob]
    exact hacc.left
  · rw [hjob, hissued, hreached]
    exact hacc.busy
  · rw [hjob, hissued, hreached]
    exact hacc.idle

theorem accounted_step (h : TracedStep cfg s a t) (hacc : Accounted s) (ht : NoConflict t.rsc) : Accounted t := by
  obtain ⟨hstep, hissued, hreached⟩ := h
  obtain ⟨rsc, issued, reached⟩ := t
  dsimp only at hstep hissued hreached
  cases hstep with
  | send hclaim => exact accounted_send hclaim rfl hissued (hreached.trans (append_nil _)) hacc ht
  | @deliver i cmds c cs hjob =>
    refine accounted_deliver hjob rfl (hissued.trans (append_nil _)) ?_ hacc ht
    refine hreached.trans (congrArg (s.reached ++ ·) ?_)
    simp [reachedBy, hjob]
  | finish hjob =>
    exact accounted_finish hjob rfl (hissued.trans (append_nil _)) (hreached.trans (append_nil _)) hacc
  | reclaim hirq =>
    exact hacc.congr rfl (hissued.trans (append_nil _)) (hreached.trans (append_nil _))
  | release hhandling =>
    exact hacc.congr rfl (hissued.trans (append_nil _)) (hreached.trans (append_nil _))

theorem accounted_initial : Accounted .initial := by
  refine ⟨fun i job h => ?_, fun r i job h => ?_, fun r _ => rfl⟩ <;> cases h

end

/-! ### An RSC with two active TCSes -/

section

end

end Sm8850.Rpmh
