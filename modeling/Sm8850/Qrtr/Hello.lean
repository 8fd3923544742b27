import Sm8850.Lib.Path
import Sm8850.Qrtr.SendPath

/-! The HELLO of a node in net/qrtr/af_qrtr.c: the lock-protected steps of any number of calls of
`qrtr_node_enqueue`, and the work item that says HELLO. -/
namespace Sm8850.Qrtr.Hello
open List Function Prod Lts

/-- A packet that was handed to the endpoint's xmit, and whether it was transmitted. -/
structure Handed where
  type : Nat
  ok : Bool
  deriving DecidableEq

/-- Where a call stands: past the check of `hello_sent`, or with its packet not transmitted. -/
inductive Pc
  | idle
  | passed (type : Nat)
  | failed (type : Nat)
  | done
  deriving DecidableEq

/-- The node, with what was handed to its endpoint so far. -/
structure State where
  ep : Bool
  helloSent : Int
  sayHello : Bool
  handed : List Handed
  pc : Nat → Pc

/-- A node that was just registered. -/
def init (ep : Bool) : State := ⟨ep, 0, true, [], fun _ => .idle⟩

def State.setPc (s : State) (i : Nat) (p : Pc) : State := { s with pc := update s.pc i p }

/-- The first part of `qrtr_node_enqueue` under ep_lock. -/
def enter (s : State) (i type : Nat) : State :=
  if s.helloSent = 0 ∧ type ≠ typeHello then s.setPc i .done
  else if s.helloSent ≠ 0 ∧ type = typeHello then s.setPc i .done
  else if s.helloSent = 0 ∧ type = typeHello then
    { s.setPc i (.passed type) with helloSent := s.helloSent + 1 }
  else s.setPc i (.passed type)

/-- The second part under ep_lock; `ok` is the result of the endpoint's xmit. -/
def xmit (s : State) (i type : Nat) (ok : Bool) : State :=
  if s.ep then
    { s.setPc i (if ok then .done else .failed type) with handed := s.handed ++ [⟨type, ok⟩] }
  else s.setPc i (.failed type)

/-- A HELLO that was not transmitted is taken back, and is said again by the work item. -/
def takeBack (s : State) (i type : Nat) : State :=
  if type = typeHello then
    { s.setPc i .done with helloSent := s.helloSent - 1, sayHello := true }
  else s.setPc i .done

inductive Action
  | call (i type : Nat)
  | giveUp (i : Nat)
  | noRoom (i : Nat)
  | xmit (i : Nat) (ok : Bool)
  | takeBack (i : Nat)
  | helloWork (i : Nat) (ready : Bool)

/-- One step; none if the action is not possible. `qrtr_tx_wait` gives up on DATA only, padding
may find no room, and the work item needs the control port and a buffer. -/
def step (s : State) : Action → Option State
  | .call i type => if s.pc i = .idle then some (enter s i type) else none
  | .giveUp i =>
    match s.pc i with
    | .passed type => if type = typeData then some (s.setPc i .done) else none
    | _ => none
  | .noRoom i =>
    match s.pc i with
    | .passed type => some (s.setPc i (.failed type))
    | _ => none
  | .xmit i ok =>
    match s.pc i with
    | .passed type => some (xmit s i type ok)
    | _ => none
  | .takeBack i =>
    match s.pc i with
    | .failed type => some (takeBack s i type)
    | _ => none
  | .helloWork i ready =>
    if s.sayHello ∧ s.pc i = .idle then
      if ready then some (enter { s with sayHello := false } i typeHello)
      else some { s with sayHello := false }
    else none

def Step (s : State) (a : Action) (t : State) : Prop := step s a = some t

variable {s t : State} {a : Action} {i j type : Nat} {h : List Handed} {e : Handed}

section

/-- Every other packet is handed over behind a HELLO, and behind a HELLO that failed only once a
later HELLO has succeeded. -/
structure HelloFirst (h : List Handed) : Prop where
  before : ∀ pre e post, h = pre ++ e :: post → e.type ≠ typeHello → ∃ x ∈ pre, x.type = typeHello
  again : ∀ pre x mid e post, h = pre ++ x :: (mid ++ e :: post) → x.type = typeHello → x.ok = false →
    e.type ≠ typeHello → ∃ y ∈ mid, y.type = typeHello ∧ y.ok = true

/-- The result of the last HELLO that was handed over. -/
def lastHello (h : List Handed) : Option Bool :=
  h.foldl (fun r e => if e.type = typeHello then some e.ok else r) none

theorem lastHello_append (h : List Handed) (e : Handed) :
    lastHello (h ++ [e]) = if e.type = typeHello then some e.ok else lastHello h := by
  simp [lastHello]

theorem lastHello_eq_some {b : Bool} (hb : lastHello h = some b) :
    ∃ pre x post, h = pre ++ x :: post ∧ x.type = typeHello ∧ x.ok = b ∧ ∀ y ∈ post, y.type ≠ typeHello := by
  induction h using reverseRecOn with
  | nil => cases hb
  | append_singleton h e ih =>
    rw [lastHello_append] at hb
    split at hb
    · rename_i htype
      exact ⟨h, e, [], rfl, htype, Option.some.inj hb, nofun⟩
    · rename_i htype
      obtain ⟨pre, x, post, rfl, hx, hok, hpost⟩ := ih hb
      refine ⟨pre, x, post ++ [e], by simp, hx, hok, fun y hy => ?_⟩
      rcases mem_append.mp hy with hy | hy
      · exact hpost y hy
      · rw [mem_singleton.mp hy]
        exact htype

theorem lastHello_isSome {x : Handed} (hx : x ∈ h) (htype : x.type = typeHello) : ∃ b, lastHello h = some b := by
  induction h using reverseRecOn with
  | nil => cases hx
  | append_singleton h e ih =>
    rw [lastHello_append]
    split
    · exact ⟨_, rfl⟩
    · rename_i hne
      rcases mem_append.mp hx with hx | hx
      · exact ih hx
      · rw [mem_singleton.mp hx] at htype
        exact absurd htype hne

theorem helloFirst_nil : HelloFirst [] where
  before := by
    intro pre e post heq
    simp at heq
  again := by
    intro pre x mid e post heq
    simp at heq

/-- The last of two lists with something in front of it. -/
theorem append_singleton_cases {l pre post : List Handed} {x y : Handed}
    (heq : l ++ [x] = pre ++ y :: post) : (post = [] ∧ l = pre ∧ x = y) ∨
      ∃ post', post = post' ++ [x] ∧ l = pre ++ y :: post' := by
  rcases eq_nil_or_concat post with rfl | ⟨post', z, rfl⟩
  · obtain ⟨hl, hx⟩ := append_inj' heq rfl
    exact .inl ⟨rfl, hl, head_eq_of_cons_eq hx⟩
  · rw [concat_eq_append, ← cons_append, ← append_assoc] at heq
    obtain ⟨hl, hx⟩ := append_inj' heq rfl
    rw [head_eq_of_cons_eq hx]
    exact .inr ⟨post', concat_eq_append, hl⟩

/-- One packet more keeps the order if it is a HELLO, or the last HELLO succeeded. -/
theorem helloFirst_append : HelloFirst (h ++ [e]) ↔ HelloFirst h ∧ (e.type ≠ typeHello → lastHello h = some true) := by
  constructor
  · intro hfirst
    refine ⟨⟨fun pre x post heq => ?_, fun pre x mid y post heq => ?_⟩, fun htype => ?_⟩
    · exact hfirst.before pre x (post ++ [e]) (by simp [heq])
    · exact hfirst.again pre x mid y (post ++ [e]) (by simp [heq])
    · obtain ⟨x, hx, hxtype⟩ := hfirst.before h e [] rfl htype
      obtain ⟨b, hb⟩ := lastHello_isSome hx hxtype
      cases b with
      | true => exact hb
      | false =>
        obtain ⟨pre, x, post, rfl, hxtype, hok, hpost⟩ := lastHello_eq_some hb
        obtain ⟨y, hy, hytype, -⟩ := hfirst.again pre x post e [] (by simp) hxtype hok htype
        exact absurd hytype (hpost y hy)
  · rintro ⟨hfirst, hlast⟩
    refine ⟨fun pre x post heq htype => ?_, fun pre x mid y post heq hx hok htype => ?_⟩
    · rcases append_singleton_cases heq with ⟨-, rfl, rfl⟩ | ⟨post', -, rfl⟩
      · obtain ⟨a, z, b, rfl, hz, -, -⟩ := lastHello_eq_some (hlast htype)
        exact ⟨z, by simp, hz⟩
      · exact hfirst.before pre x post' rfl htype
    · rw [← cons_append, ← append_assoc] at heq
      rcases append_singleton_cases heq with ⟨-, hpre, rfl⟩ | ⟨post', -, hpre⟩
      · obtain ⟨a, z, b, hab, hz, hzok, hb⟩ := lastHello_eq_some (hlast htype)
        -- the HELLO that succeeded is the last one, so the failed one is in front of it
        rw [hpre] at hab
        rcases append_eq_append_iff.mp hab with ⟨c, hc, hcons⟩ | ⟨c, hc, hcons⟩
        · cases c with
          | nil =>
            have hxz := head_eq_of_cons_eq hcons
            rw [hxz, hzok] at hok
            cases hok
          | cons x' c =>
            obtain ⟨-, hmid⟩ := cons.inj hcons
            exact ⟨z, by simp [hmid], hz, hzok⟩
        · cases c with
          | nil =>
            have hxz := head_eq_of_cons_eq hcons
            rw [← hxz, hzok] at hok
            cases hok
          | cons z' c =>
            obtain ⟨-, hb'⟩ := cons.inj hcons
            exact absurd hx (hb x (by simp [hb']))
      · exact hfirst.again pre x mid y post' (by simp [hpre]) hx hok htype

end

section

/-- The call has set `hello_sent`, and its HELLO has not been transmitted yet. -/
def Pc.Greets (p : Pc) : Prop := p = .passed typeHello ∨ p = .failed typeHello

/-- Other packets are handed over only when `hello_sent` is set and no HELLO is under way. -/
def StepOk (s : State) : Action → Prop
  | .xmit i _ => s.ep = true → ∀ type, s.pc i = .passed type → type ≠ typeHello →
      s.helloSent ≠ 0 ∧ ∀ j, ¬ (s.pc j).Greets
  | _ => True

/-- What a step can do. -/
inductive Effect (s : State) : Action → State → Prop
  | quiet {a : Action} {i : Nat} {p : Pc} {w : Bool} (hold : ¬ (s.pc i).Greets) (hnew : ¬ p.Greets)
      (hok : StepOk s a) : Effect s a { s.setPc i p with sayHello := w }
  | greet {a : Action} {i : Nat} {w : Bool} (hpc : s.pc i = .idle) (hsent : s.helloSent = 0)
      (hok : StepOk s a) :
      Effect s a { s.setPc i (.passed typeHello) with helloSent := 1, sayHello := w }
  | unsent {a : Action} {i : Nat} (hpc : s.pc i = .passed typeHello) (hok : StepOk s a) :
      Effect s a (s.setPc i (.failed typeHello))
  | handOver {i type : Nat} {ok : Bool} (hpc : s.pc i = .passed type) (htype : type ≠ typeHello)
      (hep : s.ep = true) : Effect s (.xmit i ok)
        { s.setPc i (if ok then .done else .failed type) with handed := s.handed ++ [⟨type, ok⟩] }
  | hello {i : Nat} {ok : Bool} (hpc : s.pc i = .passed typeHello) : Effect s (.xmit i ok)
        { s.setPc i (if ok then .done else .failed typeHello) with
          handed := s.handed ++ [⟨typeHello, ok⟩] }
  | takeBack {i : Nat} (hpc : s.pc i = .failed typeHello) : Effect s (.takeBack i)
        { s.setPc i .done with helloSent := s.helloSent - 1, sayHello := true }

theorem greets_passed : (Pc.passed type).Greets ↔ type = typeHello := by simp [Pc.Greets]

theorem greets_failed : (Pc.failed type).Greets ↔ type = typeHello := by simp [Pc.Greets]

theorem not_greets_idle : ¬ Pc.idle.Greets := by simp [Pc.Greets]

theorem not_greets_done : ¬ Pc.done.Greets := by simp [Pc.Greets]

theorem enter_effect {w : Bool} (hpc : s.pc i = .idle) (hok : StepOk s a) :
    Effect s a (enter { s with sayHello := w } i type) := by
  have hold : ¬ (s.pc i).Greets := by
    rw [hpc]
    exact not_greets_idle
  unfold enter
  split
  · exact .quiet hold not_greets_done hok
  split
  · exact .quiet hold not_greets_done hok
  split
  · rename_i hfirst
    obtain ⟨hsent, rfl⟩ := hfirst
    have hone : s.helloSent + 1 = 1 := by
      have : s.helloSent = 0 := hsent
      omega
    have heffect : Effect s a { s.setPc i (.passed typeHello) with helloSent := 1, sayHello := w } :=
      .greet hpc hsent hok
    rw [← hone] at heffect
    exact heffect
  · rename_i h1 h2 h3
    refine .quiet hold (fun hgreets => ?_) hok
    have htype := greets_passed.mp hgreets
    by_cases hsent : s.helloSent = 0
    · exact h3 ⟨hsent, htype⟩
    · exact h2 ⟨hsent, htype⟩

theorem step_effect (hstep : Step s a t) : Effect s a t := by
  unfold Step at hstep
  cases a with
  | call i type =>
    simp only [step] at hstep
    split at hstep
    · rename_i hpc
      cases hstep
      exact enter_effect (w := s.sayHello) hpc trivial
    · cases hstep
  | giveUp i =>
    simp only [step] at hstep
    split at hstep
    · rename_i type hpc
      split at hstep
      · rename_i htype
        cases hstep
        refine .quiet (w := s.sayHello) ?_ not_greets_done trivial
        rw [hpc, greets_passed, htype]
        decide
      · cases hstep
    · cases hstep
  | noRoom i =>
    simp only [step] at hstep
    split at hstep
    · rename_i type hpc
      cases hstep
      by_cases htype : type = typeHello
      · subst htype
        exact .unsent hpc trivial
      · refine .quiet (w := s.sayHello) ?_ ?_ trivial
        · rwa [hpc, greets_passed]
        · rwa [greets_failed]
    · cases hstep
  | xmit i ok =>
    simp only [step] at hstep
    split at hstep
    · rename_i type hpc
      cases hstep
      unfold xmit
      by_cases htype : type = typeHello
      · subst htype
        split
        · exact .hello hpc
        · rename_i hep
          exact .unsent hpc (fun h => absurd h hep)
      · split
        · rename_i hep
          exact .handOver hpc htype hep
        · rename_i hep
          refine .quiet (w := s.sayHello) ?_ ?_ (fun h => absurd h hep)
          · rwa [hpc, greets_passed]
          · rwa [greets_failed]
    · cases hstep
  | takeBack i =>
    simp only [step] at hstep
    split at hstep
    · rename_i type hpc
      cases hstep
      unfold takeBack
      split
      · rename_i htype
        subst htype
        exact .takeBack hpc
      · rename_i htype
        refine .quiet (w := s.sayHello) ?_ not_greets_done trivial
        rwa [hpc, greets_failed]
    · cases hstep
  | helloWork i ready =>
    simp only [step] at hstep
    split at hstep
    · rename_i hready
      obtain ⟨-, hpc⟩ := hready
      split at hstep
      · cases hstep
        exact enter_effect hpc trivial
      · cases hstep
        have hsame : s.setPc i .idle = s := by
          unfold State.setPc
          rw [← hpc, update_eq_self]
        have heffect : Effect s (.helloWork i ready) { s.setPc i .idle with sayHello := false } :=
          .quiet (by rw [hpc]; exact not_greets_idle) not_greets_idle trivial
        rwa [hsame] at heffect
    · cases hstep

end

section

/-- `hello_sent` is set by the one HELLO that is under way, or by the one that succeeded last. -/
structure Inv (s : State) : Prop where
  unset : s.helloSent = 0 → (∀ j, ¬ (s.pc j).Greets) ∧ lastHello s.handed ≠ some true
  set : s.helloSent ≠ 0 → s.helloSent = 1 ∧
    ((∀ j, ¬ (s.pc j).Greets) ↔ lastHello s.handed = some true)
  one : ∀ i j, (s.pc i).Greets → (s.pc j).Greets → i = j

theorem inv_init (ep : Bool) : Inv (init ep) where
  unset := fun _ => ⟨fun _ => not_greets_idle, by simp [init, lastHello]⟩
  set := fun h => absurd rfl h
  one := fun _ _ h => absurd h not_greets_idle

theorem Inv.set_of_greets (hI : Inv s) (hi : (s.pc i).Greets) : s.helloSent = 1 ∧ lastHello s.handed ≠ some true := by
  have hset : s.helloSent ≠ 0 := fun h0 => (hI.unset h0).1 i hi
  obtain ⟨hone, hiff⟩ := hI.set hset
  exact ⟨hone, fun hlast => hiff.mpr hlast i hi⟩

theorem setPc_pc (s : State) (i j : Nat) (p : Pc) : (s.setPc i p).pc j = if j = i then p else s.pc j := by
  simp [State.setPc, update_apply]

/-- A step that does not touch the call of a HELLO. -/
theorem greets_setPc {p : Pc} (hold : ¬ (s.pc i).Greets) (hnew : ¬ p.Greets) :
    ((s.setPc i p).pc j).Greets ↔ (s.pc j).Greets := by
  rw [setPc_pc]
  split
  · rename_i hj
    subst hj
    exact ⟨fun h => absurd h hnew, fun h => absurd h hold⟩
  · exact Iff.rfl

/-- A step of the only call that may be one of a HELLO. -/
theorem greets_setPc_self {p : Pc} (hsole : ∀ j, (s.pc j).Greets → j = i) :
    ((s.setPc i p).pc j).Greets ↔ j = i ∧ p.Greets := by
  rw [setPc_pc]
  split
  · rename_i hj
    exact ⟨fun h => ⟨hj, h⟩, fun h => h.2⟩
  · rename_i hj
    exact ⟨fun h => absurd (hsole j h) hj, fun h => absurd h.1 hj⟩

theorem Inv.same (hI : Inv s) (hsent : t.helloSent = s.helloSent) (hpc : ∀ j, (t.pc j).Greets ↔ (s.pc j).Greets)
    (hlast : lastHello t.handed = lastHello s.handed) : Inv t := by
  constructor
  · simp only [hsent, hpc, hlast]
    exact hI.unset
  · simp only [hsent, hpc, hlast]
    exact hI.set
  · simp only [hpc]
    exact hI.one

theorem inv_of_sole {p : Pc} (hsole : ∀ j, (s.pc j).Greets → j = i) (hpc : t.pc = (s.setPc i p).pc)
    (hone : t.helloSent = 1) (hlast : p.Greets ↔ lastHello t.handed ≠ some true) : Inv t := by
  have hgreets : ∀ j, (t.pc j).Greets ↔ j = i ∧ p.Greets := by
    intro j
    rw [hpc]
    exact greets_setPc_self hsole
  refine ⟨fun h0 => ?_, fun _ => ⟨hone, ?_⟩, fun j k hj hk => ((hgreets j).mp hj).1.trans ((hgreets k).mp hk).1.symm⟩
  · exact absurd (hone.symm.trans h0) (by decide)
  · simp only [hgreets, hlast]
    simp

theorem inv_step (hstep : Step s a t) (hI : Inv s) : Inv t := by
  cases step_effect hstep with
  | quiet hold hnew => exact hI.same rfl (fun j => greets_setPc hold hnew) rfl
  | greet hpc hsent =>
    obtain ⟨hnone, hlast⟩ := hI.unset hsent
    exact inv_of_sole (fun j hj => absurd hj (hnone j)) rfl rfl (iff_of_true (greets_passed.mpr rfl) hlast)
  | @unsent _ i hpc =>
    have hi : (s.pc i).Greets := by
      rw [hpc]
      exact greets_passed.mpr rfl
    obtain ⟨hone, hlast⟩ := hI.set_of_greets hi
    exact inv_of_sole (fun j hj => hI.one j i hj hi) rfl hone (iff_of_true (greets_failed.mpr rfl) hlast)
  | @handOver i type ok hpc htype hep =>
    have hold : ¬ (s.pc i).Greets := by rwa [hpc, greets_passed]
    have hnew : ¬ (if ok then Pc.done else Pc.failed type).Greets := by
      split
      · exact not_greets_done
      · rwa [greets_failed]
    refine hI.same rfl (fun j => greets_setPc hold hnew) ?_
    rw [lastHello_append, if_neg htype]
  | @hello i ok hpc =>
    have hi : (s.pc i).Greets := by
      rw [hpc]
      exact greets_passed.mpr rfl
    refine inv_of_sole (fun j hj => hI.one j i hj hi) rfl (hI.set_of_greets hi).1 ?_
    rw [lastHello_append, if_pos rfl]
    cases ok with
    | true => exact iff_of_false not_greets_done (by simp)
    | false => exact iff_of_true (greets_failed.mpr rfl) (by simp)
  | @takeBack i hpc =>
    have hi : (s.pc i).Greets := by
      rw [hpc]
      exact greets_failed.mpr rfl
    obtain ⟨hone, hlast⟩ := hI.set_of_greets hi
    have hnone : ∀ j, ¬ ((s.setPc i .done).pc j).Greets :=
      fun j hj => not_greets_done ((greets_setPc_self fun j hj => hI.one j i hj hi).mp hj).2
    refine ⟨fun _ => ⟨hnone, hlast⟩, fun h0 => ?_, fun j _ hj => absurd hj (hnone j)⟩
    exact absurd (show s.helloSent - 1 = 0 by omega) h0

/-- A step keeps the order exactly when it meets the condition. -/
theorem helloFirst_step (hstep : Step s a t) (hI : Inv s) (hfirst : HelloFirst s.handed) :
    HelloFirst t.handed ↔ StepOk s a := by
  cases step_effect hstep with
  | quiet _ _ hok => exact ⟨fun _ => hok, fun _ => hfirst⟩
  | greet _ _ hok => exact ⟨fun _ => hok, fun _ => hfirst⟩
  | unsent _ hok => exact ⟨fun _ => hok, fun _ => hfirst⟩
  | takeBack _ => exact ⟨fun _ => trivial, fun _ => hfirst⟩
  | @hello i ok hpc =>
    refine ⟨fun _ _ type htype hne => ?_, fun _ => ?_⟩
    · rw [hpc] at htype
      cases htype
      exact absurd rfl hne
    · exact helloFirst_append.mpr ⟨hfirst, fun hne => absurd rfl hne⟩
  | @handOver i type ok hpc htype hep =>
    have hlast : lastHello s.handed = some true ↔ s.helloSent ≠ 0 ∧ ∀ j, ¬ (s.pc j).Greets := by
      constructor
      · intro hlast
        have hset : s.helloSent ≠ 0 := fun h0 => (hI.unset h0).2 hlast
        exact ⟨hset, (hI.set hset).2.mpr hlast⟩
      · rintro ⟨hset, hnone⟩
        exact (hI.set hset).2.mp hnone
    constructor
    · intro h _ type' htype' hne
      rw [hpc] at htype'
      cases htype'
      exact hlast.mp ((helloFirst_append.mp h).2 htype)
    · intro hok
      exact helloFirst_append.mpr ⟨hfirst, fun _ => hlast.mpr (hok hep type hpc htype)⟩

end

/-- In every state of a run other packets come behind a HELLO that was transmitted, exactly if
none is handed over before `hello_sent` is set or while the HELLO that set it is under way. -/
theorem hello_first_iff {ep : Bool} {run : List (Action × State)} (hrun : Lts.Path Step (init ep) run) :
    (∀ u ∈ init ep :: run.map snd, HelloFirst u.handed) ↔ Steps StepOk (init ep) run :=
  hrun.always_iff_steps (fun _ _ _ hstep hI _ _ => inv_step hstep hI)
    (fun _ _ _ hstep hI hfirst => helloFirst_step hstep hI hfirst) (inv_init ep) helloFirst_nil

section

/-- A HELLO that fails and is said again, and then a message. -/
def helloAgain : List Action :=
  [.helloWork 0 true, .xmit 0 false, .takeBack 0, .helloWork 1 true, .xmit 1 true, .call 2 typeData,
    .xmit 2 true]

theorem helloAgain_first : ∃ run, Lts.Path Step (init true) run ∧
      ((∀ u ∈ init true :: run.map snd, HelloFirst u.handed) ↔ Steps StepOk (init true) run) ∧
      (final (init true) run).handed = [⟨typeHello, false⟩, ⟨typeHello, true⟩, ⟨typeData, true⟩] := by
  obtain ⟨t, ht, hhanded⟩ : ∃ t, exec step (init true) helloAgain = some t ∧
      t.handed = [⟨typeHello, false⟩, ⟨typeHello, true⟩, ⟨typeData, true⟩] := ⟨_, rfl, rfl⟩
  obtain ⟨run, hrun, hfinal⟩ := path_of_exec ht
  exact ⟨run, hrun, hello_first_iff hrun, hfinal ▸ hhanded⟩

/-- A message passes the check between the two locked parts of the HELLO, and is handed over
first. -/
def overtaken : List Action := [.helloWork 0 true, .call 1 typeData, .xmit 1 true, .xmit 0 true]

theorem overtaken_hello : ∃ run, Lts.Path Step (init true) run ∧
      (final (init true) run).handed = [⟨typeData, true⟩, ⟨typeHello, true⟩] ∧
      ¬ ∀ u ∈ init true :: run.map snd, HelloFirst u.handed := by
  obtain ⟨t, ht, hhanded⟩ : ∃ t, exec step (init true) overtaken = some t ∧
      t.handed = [⟨typeData, true⟩, ⟨typeHello, true⟩] := ⟨_, rfl, rfl⟩
  obtain ⟨run, hrun, hfinal⟩ := path_of_exec ht
  refine ⟨run, hrun, hfinal ▸ hhanded, fun hall => ?_⟩
  have hlast := hall _ (final_mem _ _)
  rw [hfinal, hhanded] at hlast
  obtain ⟨x, hx, -⟩ := hlast.before [] ⟨typeData, true⟩ [⟨typeHello, true⟩] rfl (by decide)
  cases hx

end

end Sm8850.Qrtr.Hello
