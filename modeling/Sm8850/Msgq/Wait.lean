import Sm8850.Lib.Path

/-! Senders and receivers that wait for a message queue of a label (gh_msgq.c), and the queues of the
hypervisor that its capabilities stand for. -/
namespace Sm8850.Msgq
open Lts
open Function (update update_self update_of_ne update_idem update_eq_self)

inductive Dir where
  | tx
  | rx
  deriving DecidableEq

/-- One direction of a label. `flag` is `tx_full` or `rx_empty`, and `lock` the result that a caller has of
its hypercall and has not stored, with nothing for an error. A queue is `blocked` where it is full or
empty, and `reported` where the hypervisor will raise the interrupt once it no longer is. -/
structure Side where
  capId : Option Nat
  flag : Bool
  lock : Option (Option Bool)
  sleepers : Nat
  blocked : Bool
  reported : Bool
  pending : Bool

/-- A queue starts empty, which a receiver is told of with the first message. -/
def startsBlocked : Dir → Bool
  | .tx => false
  | .rx => true

/-- `gh_msgq_alloc_entry`. -/
def allocEntry (dir : Dir) : Side := ⟨none, startsBlocked dir, none, 0, startsBlocked dir, startsBlocked dir, false⟩

inductive Act where
  /-- The hypercall of `__gh_msgq_send` or `__gh_msgq_recv`, after which the queue is blocked or not. -/
  | call (blocked : Bool)
  | callError
  /-- The result is stored and the lock released. -/
  | store
  | sleep
  | interrupted
  /-- The other end of the queue takes or sends a message. -/
  | peer
  /-- `gh_msgq_tx_isr` or `gh_msgq_rx_isr`. -/
  | isr
  | reset
  | populate (capId : Nat)

/-- `gh_msgq_populate_cap_info`, which wakes those who sleep with the flag clear. -/
def Side.populate (s : Side) (dir : Dir) (capId : Nat) : Side :=
  { s with
    capId := some capId
    sleepers := if s.flag then s.sleepers else 0
    blocked := startsBlocked dir
    reported := startsBlocked dir
    pending := false }

inductive SideStep (dir : Dir) (s : Side) : Act → Side → Prop where
  | call {b : Bool} (hcap : s.capId.isSome) (hlock : s.lock = none) (hb : s.blocked = true → b = true) :
      SideStep dir s (.call b) { s with lock := some (some b), blocked := b, reported := b }
  | callError (hlock : s.lock = none) : SideStep dir s .callError { s with lock := some none }
  | store {r : Option Bool} (hlock : s.lock = some r) : SideStep dir s .store { s with flag := r.getD s.flag, lock := none }
  | sleep (hflag : s.flag = true) : SideStep dir s .sleep { s with sleepers := s.sleepers + 1 }
  | interrupted : SideStep dir s .interrupted { s with sleepers := s.sleepers - 1 }
  | peer (hcap : s.capId.isSome) :
      SideStep dir s .peer { s with blocked := false, reported := false, pending := s.pending || s.reported }
  | isr (hpending : s.pending = true) (hlock : s.lock = none) :
      SideStep dir s .isr { s with flag := false, pending := false, sleepers := 0 }
  | reset (hcap : s.capId.isSome) : SideStep dir s .reset { s with capId := none, pending := false }
  | populate {capId : Nat} (hcap : s.capId = none) : SideStep dir s (.populate capId) (s.populate dir capId)

/-- Both directions of a label. -/
def Step (s : Dir → Side) (e : Dir × Act) (t : Dir → Side) : Prop := ∃ u, SideStep e.1 (s e.1) e.2 u ∧ t = update s e.1 u

/-- Whoever sleeps does so on a queue that is full or empty, or will be woken. -/
def NotInVain (s : Dir → Side) : Prop :=
  ∀ dir, (s dir).capId.isSome → 0 < (s dir).sleepers → (s dir).blocked = true ∨ (s dir).pending = true

/-- A queue to send on is populated when `tx_full` is clear and is not about to be set. -/
def Proper (s : Dir → Side) : Dir × Act → Prop
  | (.tx, .populate _) => (s .tx).flag = false ∧ (s .tx).lock ≠ some (some true)
  | _ => True

/-- The hypervisor will raise the interrupt, or has. -/
def Side.Due (s : Side) : Prop := s.blocked = true ∧ s.reported = true ∨ s.pending = true

/-- The interrupt is due where the flag is set or about to be, and where somebody sleeps. -/
def SideInv (s : Side) : Prop :=
  s.capId.isSome → s.flag = true ∨ s.lock = some (some true) ∨ 0 < s.sleepers → s.Due

theorem sideInv_allocEntry (dir : Dir) : SideInv (allocEntry dir) := by
  simp [SideInv, allocEntry]

theorem SideInv.step {dir : Dir} {s u : Side} {a : Act} (hstep : SideStep dir s a u)
    (hp : ∀ capId, a = .populate capId → dir = .tx → s.flag = false ∧ s.lock ≠ some (some true)) (h : SideInv s) : SideInv u := by
  unfold SideInv Side.Due at *
  cases hstep with
  | call hcap hlock hb =>
    -- a queue that is blocked stays so, and is then reported
    rename_i b
    cases b <;> simp_all
  | callError hlock => simp_all
  | store hlock =>
    rename_i r
    rcases r with _ | _ | _ <;> simp_all
  | sleep hflag => simp_all
  | interrupted =>
    rintro hcap (hflag | hlock | hsleep)
    · exact h hcap (.inl hflag)
    · exact h hcap (.inr (.inl hlock))
    · exact h hcap (.inr (.inr (by simp only at hsleep; omega)))
  | peer hcap => grind
  | isr hpending hlock => simp_all
  | reset hcap => simp
  | populate hcap =>
    rename_i capId
    cases dir with
    | rx => simp [Side.populate, startsBlocked]
    | tx => simp [Side.populate, hp capId rfl rfl]

theorem sideInv_run {run : List ((Dir × Act) × (Dir → Side))} (hrun : Lts.Path Step allocEntry run)
    (hproper : Steps Proper allocEntry run) : ∀ s ∈ allocEntry :: run.map Prod.snd, ∀ dir, SideInv (s dir) := by
  have hstep : ∀ s e t, Step s e t → Proper s e → (∀ dir, SideInv (s dir)) → ∀ dir, SideInv (t dir) := by
    rintro s ⟨d, a⟩ t ⟨u, hu, rfl⟩ hp hi dir
    by_cases hd : dir = d
    · subst hd
      rw [update_self]
      refine (hi dir).step hu ?_
      rintro capId rfl rfl
      exact hp
    · rw [update_of_ne hd]
      exact hi dir
  exact hrun.invariant_of_steps hstep hproper sideInv_allocEntry

/-- A sender that finds the flag of a queue that is not full set sleeps in vain. -/
theorem sleeps_in_vain {s : Dir → Side} {u : Side} (hcap : u.capId.isSome) (hflag : u.flag)
    (hblocked : u.blocked = false) (hpending : u.pending = false) :
    ∃ t, Step (update s .tx u) (.tx, .sleep) t ∧ ¬ NotInVain t := by
  refine ⟨_, ⟨_, .sleep (by rwa [update_self]), rfl⟩, fun h => ?_⟩
  have := h .tx
  simp [hcap, hblocked, hpending] at this

/-- After a step that is not proper a sender can come to sleep in vain. -/
theorem in_vain_of_not_proper {s t : Dir → Side} {e : Dir × Act} (hstep : Step s e t) (hp : ¬ Proper s e) :
    ∃ run, Lts.Path Step t run ∧ ¬ NotInVain (final t run) := by
  obtain ⟨dir, a⟩ := e
  obtain ⟨u, hu, rfl⟩ := hstep
  cases hu with
  | populate hcap =>
    cases dir with
    | rx => exact absurd trivial hp
    | tx =>
      rw [Proper, not_and_or, Bool.not_eq_false, ne_eq, not_not] at hp
      rcases hp with hflag | hlock
      · obtain ⟨t, ht, hvain⟩ := sleeps_in_vain (s := s) (u := (s .tx).populate .tx _) rfl hflag rfl rfl
        exact ⟨[(_, t)], ⟨ht, trivial⟩, hvain⟩
      · -- the sender that holds the lock stores its result first
        rename_i capId
        let u : Side := { (s .tx).populate .tx capId with flag := true, lock := none }
        have hstore : SideStep .tx ((s .tx).populate .tx capId) .store u := .store (r := some true) hlock
        obtain ⟨t, ht, hvain⟩ := sleeps_in_vain (s := s) (u := u) rfl rfl rfl rfl
        exact ⟨[((.tx, .store), update s .tx u), (_, t)], ⟨⟨u, by simpa using hstore, by simp⟩, ht, trivial⟩, hvain⟩
  | _ => exact absurd (by cases dir <;> trivial) hp

/-- Where every step of a run is proper nobody sleeps in vain, and after one that is not somebody can. -/
theorem wait_not_in_vain {run : List ((Dir × Act) × (Dir → Side))} (hrun : Lts.Path Step allocEntry run) :
    (Steps Proper allocEntry run → ∀ s ∈ allocEntry :: run.map Prod.snd, NotInVain s) ∧
      ∀ e t, Step (final allocEntry run) e t → ¬ Proper (final allocEntry run) e →
        ∃ more, Lts.Path Step t more ∧ ¬ NotInVain (final t more) := by
  refine ⟨fun hproper s hs dir hcap hsleep => ?_, fun e t => in_vain_of_not_proper⟩
  have hdue := sideInv_run hrun hproper s hs dir hcap (.inr (.inr hsleep))
  exact hdue.imp_left And.left

/-- A sender's part of a run. -/
def txRun (run : List (Act × Side)) : List ((Dir × Act) × (Dir → Side)) :=
  run.map fun e => ((.tx, e.1), update allocEntry .tx e.2)

theorem path_txRun {u : Side} {run : List (Act × Side)} (h : Lts.Path (SideStep .tx) u run) :
    Lts.Path Step (update allocEntry .tx u) (txRun run) := by
  induction run generalizing u with
  | nil => trivial
  | cons e run ih =>
    refine ⟨⟨e.2, ?_, ?_⟩, ih h.2⟩
    · rw [update_self]
      exact h.1
    · rw [update_idem]

/-- The queue of the capability 7, which a first message fills. -/
def filled : List (Act × Side) :=
  [(.populate 7, ⟨some 7, false, none, 0, false, false, false⟩),
    (.call true, ⟨some 7, false, some (some true), 0, true, true, false⟩),
    (.store, ⟨some 7, true, none, 0, true, true, false⟩)]

theorem path_filled : Lts.Path (SideStep .tx) (allocEntry .tx) filled :=
  ⟨.populate rfl, .call rfl rfl (by simp), .store (r := some true) rfl, trivial⟩

theorem wait_not_in_vain_filled : Lts.Path Step allocEntry (txRun filled) ∧
    NotInVain (final allocEntry (txRun filled)) := by
  have hpath := path_txRun path_filled
  rw [update_eq_self] at hpath
  exact ⟨hpath, (wait_not_in_vain hpath).1 ⟨⟨rfl, by simp [allocEntry]⟩, trivial, trivial, trivial⟩ _ (final_mem _ _)⟩

/-- The full queue is taken away, and a sender waits on the flag with an empty one in its place. -/
def repopulated : List (Act × Side) :=
  filled ++ [(.reset, ⟨none, true, none, 0, true, true, false⟩), (.populate 8, ⟨some 8, true, none, 0, false, false, false⟩),
    (.sleep, ⟨some 8, true, none, 1, false, false, false⟩)]

theorem repopulated_sleeps_in_vain : Lts.Path Step allocEntry (txRun repopulated) ∧
    ¬ NotInVain (final allocEntry (txRun repopulated)) := by
  have hrest : Lts.Path (SideStep .tx) (final (allocEntry .tx) filled) (repopulated.drop 3) :=
    ⟨.reset rfl, .populate rfl, .sleep rfl, trivial⟩
  have hpath := path_txRun (path_append.mpr ⟨path_filled, hrest⟩)
  rw [update_eq_self] at hpath
  exact ⟨hpath, fun h => by simpa [repopulated, txRun, filled] using h .tx rfl Nat.one_pos⟩

end Sm8850.Msgq
