import Mathlib.Data.List.Nodup
import Mathlib.Data.List.Perm.Basic
import Sm8850.Lib.Path

/-! Registration of the classes of locks that are waited for (`waitlock_sort.c`). -/
namespace Sm8850.Waitlock
open Function List Lts

/-- The types that have classes, each with a spinlock of its own. -/
inductive LockType where
  | mutex
  | rwsemWrite
  deriving DecidableEq

/-- `lock_classes`, by slot, and the tables over it. -/
structure Tables where
  key : Nat → Nat
  inUse : Nat → Bool
  chains : Nat → List Nat
  free : List Nat
  all : List Nat
  nr : Nat

/-- Where a registration stands; `nr` is what it has read for `nr_lock_classes++`. -/
inductive Pc where
  | look
  | pick
  | load (i : Nat)
  | store (i nr : Nat)
  | fill (i : Nat)
  | link (i : Nat)
  | move (i : Nat)
  | leave (slot : Option Nat)

structure Reg where
  type : LockType
  key : Nat
  pc : Pc

/-- `returned` holds the keys with the classes their registrations were given. -/
structure State where
  t : Tables
  lock : LockType → Bool
  cpu : Nat → Option Reg
  returned : List (Nat × Nat)

section
variable (hash : Nat → Nat)

def Tables.find (t : Tables) (k : Nat) : Option Nat := (t.chains (hash k)).find? (t.key · = k)

def Tables.fill (t : Tables) (i k : Nat) : Tables := { t with inUse := update t.inUse i true, key := update t.key i k }

def Tables.link (t : Tables) (i k : Nat) : Tables :=
  { t with chains := update t.chains (hash k) (i :: t.chains (hash k)) }

/-- `list_move_tail` to `all_lock_classes`, from whichever list the slot is on. -/
def Tables.move (t : Tables) (i : Nat) : Tables := { t with free := t.free.erase i, all := t.all.erase i ++ [i] }

/-- One step of a registration that holds its lock. -/
def Tables.next (t : Tables) (k : Nat) : Pc → Tables × Pc
  | .look =>
    match t.find hash k with
    | some i => (t, .leave (some i))
    | none => (t, .pick)
  | .pick =>
    match t.free with
    | [] => (t, .leave none)
    | i :: _ => (t, .load i)
  | .load i => (t, .store i t.nr)
  | .store i nr => ({ t with nr := nr + 1 }, .fill i)
  | .fill i => (t.fill i k, .link i)
  | .link i => (t.link hash i k, .move i)
  | .move i => (t.move i, .leave (some i))
  | .leave c => (t, .leave c)

inductive Act where
  | start (type : LockType) (key : Nat)
  | go

/-- A registration takes the lock of its type, or the one on a CPU goes on. Keys that are no kernel address are
turned down at once. -/
def State.next (s : State) (c : Nat) : Act → Option State
  | .start type key =>
    if key < 0xffffff0000000000 then some s
    else if s.cpu c = none ∧ s.lock type = false then
      some { s with lock := update s.lock type true, cpu := update s.cpu c (some ⟨type, key, .look⟩) }
    else none
  | .go =>
    match s.cpu c with
    | none => none
    | some ⟨type, key, .leave slot⟩ =>
      some { s with
        lock := update s.lock type false
        cpu := update s.cpu c none
        returned := slot.toList.map (Prod.mk key) ++ s.returned }
    | some ⟨type, key, pc⟩ =>
      let r := s.t.next hash key pc
      some { s with t := r.1, cpu := update s.cpu c (some ⟨type, key, r.2⟩) }

/-- After `init_data_structures_once`. -/
def start (slots : Nat) : State :=
  ⟨⟨fun _ => 0, fun _ => false, fun _ => [], range slots, [], 0⟩, fun _ => false, fun _ => none, []⟩

end

/-- No two slots in the hash have one key. -/
def Tables.Unique (t : Tables) : Prop :=
  ∀ b i b' j, i ∈ t.chains b → j ∈ t.chains b' → t.key i = t.key j → i = j

/-- What is claimed of a state; the count is right whenever no registration is under way. -/
structure Sound (slots : Nat) (s : State) : Prop where
  unique : s.t.Unique
  apart : ∀ k k' i, (k, i) ∈ s.returned → (k', i) ∈ s.returned → k = k'
  listed : (s.t.free ++ s.t.all).Perm (range slots)
  counted : (∀ c, s.cpu c = none) → s.t.nr = s.t.all.length ∧ ∀ i, s.t.inUse i = true ↔ i ∈ s.t.all

/-- A registration starts when no other one is under way, of either type. -/
def Alone (s : State) (a : Nat × Act) : Prop := ∀ type key, a.2 = .start type key → ∀ c, s.cpu c = none

/-- The tables between two registrations, and what was returned by earlier ones. -/
structure Tables.Ok (hash : Nat → Nat) (slots : Nat) (returned : List (Nat × Nat)) (t : Tables) : Prop where
  listed : (t.free ++ t.all).Perm (range slots)
  hashed : ∀ b i, i ∈ t.chains b ↔ i ∈ t.all ∧ hash (t.key i) = b
  injective : ∀ i ∈ t.all, ∀ j ∈ t.all, t.key i = t.key j → i = j
  nr : t.nr = t.all.length
  inUse : ∀ i, t.inUse i = true ↔ i ∈ t.all
  known : ∀ k i, (k, i) ∈ returned → i ∈ t.all ∧ t.key i = k

/-- Slot `i` can be given to key `k`. -/
structure Tables.Fits (t : Tables) (i k : Nat) : Prop where
  head : t.free.head? = some i
  new : ∀ j ∈ t.all, t.key j ≠ k

variable {hash : Nat → Nat} {slots i k : Nat} {t t₀ : Tables} {s s' : State} {returned : List (Nat × Nat)} {pc : Pc}

/-- The tables with `nr_lock_classes` incremented and the slot filled, linked and moved. -/
def Tables.counted (t : Tables) : Tables := { t with nr := t.nr + 1 }

attribute [local simp] Tables.counted Tables.fill Tables.link Tables.move

section
variable (h : t.Ok hash slots returned) (hi : t.Fits i k)
include h hi

theorem Tables.Ok.not_mem : i ∉ t.all := by
  have hnodup : (t.free ++ t.all).Nodup := h.listed.nodup_iff.mpr nodup_range
  exact fun hall => disjoint_of_nodup_append hnodup (mem_of_mem_head? hi.head) hall

theorem Tables.Ok.key_of_mem {j : Nat} (hj : j ∈ t.all) : update t.key i k j = t.key j := by
  refine update_of_ne ?_ ..
  rintro rfl
  exact h.not_mem hi hj

theorem Tables.Ok.register : (((t.counted.fill i k).link hash i k).move i).Ok hash slots returned := by
  have hnot := h.not_mem hi
  have hkey : ∀ {j}, j ∈ t.all → update t.key i k j = t.key j := h.key_of_mem hi
  refine ⟨?_, ?_, ?_, ?_, ?_, ?_⟩
  · obtain ⟨l, hl⟩ := head?_eq_some_iff.mp hi.head
    have hperm := perm_append_singleton i (l ++ t.all)
    simpa [hl, erase_of_not_mem hnot] using hperm.trans (by simpa [hl] using h.listed)
  · intro b j
    by_cases hj : j = i
    · subst hj
      by_cases hb : b = hash k <;> simp [hb, h.hashed, hnot, erase_of_not_mem hnot, eq_comm]
    · by_cases hb : b = hash k <;> simp [hb, h.hashed, hj, erase_of_not_mem hnot]
  · intro j hj j' hj'
    simp [erase_of_not_mem hnot] at hj hj' ⊢
    rcases hj with hj | rfl <;> rcases hj' with hj' | rfl
    · simpa [hkey hj, hkey hj'] using h.injective j hj j' hj'
    · simpa [hkey hj] using fun he => absurd he (hi.new j hj)
    · simpa [hkey hj'] using fun he => absurd he.symm (hi.new j' hj')
    · simp
  · simp [erase_of_not_mem hnot, h.nr]
  · intro j
    by_cases hj : j = i <;> simp [hj, h.inUse, erase_of_not_mem hnot]
  · intro k' j hj
    obtain ⟨hall, hk⟩ := h.known k' j hj
    simp [erase_of_not_mem hnot, hall, hkey hall, hk]

end

/-- What a registration has established where it stands, from the tables `t₀` before it changed them. -/
def Doing (hash : Nat → Nat) (slots : Nat) (returned : List (Nat × Nat)) (t : Tables) (k : Nat) : Pc → Prop
  | .look => t.Ok hash slots returned
  | .pick => t.Ok hash slots returned ∧ ∀ j ∈ t.all, t.key j ≠ k
  | .load i => t.Ok hash slots returned ∧ t.Fits i k
  | .store i nr => t.Ok hash slots returned ∧ t.Fits i k ∧ nr = t.nr
  | .fill i => ∃ t₀ : Tables, t₀.Ok hash slots returned ∧ t₀.Fits i k ∧ t = t₀.counted
  | .link i => ∃ t₀ : Tables, t₀.Ok hash slots returned ∧ t₀.Fits i k ∧ t = t₀.counted.fill i k
  | .move i => ∃ t₀ : Tables, t₀.Ok hash slots returned ∧ t₀.Fits i k ∧ t = (t₀.counted.fill i k).link hash i k
  | .leave slot => t.Ok hash slots returned ∧ ∀ i, slot = some i → i ∈ t.all ∧ t.key i = k

theorem doing_next (h : Doing hash slots returned t k pc) :
    Doing hash slots returned (t.next hash k pc).1 k (t.next hash k pc).2 := by
  cases pc with
  | look =>
    have hok : t.Ok hash slots returned := h
    simp only [Tables.next]
    cases hf : t.find hash k with
    | some i =>
      refine ⟨hok, ?_⟩
      rintro _ ⟨⟩
      have hmem := (hok.hashed _ _).mp (mem_of_find?_eq_some hf)
      exact ⟨hmem.1, by simpa using find?_some hf⟩
    | none =>
      refine ⟨hok, fun j hj he => ?_⟩
      have hchain : j ∈ t.chains (hash k) := (hok.hashed _ _).mpr ⟨hj, he ▸ rfl⟩
      exact absurd he (by simpa using find?_eq_none.mp hf j hchain)
  | pick =>
    simp only [Tables.next]
    cases hf : t.free with
    | nil => exact ⟨h.1, by rintro _ ⟨⟩⟩
    | cons i l => exact ⟨h.1, by simp [hf], h.2⟩
  | load i => exact ⟨h.1, h.2, rfl⟩
  | store i nr =>
    obtain ⟨hok, hfits, rfl⟩ := h
    exact ⟨t, hok, hfits, rfl⟩
  | fill i =>
    obtain ⟨t₀, hok, hfits, rfl⟩ := h
    exact ⟨t₀, hok, hfits, rfl⟩
  | link i =>
    obtain ⟨t₀, hok, hfits, rfl⟩ := h
    exact ⟨t₀, hok, hfits, rfl⟩
  | move i =>
    obtain ⟨t₀, hok, hfits, rfl⟩ := h
    refine ⟨hok.register hfits, ?_⟩
    rintro _ ⟨⟩
    simp [Tables.next]
  | leave slot => exact h

/-- At most one registration is under way. -/
def Inv (hash : Nat → Nat) (slots : Nat) (s : State) : Prop :=
  (∀ c, s.cpu c = none) ∧ s.t.Ok hash slots s.returned ∨
    ∃ c r, s.cpu c = some r ∧ (∀ c', c' ≠ c → s.cpu c' = none) ∧ Doing hash slots s.returned s.t r.key r.pc

theorem Tables.Ok.unique (h : t.Ok hash slots returned) : t.Unique :=
  fun b i b' j hi hj => h.injective i ((h.hashed b i).mp hi).1 j ((h.hashed b' j).mp hj).1

theorem Tables.Ok.apart (h : t.Ok hash slots returned) (k k' i : Nat) (hk : (k, i) ∈ returned) (hk' : (k', i) ∈ returned) :
    k = k' := (h.known k i hk).2.symm.trans (h.known k' i hk').2

/-- In the middle of a registration the hash is in order too. -/
theorem doing_sound (h : Doing hash slots returned t k pc) :
    t.Unique ∧ (∀ k k' i, (k, i) ∈ returned → (k', i) ∈ returned → k = k') ∧ (t.free ++ t.all).Perm (range slots) := by
  cases pc with
  | look => exact ⟨h.unique, h.apart, h.listed⟩
  | pick | load i | store i nr | leave slot => exact ⟨h.1.unique, h.1.apart, h.1.listed⟩
  | fill i =>
    obtain ⟨t₀, hok, hfits, rfl⟩ := h
    exact ⟨hok.unique, hok.apart, hok.listed⟩
  | link i =>
    obtain ⟨t₀, hok, hfits, rfl⟩ := h
    refine ⟨fun b i' b' j hi hj => ?_, hok.apart, hok.listed⟩
    have hi' := ((hok.hashed b i').mp hi).1
    have hj' := ((hok.hashed b' j).mp hj).1
    simpa [hok.key_of_mem hfits hi', hok.key_of_mem hfits hj'] using hok.injective i' hi' j hj'
  | move i =>
    obtain ⟨t₀, hok, hfits, rfl⟩ := h
    exact ⟨(hok.register hfits).unique, hok.apart, hok.listed⟩

theorem Inv.sound (h : Inv hash slots s) : Sound slots s := by
  rcases h with ⟨-, h⟩ | ⟨c, r, hc, -, hdo⟩
  · exact ⟨h.unique, h.apart, h.listed, fun _ => ⟨h.nr, h.inUse⟩⟩
  · obtain ⟨hunique, hapart, hlisted⟩ := doing_sound hdo
    exact ⟨hunique, hapart, hlisted, fun hrest => by simp [hrest] at hc⟩

theorem Inv.step {a : Nat × Act} (hstep : s.next hash a.1 a.2 = some s') (hok : Alone s a) (h : Inv hash slots s) :
    Inv hash slots s' := by
  obtain ⟨c, a⟩ := a
  cases a with
  | start type key =>
    have hrest := hok type key rfl
    have hOk : s.t.Ok hash slots s.returned := by
      rcases h with ⟨-, h⟩ | ⟨c', r, hc', -⟩
      · exact h
      · simp [hrest] at hc'
    simp only [State.next] at hstep
    split_ifs at hstep <;> cases hstep
    · exact .inl ⟨hrest, hOk⟩
    · exact .inr ⟨c, _, update_self .., fun c' hc' => by simp [hc', hrest], hOk⟩
  | go =>
    rcases h with ⟨hrest, -⟩ | ⟨c', ⟨type, key, pc⟩, hc', hothers, hdo⟩
    · simp [State.next, hrest] at hstep
    · obtain rfl : c = c' := by
        by_contra hne
        simp [State.next, hothers c hne] at hstep
      have hnext := doing_next hdo
      cases pc with
      | leave slot =>
        simp only [State.next, hc'] at hstep
        cases hstep
        refine .inl ⟨fun c' => ?_, { hdo.1 with known := ?_ }⟩
        · by_cases hne : c' = c <;> simp [hne, hothers]
        · intro k i hk
          rcases mem_append.mp hk with hk | hk
          · obtain ⟨j, hj, he⟩ := mem_map.mp hk
            cases he
            exact hdo.2 i (Option.mem_toList.mp hj)
          · exact hdo.1.known k i hk
      | _ =>
        simp only [State.next, hc'] at hstep
        cases hstep
        exact .inr ⟨c, _, update_self .., fun c' hc' => by simp [hc', hothers], hnext⟩

theorem inv_start (hash : Nat → Nat) (slots : Nat) : Inv hash slots (start slots) :=
  .inl ⟨fun _ => rfl, by constructor <;> simp [start]⟩

/-- The run of a list of steps, as far as they can be taken. -/
def runOf (hash : Nat → Nat) : State → List (Nat × Act) → List ((Nat × Act) × State)
  | _, [] => []
  | s, a :: as =>
    match s.next hash a.1 a.2 with
    | some s' => (a, s') :: runOf hash s' as
    | none => []

theorem path_runOf (hash : Nat → Nat) (s : State) (as : List (Nat × Act)) :
    Lts.Path (fun s a s' => s.next hash a.1 a.2 = some s') s (runOf hash s as) := by
  induction as generalizing s with
  | nil => trivial
  | cons a as ih =>
    simp only [runOf]
    split
    · next hnext => exact ⟨hnext, ih _⟩
    · trivial

/-- A run in which registrations of the two types never overlap keeps the classes unique. -/
theorem classes_sound {run : List ((Nat × Act) × State)}
    (hrun : Lts.Path (fun s a s' => s.next hash a.1 a.2 = some s') (start slots) run)
    (halone : Steps Alone (start slots) run) : ∀ s ∈ start slots :: run.map Prod.snd, Sound slots s := by
  have hinv := hrun.invariant_of_steps (fun _ _ _ hstep hok h => h.step hstep hok) halone (inv_start hash slots)
  exact fun s hs => (hinv s hs).sound

def oneRun : List ((Nat × Act) × State) :=
  runOf (fun _ => 0) (start 2) ((0, .start .mutex 0xffffff0000000010) :: replicate 8 (0, .go))

theorem classes_sound_oneRun : (final (start 2) oneRun).returned = [(0xffffff0000000010, 0)] ∧
    Sound 2 (final (start 2) oneRun) := by
  have hgo : ∀ s, Alone s (0, .go) := by rintro s type key ⟨⟩
  have halone : Steps Alone (start 2) oneRun :=
    ⟨fun _ _ _ _ => rfl, hgo _, hgo _, hgo _, hgo _, hgo _, hgo _, hgo _, hgo _, trivial⟩
  exact ⟨rfl, classes_sound (path_runOf ..) halone _ (final_mem ..)⟩

/-- A mutex and an rwsem are registered at the same time; both registrations find the same first free slot. -/
def overlapRun : List ((Nat × Act) × State) :=
  runOf (fun _ => 0) (start 2) ([(0, .start .mutex 0xffffff0000000010), (1, .start .rwsemWrite 0xffffff0000000020)] ++
    (replicate 8 [(0, .go), (1, .go)]).flatten)

theorem overlapping_types_share_slot :
    Lts.Path (fun s a s' => s.next (fun _ => 0) a.1 a.2 = some s') (start 2) overlapRun ∧
    (final (start 2) overlapRun).returned = [(0xffffff0000000020, 0), (0xffffff0000000010, 0)] ∧
    (final (start 2) overlapRun).t.all = [0] :=
  ⟨path_runOf .., rfl, rfl⟩

end Sm8850.Waitlock
