import Sm8850.Lib.Path

/-! Components of one kind that share in-order queues. What holds of every component that has the queues to
itself holds of each of those that share them. -/
namespace Mux
open Function Prod List

variable {ι κ σ α : Type} {μ : κ → Type} [DecidableEq ι]

/-- A component with its messages in each queue. -/
structure Alone (κ σ : Type) (μ : κ → Type) where
  comp : σ
  queues : (k : κ) → List (μ k)

/-- All the components with the queues they share. -/
structure Shared (ι κ σ : Type) (μ : κ → Type) where
  comp : ι → σ
  queues : (k : κ) → List (ι × μ k)

/-- What a component does by itself, with the messages it appends to each queue, and on taking a message
from a queue. -/
structure Behaviour (κ σ : Type) (μ : κ → Type) (α : Type) where
  act : σ → α → ((k : κ) → List (μ k)) → σ → Prop
  take : σ → (k : κ) → μ k → α → σ → Prop

/-- The other queues stay as they are when one loses its head. -/
def Popped {β : κ → Type} (q q' : (k : κ) → List (β k)) (k : κ) (m : β k) : Prop :=
  q k = m :: q' k ∧ ∀ k', k' ≠ k → q' k' = q k'

inductive AloneStep (b : Behaviour κ σ μ α) : Alone κ σ μ → α → Alone κ σ μ → Prop
  | act {s : Alone κ σ μ} {a : α} {out : (k : κ) → List (μ k)} {c : σ} (h : b.act s.comp a out c) :
      AloneStep b s a ⟨c, fun k => s.queues k ++ out k⟩
  | take {s : Alone κ σ μ} {a : α} {k : κ} {m : μ k} {q : (k : κ) → List (μ k)} {c : σ} (hpop : Popped s.queues q k m)
      (h : b.take s.comp k m a c) : AloneStep b s a ⟨c, q⟩

inductive SharedStep (b : Behaviour κ σ μ α) : Shared ι κ σ μ → ι × α → Shared ι κ σ μ → Prop
  | act {s : Shared ι κ σ μ} {i : ι} {a : α} {out : (k : κ) → List (μ k)} {c : σ} (h : b.act (s.comp i) a out c) :
      SharedStep b s (i, a) ⟨update s.comp i c, fun k => s.queues k ++ (out k).map (mk i)⟩
  | take {s : Shared ι κ σ μ} {i : ι} {a : α} {k : κ} {m : μ k} {q : (k : κ) → List (ι × μ k)} {c : σ}
      (hpop : Popped s.queues q k (i, m)) (h : b.take (s.comp i) k m a c) :
      SharedStep b s (i, a) ⟨update s.comp i c, q⟩

/-- The messages of one component. -/
def own {β : Type} (i : ι) (l : List (ι × β)) : List β := (l.filter (fun e => e.1 = i)).map snd

/-- One component, as if it had the queues to itself. -/
def proj (i : ι) (s : Shared ι κ σ μ) : Alone κ σ μ := ⟨s.comp i, fun k => own i (s.queues k)⟩

section
variable {β : Type} {i j : ι} {m : β} {l l' : List (ι × β)} {ms : List β}

@[simp] theorem own_append : own i (l ++ l') = own i l ++ own i l' := by
  unfold own
  rw [filter_append, map_append]

@[simp] theorem own_cons_self : own i ((i, m) :: l) = m :: own i l := by
  unfold own
  rw [filter_cons_of_pos (by simp), map_cons]

theorem own_cons_ne (h : j ≠ i) : own i ((j, m) :: l) = own i l := by
  unfold own
  rw [filter_cons_of_neg (by simpa using h)]

@[simp] theorem own_map_self : own i (ms.map (mk i)) = ms := by
  induction ms with
  | nil => rfl
  | cons m ms ih => rw [map_cons, own_cons_self, ih]

theorem own_map_ne (h : j ≠ i) : own i (ms.map (mk j)) = [] := by
  induction ms with
  | nil => rfl
  | cons m ms ih => rw [map_cons, own_cons_ne h, ih]

end

variable {b : Behaviour κ σ μ α} {s t : Shared ι κ σ μ} {i j : ι} {a : α}

/-- A step is one of the component it belongs to. -/
theorem SharedStep.proj_self (h : SharedStep b s (i, a) t) : AloneStep b (proj i s) a (proj i t) := by
  cases h with
  | @act _ _ out c hact =>
    have hstep : AloneStep b (proj i s) a ⟨c, fun k => (proj i s).queues k ++ out k⟩ := .act hact
    have heq : proj i ⟨update s.comp i c, fun k => s.queues k ++ (out k).map (mk i)⟩ =
        ⟨c, fun k => (proj i s).queues k ++ out k⟩ := by
      unfold proj
      simp
    rw [heq]
    exact hstep
  | @take _ _ k m q c hpop htake =>
    have heq : proj i ⟨update s.comp i c, q⟩ = ⟨c, fun k => own i (q k)⟩ := by
      unfold proj
      simp
    rw [heq]
    refine .take (k := k) (m := m) ⟨?_, fun k' hk' => ?_⟩ htake
    · exact (congrArg (own i) hpop.1).trans own_cons_self
    · exact congrArg (own i) (hpop.2 k' hk')

/-- A step leaves the other components as they are. -/
theorem SharedStep.proj_ne (h : SharedStep b s (j, a) t) (hij : i ≠ j) : proj i t = proj i s := by
  cases h with
  | @act _ _ out c hact =>
    unfold proj
    simp [update_of_ne hij, own_map_ne (Ne.symm hij)]
  | @take _ _ k m q c hpop htake =>
    unfold proj
    simp only [update_of_ne hij, Alone.mk.injEq, true_and]
    funext k'
    by_cases hk : k' = k
    · rw [hk, hpop.1, own_cons_ne (Ne.symm hij)]
    · rw [hpop.2 k' hk]

section
variable {I P : Alone κ σ μ → Prop} {ok : Alone κ σ μ → α → Prop} {run : List ((ι × α) × Shared ι κ σ μ)}

/-- The condition on a step, for the component it belongs to. -/
def Each (ok : Alone κ σ μ → α → Prop) (s : Shared ι κ σ μ) (a : ι × α) : Prop := ok (proj a.1 s) a.2

/-- An invariant that the steps of a component meeting `ok` keep is one of every component of the
executions whose steps meet it. -/
theorem invariant_of_steps (hstep : ∀ s a t, AloneStep b s a t → ok s a → I s → I t)
    (hrun : Lts.Path (SharedStep b) s run) (hok : Lts.Steps (Each ok) s run) (hs : ∀ i, I (proj i s)) :
    ∀ u ∈ s :: run.map snd, ∀ i, I (proj i u) := by
  refine hrun.invariant_of_steps (I := fun u => ∀ i, I (proj i u)) (fun s a t h hok hs i => ?_) hok hs
  obtain ⟨j, a⟩ := a
  by_cases hij : i = j
  · subst hij
    exact hstep _ _ _ h.proj_self hok (hs i)
  · rw [h.proj_ne hij]
    exact hs i

/-- Where a step of a component keeps `P` exactly when it meets `ok`, an execution satisfies `P` for every
component throughout exactly when all its steps meet `ok`. -/
theorem always_iff_steps (hI : ∀ s a t, AloneStep b s a t → I s → P s → P t → I t)
    (hstep : ∀ s a t, AloneStep b s a t → I s → P s → (P t ↔ ok s a))
    (hrun : Lts.Path (SharedStep b) s run) (hs : ∀ i, I (proj i s)) (hP : ∀ i, P (proj i s)) :
    (∀ u ∈ s :: run.map snd, ∀ i, P (proj i u)) ↔ Lts.Steps (Each ok) s run := by
  refine hrun.always_iff_steps (I := fun u => ∀ i, I (proj i u)) (P := fun u => ∀ i, P (proj i u)) ?_ ?_ hs hP
  · rintro s ⟨j, a⟩ t h hs hP hPt i
    by_cases hij : i = j
    · subst hij
      exact hI _ _ _ h.proj_self (hs i) (hP i) (hPt i)
    · rw [h.proj_ne hij]
      exact hs i
  · rintro s ⟨j, a⟩ t h hs hP
    rw [← show P (proj j t) ↔ Each ok s (j, a) from hstep _ _ _ h.proj_self (hs j) (hP j)]
    constructor
    · intro hPt
      exact hPt j
    · intro hPt i
      by_cases hij : i = j
      · subst hij
        exact hPt
      · rw [h.proj_ne hij]
        exact hP i

end

end Mux
