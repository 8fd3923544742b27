import Mathlib.Data.List.Basic

/-! Finite executions of a labelled step relation, and the induction rules over them. -/
namespace Lts
open Prod List Option

variable {σ α : Type} {step : σ → α → σ → Prop} {I P : σ → Prop} {ok : σ → α → Prop}
  {s t u : σ} {a : α} {p q : List (α × σ)}

/-- The label and state list `p` is an execution from `s`. -/
def Path (step : σ → α → σ → Prop) : σ → List (α × σ) → Prop
  | _, [] => True
  | s, (a, t) :: p => step s a t ∧ Path step t p

/-- Every label of the execution meets `ok` in the state it is taken from. -/
def Steps (ok : σ → α → Prop) : σ → List (α × σ) → Prop
  | _, [] => True
  | s, (a, t) :: p => ok s a ∧ Steps ok t p

/-- The state in which the execution ends. -/
def final : σ → List (α × σ) → σ
  | s, [] => s
  | _, (_, t) :: p => final t p

@[simp] theorem path_nil : Path step s [] := trivial

@[simp] theorem path_cons : Path step s ((a, t) :: p) ↔ step s a t ∧ Path step t p := Iff.rfl

@[simp] theorem steps_nil : Steps ok s [] := trivial

@[simp] theorem final_nil : final s ([] : List (α × σ)) = s := rfl

@[simp] theorem final_cons : final s ((a, t) :: p) = final t p := rfl

theorem final_append : final s (p ++ q) = final (final s p) q := by
  induction p generalizing s with
  | nil => rfl
  | cons x p ih => exact ih

theorem path_append : Path step s (p ++ q) ↔ Path step s p ∧ Path step (final s p) q := by
  induction p generalizing s with
  | nil => simp
  | cons x p ih => obtain ⟨a, t⟩ := x; simp [ih, and_assoc]

theorem Path.mono {step' : σ → α → σ → Prop} (h : ∀ s a t, step s a t → step' s a t) (hp : Path step s p) :
    Path step' s p := by
  induction p generalizing s with
  | nil => trivial
  | cons x p ih =>
    exact ⟨h _ _ _ hp.1, ih hp.2⟩

theorem steps_true (s : σ) (p : List (α × σ)) : Steps (fun _ _ => True) s p := by
  induction p generalizing s with
  | nil => trivial
  | cons x p ih => exact ⟨trivial, ih _⟩

/-- An invariant that only the steps meeting `ok` keep holds along the executions
all of whose steps meet it. -/
theorem Path.invariant_of_steps (hstep : ∀ s a t, step s a t → ok s a → I s → I t)
    (hp : Path step s p) (hok : Steps ok s p) (hs : I s) : ∀ u ∈ s :: p.map snd, I u := by
  induction p generalizing s with
  | nil => simpa using hs
  | cons x p ih =>
    have ht := ih hp.2 hok.2 (hstep _ _ _ hp.1 hok.1 hs)
    intro u hu
    rcases mem_cons.mp hu with rfl | hu
    · exact hs
    · exact ht u hu

/-- An invariant of every step holds in every state of an execution. -/
theorem Path.invariant (hstep : ∀ s a t, step s a t → I s → I t)
    (hp : Path step s p) (hs : I s) : ∀ u ∈ s :: p.map snd, I u :=
  hp.invariant_of_steps (fun s a t h _ => hstep s a t h) (steps_true s p) hs

/-- An execution is no longer than a measure that every step lowers. -/
theorem Path.length_le {μ : σ → Nat} (hI : ∀ s a t, step s a t → I s → I t)
    (hμ : ∀ s a t, step s a t → I s → μ t < μ s) (hp : Path step s p) (hs : I s) : p.length ≤ μ s := by
  induction p generalizing s with
  | nil => exact Nat.zero_le _
  | cons x p ih =>
    have hlt := hμ _ _ _ hp.1 hs
    have hle := ih hp.2 (hI _ _ _ hp.1 hs)
    rw [length_cons]
    omega

theorem final_mem (s : σ) (p : List (α × σ)) : final s p ∈ s :: p.map snd := by
  induction p generalizing s with
  | nil => simp
  | cons x p ih =>
    obtain ⟨a, t⟩ := x
    exact .tail _ (ih t)

/-- Where a step keeps `P` exactly when it meets `ok`, an execution satisfies `P`
throughout exactly when all its steps meet `ok`. -/
theorem Path.always_iff_steps (hI : ∀ s a t, step s a t → I s → P s → P t → I t)
    (hstep : ∀ s a t, step s a t → I s → P s → (P t ↔ ok s a)) (hp : Path step s p) (hs : I s) (hP : P s) :
    (∀ u ∈ s :: p.map snd, P u) ↔ Steps ok s p := by
  induction p generalizing s with
  | nil => simpa using hP
  | cons x p ih =>
    obtain ⟨a, t⟩ := x
    have hiff := hstep _ _ _ hp.1 hs hP
    constructor
    · intro h
      have ht : P t := h t (by simp)
      have hrest := (ih hp.2 (hI _ _ _ hp.1 hs hP ht) ht).mp
        (fun u hu => h u (.tail _ hu))
      exact ⟨hiff.mp ht, hrest⟩
    · rintro ⟨hok, hrest⟩ u hu
      have ht : P t := hiff.mpr hok
      rcases mem_cons.mp hu with rfl | hu
      · exact hP
      · exact (ih hp.2 (hI _ _ _ hp.1 hs hP ht) ht).mpr hrest u hu

/-- Where the steps from an invariant that meet `ok` are good and keep it, so are all the steps of an
execution that meet it. -/
theorem Path.good_of_steps {good : σ → α → σ → Prop} (hstep : ∀ s a t, step s a t → ok s a → I s → good s a t ∧ I t)
    (hp : Path step s p) (hok : Steps ok s p) (hs : I s) : Path good s p := by
  induction p generalizing s with
  | nil => trivial
  | cons x p ih =>
    obtain ⟨hgood, ht⟩ := hstep _ _ _ hp.1 hok.1 hs
    exact ⟨hgood, ih hp.2 hok.2 ht⟩

/-- Where the steps from an invariant are good and keep it, so are all the steps of an execution. -/
theorem Path.good {good : σ → α → σ → Prop} (hstep : ∀ s a t, step s a t → I s → good s a t ∧ I t)
    (hp : Path step s p) (hs : I s) : Path good s p :=
  hp.good_of_steps (fun s a t h _ => hstep s a t h) (steps_true s p) hs

/-- Where the steps from an invariant are good exactly when they meet `ok`, the steps of an execution
are all good exactly when they all meet it. -/
theorem Path.good_iff_steps {good : σ → α → σ → Prop} (hI : ∀ s a t, step s a t → I s → good s a t → I t)
    (hstep : ∀ s a t, step s a t → I s → (good s a t ↔ ok s a)) (hp : Path step s p) (hs : I s) :
    Path good s p ↔ Steps ok s p := by
  induction p generalizing s with
  | nil => exact Iff.rfl
  | cons x p ih =>
    have hiff := hstep _ _ _ hp.1 hs
    constructor
    · rintro ⟨hgood, hrest⟩
      exact ⟨hiff.mp hgood, (ih hp.2 (hI _ _ _ hp.1 hs hgood)).mp hrest⟩
    · rintro ⟨hok, hrest⟩
      have hgood := hiff.mpr hok
      exact ⟨hgood, (ih hp.2 (hI _ _ _ hp.1 hs hgood)).mpr hrest⟩

/-- Run a partial step function on a list of labels. -/
def exec (f : σ → α → Option σ) : σ → List α → Option σ
  | s, [] => some s
  | s, a :: as => (f s a).bind (fun t => exec f t as)

/-- A run of labels that all meet `ok` when they are due. -/
theorem steps_of_exec {f : σ → α → Option σ} {as : List α} [∀ s a, Decidable (ok s a)]
    (h : exec (fun s a => if ok s a then f s a else none) s as = some t) :
    ∃ p, Path (fun s a t => f s a = some t) s p ∧ Steps ok s p ∧ final s p = t := by
  induction as generalizing s with
  | nil => exact ⟨[], trivial, trivial, some.inj h⟩
  | cons a as ih =>
    obtain ⟨u, hu, hrest⟩ := bind_eq_some_iff.mp h
    obtain ⟨p, hp, hok, hf⟩ := ih hrest
    dsimp only at hu
    split at hu
    · rename_i hs
      exact ⟨(a, u) :: p, ⟨hu, hp⟩, ⟨hs, hok⟩, hf⟩
    · cases hu

theorem path_of_exec {f : σ → α → Option σ} {as : List α} (h : exec f s as = some t) :
    ∃ p, Path (fun s a t => f s a = some t) s p ∧ final s p = t := by
  have h' : exec (fun s a => if True then f s a else none) s as = some t := by simpa using h
  obtain ⟨p, hp, -, hf⟩ := steps_of_exec h'
  exact ⟨p, hp, hf⟩

theorem exec_invariant {f : σ → α → Option σ} {as : List α} {ok : α → Prop}
    (hstep : ∀ s a t, f s a = some t → ok a → I s → I t) (h : exec f s as = some t)
    (hok : ∀ a ∈ as, ok a) (hs : I s) : I t := by
  induction as generalizing s with
  | nil => exact some.inj h ▸ hs
  | cons a as ih =>
    obtain ⟨u, hu, hrest⟩ := bind_eq_some_iff.mp h
    exact ih hrest (fun b hb => hok b (.tail _ hb))
      (hstep s a u hu (hok a (by simp)) hs)

end Lts
