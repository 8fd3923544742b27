import Mathlib.Data.List.Basic

/-! Computations that may fail and that log their accesses, with rules for what every access
and every result of a computation satisfy. -/

structure Run (ε δ α : Type) where
  log : List ε
  res : Except δ α

namespace Run
open List

variable {ε δ α β γ : Type} {m : Run ε δ α} {f : α → Run ε δ β} {a : α} {d : δ}

/-- Run the rest after `m`; what `m` logged stays logged when the rest fails. -/
def andThen (m : Run ε δ α) (f : α → Run ε δ β) : Run ε δ β :=
  match m.res with
  | .ok a => ⟨m.log ++ (f a).log, (f a).res⟩
  | .error d => ⟨m.log, .error d⟩

instance : Monad (Run ε δ) where
  pure a := ⟨[], .ok a⟩
  bind := andThen

def emit (e : ε) : Run ε δ Unit := ⟨[e], .ok ()⟩

def fail (d : δ) : Run ε δ α := ⟨[], .error d⟩

@[simp] theorem log_pure (a : α) : (pure a : Run ε δ α).log = [] := rfl
@[simp] theorem res_pure (a : α) : (pure a : Run ε δ α).res = .ok a := rfl
@[simp] theorem log_fail (d : δ) : (fail d : Run ε δ α).log = [] := rfl
@[simp] theorem res_fail (d : δ) : (fail d : Run ε δ α).res = .error d := rfl

theorem bind_ok {l : List ε} : ((⟨l, .ok a⟩ : Run ε δ α) >>= f) = ⟨l ++ (f a).log, (f a).res⟩ := rfl

theorem bind_of_error (h : m.res = .error d) : (m >>= f) = ⟨m.log, .error d⟩ := by
  obtain ⟨l, _ | a⟩ := m
  · cases h
    rfl
  · cases h

@[simp] theorem pure_bind (a : α) (f : α → Run ε δ β) : (pure a >>= f) = f a := rfl

@[simp] theorem fail_bind (d : δ) (f : α → Run ε δ β) : (fail d >>= f) = fail d := rfl

theorem bind_assoc (m : Run ε δ α) (f : α → Run ε δ β) (g : β → Run ε δ γ) :
    (m >>= f >>= g) = (m >>= fun a => f a >>= g) := by
  obtain ⟨l, _ | a⟩ := m
  · rfl
  · rw [bind_ok, bind_ok]
    cases hf : f a with
    | mk l' r =>
      cases r with
      | error d => rfl
      | ok b =>
        show (⟨(l ++ l') ++ (g b).log, (g b).res⟩ : Run ε δ γ) = ⟨l ++ (l' ++ (g b).log), (g b).res⟩
        rw [append_assoc]

@[simp] theorem log_bind_pure (m : Run ε δ α) (g : α → β) : (m >>= fun a => pure (g a)).log = m.log := by
  obtain ⟨l, d | a⟩ := m
  · rfl
  · exact append_nil l

theorem bind_congr {g : α → Run ε δ β} (h : ∀ a, m.res = .ok a → f a = g a) : (m >>= f) = (m >>= g) := by
  obtain ⟨l, d | a⟩ := m
  · rfl
  · rw [bind_ok, bind_ok, h a rfl]

theorem mem_log_bind {e : ε} (h : e ∈ m.log) : e ∈ (m >>= f).log := by
  obtain ⟨l, _ | a⟩ := m
  · exact h
  · exact mem_append_left _ h

theorem mem_log_bind_of_ok {e : ε} (hm : m.res = .ok a) (h : e ∈ (f a).log) : e ∈ (m >>= f).log := by
  obtain ⟨l, _ | b⟩ := m
  · cases hm
  · cases hm
    exact mem_append_right _ h

theorem mem_bind_log {e : ε} (h : e ∈ (m >>= f).log) : e ∈ m.log ∨ ∃ a, m.res = .ok a ∧ e ∈ (f a).log := by
  obtain ⟨l, _ | a⟩ := m
  · exact .inl h
  · exact (mem_append.mp h).imp_right (fun h => ⟨a, rfl, h⟩)

/-- A computation that returns does so through its first part. -/
theorem res_bind_ok {b : β} (h : (m >>= f).res = .ok b) :
    ∃ a, m.res = .ok a ∧ (f a).res = .ok b ∧ (m >>= f).log = m.log ++ (f a).log := by
  obtain ⟨l, _ | a⟩ := m
  · cases h
  · exact ⟨a, rfl, h, rfl⟩

theorem res_bind_of_ok (h : m.res = .ok a) : (m >>= f).res = (f a).res := by
  obtain ⟨l, _ | b⟩ := m
  · cases h
  · cases h
    rfl

section
variable {ε' : Type} {p : ε → Option ε'}

/-- The same computation, of whose log only a part is seen. -/
def filterLog (p : ε → Option ε') (m : Run ε δ α) : Run ε' δ α := ⟨m.log.filterMap p, m.res⟩

theorem filterLog_bind (m : Run ε δ α) (f : α → Run ε δ β) :
    filterLog p (m >>= f) = filterLog p m >>= fun a => filterLog p (f a) := by
  obtain ⟨l, d | a⟩ := m
  · rfl
  · exact congrArg₂ Run.mk (filterMap_append ..) rfl

end

/-- Every access satisfies `P`, every error `E` and every result `Q`. -/
structure Meets (m : Run ε δ α) (P : ε → Prop) (E : δ → Prop) (Q : α → Prop) : Prop where
  logged : ∀ e ∈ m.log, P e
  failed : ∀ d, m.res = .error d → E d
  returned : ∀ a, m.res = .ok a → Q a

variable {P P' : ε → Prop} {E E' : δ → Prop} {Q Q' : α → Prop} {R : β → Prop}

theorem meets_pure (h : Q a) : (pure a : Run ε δ α).Meets P E Q where
  logged := by simp
  failed := by simp
  returned := by
    intro b hb
    cases hb
    exact h

theorem meets_fail (h : E d) : (fail d : Run ε δ α).Meets P E Q where
  logged := by simp
  failed := by
    intro d' hd
    cases hd
    exact h
  returned := by simp

theorem Meets.bind (hm : m.Meets P E Q) (hf : ∀ a, Q a → (f a).Meets P E R) : (m >>= f).Meets P E R := by
  obtain ⟨l, d | a⟩ := m
  · exact ⟨hm.logged, fun d' hd => hm.failed d' (by cases hd; rfl), nofun⟩
  · have ha := hf a (hm.returned a rfl)
    refine ⟨fun e he => ?_, ha.failed, ha.returned⟩
    rcases mem_append.mp he with he | he
    · exact hm.logged e he
    · exact ha.logged e he

theorem meets_emit_bind {e : ε} {f : Unit → Run ε δ β} (he : P e) (hf : (f ()).Meets P E R) :
    (emit e >>= f).Meets P E R := by
  refine ⟨fun e' he' => ?_, hf.failed, hf.returned⟩
  rcases mem_cons.mp he' with rfl | he'
  · exact he
  · exact hf.logged e' he'

theorem Meets.res (h : m.Meets P E Q) : m.Meets P E (fun a => Q a ∧ m.res = .ok a) :=
  ⟨h.logged, h.failed, fun a ha => ⟨h.returned a ha, ha⟩⟩

theorem Meets.mono (h : m.Meets P E Q) (hP : ∀ e, P e → P' e) (hE : ∀ d, E d → E' d)
    (hQ : ∀ a, Q a → Q' a) : m.Meets P' E' Q' :=
  ⟨fun e he => hP e (h.logged e he), fun d hd => hE d (h.failed d hd), fun a ha => hQ a (h.returned a ha)⟩

end Run
