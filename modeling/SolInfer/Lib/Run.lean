import Mathlib

set_option autoImplicit false

/-! # Runs of a step function

A system is a partial step function on states and events. `Reaches step P s₀ s` says that some run
leads from `s₀` to `s` and that each of its steps meets the condition `P` in the state where it is
taken; with the condition `fun _ _ => True` these are all runs. -/

namespace Run

variable {σ ε : Type}

/-- The states that a run can reach when all its steps meet the condition. -/
inductive Reaches (step : σ → ε → Option σ) (P : σ → ε → Prop) (s₀ : σ) : σ → Prop where
  | refl : Reaches step P s₀ s₀
  | step {s s' : σ} {e : ε} :
      Reaches step P s₀ s → P s e → step s e = some s' → Reaches step P s₀ s'

variable {step : σ → ε → Option σ} {P Q : σ → ε → Prop} {s₀ s : σ}

/-- **Invariant rule**: what holds at the start and survives every admitted step holds in every
    state reached. -/
theorem Reaches.invariant {I : σ → Prop} (h : Reaches step P s₀ s) (h₀ : I s₀)
    (hstep : ∀ s e s', I s → P s e → step s e = some s' → I s') : I s := by
  induction h with
  | refl => exact h₀
  | step _ hP he ih => exact hstep _ _ _ ih hP he

theorem forall_mem_set {τ : Type} {R : τ → Prop} {tasks : List τ} {t : τ} (h : ∀ s ∈ tasks, R s) (ht : R t)
    (i : Nat) : ∀ s ∈ tasks.set i t, R s := by
  intro s hs
  rcases List.mem_or_eq_of_mem_set hs with hs | rfl
  · exact h s hs
  · exact ht

def exec (step : σ → ε → Option σ) : σ → List ε → Option σ
  | s, [] => some s
  | s, e :: es =>
    match step s e with
    | none => none
    | some s' => exec step s' es

theorem Reaches.trans {s' : σ} (h : Reaches step P s₀ s) (h' : Reaches step P s s') :
    Reaches step P s₀ s' := by
  induction h' with
  | refl => exact h
  | step _ hP he ih => exact Reaches.step ih hP he

/-- An executed list of events whose steps all pass a check is a run that meets the condition. -/
theorem reaches_of_exec_guarded [∀ s e, Decidable (P s e)] {es : List ε}
    (h : exec (fun s e => if P s e then step s e else none) s₀ es = some s) :
    Reaches step P s₀ s := by
  induction es generalizing s₀ with
  | nil => cases h; exact Reaches.refl
  | cons e es ih =>
    rw [exec] at h
    split at h
    · cases h
    next s' he =>
      split at he
      next hP => exact (Reaches.step Reaches.refl hP he).trans (ih h)
      · cases he

theorem reaches_of_exec {es : List ε} (h : exec step s₀ es = some s) :
    Reaches step (fun _ _ => True) s₀ s :=
  reaches_of_exec_guarded (by simpa using h)

end Run

/-! ## Histories

A machine takes inputs and leaves a record of each. Its history is the list of the records, the newest
first, so that what a record says about its past is said of the list behind it. -/

namespace History

variable {σ ι α : Type}

/-- Every record of a history fits what came before it. -/
def Always (P : α → List α → Prop) : List α → Prop
  | [] => True
  | r :: earlier => P r earlier ∧ Always P earlier

/-- One step of a machine that keeps its history. -/
def log (step : σ → ι → α × σ) (s : σ × List α) (x : ι) : Option (σ × List α) :=
  let (r, next) := step s.1 x
  some (next, r :: s.2)

variable {step : σ → ι → α × σ} {P : α → List α → Prop} {cond : σ × List α → ι → Prop}
  {s₀ : σ} {s : σ × List α}

/-- **History rule**: if the state stands in a relation to the history, and every admitted step keeps
    the relation and leaves a record that fits the history, then every record of a run fits its past. -/
theorem always_of_reaches {R : σ → List α → Prop} (h : Run.Reaches (log step) cond (s₀, []) s)
    (h₀ : R s₀ [])
    (hstep : ∀ s earlier x, R s earlier → cond (s, earlier) x →
      P (step s x).1 earlier ∧ R (step s x).2 ((step s x).1 :: earlier)) :
    R s.1 s.2 ∧ Always P s.2 := by
  refine h.invariant (I := fun (s : σ × List α) => R s.1 s.2 ∧ Always P s.2) ⟨h₀, trivial⟩ ?_
  rintro ⟨s, earlier⟩ x s' ⟨hR, halways⟩ hcond hs'
  cases hs'
  obtain ⟨hP, hR'⟩ := hstep s earlier x hR hcond
  exact ⟨hR', hP, halways⟩

end History
