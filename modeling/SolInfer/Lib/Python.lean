import Mathlib

set_option autoImplicit false

/-! # Python exceptions

The models of fallible code return `Except PyError`. The text of an exception is kept where the
source builds it. -/

/-- The exception classes the modelled code raises. -/
inductive PyError where
  | valueError (msg : String)
  | keyError (msg : String)
  | indexError (msg : String)
  | typeError (msg : String)
  | attributeError (msg : String)
  | runtimeError (msg : String)
  | assertionError (msg : String)
  | unboundLocalError (msg : String)
  /-- Not an exception: a loop of the source that has not ended within the fuel of its model. -/
  | diverged
deriving DecidableEq, Repr

/-- `str(e)`. -/
def PyError.str : PyError → String
  | .valueError msg | .keyError msg | .indexError msg | .typeError msg | .attributeError msg
  | .runtimeError msg | .assertionError msg | .unboundLocalError msg => msg
  | .diverged => ""

instance Except.instDecidableEq {ε α : Type} [DecidableEq ε] [DecidableEq α] : DecidableEq (Except ε α)
  | .ok a, .ok b => decidable_of_iff (a = b) (by simp)
  | .error a, .error b => decidable_of_iff (a = b) (by simp)
  | .ok _, .error _ => isFalse (by simp)
  | .error _, .ok _ => isFalse (by simp)

variable {ε α β : Type}

theorem Except.toOption_eq_some {x : Except ε α} {a : α} : x.toOption = some a ↔ x = .ok a := by
  cases x <;> simp [Except.toOption]

/-- A sequence that returns: its first part returns, and so does the rest. -/
theorem Except.bind_eq_ok {x : Except ε α} {f : α → Except ε β} {b : β} :
    x >>= f = .ok b ↔ ∃ a, x = .ok a ∧ f a = .ok b := by
  constructor
  · intro h
    cases x with
    | error e => cases h
    | ok a => exact ⟨a, rfl, h⟩
  · rintro ⟨a, rfl, h⟩
    exact h

theorem Except.map_eq_ok {x : Except ε α} {f : α → β} {b : β} :
    x.map f = .ok b ↔ ∃ a, x = .ok a ∧ f a = b := by
  cases x <;> simp [Except.map]

theorem Except.map_eq_error {x : Except ε α} {f : α → β} {e : ε} : x.map f = .error e ↔ x = .error e := by
  cases x <;> simp [Except.map]

/-! ## Loops that can raise -/

theorem mapM_map_ok {γ : Type} {f : β → Except ε γ} {key : α → β} {g : α → γ} (l : List α)
    (h : ∀ a ∈ l, f (key a) = .ok (g a)) : (l.map key).mapM f = .ok (l.map g) := by
  induction l with
  | nil => rfl
  | cons a rest ih =>
    rw [List.map_cons, List.mapM_cons, h a (List.mem_cons_self ..), ih (fun c hc => h c (.tail _ hc))]
    rfl

theorem length_of_mapM {f : α → Except ε β} {l : List α} {r : List β}
    (h : l.mapM f = .ok r) : r.length = l.length := by
  induction l generalizing r with
  | nil => cases h; rfl
  | cons a rest ih =>
    rw [List.mapM_cons] at h
    obtain ⟨b, -, h⟩ := Except.bind_eq_ok.1 h
    obtain ⟨bs, hbs, h⟩ := Except.bind_eq_ok.1 h
    cases h
    rw [List.length_cons, List.length_cons, ih hbs]

theorem foldlM_error_of_mem {σ : Type} {step : σ → α → Except ε σ} {l : List α} {a : α}
    (ha : a ∈ l) (h : ∀ s, ∃ e, step s a = .error e) (s : σ) : ∃ e, l.foldlM step s = .error e := by
  induction l generalizing s with
  | nil => cases ha
  | cons b rest ih =>
    rw [List.foldlM_cons]
    cases hb : step s b with
    | error e => exact ⟨e, rfl⟩
    | ok s' =>
      rcases List.mem_cons.1 ha with rfl | hr
      · obtain ⟨e, he⟩ := h s
        rw [hb] at he
        cases he
      · exact ih hr s'

/-- **Loop rule**: an invariant that every round keeps holds after the loop, and so does what a round
    establishes for its own element and every round keeps for the others. -/
theorem foldlM_visits {σ : Type} {step : σ → α → Except ε σ} {Inv : σ → Prop} {Done : α → σ → Prop}
    (hstep : ∀ s a s', Inv s → step s a = .ok s' → Inv s' ∧ Done a s' ∧ ∀ b, Done b s → Done b s')
    {l : List α} {s s' : σ} (h : l.foldlM step s = .ok s') (hinv : Inv s) :
    Inv s' ∧ (∀ a ∈ l, Done a s') ∧ ∀ b, Done b s → Done b s' := by
  induction l generalizing s with
  | nil =>
    cases h
    exact ⟨hinv, fun _ ha => absurd ha List.not_mem_nil, fun _ hb => hb⟩
  | cons a rest ih =>
    obtain ⟨s₁, hs₁, hrest⟩ := Except.bind_eq_ok.1 h
    obtain ⟨hinv₁, hdone, hkeep⟩ := hstep s a s₁ hinv hs₁
    obtain ⟨hinv', hall, hkeep'⟩ := ih hrest hinv₁
    refine ⟨hinv', fun b hb => ?_, fun b hb => hkeep' b (hkeep b hb)⟩
    rcases List.mem_cons.1 hb with rfl | hb
    · exact hkeep' b hdone
    · exact hall b hb
