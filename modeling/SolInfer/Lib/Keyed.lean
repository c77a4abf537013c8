import SolInfer.Lib.Python

set_option autoImplicit false

/-! # Loops that act key by key

A loop over a table often does one thing per row: it looks at the entry of the row's key in its
state, decides what becomes of that entry, and leaves every other entry alone. `Keyed` says so of one
round; over rows with distinct keys the whole loop then is the simultaneous action on the initial
entries, and it fails exactly when one of these actions fails. Where rows share keys, the loop acts on
the entry of each key as the rows of that key do one after the other. -/

open List

variable {σ α β ε K : Type} {l : List α} {a : α}

/-- One round of a loop, `step`, turns the entry of its row's key by `act` and frames the rest;
    `view s k` is the entry of `k` in the state `s`. -/
structure Keyed (view : σ → K → β) (key : α → K) (act : α → β → Except ε β)
    (step : σ → α → Except ε σ) : Prop where
  entry : ∀ s a, (step s a).map (fun s' => view s' (key a)) = act a (view s (key a))
  frame : ∀ s a s' k, step s a = .ok s' → k ≠ key a → view s' k = view s k

namespace Keyed

variable {view : σ → K → β} {key : α → K} {act : α → β → Except ε β} {step : σ → α → Except ε σ} {s : σ}

section

variable (h : Keyed view key act step)
include h

theorem act_eq {s' : σ} (hs : step s a = .ok s') : act a (view s (key a)) = .ok (view s' (key a)) := by
  rw [← h.entry, hs]
  rfl

theorem foldlM_frame {s' : σ} (hrun : l.foldlM step s = .ok s') {k : K} (hk : k ∉ l.map key) :
    view s' k = view s k := by
  induction l generalizing s with
  | nil => cases hrun; rfl
  | cons a rest ih =>
    rw [map_cons, mem_cons, not_or] at hk
    obtain ⟨s₁, hs, hrun⟩ := Except.bind_eq_ok.1 hrun
    exact (ih hrun hk.2).trans (h.frame s a s₁ k hs hk.1)

theorem foldlM_entry {s' : σ} (hnodup : (l.map key).Nodup) (hrun : l.foldlM step s = .ok s')
    (ha : a ∈ l) : act a (view s (key a)) = .ok (view s' (key a)) := by
  induction l generalizing s with
  | nil => exact absurd ha not_mem_nil
  | cons b rest ih =>
    rw [map_cons, nodup_cons] at hnodup
    obtain ⟨s₁, hs, hrest⟩ := Except.bind_eq_ok.1 hrun
    rcases mem_cons.1 ha with rfl | hr
    · rw [h.foldlM_frame hrest hnodup.1]
      exact h.act_eq hs
    · have hne : key a ≠ key b := fun he => hnodup.1 (he ▸ mem_map_of_mem hr)
      rw [← h.frame s b s₁ _ hs hne]
      exact ih hnodup.2 hrest hr

theorem foldlM_isOk (hnodup : (l.map key).Nodup)
    (hact : ∀ a ∈ l, ∃ b, act a (view s (key a)) = .ok b) : ∃ s', l.foldlM step s = .ok s' := by
  induction l generalizing s with
  | nil => exact ⟨s, rfl⟩
  | cons a rest ih =>
    rw [map_cons, nodup_cons] at hnodup
    obtain ⟨b, hb⟩ := hact a mem_cons_self
    obtain ⟨s₁, hs, -⟩ := Except.map_eq_ok.1 ((h.entry s a).trans hb)
    rw [foldlM_cons, hs]
    refine ih hnodup.2 fun c hc => ?_
    have hne : key c ≠ key a := fun he => hnodup.1 (he ▸ mem_map_of_mem hc)
    rw [h.frame s a s₁ _ hs hne]
    exact hact c (.tail _ hc)

end

section SharedKeys

variable [DecidableEq K]

theorem foldlM_key (h : Keyed view key act step) {s' : σ} (hrun : l.foldlM step s = .ok s') (k : K) :
    (l.filter (fun a => key a = k)).foldlM (fun b a => act a b) (view s k) = .ok (view s' k) := by
  induction l generalizing s with
  | nil => cases hrun; rfl
  | cons a rest ih =>
    obtain ⟨s₁, hs, hrun⟩ := Except.bind_eq_ok.1 hrun
    by_cases hk : key a = k
    · subst hk
      rw [filter_cons_of_pos (by simp), foldlM_cons, h.act_eq hs]
      exact ih hrun
    · rw [filter_cons_of_neg (by simpa using hk), ← h.frame s a s₁ k hs (Ne.symm hk)]
      exact ih hrun

theorem foldlM_isOk_of_key (h : Keyed view key act step)
    (hact : ∀ k, ∃ b, (l.filter (fun a => key a = k)).foldlM (fun b a => act a b) (view s k) = .ok b) :
    ∃ s', l.foldlM step s = .ok s' := by
  induction l generalizing s with
  | nil => exact ⟨s, rfl⟩
  | cons a rest ih =>
    obtain ⟨b, hb⟩ := hact (key a)
    rw [filter_cons_of_pos (by simp), foldlM_cons, ← h.entry] at hb
    obtain ⟨_, hv, hb⟩ := Except.bind_eq_ok.1 hb
    obtain ⟨s₁, hs, rfl⟩ := Except.map_eq_ok.1 hv
    rw [foldlM_cons, hs]
    refine ih fun k => ?_
    by_cases hk : key a = k
    · subst hk
      exact ⟨b, hb⟩
    · obtain ⟨c, hc⟩ := hact k
      rw [filter_cons_of_neg (by simpa using hk), ← h.frame s a s₁ k hs (Ne.symm hk)] at hc
      exact ⟨c, hc⟩

end SharedKeys

end Keyed

/-- `Keyed` for a loop that cannot fail. -/
structure KeyedPure (view : σ → K → β) (key : α → K) (act : α → β → β) (step : σ → α → σ) : Prop where
  entry : ∀ s a, view (step s a) (key a) = act a (view s (key a))
  frame : ∀ s a k, k ≠ key a → view (step s a) k = view s k

namespace KeyedPure

variable {view : σ → K → β} {key : α → K} {act : α → β → β} {step : σ → α → σ}

section

variable (h : KeyedPure view key act step)
include h

theorem keyed :
    Keyed view key (fun a b => (.ok (act a b) : Except Empty β)) (fun s a => .ok (step s a)) where
  entry s a := congrArg Except.ok (h.entry s a)
  frame s a s' k hs hk := by
    cases hs
    exact h.frame s a k hk

theorem foldl_frame (l : List α) (s : σ) {k : K} (hk : k ∉ l.map key) :
    view (l.foldl step s) k = view s k :=
  h.keyed.foldlM_frame foldlM_pure hk

theorem foldl_entry (s : σ) (hnodup : (l.map key).Nodup) (ha : a ∈ l) :
    view (l.foldl step s) (key a) = act a (view s (key a)) :=
  (Except.ok.inj (h.keyed.foldlM_entry hnodup foldlM_pure ha)).symm

theorem foldl_key [DecidableEq K] (l : List α) (s : σ) (k : K) :
    view (l.foldl step s) k
      = (l.filter (fun a => key a = k)).foldl (fun b a => act a b) (view s k) := by
  have hkey := h.keyed.foldlM_key (l := l) (s := s) foldlM_pure k
  exact (Except.ok.inj ((foldlM_pure).symm.trans hkey)).symm

end

end KeyedPure
