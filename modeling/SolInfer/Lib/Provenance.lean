import Mathlib.Data.List.Basic

set_option autoImplicit false

/-! # Where a stored value comes from

A store holds at most one value for each key. Every access is made on behalf of somebody, its tag. An
access may return the value of its key, or put a new value there, and the store may have been cleared
before. The results say when a value can only be returned to the tag that put it there. -/

namespace Provenance

variable {τ κ V : Type}

structure Access (τ κ V : Type) where
  tag : τ
  key : κ
  returned : Option V
  stored : Option V

variable [DecidableEq κ]

/-- The last access that put a value under a key, in a history with the newest access first. -/
def lastStore (key : κ) (history : List (Access τ κ V)) : Option (Access τ κ V) :=
  history.find? fun a => decide (a.key = key) && a.stored.isSome

theorem lastStore_cons_stored {a : Access τ κ V} {v : V} (hstored : a.stored = some v)
    (history : List (Access τ κ V)) : lastStore a.key (a :: history) = some a := by
  simp [lastStore, hstored]

theorem lastStore_cons_of_not {a : Access τ κ V} {key : κ}
    (h : ¬ (a.key = key ∧ a.stored.isSome = true)) (history : List (Access τ κ V)) :
    lastStore key (a :: history) = lastStore key history := by
  have hfalse : (decide (a.key = key) && a.stored.isSome) = false := by
    simpa using h
  rw [lastStore, List.find?_cons, hfalse]
  rfl

/-- What an access may do to the values that are held. -/
structure Does (held held' : κ → Option V) (cleared : Prop) (a : Access τ κ V) : Prop where
  returned : ∀ v, a.returned = some v → ¬ cleared ∧ held a.key = some v
  held : ∀ key v, held' key = some v →
    (a.key = key ∧ a.stored = some v) ∨
      (¬ cleared ∧ held key = some v ∧ ¬ (a.key = key ∧ a.stored.isSome = true))

/-- Every value that is held was put there last by an access with the tag of the newest one. -/
def Owned (held : κ → Option V) (history : List (Access τ κ V)) : Prop :=
  ∀ key v, held key = some v → ∃ b, lastStore key history = some b ∧ b.stored = some v ∧
    some b.tag = history.head?.map Access.tag

/-- What an access returns was put there last by an access with its own tag. -/
def ReturnsOwn (a : Access τ κ V) (earlier : List (Access τ κ V)) : Prop :=
  ∀ v, a.returned = some v → ∃ b, lastStore a.key earlier = some b ∧ b.stored = some v ∧ b.tag = a.tag

theorem owned_of_none {held : κ → Option V} (h : ∀ key, held key = none)
    (history : List (Access τ κ V)) : Owned held history := by
  intro key v hv
  rw [h key] at hv
  cases hv

variable {held held' : κ → Option V} {cleared : Prop} {a : Access τ κ V} {α : Type}
  {access : α → Access τ κ V} {history : List α}

/-- **Provenance rule**: a store that is cleared or empty wherever the tag changes returns to each tag
    only what it put there itself. -/
theorem Owned.step (h : Owned held (history.map access)) (hdoes : Does held held' cleared a)
    (hnew : ∀ last ∈ history.head?, (access last).tag ≠ a.tag → cleared ∨ ∀ key, held key = none) :
    ReturnsOwn a (history.map access) ∧ Owned held' (a :: history.map access) := by
  have hsame {key : κ} {v : V} (hcleared : ¬ cleared) (hheld : held key = some v) :
      some a.tag = (history.map access).head?.map Access.tag := by
    cases history with
    | nil =>
      obtain ⟨b, hb, -⟩ := h key v hheld
      cases hb
    | cons last earlier =>
      by_contra hne
      rcases hnew last rfl fun heq => hne (congrArg some heq.symm) with hclear | hnone
      · exact hcleared hclear
      · rw [hnone key] at hheld
        cases hheld
  refine ⟨fun v hv => ?_, fun key v hv => ?_⟩
  · obtain ⟨hcleared, hheld⟩ := hdoes.returned v hv
    obtain ⟨b, hb, hstored, hbtag⟩ := h a.key v hheld
    exact ⟨b, hb, hstored, Option.some.inj (hbtag.trans (hsame hcleared hheld).symm)⟩
  · rcases hdoes.held key v hv with ⟨rfl, hstored⟩ | ⟨hcleared, hheld, hnot⟩
    · exact ⟨a, lastStore_cons_stored hstored _, hstored, rfl⟩
    · obtain ⟨b, hb, hstored, hbtag⟩ := h key v hheld
      refine ⟨b, ?_, hstored, hbtag.trans (hsame hcleared hheld).symm⟩
      rw [lastStore_cons_of_not hnot, hb]

end Provenance
