import Mathlib

set_option autoImplicit false

/-! # Increments of a text

A text is shown again and again, and only what is past the length shown before is sent. When the texts are
prefixes of the last one and never get shorter, what is sent is the last text; when one gets shorter, more is
sent than that. -/

open List

namespace Increments

variable {α : Type}

/-- What is sent, when `n` characters have been shown. -/
def increments : Nat → List (List α) → List (List α)
  | _, [] => []
  | n, t :: ts => t.drop n :: increments t.length ts

/-- No text is shorter than the one before. -/
def Grows : Nat → List (List α) → Prop
  | _, [] => True
  | n, t :: ts => n ≤ t.length ∧ Grows t.length ts

def lastLength : Nat → List (List α) → Nat
  | n, [] => n
  | _, t :: ts => lastLength t.length ts

variable {n : Nat} {ts : List (List α)} {t : List α}

theorem lastLength_concat (n : Nat) (ts : List (List α)) (t : List α) :
    lastLength n (ts ++ [t]) = t.length := by
  induction ts generalizing n with
  | nil => rfl
  | cons u ts ih => exact ih u.length

theorem flatten_of_grows (hpre : ∀ u ∈ ts, u <+: t) (h : Grows n ts) :
    t.take n ++ (increments n ts).flatten = t.take (lastLength n ts) := by
  induction ts generalizing n with
  | nil => simp [increments, lastLength]
  | cons u ts ih =>
    obtain ⟨hn, hrest⟩ := h
    have hu := prefix_iff_eq_take.1 (hpre u mem_cons_self)
    have hsplit : t.take n ++ u.drop n = t.take u.length := by
      conv_lhs => rw [hu, drop_take, ← take_add]
      rw [Nat.add_sub_cancel' hn, ← hu]
    rw [increments, flatten_cons, ← append_assoc, hsplit,
      ih (fun v hv => hpre v (.tail _ hv)) hrest, lastLength]

theorem lastLength_le (n : Nat) (ts : List (List α)) :
    lastLength n ts ≤ n + (increments n ts).flatten.length := by
  induction ts generalizing n with
  | nil => simp [lastLength]
  | cons u ts ih =>
    have := ih u.length
    simp only [lastLength, increments, flatten_cons, length_append, length_drop]
    omega

theorem lastLength_lt (h : ¬ Grows n ts) : lastLength n ts < n + (increments n ts).flatten.length := by
  induction ts generalizing n with
  | nil => exact absurd trivial h
  | cons u ts ih =>
    simp only [lastLength, increments, flatten_cons, length_append, length_drop]
    by_cases hn : n ≤ u.length
    · have := ih fun hrest => h ⟨hn, hrest⟩
      omega
    · have := lastLength_le u.length ts
      omega

theorem grows_concat (n : Nat) (ts : List (List α)) (t : List α) :
    Grows n (ts ++ [t]) ↔ Grows n ts ∧ lastLength n ts ≤ t.length := by
  induction ts generalizing n with
  | nil => simp [Grows, lastLength]
  | cons u ts ih => simp only [cons_append, Grows, lastLength, ih, and_assoc]

theorem lastLength_le_of_isPrefix (hn : n ≤ t.length) (hpre : ∀ u ∈ ts, u <+: t) : lastLength n ts ≤ t.length := by
  induction ts generalizing n with
  | nil => exact hn
  | cons u ts ih =>
    exact ih (hpre u mem_cons_self).length_le fun v hv => hpre v (.tail _ hv)

/-- **What is sent is a given text exactly when no text gets shorter and the last one is the given one.** -/
theorem flatten_increments_eq_iff {whole expected : List α} (hpre : ∀ u ∈ ts, u <+: whole) (ht : t <+: whole)
    (hle : expected.length ≤ t.length) :
    (increments 0 (ts ++ [t])).flatten = expected ↔ Grows 0 (ts ++ [t]) ∧ t = expected := by
  have hsent : Grows 0 (ts ++ [t]) → (increments 0 (ts ++ [t])).flatten = t := by
    intro h
    have hall : ∀ u ∈ ts ++ [t], u <+: whole := by
      intro u hu
      rcases mem_append.1 hu with hu | hu
      · exact hpre u hu
      · rwa [mem_singleton.1 hu]
    have := flatten_of_grows hall h
    rwa [lastLength_concat, take_zero, nil_append, ← prefix_iff_eq_take.1 ht] at this
  constructor
  · intro h
    have hgrows : Grows 0 (ts ++ [t]) := by
      -- a text that gets shorter makes what is sent longer than the last text
      by_contra hnot
      have := lastLength_lt hnot
      rw [lastLength_concat, Nat.zero_add, h] at this
      omega
    exact ⟨hgrows, (hsent hgrows).symm.trans h⟩
  · rintro ⟨hgrows, rfl⟩
    exact hsent hgrows

end Increments
