import Mathlib

set_option autoImplicit false

/-! # What the tasks of a table hold

Each task of a table holds some items, with repetitions. The tally of an item counts how often it is held;
replacing one task changes it by what that task gives up and takes. -/

namespace Tally

variable {τ α : Type} [DecidableEq α] (held : τ → List α) {tasks : List τ} {t : τ}

/-- How often the tasks hold an item. -/
def tally (tasks : List τ) (a : α) : Nat := (tasks.map fun t => (held t).count a).sum

theorem tally_append (tasks : List τ) (t : τ) (a : α) :
    tally held (tasks ++ [t]) a = tally held tasks a + (held t).count a := by
  simp [tally]

theorem tally_set {i : Nat} (h : tasks[i]? = some t) (t' : τ) (a : α) :
    tally held (tasks.set i t') a + (held t).count a = tally held tasks a + (held t').count a := by
  induction tasks generalizing i with
  | nil => cases h
  | cons s rest ih =>
    cases i with
    | zero =>
      cases h
      simp only [tally, List.set_cons_zero, List.map_cons, List.sum_cons]
      omega
    | succ i =>
      have hrest := ih h
      simp only [tally, List.set_cons_succ, List.map_cons, List.sum_cons] at hrest ⊢
      omega

/-- A task that holds the same items after a step leaves every tally as it is. -/
theorem tally_set_of_count {i : Nat} {t' : τ} (h : tasks[i]? = some t)
    (hcount : ∀ a, (held t').count a = (held t).count a) (a : α) :
    tally held (tasks.set i t') a = tally held tasks a := by
  have := tally_set held h t' a
  rw [hcount] at this
  omega

theorem tally_pos {a : α} (ht : t ∈ tasks) (ha : a ∈ held t) : 0 < tally held tasks a := by
  have hle : (held t).count a ≤ tally held tasks a :=
    List.single_le_sum (fun _ _ => Nat.zero_le _) _ (List.mem_map_of_mem ht)
  exact lt_of_lt_of_le (List.count_pos_iff.2 ha) hle

theorem count_map_eraseIdx {β : Type} {f : β → α} {l : List β} {j : Nat} {b : β} (h : l[j]? = some b)
    (a : α) : (l.map f).count a = ((l.eraseIdx j).map f).count a + if f b = a then 1 else 0 := by
  obtain ⟨hj, rfl⟩ := List.getElem?_eq_some_iff.1 h
  have hperm := ((List.getElem_cons_eraseIdx_perm hj).map f).count_eq a
  rw [List.map_cons, List.count_cons] at hperm
  simpa using hperm.symm

end Tally
