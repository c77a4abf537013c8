import Mathlib

set_option autoImplicit false

/-! # Taking positions out of a list

The elements at increasing positions of a list, and the list without them. Taking the positions out one
by one, the last first, leaves those still to come where they are. -/

open List

namespace Positions

variable {α : Type} {indices : List Nat} {l : List α} {i : Nat}

/-- Positions of a list, in increasing order. -/
structure Ascending (indices : List Nat) (l : List α) : Prop where
  increasing : indices.Pairwise (· < ·)
  inRange : ∀ i ∈ indices, i < l.length

def pick (indices : List Nat) (l : List α) : List α := indices.filterMap fun i => l[i]?

def without (indices : List Nat) (l : List α) : List α :=
  (l.zipIdx.filter (fun p => p.2 ∉ indices)).map Prod.fst

theorem without_nil (l : List α) : without [] l = l := by
  simp [without]

theorem without_concat (hi : i < l.length)
    (hlt : ∀ k ∈ indices, k < i) : without indices (l.eraseIdx i) = without (indices ++ [i]) l := by
  have hbefore : (l.take i).zipIdx.filter (fun p => p.2 ∉ indices) =
      (l.take i).zipIdx.filter (fun p => p.2 ∉ indices ++ [i]) := by
    refine filter_congr fun p hp => ?_
    have hpi : p.2 < i := by
      have := snd_lt_of_mem_zipIdx hp
      simp only [length_take] at this
      omega
    simp [hpi.ne]
  -- behind the position nothing is taken out, with or without the shift
  have hbehind : ∀ (start : Nat) (taken : List Nat) (rest : List α), (∀ k ∈ taken, k < start) →
      ((rest.zipIdx start).filter (fun p => p.2 ∉ taken)).map Prod.fst = rest := by
    intro start taken rest htaken
    rw [filter_eq_self.2, zipIdx_map_fst]
    intro p hp
    have hstart := le_snd_of_mem_zipIdx hp
    simp only [decide_eq_true_eq]
    exact fun hmem => absurd (htaken p.2 hmem) (by omega)
  have hl : l = l.take i ++ l[i] :: l.drop (i + 1) := by simp
  have hlength : (l.take i).length = i := by simp [hi.le]
  rw [eraseIdx_eq_take_drop_succ]
  conv => rhs; rw [hl]
  simp only [without, zipIdx_append, zipIdx_cons, filter_append, filter_cons,
    map_append, hlength, Nat.zero_add, hbefore]
  congr 1
  rw [hbehind i indices _ hlt]
  have hself : decide (i ∉ indices ++ [i]) = false := by simp
  simp only [hself, Bool.false_eq_true, if_false]
  refine (hbehind (i + 1) (indices ++ [i]) _ ?_).symm
  intro k hk
  rcases mem_append.1 hk with hk | hk
  · exact Nat.lt_succ_of_lt (hlt k hk)
  · rw [mem_singleton.1 hk]
    exact Nat.lt_succ_self i

theorem Ascending.init (h : Ascending (indices ++ [i]) l) :
    i < l.length ∧ (∀ k ∈ indices, k < i) ∧ Ascending indices (l.eraseIdx i) := by
  have hi : i < l.length := h.inRange i (by simp)
  have hpair := pairwise_append.1 h.increasing
  have hlt : ∀ k ∈ indices, k < i := fun k hk => hpair.2.2 k hk i (by simp)
  refine ⟨hi, hlt, hpair.1, fun k hk => ?_⟩
  rw [length_eraseIdx_of_lt hi]
  have := hlt k hk
  omega

theorem pick_eraseIdx (hlt : ∀ k ∈ indices, k < i) : pick indices (l.eraseIdx i) = pick indices l := by
  refine filterMap_congr fun k hk => ?_
  rw [getElem?_eraseIdx_of_lt (hlt k hk)]

theorem pick_concat (hi : i < l.length) : pick (indices ++ [i]) l = pick indices l ++ [l[i]] := by
  simp [pick, hi]

/-- **Nothing is lost or duplicated.** -/
theorem pick_append_without_perm (h : Ascending indices l) :
    (pick indices l ++ without indices l).Perm l := by
  induction indices using reverseRecOn generalizing l with
  | nil => simp [pick, without_nil]
  | append_singleton indices i ih =>
    obtain ⟨hi, hlt, hinit⟩ := h.init
    have hrest := ih hinit
    rw [pick_eraseIdx hlt, without_concat hi hlt] at hrest
    rw [pick_concat hi, append_assoc]
    calc (pick indices l ++ ([l[i]] ++ without (indices ++ [i]) l)).Perm
          (l[i] :: (pick indices l ++ without (indices ++ [i]) l)) := perm_middle
      _ |>.Perm (l[i] :: l.eraseIdx i) := hrest.cons _
      _ |>.Perm l := getElem_cons_eraseIdx_perm hi

end Positions
