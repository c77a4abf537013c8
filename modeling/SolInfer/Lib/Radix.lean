import Mathlib

set_option autoImplicit false

/-! # Radix trees

A radix tree over letters `α` keeps its words on edges that carry several letters. Each node has data `δ`,
of which `label` is the text of the edge above it. What the tree means is a partial map on words: the
non-empty word `p` is present if it ends on some edge, at the end of it or inside, and then it has what
the node of that edge pays at that place (`Forest.get`). Splitting an edge does not change this map. -/

open List

namespace Radix

variable {α β δ σ : Type} [DecidableEq α] {l p q : List α}

/-! ## Common prefixes -/

def common : List α → List α → Nat
  | a :: as, b :: bs => if a = b then common as bs + 1 else 0
  | _, _ => 0

@[simp] theorem common_nil_left (p : List α) : common [] p = 0 := by cases p <;> rfl

@[simp] theorem common_nil_right (l : List α) : common l [] = 0 := by cases l <;> rfl

theorem common_cons_self (a : α) (l p : List α) : common (a :: l) (a :: p) = common l p + 1 := by
  simp [common]

theorem common_cons_ne {a b : α} (h : a ≠ b) (l p : List α) : common (a :: l) (b :: p) = 0 := by
  simp [common, h]

theorem length_takeWhile_zip (a b : List α) : ((a.zip b).takeWhile fun x => x.1 == x.2).length = common a b := by
  induction a generalizing b with
  | nil => simp
  | cons x a ih =>
    cases b with
    | nil => simp
    | cons y b =>
      by_cases h : x = y
      · subst h
        simp [common_cons_self, ih]
      · simp [common_cons_ne h, h]

theorem findIdx?_zip (a b : List α) :
    ((a.zip b).findIdx? fun x => x.1 != x.2).getD (min a.length b.length) = common a b := by
  induction a generalizing b with
  | nil => simp
  | cons x a ih =>
    cases b with
    | nil => simp
    | cons y b =>
      by_cases h : x = y
      · subst h
        rw [common_cons_self, ← ih, zip_cons_cons, findIdx?_cons]
        cases (a.zip b).findIdx? fun x => x.1 != x.2 <;> simp
      · simp [common_cons_ne h, h, findIdx?_cons]

theorem common_append (u l p : List α) : common (u ++ l) (u ++ p) = u.length + common l p := by
  induction u with
  | nil => simp
  | cons a u ih =>
    rw [cons_append, cons_append, common_cons_self, ih, length_cons]
    omega

theorem common_le_left (l p : List α) : common l p ≤ l.length := by
  induction l generalizing p with
  | nil => simp
  | cons a l ih =>
    cases p with
    | nil => simp
    | cons b p =>
      by_cases h : a = b
      · subst h
        simpa [common_cons_self] using ih p
      · simp [common_cons_ne h]

theorem common_comm (l p : List α) : common l p = common p l := by
  induction l generalizing p with
  | nil => simp
  | cons a l ih =>
    cases p with
    | nil => simp
    | cons b p =>
      by_cases h : a = b
      · subst h
        simp [common_cons_self, ih p]
      · simp [common_cons_ne h, common_cons_ne (Ne.symm h)]

theorem common_of_isPrefix (h : p <+: l) : common l p = p.length := by
  obtain ⟨r, rfl⟩ := h
  simpa using common_append p r []

theorem exists_common (l p : List α) :
    ∃ u r s, l = u ++ r ∧ p = u ++ s ∧ common l p = u.length ∧ common r s = 0 := by
  induction l generalizing p with
  | nil => exact ⟨[], [], p, rfl, rfl, by simp, by simp⟩
  | cons a l ih =>
    cases p with
    | nil => exact ⟨[], a :: l, [], rfl, rfl, by simp, by simp⟩
    | cons b p =>
      by_cases h : a = b
      · subst h
        obtain ⟨u, r, s, rfl, rfl, hlen, hapart⟩ := ih p
        exact ⟨a :: u, r, s, rfl, rfl, by simp [common_cons_self, hlen], hapart⟩
      · exact ⟨[], a :: l, b :: p, rfl, rfl, common_cons_ne h l p, common_cons_ne h l p⟩

theorem common_eq_zero_of_isPrefix (h : common l p = 0) (hq : q <+: p) : common l q = 0 := by
  obtain ⟨r, rfl⟩ := hq
  cases l with
  | nil => simp
  | cons a l =>
    cases q with
    | nil => simp
    | cons b q =>
      by_cases hab : a = b
      · subst hab
        simp [common_cons_self] at h
      · exact common_cons_ne hab l q

theorem common_eq_zero_trans (h : common l p = 0) (hpq : common p q ≠ 0) : common l q = 0 := by
  cases p with
  | nil => simp at hpq
  | cons b p =>
    cases q with
    | nil => simp
    | cons c q =>
      obtain rfl : b = c := by
        by_contra hbc
        exact hpq (common_cons_ne hbc p q)
      cases l with
      | nil => simp
      | cons a l =>
        by_cases hab : a = b
        · subst hab
          simp [common_cons_self] at h
        · exact common_cons_ne hab l q

theorem common_eq_zero_append {v w : List α} (hv : v ≠ []) (h : common l v = 0) :
    common l (v ++ w) = 0 := by
  refine common_eq_zero_trans h ?_
  rw [common_comm, common_of_isPrefix (prefix_append v w)]
  simpa using hv

theorem common_ne_zero_of_isPrefix {r : List α} (hl : l ≠ []) (hp : p ≠ []) (h : p <+: l ++ r) :
    common l p ≠ 0 := by
  obtain ⟨t, ht⟩ := h
  cases p with
  | nil => exact absurd rfl hp
  | cons b p =>
    cases l with
    | nil => exact absurd rfl hl
    | cons a l =>
      injection ht with hab
      subst hab
      simp [common_cons_self]

omit [DecidableEq α] in
theorem isPrefix_append_cases {u s : List α} (h : p <+: u ++ s) :
    p <+: u ∨ ∃ s', s' ≠ [] ∧ p = u ++ s' ∧ s' <+: s := by
  rcases Nat.le_total p.length u.length with hle | hle
  · exact .inl (prefix_of_prefix_length_le h (prefix_append u s) hle)
  · obtain ⟨s', rfl⟩ := prefix_of_prefix_length_le (prefix_append u s) h hle
    by_cases hs' : s' = []
    · exact .inl (by simp [hs'])
    · exact .inr ⟨s', hs', rfl, (prefix_append_right_inj u).1 h⟩

/-! ## Edges -/

/-- The map of a node: `l` is the label of its edge, `on` what it pays, `below` the map of its children
    and `beside` the map of the nodes next to it. -/
def edge (l : List α) (on : Nat → β) (below beside : List α → Option β) (p : List α) : Option β :=
  if common l p = 0 then beside p
  else if common l p = p.length then some (on p.length)
  else if common l p = l.length then below (p.drop l.length)
  else none

section Edge

variable {l p : List α} {on : Nat → β} {below beside : List α → Option β}

theorem edge_beside (h : common l p = 0) : edge l on below beside p = beside p := by
  simp [edge, h]

theorem edge_on (hp : p ≠ []) (h : p <+: l) : edge l on below beside p = some (on p.length) := by
  have hlen := common_of_isPrefix h
  have hne : p.length ≠ 0 := by simpa using hp
  simp [edge, hlen, hne]

theorem edge_below (hl : l ≠ []) (hq : q ≠ []) : edge l on below beside (l ++ q) = below q := by
  have hlen : common l (l ++ q) = l.length := by simpa using common_append l [] q
  have hl0 : l.length ≠ 0 := by simpa using hl
  have hq0 : q.length ≠ 0 := by simpa using hq
  simp [edge, hlen, hl0, hq0]

theorem edge_apart {u r s : List α} (hu : u ≠ []) (hr : r ≠ []) (hs : s ≠ []) (h : common r s = 0) :
    edge (u ++ r) on below beside (u ++ s) = none := by
  have hlen : common (u ++ r) (u ++ s) = u.length := by simpa [h] using common_append u r s
  have hu0 : u.length ≠ 0 := by simpa using hu
  have hr0 : r.length ≠ 0 := by simpa using hr
  have hs0 : s.length ≠ 0 := by simpa using hs
  simp [edge, hlen, hu0, hr0, hs0]

end Edge

/-- How a non-empty word lies to an edge: beside it, on it, below it, or leaving it halfway. -/
theorem word_cases (l p : List α) :
    common l p = 0 ∨ p ≠ [] ∧ p <+: l ∨ (∃ q, q ≠ [] ∧ l ≠ [] ∧ p = l ++ q) ∨
      ∃ u r s, u ≠ [] ∧ r ≠ [] ∧ s ≠ [] ∧ common r s = 0 ∧ l = u ++ r ∧ p = u ++ s := by
  obtain ⟨u, r, s, rfl, rfl, hlen, hapart⟩ := exists_common l p
  by_cases hu : u = []
  · exact .inl (by simpa [hu] using hlen)
  by_cases hs : s = []
  · subst hs
    exact .inr (.inl ⟨by simpa using hu, by simp⟩)
  by_cases hr : r = []
  · subst hr
    exact .inr (.inr (.inl ⟨s, hs, by simpa using hu, by simp⟩))
  · exact .inr (.inr (.inr ⟨u, r, s, hu, hr, hs, hapart, rfl, rfl⟩))

/-- **Splitting an edge** does not change the map. -/
theorem edge_split {u v : List α} (hu : u ≠ []) (hv : v ≠ []) (on : Nat → β)
    (below beside : List α → Option β) :
    edge u on (edge v (fun n => on (u.length + n)) below fun _ => none) beside =
      edge (u ++ v) on below beside := by
  funext p
  rcases word_cases u p with h | ⟨hp, h⟩ | ⟨q, hq, -, rfl⟩ | ⟨u₁, r, s, hu₁, hr, hs, hrs, rfl, rfl⟩
  · have h' : common (u ++ v) p = 0 := by
      rw [common_comm] at h ⊢
      exact common_eq_zero_append hu h
    rw [edge_beside h, edge_beside h']
  · rw [edge_on hp h, edge_on hp (h.trans (prefix_append u v))]
  · rw [edge_below hu hq]
    have hu0 : u.length ≠ 0 := by simpa using hu
    have hq0 : q.length ≠ 0 := by simpa using hq
    have hv0 : v.length ≠ 0 := by simpa using hv
    simp only [edge, common_append, length_append]
    by_cases h0 : common v q = 0
    · rw [if_pos h0, if_neg (by omega), if_neg (by omega), if_neg (by omega)]
    · have hdrop : (u ++ q).drop (u.length + v.length) = q.drop v.length := by
        rw [← drop_drop, drop_left]
      rw [if_neg h0, if_neg (by omega : ¬ u.length + common v q = 0), hdrop]
      simp
  · rw [edge_apart hu₁ hr hs hrs, append_assoc,
      edge_apart hu₁ (by simp [hr]) hs (by
        rw [common_comm] at hrs ⊢
        exact common_eq_zero_append hr hrs)]

/-! ## Storing a word -/

/-- The map after storing all non-empty prefixes of `w`: what was there is changed by `kept`, what is new
    is `fresh` of the length. -/
def put (w : List α) (kept : β → β) (fresh : Nat → β) (m : List α → Option β) (p : List α) : Option β :=
  if p ≠ [] ∧ p <+: w then some ((m p).elim (fresh p.length) kept) else m p

theorem put_nil (kept : β → β) (fresh : Nat → β) (m : List α → Option β) : put [] kept fresh m = m := by
  funext p
  simp +contextual [put]

theorem put_of_isPrefix {w : List α} (hp : p ≠ []) (h : p <+: w) (kept : β → β) (fresh : Nat → β)
    (m : List α → Option β) : put w kept fresh m p = some ((m p).elim (fresh p.length) kept) := by
  simp [put, hp, h]

theorem put_of_not_isPrefix {w : List α} (h : ¬ p <+: w) (kept : β → β) (fresh : Nat → β)
    (m : List α → Option β) : put w kept fresh m p = m p := by
  simp [put, h]

theorem not_isPrefix_of_common {w : List α} (hw : common l w = 0) (hp : common l p ≠ 0) :
    ¬ p <+: w := fun h => hp (common_eq_zero_of_isPrefix hw h)

section

variable {on : Nat → β} {below beside : List α → Option β} {kept : β → β} {fresh : Nat → β}

theorem edge_put_beside {w : List α} (hw : common l w = 0) :
    edge l on below (put w kept fresh beside) = put w kept fresh (edge l on below beside) := by
  funext p
  by_cases h : common l p = 0
  · rw [edge_beside h]
    by_cases hp : p ≠ [] ∧ p <+: w
    · rw [put_of_isPrefix hp.1 hp.2, put_of_isPrefix hp.1 hp.2, edge_beside h]
    · simp only [put, if_neg hp, edge_beside h]
  · rw [put_of_not_isPrefix (not_isPrefix_of_common hw h)]
    simp [edge, h]

theorem edge_put_below (hl : l ≠ []) (r : List α) :
    edge l (fun n => kept (on n)) (put r kept (fun n => fresh (l.length + n)) below) beside =
      put (l ++ r) kept fresh (edge l on below beside) := by
  funext p
  rcases word_cases l p with h | ⟨hp, h⟩ | ⟨q, hq, -, rfl⟩ | ⟨u, l', s, hu, hl', hs, hapart, rfl, rfl⟩
  · rw [edge_beside h]
    by_cases hp : p = []
    · subst hp
      simp [put, edge]
    · rw [put_of_not_isPrefix, edge_beside h]
      exact fun hpre => common_ne_zero_of_isPrefix hl hp hpre h
  · rw [edge_on hp h, put_of_isPrefix hp (h.trans (prefix_append l r)), edge_on hp h]
    rfl
  · rw [edge_below hl hq]
    by_cases hqr : q <+: r
    · rw [put_of_isPrefix hq hqr, put_of_isPrefix (by simp [hq]) ((prefix_append_right_inj l).2 hqr),
        edge_below hl hq, length_append]
    · rw [put_of_not_isPrefix hqr, put_of_not_isPrefix (by
        rwa [prefix_append_right_inj]), edge_below hl hq]
  · rw [edge_apart hu hl' hs hapart, put_of_not_isPrefix, edge_apart hu hl' hs hapart]
    rw [append_assoc, prefix_append_right_inj]
    exact fun hpre => common_ne_zero_of_isPrefix hl' hs hpre hapart

end

/-! ## Forests -/

/-- The nodes of one level, each with its children. -/
inductive Forest (δ : Type) where
  | nil
  | node (data : δ) (children siblings : Forest δ)
deriving Repr

variable (label : δ → List α)

/-- The map of a forest; `pay d n` is what a node with data `d` has for the word that ends after `n`
    letters of its edge. -/
def Forest.get (pay : δ → Nat → β) : Forest δ → List α → Option β
  | .nil => fun _ => none
  | .node d ch sib => edge (label d) (pay d) (ch.get pay) (sib.get pay)

def Forest.tops : Forest δ → List (List α)
  | .nil => []
  | .node d _ sib => label d :: sib.tops

/-- No label is empty, and two nodes next to each other start apart. -/
def Forest.WF : Forest δ → Prop
  | .nil => True
  | .node d ch sib => label d ≠ [] ∧ (∀ l ∈ sib.tops label, common (label d) l = 0) ∧ ch.WF ∧ sib.WF

/-- The length of the longest prefix of a word that is in the forest: full edges are followed, and an edge
    on which the word ends or leaves counts as far as they agree. -/
def Forest.walk : Forest δ → List α → Nat
  | .nil, _ => 0
  | .node d ch sib, w =>
    let n := common (label d) w
    if n = 0 then sib.walk w
    else if n = (label d).length then n + ch.walk (w.drop n)
    else n

/-- **A walk finds the longest prefix.** -/
theorem Forest.isSome_get_iff (pay : δ → Nat → β) {f : Forest δ} (hf : f.WF label) {w : List α}
    (hp : p ≠ []) (hpw : p <+: w) : (f.get label pay p).isSome ↔ p.length ≤ f.walk label w := by
  induction f generalizing w p with
  | nil => simp [Forest.get, Forest.walk, hp]
  | node d ch sib ihc ihs =>
    obtain ⟨hl, -, hch, hsib⟩ := hf
    rw [Forest.get, Forest.walk]
    rcases word_cases (label d) w with h | ⟨hw, h⟩ | ⟨q, hq, -, rfl⟩ |
        ⟨u, r, s, hu, hr, hs, hapart, hlab, rfl⟩
    · rw [edge_beside (common_eq_zero_of_isPrefix h hpw), if_pos h]
      exact ihs hsib hp hpw
    · have hc := common_of_isPrefix h
      rw [edge_on hp (hpw.trans h)]
      simp only [hc, Option.isSome_some, true_iff]
      have hw0 : w.length ≠ 0 := by simpa using hw
      rw [if_neg hw0]
      split
      · exact hpw.length_le.trans (Nat.le_add_right _ _)
      · exact hpw.length_le
    · have hc : common (label d) (label d ++ q) = (label d).length := by
        simpa using common_append (label d) [] q
      have hl0 : (label d).length ≠ 0 := by simpa using hl
      simp only [hc, if_neg hl0, if_true, drop_left]
      rcases isPrefix_append_cases hpw with hon | ⟨q', hq0, rfl, hq'⟩
      · rw [edge_on hp hon]
        simpa using hon.length_le.trans (Nat.le_add_right _ _)
      · rw [edge_below hl hq0, ihc hch hq0 hq', length_append]
        omega
    · rw [hlab]
      have hc : common (u ++ r) (u ++ s) = u.length := by simpa [hapart] using common_append u r s
      have hu0 : u.length ≠ 0 := by simpa using hu
      rw [hc, if_neg hu0, if_neg (by simp [hr])]
      rcases isPrefix_append_cases hpw with hon | ⟨s', hs0, rfl, hs'⟩
      · rw [edge_on hp (hon.trans (prefix_append u r))]
        simpa using hon.length_le
      · rw [edge_apart hu hr hs0 (common_eq_zero_of_isPrefix hapart hs')]
        have : s'.length ≠ 0 := by simpa using hs0
        simp only [Option.isSome_none, Bool.false_eq_true, length_append, false_iff]
        omega

end Radix
