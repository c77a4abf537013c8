import Mathlib

set_option autoImplicit false

/-! # Trees given by parents

A tree on `0, …, n - 1` in which every node but the root 0 has a parent before it. The path from the root
to a node is its set of ancestors, which is what a tree mask holds; the children of a node, in increasing
order, are what a chain of a first child and next siblings holds. The two can be had from each other. -/

open List

namespace ParentTree

/-- Every node but the root comes after its parent. -/
def Ordered (par : Nat → Nat) (n : Nat) : Prop := ∀ i, 0 < i → i < n → par i < i

def rootPath (par : Nat → Nat) (i : Nat) : List Nat :=
  if _h : 0 < i ∧ par i < i then rootPath par (par i) ++ [i] else [i]
termination_by i
decreasing_by exact _h.2

def children (par : Nat → Nat) (n i : Nat) : List Nat :=
  (range n).filter fun j => decide (0 < j ∧ par j = i)

def nextToken (par : Nat → Nat) (n i : Nat) : Option Nat := (children par n i).head?

def nextSibling (par : Nat → Nat) (n i : Nat) : Option Nat :=
  if i = 0 then none else (children par n (par i)).find? fun j => decide (i < j)

variable {par : Nat → Nat} {n i j : Nat}

/-! ## Paths -/

theorem rootPath_zero (par : Nat → Nat) : rootPath par 0 = [0] := by
  rw [rootPath, dif_neg (by omega)]

theorem rootPath_of_lt (h0 : 0 < i) (h : par i < i) : rootPath par i = rootPath par (par i) ++ [i] := by
  rw [rootPath, dif_pos ⟨h0, h⟩]

/-- Paths grow from the root: a property of paths is shown for the root and passes to the children. -/
theorem Ordered.path_induction (h : Ordered par n) {P : Nat → Prop} (hroot : P 0)
    (hchild : ∀ i, 0 < i → i < n → P (par i) → P i) (hi : i < n) : P i := by
  induction i using Nat.strongRecOn with
  | ind i ih =>
    rcases Nat.eq_zero_or_pos i with rfl | h0
    · exact hroot
    · have hlt := h i h0 hi
      exact hchild i h0 hi (ih (par i) hlt (by omega))

theorem Ordered.rootPath_eq (h : Ordered par n) (h0 : 0 < i) (hi : i < n) :
    rootPath par i = rootPath par (par i) ++ [i] := rootPath_of_lt h0 (h i h0 hi)

theorem Ordered.mem_rootPath (h : Ordered par n) (h0 : 0 < i) (hi : i < n) :
    j ∈ rootPath par i ↔ j ∈ rootPath par (par i) ∨ j = i := by
  rw [h.rootPath_eq h0 hi, mem_append, mem_singleton]

theorem self_mem_rootPath (par : Nat → Nat) (i : Nat) : i ∈ rootPath par i := by
  rw [rootPath]
  split <;> simp

section

variable (h : Ordered par n)
include h

theorem Ordered.zero_mem_rootPath (hi : i < n) : 0 ∈ rootPath par i := by
  refine h.path_induction (P := fun i => 0 ∈ rootPath par i) ?_ ?_ hi
  · exact self_mem_rootPath par 0
  · exact fun i h0 hi ih => (h.mem_rootPath h0 hi).2 (.inl ih)

theorem Ordered.le_of_mem_rootPath (hi : i < n) : ∀ j ∈ rootPath par i, j ≤ i := by
  refine h.path_induction (P := fun i => ∀ j ∈ rootPath par i, j ≤ i) ?_ ?_ hi
  · intro j hj
    rw [rootPath_zero, mem_singleton] at hj
    omega
  · intro i h0 hi ih j hj
    have hlt := h i h0 hi
    rcases (h.mem_rootPath h0 hi).1 hj with hj | rfl
    · exact (ih j hj).trans hlt.le
    · exact le_rfl

theorem Ordered.pairwise_rootPath (hi : i < n) : (rootPath par i).Pairwise (· < ·) := by
  refine h.path_induction (P := fun i => (rootPath par i).Pairwise (· < ·)) ?_ ?_ hi
  · rw [rootPath_zero]
    exact pairwise_singleton _ _
  · intro i h0 hi ih
    have hlt := h i h0 hi
    rw [h.rootPath_eq h0 hi, pairwise_append]
    refine ⟨ih, pairwise_singleton _ _, fun a ha b hb => ?_⟩
    rw [mem_singleton] at hb
    have := h.le_of_mem_rootPath (by omega) a ha
    omega

theorem Ordered.mem_tail_rootPath (hi : i < n) :
    j ∈ (rootPath par i).tail ↔ j ∈ rootPath par i ∧ 0 < j := by
  have hsorted := h.pairwise_rootPath hi
  have hzero := h.zero_mem_rootPath hi
  cases hpath : rootPath par i with
  | nil => simp
  | cons a rest =>
    rw [hpath] at hsorted hzero
    have hlt := (pairwise_cons.1 hsorted).1
    obtain rfl : a = 0 := by
      rcases mem_cons.1 hzero with h0 | h0
      · exact h0.symm
      · exact absurd (hlt 0 h0) (by omega)
    rw [tail_cons, mem_cons]
    constructor
    · intro hj
      exact ⟨.inr hj, hlt j hj⟩
    · rintro ⟨rfl | hj, h0⟩
      · omega
      · exact hj

theorem Ordered.le_par (hi : i < n) (hj : j ∈ rootPath par i) (hlt : j < i) : j ≤ par i := by
  have h0 : 0 < i := by omega
  rcases (h.mem_rootPath h0 hi).1 hj with hj | rfl
  · have := h i h0 hi
    exact h.le_of_mem_rootPath (by omega) j hj
  · omega

theorem Ordered.par_mem_rootPath (h0 : 0 < i) (hi : i < n) :
    par i ∈ rootPath par i := (h.mem_rootPath h0 hi).2 (.inl (self_mem_rootPath par _))

theorem Ordered.exists_child_on_path (hi : i < n) (hj : j ∈ rootPath par i) (hlt : j < i) :
    ∃ c, 0 < c ∧ c ≤ i ∧ par c = j := by
  revert hj hlt
  refine h.path_induction (P := fun i => j ∈ rootPath par i → j < i → ∃ c, 0 < c ∧ c ≤ i ∧ par c = j)
    ?_ ?_ hi
  · intro _ hlt
    omega
  · intro i h0 hi ih hj hlt
    rcases Nat.lt_or_ge j (par i) with hpar | hpar
    · have hj' := ((h.mem_rootPath h0 hi).1 hj).resolve_right (by omega)
      obtain ⟨c, hc0, hci, hc⟩ := ih hj' hpar
      exact ⟨c, hc0, hci.trans (h i h0 hi).le, hc⟩
    · have hle := h.le_par hi hj hlt
      exact ⟨i, h0, le_rfl, by omega⟩

theorem Ordered.par_eq_iff (hi : i < n) (hlt : j < i) :
    par i = j ↔ j ∈ rootPath par i ∧ ∀ k, j < k → k < i → k ∉ rootPath par i := by
  have h0 : 0 < i := by omega
  constructor
  · rintro rfl
    refine ⟨h.par_mem_rootPath h0 hi, fun k hk hki hmem => ?_⟩
    have := h.le_par hi hmem hki
    omega
  · rintro ⟨hj, hno⟩
    have hle := h.le_par hi hj hlt
    rcases hle.lt_or_eq with hlt' | heq
    · exact absurd (h.par_mem_rootPath h0 hi) (hno (par i) hlt' (h i h0 hi))
    · exact heq.symm

end

/-! ## Children -/

theorem mem_children : j ∈ children par n i ↔ j < n ∧ 0 < j ∧ par j = i := by
  simp [children]

theorem pairwise_children (par : Nat → Nat) (n i : Nat) : (children par n i).Pairwise (· < ·) :=
  List.Pairwise.filter _ pairwise_lt_range

theorem Ordered.nextToken_eq (h : Ordered par n) (hi : i < n) :
    nextToken par n i = (range n).find? fun j => decide (i < j ∧ i ∈ rootPath par j) := by
  rw [nextToken, children, head?_filter]
  cases hfind : (range n).find? fun j => decide (i < j ∧ i ∈ rootPath par j) with
  | none =>
    refine find?_eq_none.2 fun j hj hc => ?_
    obtain ⟨h0, rfl⟩ := of_decide_eq_true hc
    have hjn := mem_range.1 hj
    exact find?_eq_none.1 hfind j hj
      (decide_eq_true ⟨h j h0 hjn, h.par_mem_rootPath h0 hjn⟩)
  | some j =>
    rw [find?_range_eq_some] at hfind ⊢
    obtain ⟨hd, hjn, hbefore⟩ := hfind
    obtain ⟨hij, hmem⟩ := of_decide_eq_true hd
    have hjn := mem_range.1 hjn
    -- the child on the path to the first descendant is a descendant
    obtain ⟨c, hc0, hcj, hc⟩ := h.exists_child_on_path hjn hmem hij
    have hic : i < c := hc ▸ h c hc0 (by omega)
    have hcj' : c = j := by
      by_contra hne
      have hno := hbefore c (by omega)
      have hmem : i ∈ rootPath par c := hc ▸ h.par_mem_rootPath hc0 (by omega)
      simp [hic, hmem] at hno
    subst hcj'
    refine ⟨by simp [hc0, hc], mem_range.2 hjn, fun k hk => ?_⟩
    have hno := hbefore k hk
    simp only [Bool.not_eq_true', decide_eq_false_iff_not, not_and] at hno ⊢
    intro hk0 hkc
    exact hno (hkc ▸ h k hk0 (by omega)) (hkc ▸ h.par_mem_rootPath hk0 (by omega))

theorem nextSibling_eq (h0 : 0 < i) :
    nextSibling par n i = (range n).find? fun j => decide (i < j ∧ par j = par i) := by
  rw [nextSibling, if_neg (by omega), children, find?_filter]
  congr 1
  funext j
  rw [Bool.eq_iff_iff]
  simp only [decide_eq_true_eq]
  constructor
  · rintro ⟨⟨-, h⟩, hlt⟩
    exact ⟨hlt, h⟩
  · rintro ⟨hlt, h⟩
    exact ⟨⟨by omega, h⟩, hlt⟩

/-! ## Chains -/

/-- No node is written as -1. -/
def link : Option Nat → Int
  | none => -1
  | some i => i

/-- The nodes of a chain of links. -/
def follow (next : Nat → Int) : Nat → Int → List Nat
  | 0, _ => []
  | fuel + 1, start => if start < 0 then [] else start.toNat :: follow next fuel (next start.toNat)

theorem find?_gt {before after : List Nat} {a : Nat} (hl : (before ++ a :: after).Pairwise (· < ·)) :
    (before ++ a :: after).find? (fun j => decide (a < j)) = after.head? := by
  rw [pairwise_append] at hl
  have hbefore : (before.find? fun j => decide (a < j)) = none := by
    refine find?_eq_none.2 fun b hb => ?_
    have := hl.2.2 b hb a mem_cons_self
    simp only [decide_eq_true_eq]
    omega
  rw [find?_append, hbefore, Option.none_or, find?_cons_of_neg (by simp)]
  cases after with
  | nil => rfl
  | cons b after =>
    have hab := (pairwise_cons.1 hl.2.1).1 b mem_cons_self
    rw [find?_cons_of_pos (by simpa using hab)]
    rfl

theorem nextSibling_append {before after : List Nat} {a : Nat} (h : children par n i = before ++ a :: after) :
    nextSibling par n a = after.head? := by
  obtain ⟨-, h0, rfl⟩ := mem_children.1 (h ▸ mem_append_right _ mem_cons_self :
    a ∈ children par n i)
  rw [nextSibling, if_neg (by omega), h]
  exact find?_gt (h ▸ pairwise_children par n (par a))

theorem follow_of_pairwise {next : Nat → Int} {l : List Nat} (hl : l.Pairwise (· < ·))
    (hnext : ∀ i ∈ l, next i = link (l.find? fun j => decide (i < j))) {fuel : Nat}
    (hfuel : l.length ≤ fuel) : follow next fuel (link l.head?) = l := by
  -- the chain from any place of the list on
  have hsuffix : ∀ (suf pre : List Nat) (fuel : Nat), l = pre ++ suf → suf.length ≤ fuel →
      follow next fuel (link suf.head?) = suf := by
    intro suf
    induction suf with
    | nil =>
      intro pre fuel _ _
      cases fuel <;> simp [follow, link]
    | cons a suf ih =>
      intro pre fuel heq hlen
      obtain ⟨fuel, rfl⟩ : ∃ m, fuel = m + 1 := ⟨fuel - 1, by simp at hlen; omega⟩
      have hfind : (l.find? fun j => decide (a < j)) = suf.head? := by
        rw [heq] at hl ⊢
        exact find?_gt hl
      have hmem : a ∈ l := by simp [heq]
      simp only [length_cons] at hlen
      have hstart : link (a :: suf).head? = (a : Int) := rfl
      rw [hstart, follow, if_neg (by omega), Int.toNat_natCast, hnext a hmem, hfind,
        ih (pre ++ [a]) fuel (by simp [heq]) (by omega)]
  exact hsuffix l [] fuel rfl hfuel

/-- **Children from a chain.** First children and next siblings list the children in increasing order. -/
theorem follow_children {next : Nat → Int} (hnext : ∀ j < n, next j = link (nextSibling par n j)) (i : Nat) :
    follow next n (link (nextToken par n i)) = children par n i := by
  refine follow_of_pairwise (pairwise_children par n i) (fun j hj => ?_) ?_
  · obtain ⟨hjn, h0, rfl⟩ := mem_children.1 hj
    rw [hnext j hjn, nextSibling, if_neg (by omega)]
  · exact (length_filter_le _ _).trans_eq length_range

/-! ## Linking back to front -/

/-- Put a node in front of the children of its parent. -/
def linkStep (par : Nat → Nat) (s : (Nat → Int) × (Nat → Int)) (i : Nat) : (Nat → Int) × (Nat → Int) :=
  (Function.update s.1 (par i) i, if s.1 (par i) = -1 then s.2 else Function.update s.2 i (s.1 (par i)))

theorem link_ne (k : Nat) : link (some k) ≠ -1 := by
  simp only [link, ne_eq]
  omega

theorem foldr_linkStep (par : Nat → Nat) (n : Nat) {m k : Nat} (hm : 0 < m) (hk : m + k = n)
    {nt ns : Nat → Int} (hnt : ∀ i < n, nt i = -1) (hns : ∀ i < n, ns i = -1)
    (hpar : Ordered par n) :
    (∀ i < n, ((range' m k).foldr (fun i s => linkStep par s i) (nt, ns)).1 i =
        link ((children par n i).find? fun j => decide (m ≤ j))) ∧
      ∀ i < n, ((range' m k).foldr (fun i s => linkStep par s i) (nt, ns)).2 i =
        if m ≤ i then link (nextSibling par n i) else -1 := by
  induction k generalizing m with
  | zero =>
    refine ⟨fun i hi => ?_, fun i hi => ?_⟩
    · have hnone : ((children par n i).find? fun j => decide (m ≤ j)) = none := by
        refine find?_eq_none.2 fun j hj => ?_
        have := (mem_children.1 hj).1
        simp only [decide_eq_true_eq]
        omega
      rw [hnone]
      exact hnt i hi
    · rw [if_neg (by omega)]
      exact hns i hi
  | succ k ih =>
    obtain ⟨ih1, ih2⟩ := ih (m := m + 1) (by omega) (by omega)
    rw [range'_succ, foldr_cons]
    generalize (range' (m + 1) k).foldr (fun i s => linkStep par s i) (nt, ns) = s at ih1 ih2 ⊢
    have hmn : m < n := by omega
    have hparm := hpar m hm hmn
    -- the siblings of `m` behind it are the children of its parent from `m + 1` on
    have hsib : nextSibling par n m =
        (children par n (par m)).find? fun j => decide (m + 1 ≤ j) := by
      rw [nextSibling, if_neg (by omega)]
      rfl
    refine ⟨fun i hi => ?_, fun i hi => ?_⟩
    · simp only [linkStep]
      by_cases hip : i = par m
      · subst hip
        have hsome : ((children par n (par m)).find? fun j => decide (m ≤ j)) = some m := by
          rw [children, find?_filter, find?_range_eq_some]
          refine ⟨by simp [hm], mem_range.2 hmn, fun j hj => ?_⟩
          simp only [Bool.not_eq_true', decide_eq_true_eq, decide_eq_false_iff_not]
          omega
        rw [Function.update_self, hsome]
        rfl
      · rw [Function.update_of_ne hip, ih1 i hi]
        congr 1
        refine find?_congr fun j hj => ?_
        obtain ⟨-, -, hj⟩ := mem_children.1 hj
        have hne : j ≠ m := by
          rintro rfl
          exact hip hj.symm
        simp only [decide_eq_decide]
        omega
    · simp only [linkStep]
      rw [ih1 (par m) (by omega), ← hsib]
      cases hs : nextSibling par n m with
      | none =>
        rw [if_pos (show link none = -1 from rfl), ih2 i hi]
        by_cases him : i = m
        · subst him
          rw [if_neg (by omega), if_pos le_rfl, hs]
          rfl
        · simp only [show m + 1 ≤ i ↔ m ≤ i by omega]
      | some c =>
        rw [if_neg (link_ne c)]
        by_cases him : i = m
        · subst him
          rw [Function.update_self, if_pos le_rfl, hs]
        · rw [Function.update_of_ne him, ih2 i hi]
          simp only [show m + 1 ≤ i ↔ m ≤ i by omega]

/-- **Linking all nodes**, the last one first, gives first children and next siblings. -/
theorem Ordered.linked (h : Ordered par n) {nt ns : Nat → Int} (hnt : ∀ i < n, nt i = -1)
    (hns : ∀ i < n, ns i = -1) (hi : i < n) :
    ((range' 1 (n - 1)).foldr (fun i s => linkStep par s i) (nt, ns)).1 i = link (nextToken par n i) ∧
      ((range' 1 (n - 1)).foldr (fun i s => linkStep par s i) (nt, ns)).2 i =
        link (nextSibling par n i) := by
  obtain ⟨h1, h2⟩ := foldr_linkStep par n Nat.one_pos (show 1 + (n - 1) = n by omega) hnt hns h
  refine ⟨?_, ?_⟩
  · rw [h1 i hi, nextToken]
    have hall : ∀ (l : List Nat), (∀ j ∈ l, 1 ≤ j) → (l.find? fun j => decide (1 ≤ j)) = l.head? := by
      intro l hl
      cases l with
      | nil => rfl
      | cons a l => exact find?_cons_of_pos (by simpa using hl a mem_cons_self)
    rw [hall _ fun j hj => (mem_children.1 hj).2.1]
  · rw [h2 i hi]
    by_cases h0 : 1 ≤ i
    · rw [if_pos h0]
    · rw [if_neg h0, nextSibling, if_pos (by omega)]
      rfl

/-! ## Links from a mask -/

section Mask

variable {mask : Nat → Nat → Bool}

section

variable (h : Ordered par n) (hmask : ∀ i < n, ∀ j < n, mask i j = decide (j ∈ rootPath par i))
include h hmask

theorem Ordered.filter_mask (h0 : 0 < i) (hi : i < n) :
    (range i).filter (mask i) = rootPath par (par i) := by
  have hlt := h i h0 hi
  have hsorted := h.pairwise_rootPath (i := par i) (by omega)
  have hperm : ((range i).filter (mask i)).Perm (rootPath par (par i)) := by
    rw [perm_ext_iff_of_nodup (nodup_range.filter _) (hsorted.imp fun hab => Nat.ne_of_lt hab)]
    intro j
    rw [mem_filter, mem_range]
    constructor
    · rintro ⟨hj, hm⟩
      rw [hmask i hi j (by omega), decide_eq_true_eq] at hm
      exact ((h.mem_rootPath h0 hi).1 hm).resolve_right (by omega)
    · intro hj
      have hle := h.le_of_mem_rootPath (by omega) j hj
      refine ⟨by omega, ?_⟩
      rw [hmask i hi j (by omega), decide_eq_true_eq]
      exact (h.mem_rootPath h0 hi).2 (.inl hj)
  exact hperm.eq_of_pairwise' (r := (· < ·)) (List.Pairwise.filter _ pairwise_lt_range) hsorted

theorem Ordered.nextToken_of_mask (hi : i < n) :
    (range n).find? (fun j => decide (i < j) && mask j i) = nextToken par n i := by
  rw [h.nextToken_eq hi]
  refine find?_congr fun j hj => ?_
  rw [hmask j (mem_range.1 hj) i hi, Bool.eq_iff_iff]
  simp only [Bool.and_eq_true, decide_eq_true_eq]

theorem Ordered.nextSibling_of_mask (h0 : 0 < i) (hi : i < n) :
    (range n).find? (fun j => decide (i < j) && mask j (par i) &&
      (range j).all fun k => decide (k ≤ par i) || !mask j k) = nextSibling par n i := by
  rw [nextSibling_eq h0]
  refine find?_congr fun j hj => ?_
  have hjn := mem_range.1 hj
  have hpar := h i h0 hi
  rw [Bool.eq_iff_iff]
  simp only [Bool.and_eq_true, decide_eq_true_eq, all_eq_true, Bool.or_eq_true, Bool.not_eq_true',
    mem_range]
  constructor
  · rintro ⟨⟨hij, hm⟩, hall⟩
    refine ⟨hij, (h.par_eq_iff hjn (by omega)).2 ⟨?_, fun k hk hkj hmem => ?_⟩⟩
    · rw [hmask j hjn _ (by omega), decide_eq_true_eq] at hm
      exact hm
    · rcases hall k hkj with hle | hno
      · omega
      · rw [hmask j hjn k (by omega), decide_eq_false_iff_not] at hno
        exact hno hmem
  · rintro ⟨hij, hpj⟩
    obtain ⟨hmem, hno⟩ := (h.par_eq_iff hjn (by omega)).1 hpj
    refine ⟨⟨hij, ?_⟩, fun k hkj => ?_⟩
    · rw [hmask j hjn _ (by omega), decide_eq_true_eq]
      exact hmem
    · rcases Nat.lt_or_ge (par i) k with hk | hk
      · right
        rw [hmask j hjn k (by omega), decide_eq_false_iff_not]
        exact hno k hk hkj
      · exact .inl hk

end

end Mask

/-! ## Descents -/

section Descent

variable {α : Type} {tok want : Nat → α}

/-- Every node on the path has the token that its parent wants. -/
def Follows (tok want : Nat → α) (par : Nat → Nat) (i : Nat) : Prop :=
  ∀ j ∈ rootPath par i, 0 < j → tok j = want (par j)

theorem Ordered.follows_iff (h : Ordered par n) (h0 : 0 < i) (hi : i < n) :
    Follows tok want par i ↔ Follows tok want par (par i) ∧ tok i = want (par i) := by
  constructor
  · intro hf
    exact ⟨fun j hj => hf j ((h.mem_rootPath h0 hi).2 (.inl hj)), hf i (self_mem_rootPath par i) h0⟩
  · rintro ⟨hf, htok⟩ j hj hj0
    rcases (h.mem_rootPath h0 hi).1 hj with hj | rfl
    · exact hf j hj hj0
    · exact htok

theorem follows_zero : Follows tok want par 0 := by
  intro j hj h0
  rw [rootPath_zero, mem_singleton] at hj
  omega

/-- A text that is continued token by token. -/
def generate (next : List α → α) : Nat → List α → List α
  | 0, _ => []
  | k + 1, ctx => next ctx :: generate next k (ctx ++ [next ctx])

theorem generate_succ (next : List α → α) (k : Nat) (ctx : List α) :
    generate next (k + 1) ctx = generate next k ctx ++ [next (ctx ++ generate next k ctx)] := by
  induction k generalizing ctx with
  | zero => simp [generate]
  | succ k ih =>
    rw [generate, ih, generate, cons_append, append_assoc, singleton_append]

theorem exists_length_rootPath (par : Nat → Nat) (i : Nat) : ∃ k, (rootPath par i).length = k + 1 :=
  ⟨_, (Nat.sub_add_cancel (length_pos_of_mem (self_mem_rootPath par i))).symm⟩

section

variable (h : Ordered par n) {next : List α → α} {ctx : List α}
  (hwant : ∀ i < n, want i = next (ctx ++ (rootPath par i).map tok)) (hi : i < n)
include h hwant hi

/-- **Paths of wanted tokens.** When a node wants the token that continues the tokens on its path, the paths
    of wanted tokens are those that continue the root. -/
theorem Ordered.follows_iff_generate :
    Follows tok want par i ↔
      (rootPath par i).map tok = tok 0 :: generate next ((rootPath par i).length - 1) (ctx ++ [tok 0]) := by
  refine h.path_induction (P := fun i => Follows tok want par i ↔ (rootPath par i).map tok =
    tok 0 :: generate next ((rootPath par i).length - 1) (ctx ++ [tok 0])) ?_ ?_ hi
  · simp [rootPath_zero, generate, follows_zero]
  · intro i h0 hi ih
    have hlt := h i h0 hi
    obtain ⟨k, hk⟩ := exists_length_rootPath par (par i)
    rw [hk, Nat.add_sub_cancel] at ih
    rw [h.follows_iff h0 hi, h.rootPath_eq h0 hi, map_append, map_singleton, length_append,
      length_singleton, hk, Nat.add_sub_cancel, generate_succ, ← cons_append, hwant _ (by omega)]
    constructor
    · rintro ⟨hf, htok⟩
      rw [htok, ih.1 hf, append_assoc]
      rfl
    · intro heq
      obtain ⟨hpath, htok⟩ := append_inj' heq rfl
      refine ⟨ih.2 hpath, ?_⟩
      rw [hpath, ← singleton_append, ← append_assoc]
      exact singleton_inj.1 htok

theorem Ordered.map_want (hf : Follows tok want par i) :
    (rootPath par i).map want = generate next (rootPath par i).length (ctx ++ [tok 0]) := by
  revert hf
  refine h.path_induction (P := fun i => Follows tok want par i →
    (rootPath par i).map want = generate next (rootPath par i).length (ctx ++ [tok 0])) ?_ ?_ hi
  · intro _
    simp only [rootPath_zero, map_cons, map_nil, length_singleton, generate]
    rw [hwant 0 (by omega), rootPath_zero]
    rfl
  · intro i h0 hi ih hf
    have htoks := (h.follows_iff_generate hwant hi).1 hf
    obtain ⟨hfp, -⟩ := (h.follows_iff h0 hi).1 hf
    rw [h.rootPath_eq h0 hi, map_append, map_singleton, length_append, length_singleton,
      generate_succ, ← ih hfp, hwant i hi, htoks, h.rootPath_eq h0 hi, length_append,
      length_singleton, Nat.add_sub_cancel, ← ih hfp]
    simp

end

variable [DecidableEq α]

/-- Go from a node to the first child that has the token wanted there, for a number of steps. -/
def descend (tok want : Nat → α) (par : Nat → Nat) (n : Nat) : Nat → Nat → List Nat
  | 0, _ => []
  | steps + 1, i =>
    match (children par n i).find? fun j => decide (tok j = want i) with
    | none => []
    | some j => j :: descend tok want par n steps j

theorem lt_of_mem_descend {steps v : Nat} (hv : v ∈ descend tok want par n steps i) : v < n := by
  induction steps generalizing i with
  | zero => cases hv
  | succ steps ih =>
    rw [descend] at hv
    cases hfind : (children par n i).find? fun j => decide (tok j = want i) with
    | none => rw [hfind] at hv; cases hv
    | some j =>
      rw [hfind] at hv
      rcases mem_cons.1 hv with rfl | hv
      · exact (mem_children.1 (mem_of_find?_eq_some hfind)).1
      · exact ih hv

theorem length_descend_le (tok want : Nat → α) (par : Nat → Nat) (n steps i : Nat) :
    (descend tok want par n steps i).length ≤ steps := by
  induction steps generalizing i with
  | zero => exact le_rfl
  | succ steps ih =>
    rw [descend]
    split
    · exact Nat.zero_le _
    · exact Nat.succ_le_succ (ih _)

/-- A descent goes down a path of wanted tokens. -/
theorem Ordered.descend_spec (h : Ordered par n) {tok want : Nat → α} (steps : Nat) (hi : i < n)
    (hf : Follows tok want par i) :
    ∃ a < n, Follows tok want par a ∧ rootPath par a = rootPath par i ++ descend tok want par n steps i := by
  induction steps generalizing i with
  | zero => exact ⟨i, hi, hf, by simp [descend]⟩
  | succ steps ih =>
    rw [descend]
    cases hfind : (children par n i).find? fun j => decide (tok j = want i) with
    | none => exact ⟨i, hi, hf, by simp⟩
    | some j =>
      have htok := find?_some hfind
      obtain ⟨hjn, hj0, rfl⟩ := mem_children.1 (mem_of_find?_eq_some hfind)
      rw [decide_eq_true_eq] at htok
      obtain ⟨a, ha, hfa, hpath⟩ := ih hjn ((h.follows_iff hj0 hjn).2 ⟨hf, htok⟩)
      refine ⟨a, ha, hfa, ?_⟩
      rw [hpath, h.rootPath_eq hj0 hjn]
      simp

theorem Ordered.descend_eq (h : Ordered par n)
    (hsib : ∀ j k, 0 < j → j < n → 0 < k → k < n → par j = par k → tok j = tok k → j = k)
    (steps : Nat) (hi : i < n) (hf : Follows tok want par i)
    (hlen : (rootPath par i).length ≤ steps + 1) :
    0 :: descend tok want par n steps 0 =
      rootPath par i ++ descend tok want par n (steps + 1 - (rootPath par i).length) i := by
  revert hf hlen
  refine h.path_induction (P := fun i => Follows tok want par i → (rootPath par i).length ≤ steps + 1 →
    0 :: descend tok want par n steps 0 =
      rootPath par i ++ descend tok want par n (steps + 1 - (rootPath par i).length) i) ?_ ?_ hi
  · intro _ _
    rw [rootPath_zero]
    rfl
  · intro i h0 hi ih hf hlen
    obtain ⟨hfp, htok⟩ := (h.follows_iff h0 hi).1 hf
    rw [h.rootPath_eq h0 hi, length_append, length_singleton] at hlen ⊢
    obtain ⟨k, hk⟩ : ∃ k, steps + 1 - (rootPath par (par i)).length = k + 1 :=
      ⟨steps - (rootPath par (par i)).length, by omega⟩
    -- `i` is the only child with the token wanted
    have hfind : ((children par n (par i)).find? fun j => decide (tok j = want (par i))) = some i := by
      cases hfind : (children par n (par i)).find? fun j => decide (tok j = want (par i)) with
      | none =>
        have := find?_eq_none.1 hfind i (mem_children.2 ⟨hi, h0, rfl⟩)
        simp [htok] at this
      | some j =>
        have hj := find?_some hfind
        obtain ⟨hjn, hj0, hpar⟩ := mem_children.1 (mem_of_find?_eq_some hfind)
        rw [decide_eq_true_eq] at hj
        rw [hsib j i hj0 hjn h0 hi hpar (hj.trans htok.symm)]
    rw [ih hfp (by omega), hk, descend, hfind]
    have : steps + 1 - ((rootPath par (par i)).length + 1) = k := by omega
    simp [this]

end Descent

end ParentTree
