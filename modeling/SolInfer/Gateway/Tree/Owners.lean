import SolInfer.Gateway.Tree

set_option autoImplicit false

/-! # Who holds what in the prefix tree

The tree as a relation between tenants and texts (`Tree.Holds`), and what each operation on a node does to
it. The tenants of a node are tenants of its parent, so a node can lose a tenant only when its children do
not have it. -/

open Radix Radix.Forest

namespace Gateway

/-! ## Texts -/

theorem NodeText.splitAtChar_text (t : NodeText) (n : Nat) :
    (t.splitAtChar n).1.text = t.text.take n ∧ (t.splitAtChar n).2.text = t.text.drop n := by
  have := t.count_eq
  unfold NodeText.splitAtChar
  split
  · exact ⟨rfl, rfl⟩
  next h =>
    have hle : t.text.length ≤ n := by omega
    exact ⟨(List.take_of_length_le hle).symm, (List.drop_eq_nil_of_le hle).symm⟩

theorem NodeText.splitAtChar_count (t : NodeText) (n : Nat) :
    (t.splitAtChar n).1.charCount + (t.splitAtChar n).2.charCount = t.charCount := by
  unfold NodeText.splitAtChar
  split
  · dsimp only
    omega
  · rfl

/-! ## Tenants of a node -/

theorem has_set (d : Node) (t t' : TenantId) (n : Nat) :
    ({ d with tenantLastAccessTime := d.tenantLastAccessTime.set t n }.has t' = true) ↔
      t' = t ∨ d.has t' = true := by
  simp only [Node.has, Dict.contains, Dict.get?_set]
  by_cases h : t = t'
  · simp [h]
  · simp [h, Ne.symm h]

theorem without_has (d : Node) (t t' : TenantId) :
    (d.without t).has t' = true ↔ t' ≠ t ∧ d.has t' = true := by
  simp only [Node.without, Node.has, Dict.contains, Dict.get?_erase]
  by_cases h : t = t'
  · simp [h]
  · simp [h, Ne.symm h]

variable {t t' : TenantId} {tree : Tree}

theorem has_iff_mem_keys {d : Node} : d.has t = true ↔ t ∈ d.tenantLastAccessTime.keys := by
  rw [Node.has, Dict.contains, Option.isSome_iff_exists, Dict.mem_keys]

/-- What a node has for the words on its edge. -/
def Node.tenants (d : Node) (_ : Nat) : TenantId → Prop := fun t => d.has t = true

theorem passTenant_label (t : TenantId) (s : Dict TenantId Nat × Nat) (d : Node) (r : List Char) :
    (passTenant t s d r).2.text = d.text := by
  unfold passTenant
  by_cases hd : d.has t = true
  · rw [if_pos hd]
    dsimp only
    split <;> rfl
  · rw [if_neg hd]
    dsimp only
    split <;> rfl

theorem passTenant_has (t t' : TenantId) (s : Dict TenantId Nat × Nat) (d : Node) (r : List Char) :
    (passTenant t s d r).2.has t' = true ↔ t' = t ∨ d.has t' = true := by
  unfold passTenant
  by_cases hd : d.has t = true
  · rw [if_pos hd]
    have hself : t' = t → d.has t' = true := by
      rintro rfl
      exact hd
    dsimp only
    split
    · exact has_set d t t' _
    · exact ⟨.inr, fun h => h.elim hself id⟩
  · rw [if_neg hd]
    dsimp only
    split
    · rw [has_set { d with tenantLastAccessTime := d.tenantLastAccessTime.set t 0 }, has_set]
      tauto
    · exact has_set d t t' 0

theorem leaf_has (t t' : TenantId) (s : Dict TenantId Nat × Nat) (k : Nat) (r : List Char) :
    ((insertion t).leaf s k r).2.has t' = true ↔ t' = t := by
  simp only [insertion, Node.has, Dict.contains, Dict.get?_set, Dict.get?_empty]
  by_cases h : t = t'
  · simp [h]
  · simp [h, Ne.symm h]

theorem insertion_lawful (t : TenantId) :
    (insertion t).Lawful Node.label Node.tenants (fun T t' => t' = t ∨ T t') fun _ t' => t' = t where
  label_upper := fun _ d n => (d.text.splitAtChar_text n).1
  label_lower := fun _ d n => (d.text.splitAtChar_text n).2
  label_pass := fun s d r => congrArg NodeText.text (passTenant_label t s d r)
  label_leaf := fun _ _ _ => rfl
  pay_upper := fun _ _ _ _ _ _ => rfl
  pay_lower := fun _ _ _ _ _ => rfl
  pay_pass := fun s d r _ => funext fun t' => propext (passTenant_has t t' s d r)
  pay_leaf := fun s k r _ _ _ => funext fun t' => propext (leaf_has t t' s k r)

/-! ## The shape of a tree -/

/-- A node has a tenant, and only tenants of its parent. -/
def Attached (a d : Node) : Prop := (∃ t, d.has t = true) ∧ ∀ t, d.has t = true → a.has t = true

structure Shape (tree : Tree) : Prop where
  wf : tree.children.WF Node.label
  under : tree.children.Under Attached tree.root

/-- `a` after a tenant was let through is `b`. -/
def Passed (t : TenantId) (a b : Node) : Prop := ∀ t', b.has t' = true ↔ t' = t ∨ a.has t' = true

theorem insertion_respects (t : TenantId) : (insertion t).Respects Attached (Passed t) where
  passed := fun s d r t' => passTenant_has t t' s d r
  above := fun hQ hR => ⟨hR.1, fun t' h => (hQ t').2 (.inr (hR.2 t' h))⟩
  pass := fun s r hQ hR => ⟨⟨t, (passTenant_has t t s _ r).2 (.inl rfl)⟩, fun t' h =>
    (hQ t').2 (((passTenant_has t t' s _ r).1 h).imp id (hR.2 t'))⟩
  upper := fun s _ r _ hQ hR => ⟨⟨t, (passTenant_has t t s _ r).2 (.inl rfl)⟩, fun t' h =>
    (hQ t').2 (((passTenant_has t t' s _ r).1 h).imp id (hR.2 t'))⟩
  lower := fun s _ r _ hR => ⟨hR.1, fun t' h => (passTenant_has t t' s _ r).2 (.inr h)⟩
  children := fun _ _ hR => hR
  leaf := fun s k r hQ => ⟨⟨t, (leaf_has t t s k r).2 rfl⟩, fun t' h =>
    (hQ t').2 (.inl ((leaf_has t t' s k r).1 h))⟩
  leafSplit := fun s _ s'' k r _ _ => ⟨⟨t, (leaf_has t t s'' k r).2 rfl⟩, fun t' h =>
    (passTenant_has t t' s _ r).2 (.inl ((leaf_has t t' s'' k r).1 h))⟩

/-- The tenant holds the text: it is on the node on whose edge the text ends. -/
def Tree.Holds (tree : Tree) (t : TenantId) (p : List Char) : Prop :=
  if p = [] then tree.root.has t = true
  else ∃ T, tree.children.get Node.label Node.tenants p = some T ∧ T t

theorem Tree.holds_nil : tree.Holds t [] ↔ tree.root.has t = true := by
  simp [Tree.Holds]

theorem Tree.holds_of_ne {p : List Char} (hp : p ≠ []) :
    tree.Holds t p ↔ ∃ T, tree.children.get Node.label Node.tenants p = some T ∧ T t := by
  simp [Tree.Holds, hp]

/-! ## Insertion -/

theorem orInsert_contains (d : Dict TenantId Nat) (t t' : TenantId) :
    (orInsert d t).contains t' = true ↔ t' = t ∨ d.contains t' = true := by
  unfold orInsert
  split
  next h =>
    constructor
    · exact .inr
    · rintro (rfl | h')
      · exact h
      · exact h'
  · simp only [Dict.contains, Dict.get?_set]
    by_cases h : t = t'
    · simp [h]
    · simp [h, Ne.symm h]

theorem insert_root_has (tree : Tree) (text : List Char) (t t' : TenantId) :
    (tree.insert text t).root.has t' = true ↔ t' = t ∨ tree.root.has t' = true := by
  have hroot := orInsert_contains tree.root.tenantLastAccessTime t t'
  unfold Tree.insert
  split
  · rw [has_set { tree.root with tenantLastAccessTime := orInsert tree.root.tenantLastAccessTime t }]
    unfold Node.has at hroot ⊢
    tauto
  · exact hroot

theorem insert_children_of_ne (tree : Tree) {text : List Char} (h : text ≠ []) (t : TenantId) :
    (tree.insert text t).children = (tree.children.insert Node.label (insertion t)
      (orInsert tree.tenantCharCount t, tree.epoch) 0 text).2 := by
  unfold Tree.insert
  rw [if_neg h]

theorem insert_children_nil (tree : Tree) (t : TenantId) : (tree.insert [] t).children = tree.children := by
  simp [Tree.insert]

theorem Shape.insert (h : Shape tree) (text : List Char) (t : TenantId) : Shape (tree.insert text t) := by
  have hroot : Passed t tree.root (tree.insert text t).root := insert_root_has tree text t
  by_cases ht : text = []
  · subst ht
    refine ⟨?_, ?_⟩
    · rw [insert_children_nil]
      exact h.wf
    · rw [insert_children_nil]
      exact h.under.mono_top fun d hd => (insertion_respects t).above hroot hd
  · refine ⟨?_, ?_⟩
    · rw [insert_children_of_ne tree ht]
      exact wf_insert (insertion_lawful t) h.wf _ _ ht
    · rw [insert_children_of_ne tree ht]
      exact h.under.insert Node.label (insertion_respects t) hroot _ _ _

/-- **Insertion stores every prefix of the text.** -/
theorem holds_insert (h : Shape tree) (text : List Char) (t t' : TenantId) (p : List Char) :
    (tree.insert text t).Holds t' p ↔ (t' = t ∧ p <+: text) ∨ tree.Holds t' p := by
  by_cases hp : p = []
  · subst hp
    rw [Tree.holds_nil, Tree.holds_nil, insert_root_has]
    simp
  · rw [Tree.holds_of_ne hp, Tree.holds_of_ne hp]
    by_cases ht : text = []
    · subst ht
      rw [insert_children_nil]
      simp [hp]
    · rw [insert_children_of_ne tree ht, get_insert (insertion_lawful t) h.wf _ _ ht]
      by_cases hpre : p <+: text
      · rw [put_of_isPrefix hp hpre]
        cases tree.children.get Node.label Node.tenants p with
        | none => simp [hpre]
        | some T => simp [hpre]
      · rw [put_of_not_isPrefix hpre]
        simp [hpre]

/-! ## Character counts -/

def size (t : TenantId) (d : Node) : Nat := if d.has t then d.text.charCount else 0

theorem Shape.all_absent (h : Shape tree) (ht : noChildHas t tree.children = true) :
    tree.children.All fun d => d.has t = false := by
  refine h.under.all (fun hR ha => ?_) fun x hx => ?_
  · by_contra hd
    have := hR.2 t (by simpa using hd)
    rw [ha] at this
    cases this
  · simpa using List.all_eq_true.1 ht x hx

theorem Shape.noChildHas_of_root (h : Shape tree)
    (ht : tree.root.has t = false) : noChildHas t tree.children = true := by
  have hchild : ∀ (f : Forest Node), f.Under Attached tree.root → noChildHas t f = true := by
    intro f hf
    refine List.all_eq_true.2 fun x hx => ?_
    induction f with
    | nil => cases hx
    | node d ch sib _ ihs =>
      rcases List.mem_cons.1 hx with rfl | hx
      · by_contra hd
        have := hf.1.2 t (by simpa using hd)
        rw [ht] at this
        cases this
      · exact ihs hf.2.2 hx
  exact hchild _ h.under

theorem size_of_absent {d : Node} (h : d.has t = false) : size t d = 0 := by
  simp [size, h]

theorem orInsert_get? (d : Dict TenantId Nat) (t : TenantId) :
    (orInsert d t).get? t = some ((d.get? t).getD 0) := by
  unfold orInsert Dict.contains
  cases h : d.get? t with
  | some n => simp [h]
  | none => simp [Dict.get?_set_self]

theorem orInsert_get?_of_ne (d : Dict TenantId Nat) (h : t' ≠ t) : (orInsert d t).get? t' = d.get? t' := by
  unfold orInsert
  split
  · rfl
  · exact Dict.get?_set_of_ne d 0 (Ne.symm h)

theorem orInsert_getD (d : Dict TenantId Nat) (t t' : TenantId) :
    ((orInsert d t).get? t').getD 0 = (d.get? t').getD 0 := by
  by_cases h : t' = t
  · subst h
    rw [orInsert_get?, Option.getD_some]
  · rw [orInsert_get?_of_ne d h]

theorem passTenant_counts_of_ne (h : t' ≠ t) (s : Dict TenantId Nat × Nat) (d : Node)
    (r : List Char) : (passTenant t s d r).1.1.get? t' = s.1.get? t' := by
  unfold passTenant
  by_cases hd : d.has t = true
  · rw [if_pos hd]
    dsimp only
    split <;> rfl
  · rw [if_neg hd]
    dsimp only
    split <;> exact Dict.get?_set_of_ne _ _ (Ne.symm h)

theorem passTenant_counts (t : TenantId) (s : Dict TenantId Nat × Nat) (d : Node) (r : List Char) :
    ((passTenant t s d r).1.1.get? t).getD 0 + size t d =
        (s.1.get? t).getD 0 + size t (passTenant t s d r).2 ∧
      ((s.1.get? t).isSome → ((passTenant t s d r).1.1.get? t).isSome) := by
  have hhas : (passTenant t s d r).2.has t = true := (passTenant_has t t s d r).2 (.inl rfl)
  have htext : (passTenant t s d r).2.text.charCount = d.text.charCount := by rw [passTenant_label]
  simp only [size, hhas, if_true, htext]
  unfold passTenant
  by_cases hd : d.has t = true
  · rw [if_pos hd]
    dsimp only
    split <;> exact ⟨rfl, id⟩
  · rw [if_neg hd, if_neg hd]
    dsimp only
    split <;> simp [addCount, Dict.get?_set_self]

theorem size_split (t' t : TenantId) (s : Dict TenantId Nat × Nat) (d : Node) (n : Nat) :
    size t' ((insertion t).split s d n).2.1 + size t' ((insertion t).split s d n).2.2 = size t' d := by
  have hcount := d.text.splitAtChar_count n
  have hhas : ∀ x, ({ d with text := x } : Node).has t' = d.has t' := fun _ => rfl
  simp only [insertion, size, hhas]
  split
  · exact hcount
  · rfl

theorem size_leaf (t' t : TenantId) (s : Dict TenantId Nat × Nat) (k : Nat) (r : List Char) :
    size t' ((insertion t).leaf s k r).2 = if t' = t then r.length else 0 := by
  unfold size
  by_cases h : t' = t
  · rw [if_pos ((leaf_has t t' s k r).2 h), if_pos h]
    rfl
  · rw [if_neg (fun hh => h ((leaf_has t t' s k r).1 hh)), if_neg h]

theorem size_pass_of_ne (h : t' ≠ t) (s : Dict TenantId Nat × Nat) (d : Node)
    (r : List Char) : size t' (passTenant t s d r).2 = size t' d := by
  have hhas : (passTenant t s d r).2.has t' = d.has t' := by
    have := passTenant_has t t' s d r
    simp only [h, false_or] at this
    exact Bool.eq_iff_iff.2 this
  unfold size
  rw [hhas, passTenant_label]

theorem insert_total (t' t : TenantId) (f : Forest Node) (s : Dict TenantId Nat × Nat)
    (text : List Char) :
    ((f.insert Node.label (insertion t) s 0 text).1.1.get? t').getD 0 + f.total (size t') =
      (s.1.get? t').getD 0 + (f.insert Node.label (insertion t) s 0 text).2.total (size t') := by
  refine total_insert (insertion t) (fun s => (s.1.get? t').getD 0) (size t') ?_ ?_ ?_ f s 0
    text
  · exact fun s d n => ⟨rfl, size_split t' t s d n⟩
  · intro s d r
    by_cases h : t' = t
    · subst h
      exact (passTenant_counts t' s d r).1
    · show ((passTenant t s d r).1.1.get? t').getD 0 + _ = _ + size t' (passTenant t s d r).2
      rw [passTenant_counts_of_ne h, size_pass_of_ne h]
  · intro s k r
    rw [size_leaf]
    by_cases h : t' = t
    · subst h
      simp [insertion, addCount, Dict.get?_set_self]
    · simp [insertion, addCount, Dict.get?_set_of_ne _ _ (Ne.symm h), h]

theorem insert_counts_isSome (t : TenantId) (f : Forest Node) {s : Dict TenantId Nat × Nat}
    (text : List Char) (h : (s.1.get? t).isSome = true) :
    ((f.insert Node.label (insertion t) s 0 text).1.1.get? t).isSome = true := by
  refine insert_state Node.label (insertion t)
    (fun s d n hs => hs) (fun s d r hs => (passTenant_counts t s d r).2 hs) (fun s k r _ => ?_) f 0 text h
  simp [insertion, addCount, Dict.get?_set_self]

theorem insert_counts_of_ne (h : t' ≠ t) (f : Forest Node)
    (s : Dict TenantId Nat × Nat) (text : List Char) :
    (f.insert Node.label (insertion t) s 0 text).1.1.get? t' = s.1.get? t' := by
  refine insert_state (P := fun s' => s'.1.get? t' = s.1.get? t') Node.label (insertion t)
    (fun s d n hs => hs) (fun s d r hs => (passTenant_counts_of_ne h s d r).trans hs)
    (fun s k r hs => ?_) f 0 text rfl
  exact (Dict.get?_set_of_ne _ _ (Ne.symm h)).trans hs

theorem insert_tenantCharCount (tree : Tree) (text : List Char) (t : TenantId) :
    (tree.insert text t).tenantCharCount = if text = [] then orInsert tree.tenantCharCount t
      else (tree.children.insert Node.label (insertion t)
        (orInsert tree.tenantCharCount t, tree.epoch) 0 text).1.1 := by
  unfold Tree.insert
  split <;> rfl

theorem counts_insert (h : (tree.tenantCharCount.get? t').getD 0 = tree.children.total (size t'))
    (text : List Char) (t : TenantId) :
    ((tree.insert text t).tenantCharCount.get? t').getD 0 =
      (tree.insert text t).children.total (size t') := by
  rw [insert_tenantCharCount]
  split
  next ht =>
    subst ht
    rw [orInsert_getD, insert_children_nil, h]
  next ht =>
    have htotal := insert_total t' t tree.children (orInsert tree.tenantCharCount t, tree.epoch) text
    rw [insert_children_of_ne tree ht]
    rw [orInsert_getD] at htotal
    omega

theorem insert_knows (tree : Tree) (text : List Char) (t t' : TenantId) :
    ((tree.insert text t).tenantCharCount.get? t').isSome = true ↔
      t' = t ∨ (tree.tenantCharCount.get? t').isSome = true := by
  rw [insert_tenantCharCount]
  by_cases htt : t' = t
  · subst htt
    refine iff_of_true ?_ (.inl rfl)
    split
    · rw [orInsert_get?]
      rfl
    · exact insert_counts_isSome t' tree.children _ (by rw [orInsert_get?]; rfl)
  · rw [or_iff_right htt]
    split
    · rw [orInsert_get?_of_ne _ htt]
    · rw [insert_counts_of_ne htt, orInsert_get?_of_ne _ htt]

/-- Every count is the number of characters on the nodes of the tenant; the root has none. -/
structure Accounts (tree : Tree) : Prop where
  shape : Shape tree
  counts : ∀ t, (tree.tenantCharCount.get? t).getD 0 = tree.children.total (size t)
  text : tree.root.text = .empty

theorem accounts_new (epoch : Nat) : Accounts (Tree.new epoch) := ⟨⟨trivial, trivial⟩, fun _ => rfl, rfl⟩

theorem Accounts.insert (h : Accounts tree) (text : List Char) (t : TenantId) :
    Accounts (tree.insert text t) := by
  refine ⟨h.shape.insert text t, fun t' => counts_insert (h.counts t') text t, ?_⟩
  unfold Tree.insert
  split
  · exact h.text
  · exact h.text

end Gateway
