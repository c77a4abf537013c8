import SolInfer.Gateway.Tree.Owners

set_option autoImplicit false

/-! # Taking tenants from the nodes of the prefix tree

`remove_tenant` and `evict_tenant_by_size` take a tenant from one node after another, always from a node
whose children do not have it (a leaf for the tenant). A leaf that loses the tenant makes at most its
parent a new leaf, so the queue of `remove_tenant` always has all leaves, and when it is empty the tenant
is gone. -/

open List Radix Radix.Forest

namespace Gateway

/-! ## Changing a node without changing its tenants -/

theorem Tree.nodeAt_nil (tree : Tree) : tree.nodeAt [] = some (tree.root, tree.children) := if_pos rfl

theorem Tree.nodeAt_of_ne (tree : Tree) {path : List Char} (h : path ≠ []) :
    tree.nodeAt path = tree.children.nodeAt Node.label path := if_neg h

variable {tree : Tree} {path p v : List Char} {ch : Forest Node} {t : TenantId} {d : Node}

theorem modify_tenantCharCount (tree : Tree) (path : List Char) (f : Node → Node) :
    (tree.modify path f).tenantCharCount = tree.tenantCharCount := by
  unfold Tree.modify
  split <;> rfl

section

variable (hat : tree.nodeAt path = some (d, ch)) {f : Node → Node} (htext : ∀ e, (f e).text = e.text)
include hat htext

theorem Shape.modify (h : Shape tree) (hhas : ∀ t, (f d).has t = d.has t) :
    Shape (tree.modify path f) ∧ (∀ t p, (tree.modify path f).Holds t p ↔ tree.Holds t p) ∧
      ∀ t, (tree.modify path f).children.total (size t) = tree.children.total (size t) := by
  have hup : ∀ a, Attached a d → Attached a (f d) := by
    intro a ha
    simpa only [Attached, hhas] using ha
  have hdown : ∀ c, Attached d c → Attached (f d) c := by
    intro c hc
    simpa only [Attached, hhas] using hc
  unfold Tree.modify
  by_cases hp : path = []
  · subst hp
    cases hat
    rw [if_pos rfl]
    refine ⟨⟨h.wf, h.under.mono_top hdown⟩, ?_, fun _ => rfl⟩
    intro t p
    unfold Tree.Holds
    simp only [hhas]
  · rw [Tree.nodeAt_of_ne tree hp] at hat
    rw [if_neg hp]
    have hlab : ∀ (e : Node) (c : Forest Node) e', some (f e) = some e' → e'.label = e.label := by
      rintro e c _ ⟨⟩
      exact congrArg NodeText.text (htext e)
    refine ⟨⟨wf_alter hlab h.wf path, ?_⟩, ?_, ?_⟩
    · refine h.under.alter hat ?_ ?_
      · rintro _ ⟨⟩ a ha
        exact hup a ha
      · rintro _ ⟨⟩ c _ hc
        exact hdown c hc
    · intro t p
      by_cases hp0 : p = []
      · subst hp0
        exact Iff.rfl
      · rw [Tree.holds_of_ne hp0, Tree.holds_of_ne hp0]
        rw [get_alter Node.tenants _ h.wf hat (fun e' => hlab d ch e') (by simp) p]
        split
        next hon =>
          rw [get_onEdge Node.tenants h.wf hat hon]
          simp [Node.tenants, hhas]
        · exact Iff.rfl
    · intro t
      have htotal := total_alter (h := fun d _ => some (f d)) (size t) hat (by simp)
      have hsize : size t (f d) = size t d := by
        unfold size
        rw [hhas, htext]
      simp only [Option.map_some, Option.getD_some, hsize] at htotal
      dsimp only
      omega

theorem Accounts.modify (h : Accounts tree) (hmore : ∀ t, d.has t = true → (f d).has t = true)
    (hhas : path ≠ [] → ∀ t, (f d).has t = d.has t) (epoch : Nat) :
    Accounts { tree.modify path f with epoch := epoch } := by
  by_cases hp : path = []
  · subst hp
    cases hat
    unfold Tree.modify
    exact ⟨⟨h.shape.wf, h.shape.under.mono_top fun c hc => ⟨hc.1, fun t ht => hmore t (hc.2 t ht)⟩⟩,
      h.counts, (htext _).trans h.text⟩
  · obtain ⟨hshape, -, htotal⟩ := h.shape.modify hat htext (hhas hp)
    refine ⟨⟨hshape.wf, hshape.under⟩, fun t => ?_, ?_⟩
    · dsimp only
      rw [modify_tenantCharCount, htotal, h.counts]
    · unfold Tree.modify
      rw [if_neg hp]
      exact h.text

end

/-! ## Taking a tenant from a leaf -/

/-- The node at the end of the text has the tenant, and none of its children has. -/
def IsLeaf (tree : Tree) (t : TenantId) (path : List Char) : Prop :=
  ∃ d ch, tree.nodeAt path = some (d, ch) ∧ d.has t = true ∧ noChildHas t ch = true

theorem noChildHas_iff : noChildHas t ch = true ↔ ∀ x ∈ ch.topData, x.has t = false := by
  simp [noChildHas]

theorem dropTenant_some {d' : Node} (h : dropTenant t d ch = some d') : d' = d.without t := by
  unfold dropTenant at h
  split at h
  · split at h
    · cases h
    · exact (Option.some.inj h).symm
  · exact (Option.some.inj h).symm

theorem dropTenant_none
    (h : dropTenant t d ch = none) : ch = .nil ∧ ∀ t', d.has t' = true → t' = t := by
  unfold dropTenant at h
  split at h
  · split at h
    next hk =>
      refine ⟨rfl, ?_⟩
      intro t' ht'
      by_contra hne
      have := has_iff_mem_keys.1 ((without_has d t t').2 ⟨hne, ht'⟩)
      rw [hk] at this
      cases this
    · cases h
  · cases h

theorem dropTenant_label (d : Node) (ch : Forest Node) (d' : Node)
    (h : dropTenant t d ch = some d') : d'.label = d.label := by
  rw [dropTenant_some h]
  rfl

theorem dropTenant_not_has {d' : Node} (h : dropTenant t d ch = some d') : d'.has t = false := by
  rw [dropTenant_some h]
  have := without_has d t t
  simpa using this

theorem exists_other_tenant {d' : Node}
    (h : dropTenant t d ch = some d') (hun : ch.Under Attached d) (hno : noChildHas t ch = true) :
    ∃ t', t' ≠ t ∧ d.has t' = true := by
  unfold dropTenant at h
  split at h
  · split at h
    · cases h
    next hk =>
      obtain ⟨t', ht'⟩ := exists_mem_of_ne_nil _ hk
      exact ⟨t', (without_has d t t').1 (has_iff_mem_keys.2 ht')⟩
  next c _ _ =>
    obtain ⟨⟨t', ht'⟩, hsub⟩ := hun.1
    refine ⟨t', ?_, hsub t' ht'⟩
    rintro rfl
    have := noChildHas_iff.1 hno c mem_cons_self
    rw [ht'] at this
    cases this

/-! ## Leaves as held texts -/

/-- The text ends at the node: on its edge, or at the root. -/
def Node.Ends (d : Node) (path p : List Char) : Prop :=
  p <+: path ∧ (path = [] ∨ path.length < p.length + d.label.length)

theorem Node.Ends.next {v r : List Char} {a : Char} (h : d.Ends (v ++ a :: r) v) :
    d.Ends (v ++ a :: r) (v ++ [a]) := by
  have hlt := h.2.resolve_left (by simp)
  refine ⟨⟨r, by simp⟩, .inr ?_⟩
  simp only [length_append, length_cons, length_nil] at hlt ⊢
  omega

section

variable (h : Shape tree) (hat : tree.nodeAt path = some (d, ch))
include h hat

theorem ends_self : d.Ends path path := by
  refine ⟨prefix_refl _, ?_⟩
  by_cases hp : path = []
  · exact .inl hp
  · rw [Tree.nodeAt_of_ne tree hp] at hat
    exact .inr (Nat.lt_add_of_pos_right (length_pos_of_ne_nil (label_suffix h.wf hat).1))

theorem holds_ends (hends : d.Ends path p) : tree.Holds t p ↔ d.has t = true := by
  by_cases hp : path = []
  · subst hp
    cases hat
    rw [prefix_nil.1 hends.1, Tree.holds_nil]
  · rw [Tree.nodeAt_of_ne tree hp] at hat
    have hon : OnEdge d.label path p := ⟨hends.1, hends.2.resolve_left hp⟩
    rw [Tree.holds_of_ne (hon.ne_nil (label_suffix h.wf hat).2), get_onEdge Node.tenants h.wf hat hon]
    simp [Node.tenants]

theorem holds_append (hp : p ≠ []) :
    tree.Holds t (path ++ p) ↔ ∃ T, ch.get Node.label Node.tenants p = some T ∧ T t := by
  rw [Tree.holds_of_ne (by simp [hp])]
  by_cases hp0 : path = []
  · subst hp0
    cases hat
    exact Iff.rfl
  · rw [Tree.nodeAt_of_ne tree hp0] at hat
    rw [get_append Node.tenants h.wf hat hp]

theorem Shape.below : Shape { tree with root := d, children := ch } := by
  by_cases hp : path = []
  · subst hp
    cases hat
    exact h
  · rw [Tree.nodeAt_of_ne tree hp] at hat
    exact ⟨nodeAt_wf h.wf hat, (h.under.nodeAt hat).2⟩

theorem noChildHas_iff_holds : noChildHas t ch = true ↔ ∀ a, ¬ tree.Holds t (path ++ [a]) := by
  have hbelow := h.below hat
  constructor
  · intro hno a hh
    obtain ⟨T, hT, ht⟩ := (holds_append h hat (by simp)).1 hh
    obtain ⟨e, n, he, rfl⟩ := (hbelow.all_absent hno).get hT
    rw [Node.tenants, he] at ht
    cases ht
  · intro hno
    refine noChildHas_iff.2 fun x hx => ?_
    by_contra hxt
    -- the first letter of the edge to the child
    obtain ⟨c, hc⟩ := nodeAt_of_mem_topData hbelow.wf hx
    obtain ⟨a, l, hl⟩ := exists_cons_of_ne_nil (label_suffix hbelow.wf hc).1
    have hon : OnEdge x.label x.label [a] := onEdge_self.2 ⟨by simp, hl ▸ ⟨l, rfl⟩⟩
    exact hno a ((holds_append h hat (by simp)).2
      ⟨_, get_onEdge Node.tenants hbelow.wf hc hon, eq_true_of_ne_false hxt⟩)

end

/-- **A leaf for a tenant** is the end of a longest text that the tenant holds. -/
theorem isLeaf_iff (h : Shape tree) :
    IsLeaf tree t path ↔ tree.Holds t path ∧ ∀ a, ¬ tree.Holds t (path ++ [a]) := by
  constructor
  · rintro ⟨d, ch, hat, hd, hno⟩
    exact ⟨(holds_ends h hat (ends_self h hat)).2 hd, (noChildHas_iff_holds h hat).1 hno⟩
  rintro ⟨hh, hno⟩
  suffices hat : ∃ d ch, tree.nodeAt path = some (d, ch) by
    obtain ⟨d, ch, hat⟩ := hat
    exact ⟨d, ch, hat, (holds_ends h hat (ends_self h hat)).1 hh, (noChildHas_iff_holds h hat).2 hno⟩
  by_cases hp : path = []
  · subst hp
    exact ⟨_, _, Tree.nodeAt_nil tree⟩
  obtain ⟨T, hT, -⟩ := (Tree.holds_of_ne hp).1 hh
  obtain ⟨w, d, ch, hat, hon⟩ := exists_onEdge h.wf hT
  rw [← Tree.nodeAt_of_ne tree (ne_nil_of_nodeAt h.wf hat)] at hat
  have hends : d.Ends w path := ⟨hon.1, .inr hon.2⟩
  obtain ⟨r, rfl⟩ := hon.1
  cases r with
  | nil => exact ⟨d, ch, by rwa [append_nil] at hat⟩
  | cons a r => exact absurd ((holds_ends h hat hends.next).2 ((holds_ends h hat hends).1 hh)) (hno a)

theorem dropTenantAt_of_ne (tree : Tree) (t : TenantId) (hp : path ≠ []) : tree.dropTenantAt t path =
    { tree with children := tree.children.alter Node.label (dropTenant t) path } := if_neg hp

theorem dropTenantAt_nil (tree : Tree) (t : TenantId) :
    tree.dropTenantAt t [] = { tree with root := tree.root.without t } := if_pos rfl

theorem dropTenantAt_counts (tree : Tree) (t : TenantId) (path : List Char) :
    (tree.dropTenantAt t path).tenantCharCount = tree.tenantCharCount := by
  unfold Tree.dropTenantAt
  split <;> rfl

theorem attached_without {a c : Node} (hc : c.has t = false) (h : Attached a c) :
    Attached (a.without t) c := by
  refine ⟨h.1, fun t' ht' => (without_has a t t').2 ⟨?_, h.2 t' ht'⟩⟩
  rintro rfl
  rw [hc] at ht'
  cases ht'

theorem Shape.dropTenantAt (h : Shape tree) (hat : tree.nodeAt path = some (d, ch))
    (hno : noChildHas t ch = true) : Shape (tree.dropTenantAt t path) := by
  by_cases hp : path = []
  · subst hp
    cases hat
    refine ⟨h.wf, ?_⟩
    have hsub : ∀ (f : Forest Node), (∀ x ∈ f.topData, x.has t = false) →
        f.Under Attached tree.root → f.Under Attached (tree.root.without t) := by
      intro f hf hun
      induction f with
      | nil => trivial
      | node e c s _ ihs =>
        exact ⟨attached_without (hf e mem_cons_self) hun.1, hun.2.1,
          ihs (fun x hx => hf x (.tail _ hx)) hun.2.2⟩
    exact hsub _ (noChildHas_iff.1 hno) h.under
  · rw [Tree.nodeAt_of_ne tree hp] at hat
    rw [dropTenantAt_of_ne tree t hp]
    refine ⟨wf_alter dropTenant_label h.wf path, h.under.alter hat ?_ ?_⟩
    · intro d' hd' a ha
      obtain ⟨t', hne, ht'⟩ := exists_other_tenant hd' (h.under.nodeAt hat).2 hno
      rw [dropTenant_some hd']
      exact ⟨⟨t', (without_has d t t').2 ⟨hne, ht'⟩⟩, fun t'' h'' => ha.2 t'' ((without_has d t t'').1 h'').2⟩
    · intro d' hd' c hc hdc
      rw [dropTenant_some hd']
      exact attached_without (noChildHas_iff.1 hno c hc) hdc

/-- **A leaf that loses the tenant** takes from the tenant the texts that end at it. -/
theorem holds_dropTenantAt (h : Shape tree) (hat : tree.nodeAt path = some (d, ch)) (t' : TenantId)
    (p : List Char) :
    (tree.dropTenantAt t path).Holds t' p ↔ ¬ (t' = t ∧ d.Ends path p) ∧ tree.Holds t' p := by
  by_cases hp : path = []
  · subst hp
    cases hat
    have hends : tree.root.Ends [] p ↔ p = [] := by simp [Node.Ends]
    rw [dropTenantAt_nil, hends]
    by_cases hp0 : p = []
    · subst hp0
      rw [Tree.holds_nil, Tree.holds_nil, without_has]
      simp
    · simp [Tree.Holds, hp0]
  have hat' := hat
  rw [Tree.nodeAt_of_ne tree hp] at hat'
  rw [dropTenantAt_of_ne tree t hp]
  have hsuf := (label_suffix h.wf hat').2
  have hends : d.Ends path p ↔ OnEdge d.label path p := by simp [Node.Ends, OnEdge, hp]
  rw [hends]
  by_cases hp0 : p = []
  · subst hp0
    have hnot : ¬ OnEdge d.label path [] := fun hon => hon.ne_nil hsuf rfl
    exact ⟨fun hh => ⟨fun hon => hnot hon.2, hh⟩, fun hh => hh.2⟩
  · rw [Tree.holds_of_ne hp0, Tree.holds_of_ne hp0]
    rw [get_alter Node.tenants _ h.wf hat' (dropTenant_label d ch)
      (fun hd => (dropTenant_none hd).1) p]
    split
    next hon =>
      rw [get_onEdge Node.tenants h.wf hat' hon]
      cases hd : dropTenant t d ch with
      | none =>
        have hall := (dropTenant_none hd).2 t'
        simp only [Option.map_none, Option.some.injEq, exists_eq_left', reduceCtorEq, false_and,
          exists_false, false_iff]
        rintro ⟨hne, hh⟩
        exact hne ⟨hall hh, hon⟩
      | some d' =>
        rw [dropTenant_some hd]
        simp only [Option.map_some, Option.some.injEq, exists_eq_left', Node.tenants, without_has]
        tauto
    next hon =>
      constructor
      · exact fun hh => ⟨fun hne => hon hne.2, hh⟩
      · exact fun hh => hh.2

theorem total_dropTenantAt (m : Node → Nat) (hp : path ≠ []) (hat : tree.nodeAt path = some (d, ch)) :
    (tree.dropTenantAt t path).children.total m + m d =
      tree.children.total m + ((dropTenant t d ch).map m).getD 0 := by
  rw [Tree.nodeAt_of_ne tree hp] at hat
  rw [dropTenantAt_of_ne tree t hp]
  exact total_alter m hat fun hd => (dropTenant_none hd).1

theorem dropTenantAt_root_has (hat : tree.nodeAt path = some (d, ch)) (t' : TenantId)
    (h : path ≠ [] ∨ t' ≠ t) : (tree.dropTenantAt t path).root.has t' = tree.root.has t' := by
  by_cases hp : path = []
  · subst hp
    have hne := h.resolve_left (by simp)
    have := without_has tree.root t t'
    simp only [ne_eq, hne, not_false_eq_true, true_and] at this
    exact Bool.eq_iff_iff.2 this
  · rw [dropTenantAt_of_ne tree t hp]

/-! ## Leaves after a leaf has gone -/

section

variable (h : Shape tree) (hat : tree.nodeAt path = some (d, ch)) (hno : noChildHas t ch = true)
include h hat hno

theorem IsLeaf.dropTenantAt (hv : v ≠ path) (hleaf : IsLeaf tree t v) :
    IsLeaf (tree.dropTenantAt t path) t v := by
  obtain ⟨hh, hlast⟩ := (isLeaf_iff h).1 hleaf
  refine (isLeaf_iff (h.dropTenantAt hat hno)).2 ⟨(holds_dropTenantAt h hat t v).2 ⟨fun hl => ?_, hh⟩,
    fun a ha => hlast a ((holds_dropTenantAt h hat t _).1 ha).2⟩
  obtain ⟨r, rfl⟩ := hl.2.1
  cases r with
  | nil => exact hv (append_nil v).symm
  | cons a r => exact hlast a ((holds_ends h hat hl.2.next).2 ((holds_ends h hat hl.2).1 hh))

theorem IsLeaf.of_dropTenantAt (hleaf : IsLeaf (tree.dropTenantAt t path) t v) :
    v ≠ path ∧ (IsLeaf tree t v ∨ path ≠ [] ∧ v = parentPath path d) := by
  obtain ⟨hh, hlast⟩ := (isLeaf_iff (h.dropTenantAt hat hno)).1 hleaf
  obtain ⟨hends, hh⟩ := (holds_dropTenantAt h hat t v).1 hh
  refine ⟨?_, ?_⟩
  · rintro rfl
    exact hends ⟨rfl, ends_self h hat⟩
  by_cases hl : ∀ a, ¬ tree.Holds t (v ++ [a])
  · exact .inl ((isLeaf_iff h).2 ⟨hh, hl⟩)
  -- a longer text is lost, so the edge starts where `v` ends
  push Not at hl
  obtain ⟨a, ha⟩ := hl
  have hlost : d.Ends path (v ++ [a]) := by
    by_contra hne
    exact hlast a ((holds_dropTenantAt h hat t _).2 ⟨fun hl => hne hl.2, ha⟩)
  obtain ⟨r, hr⟩ := hlost.1
  have hp : path ≠ [] := by
    rintro rfl
    simp at hr
  have hlt := hlost.2.resolve_left hp
  have hge : ¬ path.length < v.length + d.label.length := fun hlt =>
    hends ⟨rfl, ⟨⟨a :: r, by simpa using hr⟩, .inr hlt⟩⟩
  rw [length_append, length_singleton] at hlt
  refine .inr ⟨hp, ?_⟩
  rw [parentPath, show path.length - d.label.length = v.length by omega, ← hr, append_assoc, take_left]

end

theorem not_isLeaf_parent (h : Shape tree) (hp : path ≠ []) (hat : tree.nodeAt path = some (d, ch))
    (hd : d.has t = true) : ¬ IsLeaf tree t (parentPath path d) := by
  intro hleaf
  obtain ⟨hlab, u, hu⟩ := label_suffix h.wf (tree.nodeAt_of_ne hp ▸ hat)
  obtain ⟨a, l, hl⟩ := exists_cons_of_ne_nil hlab
  have hpp : parentPath path d = u := by simp [parentPath, ← hu]
  refine ((isLeaf_iff h).1 hleaf).2 a ((holds_ends h hat ⟨⟨l, ?_⟩, .inr ?_⟩).2 hd)
  · rw [hpp, ← hu, hl, append_assoc]
    rfl
  · rw [hpp, ← hu]
    simp only [length_append, length_singleton]
    omega

theorem mem_newLeaf :
    v ∈ (tree.newLeaf t path d).toList.map Prod.snd ↔
      path ≠ [] ∧ v = parentPath path d ∧ IsLeaf tree t v := by
  unfold Tree.newLeaf
  split
  next hp => simp [hp]
  next hp =>
    split
    next p c hpat =>
      split
      next hleaf =>
        simp only [Bool.and_eq_true] at hleaf
        simp only [Option.toList_some, map_cons, map_nil, mem_singleton, ne_eq, hp,
          not_false_eq_true, true_and]
        constructor
        · rintro rfl
          exact ⟨rfl, p, c, hpat, hleaf.1, hleaf.2⟩
        · exact fun hv => hv.1
      next hleaf =>
        simp only [Option.toList_none, map_nil, not_mem_nil, false_iff]
        rintro ⟨-, rfl, p', c', hpat', h1, h2⟩
        cases hpat.symm.trans hpat'
        exact hleaf (by simp [h1, h2])
    next hpat =>
      simp only [Option.toList_none, map_nil, not_mem_nil, false_iff]
      rintro ⟨-, rfl, p', c', hpat', -⟩
      rw [hpat] at hpat'
      cases hpat'

end Gateway
