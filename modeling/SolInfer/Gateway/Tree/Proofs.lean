import SolInfer.Gateway.Tree.Removal

set_option autoImplicit false

/-! # A match answers with an owner of the longest prefix

The tree tracks its history: what the tenants hold in it is what was inserted and neither removed nor
evicted since. A match walks to the end of the longest prefix that is in the tree, and every node on the
way has a tenant. -/

open List Radix Radix.Forest

namespace Gateway

/-! ## Where a match ends -/

theorem reach_spec {f : Forest Node} (hf : f.WF Node.label) (w : List Char) :
    (f.walk Node.label w = 0 ∧ reach f w = []) ∨
      0 < f.walk Node.label w ∧ f.walk Node.label w ≤ w.length ∧
        ∃ d ch, f.nodeAt Node.label (reach f w) = some (d, ch) ∧
          OnEdge d.label (reach f w) (w.take (f.walk Node.label w)) := by
  induction f generalizing w with
  | nil => exact .inl ⟨rfl, rfl⟩
  | node d ch sib ihc ihs =>
    have hf' := hf
    obtain ⟨hd, -, hch, hsib⟩ := hf
    obtain ⟨u, r, s, hlab, rfl, hlen, hapart⟩ := exists_common d.label w
    rw [Forest.walk, reach_node]
    simp only [hlen, drop_left]
    by_cases hu : u = []
    · rw [if_pos (by simp [hu]), if_pos (by simp [hu])]
      rcases ihs hsib (u ++ s) with h | ⟨h0, hle, e, c, hat, hon⟩
      · exact .inl h
      · exact .inr ⟨h0, hle, e, c, nodeAt_lift hf' hat, hon⟩
    have hu0 : u.length ≠ 0 := by simpa using hu
    rw [if_neg hu0, if_neg hu0]
    refine .inr ?_
    by_cases hr : r = []
    · -- the whole edge is matched
      have hlu : d.label = u := by simp [hlab, hr]
      rw [if_pos (by rw [hlu]), if_pos (by rw [hlu]), hlu]
      rcases ihc hch s with ⟨h0, hreach⟩ | ⟨h0, hle, e, c, hat, hon⟩
      · rw [h0, hreach]
        refine ⟨by omega, by simp, d, ch, ?_, ?_⟩
        · rw [append_nil, ← hlu]
          exact nodeAt_self _ _ _
        · simp only [Nat.add_zero, append_nil, take_left, hlu]
          exact onEdge_self.2 ⟨hu, prefix_refl _⟩
      · have hsuf := (label_suffix hch hat).2
        refine ⟨by omega, by rw [length_append]; omega, e, c, ?_, ?_⟩
        · rw [← hlu, nodeAt_below _ _ _ (ne_nil_of_nodeAt hch hat)]
          exact hat
        · rw [take_length_add_append]
          exact (onEdge_append hsuf).2 ⟨_, rfl, hon⟩
    · -- the text ends or leaves inside the edge
      have hne : u.length ≠ d.label.length := by
        have : r.length ≠ 0 := by simpa using hr
        rw [hlab, length_append]
        omega
      rw [if_neg hne, if_neg hne]
      refine ⟨by omega, by simp, d, ch, nodeAt_self _ _ _, ?_⟩
      rw [take_left]
      exact onEdge_self.2 ⟨hu, hlab ▸ prefix_append u r⟩

variable {tree : Tree} {d : Node}

theorem exists_reached (h : Shape tree) (text : List Char) :
    ∃ d ch, tree.nodeAt (reach tree.children text) = some (d, ch) := by
  rcases reach_spec h.wf text with ⟨-, hreach⟩ | ⟨-, -, d, ch, hat, -⟩
  · rw [hreach]
    exact ⟨_, _, Tree.nodeAt_nil tree⟩
  · exact ⟨d, ch, by rwa [Tree.nodeAt_of_ne _ (ne_nil_of_nodeAt h.wf hat)]⟩

theorem owner_spec (firstTenant : Dict TenantId Nat → Nat) (d : Node) :
    d.has (d.owner firstTenant) = true ∨
      d.owner firstTenant = "empty" ∧ d.tenantLastAccessTime.keys = [] := by
  have hany : d.has ((d.anyTenant firstTenant).getD "empty") = true ∨
      (d.anyTenant firstTenant).getD "empty" = "empty" ∧ d.tenantLastAccessTime.keys = [] := by
    unfold Node.anyTenant
    by_cases hk : d.tenantLastAccessTime.keys = []
    · exact .inr ⟨by simp [hk], hk⟩
    · have hlt := Nat.mod_lt (firstTenant d.tenantLastAccessTime)
        (length_pos_of_ne_nil hk)
      rw [getElem?_eq_getElem hlt]
      exact .inl (has_iff_mem_keys.2 (getElem_mem hlt))
  unfold Node.owner
  split
  · split
    next hs => exact .inl hs
    · exact hany
  · exact hany

theorem has_set_of_has {t : TenantId} (hd : d.has t = true) (n : Nat) (t' : TenantId) :
    ({ d with tenantLastAccessTime := d.tenantLastAccessTime.set t n } : Node).has t' = d.has t' := by
  refine Bool.eq_iff_iff.2 (Iff.trans (has_set d t t' n) ⟨?_, .inr⟩)
  rintro (rfl | ht)
  · exact hd
  · exact ht

theorem touched_has {firstTenant : Dict TenantId Nat → Nat} {epoch : Nat}
    (h : d.tenantLastAccessTime.keys ≠ [] ∨ epoch % 8 ≠ 0) (t : TenantId) :
    (d.touched firstTenant epoch).has t = d.has t := by
  unfold Node.touched
  dsimp only
  by_cases he : epoch % 8 = 0
  · rw [if_pos he]
    have howner := (owner_spec firstTenant d).resolve_right fun hk =>
      (h.resolve_right (fun hne => hne he)) hk.2
    exact has_set_of_has howner epoch t
  · rw [if_neg he]
    rfl

theorem Shape.keys_ne_nil {path : List Char} {ch : Forest Node} (h : Shape tree) (hp : path ≠ [])
    (hat : tree.nodeAt path = some (d, ch)) : d.tenantLastAccessTime.keys ≠ [] := by
  rw [Tree.nodeAt_of_ne _ hp] at hat
  obtain ⟨⟨a, ⟨t, ht⟩, -⟩, -⟩ := h.under.nodeAt hat
  exact ne_nil_of_mem (has_iff_mem_keys.1 ht)

/-! ## The tree and its history -/

/-- The tree holds what its history says. -/
structure Tracks (s : Tree × List Record) : Prop extends Accounts s.1 where
  known : ∀ t, (s.1.tenantCharCount.get? t).isSome = true ↔ s.1.root.has t = true
  holds : ∀ t p, s.1.Holds t p ↔ Held s.2 t p

theorem tracks_new (epoch : Nat) : Tracks (Tree.new epoch, []) where
  toAccounts := accounts_new epoch
  known := fun _ => Iff.rfl
  holds := by
    intro t p
    refine ⟨fun h => ?_, fun h => h.elim⟩
    unfold Tree.Holds at h
    split at h
    · cases h
    · obtain ⟨_, h, -⟩ := h
      cases h

variable {s : Tree × List Record} {t : TenantId} {ch : Forest Node} {path : List Char}

theorem Tracks.insert (h : Tracks s) (text : List Char) (t : TenantId) :
    Tracks (s.1.insert text t, .inserted t text :: s.2) where
  toAccounts := h.toAccounts.insert text t
  known := fun t' => by rw [insert_knows, insert_root_has, h.known]
  holds := by
    intro t' p
    rw [holds_insert h.shape, h.holds]
    rfl

theorem Tracks.modify (h : Tracks s) (hat : s.1.nodeAt path = some (d, ch)) {f : Node → Node}
    (htext : ∀ e, (f e).text = e.text) (hhas : ∀ t, (f d).has t = d.has t) (epoch : Nat) :
    Tracks ({ s.1.modify path f with epoch := epoch }, s.2) := by
  obtain ⟨-, hholds, -⟩ := h.shape.modify hat htext hhas
  refine ⟨h.toAccounts.modify hat htext (fun t ht => (hhas t).trans ht) (fun _ => hhas) epoch, fun t => ?_,
    fun t p => (hholds t p).trans (h.holds t p)⟩
  have hroot := hholds t []
  rw [Tree.holds_nil, Tree.holds_nil] at hroot
  rw [modify_tenantCharCount, h.known, hroot]

theorem Accounts.prefixMatchWithCounts (h : Accounts tree) (firstTenant : Dict TenantId Nat → Nat)
    (text : List Char) : Accounts (tree.prefixMatchWithCounts firstTenant text).2 := by
  obtain ⟨d, ch, hat⟩ := exists_reached h.shape text
  refine h.modify (f := fun d => d.touched firstTenant tree.epoch) hat (fun _ => rfl) (fun t ht => ?_)
    (fun hp => touched_has (.inl (h.shape.keys_ne_nil hp hat))) _
  unfold Node.touched
  split
  · exact (has_set d _ t _).2 (.inr ht)
  · exact ht

theorem Tracks.prefixMatchWithCounts (h : Tracks s)
    (firstTenant : Dict TenantId Nat → Nat) (text : List Char)
    (hA : TreeAllowed s (.prefixMatchWithCounts text)) :
    Tracks ((s.1.prefixMatchWithCounts firstTenant text).2, s.2) := by
  obtain ⟨d, ch, hat⟩ := exists_reached h.shape text
  refine h.modify (f := fun d => d.touched firstTenant s.1.epoch) hat (fun _ => rfl) (touched_has ?_) _
  by_cases hp : reach s.1.children text = []
  · rw [hp, Tree.nodeAt_nil] at hat
    cases hat
    exact hA
  · exact .inl (h.shape.keys_ne_nil hp hat)

theorem walkTenant_reached {f : Forest Node} (hf : f.WF Node.label) (t : TenantId)
    (w : List Char) : (walkTenant t f w).2 = [] ∨
      ∃ d ch, f.nodeAt Node.label (walkTenant t f w).2 = some (d, ch) := by
  induction f generalizing w with
  | nil => exact .inl rfl
  | node d ch sib ihc ihs =>
    rw [walkTenant_node]
    split
    · rcases ihs hf.2.2.2 w with h | ⟨e, c, hat⟩
      · exact .inl h
      · exact .inr ⟨e, c, nodeAt_lift hf hat⟩
    · split
      · split
        · refine .inr ?_
          rcases ihc hf.2.2.1 (w.drop (common d.label w)) with h | ⟨e, c, hat⟩
          · dsimp only
            rw [h, append_nil]
            exact ⟨d, ch, nodeAt_self _ _ _⟩
          · exact ⟨e, c, by
              rwa [nodeAt_below _ _ _ (ne_nil_of_nodeAt hf.2.2.1 hat)]⟩
        · exact .inr ⟨d, ch, nodeAt_self _ _ _⟩
      · exact .inl rfl

theorem prefixMatchTenant_tree (h : Shape tree) (text : List Char) (t : TenantId) :
    (tree.prefixMatchTenant text t).2 = tree ∨
      ∃ path d ch, tree.nodeAt path = some (d, ch) ∧ d.has t = true ∧
        (tree.prefixMatchTenant text t).2 = { tree.modify path (fun d =>
          { d with tenantLastAccessTime := d.tenantLastAccessTime.set t tree.epoch }) with
            epoch := tree.epoch + 1 } := by
  unfold Tree.prefixMatchTenant
  dsimp only
  have hat : ∃ d ch, tree.nodeAt (walkTenant t tree.children text).2 = some (d, ch) := by
    rcases walkTenant_reached h.wf t text with hp | ⟨d, ch, hat⟩
    · rw [hp]
      exact ⟨_, _, Tree.nodeAt_nil _⟩
    · exact ⟨d, ch, by rwa [Tree.nodeAt_of_ne _ (ne_nil_of_nodeAt h.wf hat)]⟩
  obtain ⟨d, ch, hat⟩ := hat
  split
  next hfound =>
    rw [hat] at hfound
    exact .inr ⟨_, d, ch, hat, hfound, rfl⟩
  · exact .inl rfl

theorem Accounts.prefixMatchTenant (h : Accounts tree) (text : List Char) (t : TenantId) :
    Accounts (tree.prefixMatchTenant text t).2 := by
  rcases prefixMatchTenant_tree h.shape text t with heq | ⟨path, d, ch, hat, hd, heq⟩
  · rw [heq]
    exact h
  · rw [heq]
    exact h.modify (f := fun d => { d with
      tenantLastAccessTime := d.tenantLastAccessTime.set t tree.epoch }) hat (fun _ => rfl)
      (fun t' ht => (has_set_of_has hd tree.epoch t').trans ht) (fun _ => has_set_of_has hd tree.epoch) _

theorem Tracks.prefixMatchTenant (h : Tracks s) (text : List Char)
    (t : TenantId) : Tracks ((s.1.prefixMatchTenant text t).2, s.2) := by
  rcases prefixMatchTenant_tree h.shape text t with heq | ⟨path, d, ch, hat, hd, heq⟩
  · rw [heq]
    exact h
  · rw [heq]
    exact h.modify (f := fun d => { d with
      tenantLastAccessTime := d.tenantLastAccessTime.set t s.1.epoch }) hat (fun _ => rfl)
      (has_set_of_has hd s.1.epoch) _

/-! ## Removal -/

theorem dropTenant_measure (m : Node → Nat) (hm : ∀ d : Node, d.has t = false → m d = 0)
    : ((dropTenant t d ch).map m).getD 0 = 0 := by
  cases h : dropTenant t d ch with
  | none => rfl
  | some d' => exact hm d' (dropTenant_not_has h)

theorem holders_dropTenantAt (hat : tree.nodeAt path = some (d, ch)) (hd : d.has t = true) :
    (tree.dropTenantAt t path).holders t + 1 = tree.holders t := by
  unfold Tree.holders
  by_cases hp : path = []
  · subst hp
    cases hat
    have hnot : (tree.root.without t).has t = false := by simpa using without_has tree.root t t
    rw [dropTenantAt_nil]
    simp only [hnot, hd, if_true, Bool.false_eq_true, if_false]
    omega
  · have htotal := total_dropTenantAt (t := t) (fun d => if d.has t then 1 else 0) hp hat
    rw [dropTenant_measure _ (fun d' hd' => by simp [hd']), hd] at htotal
    rw [dropTenantAt_root_has hat t (.inl hp)]
    simp only [if_true] at htotal
    omega

structure Spares (t : TenantId) (tree tree' : Tree) : Prop where
  holds : ∀ t' p, t' ≠ t → (tree'.Holds t' p ↔ tree.Holds t' p)
  root : ∀ t', t' ≠ t → tree'.root.has t' = tree.root.has t'
  total : ∀ t', t' ≠ t → tree'.children.total (size t') = tree.children.total (size t')
  counts : tree'.tenantCharCount = tree.tenantCharCount
  text : tree'.root.text = tree.root.text

theorem dropTenantAt_text (tree : Tree) (t : TenantId) (path : List Char) :
    (tree.dropTenantAt t path).root.text = tree.root.text := by
  unfold Tree.dropTenantAt
  split <;> rfl

theorem spares_dropTenantAt (h : Shape tree) (hat : tree.nodeAt path = some (d, ch)) :
    Spares t tree (tree.dropTenantAt t path) where
  holds := by
    intro t' p hne
    rw [holds_dropTenantAt h hat]
    simp [hne]
  root := fun t' hne => dropTenantAt_root_has hat t' (.inr hne)
  total := by
    intro t' hne
    by_cases hp : path = []
    · subst hp
      rw [dropTenantAt_nil]
    · have htotal := total_dropTenantAt (t := t) (size t') hp hat
      have hsize : ((dropTenant t d ch).map (size t')).getD 0 = size t' d := by
        cases hd : dropTenant t d ch with
        | none =>
          refine (size_of_absent ?_).symm
          by_contra hh
          exact hne ((dropTenant_none hd).2 t' (by simpa using hh))
        | some d' =>
          have hhas := without_has d t t'
          simp only [ne_eq, hne, not_false_eq_true, true_and] at hhas
          rw [dropTenant_some hd, Option.map_some, Option.getD_some, size, size, Bool.eq_iff_iff.2 hhas]
          rfl
      omega
  counts := dropTenantAt_counts tree t path
  text := dropTenantAt_text tree t path

theorem Spares.refl (t : TenantId) (tree : Tree) : Spares t tree tree :=
  ⟨fun _ _ _ => Iff.rfl, fun _ _ => rfl, fun _ _ => rfl, rfl, rfl⟩

theorem Spares.trans {a b c : Tree} (h : Spares t a b) (h' : Spares t b c) : Spares t a c where
  holds := fun t' p hne => (h'.holds t' p hne).trans (h.holds t' p hne)
  root := fun t' hne => (h'.root t' hne).trans (h.root t' hne)
  total := fun t' hne => (h'.total t' hne).trans (h.total t' hne)
  counts := h'.counts.trans h.counts
  text := h'.text.trans h.text

theorem newLeaf_length (tree : Tree) (t : TenantId) (path : List Char) (d : Node) :
    (tree.newLeaf t path d).toList.length ≤ 1 := by
  cases tree.newLeaf t path d <;> simp

/-- **The queue has all leaves**, so when it runs empty no leaf is left. -/
theorem removeLoop_spec (t : TenantId) (fuel : Nat) {queue : List (List Char)}
    (h : Shape tree) (hqueue : ∀ v, v ∈ queue ↔ IsLeaf tree t v) (hnodup : queue.Nodup)
    (hfuel : 2 * tree.holders t + queue.length ≤ fuel) :
    Shape (removeLoop t fuel tree queue) ∧ (∀ v, ¬ IsLeaf (removeLoop t fuel tree queue) t v) ∧
      Spares t tree (removeLoop t fuel tree queue) := by
  induction fuel generalizing tree queue with
  | zero =>
    obtain rfl : queue = [] := eq_nil_of_length_eq_zero (by omega)
    exact ⟨h, fun v hv => by simpa using (hqueue v).2 hv, .refl t tree⟩
  | succ fuel ih =>
    cases queue with
    | nil =>
      exact ⟨h, fun v hv => by simpa using (hqueue v).2 hv, .refl t tree⟩
    | cons path queue =>
      obtain ⟨d, ch, hat, hd, hno⟩ := (hqueue path).1 mem_cons_self
      obtain ⟨hpath, hnodup⟩ := nodup_cons.1 hnodup
      rw [removeLoop, hat]
      have hholders := holders_dropTenantAt hat hd
      have hqueue' : ∀ v, v ∈ queue ++ ((tree.dropTenantAt t path).newLeaf t path d).toList.map Prod.snd ↔
          IsLeaf (tree.dropTenantAt t path) t v := by
        intro v
        rw [mem_append, mem_newLeaf]
        constructor
        · rintro (hv | ⟨-, -, hv⟩)
          · refine ((hqueue v).1 (.tail _ hv)).dropTenantAt h hat hno ?_
            rintro rfl
            exact hpath hv
          · exact hv
        · intro hv
          obtain ⟨hne, hold | ⟨hp, rfl⟩⟩ := hv.of_dropTenantAt h hat hno
          · exact .inl ((mem_cons.1 ((hqueue v).2 hold)).resolve_left hne)
          · exact .inr ⟨hp, rfl, hv⟩
      have hone := newLeaf_length (tree.dropTenantAt t path) t path d
      have hnodup' : (queue ++ ((tree.dropTenantAt t path).newLeaf t path d).toList.map Prod.snd).Nodup := by
        refine nodup_append.2 ⟨hnodup, ?_, ?_⟩
        · cases (tree.dropTenantAt t path).newLeaf t path d <;> simp
        · -- the parent was no leaf, so it was not in the queue
          rintro v hv w hw rfl
          obtain ⟨hp, rfl, -⟩ := mem_newLeaf.1 hw
          exact not_isLeaf_parent h hp hat hd ((hqueue _).1 (.tail _ hv))
      have hfuel' : 2 * (tree.dropTenantAt t path).holders t + (queue ++
          ((tree.dropTenantAt t path).newLeaf t path d).toList.map Prod.snd).length ≤ fuel := by
        simp only [length_append, length_map, length_cons] at hfuel ⊢
        omega
      obtain ⟨hs, hl, hsp⟩ := ih (h.dropTenantAt hat hno) hqueue' hnodup' hfuel'
      exact ⟨hs, hl, (spares_dropTenantAt h hat).trans hsp⟩

theorem absent_of_no_leaf (h : Shape tree) (hno : ∀ v, ¬ IsLeaf tree t v) :
    tree.root.has t = false ∧ tree.children.All fun d => d.has t = false := by
  have hroot : tree.root.has t = false := by
    by_contra hroot
    have hroot' : tree.root.has t = true := by simpa using hroot
    by_cases hch : noChildHas t tree.children = true
    · exact hno [] ⟨_, _, Tree.nodeAt_nil tree, hroot', hch⟩
    · -- a child has the tenant, and the lowest node below it that does is a leaf
      rw [noChildHas_iff] at hch
      push Not at hch
      obtain ⟨x, hx, hxt⟩ := hch
      obtain ⟨c, hc⟩ := nodeAt_of_mem_topData h.wf hx
      obtain ⟨v, e, c', hv, he, hlow⟩ := exists_lowest (P := fun d => d.has t = true) h.wf hc
        (by simpa using hxt)
      exact hno v ⟨e, c', by rwa [Tree.nodeAt_of_ne _ (ne_nil_of_nodeAt h.wf hv)], he,
        noChildHas_iff.2 fun y hy => by simpa using hlow y hy⟩
  exact ⟨hroot, h.all_absent (h.noChildHas_of_root hroot)⟩

theorem not_holds_of_absent (hroot : tree.root.has t = false)
    (hall : tree.children.All fun d => d.has t = false) (p : List Char) : ¬ tree.Holds t p := by
  intro hh
  unfold Tree.Holds at hh
  split at hh
  · rw [hroot] at hh
    cases hh
  · obtain ⟨T, hT, ht⟩ := hh
    obtain ⟨d, n, hd, rfl⟩ := hall.get hT
    rw [Node.tenants, hd] at ht
    cases ht

theorem Tracks.root_of_held (h : Tracks s) {p : List Char}
    (hh : Held s.2 t p) : s.1.root.has t = true := by
  by_contra hroot
  have hroot' : s.1.root.has t = false := by simpa using hroot
  exact not_holds_of_absent hroot' (h.shape.all_absent (h.shape.noChildHas_of_root hroot')) p
    ((h.holds t p).2 hh)

theorem mem_tree_nodes (h : Shape tree) {v : List Char}
    : (v, d, ch) ∈ tree.nodes ↔ tree.nodeAt v = some (d, ch) := by
  rw [Tree.nodes, mem_cons, mem_nodes h.wf]
  by_cases hv : v = []
  · subst hv
    constructor
    · rintro (heq | ⟨w, hw, hat⟩)
      · cases heq
        rfl
      · exact absurd hw.symm (ne_nil_of_nodeAt h.wf hat)
    · rintro ⟨⟩
      exact .inl rfl
  · rw [Tree.nodeAt_of_ne _ hv]
    simp [hv]

theorem mem_leaves (h : Shape tree) {v : List Char} :
    v ∈ (tree.nodes.filter fun x => x.2.1.has t && noChildHas t x.2.2).map Prod.fst ↔ IsLeaf tree t v := by
  simp only [mem_map, mem_filter, Bool.and_eq_true]
  constructor
  · rintro ⟨⟨v, d, ch⟩, ⟨hmem, hd, hno⟩, rfl⟩
    exact ⟨d, ch, (mem_tree_nodes h).1 hmem, hd, hno⟩
  · rintro ⟨d, ch, hat, hd, hno⟩
    exact ⟨(v, d, ch), ⟨(mem_tree_nodes h).2 hat, hd, hno⟩, rfl⟩

theorem nodup_tree_nodes (h : Shape tree) : (tree.nodes.map Prod.fst).Nodup := by
  refine nodup_cons.2 ⟨?_, nodup_nodes h.wf []⟩
  intro hmem
  obtain ⟨⟨v, d, ch⟩, hv, rfl⟩ := mem_map.1 hmem
  obtain ⟨w, hw, hat⟩ := (mem_nodes h.wf).1 hv
  exact ne_nil_of_nodeAt h.wf hat hw.symm

/-- **Removal leaves no node with the tenant**, and the others as they were. -/
theorem removeTenant_spec (h : Shape tree) (t : TenantId) :
    ∃ tree', tree.removeTenant t = { tree' with tenantCharCount := tree.tenantCharCount.erase t } ∧
      Shape tree' ∧ Spares t tree tree' ∧ tree'.root.has t = false ∧
      tree'.children.All fun d => d.has t = false := by
  obtain ⟨hshape, hno, hsp⟩ := removeLoop_spec t _ h (fun v => mem_leaves h)
    ((nodup_tree_nodes h).sublist (filter_sublist.map Prod.fst)) le_rfl
  refine ⟨_, ?_, hshape, hsp, absent_of_no_leaf hshape hno⟩
  unfold Tree.removeTenant
  dsimp only
  rw [hsp.counts]

theorem Accounts.removeTenant (h : Accounts tree) (t : TenantId) : Accounts (tree.removeTenant t) := by
  obtain ⟨tree', heq, hshape, hsp, -, hall⟩ := removeTenant_spec h.shape t
  rw [heq]
  refine ⟨⟨hshape.wf, hshape.under⟩, fun t' => ?_, hsp.text.trans h.text⟩
  by_cases ht : t = t'
  · subst ht
    rw [Dict.get?_erase_self, hall.total fun _ => size_of_absent]
    rfl
  · rw [Dict.get?_erase_of_ne _ ht, h.counts, hsp.total t' (Ne.symm ht)]

theorem Tracks.removeTenant (h : Tracks s) (t : TenantId) :
    Tracks (s.1.removeTenant t, .removed t :: s.2) := by
  have hacc := h.toAccounts.removeTenant t
  obtain ⟨tree', heq, -, hsp, hroot, hall⟩ := removeTenant_spec h.shape t
  rw [heq] at hacc ⊢
  refine ⟨hacc, fun t' => ?_, fun t' p => ?_⟩
  · dsimp only
    by_cases ht : t' = t
    · subst ht
      simp [Dict.get?_erase_self, hroot]
    · rw [Dict.get?_erase_of_ne _ (Ne.symm ht), h.known, hsp.root t' ht]
  · show tree'.Holds t' p ↔ t' ≠ t ∧ Held s.2 t' p
    by_cases ht : t' = t
    · subst ht
      exact ⟨fun hh => absurd hh (not_holds_of_absent hroot hall p), fun hh => absurd rfl hh.1⟩
    · rw [hsp.holds t' p ht, h.holds]
      exact ⟨fun hh => ⟨ht, hh⟩, fun hh => hh.2⟩

/-! ## Eviction -/

structure Evicts (maxSize : Nat) (tree tree' : Tree) (new : List (Nat × TenantId × List Char))
    (x : Dropped) : Prop where
  exceeds : ∀ n, tree.tenantCharCount.get? x.tenant = some n → maxSize < n
  leaf : IsLeaf tree x.tenant x.path
  shape : Shape tree'
  counts : ∀ t, (tree'.tenantCharCount.get? t).getD 0 = tree'.children.total (size t)
  subtracts : ∀ n, tree.tenantCharCount.get? x.tenant = some n →
    x.length ≤ n ∧ tree'.tenantCharCount.get? x.tenant = some (n - x.length)
  others : ∀ t, t ≠ x.tenant → tree'.tenantCharCount.get? t = tree.tenantCharCount.get? t
  known : ∀ t, (tree'.tenantCharCount.get? t).isSome = (tree.tenantCharCount.get? t).isSome
  holds : ∀ t p, tree'.Holds t p ↔ ¬ (t = x.tenant ∧ p <+: x.path ∧
    (x.path = [] ∨ x.path.length < p.length + x.length)) ∧ tree.Holds t p
  root : ∀ t, x.path ≠ [] → tree'.root.has t = tree.root.has t
  text : tree'.root.text = tree.root.text
  covers : ∀ v, IsLeaf tree' x.tenant v →
    v ≠ x.path ∧ (IsLeaf tree x.tenant v ∨ ∃ n, (n, x.tenant, v) ∈ new)
  attachments : tree'.attachments + 1 = tree.attachments
  one : new.length ≤ 1

theorem length_keys_without (h : d.has t = true) :
    (d.without t).tenantLastAccessTime.keys.length + 1 = d.tenantLastAccessTime.keys.length :=
  Dict.length_keys_erase (has_iff_mem_keys.1 h)

theorem dropTenant_keys (t : TenantId) (d : Node) (ch : Forest Node) :
    ((dropTenant t d ch).map fun d => d.tenantLastAccessTime.keys.length).getD 0 =
      (d.without t).tenantLastAccessTime.keys.length := by
  unfold dropTenant
  split
  · split
    next hk => simp [hk]
    · rfl
  · rfl

theorem evictEntry_some {maxSize : Nat} {tree' : Tree} {new : List (Nat × TenantId × List Char)}
    {x : Dropped} (he : evictEntry maxSize tree t path = some (tree', new, x)) :
    (∀ n, tree.tenantCharCount.get? t = some n → maxSize < n) ∧
      ∃ d ch, tree.nodeAt path = some (d, ch) ∧ d.has t = true ∧ noChildHas t ch = true ∧
        tree' = { tree.dropTenantAt t path with
          tenantCharCount := tree.tenantCharCount.modify t (· - d.text.charCount) } ∧
        new = (tree'.newLeaf t path d).toList.map (fun x => (x.1, t, x.2)) ∧
        x = ⟨t, path, d.label.length⟩ := by
  unfold evictEntry at he
  split at he
  · cases he
  next hover =>
    refine ⟨fun n hn => ?_, ?_⟩
    · rw [hn] at hover
      simpa using hover
    split at he
    · cases he
    next d ch hat =>
      split at he
      next hleaf =>
        rw [Bool.and_eq_true] at hleaf
        cases he
        exact ⟨d, ch, hat, hleaf.1, hleaf.2, rfl, rfl, rfl⟩
      · cases he

/-- A tenant that is counted and over its size is below the root, so the root keeps it. -/
theorem unknown_of_root {maxSize : Nat} (h : Shape tree)
    (hc : (tree.tenantCharCount.get? t).getD 0 = tree.children.total (size t))
    (hover : ∀ n, tree.tenantCharCount.get? t = some n → maxSize < n)
    (hno : noChildHas t tree.children = true) : tree.tenantCharCount.get? t = none := by
  rw [(h.all_absent hno).total fun _ => size_of_absent] at hc
  cases hn : tree.tenantCharCount.get? t with
  | none => rfl
  | some n =>
    rw [hn, Option.getD_some] at hc
    exact absurd (hover n hn) (by omega)

theorem attachments_dropTenantAt (hat : tree.nodeAt path = some (d, ch)) (hd : d.has t = true) :
    (tree.dropTenantAt t path).attachments + 1 = tree.attachments := by
  have hkeys := length_keys_without hd
  unfold Tree.attachments
  by_cases hp : path = []
  · subst hp
    cases hat
    rw [dropTenantAt_nil]
    dsimp only
    omega
  · have htotal := total_dropTenantAt (t := t) (fun d => d.tenantLastAccessTime.keys.length) hp hat
    rw [← hkeys, dropTenant_keys] at htotal
    rw [dropTenantAt_of_ne tree t hp] at htotal ⊢
    dsimp only at htotal ⊢
    omega

theorem size_dropTenantAt (hp : path ≠ []) (hat : tree.nodeAt path = some (d, ch))
    (hd : d.has t = true) :
    (tree.dropTenantAt t path).children.total (size t) + d.text.charCount =
      tree.children.total (size t) := by
  have htotal := total_dropTenantAt (t := t) (size t) hp hat
  rw [dropTenant_measure (size t) (fun d' hd' => size_of_absent hd'), size, if_pos hd] at htotal
  exact htotal

theorem evictEntry_spec {maxSize : Nat} {tree' : Tree}
    {new : List (Nat × TenantId × List Char)} {x : Dropped} (h : Shape tree)
    (hc : ∀ t, (tree.tenantCharCount.get? t).getD 0 = tree.children.total (size t))
    (he : evictEntry maxSize tree t path = some (tree', new, x)) : Evicts maxSize tree tree' new x := by
  obtain ⟨hover, d, ch, hat, hd, hno, rfl, rfl, rfl⟩ := evictEntry_some he
  have hdrop := h.dropTenantAt hat hno
  have hsp := spares_dropTenantAt (t := t) h hat
  have hlen : d.label.length = d.text.charCount := d.text.count_eq.symm
  -- at the root nothing is counted
  have hcase : (tree.tenantCharCount.get? t = none ∧
        (tree.dropTenantAt t path).children.total (size t) = tree.children.total (size t)) ∨
      path ≠ [] ∧ (tree.dropTenantAt t path).children.total (size t) + d.text.charCount =
        tree.children.total (size t) := by
    by_cases hp : path = []
    · subst hp
      cases hat
      exact .inl ⟨unknown_of_root h (hc t) hover hno, rfl⟩
    · exact .inr ⟨hp, size_dropTenantAt hp hat hd⟩
  refine ⟨hover, ⟨d, ch, hat, hd, hno⟩, ⟨hdrop.wf, hdrop.under⟩, fun t' => ?_, fun n hn => ?_,
    fun t' ht => ?_, fun t' => ?_, holds_dropTenantAt h hat, fun t' hp => dropTenantAt_root_has hat t' (.inl hp),
    hsp.text, fun v hv => ?_, attachments_dropTenantAt hat hd, ?_⟩
  · have hcount := hc t'
    rw [Dict.get?_modify]
    by_cases ht : t = t'
    · subst ht
      rw [if_pos rfl]
      rcases hcase with ⟨hnone, htotal⟩ | ⟨-, htotal⟩
      · rw [hnone] at hcount ⊢
        exact hcount.trans htotal.symm
      · cases hn : tree.tenantCharCount.get? t <;> rw [hn] at hcount <;> simp at hcount ⊢ <;> omega
    · rw [if_neg ht, hsp.total t' (Ne.symm ht), hcount]
  · have hcount := hc t
    dsimp only at hn ⊢
    rw [hn, Option.getD_some] at hcount
    rw [Dict.get?_modify, if_pos rfl, hn, hlen]
    rcases hcase with ⟨hnone, -⟩ | ⟨-, htotal⟩
    · rw [hnone] at hn
      cases hn
    · exact ⟨by omega, rfl⟩
  · exact (Dict.get?_modify ..).trans (if_neg (Ne.symm ht))
  · dsimp only
    rw [Dict.get?_modify]
    split <;> simp
  · obtain ⟨hne, hold⟩ := IsLeaf.of_dropTenantAt h hat hno hv
    refine ⟨hne, hold.imp id fun hleaf => ?_⟩
    obtain ⟨hp, hparent⟩ := hleaf
    obtain ⟨⟨n, w⟩, hmem, rfl⟩ := mem_map.1 (mem_newLeaf.2 ⟨hp, hparent, hv⟩)
    exact ⟨n, mem_map.2 ⟨(n, w), hmem, rfl⟩⟩
  · rw [length_map]
    exact newLeaf_length _ t path d

theorem popEntry_perm {nextEntry : List (Nat × TenantId × List Char) → Nat}
    {heap rest : List (Nat × TenantId × List Char)} {e : Nat × TenantId × List Char}
    (h : popEntry nextEntry heap = some (e, rest)) : (e :: rest).Perm heap := by
  obtain ⟨x, hx, heq⟩ := Option.map_eq_some_iff.1 h
  cases heq
  obtain ⟨hlt, rfl⟩ := List.getElem?_eq_some_iff.1 hx
  exact List.getElem_cons_eraseIdx_perm hlt

def records (out : List Dropped) : List Record := out.map fun x => .dropped x.tenant x.path x.length

theorem Accounts.evict {maxSize : Nat} {tree' : Tree} {new : List (Nat × TenantId × List Char)} {x : Dropped}
    (h : Accounts tree) (hev : Evicts maxSize tree tree' new x) : Accounts tree' :=
  ⟨hev.shape, hev.counts, hev.text.trans h.text⟩

/-- In a tree that tracks its history every tenant of the root is counted, so no tenant leaves the root. -/
theorem Tracks.evict {maxSize : Nat} {tree' : Tree} {new : List (Nat × TenantId × List Char)} {x : Dropped}
    (h : Tracks s) (hev : Evicts maxSize s.1 tree' new x) :
    Tracks (tree', .dropped x.tenant x.path x.length :: s.2) := by
  have hp : x.path ≠ [] := by
    intro hp
    obtain ⟨d, ch, hat, hd, hno⟩ := hev.leaf
    rw [hp, Tree.nodeAt_nil] at hat
    cases hat
    have hknown := (h.known x.tenant).2 hd
    rw [unknown_of_root h.shape (h.counts x.tenant) hev.exceeds hno] at hknown
    cases hknown
  refine ⟨h.toAccounts.evict hev, fun t => ?_, fun t p => ?_⟩
  · rw [hev.known, hev.root t hp]
    exact h.known t
  · rw [hev.holds, h.holds, or_iff_right hp]
    rfl

/-- The loop keeps track, whatever the order in which the heap gives its entries out. -/
theorem Tracks.evictLoop (nextEntry : List (Nat × TenantId × List Char) → Nat) (maxSize fuel : Nat)
    {hist : List Record} {out : List Dropped} (h : Tracks (tree, records out ++ hist))
    (heap : List (Nat × TenantId × List Char)) :
    Tracks ((evictLoop nextEntry maxSize fuel tree heap out).1,
      records (evictLoop nextEntry maxSize fuel tree heap out).2 ++ hist) := by
  induction fuel generalizing tree out heap with
  | zero => exact h
  | succ fuel ih =>
    rw [Gateway.evictLoop]
    split
    · exact h
    · split
      · exact ih h _
      next tree' new x he =>
        exact ih (h.evict (evictEntry_spec h.shape h.counts he)) _

/-! ## Runs -/

section Run

variable (firstTenant : Dict TenantId Nat → Nat) (nextEntry : List (Nat × TenantId × List Char) → Nat)

theorem treeStep_tracks {s' : Tree × List Record} {e : TreeEvent} (h : Tracks s) (hA : TreeAllowed s e)
    (hstep : treeStep firstTenant nextEntry s e = some s') : Tracks s' := by
  cases e <;> cases hstep
  case insert text t => exact h.insert text t
  case prefixMatchWithCounts text => exact h.prefixMatchWithCounts firstTenant text hA
  case prefixMatchTenant text t => exact h.prefixMatchTenant text t
  case evictTenantBySize maxSize =>
    exact Tracks.evictLoop nextEntry maxSize _ (show Tracks (s.1, records [] ++ s.2) from h) _
  case removeTenant t => exact h.removeTenant t
  case elsewhere epochs => exact ⟨⟨⟨h.shape.wf, h.shape.under⟩, h.counts, h.text⟩, h.known, h.holds⟩

theorem Tracks.le_walk (h : Tracks s) {text : List Char} {n : Nat}
    (hn : n ≤ text.length) (hh : Held s.2 t (text.take n)) :
    n ≤ s.1.children.walk Node.label text := by
  by_cases hp : text.take n = []
  · have := congrArg length hp
    rw [length_take, length_nil] at this
    omega
  · obtain ⟨T, hT, -⟩ := (Tree.holds_of_ne hp).1 ((h.holds t _).2 hh)
    have hlen := (isSome_get_iff Node.label Node.tenants h.shape.wf hp (List.take_prefix n text)).1
      (by rw [hT]; rfl)
    rwa [length_take, Nat.min_eq_left hn] at hlen

theorem Tracks.walk_le (h : Tracks s) (text : List Char) :
    s.1.children.walk Node.label text ≤ text.length := by
  rcases reach_spec h.shape.wf text with ⟨h0, -⟩ | ⟨-, hle, -⟩
  · omega
  · exact hle

theorem Tracks.held_of_has (h : Tracks s) (hat : s.1.nodeAt path = some (d, ch)) (ht : d.has t = true) :
    Held s.2 t path := by
  exact (h.holds t path).1 ((holds_ends h.shape hat (ends_self h.shape hat)).2 ht)

theorem Tracks.owner (h : Tracks s) (text : List Char) :
    Held s.2 (s.1.prefixMatchWithCounts firstTenant text).1.tenant
        (text.take (s.1.children.walk Node.label text)) ∨
      (s.1.prefixMatchWithCounts firstTenant text).1.tenant = "empty" ∧
        s.1.children.walk Node.label text = 0 ∧ ∀ t p, ¬ Held s.2 t p := by
  unfold Tree.prefixMatchWithCounts
  dsimp only
  rcases reach_spec h.shape.wf text with ⟨h0, hreach⟩ | ⟨h0, hle, d, ch, hat, hon⟩
  · rw [h0, hreach, Tree.nodeAt_nil]
    rcases owner_spec firstTenant s.1.root with hown | ⟨hempty, hkeys⟩
    · exact .inl ((h.holds _ []).1 (Tree.holds_nil.2 hown))
    · refine .inr ⟨hempty, rfl, fun t p hh => ?_⟩
      have := has_iff_mem_keys.1 (h.root_of_held hh)
      rw [hkeys] at this
      cases this
  · rw [Tree.nodeAt_of_ne _ (ne_nil_of_nodeAt h.shape.wf hat), hat]
    have hwhole := hat
    rw [← Tree.nodeAt_of_ne _ (ne_nil_of_nodeAt h.shape.wf hat)] at hwhole
    have hown := (owner_spec firstTenant d).resolve_right fun hk =>
      h.shape.keys_ne_nil (ne_nil_of_nodeAt h.shape.wf hat) hwhole hk.2
    have hne := hon.ne_nil (label_suffix h.shape.wf hat).2
    refine .inl ((h.holds _ _).1 ((Tree.holds_of_ne hne).2 ?_))
    exact ⟨_, get_onEdge Node.tenants h.shape.wf hat hon, hown⟩

/-- **A match answers with an owner of the longest prefix.** In every run whose matches never note the
    placeholder, a match counts the characters of its text, matches the longest prefix that a tenant
    holds, names a tenant that holds it, or the placeholder when nothing is held at all, and every tenant
    of a node of the tree holds the text that leads to it. -/
theorem match_answers_owner (epoch : Nat) {s : Tree × List Record}
    (hrun : Run.Reaches (treeStep firstTenant nextEntry) TreeAllowed (Tree.new epoch, []) s)
    (text : List Char) :
    let r := (s.1.prefixMatchWithCounts firstTenant text).1
    r.inputCharCount = text.length ∧ r.matchedCharCount ≤ text.length ∧
      (∀ n t, n ≤ text.length → Held s.2 t (text.take n) → n ≤ r.matchedCharCount) ∧
      (Held s.2 r.tenant (text.take r.matchedCharCount) ∨
        r.tenant = "empty" ∧ r.matchedCharCount = 0 ∧ ∀ t p, ¬ Held s.2 t p) ∧
      ∀ path d ch t, s.1.nodeAt path = some (d, ch) → d.has t = true → Held s.2 t path := by
  have h : Tracks s := hrun.invariant (tracks_new epoch) fun _ _ _ => treeStep_tracks firstTenant nextEntry
  exact ⟨rfl, h.walk_le text, fun n t => h.le_walk, h.owner firstTenant text,
    fun path d ch t hat ht => h.held_of_has hat ht⟩

end Run

instance (s : Tree × List Record) : (e : TreeEvent) → Decidable (TreeAllowed s e)
  | .prefixMatchWithCounts _ => inferInstanceAs (Decidable (_ ∨ _))
  | .insert .. => .isTrue trivial
  | .prefixMatchTenant .. => .isTrue trivial
  | .evictTenantBySize _ => .isTrue trivial
  | .removeTenant _ => .isTrue trivial
  | .elsewhere _ => .isTrue trivial

/-- Two tenants share a prefix, one is evicted down to its size and the other is removed. -/
def sharedRun : List TreeEvent :=
  [.elsewhere 1, .prefixMatchWithCounts "x".toList, .insert "naïve".toList "w1",
   .insert "nation".toList "w2", .prefixMatchWithCounts "natural".toList,
   .prefixMatchTenant "nap".toList "w1", .evictTenantBySize 5, .removeTenant "w1"]

theorem match_answers_owner_shared : ∃ s : Tree × List Record,
    Run.Reaches (treeStep (fun _ => 0) (fun _ => 0)) TreeAllowed (Tree.new 0, []) s ∧
      (s.1.prefixMatchWithCounts (fun _ => 0) "nature".toList).1 = ⟨"w2", 2, 6⟩ ∧
      Held s.2 "w2" "na".toList := by
  have hex : ((Run.exec (fun s e => if TreeAllowed s e then treeStep (fun _ => 0) (fun _ => 0) s e else none)
      (Tree.new 0, []) sharedRun).map fun s =>
        (s.1.prefixMatchWithCounts (fun _ => 0) "nature".toList).1) = some ⟨"w2", 2, 6⟩ := by
    decide +kernel
  obtain ⟨s, hs, hr⟩ := Option.map_eq_some_iff.1 hex
  have hrun := Run.reaches_of_exec_guarded hs
  refine ⟨s, hrun, hr, ?_⟩
  have hown := (match_answers_owner (fun _ => 0) (fun _ => 0) 0 hrun "nature".toList).2.2.2.1
  rw [hr] at hown
  exact hown.resolve_right fun h => absurd h.2.1 (by decide)

/-- **The placeholder as an owner.** The first match on an empty tree, in epoch 0, notes the placeholder on
    the root, and a later match that finds nothing names it although a tenant was inserted. -/
theorem match_answers_placeholder : ∃ s : Tree × List Record,
    Run.Reaches (treeStep (fun _ => 0) (fun _ => 0)) (fun _ _ => True) (Tree.new 0, []) s ∧
      Held s.2 "w1" [] ∧ ¬ Held s.2 "empty" [] ∧
      (s.1.prefixMatchWithCounts (fun _ => 0) "zzz".toList).1 = ⟨"empty", 0, 3⟩ := by
  have hex : ((Run.exec (treeStep (fun _ => 0) (fun _ => 0)) (Tree.new 0, [])
      [.prefixMatchWithCounts "x".toList, .insert "hello".toList "w1"]).map fun s =>
        (s.2, (s.1.prefixMatchWithCounts (fun _ => 0) "zzz".toList).1)) =
      some ([.inserted "w1" "hello".toList], ⟨"empty", 0, 3⟩) := by
    decide +kernel
  obtain ⟨s, hs, hr⟩ := Option.map_eq_some_iff.1 hex
  obtain ⟨hhist, hres⟩ := Prod.mk.inj hr
  refine ⟨s, Run.reaches_of_exec hs, ?_, ?_, hres⟩
  · rw [hhist]
    exact .inl ⟨rfl, nil_prefix⟩
  · rw [hhist]
    rintro (⟨h, -⟩ | h)
    · exact absurd h (by decide)
    · exact h

end Gateway
