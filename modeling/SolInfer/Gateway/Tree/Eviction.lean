import SolInfer.Gateway.Tree.Proofs

set_option autoImplicit false

/-! # Sizes and eviction

The count of every tenant is the number of characters on its nodes, in every run: a placeholder that a match
notes is on the root only, where there are no characters. `evict_tenant_by_size` works through a heap that
always has the leaves of the tenants that are still over their size. -/

open Radix Radix.Forest

namespace Gateway

variable {tree : Tree} {t : TenantId} {d : Node} {ch : Forest Node} {path p : List Char}

/-! ## The loop of the eviction -/

section Loop

variable (nextEntry : List (Nat × TenantId × List Char) → Nat) (maxSize : Nat)

def leafEntries (tree : Tree) : List (Nat × TenantId × List Char) :=
  tree.nodes.flatMap fun x =>
    (leafOf x.2.1 x.2.2).map fun t => ((x.2.1.tenantLastAccessTime.get? t).getD 0, t, x.1)

/-- One turn of the loop of `evict_tenant_by_size`: the tree, the heap and what was taken away. -/
def evictStep (s : Tree × List (Nat × TenantId × List Char) × List Dropped) (_ : Unit) :
    Option (Tree × List (Nat × TenantId × List Char) × List Dropped) :=
  match popEntry nextEntry s.2.1 with
  | none => none
  | some ((_, t, path), heap) =>
    match evictEntry maxSize s.1 t path with
    | none => some (s.1, heap, s.2.2)
    | some (tree, new, dropped) => some (tree, new ++ heap, dropped :: s.2.2)

abbrev EvictReaches (tree : Tree) :=
  Run.Reaches (evictStep nextEntry maxSize) (fun _ _ => True) (tree, leafEntries tree, [])

variable {nextEntry maxSize} {a b : Tree × List (Nat × TenantId × List Char) × List Dropped}

section

variable (h : Accounts a.1) (hstep : evictStep nextEntry maxSize a () = some b)
include h hstep

theorem evictStep_cases :
    ∃ n t path heap, ((n, t, path) :: heap).Perm a.2.1 ∧
      ((evictEntry maxSize a.1 t path = none ∧ b = (a.1, heap, a.2.2)) ∨
        ∃ tree new x, evictEntry maxSize a.1 t path = some (tree, new, x) ∧ x.tenant = t ∧ x.path = path ∧
          Evicts maxSize a.1 tree new x ∧ b = (tree, new ++ heap, x :: a.2.2)) := by
  unfold evictStep at hstep
  split at hstep
  · cases hstep
  next n t path heap hpop =>
    refine ⟨n, t, path, heap, popEntry_perm hpop, ?_⟩
    split at hstep
    next he => exact .inl ⟨he, (Option.some.inj hstep).symm⟩
    next tree new x he =>
      obtain ⟨-, d, ch, -, -, -, -, -, rfl⟩ := evictEntry_some he
      exact .inr ⟨tree, new, _, he, rfl, rfl, evictEntry_spec h.shape h.counts he,
        (Option.some.inj hstep).symm⟩

theorem Accounts.evictStep : Accounts b.1 := by
  obtain ⟨n, t, path, heap, -, ⟨-, rfl⟩ | ⟨tree', new, x, -, -, -, hev, rfl⟩⟩ := evictStep_cases h hstep
  · exact h
  · exact h.evict hev

end

theorem Accounts.evictReaches (h : Accounts tree) (hrun : EvictReaches nextEntry maxSize tree a) :
    Accounts a.1 :=
  hrun.invariant (I := fun a => Accounts a.1) h fun _ _ _ h _ hstep => h.evictStep hstep

/-- **The loop ends** with an empty heap, within the fuel it is given. -/
theorem evictLoop_reaches (fuel : Nat) (h : Accounts tree) {heap : List (Nat × TenantId × List Char)}
    (hfuel : 2 * tree.attachments + heap.length ≤ fuel) (out : List Dropped) :
    Run.Reaches (Gateway.evictStep nextEntry maxSize) (fun _ _ => True) (tree, heap, out)
      ((evictLoop nextEntry maxSize fuel tree heap out).1, [],
        (evictLoop nextEntry maxSize fuel tree heap out).2) := by
  induction fuel generalizing tree heap out with
  | zero =>
    obtain rfl : heap = [] := List.eq_nil_of_length_eq_zero (by omega)
    exact .refl
  | succ fuel ih =>
    rw [evictLoop]
    split
    next hpop =>
      obtain rfl : heap = [] := by
        by_contra hne
        unfold popEntry at hpop
        rw [Option.map_eq_none_iff, List.getElem?_eq_none_iff] at hpop
        exact absurd (Nat.mod_lt (nextEntry heap) (List.length_pos_of_ne_nil hne)) (by omega)
      exact .refl
    next n t path rest hpop =>
      have hlen := (popEntry_perm hpop).length_eq
      rw [List.length_cons] at hlen
      split
      next he =>
        refine (Run.Reaches.step (e := ()) .refl trivial ?_).trans (ih h (by omega) out)
        simp [Gateway.evictStep, hpop, he]
      next tree' new x he =>
        have hev := evictEntry_spec h.shape h.counts he
        have hatt := hev.attachments
        have hone := hev.one
        refine (Run.Reaches.step (e := ()) .refl trivial ?_).trans
          (ih (h.evict hev) ?_ (x :: out))
        · simp [Gateway.evictStep, hpop, he]
        · rw [List.length_append]
          omega

theorem evictTenantBySize_reaches (h : Accounts tree) : EvictReaches nextEntry maxSize tree
    ((tree.evictTenantBySize nextEntry maxSize).1, [], (tree.evictTenantBySize nextEntry maxSize).2) :=
  evictLoop_reaches _ h le_rfl []

/-- The heap has every leaf of the tenants that are over their size. -/
def Queued (maxSize : Nat) (tree : Tree) (heap : List (Nat × TenantId × List Char)) : Prop :=
  ∀ t v, maxSize < (tree.tenantCharCount.get? t).getD 0 → IsLeaf tree t v → ∃ n, (n, t, v) ∈ heap

theorem queued_leafEntries (h : Shape tree) : Queued maxSize tree (leafEntries tree) := by
  rintro t v - ⟨d, ch, hat, hd, hno⟩
  refine ⟨_, List.mem_flatMap.2 ⟨(v, d, ch), (mem_tree_nodes h).2 hat, List.mem_map.2 ⟨t, ?_, rfl⟩⟩⟩
  exact List.mem_filter.2 ⟨has_iff_mem_keys.1 hd, hno⟩

theorem evictEntry_none (he : evictEntry maxSize tree t path = none) :
    (tree.tenantCharCount.get? t).getD 0 ≤ maxSize ∨ ¬ IsLeaf tree t path := by
  unfold evictEntry at he
  split at he
  next hover =>
    cases hn : tree.tenantCharCount.get? t with
    | none => exact .inl (Nat.zero_le _)
    | some n =>
      rw [hn] at hover
      exact .inl (of_decide_eq_true hover)
  · refine .inr ?_
    rintro ⟨d, ch, hat, hd, hno⟩
    rw [hat] at he
    simp [hd, hno] at he

section Step

variable {new : List (Nat × TenantId × List Char)} {x : Dropped} {tree' : Tree}

theorem Evicts.unknown (hev : Evicts maxSize tree tree' new x) (hn : tree.tenantCharCount.get? t = none) :
    tree'.tenantCharCount.get? t = none := by
  have := hev.known t
  rwa [hn, Option.isSome_none, Option.isSome_eq_false_iff, Option.isNone_iff_eq_none] at this

theorem Evicts.isLeaf_of_ne (hev : Evicts maxSize tree tree' new x) (h : Shape tree) (ht : t ≠ x.tenant) :
    IsLeaf tree' t path ↔ IsLeaf tree t path := by
  have hsame : ∀ p, tree'.Holds t p ↔ tree.Holds t p := fun p => by
    rw [hev.holds]
    simp [ht]
  rw [isLeaf_iff h, isLeaf_iff hev.shape]
  simp only [hsame]

end Step

theorem Queued.step (h : Accounts a.1) (hcov : Queued maxSize a.1 a.2.1)
    (hstep : Gateway.evictStep nextEntry maxSize a () = some b) : Queued maxSize b.1 b.2.1 := by
  obtain ⟨n, t, path, heap, hperm, ⟨he, rfl⟩ | ⟨tree', new, x, -, rfl, rfl, hev, rfl⟩⟩ :=
    evictStep_cases h hstep
  · intro t' v hover hleaf
    obtain ⟨m, hm⟩ := hcov t' v hover hleaf
    rcases List.mem_cons.1 (hperm.mem_iff.2 hm) with heq | hm
    · cases heq
      exact absurd ((evictEntry_none he).resolve_right (not_not.2 hleaf)) (Nat.not_le.2 hover)
    · exact ⟨m, hm⟩
  · -- an old leaf that is not the entry itself is in the rest of the heap
    have hrest : ∀ t' v, (t' ≠ x.tenant ∨ v ≠ x.path) →
        maxSize < (a.1.tenantCharCount.get? t').getD 0 → IsLeaf a.1 t' v →
        ∃ m, (m, t', v) ∈ new ++ heap := by
      intro t' v hne hover hleaf
      obtain ⟨m, hm⟩ := hcov t' v hover hleaf
      rcases List.mem_cons.1 (hperm.mem_iff.2 hm) with heq | hm
      · cases heq
        simp at hne
      · exact ⟨m, List.mem_append_right _ hm⟩
    intro t' v hover hleaf
    by_cases ht : t' = x.tenant
    · subst ht
      obtain ⟨hne, hold | ⟨m, hm⟩⟩ := hev.covers v hleaf
      · refine hrest _ v (.inr hne) ?_ hold
        cases hn : a.1.tenantCharCount.get? x.tenant with
        | none =>
          rw [hev.unknown hn] at hover
          exact absurd hover (by simp)
        | some k => exact hev.exceeds k hn
      · exact ⟨m, List.mem_append_left _ hm⟩
    · dsimp only at hover hleaf
      rw [hev.others t' ht] at hover
      exact hrest t' v (.inl ht) hover ((hev.isLeaf_of_ne h.shape ht).1 hleaf)

/-- A heap without entries covers no tenant, so none is over its size. -/
theorem Queued.le (h : Accounts tree) (hcov : Queued maxSize tree []) (t : TenantId) :
    (tree.tenantCharCount.get? t).getD 0 ≤ maxSize := by
  by_contra hover
  have hno : ∀ v, ¬ IsLeaf tree t v := fun v hleaf => by
    obtain ⟨n, hn⟩ := hcov t v (by omega) hleaf
    cases hn
  rw [h.counts, (absent_of_no_leaf h.shape hno).2.total fun _ => size_of_absent] at hover
  omega

theorem Accounts.eq_nil_of_holds (h : Accounts tree) (h0 : (tree.tenantCharCount.get? t).getD 0 = 0)
    (hh : tree.Holds t p) : p = [] := by
  by_contra hp
  obtain ⟨T, hT, -⟩ := (Tree.holds_of_ne hp).1 hh
  obtain ⟨w, d, ch, hat, hon⟩ := exists_onEdge h.shape.wf hT
  have hlab := (label_suffix h.shape.wf hat).1
  have hw := ne_nil_of_nodeAt h.shape.wf hat
  rw [← Tree.nodeAt_of_ne tree hw] at hat
  have hd := (holds_ends (t := t) h.shape hat ⟨hon.1, .inr hon.2⟩).1 hh
  have hsize := size_dropTenantAt hw hat hd
  rw [← h.counts, h0, d.text.count_eq] at hsize
  exact hlab (List.eq_nil_of_length_eq_zero (by unfold Node.label; omega))

/-- **A tenant at its size keeps what it holds.** The placeholder, which is not counted, may leave the root. -/
theorem evictReaches_keeps (h : Accounts tree) (hle : (tree.tenantCharCount.get? t).getD 0 ≤ maxSize)
    (hrun : EvictReaches nextEntry maxSize tree a) :
    a.1.tenantCharCount.get? t = tree.tenantCharCount.get? t ∧
      ∀ p, p ≠ [] ∨ (tree.tenantCharCount.get? t).isSome = true → (a.1.Holds t p ↔ tree.Holds t p) := by
  suffices hsame : a.1.tenantCharCount.get? t = tree.tenantCharCount.get? t ∧
      ((tree.tenantCharCount.get? t).isSome = true → ∀ p, a.1.Holds t p ↔ tree.Holds t p) by
    refine ⟨hsame.1, fun p hp => ?_⟩
    cases hn : tree.tenantCharCount.get? t with
    | some n => exact hsame.2 (by rw [hn]; rfl) p
    | none =>
      have hp0 := hp.resolve_right (by simp [hn])
      have hcount := hsame.1
      rw [hn] at hcount
      exact iff_of_false (fun hh => hp0 ((h.evictReaches hrun).eq_nil_of_holds (by rw [hcount]; rfl) hh))
        fun hh => hp0 (h.eq_nil_of_holds (by rw [hn]; rfl) hh)
  induction hrun with
  | refl => exact ⟨rfl, fun _ _ => Iff.rfl⟩
  | step hrun _ hstep ih =>
    obtain ⟨n, t', path, heap, -, ⟨-, rfl⟩ | ⟨tree', new, x, -, -, -, hev, rfl⟩⟩ :=
      evictStep_cases (h.evictReaches hrun) hstep
    · exact ih
    by_cases ht : t = x.tenant
    · subst ht
      cases hn : tree.tenantCharCount.get? x.tenant with
      | some k =>
        rw [hn] at hle ih
        exact absurd (hev.exceeds k ih.1) (by simpa using hle)
      | none => exact ⟨hev.unknown (ih.1.trans hn), fun hs => absurd hs (by simp)⟩
    · refine ⟨(hev.others t ht).trans ih.1, fun hs p => Iff.trans ?_ (ih.2 hs p)⟩
      rw [hev.holds]
      simp [ht]

theorem evictReaches_known (h : Accounts tree) (hrun : EvictReaches nextEntry maxSize tree a)
    (t : TenantId) : (a.1.tenantCharCount.get? t).isSome = (tree.tenantCharCount.get? t).isSome := by
  induction hrun with
  | refl => rfl
  | step hrun _ hstep ih =>
    obtain ⟨n, t', path, heap, -, ⟨-, rfl⟩ | ⟨tree', new, x, -, -, -, hev, rfl⟩⟩ :=
      evictStep_cases (h.evictReaches hrun) hstep
    · exact ih
    · exact (hev.known t).trans ih

end Loop

/-! ## What a match for one tenant finds -/

/-- **A match for a tenant finds the longest prefix that the tenant holds**, and it holds all shorter ones. -/
theorem walkTenant_holds {f : Forest Node} {a : Node} (t : TenantId) (hf : f.WF Node.label)
    (hun : f.Under Attached a) {w : List Char} (hp : p ≠ []) (hpw : p <+: w) :
    (∃ T, f.get Node.label Node.tenants p = some T ∧ T t) ↔ p.length ≤ (walkTenant t f w).1 := by
  induction f generalizing w p a with
  | nil => simp [Forest.get, walkTenant, hp]
  | node d ch sib ihc ihs =>
    have hbelow : Shape ⟨d, ch, .empty, 0⟩ := ⟨hf.2.2.1, hun.2.1⟩
    obtain ⟨hl, -, hch, hsib⟩ := hf
    have hp0 := List.length_pos_of_ne_nil hp
    rw [Forest.get, walkTenant_node]
    by_cases h0 : common d.label w = 0
    · rw [edge_beside (common_eq_zero_of_isPrefix h0 hpw), if_pos h0]
      exact ihs hsib hun.2.2 hp hpw
    rw [if_neg h0]
    obtain ⟨u, r, s, hlab, rfl, hlen, hapart⟩ := exists_common d.label w
    rw [hlen] at h0 ⊢
    have hu : u ≠ [] := fun hu => h0 (by rw [hu]; rfl)
    have hon : p <+: u → edge d.label d.tenants (ch.get Node.label Node.tenants)
        (sib.get Node.label Node.tenants) p = some (d.tenants p.length) := fun hpu =>
      edge_on hp (hpu.trans (hlab ▸ List.prefix_append u r))
    have hd' : ∀ n, d.tenants n t ↔ d.has t = true := fun _ => Iff.rfl
    cases hd : d.has t with
    | true =>
      rw [if_pos rfl]
      by_cases hr : r = []
      · have hlu : d.label = u := by simp [hlab, hr]
        rw [if_pos (by rw [hlu]), List.drop_left]
        rcases isPrefix_append_cases hpw with hpu | ⟨q, hq, rfl, hqs⟩
        · rw [hon hpu]
          simpa [hd', hd] using hpu.length_le.trans (Nat.le_add_right _ _)
        · rw [hlu, edge_below hu hq, ihc hch hun.2.1 hq hqs, List.length_append]
          exact (Nat.add_le_add_iff_left).symm
      · rw [if_neg (by rw [hlab]; simp [hr])]
        rcases isPrefix_append_cases hpw with hpu | ⟨q, hq, rfl, hqs⟩
        · rw [hon hpu]
          simpa [hd', hd] using hpu.length_le
        · rw [hlab, edge_apart hu hr hq (common_eq_zero_of_isPrefix hapart hqs)]
          simp [hq]
    | false =>
      -- nothing below has the tenant
      rw [if_neg (by simp)]
      refine iff_of_false ?_ (by dsimp only; omega)
      rintro ⟨T, hT, ht⟩
      rcases word_cases d.label p with hz | ⟨-, hpl⟩ | ⟨q, hq, -, rfl⟩ |
          ⟨u', r', s', hu', hr', hs', ha', hlab', rfl⟩
      · rw [hlab, common_comm] at hz
        refine common_ne_zero_of_isPrefix hu hp hpw ?_
        rw [common_comm]
        exact common_eq_zero_of_isPrefix hz (List.prefix_append u r)
      · rw [edge_on hp hpl] at hT
        cases hT
        rw [hd', hd] at ht
        cases ht
      · rw [edge_below hl hq] at hT
        obtain ⟨e, n, he, rfl⟩ := (hbelow.all_absent (hbelow.noChildHas_of_root hd)).get hT
        rw [Node.tenants, he] at ht
        cases ht
      · rw [hlab', edge_apart hu' hr' hs' ha'] at hT
        cases hT

theorem walkTenant_le (t : TenantId) (f : Forest Node) (w : List Char) :
    (walkTenant t f w).1 ≤ w.length := by
  induction f generalizing w with
  | nil => exact Nat.zero_le _
  | node d ch sib ihc ihs =>
    have hle := common_le_left w d.label
    rw [common_comm] at hle
    rw [walkTenant_node]
    dsimp only
    split
    · exact ihs w
    · split
      · split
        · have := ihc (w.drop (common d.label w))
          rw [List.length_drop] at this
          omega
        · exact hle
      · exact Nat.zero_le _

theorem Tree.holds_iff_walkTenant (h : Shape tree) {w : List Char} (hp : p ≠ []) (hpw : p <+: w) :
    tree.Holds t p ↔ p.length ≤ (walkTenant t tree.children w).1 := by
  rw [Tree.holds_of_ne hp, walkTenant_holds t h.wf h.under hp hpw]

theorem holds_of_isPrefix (h : Shape tree) {q : List Char} (hq : q <+: p) (hh : tree.Holds t p) :
    tree.Holds t q := by
  by_cases hq0 : q = []
  · subst hq0
    rw [Tree.holds_nil]
    by_contra hroot
    have hroot' : tree.root.has t = false := by simpa using hroot
    exact not_holds_of_absent hroot' (h.all_absent (h.noChildHas_of_root hroot')) p hh
  · have hp0 : p ≠ [] := by
      rintro rfl
      exact hq0 (List.prefix_nil.1 hq)
    rw [Tree.holds_iff_walkTenant h hq0 hq]
    exact hq.length_le.trans ((Tree.holds_iff_walkTenant h hp0 (List.prefix_refl p)).1 hh)

theorem prefixMatchTenant_congr {tree' : Tree} (h : Shape tree) (h' : Shape tree')
    (hsame : ∀ p, p ≠ [] → (tree'.Holds t p ↔ tree.Holds t p)) (text : List Char) :
    (tree'.prefixMatchTenant text t).1 = (tree.prefixMatchTenant text t).1 := by
  have hle : ∀ {a b : Tree}, Shape a → Shape b → (∀ p, p ≠ [] → a.Holds t p → b.Holds t p) →
      (walkTenant t a.children text).1 ≤ (walkTenant t b.children text).1 := by
    intro a b ha hb hab
    have hlen := walkTenant_le t a.children text
    by_cases h0 : (walkTenant t a.children text).1 = 0
    · rw [h0]
      exact Nat.zero_le _
    have htake : (text.take (walkTenant t a.children text).1).length = (walkTenant t a.children text).1 := by
      rw [List.length_take, Nat.min_eq_left hlen]
    have hne : text.take (walkTenant t a.children text).1 ≠ [] := fun h => h0 (by rw [← htake, h]; rfl)
    have hheld := hab _ hne ((Tree.holds_iff_walkTenant ha hne (List.take_prefix _ text)).2 htake.le)
    rw [Tree.holds_iff_walkTenant hb hne (List.take_prefix _ text), htake] at hheld
    exact hheld
  have heq := Nat.le_antisymm (hle h' h fun p hp => (hsame p hp).1) (hle h h' fun p hp => (hsame p hp).2)
  unfold Tree.prefixMatchTenant
  dsimp only
  rw [heq]

/-! ## Sizes of the tenants -/

theorem getD_addCount (used : Dict TenantId Nat) (t' : TenantId) (n : Nat) :
    ((addCount used t' n).get? t).getD 0 = (used.get? t).getD 0 + if t' = t then n else 0 := by
  rw [addCount, Dict.get?_set]
  split
  next h =>
    subst h
    rfl
  · rfl

theorem getD_foldl_keys (d : Node) (used : Dict TenantId Nat) :
    ((d.tenantLastAccessTime.keys.foldl (fun used t => addCount used t d.text.charCount) used).get? t).getD 0 =
      (used.get? t).getD 0 + size t d := by
  have hfold : ∀ (keys : List TenantId) (used : Dict TenantId Nat), keys.Nodup →
      ((keys.foldl (fun used t => addCount used t d.text.charCount) used).get? t).getD 0 =
        (used.get? t).getD 0 + if t ∈ keys then d.text.charCount else 0 := by
    intro keys
    induction keys with
    | nil => simp
    | cons k keys ih =>
      intro used hnodup
      obtain ⟨hk, hnodup⟩ := List.nodup_cons.1 hnodup
      rw [List.foldl_cons, ih _ hnodup, getD_addCount]
      by_cases hkt : k = t
      · subst hkt
        simp [hk]
      · simp [hkt, Ne.symm hkt]
  rw [hfold d.tenantLastAccessTime.keys used d.tenantLastAccessTime.nodup, size]
  simp only [has_iff_mem_keys]

theorem sum_nodes (m : Node → Nat) (f : Forest Node) (above : List Char) :
    ((f.nodes Node.label above).map fun x => m x.2.1).sum = f.total m := by
  induction f generalizing above with
  | nil => rfl
  | node d ch sib ihc ihs => simp [Forest.nodes, Forest.total, ihc, ihs, Nat.add_assoc]

theorem getUsedSizePerTenant_eq (tree : Tree) (t : TenantId) :
    (tree.getUsedSizePerTenant.get? t).getD 0 = (tree.nodes.map fun x => size t x.2.1).sum := by
  have hfold : ∀ (nodes : List (List Char × Node × Forest Node)) (used : Dict TenantId Nat),
      ((nodes.foldl (fun used x => x.2.1.tenantLastAccessTime.keys.foldl
        (fun used t => addCount used t x.2.1.text.charCount) used) used).get? t).getD 0 =
        (used.get? t).getD 0 + (nodes.map fun x => size t x.2.1).sum := by
    intro nodes
    induction nodes with
    | nil => simp
    | cons x nodes ih =>
      intro used
      rw [List.foldl_cons, ih, getD_foldl_keys, List.map_cons, List.sum_cons, Nat.add_assoc]
  exact (hfold _ _).trans (Nat.zero_add _)

theorem Accounts.used (h : Accounts tree) (t : TenantId) :
    (tree.nodes.map fun x => size t x.2.1).sum = (tree.tenantCharCount.get? t).getD 0 := by
  have hroot : size t tree.root = 0 := by
    unfold size
    rw [h.text]
    split <;> rfl
  rw [h.counts, Tree.nodes, List.map_cons, List.sum_cons, sum_nodes, hroot, Nat.zero_add]

theorem nodup_heads {f : Forest Node} (hf : f.WF Node.label) :
    ((f.tops Node.label).map List.head?).Nodup := by
  induction f with
  | nil => exact List.nodup_nil
  | node d ch sib _ ihs =>
    obtain ⟨hl, happ, -, hsib⟩ := hf
    refine List.nodup_cons.2 ⟨fun hmem => ?_, ihs hsib⟩
    obtain ⟨l, hmem, heq⟩ := List.mem_map.1 hmem
    have hapart := happ l hmem
    obtain ⟨a, r, hd⟩ := List.exists_cons_of_ne_nil hl
    rw [hd, List.head?_cons, List.head?_eq_some_iff] at heq
    obtain ⟨r', rfl⟩ := heq
    rw [hd, common_cons_self] at hapart
    cases hapart

/-! ## Runs -/

section Run

variable (firstTenant : Dict TenantId Nat → Nat) (nextEntry : List (Nat × TenantId × List Char) → Nat)

theorem treeStep_accounts {s s' : Tree × List Record} {e : TreeEvent} (h : Accounts s.1)
    (hstep : treeStep firstTenant nextEntry s e = some s') : Accounts s'.1 := by
  cases e <;> cases hstep
  case insert text t => exact h.insert text t
  case prefixMatchWithCounts text => exact h.prefixMatchWithCounts firstTenant text
  case prefixMatchTenant text t => exact h.prefixMatchTenant text t
  case evictTenantBySize maxSize => exact h.evictReaches (evictTenantBySize_reaches h)
  case removeTenant t => exact h.removeTenant t
  case elsewhere epochs => exact ⟨⟨h.shape.wf, h.shape.under⟩, h.counts, h.text⟩

abbrev TreeReaches (epoch : Nat) :=
  Run.Reaches (treeStep firstTenant nextEntry) (fun _ _ => True) (Tree.new epoch, [])

variable {firstTenant nextEntry} {epoch : Nat} {s : Tree × List Record}

theorem TreeReaches.accounts (hrun : TreeReaches firstTenant nextEntry epoch s) : Accounts s.1 :=
  hrun.invariant (I := fun s => Accounts s.1) (accounts_new epoch) fun _ _ _ h _ =>
    treeStep_accounts firstTenant nextEntry h

/-- **The sizes of the tenants are exact.** In every run the count of a tenant is what
    `get_used_size_per_tenant` finds, the characters on the nodes that have it; the tenants of a node are on
    all nodes above it; edges are not empty and start with different characters; no turn of an eviction
    subtracts more than the count; and a removed tenant is on no node. -/
theorem tenant_sizes_exact (hrun : TreeReaches firstTenant nextEntry epoch s) :
    (∀ t, (s.1.tenantCharCount.get? t).getD 0 = (s.1.getUsedSizePerTenant.get? t).getD 0 ∧
      (s.1.tenantCharCount.get? t).getD 0 =
        (s.1.nodes.map fun x => if x.2.1.has t then x.2.1.text.charCount else 0).sum) ∧
    (∀ path d ch path' d' ch' t, s.1.nodeAt path = some (d, ch) → s.1.nodeAt path' = some (d', ch') →
      path' <+: path → d.has t = true → d'.has t = true) ∧
    (∀ path d ch, s.1.nodeAt path = some (d, ch) →
      ((ch.tops Node.label).map List.head?).Nodup ∧ [] ∉ ch.tops Node.label) ∧
    (∀ maxSize a, EvictReaches nextEntry maxSize s.1 a → ∀ t path tree new x,
      evictEntry maxSize a.1 t path = some (tree, new, x) → ∀ n, a.1.tenantCharCount.get? t = some n →
        x.length ≤ n) ∧
    ∀ t path d ch, (s.1.removeTenant t).nodeAt path = some (d, ch) → d.has t = false := by
  have h := hrun.accounts
  refine ⟨fun t => ⟨?_, (h.used t).symm⟩, ?_, ?_, ?_, ?_⟩
  · rw [getUsedSizePerTenant_eq, h.used]
  · intro path d ch path' d' ch' t hat hat' hpre hd
    have hheld := (holds_ends h.shape hat (ends_self h.shape hat)).2 hd
    exact (holds_ends h.shape hat' (ends_self h.shape hat')).1 (holds_of_isPrefix h.shape hpre hheld)
  · intro path d ch hat
    have hwf := (h.shape.below hat).wf
    exact ⟨nodup_heads hwf, nil_not_mem_tops hwf⟩
  · intro maxSize a ha t path tree new x he n hn
    have hacc := h.evictReaches ha
    obtain ⟨-, d, ch, -, -, -, -, -, rfl⟩ := evictEntry_some he
    exact ((evictEntry_spec hacc.shape hacc.counts he).subtracts n hn).1
  · intro t path d ch hat
    obtain ⟨tree', heq, hshape, -, hroot, hall⟩ := removeTenant_spec h.shape t
    rw [heq] at hat
    by_contra hd
    exact not_holds_of_absent hroot hall path
      ((holds_ends hshape hat (ends_self hshape hat)).2 (by simpa using hd))

/-- **Eviction brings every tenant to its size and touches no other.** In every run the loop ends with an
    empty heap and no tenant over the size. A tenant that was not over it keeps what it holds, and its
    answers stay. Each turn takes one tenant from a node at which it is a leaf, or nothing, and a tenant that
    was over the size is still over it then. What is left to a tenant is prefix closed. -/
theorem eviction_bounds_tenants (hrun : TreeReaches firstTenant nextEntry epoch s) (maxSize : Nat) :
    let r := s.1.evictTenantBySize nextEntry maxSize
    EvictReaches nextEntry maxSize s.1 (r.1, [], r.2) ∧
    (∀ t, (r.1.tenantCharCount.get? t).getD 0 ≤ maxSize) ∧
    (∀ t, (s.1.tenantCharCount.get? t).getD 0 ≤ maxSize →
      (∀ text, (r.1.prefixMatchTenant text t).1 = (s.1.prefixMatchTenant text t).1) ∧
      ∀ p, p ≠ [] ∨ (s.1.tenantCharCount.get? t).isSome = true → (r.1.Holds t p ↔ s.1.Holds t p)) ∧
    (∀ a b, EvictReaches nextEntry maxSize s.1 a → evictStep nextEntry maxSize a () = some b →
      b.1 = a.1 ∨ ∃ t path d ch, a.1.nodeAt path = some (d, ch) ∧ IsLeaf a.1 t path ∧
        b.1 = { a.1.dropTenantAt t path with
          tenantCharCount := a.1.tenantCharCount.modify t (· - d.text.charCount) } ∧
        (maxSize < (s.1.tenantCharCount.get? t).getD 0 → maxSize < (a.1.tenantCharCount.get? t).getD 0)) ∧
    ∀ t p q, q <+: p → r.1.Holds t p → r.1.Holds t q := by
  intro r
  have h := hrun.accounts
  have hend : EvictReaches nextEntry maxSize s.1 (r.1, [], r.2) := evictTenantBySize_reaches h
  have hacc : Accounts r.1 := h.evictReaches hend
  refine ⟨hend, ?_, fun t hle => ?_, ?_, fun t p q hq hh => holds_of_isPrefix hacc.shape hq hh⟩
  · have hcov : Queued maxSize r.1 [] := by
      have hrun' : ∀ {a}, EvictReaches nextEntry maxSize s.1 a → Accounts a.1 ∧ Queued maxSize a.1 a.2.1 :=
        fun ha => ha.invariant (I := fun a => Accounts a.1 ∧ Queued maxSize a.1 a.2.1)
          ⟨h, queued_leafEntries h.shape⟩ fun _ _ _ hinv _ hstep =>
            ⟨hinv.1.evictStep hstep, hinv.2.step hinv.1 hstep⟩
      exact (hrun' hend).2
    exact hcov.le hacc
  · obtain ⟨-, hkeeps⟩ := evictReaches_keeps h hle hend
    exact ⟨prefixMatchTenant_congr h.shape hacc.shape fun p hp => hkeeps p (.inl hp), hkeeps⟩
  · intro a b ha hstep
    obtain ⟨n, t, path, heap, -, ⟨-, rfl⟩ | ⟨tree', new, x, he, -, -, -, rfl⟩⟩ :=
      evictStep_cases (h.evictReaches ha) hstep
    · exact .inl rfl
    obtain ⟨hover, d, ch, hat, hd, hno, rfl, -, -⟩ := evictEntry_some he
    refine .inr ⟨t, path, d, ch, hat, ⟨d, ch, hat, hd, hno⟩, rfl, fun hlt => ?_⟩
    have hknown := evictReaches_known h ha t
    cases hn : a.1.tenantCharCount.get? t with
    | some k => exact hover k hn
    | none =>
      rw [hn, Option.isSome_none, eq_comm, Option.isSome_eq_false_iff, Option.isNone_iff_eq_none] at hknown
      rw [hknown] at hlt
      exact absurd hlt (by simp)

end Run

/-- Two tenants share a prefix, and a match notes the placeholder first. -/
theorem sharedRun_reaches : ∃ s : Tree × List Record,
    TreeReaches (fun _ => 0) (fun _ => 0) 0 s ∧ (s.1.tenantCharCount.get? "w1").getD 0 = 5 ∧
      (s.1.tenantCharCount.get? "w2").getD 0 = 2 := by
  have hex : ((Run.exec (treeStep (fun _ => 0) (fun _ => 0)) (Tree.new 0, [])
      [.prefixMatchWithCounts "x".toList, .insert "naïve".toList "w1", .insert "na".toList "w2"]).map fun s =>
        ((s.1.tenantCharCount.get? "w1").getD 0, (s.1.tenantCharCount.get? "w2").getD 0)) = some (5, 2) := by
    decide +kernel
  obtain ⟨s, hs, hr⟩ := Option.map_eq_some_iff.1 hex
  obtain ⟨h1, h2⟩ := Prod.mk.inj hr
  exact ⟨s, Run.reaches_of_exec hs, h1, h2⟩

theorem tenant_sizes_exact_shared : ∃ s : Tree × List Record,
    (s.1.getUsedSizePerTenant.get? "w1").getD 0 = 5 ∧
      ∀ path d ch, (s.1.removeTenant "w2").nodeAt path = some (d, ch) → d.has "w2" = false := by
  obtain ⟨s, hrun, h1, -⟩ := sharedRun_reaches
  have h := tenant_sizes_exact hrun
  exact ⟨s, ((h.1 "w1").1.symm.trans h1), h.2.2.2.2 "w2"⟩

theorem eviction_bounds_tenants_shared : ∃ s : Tree × List Record,
    ((s.1.evictTenantBySize (fun _ => 0) 3).1.tenantCharCount.get? "w1").getD 0 ≤ 3 ∧
      ∀ text, ((s.1.evictTenantBySize (fun _ => 0) 3).1.prefixMatchTenant text "w2").1 =
        (s.1.prefixMatchTenant text "w2").1 := by
  obtain ⟨s, hrun, -, h2⟩ := sharedRun_reaches
  have h := eviction_bounds_tenants hrun 3
  exact ⟨s, h.2.1 "w1", (h.2.2.1 "w2" (by omega)).1⟩

end Gateway
