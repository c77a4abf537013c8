import SolInfer.Lib.Radix.Insert

set_option autoImplicit false

/-! # Single nodes of a radix tree

A node is found by the whole word that leads to its end. `Forest.alter` changes the data of one node or
takes the node away; in the map of the forest this touches only the words that end on its edge. -/

open List

namespace Radix

variable {α : Type}

/-- The word `p` ends on an edge with label `l` whose lower end is at `w`. -/
def OnEdge (l w p : List α) : Prop := p <+: w ∧ w.length < p.length + l.length

theorem onEdge_self {l p : List α} : OnEdge l l p ↔ p ≠ [] ∧ p <+: l := by
  constructor
  · rintro ⟨hpre, hlen⟩
    refine ⟨?_, hpre⟩
    rintro rfl
    simp at hlen
  · rintro ⟨hp, hpre⟩
    have : p.length ≠ 0 := by simpa using hp
    exact ⟨hpre, by omega⟩

theorem onEdge_append {l u w p : List α} (hl : l <:+ w) :
    OnEdge l (u ++ w) p ↔ ∃ q, p = u ++ q ∧ OnEdge l w q := by
  have hlen := hl.length_le
  constructor
  · rintro ⟨hpre, hlt⟩
    rw [length_append] at hlt
    obtain ⟨q, rfl⟩ := prefix_of_prefix_length_le (prefix_append u w) hpre (by omega)
    rw [length_append] at hlt
    exact ⟨q, rfl, (prefix_append_right_inj u).1 hpre, by omega⟩
  · rintro ⟨q, rfl, hpre, hlt⟩
    refine ⟨(prefix_append_right_inj u).2 hpre, ?_⟩
    simp only [length_append]
    omega

theorem OnEdge.ne_nil {l w p : List α} (h : OnEdge l w p) (hl : l <:+ w) : p ≠ [] := by
  rintro rfl
  have hlen := hl.length_le
  have hlt := h.2
  simp only [length_nil, Nat.zero_add] at hlt
  omega

namespace Forest

variable {β δ : Type} [DecidableEq α] (label : δ → List α)

/-- The data and the children of the node at the end of a word. -/
def nodeAt : Forest δ → List α → Option (δ × Forest δ)
  | .nil, _ => none
  | .node d ch sib, w =>
    if w = label d then some (d, ch)
    else if label d <+: w then ch.nodeAt (w.drop (label d).length)
    else sib.nodeAt w

/-- Give the node at the end of a word other data, or take it away with its children. -/
def alter (h : δ → Forest δ → Option δ) : Forest δ → List α → Forest δ
  | .nil, _ => .nil
  | .node d ch sib, w =>
    if w = label d then
      match h d ch with
      | some d' => .node d' ch sib
      | none => sib
    else if label d <+: w then .node d (ch.alter h (w.drop (label d).length)) sib
    else .node d ch (sib.alter h w)

def topData : Forest δ → List δ
  | .nil => []
  | .node d _ sib => d :: sib.topData

def total (m : δ → Nat) : Forest δ → Nat
  | .nil => 0
  | .node d ch sib => m d + ch.total m + sib.total m

def nodes (above : List α) : Forest δ → List (List α × δ × Forest δ)
  | .nil => []
  | .node d ch sib =>
    (above ++ label d, d, ch) :: (ch.nodes (above ++ label d) ++ sib.nodes above)

instance (l w p : List α) : Decidable (OnEdge l w p) := inferInstanceAs (Decidable (_ ∧ _))

variable {label} {f ch sib₀ ch₀ : Forest δ} {w p : List α} {d top d₀ : δ} {P : δ → Prop} {x : δ × Forest δ}
variable {R : δ → δ → Prop}

/-! ## Where a word leads -/

theorem nodeAt_top (h : f.nodeAt label w = some x) : ∃ l ∈ f.tops label, l <+: w := by
  induction f with
  | nil => cases h
  | node d ch sib _ ihs =>
    rw [nodeAt] at h
    split at h
    next hw => exact ⟨label d, mem_cons_self, hw ▸ prefix_refl _⟩
    · split at h
      next hpre => exact ⟨label d, mem_cons_self, hpre⟩
      · obtain ⟨l, hl, hpre⟩ := ihs h
        exact ⟨l, mem_cons_of_mem _ hl, hpre⟩

theorem nil_not_mem_tops (hf : f.WF label) : [] ∉ f.tops label := by
  induction f with
  | nil => simp [tops]
  | node d ch sib _ ihs =>
    simp only [tops, mem_cons, not_or]
    exact ⟨fun h => hf.1 h.symm, ihs hf.2.2.2⟩

theorem common_eq_zero_of_beside (hf : (node d₀ ch₀ sib₀).WF label)
    (hw : sib₀.nodeAt label w = some x) : common (label d₀) w = 0 ∧ w ≠ [] := by
  obtain ⟨l, hl, hpre⟩ := nodeAt_top hw
  have hl0 : l ≠ [] := fun h0 => nil_not_mem_tops hf.2.2.2 (h0 ▸ hl)
  refine ⟨common_eq_zero_trans (hf.2.1 l hl) ?_, ?_⟩
  · rw [common_comm, common_of_isPrefix hpre]
    simpa using hl0
  · rintro rfl
    exact hl0 (prefix_nil.1 hpre)

theorem nodeAt_cases (hf : (node d₀ ch₀ sib₀).WF label)
    (h : (node d₀ ch₀ sib₀).nodeAt label w = some (d, ch)) :
    (w = label d₀ ∧ d = d₀ ∧ ch = ch₀) ∨
    (∃ w', w' ≠ [] ∧ w = label d₀ ++ w' ∧ ch₀.nodeAt label w' = some (d, ch)) ∨
    (common (label d₀) w = 0 ∧ w ≠ [] ∧ sib₀.nodeAt label w = some (d, ch)) := by
  rw [nodeAt] at h
  split at h
  next hw =>
    cases h
    exact .inl ⟨hw, rfl, rfl⟩
  next hw =>
    split at h
    next hpre =>
      obtain ⟨w', rfl⟩ := hpre
      rw [drop_left] at h
      exact .inr (.inl ⟨w', fun h0 => hw (by simp [h0]), rfl, h⟩)
    next hpre =>
      obtain ⟨h0, hw0⟩ := common_eq_zero_of_beside hf h
      exact .inr (.inr ⟨h0, hw0, h⟩)

theorem nodeAt_self (d : δ) (ch sib : Forest δ) :
    (node d ch sib).nodeAt label (label d) = some (d, ch) := by
  simp [nodeAt]

theorem nodeAt_below (d : δ) (ch sib : Forest δ) (hw : w ≠ []) :
    (node d ch sib).nodeAt label (label d ++ w) = ch.nodeAt label w := by
  simp [nodeAt, hw]

theorem not_isPrefix_of_common (hd : label d ≠ []) (hw : common (label d) w = 0) :
    ¬ label d <+: w ∧ w ≠ label d := by
  have hpre : ¬ label d <+: w := by
    intro hpre
    rw [common_comm, common_of_isPrefix hpre] at hw
    exact hd (eq_nil_of_length_eq_zero hw)
  refine ⟨hpre, ?_⟩
  rintro rfl
  exact hpre (prefix_refl _)

theorem nodeAt_beside (ch sib : Forest δ) (hd : label d ≠ [])
    (hw : common (label d) w = 0) : (node d ch sib).nodeAt label w = sib.nodeAt label w := by
  simp [nodeAt, not_isPrefix_of_common hd hw]

section

variable (h : δ → Forest δ → Option δ)
include h

theorem alter_self (d : δ) (ch sib : Forest δ) :
    (node d ch sib).alter label h (label d) =
      match h d ch with
      | some d' => .node d' ch sib
      | none => sib := by
  simp [alter]

theorem alter_below (d : δ) (ch sib : Forest δ) (hw : w ≠ []) :
    (node d ch sib).alter label h (label d ++ w) =
      .node d (ch.alter label h w) sib := by
  simp [alter, hw]

theorem alter_beside (ch sib : Forest δ) (hd : label d ≠ []) (hw : common (label d) w = 0) :
    (node d ch sib).alter label h w = .node d ch (sib.alter label h w) := by
  simp [alter, not_isPrefix_of_common hd hw]

end

theorem label_suffix (hf : f.WF label)
    (h : f.nodeAt label w = some (d, ch)) : label d ≠ [] ∧ label d <:+ w := by
  induction f generalizing w with
  | nil => cases h
  | node d₀ ch₀ sib₀ ihc ihs =>
    rcases nodeAt_cases hf h with ⟨rfl, rfl, rfl⟩ | ⟨w', -, rfl, h'⟩ | ⟨-, -, h'⟩
    · exact ⟨hf.1, suffix_refl _⟩
    · obtain ⟨hne, hsuf⟩ := ihc hf.2.2.1 h'
      exact ⟨hne, hsuf.trans (suffix_append _ _)⟩
    · exact ihs hf.2.2.2 h'

theorem nodeAt_wf (hf : f.WF label) (h : f.nodeAt label w = some (d, ch)) : ch.WF label := by
  induction f generalizing w with
  | nil => cases h
  | node d₀ ch₀ sib₀ ihc ihs =>
    rcases nodeAt_cases hf h with ⟨rfl, rfl, rfl⟩ | ⟨w', -, rfl, h'⟩ | ⟨-, -, h'⟩
    · exact hf.2.2.1
    · exact ihc hf.2.2.1 h'
    · exact ihs hf.2.2.2 h'

theorem nodeAt_lift (hf : (node d₀ ch₀ sib₀).WF label)
    (hw : sib₀.nodeAt label w = some x) :
    (node d₀ ch₀ sib₀).nodeAt label w = some x := by
  rwa [nodeAt_beside _ _ hf.1 (common_eq_zero_of_beside hf hw).1]

theorem ne_nil_of_nodeAt (hf : f.WF label) (hw : f.nodeAt label w = some (d, ch)) : w ≠ [] := by
  rintro rfl
  obtain ⟨hne, hsuf⟩ := label_suffix hf hw
  exact hne (suffix_nil.1 hsuf)

/-! ## The map after a change -/

theorem get_eq_none {pay : δ → Nat → β}
    (h : ∀ l ∈ f.tops label, common l p = 0) : f.get label pay p = none := by
  induction f with
  | nil => rfl
  | node d ch sib _ ihs =>
    rw [get, edge_beside (h _ mem_cons_self)]
    exact ihs fun l hl => h l (.tail _ hl)

variable (pay : δ → Nat → β)

theorem get_onEdge (hf : f.WF label) (h : f.nodeAt label w = some (d, ch))
    (hp : OnEdge (label d) w p) :
    f.get label pay p = some (pay d (p.length + (label d).length - w.length)) := by
  induction f generalizing w p with
  | nil => cases h
  | node d₀ ch₀ sib₀ ihc ihs =>
    rw [get]
    rcases nodeAt_cases hf h with ⟨rfl, rfl, rfl⟩ | ⟨w', hw', rfl, h'⟩ | ⟨h0, hw0, h'⟩
    · obtain ⟨hne, hpre⟩ := onEdge_self.1 hp
      rw [edge_on hne hpre, Nat.add_sub_cancel]
    · have hsuf := (label_suffix hf.2.2.1 h').2
      obtain ⟨q, rfl, hq⟩ := (onEdge_append hsuf).1 hp
      rw [edge_below hf.1 (hq.ne_nil hsuf), ihc hf.2.2.1 h' hq]
      simp only [length_append]
      congr 2
      omega
    · rw [edge_beside (common_eq_zero_of_isPrefix h0 hp.1)]
      exact ihs hf.2.2.2 h' hp

theorem get_append (hf : f.WF label) {v : List α} (hv : f.nodeAt label v = some (d, ch))
    (hw : w ≠ []) : f.get label pay (v ++ w) = ch.get label pay w := by
  induction f generalizing v with
  | nil => cases hv
  | node d₀ ch₀ sib₀ ihc ihs =>
    rw [get]
    rcases nodeAt_cases hf hv with ⟨rfl, rfl, rfl⟩ | ⟨v', hv', rfl, h'⟩ | ⟨h0, hv0, h'⟩
    · exact edge_below hf.1 hw
    · rw [append_assoc, edge_below hf.1 (by simp [hv'])]
      exact ihc hf.2.2.1 h'
    · rw [edge_beside (common_eq_zero_append hv0 h0)]
      exact ihs hf.2.2.2 h'

theorem exists_onEdge {pay : δ → Nat → β} (hf : f.WF label) {b : β}
    (h : f.get label pay p = some b) :
    ∃ w d ch, f.nodeAt label w = some (d, ch) ∧ OnEdge (label d) w p := by
  induction f generalizing p with
  | nil => cases h
  | node d₀ ch₀ sib₀ ihc ihs =>
    rw [get] at h
    rcases word_cases (label d₀) p with h0 | hon | ⟨q, hq, hd, rfl⟩ |
        ⟨u, r, s, hu, hr, hs, hapart, hlab, rfl⟩
    · rw [edge_beside h0] at h
      obtain ⟨w, d, ch, hat, hon⟩ := ihs hf.2.2.2 h
      exact ⟨w, d, ch, nodeAt_lift hf hat, hon⟩
    · exact ⟨label d₀, d₀, ch₀, nodeAt_self _ _ _, onEdge_self.2 hon⟩
    · rw [edge_below hd hq] at h
      obtain ⟨w, d, ch, hat, hon⟩ := ihc hf.2.2.1 h
      refine ⟨label d₀ ++ w, d, ch, ?_, ?_⟩
      · rwa [nodeAt_below _ _ _ (ne_nil_of_nodeAt hf.2.2.1 hat)]
      · exact (onEdge_append (label_suffix hf.2.2.1 hat).2).2 ⟨q, rfl, hon⟩
    · rw [hlab, edge_apart hu hr hs hapart] at h
      cases h

theorem get_alter_top (h : δ → Forest δ → Option δ) {sib : Forest δ}
    (hf : (node d ch sib).WF label) (hlab : ∀ d', h d ch = some d' → label d' = label d)
    (hnil : h d ch = none → ch = .nil) (p : List α) :
    ((node d ch sib).alter label h (label d)).get label pay p =
      if p ≠ [] ∧ p <+: label d then (h d ch).map fun d' => pay d' p.length
      else (node d ch sib).get label pay p := by
  rw [alter_self]
  cases hd : h d ch with
  | some d' =>
    simp only [get, hlab d' hd]
    split
    next hp => exact edge_on hp.1 hp.2
    next hp =>
      rcases word_cases (label d) p with h | hon | ⟨q, hq, -, rfl⟩ |
          ⟨u, r, s, hu, hr, hs, hapart, hlab, rfl⟩
      · rw [edge_beside h, edge_beside h]
      · exact absurd hon hp
      · rw [edge_below hf.1 hq, edge_below hf.1 hq]
      · rw [hlab, edge_apart hu hr hs hapart, edge_apart hu hr hs hapart]
  | none =>
    -- the node had no children, and the nodes beside it start apart
    obtain rfl := hnil hd
    have hgone : common (label d) p ≠ 0 → sib.get label pay p = none := by
      intro hne
      refine get_eq_none fun l hl => ?_
      have := hf.2.1 l hl
      rw [common_comm] at this
      exact common_eq_zero_trans this hne
    simp only [Option.map_none]
    split
    next hp =>
      refine hgone ?_
      rw [common_of_isPrefix hp.2]
      simpa using hp.1
    next hp =>
      rw [get]
      by_cases h : common (label d) p = 0
      · rw [edge_beside h]
      · rw [hgone h]
        rcases word_cases (label d) p with h' | hon | ⟨q, hq, -, rfl⟩ |
            ⟨u, r, s, hu, hr, hs, hapart, hlab, rfl⟩
        · exact absurd h' h
        · exact absurd hon hp
        · rw [edge_below hf.1 hq]
          rfl
        · rw [hlab, edge_apart hu hr hs hapart]

/-- **A change of one node** touches only the words that end on its edge. -/
theorem get_alter (h : δ → Forest δ → Option δ) (hf : f.WF label)
    (hat : f.nodeAt label w = some (d, ch)) (hlab : ∀ d', h d ch = some d' → label d' = label d)
    (hnil : h d ch = none → ch = .nil) (p : List α) :
    (f.alter label h w).get label pay p =
      if OnEdge (label d) w p then
        (h d ch).map fun d' => pay d' (p.length + (label d).length - w.length)
      else f.get label pay p := by
  induction f generalizing w p with
  | nil => cases hat
  | node d₀ ch₀ sib₀ ihc ihs =>
    rcases nodeAt_cases hf hat with ⟨rfl, rfl, rfl⟩ | ⟨w', hw', rfl, h'⟩ | ⟨h0, hw0, h'⟩
    · simp only [onEdge_self, Nat.add_sub_cancel]
      exact get_alter_top pay h hf hlab hnil p
    · have hsuf := (label_suffix hf.2.2.1 h').2
      rw [alter_below _ _ _ _ hw']
      rcases word_cases (label d₀) p with h0 | ⟨hp, hon⟩ | ⟨q, hq, -, rfl⟩ |
          ⟨u, r, s, hu, hr, hs, hapart, hlab, rfl⟩
      · rw [if_neg, get, get, edge_beside h0, edge_beside h0]
        intro hp
        exact common_ne_zero_of_isPrefix hf.1 (hp.ne_nil (hsuf.trans (suffix_append _ _))) hp.1 h0
      · rw [if_neg, get, get, edge_on hp hon, edge_on hp hon]
        intro hp'
        obtain ⟨q, rfl, hq⟩ := (onEdge_append hsuf).1 hp'
        have hlen := hon.length_le
        have hq0 : q.length ≠ 0 := by simpa using hq.ne_nil hsuf
        rw [length_append] at hlen
        omega
      · rw [get, get, edge_below hf.1 hq, edge_below hf.1 hq, ihc hf.2.2.1 h' q]
        have hiff : OnEdge (label d) (label d₀ ++ w') (label d₀ ++ q) ↔ OnEdge (label d) w' q := by
          rw [onEdge_append hsuf]
          constructor
          · rintro ⟨q', hqq, hon⟩
            rwa [append_cancel_left hqq]
          · intro hon
            exact ⟨q, rfl, hon⟩
        simp only [hiff, length_append]
        split
        · congr 1
          funext d'
          congr 1
          omega
        · rfl
      · rw [if_neg, get, get, hlab, edge_apart hu hr hs hapart,
          edge_apart hu hr hs hapart]
        intro hp
        obtain ⟨q, hq, -⟩ := (onEdge_append hsuf).1 hp
        rw [hlab, append_assoc] at hq
        have hsr : s = r ++ q := append_cancel_left hq
        rw [hsr, common_comm, common_of_isPrefix (prefix_append r q)] at hapart
        exact hr (eq_nil_of_length_eq_zero hapart)
    · rw [alter_beside _ _ _ hf.1 h0, get, get]
      by_cases hp0 : common (label d₀) p = 0
      · rw [edge_beside hp0, edge_beside hp0]
        exact ihs hf.2.2.2 h' p
      · rw [if_neg]
        · simp [edge, hp0]
        · exact fun hp => hp0 (common_eq_zero_of_isPrefix h0 hp.1)

/-! ## The nodes after a change -/

section Alter

variable {h : δ → Forest δ → Option δ} (hlab : ∀ d ch d', h d ch = some d' → label d' = label d)

include hlab

theorem mem_tops_alter {l : List α} (hl : l ∈ (f.alter label h w).tops label) : l ∈ f.tops label := by
  induction f generalizing w with
  | nil => exact hl
  | node d ch sib _ ihs =>
    rw [alter] at hl
    split at hl
    · split at hl
      next d' hd => rwa [tops, hlab d ch d' hd] at hl
      · exact mem_cons_of_mem _ hl
    · split at hl
      · exact hl
      · rcases mem_cons.1 hl with rfl | hl
        · exact mem_cons_self
        · exact mem_cons_of_mem _ (ihs hl)

theorem wf_alter (hf : f.WF label) (w : List α) : (f.alter label h w).WF label := by
  induction f generalizing w with
  | nil => trivial
  | node d ch sib ihc ihs =>
    obtain ⟨hd, happ, hch, hsib⟩ := hf
    rw [alter]
    split
    · split
      next d' hd' =>
        have hl := hlab d ch d' hd'
        exact ⟨hl ▸ hd, by rwa [hl], hch, hsib⟩
      · exact hsib
    · split
      · exact ⟨hd, happ, ihc hch _, hsib⟩
      · exact ⟨hd, fun l hl => happ l (mem_tops_alter hlab hl), hch, ihs hsib _⟩

omit hlab in
theorem total_alter (m : δ → Nat)
    (hw : f.nodeAt label w = some (d, ch)) (hnil : h d ch = none → ch = .nil) :
    (f.alter label h w).total m + m d = f.total m + ((h d ch).map m).getD 0 := by
  induction f generalizing w with
  | nil => cases hw
  | node d₀ ch₀ sib₀ ihc ihs =>
    rw [nodeAt] at hw
    rw [alter]
    split at hw
    next hwl =>
      cases hw
      rw [if_pos hwl]
      cases hd : h d ch with
      | some d' =>
        simp only [total, Option.map_some, Option.getD_some]
        omega
      | none =>
        obtain rfl := hnil hd
        simp only [total, Option.map_none, Option.getD_none]
        omega
    next hwl =>
      rw [if_neg hwl]
      split at hw
      next hpre =>
        have := ihc hw
        rw [if_pos hpre]
        simp only [total]
        omega
      next hpre =>
        have := ihs hw
        rw [if_neg hpre]
        simp only [total]
        omega

omit hlab in
theorem Under.alter (hR : f.Under R top) (hw : f.nodeAt label w = some (d, ch))
    (hup : ∀ d', h d ch = some d' → ∀ a, R a d → R a d')
    (hdown : ∀ d', h d ch = some d' → ∀ c ∈ ch.topData, R d c → R d' c) :
    (f.alter label h w).Under R top := by
  have hsub : ∀ {a b : δ} {g : Forest δ}, (∀ c ∈ g.topData, R a c → R b c) → g.Under R a → g.Under R b := by
    intro a b g hab hg
    induction g with
    | nil => trivial
    | node e c s _ ihs =>
      exact ⟨hab e mem_cons_self hg.1, hg.2.1, ihs (fun x hx => hab x (.tail _ hx)) hg.2.2⟩
  induction f generalizing w top with
  | nil => cases hw
  | node d₀ ch₀ sib₀ ihc ihs =>
    obtain ⟨hd, hch, hsib⟩ := hR
    rw [nodeAt] at hw
    rw [alter]
    split at hw
    next hwl =>
      cases hw
      rw [if_pos hwl]
      cases hd' : h d ch with
      | some d' => exact ⟨hup d' hd' top hd, hsub (hdown d' hd') hch, hsib⟩
      | none => exact hsib
    next hwl =>
      rw [if_neg hwl]
      split at hw
      next hpre =>
        rw [if_pos hpre]
        exact ⟨hd, ihc hch hw, hsib⟩
      next hpre =>
        rw [if_neg hpre]
        exact ⟨hd, hch, ihs hsib hw⟩

end Alter

/-! ## All nodes -/

def All (P : δ → Prop) : Forest δ → Prop
  | .nil => True
  | .node d ch sib => P d ∧ ch.All P ∧ sib.All P

omit [DecidableEq α] in
theorem Under.all (hR : ∀ {a d}, R a d → P a → P d)
    (hf : f.Under R top) (htop : ∀ x ∈ f.topData, P x) : f.All P := by
  induction f generalizing top with
  | nil => trivial
  | node d ch sib ihc ihs =>
    have hd := htop d mem_cons_self
    refine ⟨hd, ihc hf.2.1 ?_, ihs hf.2.2 fun x hx => htop x (.tail _ hx)⟩
    intro x hx
    refine hR (a := d) ?_ hd
    have hch := hf.2.1
    clear ihc ihs hf htop
    induction ch with
    | nil => cases hx
    | node e c s _ ihs =>
      rcases mem_cons.1 hx with rfl | hx
      · exact hch.1
      · exact ihs hx hch.2.2

theorem All.get {pay : δ → Nat → β} (hf : f.All P)
    {b : β} (h : f.get label pay p = some b) : ∃ d n, P d ∧ b = pay d n := by
  induction f generalizing p with
  | nil => cases h
  | node d ch sib ihc ihs =>
    rw [get, edge] at h
    split at h
    · exact ihs hf.2.2 h
    · split at h
      · exact ⟨d, p.length, hf.1, (Option.some.inj h).symm⟩
      · split at h
        · exact ihc hf.2.1 h
        · cases h

omit [DecidableEq α] in
theorem All.total {m : δ → Nat} (hm : ∀ d, P d → m d = 0) (hf : f.All P) : f.total m = 0 := by
  induction f with
  | nil => rfl
  | node d ch sib ihc ihs => simp [Forest.total, hm d hf.1, ihc hf.2.1, ihs hf.2.2]

theorem Under.nodeAt (hf : f.Under R top) (h : f.nodeAt label w = some (d, ch)) :
    (∃ a, R a d) ∧ ch.Under R d := by
  induction f generalizing w top with
  | nil => cases h
  | node d₀ ch₀ sib₀ ihc ihs =>
    rw [nodeAt] at h
    split at h
    · cases h
      exact ⟨⟨top, hf.1⟩, hf.2.1⟩
    · split at h
      · exact ihc hf.2.1 h
      · exact ihs hf.2.2 h

theorem nodeAt_of_mem_topData (hf : f.WF label) {x : δ} (hx : x ∈ f.topData) :
    ∃ ch, f.nodeAt label (label x) = some (x, ch) := by
  induction f with
  | nil => cases hx
  | node d ch sib _ ihs =>
    rcases mem_cons.1 hx with rfl | hx
    · exact ⟨ch, nodeAt_self _ _ _⟩
    · obtain ⟨c, hc⟩ := ihs hf.2.2.2 hx
      exact ⟨c, nodeAt_lift hf hc⟩

theorem mem_nodes (hf : f.WF label) {above v : List α} :
    (v, d, ch) ∈ f.nodes label above ↔ ∃ w, v = above ++ w ∧ f.nodeAt label w = some (d, ch) := by
  induction f generalizing above v with
  | nil => simp [nodes, nodeAt]
  | node d₀ ch₀ sib₀ ihc ihs =>
    obtain ⟨hd, happ, hch, hsib⟩ := hf
    simp only [nodes, mem_cons, mem_append, ihc hch, ihs hsib, Prod.mk.injEq]
    constructor
    · rintro (⟨rfl, rfl, rfl⟩ | ⟨w, rfl, hw⟩ | ⟨w, rfl, hw⟩)
      · exact ⟨label d, rfl, nodeAt_self _ _ _⟩
      · have hw0 := ne_nil_of_nodeAt hch hw
        exact ⟨label d₀ ++ w, by rw [append_assoc], by rwa [nodeAt_below _ _ _ hw0]⟩
      · exact ⟨w, rfl, nodeAt_lift ⟨hd, happ, hch, hsib⟩ hw⟩
    · rintro ⟨w, rfl, hw⟩
      rcases nodeAt_cases ⟨hd, happ, hch, hsib⟩ hw with ⟨rfl, rfl, rfl⟩ | ⟨w', -, rfl, h'⟩ |
        ⟨-, -, h'⟩
      · exact .inl ⟨rfl, rfl, rfl⟩
      · exact .inr (.inl ⟨w', by rw [append_assoc], h'⟩)
      · exact .inr (.inr ⟨w, rfl, h'⟩)

theorem exists_lowest (hf : f.WF label) (hw : f.nodeAt label w = some (d, ch)) (hd : P d) :
    ∃ v e c, f.nodeAt label v = some (e, c) ∧ P e ∧ ∀ x ∈ c.topData, ¬ P x := by
  classical
  induction f generalizing w d ch with
  | nil => cases hw
  | node d₀ ch₀ sib₀ ihc ihs =>
    have hlift : ∀ {v e c}, ch₀.nodeAt label v = some (e, c) → P e → (∀ x ∈ c.topData, ¬ P x) →
        ∃ v e c, (node d₀ ch₀ sib₀).nodeAt label v = some (e, c) ∧ P e ∧ ∀ x ∈ c.topData, ¬ P x := by
      intro v e c hv he hc
      have hv0 := ne_nil_of_nodeAt hf.2.2.1 hv
      exact ⟨label d₀ ++ v, e, c, by rwa [nodeAt_below _ _ _ hv0], he, hc⟩
    rcases nodeAt_cases hf hw with ⟨rfl, rfl, rfl⟩ | ⟨w', -, rfl, h'⟩ | ⟨h0, -, h'⟩
    · by_cases hkid : ∃ x ∈ ch.topData, P x
      · obtain ⟨x, hx, hPx⟩ := hkid
        obtain ⟨c, hv⟩ := nodeAt_of_mem_topData hf.2.2.1 hx
        obtain ⟨v, e, c, hv, he, hc⟩ := ihc hf.2.2.1 hv hPx
        exact hlift hv he hc
      · simp only [not_exists, not_and] at hkid
        exact ⟨label d, d, ch, nodeAt_self _ _ _, hd, hkid⟩
    · obtain ⟨v, e, c, hv, he, hc⟩ := ihc hf.2.2.1 h' hd
      exact hlift hv he hc
    · obtain ⟨v, e, c, hv, he, hc⟩ := ihs hf.2.2.2 h' hd
      exact ⟨v, e, c, nodeAt_lift hf hv, he, hc⟩

theorem nodup_nodes (hf : f.WF label) (above : List α) : ((f.nodes label above).map Prod.fst).Nodup := by
  induction f generalizing above with
  | nil => exact nodup_nil
  | node d ch sib ihc ihs =>
    have hf' := hf
    obtain ⟨hd, happ, hch, hsib⟩ := hf
    have hbelow : ∀ v ∈ (ch.nodes label (above ++ label d)).map Prod.fst,
        ∃ w, w ≠ [] ∧ v = above ++ (label d ++ w) := by
      intro v hv
      obtain ⟨⟨_, e, c⟩, hx, rfl⟩ := mem_map.1 hv
      obtain ⟨w, rfl, hw⟩ := (mem_nodes hch).1 hx
      exact ⟨w, ne_nil_of_nodeAt hch hw, by simp⟩
    have hbeside : ∀ v ∈ (sib.nodes label above).map Prod.fst,
        ∃ w, common (label d) w = 0 ∧ v = above ++ w := by
      intro v hv
      obtain ⟨⟨_, e, c⟩, hx, rfl⟩ := mem_map.1 hv
      obtain ⟨w, rfl, hw⟩ := (mem_nodes hsib).1 hx
      exact ⟨w, (common_eq_zero_of_beside hf' hw).1, rfl⟩
    have hapart : ∀ r w, common (label d) w = 0 → label d ++ r ≠ w := by
      rintro r _ h0 rfl
      rw [common_comm, common_of_isPrefix (prefix_append (label d) r)] at h0
      exact hd (eq_nil_of_length_eq_zero h0)
    simp only [nodes, map_cons, map_append, nodup_cons, mem_append, not_or]
    refine ⟨⟨?_, ?_⟩, nodup_append.2 ⟨ihc hch _, ihs hsib _, ?_⟩⟩
    · intro hv
      obtain ⟨w, hw, heq⟩ := hbelow _ hv
      have := append_cancel_left heq
      exact hw (by simpa using this)
    · intro hv
      obtain ⟨w, h0, heq⟩ := hbeside _ hv
      exact hapart [] w h0 (by simpa using heq)
    · intro v hv v' hv' heq
      obtain ⟨w, -, rfl⟩ := hbelow _ hv
      obtain ⟨w', h0, rfl⟩ := hbeside _ hv'
      exact hapart w w' h0 (append_cancel_left heq)

/-- **Accounts**: a count that an insertion carries along moves with a measure over all nodes if every
    step on the way keeps the account. -/
theorem total_insert {σ : Type} (I : Insertion σ α δ) (c : σ → Nat) (m : δ → Nat)
    (hsplit : ∀ s d n, c (I.split s d n).1 = c s ∧ m (I.split s d n).2.1 + m (I.split s d n).2.2 = m d)
    (hpass : ∀ s d r, c (I.pass s d r).1 + m d = c s + m (I.pass s d r).2)
    (hleaf : ∀ s k r, c (I.leaf s k r).1 = c s + m (I.leaf s k r).2)
    (f : Forest δ) (s : σ) (k : Nat) (w : List α) :
    c (f.insert label I s k w).1 + f.total m = c s + (f.insert label I s k w).2.total m := by
  induction f generalizing s k w with
  | nil =>
    have := hleaf s k w
    simp only [insert, total]
    omega
  | node d ch sib ihc ihs =>
    rcases insert_cases label I s k d ch sib w with
      ⟨-, heq⟩ | ⟨u, r, t, _, _, -, -, -, -, -, rfl, rfl, heq⟩ | ⟨t, _, -, -, rfl, heq⟩
    · have := ihs s k w
      rw [heq]
      simp only [total]
      omega
    · obtain ⟨hc, hm⟩ := hsplit s d u.length
      have hp := hpass (I.split s d u.length).1 (I.split s d u.length).2.1 t
      have hl := hleaf (I.pass (I.split s d u.length).1 (I.split s d u.length).2.1 t).1
        (k + u.length) t
      rw [heq]
      split <;> simp only [total] <;> omega
    · have hp := hpass s d t
      have := ihc (I.pass s d t).1 (k + (label d).length) t
      rw [heq]
      split <;> simp only [total] <;> omega

end Radix.Forest
