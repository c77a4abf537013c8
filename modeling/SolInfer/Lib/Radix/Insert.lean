import SolInfer.Lib.Radix

set_option autoImplicit false

/-! # Insertion into a radix tree

An insertion follows the edges that the word runs through, splits the edge on which it ends or leaves, and
puts what is left of the word on a new leaf. What it does to the data of the nodes, and a state that it
carries along, are parameters (`Insertion`); if they keep to the labels and to what the nodes pay
(`Insertion.Lawful`), the map of the forest afterwards is the map before with the word stored
(`Forest.get_insert`). -/

open List

namespace Radix

variable {α β δ σ : Type} [DecidableEq α]

/-- What an insertion does to the data of the nodes on its way.
  * `split s d n` makes an upper and a lower node from one whose edge is cut after `n` letters;
  * `pass s d r` is done to a node whose edge the word runs through, with `r` still to come;
  * `leaf s k r` is the new node for the rest `r` of the word, of which `k` letters were found. -/
structure Insertion (σ α δ : Type) where
  split : σ → δ → Nat → σ × δ × δ
  pass : σ → δ → List α → σ × δ
  leaf : σ → Nat → List α → σ × δ

variable (label : δ → List α) {f : Forest δ}

def Forest.insert (I : Insertion σ α δ) : σ → Nat → Forest δ → List α → σ × Forest δ
  | s, k, .nil, w =>
    let (s, new) := I.leaf s k w
    (s, .node new .nil .nil)
  | s, k, .node d ch sib, w =>
    let n := common (label d) w
    let rest := w.drop n
    if n = 0 then
      let (s, sib) := sib.insert I s k w
      (s, .node d ch sib)
    else if n < (label d).length then
      let (s, upper, lower) := I.split s d n
      let (s, upper) := I.pass s upper rest
      if rest = [] then (s, .node upper (.node lower ch .nil) sib)
      else
        -- the rest starts apart from the lower node, which is the only child
        let (s, new) := I.leaf s (k + n) rest
        (s, .node upper (.node lower ch (.node new .nil .nil)) sib)
    else
      let (s, d) := I.pass s d rest
      if rest = [] then (s, .node d ch sib)
      else
        let (s, ch) := ch.insert I s (k + n) rest
        (s, .node d ch sib)

theorem Forest.insert_cases (I : Insertion σ α δ) (s : σ) (k : Nat) (d : δ) (ch sib : Forest δ)
    (w : List α) :
    (common (label d) w = 0 ∧ (Forest.node d ch sib).insert label I s k w =
      ((sib.insert label I s k w).1, .node d ch (sib.insert label I s k w).2)) ∨
    (∃ u r t x upper, u ≠ [] ∧ r ≠ [] ∧ label d = u ++ r ∧ w = u ++ t ∧ common r t = 0 ∧
      x = I.split s d u.length ∧ upper = I.pass x.1 x.2.1 t ∧
      (Forest.node d ch sib).insert label I s k w =
        (if t = [] then upper.1 else (I.leaf upper.1 (k + u.length) t).1,
          .node upper.2 (.node x.2.2 ch
            (if t = [] then .nil else .node (I.leaf upper.1 (k + u.length) t).2 .nil .nil)) sib)) ∨
    ∃ t y, label d ≠ [] ∧ w = label d ++ t ∧ y = I.pass s d t ∧
      (Forest.node d ch sib).insert label I s k w =
        (if t = [] then y.1 else (ch.insert label I y.1 (k + (label d).length) t).1,
          .node y.2 (if t = [] then ch else (ch.insert label I y.1 (k + (label d).length) t).2) sib) := by
  obtain ⟨u, r, t, hlab, rfl, hlen, hapart⟩ := exists_common (label d) w
  by_cases hu : u = []
  · refine .inl ⟨by simpa [hu] using hlen, ?_⟩
    have h0 : common (label d) (u ++ t) = 0 := by simpa [hu] using hlen
    simp [Forest.insert, h0]
  have hu0 : u.length ≠ 0 := by simpa using hu
  by_cases hr : r = []
  · refine .inr (.inr ⟨t, _, by simp [hlab, hu], by simp [hlab, hr], rfl, ?_⟩)
    have hld : (label d).length = u.length := by simp [hlab, hr]
    rw [Forest.insert]
    simp only [hlen, drop_left, if_neg hu0, hld, lt_irrefl, if_false]
    split <;> rfl
  · have hlt : u.length < (label d).length := by
      have : r.length ≠ 0 := by simpa using hr
      rw [hlab, length_append]
      omega
    refine .inr (.inl ⟨u, r, t, _, _, hu, hr, hlab, rfl, hapart, rfl, rfl, ?_⟩)
    rw [Forest.insert]
    simp only [hlen, drop_left, if_neg hu0, hlt, if_true]
    split <;> rfl

theorem Forest.insert_state (I : Insertion σ α δ) {P : σ → Prop}
    (hsplit : ∀ s d n, P s → P (I.split s d n).1) (hpass : ∀ s d r, P s → P (I.pass s d r).1)
    (hleaf : ∀ s k r, P s → P (I.leaf s k r).1) (f : Forest δ) {s : σ} (k : Nat) (w : List α)
    (hs : P s) : P (f.insert label I s k w).1 := by
  induction f generalizing s k w with
  | nil => exact hleaf s k w hs
  | node d ch sib ihc ihs =>
    rcases Forest.insert_cases label I s k d ch sib w with
      ⟨-, heq⟩ | ⟨u, r, t, _, _, -, -, -, -, -, rfl, rfl, heq⟩ | ⟨t, _, -, -, rfl, heq⟩
    · rw [heq]
      exact ihs k w hs
    · rw [heq]
      have hp := hpass _ (I.split s d u.length).2.1 t (hsplit s d u.length hs)
      split
      · exact hp
      · exact hleaf _ _ _ hp
    · rw [heq]
      have hp := hpass s d t hs
      split
      · exact hp
      · exact ihc _ _ hp

/-- The insertion keeps labels and payments together: passing changes a payment by `kept`, and the new leaf
    pays `fresh` of the place in the word. -/
structure Insertion.Lawful (I : Insertion σ α δ) (pay : δ → Nat → β) (kept : β → β)
    (fresh : Nat → β) : Prop where
  label_upper : ∀ s d n, label (I.split s d n).2.1 = (label d).take n
  label_lower : ∀ s d n, label (I.split s d n).2.2 = (label d).drop n
  label_pass : ∀ s d r, label (I.pass s d r).2 = label d
  label_leaf : ∀ s k r, label (I.leaf s k r).2 = r
  pay_upper : ∀ s d n m, 1 ≤ m → m ≤ n → pay (I.split s d n).2.1 m = pay d m
  pay_lower : ∀ s d n m, 1 ≤ m → pay (I.split s d n).2.2 m = pay d (n + m)
  pay_pass : ∀ s d r m, pay (I.pass s d r).2 m = kept (pay d m)
  pay_leaf : ∀ s k r m, 1 ≤ m → m ≤ r.length → pay (I.leaf s k r).2 m = fresh (k + m)

section Insert

variable {label} {I : Insertion σ α δ} {pay : δ → Nat → β} {kept : β → β} {fresh : Nat → β} {w : List α}

theorem edge_congr {l : List α} {on on' : Nat → β} (below beside : List α → Option β)
    (h : ∀ n, 1 ≤ n → n ≤ l.length → on n = on' n) : edge l on below beside = edge l on' below beside := by
  funext p
  unfold edge
  split
  · rfl
  next h0 =>
    split
    next hp =>
      have hle := common_le_left l p
      rw [h p.length (by omega) (by omega)]
    · rfl

theorem edge_leaf (hw : w ≠ []) (kept : β → β) (fresh : Nat → β) :
    edge w fresh (fun _ => none) (fun _ => none) = put w kept fresh fun _ => none := by
  funext p
  rcases word_cases w p with h | ⟨hp, h⟩ | ⟨q, hq, -, rfl⟩ | ⟨u, r, s, hu, hr, hs, hapart, rfl, rfl⟩
  · rw [edge_beside h]
    by_cases hp : p = []
    · simp [put, hp]
    · rw [put_of_not_isPrefix]
      exact fun hpre => common_ne_zero_of_isPrefix (r := []) hw hp (by simpa using hpre) h
  · rw [edge_on hp h, put_of_isPrefix hp h]
    rfl
  · rw [edge_below hw hq, put_of_not_isPrefix]
    intro hpre
    have := hpre.length_le
    rw [length_append] at this
    exact hq (eq_nil_of_length_eq_zero (by omega))
  · rw [edge_apart hu hr hs hapart, put_of_not_isPrefix]
    exact fun hpre => common_ne_zero_of_isPrefix (r := []) hr hs (by simpa using hpre) hapart

section

variable (hI : I.Lawful label pay kept fresh)
include hI

/-- **Insertion stores the word.** -/
theorem Forest.get_insert (hf : f.WF label) (s : σ) (k : Nat) (hw : w ≠ []) :
    (f.insert label I s k w).2.get label pay =
      put w kept (fun n => fresh (k + n)) (f.get label pay) := by
  have hleaf : ∀ s k {w : List α}, w ≠ [] →
      edge (label (I.leaf s k w).2) (pay (I.leaf s k w).2) (fun _ => none) (fun _ => none) =
        put w kept (fun n => fresh (k + n)) fun _ => none := by
    intro s k w hw
    rw [hI.label_leaf, ← edge_leaf hw kept]
    exact edge_congr _ _ fun n h1 hn => hI.pay_leaf s k w n h1 hn
  induction f generalizing s k w with
  | nil => exact hleaf s k hw
  | node d ch sib ihc ihs =>
    obtain ⟨hl, -, hch, hsib⟩ := hf
    rcases Forest.insert_cases label I s k d ch sib w with
      ⟨h0, heq⟩ | ⟨u, r, t, _, _, hu, hr, hlab, rfl, hapart, rfl, rfl, heq⟩ | ⟨t, _, -, rfl, rfl, heq⟩
    · rw [heq, Forest.get, ihs hsib s k hw, edge_put_beside h0]
      rfl
    · -- cut the edge first, then run through its upper half
      have hlow : label (I.split s d u.length).2.2 = r := by rw [hI.label_lower, hlab, drop_left]
      have hup : label (I.pass (I.split s d u.length).1 (I.split s d u.length).2.1 t).2 = u := by
        rw [hI.label_pass, hI.label_upper, hlab, take_left]
      rw [heq, Forest.get, Forest.get, hup, hlow, edge_congr _ _ fun n h1 hn =>
        (hI.pay_pass _ _ t n).trans (congrArg kept (hI.pay_upper s d u.length n h1 hn)),
        edge_congr _ _ fun n h1 _ => hI.pay_lower s d u.length n h1]
      have hbelow : edge r (fun n => pay d (u.length + n)) (ch.get label pay)
          ((if t = [] then Forest.nil else .node (I.leaf (I.pass (I.split s d u.length).1
            (I.split s d u.length).2.1 t).1 (k + u.length) t).2 .nil .nil).get label pay) =
          put t kept (fun n => fresh (k + u.length + n))
            (edge r (fun n => pay d (u.length + n)) (ch.get label pay) fun _ => none) := by
        split
        next ht => rw [ht, put_nil]; rfl
        next ht =>
          rw [← edge_put_beside hapart, ← hleaf _ (k + u.length) ht]
          rfl
      rw [hbelow, Forest.get, hlab, ← edge_split hu hr, ← edge_put_below hu]
      simp only [Nat.add_assoc]
    · have hbelow : (if t = [] then ch else
          (ch.insert label I (I.pass s d t).1 (k + (label d).length) t).2).get label pay =
          put t kept (fun n => fresh (k + (label d).length + n)) (ch.get label pay) := by
        split
        next ht => rw [ht, put_nil]
        next ht => exact ihc hch _ (k + (label d).length) ht
      rw [heq, Forest.get, hbelow, hI.label_pass]
      rw [edge_congr _ _ fun n _ _ => hI.pay_pass s d t n]
      rw [Forest.get, ← edge_put_below hl]
      simp only [Nat.add_assoc]

theorem Forest.tops_insert {l : List α} (hf : ∀ m ∈ f.tops label, common l m = 0)
    (hw : common l w = 0) (s : σ) (k : Nat) :
    ∀ m ∈ (f.insert label I s k w).2.tops label, common l m = 0 := by
  induction f generalizing s k w with
  | nil =>
    intro m hm
    simp only [Forest.insert, Forest.tops, mem_singleton, hI.label_leaf] at hm
    exact hm ▸ hw
  | node d ch sib _ ihs =>
    have hd := hf (label d) mem_cons_self
    have hrest : ∀ m ∈ sib.tops label, common l m = 0 := fun m hm => hf m (.tail _ hm)
    rcases Forest.insert_cases label I s k d ch sib w with
      ⟨h0, heq⟩ | ⟨u, r, t, _, _, hu, hr, hlab, rfl, hapart, rfl, rfl, heq⟩ | ⟨t, _, -, rfl, rfl, heq⟩
    · rw [heq]
      intro m hm
      rcases mem_cons.1 hm with rfl | hm
      · exact hd
      · exact ihs hrest hw s k m hm
    · rw [heq]
      intro m hm
      rcases mem_cons.1 hm with rfl | hm
      · rw [hI.label_pass, hI.label_upper]
        exact common_eq_zero_of_isPrefix hd (List.take_prefix _ _)
      · exact hrest m hm
    · rw [heq]
      intro m hm
      rcases mem_cons.1 hm with rfl | hm
      · rw [hI.label_pass]
        exact hd
      · exact hrest m hm

theorem Forest.wf_insert (hf : f.WF label) (s : σ) (k : Nat) (hw : w ≠ []) :
    (f.insert label I s k w).2.WF label := by
  have hleaf : ∀ s k {w : List α}, w ≠ [] → (Forest.node (I.leaf s k w).2 .nil .nil).WF label := by
    intro s k w hw
    exact ⟨by rwa [hI.label_leaf], by simp [Forest.tops], trivial, trivial⟩
  induction f generalizing s k w with
  | nil => exact hleaf s k hw
  | node d ch sib ihc ihs =>
    obtain ⟨hl, happ, hch, hsib⟩ := hf
    rcases Forest.insert_cases label I s k d ch sib w with
      ⟨h0, heq⟩ | ⟨u, r, t, _, _, hu, hr, hlab, rfl, hapart, rfl, rfl, heq⟩ | ⟨t, _, -, rfl, rfl, heq⟩
    · rw [heq]
      exact ⟨hl, Forest.tops_insert hI happ h0 s k, hch, ihs hsib s k hw⟩
    · rw [heq]
      have hlow : label (I.split s d u.length).2.2 = r := by rw [hI.label_lower, hlab, drop_left]
      have hup : label (I.pass (I.split s d u.length).1 (I.split s d u.length).2.1 t).2 = u := by
        rw [hI.label_pass, hI.label_upper, hlab, take_left]
      refine ⟨by rwa [hup], ?_, ⟨by rwa [hlow], ?_, hch, ?_⟩, hsib⟩
      · intro m hm
        rw [hup, common_comm]
        refine common_eq_zero_of_isPrefix (p := label d) ?_ (hlab ▸ prefix_append u r)
        rw [common_comm]
        exact happ m hm
      · split
        · simp [Forest.tops]
        · simp [Forest.tops, hI.label_leaf, hlow, hapart]
      · split
        · trivial
        next ht => exact hleaf _ _ ht
    · rw [heq]
      refine ⟨by rwa [hI.label_pass], by rwa [hI.label_pass], ?_, hsib⟩
      split
      · exact hch
      next ht => exact ihc hch _ _ ht

end

end Insert

/-! ## Relations between a node and its children -/

/-- Every node of the forest is related to the one above it, which is `top` on the highest level. -/
def Forest.Under (R : δ → δ → Prop) : δ → Forest δ → Prop
  | _, .nil => True
  | top, .node d ch sib => R top d ∧ ch.Under R d ∧ sib.Under R top

theorem Forest.Under.mono_top {R : δ → δ → Prop} {a b : δ} (h : ∀ d, R a d → R b d)
    (hf : f.Under R a) : f.Under R b := by
  induction f with
  | nil => trivial
  | node d ch sib _ ihs => exact ⟨h d hf.1, hf.2.1, ihs hf.2.2⟩

/-- What a relation between nodes and their children needs to survive an insertion; `Q a b` says that the
    insertion has passed `a` and left `b`. -/
structure Insertion.Respects (I : Insertion σ α δ) (R Q : δ → δ → Prop) : Prop where
  passed : ∀ s d r, Q d (I.pass s d r).2
  above : ∀ {a b d}, Q a b → R a d → R b d
  pass : ∀ {a b d} s r, Q a b → R a d → R b (I.pass s d r).2
  upper : ∀ {a b d} s s' r n, Q a b → R a d → R b (I.pass s (I.split s' d n).2.1 r).2
  lower : ∀ {a d} s s' r n, R a d → R (I.pass s (I.split s' d n).2.1 r).2 (I.split s' d n).2.2
  children : ∀ {d e} s n, R d e → R (I.split s d n).2.2 e
  leaf : ∀ {a b} s k r, Q a b → R b (I.leaf s k r).2
  leafSplit : ∀ {a d} s s' s'' k r n, R a d → R (I.pass s (I.split s' d n).2.1 r).2 (I.leaf s'' k r).2

theorem Forest.Under.insert {I : Insertion σ α δ} {R Q : δ → δ → Prop} (hR : I.Respects R Q) {a b : δ}
    (hab : Q a b) (hf : f.Under R a) (s : σ) (k : Nat) (w : List α) :
    (f.insert label I s k w).2.Under R b := by
  induction f generalizing s k w a b with
  | nil => exact ⟨hR.leaf s k w hab, trivial, trivial⟩
  | node d ch sib ihc ihs =>
    obtain ⟨hd, hch, hsib⟩ := hf
    have hbeside : sib.Under R b := hsib.mono_top fun _ h => hR.above hab h
    rcases Forest.insert_cases label I s k d ch sib w with
      ⟨h0, heq⟩ | ⟨u, r, t, _, _, hu, hr, hlab, rfl, hapart, rfl, rfl, heq⟩ | ⟨t, _, -, rfl, rfl, heq⟩
    · rw [heq]
      exact ⟨hR.above hab hd, hch, ihs hab hsib s k w⟩
    · rw [heq]
      refine ⟨hR.upper _ _ _ _ hab hd, ⟨hR.lower _ _ _ _ hd, ?_, ?_⟩, hbeside⟩
      · exact hch.mono_top fun _ h => hR.children _ _ h
      · split
        · trivial
        · exact ⟨hR.leafSplit _ _ _ _ _ _ hd, trivial, trivial⟩
    · rw [heq]
      refine ⟨hR.pass _ _ hab hd, ?_, hbeside⟩
      split
      · exact hch.mono_top fun _ h => hR.above (hR.passed s d t) h
      · exact ihc (hR.passed s d t) hch _ _ t

end Radix
