import SolInfer.Speculative.EagleTree.Request

set_option autoImplicit false

/-! # Building trees and reading them back: proofs

Every thread finds parents in the tree of its request: the first one links the tokens of its block, the
others climb to the root. Their cells do not overlap, so the launch leaves the tree in the tensors. A mask
of the draft tokens has the chains of its trees in it, and the verifier walks down a tree along what the
target model predicts. -/

open List Function

namespace Eagle

open ParentTree Grid

section Building

variable {x : Selection} {topk depth n b i : Nat} {r : Request topk depth n}

/-! ## Parents -/

section

variable (h : Reads x b r)
include h

theorem Reads.cell_eq (hi : i < n) : rowCell b n i = b * n + i := by
  have := h.tokens_le
  exact rowCell_eq (by omega)

theorem Reads.int32_candidate {p : Nat} (hp : p ∈ r.selected) {k : Nat} (hk : k ≤ p) : int32 k = k := by
  have := r.lt_size p hp
  have := h.size_le
  exact int32_eq (by omega) (by omega)

theorem Reads.seqLen_eq : Eagle.seqLen x b = r.prefixIds.length := by
  have := h.position_lt
  rw [Eagle.seqLen, h.seqLen, int32_eq (by omega) (by omega)]

theorem parentTbIdx_eq {p c : Nat} (hc : r.selected[p]? = some c) :
    parentTbIdx x topk n b p = ((c / topk : Nat) : Int) := by
  rw [parentTbIdx, h.selected p c hc, ← Int.ofNat_tdiv,
    h.int32_candidate (mem_of_getElem? hc) (Nat.div_le_self c topk)]

theorem findSelected_eq {p : Nat} (hp : p ∈ r.selected) :
    findSelected x n b (p : Int) = r.selected.idxOf p := by
  have hidx := idxOf_lt_length_iff.2 hp
  have hlen := r.length_selected
  have hlt : r.selected.idxOf p < (range n).length := by
    rw [length_range]
    omega
  rw [findSelected, findIdx_eq hlt]
  refine ⟨?_, fun j hj => ?_⟩
  · rw [getElem_range, decide_eq_true_eq]
    exact h.selected _ p (Request.selected_idxOf hp)
  · have hjlt : j < r.selected.length := by omega
    rw [getElem_range, decide_eq_false_iff_not, h.selected j _ (getElem?_eq_getElem hjlt)]
    have hlt := pairwise_iff_getElem.1 r.increasing j _ hjlt hidx hj
    rw [getElem_idxOf] at hlt
    omega

theorem slot_cases (hi : i + 1 < n) :
    (parentTbIdx x topk n b i = 0 ∧ r.par (i + 1) = 0) ∨
      (0 < parentTbIdx x topk n b i ∧ 0 < r.par (i + 1) ∧
        findSelected x n b (parentTokenIdx x topk depth b (parentTbIdx x topk n b i)) + 1 = r.par (i + 1)) := by
  obtain ⟨c, hc, hmem⟩ := Request.exists_selected (r := r) hi
  rw [parentTbIdx_eq h hc]
  by_cases hslot : c / topk = 0
  · left
    refine ⟨by rw [hslot]; rfl, Request.par_of_none hc ?_⟩
    rw [Draft.parent, if_pos hslot]
  · right
    obtain ⟨p, hlist, hp, -⟩ := Draft.parent_spec (d := r.draft) (r.lt_size c hmem) hslot
    have hsel := r.closed c hmem p hp
    rw [Request.par_of_some hc hp, parentTokenIdx, h.parents _ _ hlist, h.int32_candidate hsel le_rfl,
      findSelected_eq h hsel]
    exact ⟨Int.natCast_pos.2 (Nat.pos_of_ne_zero hslot), Nat.succ_pos _, rfl⟩

/-- **The first thread finds every parent.** -/
theorem parentPosition_eq (h0 : 0 < i) (hi : i < n) : parentPosition x topk depth n b i = r.par i := by
  obtain ⟨i, rfl⟩ : ∃ j, i = j + 1 := ⟨i - 1, by omega⟩
  have hlt := r.ordered (i + 1) h0 hi
  unfold parentPosition
  simp only [Nat.add_sub_cancel]
  rcases slot_cases h hi with ⟨hslot, hpar⟩ | ⟨hslot, hpos, hpar⟩
  · rw [hslot, if_neg (by omega), hpar]
  · rw [if_pos hslot, if_pos (by omega), hpar]

/-- **The other threads climb to the root**, in no more rounds than there are tokens. -/
theorem climb_eq {M : Type} (mark : Nat → M → M) {fuel : Nat} (hi : i + 1 < n)
    (hfuel : i + 1 ≤ fuel) (mask : M) (position : Nat) :
    climb x topk depth n b mark fuel i mask position =
      some ((rootPath r.par (i + 1)).tail.foldr (fun j m => mark (j - 1) m) mask,
        position + ((rootPath r.par (i + 1)).length - 1)) := by
  induction fuel generalizing i mask position with
  | zero => omega
  | succ fuel ih =>
    have hlt := r.ordered (i + 1) (Nat.succ_pos i) hi
    rw [climb, r.ordered.rootPath_eq (Nat.succ_pos i) hi]
    rcases slot_cases h hi with ⟨hslot, hpar⟩ | ⟨hslot, hpos, hpar⟩
    · rw [if_pos hslot, hpar, rootPath_zero]
      rfl
    · rw [if_neg (by omega)]
      obtain ⟨q, hq⟩ : ∃ q, r.par (i + 1) = q + 1 := ⟨r.par (i + 1) - 1, by omega⟩
      rw [hq] at hpar ⊢
      rw [Nat.succ.inj hpar, ih (by omega) (by omega)]
      -- the path of the parent is not empty
      have hne : rootPath r.par (q + 1) ≠ [] := ne_nil_of_mem (self_mem_rootPath _ _)
      have hlen := length_pos_of_ne_nil hne
      rw [tail_append_of_ne_nil hne, foldr_append, length_append, length_singleton]
      refine congrArg some (Prod.ext rfl ?_)
      simp only
      omega

/-! ## Linking -/

/-- The rows of a block hold two functions of its tokens, the first of them within 32 bits. -/
structure RowsHold (o : Retrive) (b n : Nat) (s : (Nat → Int) × (Nat → Int)) : Prop where
  nextToken : ∀ j < n, o.retriveNextToken (b * n + j) = s.1 j
  nextSibling : ∀ j < n, o.retriveNextSibling (b * n + j) = s.2 j
  int32 : ∀ j < n, Grid.int32 (s.1 j) = s.1 j

theorem linkToken_row (h0 : 0 < i) (hi : i < n) {o : Retrive} {s : (Nat → Int) × (Nat → Int)}
    (hs : RowsHold o b n s) : RowsHold (linkToken x topk depth n b i o) b n (linkStep r.par s i) := by
  have hlt := r.ordered i h0 hi
  have hset : ∀ j < n, int32 (update s.1 (r.par i) (i : Int) j) = update s.1 (r.par i) (i : Int) j := by
    intro j hj
    by_cases hjp : j = r.par i
    · have := h.tokens_le
      rw [hjp, update_self, int32_eq (by omega) (by omega)]
    · rw [update_of_ne hjp, hs.int32 j hj]
  have hupd : ∀ (f g : Nat → Int) (k : Nat) (v : Int), (∀ j < n, f (b * n + j) = g j) →
      ∀ j < n, update f (b * n + k) v (b * n + j) = update g k v j := by
    intro f g k v hfg j hj
    by_cases hjk : j = k
    · subst hjk
      simp
    · rw [update_of_ne (by omega), update_of_ne hjk, hfg j hj]
  unfold linkToken
  simp only [parentPosition_eq h h0 hi, h.cell_eq hi, h.cell_eq (show r.par i < n by omega)]
  rw [if_neg (by omega), hs.nextToken _ (by omega), hs.int32 _ (by omega)]
  simp only [linkStep]
  split
  · exact ⟨hupd _ _ _ _ hs.nextToken, hs.nextSibling, hset⟩
  · exact ⟨hupd _ _ _ _ hs.nextToken, hupd _ _ _ _ hs.nextSibling, hset⟩

end

theorem linkToken_index (x : Selection) (topk depth n b i : Nat) (o : Retrive) :
    (linkToken x topk depth n b i o).retriveIndex =
      update o.retriveIndex (rowCell b n i) (int32 (b * n + i : Nat)) ∧
    (linkToken x topk depth n b i o).positions = o.positions := by
  unfold linkToken
  simp only
  split
  · exact ⟨rfl, rfl⟩
  · split <;> exact ⟨rfl, rfl⟩

/-- The rounds of the first thread, from the last token to `m`. -/
theorem foldr_linkToken (h : Reads x b r) {m k : Nat} (hm : 0 < m) (hk : m + k = n) {o : Retrive}
    {s : (Nat → Int) × (Nat → Int)} (hs : RowsHold o b n s) :
    RowsHold ((range' m k).foldr (linkToken x topk depth n b) o) b n
        ((range' m k).foldr (fun i s => linkStep r.par s i) s) ∧
      ∀ j, m ≤ j → j < n →
        ((range' m k).foldr (linkToken x topk depth n b) o).retriveIndex (b * n + j) =
          ((b * n + j : Nat) : Int) := by
  induction k generalizing m with
  | zero => exact ⟨hs, fun j hj hjn => by omega⟩
  | succ k ih =>
    obtain ⟨hrows, hindices⟩ := ih (m := m + 1) (by omega) (by omega)
    rw [range'_succ, foldr_cons, foldr_cons]
    refine ⟨linkToken_row h hm (by omega) hrows, fun j hj hjn => ?_⟩
    have hle := h.tokens_le
    rw [(linkToken_index ..).1, h.cell_eq (show m < n by omega), int32_eq (by omega) (by omega)]
    by_cases hjm : j = m
    · subst hjm
      simp
    · rw [update_of_ne (by omega), hindices j (by omega) hjn]

/-- Whether the rows of a block hold its tree. -/
structure Linked (o : Retrive) (b : Nat) (r : Request topk depth n) : Prop where
  index : ∀ i < n, o.retriveIndex (b * n + i) = ((b * n + i : Nat) : Int)
  nextToken : ∀ i < n, o.retriveNextToken (b * n + i) = link (nextToken r.par n i)
  nextSibling : ∀ i < n, o.retriveNextSibling (b * n + i) = link (nextSibling r.par n i)

/-- **The first thread links the tokens of its block.** -/
theorem linkTokens_linked (h : Reads x b r) {o : Retrive} (hnt : ∀ i < n, o.retriveNextToken (b * n + i) = -1)
    (hns : ∀ i < n, o.retriveNextSibling (b * n + i) = -1) : Linked (linkTokens x topk depth n b o) b r := by
  have hn := r.length_selected
  have hle := h.tokens_le
  unfold linkTokens
  simp only [h.cell_eq (show 0 < n by omega), int32_eq (show (-1 : Int) ≤ (b * n : Nat) by omega) (by omega)]
  have hnone : ∀ i < n, (fun _ : Nat => (-1 : Int)) i = -1 := fun _ _ => rfl
  have hempty : RowsHold { o with positions := update o.positions (b * n + 0) (seqLen x b) } b n
      (fun _ => -1, fun _ => -1) :=
    ⟨hnt, hns, fun _ _ => show int32 (-1) = -1 from int32_eq le_rfl (by decide)⟩
  obtain ⟨hrows, hindices⟩ := foldr_linkToken h Nat.one_pos (show 1 + (n - 1) = n by omega) hempty
  have hlinked := fun i (hi : i < n) => r.ordered.linked hnone hnone hi
  refine ⟨fun i hi => ?_, fun i hi => ?_, fun i hi => ?_⟩
  · rcases Nat.eq_zero_or_pos i with rfl | h0
    · simp
    · simp only
      rw [update_of_ne (by omega), hindices i h0 hi]
  · exact (hrows.nextToken i hi).trans (hlinked i hi).1
  · exact (hrows.nextSibling i hi).trans (hlinked i hi).2

theorem linkTokens_positions (h : Reads x b r) (o : Retrive) :
    (linkTokens x topk depth n b o).positions = update o.positions (b * n) (seqLen x b) := by
  unfold linkTokens
  simp only
  have hfold : ∀ (l : List Nat) (o : Retrive),
      (l.foldr (linkToken x topk depth n b) o).positions = o.positions := by
    intro l o
    induction l with
    | nil => rfl
    | cons i rest ih => rw [foldr_cons, (linkToken_index ..).2, ih]
  have hn := r.length_selected
  rw [hfold, h.cell_eq (show 0 < n by omega)]
  rfl

def Retrive.chains (o : Retrive) (a : Nat) : Int × Int × Int :=
  (o.retriveIndex a, o.retriveNextToken a, o.retriveNextSibling a)

theorem linkToken_frame {a : Nat} (hi : i < n) (ha : ∀ j < n, a ≠ rowCell b n j) (o : Retrive) :
    (linkToken x topk depth n b i o).chains a = o.chains a := by
  have hp : parentPosition x topk depth n b i ≤ n := by
    unfold parentPosition
    dsimp only
    split
    · have hle : findSelected x n b (parentTokenIdx x topk depth b (parentTbIdx x topk n b (i - 1))) ≤ n :=
        findIdx_le_length.trans_eq length_range
      split <;> omega
    · exact Nat.zero_le n
  have hai := ha i hi
  unfold linkToken
  simp only [Retrive.chains]
  split
  · simp [update_of_ne hai]
  next hne =>
    have hap := ha (parentPosition x topk depth n b i) (by omega)
    split <;> simp [update_of_ne hai, update_of_ne hap]

theorem linkTokens_frame {a : Nat} (hn : 0 < n) (ha : ∀ j < n, a ≠ rowCell b n j) (o : Retrive) :
    (linkTokens x topk depth n b o).chains a = o.chains a := by
  have hfold : ∀ (l : List Nat) (o : Retrive), (∀ i ∈ l, i < n) →
      (l.foldr (linkToken x topk depth n b) o).chains a = o.chains a := by
    intro l o hl
    induction l with
    | nil => rfl
    | cons i rest ih =>
      rw [foldr_cons, linkToken_frame (hl i mem_cons_self) ha]
      exact ih fun j hj => hl j (.tail _ hj)
  unfold linkTokens
  have hrow := ha 0 hn
  have := hfold (range' 1 (n - 1))
    { o with positions := update o.positions (rowCell b n 0) (seqLen x b) }
    fun i hi => by rw [mem_range'_1] at hi; omega
  simp only [Retrive.chains, update_of_ne hrow] at this ⊢
  simpa using this

/-! ## Threads -/

/-- **What a thread of a builder does**: it marks the path of its token and writes its depth; the first one
    links the tokens. -/
theorem treeThread_eq (h : Reads x b r) {M : Type} (init : M → M) (mark : Nat → M → M) (hi : i < n)
    (s : M × Retrive) :
    ∃ o, treeThread x topk depth n b init mark i s =
        some ((rootPath r.par i).tail.foldr (fun j m => mark (j - 1) m) (init s.1), o) ∧
      o.positions = update s.2.positions (b * n + i)
        ((r.prefixIds.length + ((rootPath r.par i).length - 1) : Nat) : Int) ∧
      (0 < i → o.chains = s.2.chains) ∧ (i = 0 → o = linkTokens x topk depth n b s.2) := by
  cases i with
  | zero =>
    refine ⟨linkTokens x topk depth n b s.2, ?_, ?_, fun h => absurd h (by omega), fun _ => rfl⟩
    · rw [treeThread, if_neg (by omega)]
      simp [rootPath_zero]
    · rw [linkTokens_positions h, h.seqLen_eq, rootPath_zero]
      simp
  | succ i =>
    rw [treeThread, if_neg (by omega)]
    simp only
    rw [if_neg (by omega), Nat.add_sub_cancel, climb_eq h mark hi (by omega)]
    refine ⟨_, rfl, ?_, fun _ => rfl, fun h => absurd h (by omega)⟩
    have hlen := Request.length_rootPath_le (r := r) hi
    have hlt := h.position_lt
    simp only
    rw [h.seqLen_eq, h.cell_eq hi, ← Int.natCast_add, int32_eq (by omega) (by omega)]
    congr 2
    omega

/-! ## Rows of a mask -/

theorem foldr_update_true (l : List Nat) (f : Nat → Nat) (m : Nat → Bool) (a : Nat) :
    l.foldr (fun j m => update m (f j) true) m a = (decide (∃ j ∈ l, f j = a) || m a) := by
  induction l with
  | nil => simp
  | cons j rest ih =>
    rw [foldr_cons]
    by_cases hj : a = f j
    · subst hj
      simp
    · rw [update_of_ne hj, ih]
      simp [Ne.symm hj]

theorem foldl_update_false (f : Nat → Nat) (k : Nat) (m : Nat → Bool) (a : Nat) :
    (range k).foldl (fun m i => update m (f i) false) m a = (m a && decide (∀ i < k, f i ≠ a)) := by
  induction k with
  | zero => simp
  | succ k ih =>
    rw [range_succ, foldl_append, foldl_cons, foldl_nil]
    by_cases hk : a = f k
    · subst hk
      rw [update_self, decide_eq_false fun h => h k (Nat.lt_succ_self k) rfl, Bool.and_false]
    · rw [update_of_ne hk, ih]
      simp only [Nat.lt_succ_iff_lt_or_eq, or_imp, forall_and, forall_eq, ne_eq, Ne.symm hk, not_false_eq_true,
        and_true]

variable (base : Int)

theorem clearRow_eq (m : Nat → Bool) (a : Nat) :
    clearRow n (int32 (base + 1)) m a =
      (update m (cell base) true a && decide (∀ i < n - 1, cell (base + (i + 1 : Nat)) ≠ a)) := by
  have hcell : ∀ i : Nat, cell (int32 (base + 1) + i) = cell (base + (i + 1 : Nat)) := by
    intro i
    rw [cell_int32_add, Int.natCast_succ, add_assoc, add_comm 1]
  rw [clearRow, foldl_update_false fun i => cell (int32 (base + 1) + i), sub_eq_add_neg, cell_int32_add,
    add_neg_cancel_right]
  simp only [hcell]

theorem foldr_markColumn (l : List Nat) (hl : ∀ j ∈ l, 0 < j) (m : Nat → Bool) (a : Nat) :
    l.foldr (fun j m => markColumn (int32 (base + 1)) (j - 1) m) m a =
      (decide (∃ j ∈ l, cell (base + j) = a) || m a) := by
  simp only [markColumn, foldr_update_true]
  congr 2
  refine propext (exists_congr fun j => and_congr_right fun hj => ?_)
  have := hl j hj
  rw [cell_int32_add, show base + 1 + ((j - 1 : Nat) : Int) = base + j by omega]

theorem exists_mem_tail (hi : i < n) {P : Nat → Prop} {k : Nat} (hP : ∀ j < n, P j ↔ j = k) (h0 : 0 < k) :
    (∃ j ∈ (rootPath r.par i).tail, P j) ↔ k ∈ rootPath r.par i := by
  have hlt : ∀ j ∈ rootPath r.par i, j < n := fun j hj =>
    (r.ordered.le_of_mem_rootPath hi j hj).trans_lt hi
  simp only [r.ordered.mem_tail_rootPath hi]
  constructor
  · rintro ⟨j, ⟨hj, -⟩, hPj⟩
    rwa [← (hP j (hlt j hj)).1 hPj]
  · exact fun hk => ⟨k, ⟨hk, h0⟩, (hP k (hlt k hk)).2 rfl⟩

theorem not_exists_mem_tail (hi : i < n) {P : Nat → Prop} (h : ∀ k < n, ¬ P k) :
    ¬ ∃ j ∈ (rootPath r.par i).tail, P j := by
  rintro ⟨j, hj, hP⟩
  have hle := r.ordered.le_of_mem_rootPath hi j ((r.ordered.mem_tail_rootPath hi).1 hj).1
  exact h j (by omega) hP

theorem mask_row_frame (r : Request topk depth n) (hi : i < n) (m : Nat → Bool) {a : Nat}
    (ha : ∀ k < n, a ≠ cell (base + k)) :
    (rootPath r.par i).tail.foldr (fun j m => markColumn (int32 (base + 1)) (j - 1) m)
      (clearRow n (int32 (base + 1)) m) a = m a := by
  have hpos := fun j hj => ((r.ordered.mem_tail_rootPath (j := j) hi).1 hj).2
  have h0 : a ≠ cell base := by simpa using ha 0 (by omega)
  rw [foldr_markColumn base _ hpos, clearRow_eq, update_of_ne h0,
    decide_eq_false (not_exists_mem_tail hi fun j hj heq => ha j hj heq.symm), Bool.false_or,
    decide_eq_true fun k hk => (ha (k + 1) (by omega)).symm, Bool.and_true]

theorem mask_row (r : Request topk depth n) {base : Nat} (hbase : base + n ≤ 2 ^ 31) (hi : i < n)
    (m : Nat → Bool) {k : Nat} (hk : k < n) :
    (rootPath r.par i).tail.foldr (fun j m => markColumn (int32 (base + 1)) (j - 1) m)
      (clearRow n (int32 (base + 1)) m) (base + k) = decide (k ∈ rootPath r.par i) := by
  have hpos := fun j hj => ((r.ordered.mem_tail_rootPath (j := j) hi).1 hj).2
  have hcell : ∀ j < n, cell (base + (j : Nat)) = base + j := fun j hj => by
    rw [← Int.natCast_add, cell_natCast (by omega)]
  have hbase0 : cell base = base := cell_natCast (by omega)
  rw [foldr_markColumn base _ hpos, clearRow_eq, hbase0]
  rcases Nat.eq_zero_or_pos k with rfl | h0
  · have hclear : ∀ i < n - 1, cell (base + (i + 1 : Nat)) ≠ base := fun i hi => by
      rw [hcell (i + 1) (by omega)]
      omega
    rw [Nat.add_zero, update_self, decide_eq_true hclear, decide_eq_true (r.ordered.zero_mem_rootPath hi),
      Bool.and_true, Bool.or_true]
  · have hclear : ¬ ∀ i < n - 1, cell (base + (i + 1 : Nat)) ≠ base + k := fun h =>
      h (k - 1) (by omega) (by rw [hcell (k - 1 + 1) (by omega)]; omega)
    rw [decide_eq_false hclear, Bool.and_false, Bool.or_false, decide_eq_decide,
      exists_mem_tail hi (fun j hj => by rw [hcell j hj]; omega) h0]

theorem foldr_markBit (l : List Nat) (hl : ∀ j ∈ l, 0 < j) (m : Nat → Nat) (a q : Nat) :
    (l.foldr (fun j m => markBit (int32 base) (j - 1) m) m a).testBit q =
      (decide (∃ j ∈ l, cell (base + (j / 8 : Nat)) = a ∧ j % 8 = q) || (m a).testBit q) := by
  induction l with
  | nil => simp
  | cons j rest ih =>
    have hj0 := hl j mem_cons_self
    have ih := ih fun i hi => hl i (.tail _ hi)
    rw [foldr_cons, markBit, Nat.sub_add_cancel hj0]
    simp only [cell_int32_add, mem_cons, exists_eq_or_imp]
    by_cases hj : a = cell (base + (j / 8 : Nat))
    · subst hj
      rw [update_self, Nat.testBit_or, ih, Nat.one_shiftLeft, Nat.testBit_two_pow]
      by_cases hq : j % 8 = q
      · simp [hq]
      · simp [hq]
    · rw [update_of_ne hj, ih]
      simp only [Ne.symm hj, false_and, false_or]

theorem packed_row (r : Request topk depth n) {base w : Nat} (hbase : base + w ≤ 2 ^ 31) (hi : i < n)
    (hw : n ≤ 8 * w) (m : Nat → Nat) :
    (∀ k < 8 * w, (∀ k < w, m (base + k) = 0) →
        ((rootPath r.par i).tail.foldr (fun j m => markBit (int32 base) (j - 1) m) (clearBits (int32 base) m)
          (base + k / 8)).testBit (k % 8) = decide (k ∈ rootPath r.par i)) ∧
      ∀ a, (∀ k < w, a ≠ base + k) → (rootPath r.par i).tail.foldr
        (fun j m => markBit (int32 base) (j - 1) m) (clearBits (int32 base) m) a = m a := by
  have hpos := fun j hj => ((r.ordered.mem_tail_rootPath (j := j) hi).1 hj).2
  have hcell : ∀ j < 8 * w, cell (base + (j / 8 : Nat)) = base + j / 8 := fun j hj => by
    rw [← Int.natCast_add, cell_natCast (by omega)]
  have hclear : clearBits (int32 base) m = update m base 1 := by
    rw [clearBits, cell_int32, cell_natCast (by omega)]
  rw [hclear]
  refine ⟨fun k hk hzero => ?_, fun a ha => ?_⟩
  · rw [foldr_markBit base _ hpos]
    rcases Nat.eq_zero_or_pos k with rfl | h0
    · simp [r.ordered.zero_mem_rootPath hi]
    · have hbit : (update m base 1 (base + k / 8)).testBit (k % 8) = false := by
        by_cases hk8 : k / 8 = 0
        · rw [hk8, Nat.add_zero, update_self, ← Bool.not_eq_true, Nat.testBit_one_eq_true_iff_self_eq_zero]
          omega
        · rw [update_of_ne (by omega), hzero (k / 8) (by omega), Nat.zero_testBit]
      rw [hbit, Bool.or_false, decide_eq_decide,
        exists_mem_tail hi (fun j hj => by rw [hcell j (by omega)]; omega) h0]
  · refine Nat.eq_of_testBit_eq fun q => ?_
    have hnone : ¬ ∃ j ∈ (rootPath r.par i).tail, cell (base + (j / 8 : Nat)) = a ∧ j % 8 = q :=
      not_exists_mem_tail hi fun j hj h => ha (j / 8) (by omega) (by rw [← h.1, hcell j (by omega)])
    rw [foldr_markBit base _ hpos, decide_eq_false hnone, Bool.false_or,
      update_of_ne (by have := ha 0 (by omega); omega)]

/-! ## Launches -/

/-- The index tensors hold the trees of a batch. -/
structure IsTree (batch : Batch topk depth n) (o : Retrive) : Prop where
  positions : ∀ (b : Fin batch.length), ∀ i < n,
    o.positions (b * n + i) =
      ((batch[b].prefixIds.length + ((rootPath batch[b].par i).length - 1) : Nat) : Int)
  linked : ∀ (b : Fin batch.length), Linked o b batch[b]

section Launch

variable {batch : Batch topk depth n} {M β : Type}

theorem Batch.reads_fin (hfits : batch.Fits) (b : Fin batch.length) : Reads batch.selection b batch[b] :=
  Batch.reads hfits (getElem?_eq_getElem b.isLt)

variable (init : Fin batch.length × Fin n → M → M) (mark : Fin batch.length × Fin n → Nat → M → M)

def marked (t : Fin batch.length × Fin n) (m : M) : M :=
  (rootPath batch[t.1].par t.2).tail.foldr (fun j m => mark t (j - 1) m) (init t m)

def treeThreads (t : Fin batch.length × Fin n) (s : M × Retrive) : Option (M × Retrive) :=
  treeThread batch.selection topk depth n t.1 (init t) (mark t) t.2 s

variable {init mark} {s s' : M × Retrive} {order : Order (Fin batch.length × Fin n)} (hfits : batch.Fits)
include hfits

theorem treeThreads_cases {t : Fin batch.length × Fin n} (h : treeThreads init mark t s = some s') :
    s'.1 = marked init mark t s.1 ∧
      s'.2.positions = update s.2.positions (t.1 * n + t.2)
        ((batch[t.1].prefixIds.length + ((rootPath batch[t.1].par t.2).length - 1) : Nat) : Int) ∧
      (0 < t.2.val → s'.2.chains = s.2.chains) ∧
      (t.2.val = 0 → s'.2 = linkTokens batch.selection topk depth n t.1 s.2) := by
  obtain ⟨o, heq, ho⟩ := treeThread_eq (Batch.reads_fin hfits t.1) (init t) (mark t) t.2.isLt s
  rw [treeThreads, heq] at h
  cases h
  exact ⟨rfl, ho⟩

variable (init mark) in
theorem launch_treeThreads (order : Order (Fin batch.length × Fin n)) (s : M × Retrive) :
    ∃ s', launch (treeThreads init mark) order s = some s' := by
  refine launch_isSome (fun t s => ?_) order s
  obtain ⟨o, heq, -⟩ := treeThread_eq (Batch.reads_fin hfits t.1) (init t) (mark t) t.2.isLt s
  exact ⟨_, heq⟩

/-- A row of the mask is what its thread marks, when no other thread writes there. -/
theorem launch_mask (hrun : launch (treeThreads init mark) order s = some s') (t : Fin batch.length × Fin n)
    (cells : M → β) (hframe : ∀ u, u ≠ t → ∀ m, cells (marked init mark u m) = cells m) :
    ∃ m, cells m = cells s.1 ∧ cells s'.1 = cells (marked init mark t m) := by
  obtain ⟨s₁, s₂, hthread, h₁, h₂⟩ := launch_cells (fun s => cells s.1) t
    (fun u hu s s' h => by rw [(treeThreads_cases hfits h).1, hframe u hu]) hrun
  exact ⟨s₁.1, h₁, by rw [h₂, (treeThreads_cases hfits hthread).1]⟩

/-- **The builders leave the trees in the index tensors.** -/
theorem launch_isTree {m : M} {positions : Nat → Int}
    (hrun : launch (treeThreads init mark) order (m, retrieveBuf positions) = some s') : IsTree batch s'.2 where
  positions b i hi := by
    have hframe : ∀ u, u ≠ (b, ⟨i, hi⟩) → ∀ s s' : M × Retrive, treeThreads init mark u s = some s' →
        s'.2.positions (b * n + i) = s.2.positions (b * n + i) := by
      intro u hu s s' h
      rw [(treeThreads_cases hfits h).2.1, update_of_ne]
      intro heq
      obtain ⟨hb, hi'⟩ := row_inj hi u.2.isLt heq
      exact hu (Prod.ext (Fin.ext hb.symm) (Fin.ext hi'.symm))
    obtain ⟨s₁, s₂, hthread, -, h₂⟩ := launch_cells (fun s => s.2.positions (b * n + i)) _ hframe hrun
    rw [h₂, (treeThreads_cases hfits hthread).2.1, update_self]
  linked b := by
    have hn : 0 < n := by
      have := batch[b].length_selected
      omega
    have hframe : ∀ u, u ≠ (b, ⟨0, hn⟩) → ∀ s s' : M × Retrive, treeThreads init mark u s = some s' →
        (fun (i : Fin n) => s'.2.chains (b * n + i)) = fun (i : Fin n) => s.2.chains (b * n + i) := by
      intro u hu s s' h
      obtain ⟨-, -, hsame, hlink⟩ := treeThreads_cases hfits h
      funext i
      rcases Nat.eq_zero_or_pos u.2 with h0 | h0
      · rw [hlink h0]
        refine linkTokens_frame hn (fun j hj heq => hu ?_) s.2
        rw [(Batch.reads_fin hfits u.1).cell_eq hj] at heq
        obtain ⟨hb, -⟩ := row_inj i.isLt hj heq
        exact Prod.ext (Fin.ext hb.symm) (Fin.ext h0)
      · rw [hsame h0]
    obtain ⟨s₁, s₂, hthread, h₁, h₂⟩ :=
      launch_cells (fun s => fun (i : Fin n) => s.2.chains (b * n + i)) _ hframe hrun
    have hold : ∀ i < n, s₁.2.chains (b * n + i) = (-1, -1, -1) := fun i hi => congrFun h₁ ⟨i, hi⟩
    have hnew : ∀ i < n, s'.2.chains (b * n + i) =
        (linkTokens batch.selection topk depth n b s₁.2).chains (b * n + i) := by
      intro i hi
      rw [← (treeThreads_cases hfits hthread).2.2.2 rfl]
      exact congrFun h₂ ⟨i, hi⟩
    have hlinked : Linked (linkTokens batch.selection topk depth n b s₁.2) b batch[b] :=
      linkTokens_linked (Batch.reads_fin hfits b) (fun i hi => congrArg (·.2.1) (hold i hi))
        fun i hi => congrArg (·.2.2) (hold i hi)
    exact ⟨fun i hi => (congrArg (·.1) (hnew i hi)).trans (hlinked.index i hi),
      fun i hi => (congrArg (·.2.1) (hnew i hi)).trans (hlinked.nextToken i hi),
      fun i hi => (congrArg (·.2.2) (hnew i hi)).trans (hlinked.nextSibling i hi)⟩

end Launch

/-! ## The masks -/

section Masks

variable {batch : Batch topk depth n} {order : Order (Fin batch.length × Fin n)} {positions : Nat → Int}
  {o : Retrive}

def seqTreeIdx (batch : Batch topk depth n) (b : Nat) : Nat :=
  n * n * b + ((range b).map fun i => batch.selection.verifiedSeqLen i * n).sum

theorem seqTreeIdx_succ (b : Nat) :
    seqTreeIdx batch (b + 1) = seqTreeIdx batch b + (batch.selection.verifiedSeqLen b + n) * n := by
  rw [seqTreeIdx, seqTreeIdx, range_succ, map_append, sum_append]
  simp only [map_cons, map_nil, sum_cons, sum_nil]
  ring

theorem seqTreeIdx_mono (batch : Batch topk depth n) {b b' : Nat} (h : b ≤ b') :
    seqTreeIdx batch b ≤ seqTreeIdx batch b' := by
  induction h with
  | refl => exact le_rfl
  | step _ ih => exact ih.trans (by rw [seqTreeIdx_succ]; omega)

theorem full_lt {b c : Nat} (hi : i < n) (hc : c < batch.selection.verifiedSeqLen b + n) :
    seqTreeIdx batch b + (batch.selection.verifiedSeqLen b + n) * i + c < seqTreeIdx batch (b + 1) := by
  have hle : (batch.selection.verifiedSeqLen b + n) * (i + 1) ≤
      (batch.selection.verifiedSeqLen b + n) * n := Nat.mul_le_mul_left _ hi
  rw [seqTreeIdx_succ]
  rw [Nat.mul_succ] at hle
  omega

theorem full_inj {b b' i' c c' : Nat} (hi : i < n) (hi' : i' < n)
    (hc : c < batch.selection.verifiedSeqLen b + n) (hc' : c' < batch.selection.verifiedSeqLen b' + n)
    (h : seqTreeIdx batch b + (batch.selection.verifiedSeqLen b + n) * i + c =
      seqTreeIdx batch b' + (batch.selection.verifiedSeqLen b' + n) * i' + c') : b = b' ∧ i = i' ∧ c = c' := by
  have hb : b = b' := by
    rcases Nat.lt_trichotomy b b' with hlt | heq | hlt
    · have h1 := full_lt hi hc
      have h2 := seqTreeIdx_mono batch (show b + 1 ≤ b' from hlt)
      omega
    · exact heq
    · have h1 := full_lt hi' hc'
      have h2 := seqTreeIdx_mono batch (show b' + 1 ≤ b from hlt)
      omega
  subst hb
  refine ⟨rfl, ?_⟩
  refine row_inj hc hc' ?_
  rw [Nat.mul_comm i, Nat.mul_comm i']
  omega

/-- Where the draft columns of a row start. -/
def rowStart (batch : Batch topk depth n) (mode : TreeMaskMode) (b i : Nat) : Nat :=
  match mode with
  | .fullMask =>
    seqTreeIdx batch b + (batch.selection.verifiedSeqLen b + n) * i + batch.selection.verifiedSeqLen b
  | _ => b * (n * n) + (i * n)

def maskCells (batch : Batch topk depth n) : TreeMaskMode → Nat
  | .fullMask => seqTreeIdx batch batch.length
  | _ => batch.length * (n * n)

theorem square_le (hi : i < n) : i * n + n ≤ n * n := by
  rw [← Nat.succ_mul]
  exact Nat.mul_le_mul_right _ hi

theorem rowStart_le (mode : TreeMaskMode) {b : Nat} (hb : b < batch.length) (hi : i < n) :
    rowStart batch mode b i + n ≤ maskCells batch mode := by
  have hqlen : b * (n * n) + i * n + n ≤ batch.length * (n * n) := by
    have := square_le hi
    have := Batch.row_le hb (le_refl (batch.length * (n * n)))
    omega
  cases mode with
  | fullMask =>
    have hlast : batch.selection.verifiedSeqLen b + (n - 1) < batch.selection.verifiedSeqLen b + n := by
      omega
    have hlt := full_lt hi hlast
    have hle := seqTreeIdx_mono batch (show b + 1 ≤ batch.length from hb)
    simp only [rowStart, maskCells]
    omega
  | qlenOnly => exact hqlen
  | qlenOnlyBitpacking => exact hqlen

theorem rowStart_inj {mode : TreeMaskMode} {b b' i' k k' : Nat} (hi : i < n) (hi' : i' < n) (hk : k < n)
    (hk' : k' < n) (h : rowStart batch mode b i + k = rowStart batch mode b' i' + k') : b = b' ∧ i = i' := by
  have hqlen : b * (n * n) + (i * n) + k = b' * (n * n) + (i' * n) + k' → b = b' ∧ i = i' := by
    intro h
    rw [Nat.add_assoc, Nat.add_assoc] at h
    have h1 := square_le hi
    have h2 := square_le hi'
    obtain ⟨hb, h⟩ := row_inj (by omega) (by omega) h
    exact ⟨hb, (row_inj hk hk' h).1⟩
  cases mode with
  | fullMask =>
    rw [rowStart, rowStart, Nat.add_assoc, Nat.add_assoc _ _ k'] at h
    obtain ⟨hb, hi, -⟩ := full_inj hi hi' (Nat.add_lt_add_left hk _) (Nat.add_lt_add_left hk' _) h
    exact ⟨hb, hi⟩
  | qlenOnly => exact hqlen h
  | qlenOnlyBitpacking => exact hqlen h

/-- A running sum that wraps at every step. -/
theorem foldl_int32 (f : Nat → Nat) (l : List Nat) (v : Int) :
    l.foldl (fun s i => int32 (s + f i)) (int32 v) = int32 (v + (l.map f).sum) := by
  induction l generalizing v with
  | nil => simp
  | cons i rest ih =>
    rw [foldl_cons, int32_int32_add, ih, map_cons, sum_cons, Int.natCast_add, add_assoc]

section

variable (hfits : batch.Fits)
include hfits

/-- The rows start where they are to, modulo the range of an index. -/
theorem tokenTreeIdx_eq (mode : TreeMaskMode) (b : Fin batch.length) (i : Nat) :
    tokenTreeIdx batch.selection n b mode i = int32 (rowStart batch mode b i + 1) := by
  have hqlen : int32 (n * n * b + n * i + 1 : Nat) = int32 (((b * (n * n) + i * n : Nat) : Int) + 1) := by
    congr 1
    push_cast
    ring
  cases mode with
  | fullMask =>
    have hseq := Batch.reads_fin hfits b
    simp only [tokenTreeIdx, rowStart, seqTreeIdx, hseq.seqLen_eq, hseq.seqLen]
    rw [foldl_int32 fun i => batch.selection.verifiedSeqLen i * n, add_assoc, add_assoc, int32_int32_add]
    congr 1
    push_cast
    ring
  | qlenOnly => exact hqlen
  | qlenOnlyBitpacking => exact hqlen

theorem buildTree_eq (mode : TreeMaskMode) :
    buildTree batch.selection topk depth order positions mode =
      launch (treeThreads (fun t => clearRow n (int32 (rowStart batch mode t.1 t.2 + 1)))
        fun t => markColumn (int32 (rowStart batch mode t.1 t.2 + 1))) order
        (fun _ => true, retrieveBuf positions) := by
  unfold buildTree
  congr 1
  funext t s
  simp only [buildTreeEfficient, tokenTreeIdx_eq hfits]
  rfl

end

/-- What the rows of a mask show. -/
structure Shows (batch : Batch topk depth n) (mode : TreeMaskMode) (mask : Nat → Bool) : Prop where
  /-- A token sees its ancestors and itself. -/
  draft : ∀ (b : Fin batch.length), ∀ i < n, ∀ k < n,
    mask (rowStart batch mode b i + k) = decide (k ∈ rootPath batch[b].par i)
  /-- In a full mask it sees the whole prefix. -/
  verified : mode = .fullMask → ∀ (b : Fin batch.length), ∀ i < n, ∀ k < batch[b].prefixIds.length,
    mask (seqTreeIdx batch b + (batch[b].prefixIds.length + n) * i + k) = true

/-- **The builder**: it ends, and its tensors hold the trees and, if the indexes reach all its cells, their
    masks. -/
theorem buildTree_spec (hfits : batch.Fits) (mode : TreeMaskMode) (hcells : maskCells batch mode ≤ 2 ^ 31)
    (order : Order (Fin batch.length × Fin n)) (positions : Nat → Int) :
    ∃ mask o, buildTree batch.selection topk depth order positions mode = some (mask, o) ∧
      Shows batch mode mask ∧ IsTree batch o := by
  rw [buildTree_eq hfits]
  obtain ⟨⟨mask, o⟩, hrun⟩ := launch_treeThreads
    (fun t => clearRow n (int32 (rowStart batch mode t.1 t.2 + 1)))
    (fun t => markColumn (int32 (rowStart batch mode t.1 t.2 + 1))) hfits order
    (fun _ => true, retrieveBuf positions)
  have hrow := fun (t : Fin batch.length × Fin n) => (rowStart_le mode t.1.isLt t.2.isLt).trans hcells
  have hframe : ∀ (t : Fin batch.length × Fin n) (m : Nat → Bool) {a : Nat},
      (∀ k < n, a ≠ rowStart batch mode t.1 t.2 + k) →
      marked (fun t => clearRow n (int32 (rowStart batch mode t.1 t.2 + 1)))
        (fun t => markColumn (int32 (rowStart batch mode t.1 t.2 + 1))) t m a = m a := by
    intro t m a ha
    refine mask_row_frame _ batch[t.1] t.2.isLt m fun k hk => ?_
    have := hrow t
    rw [← Int.natCast_add, cell_natCast (by omega)]
    exact ha k hk
  refine ⟨mask, o, hrun, ⟨?_, ?_⟩, launch_isTree hfits hrun⟩
  · intro b i hi k hk
    obtain ⟨m, -, hcell⟩ := launch_mask hfits hrun (b, ⟨i, hi⟩)
      (fun m => m (rowStart batch mode b i + k)) fun u hu m => hframe u m fun k' hk' heq => hu <| by
        obtain ⟨hb, hi'⟩ := rowStart_inj hi u.2.isLt hk hk' heq
        exact Prod.ext (Fin.ext hb.symm) (Fin.ext hi'.symm)
    exact hcell.trans (mask_row batch[b] (hrow (b, ⟨i, hi⟩)) hi m hk)
  · rintro rfl b i hi k hk
    have hlen : batch.selection.verifiedSeqLen b = batch[b].prefixIds.length := (Batch.reads_fin hfits b).seqLen
    have hstay := launch_frame
      (fun s => s.1 (seqTreeIdx batch b + (batch.selection.verifiedSeqLen b + n) * i + k)) (fun t s s' h => ?_) hrun
    · rw [hlen] at hstay
      exact hstay
    · rw [(treeThreads_cases hfits h).1]
      refine hframe t s.1 fun k' hk' heq => ?_
      simp only [rowStart] at heq
      rw [Nat.add_assoc _ (batch.selection.verifiedSeqLen t.1) k'] at heq
      obtain ⟨hb, -, hk⟩ := full_inj hi t.2.isLt (by omega) (by omega) heq
      rw [← hb] at hk
      omega

theorem packed_bytes (hn : n ≤ 32) : n ≤ 8 * numBytesPerItem n := by
  unfold numBytesPerItem
  split
  · omega
  · split <;> omega

/-- **The packed builder** encodes the same relation, bit by bit. -/
theorem buildTreePacked_spec (hfits : batch.Fits) (hn : n ≤ 32)
    (hbytes : batch.length * n * numBytesPerItem n ≤ 2 ^ 31) (order : Order (Fin batch.length × Fin n))
    (positions : Nat → Int) :
    ∃ mask o, buildTreePacked batch.selection topk depth order positions = some (mask, o) ∧
      (∀ (b : Fin batch.length), ∀ i < n, ∀ k < 8 * numBytesPerItem n,
        (mask ((b * n + i) * numBytesPerItem n + k / 8)).testBit (k % 8) =
          decide (k ∈ rootPath batch[b].par i)) ∧
      IsTree batch o := by
  obtain ⟨⟨mask, o⟩, hrun⟩ := launch_treeThreads
    (fun t => clearBits (int32 ((t.1 * n + t.2) * numBytesPerItem n : Nat)))
    (fun t => markBit (int32 ((t.1 * n + t.2) * numBytesPerItem n : Nat))) hfits order
    (fun _ => 0, retrieveBuf positions)
  refine ⟨mask, o, hrun, fun b i hi k hk => ?_, launch_isTree hfits hrun⟩
  have hbase (t : Fin batch.length × Fin n) :
      (t.1 * n + t.2) * numBytesPerItem n + numBytesPerItem n ≤ 2 ^ 31 := by
    have hle := Batch.row_le t.1.isLt (le_refl (batch.length * n))
    have := Nat.mul_le_mul_right (numBytesPerItem n) (show t.1 * n + t.2 + 1 ≤ batch.length * n by omega)
    rw [Nat.succ_mul] at this
    omega
  have hrow := fun (t : Fin batch.length × Fin n) m =>
    packed_row batch[t.1] (hbase t) t.2.isLt (packed_bytes hn) m
  obtain ⟨m, hm, hcell⟩ := launch_mask hfits hrun (b, ⟨i, hi⟩) (fun m =>
      fun (q : Fin (numBytesPerItem n)) => m ((b * n + i) * numBytesPerItem n + q)) fun u hu m => by
    funext q
    refine (hrow u m).2 _ fun k' hk' heq => hu ?_
    obtain ⟨hb, hi'⟩ := row_inj hi u.2.isLt (row_inj q.isLt hk' heq).1
    exact Prod.ext (Fin.ext hb.symm) (Fin.ext hi'.symm)
  have hk8 : k / 8 < numBytesPerItem n := by omega
  have hbit := congrFun hcell ⟨k / 8, hk8⟩
  rw [← (hrow (b, ⟨i, hi⟩) m).1 k hk fun q hq => congrFun hm ⟨q, hq⟩]
  exact congrArg (·.testBit (k % 8)) hbit

end Masks

end Building

variable {topk depth n : Nat}

/-! ## Reconstruction -/

section Reconstruct

theorem foldr_countAncestor (mask : Nat → Bool) (start : Int) (l : List Nat) :
    l.foldr (countAncestor mask start) (0, none) =
      ((l.filter fun (i : Nat) => mask (cell (start + i))).length,
        (l.filter fun (i : Nat) => mask (cell (start + i))).getLast?) := by
  induction l with
  | nil => rfl
  | cons i rest ih =>
    rw [foldr_cons, ih, countAncestor]
    by_cases hm : mask (cell (start + i)) = true
    · rw [if_pos hm, filter_cons_of_pos (by exact hm), length_cons, getLast?_cons]
      cases (rest.filter fun (i : Nat) => mask (cell (start + i))).getLast? <;> rfl
    · rw [if_neg hm, filter_cons_of_neg (by exact hm)]

theorem find?_range' (p : Nat → Bool) {i : Nat} (hi : i < n) :
    (range' (i + 1) (n - (i + 1))).find? p = (range n).find? fun j => decide (i < j) && p j := by
  have hsplit : range n = range (i + 1) ++ range' (i + 1) (n - (i + 1)) := by
    rw [range_eq_range', range_eq_range', show n = (i + 1) + (n - (i + 1)) by omega, ← range'_append_1]
    simp
  have hnone : ((range (i + 1)).find? fun j => decide (i < j) && p j) = none := by
    refine find?_eq_none.2 fun j hj => ?_
    have := mem_range.1 hj
    simp
    omega
  rw [hsplit, find?_append, hnone, Option.none_or]
  refine find?_congr fun j hj => ?_
  rw [mem_range'_1] at hj
  simp [show i < j by omega]

theorem isSibling_eq (mask : Nat → Bool) {offset p j : Nat} (hj : j < n) (hp : p < j)
    (hle : offset + j * n + n ≤ 2 ^ 31) :
    isSibling mask n (int32 offset) p j =
      (range j).all fun k => decide (k ≤ p) || !mask (cell (int32 offset + (j * n + k : Nat))) := by
  rw [isSibling]
  simp only [int32_int32_add, cell_int32_add, ← Int.natCast_add]
  rw [int32_eq (v := (offset + (j * n + p + 1) : Nat)) (by omega) (by omega),
    int32_eq (v := (offset + (j * n + j) : Nat)) (by omega) (by omega), Bool.eq_iff_iff]
  simp only [all_eq_true, mem_range, Bool.or_eq_true, decide_eq_true_eq]
  constructor
  · intro h k hk
    rcases Nat.lt_or_ge p k with hpk | hpk
    · have hcell := h (k - (p + 1)) (by omega)
      rw [show offset + (j * n + p + 1) + (k - (p + 1)) = offset + (j * n + k) by omega] at hcell
      exact .inr hcell
    · exact .inl hpk
  · intro h a ha
    rw [show offset + (j * n + p + 1) + a = offset + (j * n + (p + 1 + a)) by omega]
    exact (h (p + 1 + a) (by omega)).resolve_left (by omega)

theorem getLast?_rootPath (par : Nat → Nat) (i : Nat) : (rootPath par i).getLast? = some i := by
  rw [rootPath]
  split <;> simp

variable {batch : Batch topk depth n} {mask : Nat → Bool} (hfits : batch.Fits)
  (hcells : maskCells batch .qlenOnly ≤ 2 ^ 31) (h : Shows batch .qlenOnly mask)
include hfits hcells h

/-- **What a thread reads from a mask**: the position, the first child and the next sibling of its token. -/
theorem reconstructIndices_eq (b : Fin batch.length) (i : Fin n) (o : Retrive) :
    reconstructIndicesFromTreeMask mask batch.selection.verifiedSeqLen batch.length n b i o = some {
      positions := update o.positions (b * n + i)
        ((batch[b].prefixIds.length + ((rootPath batch[b].par i).length - 1) : Nat) : Int)
      retriveIndex := update o.retriveIndex (b * n + i) ((b * n + i : Nat) : Int)
      retriveNextToken := update o.retriveNextToken (b * n + i) (link (nextToken batch[b].par n i))
      retriveNextSibling :=
        update o.retriveNextSibling (b * n + i) (link (nextSibling batch[b].par n i)) } := by
  have hord := batch[b].ordered
  have hreads := Batch.reads_fin hfits b
  have htokens := hreads.tokens_le
  have hrow : ∀ i < n, b * (n * n) + i * n + n ≤ 2 ^ 31 := fun i hi =>
    (rowStart_le .qlenOnly b.isLt hi).trans hcells
  have hmask : ∀ i < n, ∀ j < n,
      (fun i j => mask (cell (int32 (b * (n * n) : Nat) + (i * n + j : Nat)))) i j =
        decide (j ∈ rootPath batch[b].par i) := by
    intro i hi j hj
    have := hrow i hi
    have hcell : cell (int32 (b * (n * n) : Nat) + (i * n + j : Nat)) = b * (n * n) + i * n + j := by
      rw [cell_int32_add, ← Int.natCast_add, cell_natCast (by omega), Nat.add_assoc]
    exact (congrArg mask hcell).trans (h.draft b i hi j hj)
  have hnext := hord.nextToken_of_mask hmask i.isLt
  unfold reconstructIndicesFromTreeMask
  rw [if_neg (by omega)]
  dsimp only
  rw [foldr_countAncestor, hreads.seqLen, hreads.cell_eq i.isLt,
    int32_eq (v := (b * n + i : Nat)) (by omega) (by omega), find?_range' _ i.isLt, hnext]
  simp only [add_assoc, ← Int.natCast_add]
  rcases Nat.eq_zero_or_pos i with h0 | h0
  · -- the root has no columns before it
    simp only [h0, range_zero, filter_nil, length_nil, getLast?_nil, Option.bind_none,
      rootPath_zero, nextSibling, if_true, Nat.zero_add]
    rfl
  · have hfilter := hord.filter_mask hmask h0 i.isLt
    have hsib := hord.nextSibling_of_mask hmask h0 i.isLt
    have hpar := hord i h0 i.isLt
    have hlen : (rootPath batch[b].par i).length = (rootPath batch[b].par (batch[b].par i)).length + 1 := by
      rw [hord.rootPath_eq h0 i.isLt, length_append, length_singleton]
    have hfind : ((range n).find? fun j => decide (i.val < j) &&
        (mask (cell (int32 (b * (n * n) : Nat) + (j * n + batch[b].par i : Nat))) &&
          isSibling mask n (int32 (b * (n * n) : Nat)) (batch[b].par i) j)) =
        nextSibling batch[b].par n i := by
      rw [← hsib]
      refine find?_congr fun j hj => ?_
      have hj := mem_range.1 hj
      by_cases hij : i.val < j
      · rw [isSibling_eq mask hj (by omega) (hrow j hj), Bool.and_assoc]
      · simp [hij]
    rw [hfilter, getLast?_rootPath, Option.bind_some, find?_range' _ i.isLt, hfind, hlen, Nat.add_sub_cancel,
      Nat.add_comm batch[b].prefixIds.length]

/-- **A mask of draft tokens gives the trees back.** -/
theorem reconstruct_spec (order : Order (Fin batch.length × Fin n)) (o : Retrive) :
    ∃ o', reconstruct mask batch.selection.verifiedSeqLen order o = some o' ∧ IsTree batch o' := by
  obtain ⟨o', hrun⟩ : ∃ o', reconstruct mask batch.selection.verifiedSeqLen order o = some o' := by
    exact launch_isSome (fun t s => ⟨_, reconstructIndices_eq hfits hcells h t.1 t.2 s⟩) order o
  refine ⟨o', hrun, ?_⟩
  -- each thread owns one cell of every tensor
  have hcell : ∀ (b : Fin batch.length) (i : Fin n), (o'.positions (b * n + i), o'.chains (b * n + i)) =
      (((batch[b].prefixIds.length + ((rootPath batch[b].par i).length - 1) : Nat) : Int),
        ((b * n + i : Nat) : Int), link (nextToken batch[b].par n i), link (nextSibling batch[b].par n i)) := by
    intro b i
    have hframe : ∀ u : Fin batch.length × Fin n, u ≠ (b, i) → ∀ s s' : Retrive,
        reconstructIndicesFromTreeMask mask batch.selection.verifiedSeqLen batch.length n u.1 u.2 s = some s' →
          (s'.positions (b * n + i), s'.chains (b * n + i)) = (s.positions (b * n + i), s.chains (b * n + i)) := by
      intro u hu s s' hs
      have hne : (b : Nat) * n + i ≠ u.1 * n + u.2 := by
        intro heq
        obtain ⟨hb, hi⟩ := row_inj i.isLt u.2.isLt heq
        exact hu (Prod.ext (Fin.ext hb.symm) (Fin.ext hi.symm))
      rw [reconstructIndices_eq hfits hcells h] at hs
      cases hs
      simp only [Retrive.chains, update_of_ne hne]
    obtain ⟨o₁, o₂, hthread, -, hcell⟩ := launch_cells
      (fun o => (o.positions (b * n + i), o.chains (b * n + i))) (b, i) hframe hrun
    rw [reconstructIndices_eq hfits hcells h] at hthread
    cases hthread
    rw [hcell]
    simp only [Retrive.chains, update_self]
  refine ⟨fun b i hi => congrArg (·.1) (hcell b ⟨i, hi⟩), fun b => ⟨?_, ?_, ?_⟩⟩
  · exact fun i hi => congrArg (·.2.1) (hcell b ⟨i, hi⟩)
  · exact fun i hi => congrArg (·.2.2.1) (hcell b ⟨i, hi⟩)
  · exact fun i hi => congrArg (·.2.2.2) (hcell b ⟨i, hi⟩)

end Reconstruct

/-! ## The verifier -/

section Verify

variable {y : Predicted} {o : Retrive} {spec b : Nat} {r : Request topk depth n}

def Predicted.want (y : Predicted) (n b i : Nat) : Int := y.targetPredict (b * n + i)

section

variable (hfit : b * n + n ≤ 2 ^ 31) (hlinked : Linked o b r)
include hfit hlinked

theorem Walk.accept_eq {u : Nat} (hu : u < n) (w : Walk) (hw : b * spec + (w.numAcceptedTokens + 1) < 2 ^ 32) :
    w.accept y o spec n b u =
      ⟨{ w.out with
        predicts := update w.out.predicts w.lastAcceptedRetriveIdx
          (int32 (y.targetPredict w.lastAcceptedRetriveIdx))
        acceptIndex := update w.out.acceptIndex (b * spec + (w.numAcceptedTokens + 1)) ((b * n + u : Nat) : Int) },
        b * n + u, w.numAcceptedTokens + 1⟩ := by
  rw [Walk.accept, uint32_eq (k := b * n) (by omega), uint32_eq hw, hlinked.index u hu, Int.toNat_natCast,
    int32_eq (v := (b * n + u : Nat)) (by omega) (by omega)]

variable (hcand : ∀ i < n, y.candidates (b * n + i) = r.tok i)
include hcand

theorem acceptSibling_eq {v : Nat} {w : Walk} (hw : w.lastAcceptedRetriveIdx = b * n + v)
    {before suf : List Nat} {fuel : Nat} (hsuf : children r.par n v = before ++ suf)
    (hfuel : suf.length < fuel) :
    acceptSibling y o spec n b fuel (link suf.head?) w =
      some (match suf.find? fun j => decide (r.tok j = y.want n b v) with
        | none => (-1, w)
        | some j => ((j : Int), w.accept y o spec n b j)) := by
  induction suf generalizing before fuel with
  | nil =>
    obtain ⟨fuel, rfl⟩ : ∃ m, fuel = m + 1 := ⟨fuel - 1, by simp at hfuel; omega⟩
    rfl
  | cons a suf ih =>
    obtain ⟨fuel, rfl⟩ : ∃ m, fuel = m + 1 := ⟨fuel - 1, by simp at hfuel; omega⟩
    have ha : a < n := (mem_children.1 (hsuf ▸ mem_append_right _ mem_cons_self :
      a ∈ children r.par n v)).1
    have hstart : link (a :: suf).head? = (a : Int) := rfl
    rw [hstart, acceptSibling, if_neg (by omega), Int.toNat_natCast, uint32_eq (by omega), hcand a ha, hw,
      show y.targetPredict (b * n + v) = y.want n b v from rfl]
    by_cases htok : r.tok a = y.want n b v
    · rw [if_pos htok, find?_cons_of_pos (by simpa using htok)]
    · rw [if_neg htok, find?_cons_of_neg (by simpa using htok), hlinked.nextSibling a ha,
        nextSibling_append hsuf]
      simp only [length_cons] at hfuel
      exact ih (show _ = (before ++ [a]) ++ suf by simp [hsuf]) (by omega)

/-- **The loop over the depth accepts the descent.** -/
theorem acceptRounds_eq (hspec : b * spec + spec ≤ 2 ^ 32) {v : Nat} (hv : v < n) {w : Walk}
    (hw : w.lastAcceptedRetriveIdx = b * n + v) (rounds : Nat) (hrounds : w.numAcceptedTokens + rounds < spec) :
    acceptRounds y o spec n b rounds (v : Int) w =
      some ((descend r.tok (y.want n b) r.par n rounds v).foldl (fun w j => w.accept y o spec n b j) w) := by
  induction rounds generalizing v w with
  | zero => rfl
  | succ rounds ih =>
    have hlen : (children r.par n v).length < n := by
      have hsub : (children r.par n v).length < (range n).length := by
        refine length_filter_lt_length_iff_exists.2 ⟨0, mem_range.2 (by omega), by simp⟩
      rwa [length_range] at hsub
    rw [acceptRounds, Int.toNat_natCast, uint32_eq (by omega), hlinked.nextToken v hv, nextToken,
      acceptSibling_eq hfit hlinked hcand hw (nil_append _).symm hlen, descend]
    cases hfind : (children r.par n v).find? fun j => decide (r.tok j = y.want n b v) with
    | none => rfl
    | some j =>
      have hj := (mem_children.1 (mem_of_find?_eq_some hfind)).1
      simp only [Option.bind_eq_bind, Option.bind_some, foldl_cons]
      rw [if_neg (by omega), Walk.accept_eq hfit hlinked hj w (by omega), ih hj rfl (by simp only; omega)]

end

structure Accepts (y : Predicted) (spec n b : Nat) (path : List Nat) (a a' : Accepted) : Prop where
  predicts : ∀ c, a'.predicts c = if ∃ v ∈ path, c = b * n + v then int32 (y.targetPredict c) else a.predicts c
  index : ∀ (k v : Nat), path[k]? = some v → a'.acceptIndex (b * spec + k) = ((b * n + v : Nat) : Int)
  index_frame : ∀ c, (∀ k < path.length, c ≠ b * spec + k) → a'.acceptIndex c = a.acceptIndex c
  tokenNum : a'.acceptTokenNum = update a.acceptTokenNum b ((path.length - 1 : Nat) : Int)

/-- What a walk at the node `v` has written once it has accepted a path below it: the last node is not
    predicted yet. -/
structure Walk.After (y : Predicted) (spec n b v : Nat) (path : List Nat) (w w' : Walk) : Prop where
  num : w'.numAcceptedTokens = w.numAcceptedTokens + path.length
  last : w'.lastAcceptedRetriveIdx = b * n + (path.getLast?).getD v
  tokenNum : w'.out.acceptTokenNum = w.out.acceptTokenNum
  predicts : ∀ c, w'.out.predicts c =
    if ∃ u ∈ (v :: path).dropLast, c = b * n + u then int32 (y.targetPredict c) else w.out.predicts c
  index : ∀ k u, path[k]? = some u →
    w'.out.acceptIndex (b * spec + (w.numAcceptedTokens + 1 + k)) = ((b * n + u : Nat) : Int)
  frame : ∀ c, (∀ k < path.length, c ≠ b * spec + (w.numAcceptedTokens + 1 + k)) →
    w'.out.acceptIndex c = w.out.acceptIndex c

theorem foldl_accept (y : Predicted) (hfit : b * n + n ≤ 2 ^ 31) (hspec : b * spec + spec ≤ 2 ^ 32)
    (hlinked : Linked o b r) {v : Nat} {w : Walk} (hw : w.lastAcceptedRetriveIdx = b * n + v)
    {path : List Nat} (hpath : ∀ u ∈ path, u < n) (hlen : w.numAcceptedTokens + path.length < spec) :
    w.After y spec n b v path (path.foldl (fun w j => w.accept y o spec n b j) w) := by
  induction path generalizing v w with
  | nil => exact ⟨rfl, by simpa using hw, rfl, fun c => by simp, fun k u h => by simp at h, fun c _ => rfl⟩
  | cons u rest ih =>
    rw [length_cons] at hlen
    rw [foldl_cons]
    have haccept : w.accept y o spec n b u = _ :=
      Walk.accept_eq hfit hlinked (hpath u mem_cons_self) w (by omega)
    generalize w.accept y o spec n b u = w' at haccept ⊢
    have hnum : w'.numAcceptedTokens = w.numAcceptedTokens + 1 := by rw [haccept]
    have hafter := ih (show w'.lastAcceptedRetriveIdx = b * n + u by rw [haccept])
      (fun x hx => hpath x (.tail _ hx)) (by omega)
    refine ⟨?_, ?_, ?_, fun c => ?_, fun k x hk => ?_, fun c hc => ?_⟩
    · rw [hafter.num, hnum, length_cons]
      omega
    · rw [hafter.last, getLast?_cons]
      rfl
    · rw [hafter.tokenNum, haccept]
    · rw [hafter.predicts c, dropLast_cons_of_ne_nil (cons_ne_nil u rest), haccept]
      simp only [mem_cons, exists_eq_or_imp, hw]
      by_cases hcv : c = b * n + v
      · subst hcv
        simp
      · simp [hcv]
    · cases k with
      | zero =>
        obtain rfl : u = x := by simpa using hk
        rw [hafter.frame _ fun k _ => by omega, haccept]
        simp
      | succ k =>
        rw [← hafter.index k x (by simpa using hk), hnum]
        congr 1
        omega
    · rw [hafter.frame c fun k hk => ?_, haccept]
      · exact update_of_ne (by simpa using hc 0 (Nat.succ_pos _)) ..
      · have := hc (k + 1) (by simpa using hk)
        omega

/-- The walk from the root ends with the prediction at its last node. -/
theorem Walk.After.accepts {a : Accepted} {w' : Walk} {path : List Nat}
    (h : (⟨{ a with acceptIndex := update a.acceptIndex (b * spec) ((b * n : Nat) : Int) }, b * n, 0⟩ :
      Walk).After y spec n b 0 path w') (hlen : path.length < 2 ^ 31) :
    Accepts y spec n b (0 :: path) a { w'.out with
      acceptTokenNum := update w'.out.acceptTokenNum b (int32 w'.numAcceptedTokens)
      predicts := update w'.out.predicts w'.lastAcceptedRetriveIdx
        (int32 (y.targetPredict w'.lastAcceptedRetriveIdx)) } := by
  refine ⟨fun c => ?_, fun k v hk => ?_, fun c hc => ?_, ?_⟩
  · -- the last node is written at the end, the others on the way
    have hsplit : 0 :: path = (0 :: path).dropLast ++ [(path.getLast?).getD 0] := by
      have := dropLast_append_getLast (cons_ne_nil 0 path)
      rw [(getLast_eq_iff_getLast?_eq_some (cons_ne_nil 0 path)).2 (getLast?_cons ..)] at this
      exact this.symm
    simp only
    by_cases hc : c = b * n + (path.getLast?).getD 0
    · rw [h.last, ← hc, update_self, if_pos]
      exact ⟨_, by rw [hsplit]; simp, hc⟩
    · rw [h.last, update_of_ne hc, h.predicts c]
      refine if_congr ?_ rfl rfl
      conv_rhs => rw [hsplit]
      simp only [mem_append, mem_singleton]
      constructor
      · rintro ⟨v, hv, rfl⟩
        exact ⟨v, .inl hv, rfl⟩
      · rintro ⟨v, hv | rfl, hcv⟩
        · exact ⟨v, hv, hcv⟩
        · exact absurd hcv hc
  · cases k with
    | zero =>
      obtain rfl : 0 = v := by simpa using hk
      simp only
      rw [h.frame _ fun k _ => by simp only; omega]
      simp
    | succ k =>
      refine (congrArg w'.out.acceptIndex ?_).trans (h.index k v (by simpa using hk))
      simp only
      omega
  · have h0 := hc 0 (Nat.succ_pos _)
    refine (h.frame c fun k hk => ?_).trans (update_of_ne (by simpa using h0) ..)
    have := hc (k + 1) (by simpa using hk)
    simp only
    omega
  · simp only [length_cons, Nat.add_sub_cancel, h.num, h.tokenNum, Nat.zero_add]
    rw [int32_eq (by omega) (by omega)]

def acceptedPath (y : Predicted) (spec b : Nat) (r : Request topk depth n) : List Nat :=
  0 :: descend r.tok (y.want n b) r.par n (spec - 1) 0

/-- **A block of the verifier** accepts the descent from the root. -/
theorem verifyTreeGreedy_eq (hfit : b * n + n ≤ 2 ^ 31) (hspec : b * spec + spec ≤ 2 ^ 32) (hpos : 0 < spec)
    (hlt : spec ≤ 2 ^ 31) (hlinked : Linked o b r) (hcand : ∀ i < n, y.candidates (b * n + i) = r.tok i)
    (a : Accepted) :
    ∃ a', verifyTreeGreedy y o spec n b a = some a' ∧ Accepts y spec n b (acceptedPath y spec b r) a a' := by
  have hn : 0 < n := by
    have := r.length_selected
    omega
  have hfirst : o.retriveIndex (b * n) = ((b * n : Nat) : Int) := hlinked.index 0 hn
  have hrow : int32 (b * n : Nat) = (b * n : Nat) := int32_eq (by omega) (by omega)
  unfold verifyTreeGreedy
  rw [uint32_eq (k := b * n) (by omega), uint32_eq (k := b * spec) (by omega)]
  simp only [hfirst, hrow, Int.toNat_natCast, Option.bind_eq_bind]
  have hlen : (descend r.tok (y.want n b) r.par n (spec - 1) 0).length ≤ spec - 1 := length_descend_le ..
  have hafter := foldl_accept y hfit hspec hlinked (v := 0)
    (w := ⟨{ a with acceptIndex := update a.acceptIndex (b * spec) ((b * n : Nat) : Int) }, b * n, 0⟩) rfl
    (fun u (hu : u ∈ descend r.tok (y.want n b) r.par n (spec - 1) 0) => lt_of_mem_descend hu)
    (by simp only; omega)
  have hrounds := acceptRounds_eq hfit hlinked hcand hspec hn
    (w := ⟨{ a with acceptIndex := update a.acceptIndex (b * spec) ((b * n : Nat) : Int) }, b * n, 0⟩) rfl
    (spec - 1) (by simp only; omega)
  rw [Int.natCast_zero] at hrounds
  rw [hrounds, Option.bind_some]
  exact ⟨_, rfl, hafter.accepts (by omega)⟩

end Verify

/-! ## Greedy decoding -/

section Greedy

/-- The tokens below the verified one on the path to a token are what the target continues with. -/
def IsGreedy (target : List Int → Int) (r : Request topk depth n) (v : Nat) : Prop :=
  (rootPath r.par v).tail.map r.tok =
    generate target ((rootPath r.par v).length - 1) (r.prefixIds ++ [r.bonusToken])

/-- What the verifier is to write for a request: the longest path that the target continues with, and the
    tokens of greedy decoding. -/
structure GreedyAccepted (target : List Int → Int) (r : Request topk depth n) (b v : Nat) (a a' : Accepted) :
    Prop where
  lt : v < n
  index : ∀ (k u : Nat), (rootPath r.par v)[k]? = some u →
    a'.acceptIndex (b * (depth + 1) + k) = ((b * n + u : Nat) : Int)
  rest : ∀ k, (rootPath r.par v).length ≤ k → k < depth + 1 →
    a'.acceptIndex (b * (depth + 1) + k) = a.acceptIndex (b * (depth + 1) + k)
  tokenNum : a'.acceptTokenNum b = (((rootPath r.par v).length - 1 : Nat) : Int)
  greedy : IsGreedy target r v
  longest : ∀ u < n, IsGreedy target r u → u ∈ rootPath r.par v
  predicts : (rootPath r.par v).map (fun u => a'.predicts (b * n + u)) =
    generate target (rootPath r.par v).length (r.prefixIds ++ [r.bonusToken])
  tokens : (rootPath r.par v).tail.map r.tok ++ [a'.predicts (b * n + v)] =
    generate target (rootPath r.par v).length (r.prefixIds ++ [r.bonusToken])

variable {r : Request topk depth n} {y : Predicted} {target : List Int → Int} {b : Nat}

theorem rootPath_cons (r : Request topk depth n) {i : Nat} (hi : i < n) :
    rootPath r.par i = 0 :: (rootPath r.par i).tail := by
  have hne : rootPath r.par i ≠ [] := ne_nil_of_mem (self_mem_rootPath _ _)
  have hsorted := r.ordered.pairwise_rootPath hi
  have hzero := r.ordered.zero_mem_rootPath hi
  cases hpath : rootPath r.par i with
  | nil => exact absurd hpath hne
  | cons a rest =>
    rw [hpath] at hsorted hzero
    rcases mem_cons.1 hzero with rfl | h0
    · rfl
    · exact absurd ((pairwise_cons.1 hsorted).1 0 h0) (by omega)

section

variable (hwant : ∀ i < n, y.want n b i = target (r.prefixIds ++ (rootPath r.par i).map r.tok))
include hwant

theorem follows_iff_isGreedy {i : Nat} (hi : i < n) :
    Follows r.tok (y.want n b) r.par i ↔ IsGreedy target r i := by
  rw [r.ordered.follows_iff_generate hwant hi, IsGreedy]
  conv_lhs => lhs; rw [rootPath_cons r hi, map_cons]
  exact ⟨fun h => (List.cons.inj h).2, fun h => congrArg _ h⟩

/-- **The descent of a block** is the longest path that the target continues with. -/
theorem accepts_greedy (htarget : ∀ ids, int32 (target ids) = target ids) {a a' : Accepted}
    (h : Accepts y (depth + 1) n b (acceptedPath y (depth + 1) b r) a a') :
    ∃ v, GreedyAccepted target r b v a a' := by
  have hn : 0 < n := by
    have := r.length_selected
    omega
  have hroot : Follows r.tok (y.want n b) r.par 0 := follows_zero
  obtain ⟨v, hv, hf, hpath⟩ := r.ordered.descend_spec depth hn hroot
  have hacc : acceptedPath y (depth + 1) b r = rootPath r.par v := by
    rw [hpath, rootPath_zero]
    rfl
  rw [hacc] at h
  have hpred : ∀ u ∈ rootPath r.par v, a'.predicts (b * n + u) = y.want n b u := by
    intro u hu
    have hlt := (r.ordered.le_of_mem_rootPath hv u hu).trans_lt hv
    rw [h.predicts, if_pos ⟨u, hu, rfl⟩, show y.targetPredict (b * n + u) = y.want n b u from rfl,
      hwant u hlt, htarget]
  have hgreedy := (follows_iff_isGreedy hwant hv).1 hf
  refine ⟨v, hv, h.index, fun k hk _ => h.index_frame _ fun j hj => by omega, ?_, hgreedy, ?_, ?_, ?_⟩
  · rw [h.tokenNum, update_self]
  · intro u hu hgu
    have hdesc := r.ordered.descend_eq (fun j k => Request.tok_inj) depth hu
      ((follows_iff_isGreedy hwant hu).2 hgu) (Request.length_rootPath_le hu)
    rw [← hacc, acceptedPath, Nat.add_sub_cancel, hdesc]
    exact mem_append_left _ (self_mem_rootPath _ _)
  · rw [map_congr_left hpred]
    exact r.ordered.map_want hwant hv hf
  · have htoks := (r.ordered.follows_iff_generate hwant hv).1 hf
    obtain ⟨k, hk⟩ := exists_length_rootPath r.par v
    rw [hpred v (self_mem_rootPath _ _), hwant v hv, htoks, hgreedy, hk, Nat.add_sub_cancel, generate_succ]
    simp [Request.tok, Request.tokens]

end

def Accepted.row (depth n b : Nat) (a : Accepted) : (Fin n → Int) × (Fin (depth + 1) → Int) × Int :=
  (fun i => a.predicts (b * n + i), fun k => a.acceptIndex (b * (depth + 1) + k), a.acceptTokenNum b)

theorem Accepts.row_eq {c : Nat} {path : List Nat} {a a' : Accepted} (h : Accepts y (depth + 1) n b path a a')
    (hlt : ∀ v ∈ path, v < n) (hlen : path.length ≤ depth + 1) (hbc : b ≠ c) :
    a'.row depth n c = a.row depth n c := by
  refine Prod.ext (funext fun i => ?_) (Prod.ext (funext fun k => ?_) ?_)
  · simp only [Accepted.row]
    rw [h.predicts, if_neg]
    rintro ⟨v, hv, heq⟩
    exact hbc (row_inj i.isLt (hlt v hv) heq).1.symm
  · simp only [Accepted.row]
    refine h.index_frame _ fun j hj heq => ?_
    exact hbc (row_inj k.isLt (by omega) heq).1.symm
  · simp only [Accepted.row]
    rw [h.tokenNum, update_of_ne hbc.symm]

theorem GreedyAccepted.congr {v : Nat} {a a' s s' : Accepted} (h : GreedyAccepted target r b v s s')
    (hs : s.row depth n b = a.row depth n b) (hs' : a'.row depth n b = s'.row depth n b) :
    GreedyAccepted target r b v a a' := by
  have hpred : ∀ i < n, a'.predicts (b * n + i) = s'.predicts (b * n + i) := fun i hi =>
    congrFun (congrArg (·.1) hs') ⟨i, hi⟩
  have hidx : ∀ k < depth + 1, a'.acceptIndex (b * (depth + 1) + k) = s'.acceptIndex (b * (depth + 1) + k) :=
    fun k hk => congrFun (congrArg (·.2.1) hs') ⟨k, hk⟩
  have hold : ∀ k < depth + 1, s.acceptIndex (b * (depth + 1) + k) = a.acceptIndex (b * (depth + 1) + k) :=
    fun k hk => congrFun (congrArg (·.2.1) hs) ⟨k, hk⟩
  have hle := Request.length_rootPath_le (r := r) h.lt
  refine ⟨h.lt, fun k u hu => ?_, fun k hk hkd => ?_, ?_, h.greedy, h.longest, ?_, ?_⟩
  · have hk := (List.getElem?_eq_some_iff.1 hu).1
    rw [hidx k (by omega), h.index k u hu]
  · rw [hidx k hkd, h.rest k hk hkd, hold k hkd]
  · exact (congrArg (·.2.2) hs').trans h.tokenNum
  · rw [← h.predicts]
    refine map_congr_left fun u hu => hpred u ?_
    have := r.ordered.le_of_mem_rootPath h.lt u hu
    have := h.lt
    omega
  · rw [hpred v h.lt, h.tokens]

variable {batch : Batch topk depth n} {o : Retrive}

/-- **The verifier** ends, and accepts greedily in every block. -/
theorem verify_spec (hfits : batch.Fits) (ho : IsTree batch o) (htarget : ∀ ids, int32 (target ids) = target ids)
    (hcand : y.candidates = batch.candidates)
    (hwant : ∀ (b : Fin batch.length), ∀ i < n, y.targetPredict (b * n + i) =
      target (batch[b].prefixIds ++ (rootPath batch[b].par i).map batch[b].tok))
    (order : Order (Fin batch.length)) (a : Accepted) :
    ∃ a', verify y o (depth + 1) n order a = some a' ∧
      ∀ b : Fin batch.length, ∃ v, GreedyAccepted target batch[b] b v a a' := by
  have hblock := fun (b : Fin batch.length) (a : Accepted) =>
    verifyTreeGreedy_eq (Batch.row_le b.isLt hfits.tokens) (Batch.row_le b.isLt hfits.accepted) (Nat.succ_pos depth)
      (by have := hfits.positions _ (getElem_mem b.isLt); omega) (ho.linked b) (fun i hi => by
      rw [hcand, Batch.candidates_eq (getElem?_eq_getElem b.isLt) hi]
      rfl) a
  obtain ⟨a', hrun⟩ : ∃ a', verify y o (depth + 1) n order a = some a' := by
    exact launch_isSome (fun b s => (hblock b s).imp fun _ h => h.1) order a
  refine ⟨a', hrun, fun b => ?_⟩
  have hframe : ∀ c : Fin batch.length, c ≠ b → ∀ s s',
      verifyTreeGreedy y o (depth + 1) n c s = some s' → s'.row depth n b = s.row depth n b := by
    intro c hc s s' hs
    obtain ⟨s₁, hs₁, haccepts⟩ := hblock c s
    obtain rfl : s₁ = s' := Option.some.inj (hs₁.symm.trans hs)
    refine haccepts.row_eq (fun v hv => ?_) (Nat.succ_le_succ (length_descend_le ..)) fun h => hc (Fin.ext h)
    rcases mem_cons.1 hv with rfl | hv
    · have := batch[c].length_selected
      omega
    · exact lt_of_mem_descend hv
  obtain ⟨s, s', hthread, hs, hs'⟩ := launch_cells (Accepted.row depth n b) b hframe hrun
  obtain ⟨s₁, hs₁, haccepts⟩ := hblock b s
  obtain rfl : s₁ = s' := Option.some.inj (hs₁.symm.trans hthread)
  obtain ⟨v, hv⟩ := accepts_greedy (hwant b) htarget haccepts
  exact ⟨v, hv.congr hs hs'⟩

/-- The index tensors that describe the trees of a batch: positions by depth, and chains that list the
    children of each token in increasing order. -/
structure Describes (batch : Batch topk depth n) (o : Retrive) : Prop where
  positions : ∀ (b : Fin batch.length), ∀ i < n, o.positions (b * n + i) =
    ((batch[b].prefixIds.length + ((rootPath batch[b].par i).length - 1) : Nat) : Int)
  index : ∀ (b : Fin batch.length), ∀ i < n, o.retriveIndex (b * n + i) = ((b * n + i : Nat) : Int)
  children : ∀ (b : Fin batch.length), ∀ i < n,
    follow (fun j => o.retriveNextSibling (b * n + j)) n (o.retriveNextToken (b * n + i)) =
      children batch[b].par n i

theorem IsTree.describes (h : IsTree batch o) : Describes batch o where
  positions := h.positions
  index b := (h.linked b).index
  children b i hi := by
    rw [(h.linked b).nextToken i hi]
    exact follow_children (h.linked b).nextSibling i

/-- Whatever the target model is, its tokens being 32-bit numbers, the verifier reproduces its greedy
    decoding. -/
def Reproduces (batch : Batch topk depth n) (o : Retrive) : Prop :=
  ∀ (target : List Int → Int) (y : Predicted) (order : Order (Fin batch.length)) (a : Accepted),
    (∀ ids, int32 (target ids) = target ids) → y.candidates = batch.candidates →
    (∀ (b : Fin batch.length), ∀ i < n, y.targetPredict (b * n + i) =
      target (batch[b].prefixIds ++ (rootPath batch[b].par i).map batch[b].tok)) →
    ∃ a', verify y o (depth + 1) n order a = some a' ∧
      ∀ b : Fin batch.length, ∃ v, GreedyAccepted target batch[b] b v a a'

theorem IsTree.reproduces (h : IsTree batch o) (hfits : batch.Fits) : Reproduces batch o :=
  fun _ _ order a htarget hcand hwant => verify_spec hfits h htarget hcand hwant order a

def Retrive.Same (batch : Batch topk depth n) (o o' : Retrive) : Prop :=
  ∀ (b : Fin batch.length), ∀ i < n,
    (o.positions (b * n + i), o.chains (b * n + i)) = (o'.positions (b * n + i), o'.chains (b * n + i))

theorem IsTree.same {o' : Retrive} (h : IsTree batch o) (h' : IsTree batch o') : Retrive.Same batch o o' := by
  intro b i hi
  simp only [Retrive.chains, h.positions b i hi, h'.positions b i hi, (h.linked b).index i hi,
    (h'.linked b).index i hi, (h.linked b).nextToken i hi, (h'.linked b).nextToken i hi,
    (h.linked b).nextSibling i hi, (h'.linked b).nextSibling i hi]

/-- **Greedy tree verification reproduces greedy decoding** as far as 32-bit indexes reach. The builders
    leave the trees of the selected candidates in their tensors, the packed mask encodes the same relation,
    the draft mask gives the same arrays back, and the verifier accepts the longest path that the target
    continues with. -/
theorem tree_verification_greedy (batch : Batch topk depth n) (hfits : batch.Fits)
    (order : Order (Fin batch.length × Fin n)) (positions : Nat → Int) :
    (∀ mode, mode ≠ .qlenOnlyBitpacking → maskCells batch mode ≤ 2 ^ 31 →
      ∃ mask o, buildTree batch.selection topk depth order positions mode = some (mask, o) ∧
        Shows batch mode mask ∧ Describes batch o ∧ Reproduces batch o) ∧
    (n ≤ 32 → batch.length * n * numBytesPerItem n ≤ 2 ^ 31 →
      ∃ mask o, buildTreePacked batch.selection topk depth order positions = some (mask, o) ∧
        (∀ (b : Fin batch.length), ∀ i < n, ∀ k < 8 * numBytesPerItem n,
          (mask ((b * n + i) * numBytesPerItem n + k / 8)).testBit (k % 8) =
            decide (k ∈ rootPath batch[b].par i)) ∧
        Describes batch o ∧ Reproduces batch o) ∧
    (maskCells batch .qlenOnly ≤ 2 ^ 31 →
      ∃ mask o, buildTree batch.selection topk depth order positions .qlenOnly = some (mask, o) ∧
        ∀ (order' : Order (Fin batch.length × Fin n)) (o₀ : Retrive),
          ∃ o', reconstruct mask batch.selection.verifiedSeqLen order' o₀ = some o' ∧ o.Same batch o') := by
  refine ⟨fun mode _ hcells => ?_, fun hn hbytes => ?_, fun hcells => ?_⟩
  · obtain ⟨mask, o, hrun, hshows, htree⟩ := buildTree_spec hfits mode hcells order positions
    exact ⟨mask, o, hrun, hshows, htree.describes, htree.reproduces hfits⟩
  · obtain ⟨mask, o, hrun, hbits, htree⟩ := buildTreePacked_spec hfits hn hbytes order positions
    exact ⟨mask, o, hrun, hbits, htree.describes, htree.reproduces hfits⟩
  · obtain ⟨mask, o, hrun, hshows, htree⟩ := buildTree_spec hfits .qlenOnly hcells order positions
    refine ⟨mask, o, hrun, fun order' o₀ => ?_⟩
    obtain ⟨o', hrec, htree'⟩ := reconstruct_spec hfits hcells hshows order' o₀
    exact ⟨o', hrec, htree.same htree'⟩

def twoSteps : Batch 2 2 5 :=
  [⟨⟨[5, 6], [⟨[7, 8, 9, 7], [0, 3], rfl, by decide, rfl, by decide, by decide⟩], rfl, by decide, rfl⟩, [1, 2], 3,
    [0, 1, 2, 5], rfl, by decide, by decide, by decide⟩]

def twoStepsOrder : Order (Fin 1 × Fin 5) :=
  ⟨[(0, 4), (0, 0), (0, 2), (0, 1), (0, 3)], by decide, by decide⟩

/-- The last token sees the verified one, its parent and itself. -/
example : ((buildTree twoSteps.selection 2 2 twoStepsOrder (fun _ => 0) .qlenOnly).map fun s =>
      ((range 5).map fun k => s.1 (20 + k), (range 5).map s.2.positions)) =
    some ([true, false, true, false, true], [2, 3, 3, 4, 4]) := by
  decide +kernel

theorem tree_verification_greedy_two_steps :
    maskCells twoSteps .fullMask = 35 ∧
      (∃ mask o, buildTree twoSteps.selection 2 2 twoStepsOrder (fun _ => 0) .fullMask = some (mask, o) ∧
        Shows twoSteps .fullMask mask ∧ Describes twoSteps o ∧ Reproduces twoSteps o) ∧
      ∃ mask o, buildTreePacked twoSteps.selection 2 2 twoStepsOrder (fun _ => 0) = some (mask, o) ∧
        Describes twoSteps o ∧ Reproduces twoSteps o := by
  have hfits : twoSteps.Fits := ⟨by decide, by decide, by decide, by decide, by decide⟩
  have hcells : maskCells twoSteps .fullMask = 35 := by decide
  obtain ⟨hbuild, hpacked, -⟩ := tree_verification_greedy twoSteps hfits twoStepsOrder fun _ => 0
  obtain ⟨mask, o, hrun, -, htree⟩ := hpacked (by decide) (by decide)
  exact ⟨hcells, hbuild .fullMask (by decide) (by rw [hcells]; decide), mask, o, hrun, htree⟩

/-! ## Beyond 32 bits -/

/-- A prefix of 131072 tokens and 63 candidates for the next one. -/
def longRequest : Request 63 1 64 where
  draft := ⟨(range 63).map Nat.cast, [], rfl, by decide, rfl⟩
  prefixIds := replicate 131072 0
  bonusToken := 0
  selected := range 63
  length_selected := rfl
  increasing := pairwise_lt_range
  lt_size := by simp [Draft.size]
  closed c hc p hp := by
    rw [Draft.parent, if_pos (Nat.div_eq_of_lt (mem_range.1 hc))] at hp
    cases hp

def longBatch : Batch 63 1 64 := replicate 256 longRequest

theorem length_longRequest : longRequest.prefixIds.length = 131072 := length_replicate

theorem length_longBatch : longBatch.length = 256 := length_replicate

theorem longBatch_fits : longBatch.Fits where
  tokens := by rw [length_longBatch]; decide
  parents := by rw [length_longBatch]; decide
  candidates := by decide
  accepted := by rw [length_longBatch]; decide
  positions r hr := by
    rw [eq_of_mem_replicate hr, length_longRequest]
    decide

theorem verifiedSeqLen_longBatch {b : Nat} (hb : b < 256) :
    longBatch.selection.verifiedSeqLen b = 131072 := by
  have hget : longBatch[b]? = some longRequest := by rw [longBatch, getElem?_replicate, if_pos hb]
  rw [(Batch.reads longBatch_fits hget).seqLen, length_longRequest]

theorem seqTreeIdx_longBatch {b : Nat} (hb : b ≤ 256) : seqTreeIdx longBatch b = 8392704 * b := by
  induction b with
  | zero => rfl
  | succ b ih =>
    rw [seqTreeIdx_succ, ih (by omega), verifiedSeqLen_longBatch (by omega)]
    omega

/-- **256 requests with prefixes of 131072 tokens and 64 draft tokens each**: the full mask has more than
    `2 ^ 31` cells. The rows of the last request stay unwritten, and its tokens see all the others. -/
theorem longBatch_not_shown :
    maskCells longBatch .fullMask = 2 ^ 31 + 2 ^ 20 ∧
      ∀ (order : Order (Fin longBatch.length × Fin 64)) (positions : Nat → Int), ¬ ∃ mask o,
        buildTree longBatch.selection 63 1 order positions .fullMask = some (mask, o) ∧
          Shows longBatch .fullMask mask := by
  refine ⟨by rw [maskCells, length_longBatch, seqTreeIdx_longBatch le_rfl]; decide, ?_⟩
  rintro order positions ⟨mask, o, hrun, hshows⟩
  rw [buildTree_eq longBatch_fits] at hrun
  have haddr : rowStart longBatch .fullMask 255 63 + 1 = 2148532161 := by
    rw [rowStart, seqTreeIdx_longBatch (by decide), verifiedSeqLen_longBatch (by decide)]
  -- the last row: candidate 62 follows the verified token, so token 63 does not see token 1
  have hpath : rootPath longRequest.par 63 = [0] ++ [63] := by
    rw [longRequest.ordered.rootPath_eq (by decide) (by decide),
      Request.par_of_none (i := 62) (c := 62) rfl rfl, rootPath_zero]
  have hb : 255 < longBatch.length := by rw [length_longBatch]; decide
  have hcell := hshows.draft ⟨255, hb⟩ 63 (by decide) 1 (by decide)
  rw [haddr, show longBatch[(⟨255, hb⟩ : Fin longBatch.length)] = longRequest from getElem_replicate .., hpath]
    at hcell
  have hstay := launch_frame (fun s => s.1 2148532161) (fun t s s' h => ?_) hrun
  · exact Bool.false_ne_true (hcell.symm.trans hstay)
  · rw [(treeThreads_cases longBatch_fits h).1]
    refine mask_row_frame _ longBatch[t.1] t.2.isLt s.1 fun k _ => ?_
    have := cell_lt_or_le (rowStart longBatch .fullMask t.1 t.2 + k)
    omega

end Greedy

end Eagle
