import SolInfer.Speculative.EagleTree

set_option autoImplicit false

/-! # The tree of a request

The selected candidates of a request and its verified token form a tree: token 0 is the verified one, token
`i + 1` the `i`-th selected candidate. This is the tree that the kernels are to build. -/

open List

namespace Eagle

open ParentTree Grid

/-- A request with a draft and an increasing list of candidates that contains the parent of each of its
    members. -/
structure Request (topk depth draftTokenNum : Nat) where
  draft : Draft topk depth
  prefixIds : List Int
  bonusToken : Int
  selected : List Nat
  length_selected : selected.length + 1 = draftTokenNum
  increasing : selected.Pairwise (· < ·)
  lt_size : ∀ c ∈ selected, c < Draft.size topk depth
  closed : ∀ c ∈ selected, ∀ p ∈ draft.parent c, p ∈ selected

variable {i : Nat}

namespace Request

variable {topk depth n p : Nat} (r : Request topk depth n)

def par : Nat → Nat
  | 0 => 0
  | i + 1 =>
    match (r.selected[i]?).bind r.draft.parent with
    | none => 0
    | some p => r.selected.idxOf p + 1

def tokens : List Int := r.bonusToken :: (r.draft.organizeDraftResults r.selected).draftTokens

def tok (i : Nat) : Int := (r.tokens[i]?).getD 0

variable {r}

theorem depth_pos (r : Request topk depth n) : 0 < depth := by
  have := r.draft.length_later
  omega

theorem length_tokens : r.tokens.length = n := by
  simp [tokens, Draft.organizeDraftResults, Draft.draftTokens, r.length_selected]

theorem exists_selected (hi : i + 1 < n) : ∃ c, r.selected[i]? = some c ∧ c ∈ r.selected := by
  have hlt : i < r.selected.length := by
    have := r.length_selected
    omega
  exact ⟨r.selected[i], getElem?_eq_getElem hlt, getElem_mem hlt⟩

theorem par_of_none {c : Nat} (hc : r.selected[i]? = some c) (hp : r.draft.parent c = none) :
    r.par (i + 1) = 0 := by
  simp [par, hc, hp]

theorem par_of_some {c : Nat} (hc : r.selected[i]? = some c) (hp : r.draft.parent c = some p) :
    r.par (i + 1) = r.selected.idxOf p + 1 := by
  simp [par, hc, hp]

theorem selected_idxOf (hp : p ∈ r.selected) : r.selected[r.selected.idxOf p]? = some p := by
  have hlt := List.idxOf_lt_length_iff.2 hp
  rw [getElem?_eq_getElem hlt, getElem_idxOf]

theorem idxOf_parent_lt {c : Nat} (hc : r.selected[i]? = some c) (hp : r.draft.parent c = some p) :
    r.selected.idxOf p < i := by
  have hmem := mem_of_getElem? hc
  have hslot : c / topk ≠ 0 := by
    intro h
    rw [Draft.parent, if_pos h] at hp
    cases hp
  obtain ⟨p', -, hp', hlayer⟩ := Draft.parent_spec (d := r.draft) (r.lt_size c hmem) hslot
  obtain rfl : p = p' := Option.some.inj (hp.symm.trans hp')
  have hlayer : Draft.layer topk p < Draft.layer topk c := by omega
  have hlt := Draft.lt_of_layer_lt hlayer
  by_contra hge
  obtain ⟨hi, rfl⟩ := List.getElem?_eq_some_iff.1 hc
  have hpmem := r.closed _ hmem p hp
  have hidx := List.idxOf_lt_length_iff.2 hpmem
  rcases Nat.lt_or_ge i (r.selected.idxOf p) with hlt' | hge'
  · have := pairwise_iff_getElem.1 r.increasing i _ hi hidx hlt'
    rw [getElem_idxOf] at this
    omega
  · have heq : r.selected.idxOf p = i := by omega
    have := getElem_idxOf hidx
    simp only [heq] at this
    omega

/-- **Parents come before their children.** -/
theorem ordered (r : Request topk depth n) : Ordered r.par n := by
  intro i h0 hi
  obtain ⟨i, rfl⟩ : ∃ j, i = j + 1 := ⟨i - 1, by omega⟩
  obtain ⟨c, hc, -⟩ := exists_selected (r := r) hi
  cases hp : r.draft.parent c with
  | none =>
    rw [par_of_none hc hp]
    omega
  | some p =>
    rw [par_of_some hc hp]
    have := idxOf_parent_lt hc hp
    omega

theorem parent_eq_of_par {i' c c' : Nat} (hc : r.selected[i]? = some c) (hc' : r.selected[i']? = some c')
    (h : r.par (i + 1) = r.par (i' + 1)) : r.draft.parent c = r.draft.parent c' := by
  cases hp : r.draft.parent c with
  | none =>
    rw [par_of_none hc hp] at h
    cases hp' : r.draft.parent c' with
    | none => rfl
    | some p' =>
      rw [par_of_some hc' hp'] at h
      omega
  | some p =>
    rw [par_of_some hc hp] at h
    cases hp' : r.draft.parent c' with
    | none =>
      rw [par_of_none hc' hp'] at h
      omega
    | some p' =>
      rw [par_of_some hc' hp'] at h
      have hmem := selected_idxOf (r.closed c (mem_of_getElem? hc) p hp)
      have hmem' := selected_idxOf (r.closed c' (mem_of_getElem? hc') p' hp')
      rw [Nat.succ.inj h] at hmem
      exact hmem.symm.trans hmem'

theorem tok_succ {c : Nat} (hc : r.selected[i]? = some c) :
    r.tok (i + 1) = (r.draft.tokenList[c]?).getD 0 := by
  simp [tok, tokens, Draft.organizeDraftResults, Draft.draftTokens, hc]

/-- **Siblings have different tokens.** -/
theorem tok_inj {j k : Nat} (hj0 : 0 < j) (hj : j < n) (hk0 : 0 < k) (hk : k < n) (hpar : r.par j = r.par k)
    (htok : r.tok j = r.tok k) : j = k := by
  obtain ⟨j, rfl⟩ : ∃ i, j = i + 1 := ⟨j - 1, by omega⟩
  obtain ⟨k, rfl⟩ : ∃ i, k = i + 1 := ⟨k - 1, by omega⟩
  obtain ⟨c, hc, hcmem⟩ := exists_selected (r := r) hj
  obtain ⟨c', hc', hcmem'⟩ := exists_selected (r := r) hk
  have hlt := r.lt_size c hcmem
  have hlt' := r.lt_size c' hcmem'
  have hslot := Draft.slot_of_parent hlt hlt' (parent_eq_of_par hc hc' hpar)
  rw [tok_succ hc, tok_succ hc'] at htok
  have hlen := Draft.length_tokenList (d := r.draft) r.depth_pos
  have hget : r.draft.tokenList[c]? = r.draft.tokenList[c']? := by
    rw [getElem?_eq_getElem (by omega), getElem?_eq_getElem (by omega)] at htok ⊢
    exact congrArg some htok
  obtain rfl := Draft.tokenList_inj hlt hlt' hslot hget
  have hnodup : r.selected.Nodup := r.increasing.imp fun h => Nat.ne_of_lt h
  have := (List.getElem?_inj (List.getElem?_eq_some_iff.1 hc).1 hnodup).1 (hc.trans hc'.symm)
  omega

theorem length_rootPath {c : Nat} (hi : i + 1 < n) (hc : r.selected[i]? = some c) :
    (rootPath r.par (i + 1)).length = Draft.layer topk c + 2 := by
  induction i using Nat.strongRecOn generalizing c with
  | ind i ih =>
    have hmem := mem_of_getElem? hc
    rw [r.ordered.rootPath_eq (Nat.succ_pos i) hi, length_append, length_singleton]
    by_cases hslot : c / topk = 0
    · have hp : r.draft.parent c = none := by rw [Draft.parent, if_pos hslot]
      have hlt : c < topk ∨ topk = 0 := by
        rcases Nat.eq_zero_or_pos topk with h | h
        · exact .inr h
        · exact .inl ((Nat.div_eq_zero_iff_lt h).1 hslot)
      have hlt : c < topk := by
        refine hlt.resolve_right fun h => ?_
        have := r.lt_size c hmem
        simp [Draft.size, h] at this
      rw [par_of_none hc hp, rootPath_zero, Draft.layer, if_pos hlt]
      rfl
    · obtain ⟨p, -, hp, hlayer⟩ := Draft.parent_spec (d := r.draft) (r.lt_size c hmem) hslot
      have hlt := idxOf_parent_lt hc hp
      rw [par_of_some hc hp, ih _ hlt (by omega) (selected_idxOf (r.closed c hmem p hp)), hlayer]

theorem length_rootPath_le (hi : i < n) : (rootPath r.par i).length ≤ depth + 1 := by
  cases i with
  | zero => simp [rootPath_zero]
  | succ i =>
    obtain ⟨c, hc, hmem⟩ := exists_selected (r := r) hi
    rw [length_rootPath hi hc]
    have := Draft.layer_lt (r.lt_size c hmem) r.depth_pos
    omega

end Request

/-! ## Batches -/

abbrev Batch (topk depth draftTokenNum : Nat) := List (Request topk depth draftTokenNum)

namespace Batch

variable {topk depth n : Nat} (batch : Batch topk depth n)

def selection : Selection where
  parentList := tensor (batch.map fun r => (r.draft.organizeDraftResults r.selected).parentList)
  selectedIndex := tensor (batch.map fun r =>
    (r.draft.organizeDraftResults r.selected).topScoresIndex.map fun (c : Nat) => (c : Int))
  verifiedSeqLen := fun b => ((batch[b]?).map fun r => r.prefixIds.length).getD 0

def candidates : Nat → Int := tensor (batch.map fun r => r.tokens)

end Batch

/-- Whether the indexes into the tensors of a batch fit in 32 bits, and the numbers of its candidates and
    its positions. -/
structure Batch.Fits {topk depth n : Nat} (batch : Batch topk depth n) : Prop where
  tokens : batch.length * n ≤ 2 ^ 31
  parents : batch.length * (topk * (depth - 1) + 1) ≤ 2 ^ 31
  candidates : Draft.size topk depth ≤ 2 ^ 31
  accepted : batch.length * (depth + 1) ≤ 2 ^ 32
  positions : ∀ r ∈ batch, r.prefixIds.length + depth < 2 ^ 31

/-- The tensors hold a request in a block, within the reach of the kernels' indexes. -/
structure Reads (x : Selection) {topk depth n : Nat} (b : Nat) (r : Request topk depth n) : Prop where
  selected : ∀ (p c : Nat), r.selected[p]? = some c →
    x.selectedIndex (rowCell b (n - 1) p) = (c : Int)
  parents : ∀ (s : Nat) (v : Int), r.draft.parentList[s]? = some v →
    x.parentList (cell ((b * (topk * (depth - 1) + 1) : Nat) + s)) = v
  seqLen : x.verifiedSeqLen b = r.prefixIds.length
  tokens_le : b * n + n ≤ 2 ^ 31
  size_le : Draft.size topk depth ≤ 2 ^ 31
  position_lt : r.prefixIds.length + depth < 2 ^ 31

namespace Batch

variable {topk depth n : Nat} {batch : Batch topk depth n}

theorem row_le {b w k : Nat} (hb : b < batch.length) (h : batch.length * w ≤ k) : b * w + w ≤ k := by
  have hle := Nat.mul_le_mul_right w (Nat.succ_le_of_lt hb)
  rw [Nat.succ_mul] at hle
  omega

theorem reads (hfits : batch.Fits) {b : Nat} {r : Request topk depth n} (hr : batch[b]? = some r) :
    Reads batch.selection b r where
  tokens_le := row_le (List.getElem?_eq_some_iff.1 hr).1 hfits.tokens
  size_le := hfits.candidates
  position_lt := hfits.positions r (mem_of_getElem? hr)
  selected p c hc := by
    have hp := (List.getElem?_eq_some_iff.1 hc).1
    have hrow := row_le (List.getElem?_eq_some_iff.1 hr).1 hfits.tokens
    have hle := Nat.mul_le_mul_left b (Nat.sub_le n 1)
    have hlen := r.length_selected
    rw [rowCell_eq (by omega)]
    refine tensor_eq ?_ (show _ = some (r.selected.map fun (c : Nat) => (c : Int)) by
      simp [hr, Draft.organizeDraftResults]) (by simp [hc])
    intro row hrow
    obtain ⟨q, -, rfl⟩ := mem_map.1 hrow
    have := q.length_selected
    simp only [Draft.organizeDraftResults, length_map]
    omega
  parents s v hv := by
    have hdepth : 1 < depth := by
      by_contra hle
      rw [Draft.parentList_of_le (by omega)] at hv
      cases hv
    have hs := (List.getElem?_eq_some_iff.1 hv).1
    rw [Draft.length_parentList hdepth] at hs
    have hrow := row_le (List.getElem?_eq_some_iff.1 hr).1 hfits.parents
    rw [← Int.natCast_add, cell_natCast (by omega)]
    refine tensor_eq ?_ (show _ = some r.draft.parentList by simp [hr, Draft.organizeDraftResults]) hv
    intro row hrow
    obtain ⟨q, -, rfl⟩ := mem_map.1 hrow
    exact Draft.length_parentList hdepth
  seqLen := by simp [selection, hr]

theorem candidates_eq {b : Nat} {r : Request topk depth n} (hr : batch[b]? = some r) (hi : i < n) :
    batch.candidates (b * n + i) = r.tok i := by
  have hget : r.tokens[i]? = some (r.tok i) := by
    have hlt : i < r.tokens.length := by rwa [Request.length_tokens]
    rw [Request.tok, getElem?_eq_getElem hlt, Option.getD_some]
  refine tensor_eq ?_ (show _ = some r.tokens by simp [hr]) hget
  intro row hrow
  obtain ⟨q, -, rfl⟩ := mem_map.1 hrow
  exact Request.length_tokens

end Batch

end Eagle
