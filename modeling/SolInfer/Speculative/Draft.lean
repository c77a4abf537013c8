import SolInfer.Lib.Grid
import SolInfer.Lib.ParentTree

set_option autoImplicit false

/-! # Draft candidates

`select_top_k_tokens` of `speculative/spec_utils.py` grows a draft one step at a time: the first step gives
the top tokens after the verified one, every later step the top tokens after each of the nodes that are
expanded. `organize_draft_results` numbers the candidates of all steps through and keeps, for each expanded
node, the candidate that it is; the parent of candidate `c` stands in slot `c / topk`. -/

open List

namespace Eagle

/-- What the two top-k calls of a later step return for a request: for every expanded node its top tokens,
    row by row, and the places among all of them of the nodes to expand next. -/
structure Expansion (topk : Nat) where
  topkIndex : List Int
  topkCsIndex : List Nat
  length_topkIndex : topkIndex.length = topk * topk
  nodup_row : ∀ r < topk, ((topkIndex.drop (r * topk)).take topk).Nodup
  length_topkCsIndex : topkCsIndex.length = topk
  nodup_topkCsIndex : topkCsIndex.Nodup
  lt_topkCsIndex : ∀ c ∈ topkCsIndex, c < topk * topk

/-- The draft of a request: the top tokens of the first step and the later steps. -/
structure Draft (topk depth : Nat) where
  first : List Int
  later : List (Expansion topk)
  length_first : first.length = topk
  nodup_first : first.Nodup
  length_later : later.length + 1 = depth

/-- The parents that `_select_top_k_tokens_first` gives: -1 and the candidates of the first step. -/
def firstParents (topk : Nat) : List Int := (range (topk + 1)).map fun (j : Nat) => (j : Int) - 1

/-- The parents that `_select_top_k_tokens_later` gives at step `i`: the candidates expanded next. -/
def laterParents {topk : Nat} (i : Nat) (e : Expansion topk) : List Int :=
  e.topkCsIndex.map fun (c : Nat) => ((c + (topk * topk * (i - 1) + topk) : Nat) : Int)

/-- What `organize_draft_results` leaves of the drafted parts that are selected. -/
structure Organized where
  parentList : List Int
  topScoresIndex : List Nat
  draftTokens : List Int

namespace Draft

variable {topk depth c : Nat} (d : Draft topk depth)

def size (topk depth : Nat) : Nat := topk + topk * topk * (depth - 1)

def parentsList : List (List Int) :=
  firstParents topk :: d.later.mapIdx fun k e => laterParents (k + 1) e

def tokenList : List Int := (d.first :: d.later.map (·.topkIndex)).flatten

/-- The parents of the last step are not used. -/
def parentList : List Int := if 1 < d.parentsList.length then d.parentsList.dropLast.flatten else []

def draftTokens (selected : List Nat) : List Int := selected.map fun c => (d.tokenList[c]?).getD 0

def organizeDraftResults (selected : List Nat) : Organized := ⟨d.parentList, selected, d.draftTokens selected⟩

/-- The candidate that a candidate follows; a candidate of the first step follows the verified token. -/
def parent (c : Nat) : Option Nat :=
  if c / topk = 0 then none else (d.parentList[c / topk]?).map Int.toNat

def layer (topk c : Nat) : Nat := if c < topk then 0 else (c - topk) / (topk * topk) + 1

variable {d}

/-! ## Candidates by step -/

theorem exists_of_le (hc : c < size topk depth) (hle : topk ≤ c) :
    ∃ l r x, l < depth - 1 ∧ r < topk ∧ x < topk ∧ c = topk + (l * (topk * topk) + (r * topk + x)) := by
  rw [size] at hc
  have hsq : 0 < topk * topk := by
    rcases Nat.eq_zero_or_pos (topk * topk) with h | h
    · rw [h] at hc
      omega
    · exact h
  have hpos : 0 < topk := Nat.pos_of_mul_pos_left hsq
  refine ⟨(c - topk) / (topk * topk), (c - topk) % (topk * topk) / topk, (c - topk) % topk, ?_, ?_, ?_, ?_⟩
  · rw [Nat.div_lt_iff_lt_mul hsq, Nat.mul_comm]
    omega
  · rw [Nat.div_lt_iff_lt_mul hpos]
    exact Nat.mod_lt _ hsq
  · exact Nat.mod_lt _ hpos
  · have h1 := Nat.div_add_mod' (c - topk) (topk * topk)
    have h2 := Nat.div_add_mod' ((c - topk) % (topk * topk)) topk
    rw [Nat.mod_mul_right_mod] at h2
    omega

theorem div_topk {l r x : Nat} (hx : x < topk) :
    (topk + (l * (topk * topk) + (r * topk + x))) / topk = 1 + (l * topk + r) := by
  have hpos : 0 < topk := by omega
  have heq : topk + (l * (topk * topk) + (r * topk + x)) = x + topk * (1 + (l * topk + r)) := by ring
  rw [heq, Nat.add_mul_div_left _ _ hpos, Nat.div_eq_of_lt hx, Nat.zero_add]

theorem layer_later {l y : Nat} (hy : y < topk * topk) :
    layer topk (topk + (l * (topk * topk) + y)) = l + 1 := by
  rw [layer, if_neg (by omega), Nat.add_sub_cancel_left, Nat.mul_comm l, Nat.mul_add_div (by omega),
    Nat.div_eq_of_lt hy, Nat.add_zero]

theorem row_lt {r x : Nat} (hr : r < topk) (hx : x < topk) : r * topk + x < topk * topk := by
  calc r * topk + x < r * topk + topk := by omega
    _ = (r + 1) * topk := by ring
    _ ≤ topk * topk := Nat.mul_le_mul_right _ hr

theorem layer_lt (hc : c < size topk depth) (hdepth : 0 < depth) : layer topk c < depth := by
  rcases Nat.lt_or_ge c topk with hlt | hge
  · rw [layer, if_pos hlt]
    exact hdepth
  · obtain ⟨l, r, x, hl, hr, hx, rfl⟩ := exists_of_le hc hge
    rw [layer_later (row_lt hr hx)]
    omega

theorem lt_of_layer_lt {c' : Nat} (h : layer topk c < layer topk c') : c < c' := by
  by_contra hge
  have hmono : layer topk c' ≤ layer topk c := by
    unfold layer
    split <;> split
    · exact le_rfl
    · exact Nat.zero_le _
    · omega
    · exact Nat.succ_le_succ (Nat.div_le_div_right (by omega))
  omega

/-! ## Parents -/

theorem firstParents_eq : firstParents topk = -1 :: (range topk).map fun (j : Nat) => (j : Int) := by
  rw [firstParents, range_succ_eq_map, map_cons, map_map]
  refine congrArg₂ _ rfl (map_congr_left fun j _ => ?_)
  simp

def chunks (d : Draft topk depth) : List (List Int) :=
  ((range topk).map fun (j : Nat) => (j : Int)) :: d.later.mapIdx fun k e => laterParents (k + 1) e

theorem length_of_mem_chunks {ch : List Int} (h : ch ∈ d.chunks) : ch.length = topk := by
  rcases mem_cons.1 h with rfl | h
  · simp
  · obtain ⟨k, hk, rfl⟩ := mem_mapIdx.1 h
    simp [laterParents, Expansion.length_topkCsIndex]

theorem parentList_eq (hdepth : 1 < depth) : d.parentList = -1 :: d.chunks.dropLast.flatten := by
  have hlen := d.length_later
  have hne : (d.later.mapIdx fun k e => laterParents (k + 1) e) ≠ [] := by
    intro h
    have := congrArg length h
    simp at this
    simp [this] at hlen
    omega
  rw [parentList, if_pos (by simp [parentsList]; omega), parentsList, chunks, dropLast_cons_of_ne_nil hne,
    dropLast_cons_of_ne_nil hne, flatten_cons, flatten_cons, firstParents_eq,
    cons_append]

theorem length_chunks : d.chunks.length = depth := by simp [chunks, d.length_later]

theorem parentList_of_le (hdepth : depth ≤ 1) : d.parentList = [] := by
  have hlen := d.length_later
  have hone : d.parentsList.length = depth := by simp [parentsList, hlen]
  rw [parentList, if_neg (by omega)]

theorem length_parentList (hdepth : 1 < depth) : d.parentList.length = topk * (depth - 1) + 1 := by
  have hsum : (d.chunks.dropLast.map length).sum = d.chunks.dropLast.length * topk := by
    rw [sum_eq_card_nsmul _ topk]
    · simp
    · intro n hn
      obtain ⟨ch, hch, rfl⟩ := mem_map.1 hn
      exact length_of_mem_chunks (mem_of_mem_dropLast hch)
  rw [parentList_eq hdepth, length_cons, length_flatten, hsum, length_dropLast, length_chunks, Nat.mul_comm]

theorem parentList_getElem {l r : Nat} (hl : l < depth - 1) (hr : r < topk) :
    d.parentList[1 + (l * topk + r)]? = (d.chunks[l]?).bind (·[r]?) := by
  have hlen := d.length_chunks
  rw [parentList_eq (by omega), Nat.add_comm, getElem?_cons_succ,
    Grid.getElem?_flatten (fun ch h => length_of_mem_chunks (mem_of_mem_dropLast h)) hr,
    getElem?_dropLast, if_pos (by omega)]

theorem chunks_getElem {l r : Nat} (hl : l < depth) (hr : r < topk) :
    ∃ p : Nat, (d.chunks[l]?).bind (·[r]?) = some (p : Int) ∧ layer topk p = l ∧
      p < topk + topk * topk * l := by
  cases l with
  | zero =>
    refine ⟨r, ?_, if_pos hr, by omega⟩
    simp [chunks, hr]
  | succ l =>
    have hl' : l < d.later.length := by
      have := d.length_later
      omega
    have hr' : r < (d.later[l]).topkCsIndex.length := by rwa [(d.later[l]).length_topkCsIndex]
    have hlt := (d.later[l]).lt_topkCsIndex _ (getElem_mem hr')
    refine ⟨topk + (l * (topk * topk) + (d.later[l]).topkCsIndex[r]), ?_, layer_later hlt, ?_⟩
    · simp [chunks, laterParents, hl', hr']
      ring
    · calc topk + (l * (topk * topk) + (d.later[l]).topkCsIndex[r])
          < topk + (l * (topk * topk) + topk * topk) := by omega
        _ = topk + topk * topk * (l + 1) := by ring

theorem nodup_of_mem_chunks {ch : List Int} (h : ch ∈ d.chunks) : ch.Nodup := by
  rcases mem_cons.1 h with rfl | h
  · exact List.Nodup.map (fun a b hab => by simpa using hab) nodup_range
  · obtain ⟨k, hk, rfl⟩ := mem_mapIdx.1 h
    refine List.Nodup.map (fun a b hab => ?_) (Expansion.nodup_topkCsIndex _)
    simpa using hab

/-- **Parents are candidates of the step before.** -/
theorem parent_spec (hc : c < size topk depth) (hslot : c / topk ≠ 0) :
    ∃ p : Nat, d.parentList[c / topk]? = some (p : Int) ∧ d.parent c = some p ∧
      layer topk c = layer topk p + 1 := by
  have hge : topk ≤ c := by
    by_contra h
    exact hslot (Nat.div_eq_of_lt (by omega))
  obtain ⟨l, r, x, hl, hr, hx, rfl⟩ := exists_of_le hc hge
  obtain ⟨p, hp, hlayer, -⟩ := chunks_getElem (d := d) (show l < depth by omega) hr
  rw [parent, if_neg hslot, div_topk hx, parentList_getElem hl hr, hp, layer_later (row_lt hr hx)]
  exact ⟨p, rfl, rfl, by rw [hlayer]⟩

/-- **Siblings stand in one row.** -/
theorem slot_of_parent {c' : Nat} (hc : c < size topk depth) (hc' : c' < size topk depth)
    (h : d.parent c = d.parent c') : c / topk = c' / topk := by
  by_cases hslot : c / topk = 0
  · by_cases hslot' : c' / topk = 0
    · rw [hslot, hslot']
    · obtain ⟨p, -, hp, -⟩ := parent_spec (d := d) hc' hslot'
      rw [hp, parent, if_pos hslot] at h
      cases h
  · by_cases hslot' : c' / topk = 0
    · obtain ⟨p, -, hp, -⟩ := parent_spec (d := d) hc hslot
      rw [hp, parent, if_pos hslot'] at h
      cases h
    · obtain ⟨p, hlist, hp, hlayer⟩ := parent_spec (d := d) hc hslot
      obtain ⟨p', hlist', hp', hlayer'⟩ := parent_spec (d := d) hc' hslot'
      obtain rfl : p = p' := Option.some.inj (hp.symm.trans (h.trans hp'))
      have hge : topk ≤ c := by
        by_contra h
        exact hslot (Nat.div_eq_of_lt (by omega))
      have hge' : topk ≤ c' := by
        by_contra h
        exact hslot' (Nat.div_eq_of_lt (by omega))
      obtain ⟨l, r, x, hl, hr, hx, rfl⟩ := exists_of_le hc hge
      obtain ⟨l', r', x', hl', hr', hx', rfl⟩ := exists_of_le hc' hge'
      rw [layer_later (row_lt hr hx)] at hlayer
      rw [layer_later (row_lt hr' hx')] at hlayer'
      obtain rfl : l = l' := by omega
      rw [div_topk hx, parentList_getElem hl hr] at hlist
      rw [div_topk hx', parentList_getElem hl hr'] at hlist'
      obtain ⟨ch, hch, hr1⟩ := Option.bind_eq_some_iff.1 hlist
      obtain ⟨ch', hch', hr2⟩ := Option.bind_eq_some_iff.1 hlist'
      obtain rfl : ch = ch' := Option.some.inj (hch.symm.trans hch')
      have hnodup := nodup_of_mem_chunks (List.mem_of_getElem? hch)
      have hrlt : r < ch.length := (List.getElem?_eq_some_iff.1 hr1).1
      obtain rfl : r = r' := (List.getElem?_inj hrlt hnodup).1 (hr1.trans hr2.symm)
      rw [div_topk hx, div_topk hx']

/-! ## Tokens -/

theorem length_tokenList (hdepth : 0 < depth) : d.tokenList.length = size topk depth := by
  have hlen := d.length_later
  have hsum : ((d.later.map (·.topkIndex)).map length).sum = d.later.length * (topk * topk) := by
    rw [map_map, sum_eq_card_nsmul _ (topk * topk)]
    · simp
    · intro n hn
      obtain ⟨e, -, rfl⟩ := mem_map.1 hn
      exact e.length_topkIndex
  rw [tokenList, length_flatten, map_cons, sum_cons, d.length_first, hsum, size,
    show depth - 1 = d.later.length by omega, Nat.mul_comm]

theorem tokenList_later {l y : Nat} (hl : l < d.later.length) (hy : y < topk * topk) :
    d.tokenList[topk + (l * (topk * topk) + y)]? = (d.later[l]).topkIndex[y]? := by
  have hw : ∀ r ∈ d.later.map (·.topkIndex), r.length = topk * topk := by
    intro r hr
    obtain ⟨e, -, rfl⟩ := mem_map.1 hr
    exact e.length_topkIndex
  rw [tokenList, flatten_cons, getElem?_append_right (by rw [d.length_first]; omega), d.length_first,
    Nat.add_sub_cancel_left, Grid.getElem?_flatten hw hy]
  simp [hl]

/-- **Siblings have different tokens.** -/
theorem tokenList_inj {c' : Nat} (hc : c < size topk depth) (hc' : c' < size topk depth)
    (hslot : c / topk = c' / topk) (htok : d.tokenList[c]? = d.tokenList[c']?) : c = c' := by
  have hlen := d.length_later
  rcases Nat.lt_or_ge c topk with hlt | hge
  · have hlt' : c' < topk := by
      have hpos : 0 < topk := by omega
      rw [Nat.div_eq_of_lt hlt] at hslot
      by_contra hge
      have := Nat.div_pos (not_lt.1 hge) hpos
      omega
    rw [tokenList, flatten_cons, getElem?_append_left (by rw [d.length_first]; omega),
      getElem?_append_left (by rw [d.length_first]; omega)] at htok
    exact (getElem?_inj (by rw [d.length_first]; omega) d.nodup_first).1 htok
  · have hge' : topk ≤ c' := by
      by_contra hlt
      obtain ⟨l, r, x, hl, hr, hx, rfl⟩ := exists_of_le hc hge
      rw [div_topk hx, Nat.div_eq_of_lt (by omega)] at hslot
      omega
    obtain ⟨l, r, x, hl, hr, hx, rfl⟩ := exists_of_le hc hge
    obtain ⟨l', r', x', hl', hr', hx', rfl⟩ := exists_of_le hc' hge'
    rw [div_topk hx, div_topk hx'] at hslot
    obtain ⟨rfl, rfl⟩ := Grid.row_inj hr hr' (Nat.add_left_cancel hslot)
    rw [tokenList_later (by omega) (row_lt hr hx), tokenList_later (by omega) (row_lt hr hx')] at htok
    have hnodup := (d.later[l]).nodup_row r hr
    have hrow : ∀ y < topk, (((d.later[l]).topkIndex.drop (r * topk)).take topk)[y]? =
        (d.later[l]).topkIndex[r * topk + y]? := by
      intro y hy
      rw [getElem?_take_of_lt hy, getElem?_drop]
    rw [← hrow x hx, ← hrow x' hx'] at htok
    have hxlt : x < (((d.later[l]).topkIndex.drop (r * topk)).take topk).length := by
      have := row_lt hr hx
      have hsq : r * topk + topk ≤ topk * topk := by
        calc r * topk + topk = (r + 1) * topk := by ring
          _ ≤ topk * topk := Nat.mul_le_mul_right _ hr
      rw [length_take, length_drop, (d.later[l]).length_topkIndex]
      omega
    rw [(getElem?_inj hxlt hnodup).1 htok]

end Draft

end Eagle
