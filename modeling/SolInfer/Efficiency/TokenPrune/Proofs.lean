import SolInfer.Efficiency.TokenPrune

set_option autoImplicit false

/-! # Token pruning gathers and scatters consistently

The indices of the kept tokens are distinct and in range for every method, so gathering them and
writing the results back are inverse to each other. -/

open List

variable {K T F : Type} {idx : List Nat} {n stop start : Nat}

/-! ## Gather and scatter -/

section Indices

theorem length_sliceTokens (tokens : List T) (start : Nat) (hstop : stop ≤ tokens.length) :
    (sliceTokens tokens start stop).length = stop - start := by
  simp [sliceTokens, Nat.min_eq_left hstop]

theorem getElem?_sliceTokens (tokens : List T) (start stop i : Nat) :
    (sliceTokens tokens start stop)[i]? = if start + i < stop then tokens[start + i]? else none := by
  simp [sliceTokens, getElem?_take]

variable {tokens : List T}

section

variable (h : ∀ i ∈ idx, i < tokens.length)
include h

theorem indexSelect_eq : indexSelect tokens idx = .ok (idx.filterMap (fun i => tokens[i]?)) := by
  induction idx with
  | nil => rfl
  | cons i rest ih =>
    obtain ⟨hi, hrest⟩ := forall_mem_cons.1 h
    have hget : tokens[i]? = some tokens[i] := getElem?_eq_getElem hi
    have hih := ih hrest
    unfold indexSelect at hih ⊢
    rw [mapM_cons, hih, filterMap_cons, hget]
    rfl

theorem getElem?_filterMap_getElem? (q : Nat) :
    (idx.filterMap (fun i => tokens[i]?))[q]? = idx[q]?.bind (fun i => tokens[i]?) := by
  induction idx generalizing q with
  | nil => simp
  | cons i rest ih =>
    obtain ⟨hi, hrest⟩ := forall_mem_cons.1 h
    have hget : tokens[i]? = some tokens[i] := getElem?_eq_getElem hi
    rw [filterMap_cons, hget]
    cases q with
    | zero => simp [hget]
    | succ q => simpa using ih hrest q

theorem length_filterMap_getElem? : (idx.filterMap (fun i => tokens[i]?)).length = idx.length := by
  induction idx with
  | nil => rfl
  | cons i rest ih =>
    obtain ⟨hi, hrest⟩ := forall_mem_cons.1 h
    rw [filterMap_cons, getElem?_eq_getElem hi]
    simp [ih hrest]

end

theorem indexPut_spec (full : List T) {values : List T} (hnodup : idx.Nodup)
    (hrange : ∀ i ∈ idx, i < full.length) (hlength : idx.length = values.length) :
    ∃ full', indexPut full idx values = .ok full' ∧ full'.length = full.length ∧
      (∀ j i : Nat, idx[j]? = some i → full'[i]? = values[j]?) ∧
      ∀ d, d ∉ idx → full'[d]? = full[d]? := by
  induction idx generalizing full values with
  | nil =>
    have hvalues : values = [] := length_eq_zero_iff.1 hlength.symm
    subst hvalues
    exact ⟨full, rfl, rfl, by simp, fun _ _ => rfl⟩
  | cons i rest ih =>
    cases values with
    | nil => simp at hlength
    | cons t values =>
      obtain ⟨hi, hrest⟩ := forall_mem_cons.1 hrange
      obtain ⟨hnot, hnodup⟩ := nodup_cons.1 hnodup
      obtain ⟨full', hput, hlen, hwritten, hframe⟩ := ih (full.set i t) hnodup
        (by simpa using hrest) (by simpa using hlength)
      refine ⟨full', ?_, by simpa using hlen, fun j i' hj => ?_, fun d hd => ?_⟩
      · rw [indexPut, if_pos hi, hput]
      · cases j with
        | zero =>
          simp only [getElem?_cons_zero, Option.some.injEq] at hj ⊢
          subst hj
          rw [hframe i hnot, getElem?_set_self hi]
        | succ j => exact hwritten j i' hj
      · obtain ⟨hne, hd⟩ := not_or.1 fun h => hd (mem_cons.2 h)
        rw [hframe d hd, getElem?_set_ne (Ne.symm hne)]

theorem filterMap_range' (tokens : List T) (h : start + n ≤ tokens.length) :
    (range' start n).filterMap (fun i => tokens[i]?) = (tokens.drop start).take n := by
  refine ext_getElem? fun q => ?_
  rw [getElem?_filterMap_getElem? (fun i hi => by rw [mem_range'_1] at hi; omega)]
  rw [getElem?_take, getElem?_drop]
  by_cases hq : q < n
  · rw [getElem?_range' hq, if_pos hq]
    simp
  · rw [getElem?_eq_none (by simpa using hq), if_neg hq]
    rfl

theorem append_sliceTokens (tokens : List T) (h : start ≤ stop) :
    tokens.take start ++ sliceTokens tokens start stop ++ tokens.drop stop = tokens := by
  have htake : tokens.take start ++ sliceTokens tokens start stop = tokens.take stop := by
    have hinner : tokens.take start = (tokens.take stop).take start := by
      rw [take_take, Nat.min_eq_left h]
    rw [sliceTokens, hinner, take_append_drop]
  rw [htake, take_append_drop]

end Indices

namespace TokenPrune

/-! ## What the blocks see -/

section Seen

variable {hidden y z full : List T} {start stop : Nat} {kept : List Nat}

theorem seen_filterMap (hstart : start ≤ stop) (hstop : stop ≤ hidden.length)
    (hkept : ∀ i ∈ kept, i < stop - start) :
    (seen start stop hidden.length kept).filterMap (fun i => hidden[i]?) =
      hidden.take start ++ kept.filterMap (fun i => (sliceTokens hidden start stop)[i]?) ++
        hidden.drop stop := by
  have hmiddle : (kept.map (fun i => start + i)).filterMap (fun i => hidden[i]?) =
      kept.filterMap (fun i => (sliceTokens hidden start stop)[i]?) := by
    rw [filterMap_map]
    refine filterMap_congr fun i hi => ?_
    rw [getElem?_sliceTokens, if_pos (by have := hkept i hi; omega)]
    rfl
  rw [seen, filterMap_append, filterMap_append, hmiddle, range_eq_range',
    filterMap_range' hidden (by omega), filterMap_range' hidden (by omega), drop_zero]
  congr 1
  exact take_of_length_le (by simp)

theorem scattered_spec (hz : z = y.take start ++ full ++ y.drop (start + kept.length))
    (hstart : start ≤ stop) (hstop : stop ≤ n)
    (hy : y.length = (seen start stop n kept).length) (hfull : full.length = stop - start)
    (hwritten : ∀ j i : Nat, kept[j]? = some i → full[i]? = y[start + j]?) :
    z.length = n ∧ (∀ q pos : Nat, (seen start stop n kept)[q]? = some pos → z[pos]? = y[q]?) ∧
      (∀ d, d < stop - start → z[start + d]? = full[d]?) ∧ sliceTokens z start stop = full := by
  have hlength : y.length = start + kept.length + (n - stop) := by
    simpa [seen, Nat.add_assoc] using hy
  have htake : (y.take start).length = start := by simp; omega
  have hsegment (d : Nat) (hd : d < stop - start) : z[start + d]? = full[d]? := by
    rw [hz, append_assoc, getElem?_append_right (by omega), htake, getElem?_append_left (by omega)]
    congr 1
    omega
  refine ⟨?_, fun q pos hq => ?_, hsegment, ?_⟩
  · simp only [hz, length_append, htake, hfull, length_drop]
    omega
  · rw [seen, append_assoc] at hq
    by_cases hbefore : q < start
    · -- a token before the segment
      rw [getElem?_append_left (by simpa using hbefore), getElem?_range hbefore, Option.some.injEq] at hq
      subst hq
      rw [hz, append_assoc, getElem?_append_left (by omega), getElem?_take_of_lt hbefore]
    · rw [getElem?_append_right (by simpa using hbefore), length_range] at hq
      by_cases hinside : q - start < kept.length
      · -- a kept token
        rw [getElem?_append_left (by simpa using hinside), getElem?_map, Option.map_eq_some_iff] at hq
        obtain ⟨i, hi, rfl⟩ := hq
        have hwrite := hwritten _ _ hi
        have hq' : start + (q - start) = q := by omega
        rw [hq'] at hwrite
        have hlt : i < full.length := by
          by_contra hge
          rw [getElem?_eq_none (by omega), eq_comm, getElem?_eq_none_iff] at hwrite
          omega
        rw [hsegment i (by omega), hwrite]
      · -- a token behind the segment
        rw [getElem?_append_right (by simpa using hinside), length_map] at hq
        have hlt : q - start - kept.length < n - stop := by
          by_contra hge
          rw [getElem?_eq_none (by simpa using hge)] at hq
          cases hq
        rw [getElem?_range' hlt, Option.some.injEq] at hq
        rw [hz, getElem?_append_right (by simp [htake, hfull]; omega), length_append, htake,
          hfull, getElem?_drop]
        congr 1
        omega
  · refine ext_getElem? fun d => ?_
    rw [getElem?_sliceTokens]
    split
    · exact hsegment d (by omega)
    · rw [getElem?_eq_none (by omega)]

end Seen

/-! ## The kept positions -/

variable {hidden : List T}

section Selection

theorem pairwise_lt_mergeSort (h : idx.Nodup) : idx.mergeSort.Pairwise (· < ·) := by
  have hsorted : idx.mergeSort.Pairwise (fun a b => decide (a ≤ b) = true) :=
    pairwise_mergeSort fun a b c hab hbc => by simp at *; omega
      (fun a b => by simp; omega) idx
  have hnodup : idx.mergeSort.Nodup := (mergeSort_perm idx _).nodup_iff.2 h
  exact (hsorted.and hnodup).imp (fun hab => by
    have hle := of_decide_eq_true hab.1
    have hne := hab.2
    omega)

theorem mem_mergeSort {i : Nat} : i ∈ idx.mergeSort ↔ i ∈ idx :=
  (mergeSort_perm idx _).mem_iff

/-- The clamp of the even stride never applies. -/
theorem uniformIndices_eq {keep : Nat} (hle : keep ≤ n) :
    uniformIndices n keep = (range keep).map (fun i => i * n / keep) := by
  refine map_congr_left fun i hi => ?_
  have hi' := List.mem_range.1 hi
  have hdiv : i * n / keep < n := by
    rw [Nat.div_lt_iff_lt_mul (by omega), Nat.mul_comm n keep]
    exact Nat.mul_lt_mul_of_pos_right hi' (by omega)
  omega

theorem uniformIndices_spec {keep : Nat} (hkeep : 0 < keep) (hlt : keep < n) :
    (uniformIndices n keep).Pairwise (· < ·) ∧ ∀ i ∈ uniformIndices n keep, i < n := by
  refine ⟨?_, fun i hi => ?_⟩
  · rw [uniformIndices_eq hlt.le, pairwise_map]
    refine pairwise_lt_range.imp fun {a b} hab => ?_
    -- the stride is at least one, so the next position is strictly further
    calc a * n / keep < a * n / keep + 1 := Nat.lt_succ_self _
      _ = (a * n + keep) / keep := (Nat.add_div_right _ hkeep).symm
      _ ≤ b * n / keep := by
          refine Nat.div_le_div_right ?_
          calc a * n + keep ≤ a * n + n := by omega
            _ = (a + 1) * n := by ring
            _ ≤ b * n := Nat.mul_le_mul_right _ hab
  · rw [uniformIndices, mem_map] at hi
    obtain ⟨a, ha, rfl⟩ := hi
    omega

theorem keepCount_pos (n : Nat) (ratio : ℚ) : 0 < keepCount n ratio := by
  unfold keepCount
  omega

theorem keepCount_le (hn : 1 ≤ n) (ratio : ℚ) : keepCount n ratio ≤ n := by
  unfold keepCount
  omega

variable {velocity : Option (List T)} {ops : TokenOps T F} {method : String}

section

variable (hvelocity : ∀ tokens, velocity = some tokens → tokens.length = hidden.length)
include hvelocity

theorem methodScore_length {scores : List F} (h : methodScore ops method hidden velocity = some scores) :
    scores.length = hidden.length := by
  unfold methodScore at h
  split at h
  all_goals first
    | contradiction
    | (cases h; exact (ops.score_length _ _).trans (hvelocity _ rfl))
    | (cases h; exact ops.score_length _ _)

/-- **Every method keeps distinct positions of the segment, in ascending order**, and as many as asked for. -/
theorem keepIndices_spec (ops : TokenOps T F) (method : String) (ratio : ℚ) :
    (keepIndices ops method hidden.length ratio hidden velocity).Pairwise (· < ·) ∧
      (∀ i ∈ keepIndices ops method hidden.length ratio hidden velocity, i < hidden.length) ∧
      (1 ≤ hidden.length → (keepIndices ops method hidden.length ratio hidden velocity).length
        = keepCount hidden.length ratio) := by
  simp only [keepIndices]
  split
  next hall =>
    refine ⟨pairwise_lt_range, fun i hi => List.mem_range.1 hi, fun hn => ?_⟩
    rw [length_range]
    exact hall.antisymm (keepCount_le hn ratio)
  next hkeep =>
    rw [not_le] at hkeep
    split
    next scores hscores =>
      have hlength := methodScore_length hvelocity hscores
      have hle : keepCount hidden.length ratio ≤ scores.length := by omega
      refine ⟨pairwise_lt_mergeSort (ops.topk_nodup _ _ hle), fun i hi => ?_, fun _ => ?_⟩
      · rw [← hlength]
        exact ops.topk_lt _ _ hle i (mem_mergeSort.1 hi)
      · rw [length_mergeSort, ops.topk_length _ _ hle]
    · split
      · have hperm := ops.randperm_perm hidden.length
        refine ⟨pairwise_lt_mergeSort ?_, fun i hi => ?_, fun _ => ?_⟩
        · exact (hperm.nodup_iff.2 nodup_range).sublist (take_sublist _ _)
        · exact List.mem_range.1 (hperm.mem_iff.1 (mem_of_mem_take (mem_mergeSort.1 hi)))
        · rw [length_mergeSort, length_take, hperm.length_eq, length_range, min_eq_left hkeep.le]
      · obtain ⟨hasc, hlt⟩ := uniformIndices_spec (keepCount_pos _ _) hkeep
        exact ⟨hasc, hlt, fun _ => by rw [uniformIndices, length_map, length_range]⟩

end

/-- A method without scores that is not the random one takes the even stride, also where it keeps
    every token. -/
theorem keepIndices_uniform (ratio : ℚ) (hscore : methodScore ops method hidden velocity = none)
    (hrandom : ¬ (method = "random" ∨ method = "rand")) (hn : 1 ≤ hidden.length) :
    keepIndices ops method hidden.length ratio hidden velocity
      = (range (keepCount hidden.length ratio)).map
          (fun i => i * hidden.length / keepCount hidden.length ratio) := by
  have hcount := keepCount_le hn ratio
  simp only [keepIndices, hscore, if_neg hrandom]
  split
  next hle =>
    have heq : keepCount hidden.length ratio = hidden.length := by omega
    simp [heq, Nat.mul_div_cancel _ (show 0 < hidden.length by omega)]
  · exact uniformIndices_eq hcount

/-- The methods that score the tokens, and their scores: `velocity` those of the previous velocity,
    if there is one, the others those of the hidden tokens. -/
inductive Scored (ops : TokenOps T F) (hidden : List T) (velocity : Option (List T)) :
    String → List F → Prop
  | velocity {method : String} {tokens : List T} (hmethod : method ∈ ["velocity", "vel"])
      (hvelocity : velocity = some tokens) :
      Scored ops hidden velocity method (ops.score .sumSquares tokens)
  | squares {method : String} (hmethod : method ∈ ["feat_norm", "feat", "norm", "feat_l2"]) :
      Scored ops hidden velocity method (ops.score .sumSquares hidden)
  | abs : Scored ops hidden velocity "feat_l1" (ops.score .sumAbs hidden)
  | max {method : String} (hmethod : method ∈ ["feat_linf", "feat_max"]) :
      Scored ops hidden velocity method (ops.score .maxAbs hidden)
  | variance : Scored ops hidden velocity "feat_var" (ops.score .variance hidden)

theorem methodScore_eq_some {scores : List F} :
    methodScore ops method hidden velocity = some scores ↔ Scored ops hidden velocity method scores := by
  constructor
  · intro h
    unfold methodScore at h
    split at h
    case h_1 | h_2 => cases h; exact .velocity (by simp) rfl
    case h_3 | h_4 | h_5 | h_6 => cases h; exact .squares (by simp)
    case h_7 => cases h; exact .abs
    case h_8 | h_9 => cases h; exact .max (by simp)
    case h_10 => cases h; exact .variance
    case h_11 => cases h
  · intro h
    cases h with
    | velocity hmethod hvelocity =>
      subst hvelocity
      rcases List.mem_pair.1 hmethod with rfl | rfl <;> rfl
    | squares hmethod =>
      simp only [List.mem_cons, List.not_mem_nil, or_false] at hmethod
      rcases hmethod with rfl | rfl | rfl | rfl <;> rfl
    | max hmethod => rcases List.mem_pair.1 hmethod with rfl | rfl <;> rfl
    | abs | variance => rfl

/-- `torch.topk` returns positions of the largest scores. -/
def TopkLargest [LE F] (ops : TokenOps T F) : Prop :=
  ∀ scores k, k ≤ scores.length → ∀ i ∈ ops.topk scores k, ∀ j, j ∉ ops.topk scores k →
    ∀ a b, scores[i]? = some a → scores[j]? = some b → b ≤ a

theorem keepIndices_largest [LE F] (hops : TopkLargest ops) (ratio : ℚ) {scores : List F}
    (hvelocity : ∀ tokens, velocity = some tokens → tokens.length = hidden.length)
    (hscore : methodScore ops method hidden velocity = some scores) {i j : Nat} {a b : F}
    (hi : i ∈ keepIndices ops method hidden.length ratio hidden velocity)
    (hj : j ∉ keepIndices ops method hidden.length ratio hidden velocity)
    (ha : scores[i]? = some a) (hb : scores[j]? = some b) : b ≤ a := by
  have hlength := methodScore_length hvelocity hscore
  simp only [keepIndices, hscore] at hi hj
  split at hi
  next hle =>
    -- every token is kept
    rw [if_pos hle, List.mem_range] at hj
    have := (List.getElem?_eq_some_iff.1 hb).1
    omega
  next hle =>
    rw [if_neg hle, mem_mergeSort] at hj
    exact hops scores _ (by omega) i (mem_mergeSort.1 hi) j hj a b ha hb

/-- **`keep_indices` selects a valid ascending subset**: as many distinct positions as the clamped
    ratio asks for, in ascending order; the even stride for a method without scores that is not the
    random one; and for a scored method positions of the largest scores. -/
theorem keepIndices_valid [LE F] (ops : TokenOps T F) (hops : TopkLargest ops) (method : String)
    (ratio : ℚ) (hidden : List T) (velocity : Option (List T)) (hn : 1 ≤ hidden.length)
    (hvelocity : ∀ tokens, velocity = some tokens → tokens.length = hidden.length) :
    (keepIndices ops method hidden.length ratio hidden velocity).Pairwise (· < ·) ∧
    (∀ i ∈ keepIndices ops method hidden.length ratio hidden velocity, i < hidden.length) ∧
    ((keepIndices ops method hidden.length ratio hidden velocity).length : ℤ)
      = max 1 (min (hidden.length : ℤ) (roundHalfEven (hidden.length * ratio))) ∧
    ((∀ scores, ¬ Scored ops hidden velocity method scores) → method ∉ ["random", "rand"] →
      keepIndices ops method hidden.length ratio hidden velocity
        = (range (keepCount hidden.length ratio)).map
            (fun i => i * hidden.length / keepCount hidden.length ratio)) ∧
    (∀ scores, Scored ops hidden velocity method scores →
      ∀ i ∈ keepIndices ops method hidden.length ratio hidden velocity,
      ∀ j, j ∉ keepIndices ops method hidden.length ratio hidden velocity →
      ∀ a b, scores[i]? = some a → scores[j]? = some b → b ≤ a) := by
  obtain ⟨hasc, hlt, hlength⟩ := keepIndices_spec hvelocity ops method ratio
  refine ⟨hasc, hlt, ?_, fun hscore hrandom => ?_, fun scores hscore i hi j hj a b ha hb => ?_⟩
  · rw [hlength hn, keepCount]
    omega
  · have hnone : methodScore ops method hidden velocity = none :=
      Option.eq_none_iff_forall_ne_some.2 fun scores h => hscore scores (methodScore_eq_some.1 h)
    exact keepIndices_uniform ratio hnone (mt List.mem_pair.2 hrandom) hn
  · exact keepIndices_largest hops ratio hvelocity (methodScore_eq_some.2 hscore) hi hj ha hb

def ranked (scores : List ℚ) : List Nat :=
  (range scores.length).mergeSort fun i j => decide (scores.getD j 0 ≤ scores.getD i 0)

theorem ranked_perm (scores : List ℚ) : (ranked scores).Perm (range scores.length) :=
  mergeSort_perm _ _

/-- A token is a number and its score the number itself; `topk` sorts. -/
def rankOps : TokenOps ℚ ℚ where
  score := fun _ tokens => tokens
  topk := fun scores k => (ranked scores).take k
  randperm := range
  score_length := fun _ _ => rfl
  topk_length := fun scores k hk => by
    rw [length_take, (ranked_perm scores).length_eq, length_range, min_eq_left hk]
  topk_nodup := fun scores k _ =>
    ((ranked_perm scores).nodup_iff.2 nodup_range).sublist (take_sublist _ _)
  topk_lt := fun scores k _ i hi =>
    List.mem_range.1 ((ranked_perm scores).mem_iff.1 (mem_of_mem_take hi))
  randperm_perm := fun _ => List.Perm.refl _

theorem rankOps_topkLargest : TopkLargest rankOps := by
  intro scores k _ i hi j hj a b ha hb
  have hsorted : (ranked scores).Pairwise (fun i j => decide (scores.getD j 0 ≤ scores.getD i 0)) :=
    pairwise_mergeSort
      (fun x y z hxy hyz => by
        rw [decide_eq_true_iff] at hxy hyz ⊢
        exact hyz.trans hxy)
      (fun x y => by
        rw [Bool.or_eq_true, decide_eq_true_iff, decide_eq_true_iff]
        exact le_total _ _) _
  have hmem : j ∈ ranked scores :=
    (ranked_perm scores).mem_iff.2 (List.mem_range.2 (List.getElem?_eq_some_iff.1 hb).1)
  rw [← List.take_append_drop k (ranked scores)] at hsorted hmem
  have hdrop : j ∈ (ranked scores).drop k := (List.mem_append.1 hmem).resolve_left hj
  have hle := of_decide_eq_true ((pairwise_append.1 hsorted).2.2 i hi j hdrop)
  rwa [getD_eq_getElem?_getD, getD_eq_getElem?_getD, ha, hb] at hle

/-- Of four tokens the scored method keeps two, and the even stride the positions 0 and 2. -/
theorem keepIndices_valid_four_tokens :
    ((keepIndices rankOps "feat_norm" 4 (1 / 2) [1, 5, 3, 2]).length : ℤ)
      = max 1 (min 4 (roundHalfEven (4 * (1 / 2)))) ∧
    keepIndices rankOps "uniform" 4 (1 / 2) [1, 5, 3, 2] = [0, 2] :=
  ⟨(keepIndices_valid rankOps rankOps_topkLargest "feat_norm" (1 / 2) [1, 5, 3, 2] none
    (by decide) nofun).2.2.1, by decide +kernel⟩

end Selection

/-! ## One active step -/

variable {x : StepInput T}

section Step

variable {ops : TokenOps T F} {p : TokenPrune K T} {cacheKey : K} {prev : Option (List T)}
  {kept : List Nat}

/-- What a step must meet: the segment lies in the tensor and depends on the number of tokens only,
    the blocks keep that number, and the stored segment has the length of this one. -/
structure Admitted (p : TokenPrune K T) (cacheKey : K) (prev : Option (List T)) (x : StepInput T) :
    Prop where
  start_le : (p.span cacheKey x).1 ≤ (p.span cacheKey x).2
  stop_le : (p.span cacheKey x).2 ≤ x.hidden.length
  segment : ∀ tokens, tokens.length = x.hidden.length →
    segment p.prunableSegment tokens (context cacheKey x) = p.span cacheKey x
  blocks : ∀ tokens, (x.blocks tokens).length = tokens.length
  prev : ∀ tokens, prev = some tokens → tokens.length = (p.span cacheKey x).2 - (p.span cacheKey x).1

def blockInput (ops : TokenOps T F) (p : TokenPrune K T) (cacheKey : K) (prev : Option (List T))
    (x : StepInput T) : List T :=
  (seen (p.span cacheKey x).1 (p.span cacheKey x).2 x.hidden.length
    (keptPositions ops p cacheKey x prev)).filterMap fun i => x.hidden[i]?

theorem getElem?_blank [Zero T] (p : TokenPrune K T) (prev : Option (List T)) {d : Nat} (hd : d < n) :
    (p.blank n prev)[d]? = p.compensated prev d := by
  unfold blank compensated
  split
  · split
    · exact getElem?_replicate_of_lt hd
    · rfl
  · exact getElem?_replicate_of_lt hd

section

variable (hx : Admitted p cacheKey prev x) (hspan : p.span cacheKey x = (start, stop))
include hx hspan

theorem Admitted.bounds : start ≤ stop ∧ stop ≤ x.hidden.length := by
  have hstart := hx.start_le
  have hstop := hx.stop_le
  rw [hspan] at hstart hstop
  exact ⟨hstart, hstop⟩

theorem Admitted.length_segment : (sliceTokens x.hidden start stop).length = stop - start :=
  length_sliceTokens _ _ (hx.bounds hspan).2

theorem length_blank [Zero T] : (p.blank (stop - start) prev).length = stop - start := by
  unfold blank
  split
  · split
    · exact length_replicate
    · simpa only [hspan] using hx.prev _ rfl
  · exact length_replicate

variable (hkept : keptPositions ops p cacheKey x prev = kept)
include hkept

theorem keptPositions_spec : kept.Pairwise (· < ·) ∧ ∀ i ∈ kept, i < stop - start := by
  rw [← hkept]
  simp only [keptPositions, hspan]
  split
  · exact ⟨pairwise_lt_range, fun i hi => List.mem_range.1 hi⟩
  · rw [← hx.length_segment hspan]
    exact (keepIndices_spec (fun _ h => by cases h) ops p.method _).imp_right And.left

theorem length_blocks_blockInput : (x.blocks (blockInput ops p cacheKey prev x)).length =
    start + kept.length + (x.hidden.length - stop) := by
  obtain ⟨hstart, hstop⟩ := hx.bounds hspan
  have hseen : ∀ i ∈ seen start stop x.hidden.length kept, i < x.hidden.length := by
    intro i hi
    simp only [seen, mem_append, mem_range, mem_map, mem_range'_1] at hi
    rcases hi with (hi | ⟨j, hj, rfl⟩) | hi
    · omega
    · have := (keptPositions_spec hx hspan hkept).2 j hj
      omega
    · omega
  rw [hx.blocks, blockInput, hspan, hkept, length_filterMap_getElem? hseen]
  simp [seen, Nat.add_assoc]

theorem consistent_of_scattered [Zero T] (y full : List T) {z : List T}
    (hz : z = y.take start ++ full ++ y.drop (start + kept.length))
    (hy : y = x.blocks (blockInput ops p cacheKey prev x)) (hfull : full.length = stop - start)
    (hwritten : ∀ j i : Nat, kept[j]? = some i → full[i]? = y[start + j]?)
    (hdropped : ∀ d, d < stop - start → d ∉ kept → full[d]? = p.compensated prev d) :
    Consistent ops p cacheKey prev ⟨x, z⟩ ∧ sliceTokens z start stop = full := by
  obtain ⟨hstart, hstop⟩ := hx.bounds hspan
  have hlength : y.length = (seen start stop x.hidden.length kept).length := by
    rw [hy, length_blocks_blockInput hx hspan hkept]
    simp [seen, Nat.add_assoc]
  obtain ⟨htokens, houtputs, hsegment, hslice⟩ := scattered_spec hz hstart hstop hlength hfull hwritten
  have hspec := keptPositions_spec hx hspan hkept
  refine ⟨⟨htokens, ?_, ?_, ?_⟩, hslice⟩ <;> simp only [hspan, hkept]
  · exact hspec
  · intro q pos hq
    rw [houtputs q pos hq, hy, blockInput, hspan, hkept]
  · intro d hd hnot
    rw [hsegment d hd, hdropped d hd hnot]

theorem blockInput_seed (hseed : prev.isNone ∧ p.compensation = "prev") :
    kept = range (stop - start) ∧ blockInput ops p cacheKey prev x = x.hidden := by
  have hrange : kept = range (stop - start) := by
    rw [← hkept]
    simp only [keptPositions, hspan, if_pos hseed]
  have hseg := hx.length_segment hspan
  obtain ⟨hstart, hstop⟩ := hx.bounds hspan
  refine ⟨hrange, ?_⟩
  have hall : (range (stop - start)).filterMap (fun i => (sliceTokens x.hidden start stop)[i]?) =
      sliceTokens x.hidden start stop := by
    rw [range_eq_range', filterMap_range' _ (by omega), drop_zero, take_of_length_le hseg.le]
  rw [blockInput, hspan, hkept, seen_filterMap hstart hstop (keptPositions_spec hx hspan hkept).2, hrange,
    hall, append_sliceTokens _ hstart]

end

variable [DecidableEq K] {s : StepState K (List T) (List T)}

def stored (cacheKey : K) (s : StepState K (List T) (List T)) : Option (List T) :=
  s.scratch.get? (key cacheKey)

@[simp]
theorem stored_withStored (cacheKey : K) (tokens : List T) (s : StepState K (List T) (List T)) :
    stored cacheKey (withStored cacheKey tokens s) = some tokens := by
  simp [stored, withStored]

theorem beforeBlocks_prune {ctx : TechniqueContext K} {kept : List T}
    (hspan : segment p.prunableSegment hidden ctx = (start, stop))
    (hprev : s.scratch.get? (key ctx.cacheKey) = prev)
    (hseed : ¬ (prev.isNone ∧ p.compensation = "prev"))
    (hselect : indexSelect (sliceTokens hidden start stop)
      (keepIndices ops p.method (sliceTokens hidden start stop).length
        (p.keepRatio.atStep ctx.step ctx.stage) (sliceTokens hidden start stop)) = .ok kept) :
    beforeBlocks ops p ctx hidden s = .ok ((hidden.take start ++ kept ++ hidden.drop stop,
      some ⟨start, stop, keepIndices ops p.method (sliceTokens hidden start stop).length
        (p.keepRatio.atStep ctx.step ctx.stage) (sliceTokens hidden start stop),
        (sliceTokens hidden start stop).length, prev⟩), s) := by
  simp only [beforeBlocks, hspan, hprev, if_neg hseed, hselect]

variable [Zero T]

/-- `before_blocks`, the blocks and `after_blocks` of the technique alone. -/
def hookStep (ops : TokenOps T F) (p : TokenPrune K T) (cacheKey : K)
    (s : StepState K (List T) (List T)) (x : StepInput T) :
    Except PyError (List T × StepState K (List T) (List T)) := do
  let ((pruned, carry), s) ← beforeBlocks ops p (context cacheKey x) x.hidden s
  afterBlocks p (context cacheKey x) (x.blocks pruned) carry s

theorem hookStep_seed (s : StepState K (List T) (List T))
    (hprev : stored cacheKey s = none) (hcomp : p.compensation = "prev")
    (hx : Admitted p cacheKey none x) (hspan : p.span cacheKey x = (start, stop)) :
    hookStep ops p cacheKey s x = .ok (x.blocks x.hidden,
      withStored cacheKey (sliceTokens (x.blocks x.hidden) start stop)
        (withStored cacheKey (sliceTokens x.hidden start stop) s)) := by
  have hscratch : s.scratch.get? (key (context cacheKey x).cacheKey) = none := hprev
  have hseed : (s.scratch.get? (key (context cacheKey x).cacheKey)).isNone = true ∧
      p.compensation = "prev" := ⟨by rw [hscratch]; rfl, hcomp⟩
  have hsegment := (hx.segment (x.blocks x.hidden) (hx.blocks x.hidden)).trans hspan
  have hbefore : beforeBlocks ops p (context cacheKey x) x.hidden s = .ok ((x.hidden, none),
      withStored cacheKey (sliceTokens x.hidden start stop) s) := by
    rw [span] at hspan
    simp only [beforeBlocks, hspan, if_pos hseed]
    rfl
  rw [hookStep, hbefore]
  show afterBlocks p (context cacheKey x) (x.blocks x.hidden) none _ = _
  simp only [afterBlocks, hsegment]
  rfl

theorem hookStep_prune (s : StepState K (List T) (List T))
    {full : List T} (hprev : stored cacheKey s = prev)
    (hseed : ¬ (prev.isNone ∧ p.compensation = "prev")) (hx : Admitted p cacheKey prev x)
    (hspan : p.span cacheKey x = (start, stop)) (hkept : keptPositions ops p cacheKey x prev = kept)
    (hput : indexPut (p.blank (stop - start) prev) kept
      (sliceTokens (x.blocks (blockInput ops p cacheKey prev x)) start (start + kept.length)) = .ok full) :
    hookStep ops p cacheKey s x = .ok
      ((x.blocks (blockInput ops p cacheKey prev x)).take start ++ full ++
        (x.blocks (blockInput ops p cacheKey prev x)).drop (start + kept.length),
        withStored cacheKey full s) := by
  obtain ⟨hstart, hstop⟩ := hx.bounds hspan
  have hseg := hx.length_segment hspan
  have heq : kept = keepIndices ops p.method (sliceTokens x.hidden start stop).length
      (p.keepRatio.atStep x.step x.stage) (sliceTokens x.hidden start stop) := by
    rw [hseg, ← hkept]
    simp only [keptPositions, hspan, if_neg hseed]
  have hrange := (keptPositions_spec hx hspan hkept).2
  have hselect : indexSelect (sliceTokens x.hidden start stop) kept = .ok _ :=
    indexSelect_eq (by rw [hseg]; exact hrange)
  have hbefore : beforeBlocks ops p (context cacheKey x) x.hidden s =
      .ok ((blockInput ops p cacheKey prev x, some ⟨start, stop, kept, stop - start, prev⟩), s) := by
    have hscratch : s.scratch.get? (key (context cacheKey x).cacheKey) = prev := hprev
    rw [heq] at hselect
    rw [blockInput, hspan, hkept, seen_filterMap hstart hstop hrange,
      beforeBlocks_prune hspan hscratch hseed hselect, ← hseg, heq]
    rfl
  rw [hookStep, hbefore]
  simp only [bind, Except.bind, afterBlocks, hput]
  rfl

/-- **One active step** gives a consistent tensor and stores its segment. -/
theorem hookStep_spec (ops : TokenOps T F) (s : StepState K (List T) (List T))
    (hprev : stored cacheKey s = prev) (hx : Admitted p cacheKey prev x) :
    ∃ output s', hookStep ops p cacheKey s x = .ok (output, s') ∧
      Consistent ops p cacheKey prev ⟨x, output⟩ ∧
      stored cacheKey s' = some (sliceTokens output (p.span cacheKey x).1 (p.span cacheKey x).2) := by
  obtain ⟨⟨start, stop⟩, hspan⟩ : ∃ ends, p.span cacheKey x = ends := ⟨_, rfl⟩
  obtain ⟨kept, hkept⟩ : ∃ kept, keptPositions ops p cacheKey x prev = kept := ⟨_, rfl⟩
  obtain ⟨hstart, hstop⟩ := hx.bounds hspan
  simp only [hspan]
  by_cases hseed : prev.isNone ∧ p.compensation = "prev"
  · -- the first active step keeps every token, so nothing is dropped
    obtain ⟨hrange, hinput⟩ := blockInput_seed hx hspan hkept hseed
    obtain rfl : prev = none := Option.isNone_iff_eq_none.1 hseed.1
    have hlength := (hx.blocks x.hidden).symm ▸ hstop
    have hend : start + kept.length = stop := by
      rw [hrange, length_range]
      omega
    have hscattered := consistent_of_scattered hx hspan hkept (x.blocks x.hidden)
      (sliceTokens (x.blocks x.hidden) start stop) (by rw [hend, append_sliceTokens _ hstart])
      (by rw [hinput]) (length_sliceTokens _ _ hlength) (fun j i hj => ?_) fun d hd hnot => ?_
    · exact ⟨_, _, hookStep_seed s hprev hseed.2 hx hspan, hscattered.1, by simp⟩
    · rw [hrange] at hj
      obtain ⟨hlt, rfl⟩ := List.getElem?_eq_some_iff.1 hj
      rw [List.length_range] at hlt
      rw [List.getElem_range, getElem?_sliceTokens, if_pos (by omega)]
    · rw [hrange, mem_range] at hnot
      exact absurd hd hnot
  · have hspec := keptPositions_spec hx hspan hkept
    have hblank := length_blank hx hspan
    have hy := length_blocks_blockInput hx hspan hkept
    have hkeptOut := length_sliceTokens (x.blocks (blockInput ops p cacheKey prev x))
      start (le_of_add_le_left hy.ge)
    obtain ⟨full, hput, hfull, hwritten, hframe⟩ := indexPut_spec (p.blank (stop - start) prev)
      (hspec.1.imp (fun hab => hab.ne)) (by rw [hblank]; exact hspec.2)
      (by rw [hkeptOut, Nat.add_sub_cancel_left])
    have hscattered := consistent_of_scattered hx hspan hkept _ full rfl rfl (hfull.trans hblank)
      (fun j i hj => ?_) fun d hd hnot => by rw [hframe d hnot, getElem?_blank _ _ hd]
    · exact ⟨_, _, hookStep_prune s hprev hseed hx hspan hkept hput, hscattered.1,
        by rw [stored_withStored, hscattered.2]⟩
    · -- the result of the `j`-th kept token is written at its position
      obtain ⟨hlt, -⟩ := List.getElem?_eq_some_iff.1 hj
      rw [hwritten j i hj, getElem?_sliceTokens, if_pos (by omega)]

end Step

/-! ## Runs of a plan -/

section Runs

variable {ops : TokenOps T F} {p : TokenPrune K T} {cacheKey : K} {earlier : List (Record T)}

theorem lastSegment_cons_active {r : Record T} (h : p.isActive r.input = true) :
    p.lastSegment cacheKey (r :: earlier) =
      some (sliceTokens r.output (p.span cacheKey r.input).1 (p.span cacheKey r.input).2) := by
  simp [lastSegment, h]

theorem lastSegment_cons_inactive {r : Record T} (h : ¬ p.isActive r.input = true) :
    p.lastSegment cacheKey (r :: earlier) = p.lastSegment cacheKey earlier := by
  simp [lastSegment, h]

variable [DecidableEq K] [Zero T] {plan : Plan K (List T) (List T) (Carry T)}
  {s : StepState K (List T) (List T)}

section

variable (hplan : plan.techniques.filter (fun t => t.phase = .preBlocks) = [technique ops p])
include hplan

theorem planStep_active {s' : StepState K (List T) (List T)} {output : List T}
    (hactive : p.isActive x = true) (h : hookStep ops p cacheKey s x = .ok (output, s')) :
    planStep plan cacheKey s x = .ok (⟨x, output⟩, s') := by
  have hcalled : plan.active (context cacheKey x) .preBlocks = [technique ops p] := by
    rw [Plan.active_eq hplan, if_pos]
    exact hactive
  unfold hookStep at h
  unfold planStep Plan.beforeBlocks
  rw [hcalled]
  cases hbefore : beforeBlocks ops p (context cacheKey x) x.hidden s with
  | error e =>
    rw [hbefore] at h
    cases h
  | ok b =>
    rw [hbefore] at h
    obtain ⟨⟨pruned, carry⟩, s₁⟩ := b
    have hafter : afterBlocks p (context cacheKey x) (x.blocks pruned) carry s₁ =
        .ok (output, s') := h
    have hone : ([technique ops p].foldlM (fun (hidden, carries) t => do
        let (hidden, carry) ← t.beforeBlocks (context cacheKey x) hidden
        return (hidden, carries ++ [(t, carry)])) (x.hidden, []) :
          HookM K (List T) (List T) (List T × List (Technique K (List T) (List T) (Carry T) ×
            Option (Carry T)))) s = .ok ((pruned, [(technique ops p, carry)]), s₁) := by
      simp only [foldlM_cons, foldlM_nil, bind, StateT.bind, Except.bind, technique,
        hbefore, pure, StateT.pure, Except.pure, nil_append]
    rw [hone]
    simp only [bind, Except.bind, Plan.afterBlocks, reverse_singleton, foldlM_cons,
      foldlM_nil, StateT.bind, technique, hafter, pure, StateT.pure, Except.pure]

theorem planStep_inactive (s : StepState K (List T) (List T)) (hactive : ¬ p.isActive x = true) :
    planStep plan cacheKey s x = .ok (⟨x, x.blocks x.hidden⟩, s) := by
  have hcalled : plan.active (context cacheKey x) .preBlocks = [] := by
    rw [Plan.active_eq hplan, if_neg]
    exact hactive
  unfold planStep Plan.beforeBlocks
  rw [hcalled]
  rfl

theorem planStep_spec (hstored : stored cacheKey s = p.lastSegment cacheKey earlier)
    (hx : p.isActive x = true → Admitted p cacheKey (p.lastSegment cacheKey earlier) x) :
    ∃ output s', planStep plan cacheKey s x = .ok (⟨x, output⟩, s') ∧
      (p.isActive x = true →
        Consistent ops p cacheKey (p.lastSegment cacheKey earlier) ⟨x, output⟩ ∧
        stored cacheKey s' =
          some (sliceTokens output (p.span cacheKey x).1 (p.span cacheKey x).2)) ∧
      stored cacheKey s' = p.lastSegment cacheKey (⟨x, output⟩ :: earlier) := by
  by_cases hactive : p.isActive x = true
  · obtain ⟨output, s', hstep, hconsistent, hstored'⟩ :=
      hookStep_spec ops s hstored (hx hactive)
    refine ⟨output, s', planStep_active hplan hactive hstep, fun _ => ⟨hconsistent, hstored'⟩, ?_⟩
    rw [hstored', lastSegment_cons_active hactive]
  · refine ⟨_, s, planStep_inactive hplan s hactive, fun h => absurd h hactive, ?_⟩
    rw [hstored, lastSegment_cons_inactive hactive]

end

/-- **Token pruning gathers and scatters consistently**: in every state that a run reaches, a step
    returns a tensor put together from the block outputs of the tokens the blocks saw and the values
    that stand in for the others, and leaves the segment of that tensor behind. -/
theorem planStep_consistent
    (hplan : plan.techniques.filter (fun t => t.phase = .preBlocks) = [technique ops p])
    {s₀ : StepState K (List T) (List T)} (hs₀ : stored cacheKey s₀ = none)
    {s : StepState K (List T) (List T) × List (Record T)}
    (h : Run.Reaches (logStep plan cacheKey) (fun s x => p.isActive x = true →
      Admitted p cacheKey (p.lastSegment cacheKey s.2) x) (s₀, []) s)
    {x : StepInput T} (hactive : p.isActive x = true)
    (hx : Admitted p cacheKey (p.lastSegment cacheKey s.2) x) :
    ∃ output s', planStep plan cacheKey s.1 x = .ok (⟨x, output⟩, s') ∧
      Consistent ops p cacheKey (p.lastSegment cacheKey s.2) ⟨x, output⟩ ∧
      stored cacheKey s' = some (sliceTokens output (p.span cacheKey x).1 (p.span cacheKey x).2) := by
  -- the scratch entry is the segment of the last active step, whatever came in between
  have hstored : stored cacheKey s.1 = p.lastSegment cacheKey s.2 := by
    refine h.invariant (I := fun s => stored cacheKey s.1 = p.lastSegment cacheKey s.2) hs₀ ?_
    rintro ⟨s, earlier⟩ x s' hstored hx hstep
    obtain ⟨output, s₁, hplanStep, -, hstored'⟩ := planStep_spec hplan hstored hx
    simp only [logStep, hplanStep, Option.some.injEq] at hstep
    rw [← hstep]
    exact hstored'
  obtain ⟨output, s', hstep, hspec, -⟩ := planStep_spec hplan hstored fun _ => hx
  exact ⟨output, s', hstep, hspec hactive⟩

end Runs

/-! ## Two steps -/

def firstOps : TokenOps ℚ ℚ where
  score := fun _ tokens => tokens
  topk := fun _ k => range k
  randperm := range
  score_length := fun _ _ => rfl
  topk_length := fun _ _ _ => length_range
  topk_nodup := fun _ _ _ => nodup_range
  topk_lt := fun _ _ hk _ hi => (List.mem_range.1 hi).trans_le hk
  randperm_perm := fun _ => List.Perm.refl _

def halving : TokenPrune Unit ℚ := { keepRatio := .const (1 / 2), method := "uniform" }

def halvingPlan : Plan Unit (List ℚ) (List ℚ) (Carry ℚ) where
  transforms := []
  techniques := [technique firstOps halving]
  spec := { name := "model", capabilities := {.prunableTokens} }

def tenfold (step : Int) (hidden : List ℚ) : StepInput ℚ := ⟨step, "", hidden, List.map (10 * ·)⟩

theorem admitted_tenfold {prev : Option (List ℚ)} (step : Int) (hidden : List ℚ)
    (hprev : ∀ tokens, prev = some tokens → tokens.length = hidden.length) :
    Admitted halving () prev (tenfold step hidden) where
  start_le := Nat.zero_le _
  stop_le := le_refl _
  segment := fun _ h => congrArg (Prod.mk 0) h
  blocks := fun _ => length_map _
  prev := hprev

theorem logStep_tenfold :
    logStep halvingPlan () (⟨.empty, 0⟩, []) (tenfold 0 [1, 2, 3, 4]) =
      some (withStored () [10, 20, 30, 40] (withStored () [1, 2, 3, 4] ⟨.empty, 0⟩),
        [⟨tenfold 0 [1, 2, 3, 4], [10, 20, 30, 40]⟩]) := by
  have houtput : (tenfold 0 [1, 2, 3, 4]).blocks [1, 2, 3, 4] = [10, 20, 30, 40] := by
    decide +kernel
  have hstep : hookStep firstOps halving () ⟨.empty, 0⟩ (tenfold 0 [1, 2, 3, 4]) =
      .ok ([10, 20, 30, 40], withStored () [10, 20, 30, 40] (withStored () [1, 2, 3, 4] ⟨.empty, 0⟩)) := by
    rw [hookStep_seed _ rfl rfl (admitted_tenfold 0 [1, 2, 3, 4] nofun) rfl]
    rw [show (tenfold 0 [1, 2, 3, 4]).hidden = [1, 2, 3, 4] from rfl, houtput]
    rfl
  have hplan : halvingPlan.techniques.filter (fun t => t.phase = .preBlocks) =
      [technique firstOps halving] := rfl
  rw [logStep, planStep_active hplan (by decide +kernel) hstep]

/-- The second step keeps the positions 0 and 2, and the others get the outputs of the first. -/
theorem planStep_consistent_two_steps :
    ∃ s, logStep halvingPlan () (⟨.empty, 0⟩, []) (tenfold 0 [1, 2, 3, 4]) = some s ∧
      (planStep halvingPlan () s.1 (tenfold 1 [5, 6, 7, 8])).toOption.map (fun r => r.1.output) =
        some [50, 20, 70, 40] ∧
      ∃ output s', planStep halvingPlan () s.1 (tenfold 1 [5, 6, 7, 8]) =
          .ok (⟨tenfold 1 [5, 6, 7, 8], output⟩, s') ∧
        Consistent firstOps halving () (halving.lastSegment () s.2)
          ⟨tenfold 1 [5, 6, 7, 8], output⟩ ∧
        stored () s' = some (sliceTokens output 0 4) := by
  refine ⟨_, logStep_tenfold, by decide +kernel, planStep_consistent rfl rfl
    (.step .refl (fun _ => admitted_tenfold 0 _ nofun) logStep_tenfold)
    (by decide +kernel) (admitted_tenfold 1 _ ?_)⟩
  rw [lastSegment_cons_active (by decide +kernel)]
  rintro tokens ⟨⟩
  rfl

end TokenPrune
