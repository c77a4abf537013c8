import SolInfer.Gateway.Policies

set_option autoImplicit false

/-! # Policies select available workers as far as they check

Every policy starts from the workers, but the URL that it remembers is not always checked again. For each
policy the selection is right exactly when what it trusts without a check is in order. -/

open List

namespace Gateway

variable {workers : List Backend} {nowMs i : Nat} {first w : Backend} {α : Type}

/-! ## Indices -/

theorem available_of_mem (h : i ∈ getHealthyWorkerIndices nowMs workers) :
    ∃ w, workers[i]? = some w ∧ w.isAvailable nowMs = true := by
  simp only [getHealthyWorkerIndices, mem_map, mem_filter] at h
  obtain ⟨⟨w, i⟩, ⟨hmem, hw⟩, rfl⟩ := h
  exact ⟨w, mk_mem_zipIdx_iff_getElem?.1 hmem, hw⟩

theorem find?_zipIdx (p : α → Bool) (l : List α) (n : Nat) :
    ((l.zipIdx n).find? fun x => p x.1).map Prod.fst = l.find? p := by
  induction l generalizing n with
  | nil => rfl
  | cons a l ih =>
    rw [zipIdx_cons, find?_cons, find?_cons]
    cases p a with
    | true => rfl
    | false => exact ih (n + 1)

theorem pivot_eq : (getHealthyWorkerIndices nowMs workers).head?.bind (workers[·]?) =
    firstAvailable nowMs workers := by
  rw [firstAvailable, ← find?_zipIdx _ workers 0, getHealthyWorkerIndices, head?_map, head?_filter]
  cases h : workers.zipIdx.find? fun x => x.1.isAvailable nowMs with
  | none => rfl
  | some x => exact mk_mem_zipIdx_iff_getElem?.1 (mem_of_find?_eq_some h)

theorem firstAvailable_eq_none : firstAvailable nowMs workers = none ↔
    ∀ w ∈ workers, w.isAvailable nowMs = false := by
  simp [firstAvailable]

theorem right_none : Right nowMs workers none ↔ ∀ w ∈ workers, w.isAvailable nowMs = false := by
  simp [Right]

theorem right_some (h : workers[i]? = some w) :
    Right nowMs workers (some i) ↔ w.isAvailable nowMs = true := by
  constructor
  · rintro ⟨-, hi⟩
    obtain ⟨w', hw', hav⟩ := hi i rfl
    cases h.symm.trans hw'
    exact hav
  · intro hav
    refine ⟨⟨fun hn => (by cases hn), fun hno => ?_⟩, ?_⟩
    · rw [hno w (mem_of_getElem? h)] at hav
      cases hav
    · rintro _ ⟨⟩
      exact ⟨w, h, hav⟩

theorem right_of_mem (h : i ∈ getHealthyWorkerIndices nowMs workers) : Right nowMs workers (some i) := by
  obtain ⟨w, hi, hw⟩ := available_of_mem h
  exact (right_some hi).2 hw

theorem right_iff_canExecute (h : workers[i]? = some w) (hw : w.isHealthy = true) :
    Right nowMs workers (some i) ↔ w.circuitBreaker.canExecute nowMs = true := by
  rw [right_some h, Backend.isAvailable, hw, Bool.true_and]

theorem indices_ne_nil (h : firstAvailable nowMs workers = some first) :
    getHealthyWorkerIndices nowMs workers ≠ [] := by
  intro hnil
  rw [← pivot_eq, hnil] at h
  cases h

theorem randomOf_mem (c : Choices) {indices : List Nat} (h : indices ≠ []) :
    c.randomOf indices ∈ indices := by
  have hlt := Nat.mod_lt c.random (length_pos_of_ne_nil h)
  rw [Choices.randomOf, getElem?_eq_getElem hlt]
  exact getElem_mem hlt

theorem exists_argmin (f : α → Nat) {l : List α} (h : l ≠ []) : ∃ a, l.argmin f = some a ∧ a ∈ l := by
  cases ha : l.argmin f with
  | none => exact absurd (argmin_eq_none.1 ha) h
  | some a => exact ⟨a, rfl, argmin_mem ha⟩

def Distinct (workers : List Backend) : Prop := (workers.map fun w => w.url).Nodup

theorem Distinct.eq (hd : Distinct workers) {w' : Backend} (hw : w ∈ workers) (hw' : w' ∈ workers)
    (h : w.url = w'.url) : w = w' := inj_on_of_nodup_map hd hw hw' h

theorem Distinct.position (hd : Distinct workers) (hw : w ∈ workers) :
    ∃ i, workers.findIdx? (fun v => decide (v.url = w.url)) = some i ∧ workers[i]? = some w := by
  cases h : workers.findIdx? fun v => decide (v.url = w.url) with
  | none =>
    have := findIdx?_eq_none_iff.1 h w hw
    simp at this
  | some i =>
    obtain ⟨hi, hurl, -⟩ := findIdx?_eq_some_iff_getElem.1 h
    refine ⟨i, rfl, ?_⟩
    rw [getElem?_eq_getElem hi, hd.eq (getElem_mem hi) hw (of_decide_eq_true hurl)]

theorem position_none {url : String} (h : ∀ w ∈ workers, w.url ≠ url) :
    workers.findIdx? (fun v => decide (v.url = url)) = none := by
  simpa [findIdx?_eq_none_iff] using h

theorem right_head (h : firstAvailable nowMs workers = some first) :
    Right nowMs workers (getHealthyWorkerIndices nowMs workers).head? := by
  have hne := indices_ne_nil h
  rw [head?_eq_some_head hne]
  exact right_of_mem (head_mem hne)

/-! ## Cache-aware -/

section CacheAware

variable {F : Type}

theorem selectWorkerMinLoad_right (nowMs : Nat) (p : CacheAwarePolicy F) (text : Option (List Char)) (key : String)
    (h : getHealthyWorkerIndices nowMs workers ≠ []) : Right nowMs workers
      (p.selectWorkerMinLoad workers text (getHealthyWorkerIndices nowMs workers) key).1 := by
  obtain ⟨i, hi, hmem⟩ := exists_argmin (loadOf workers) h
  have hres : (p.selectWorkerMinLoad workers text (getHealthyWorkerIndices nowMs workers) key).1 = some i := by
    rw [CacheAwarePolicy.selectWorkerMinLoad, hi]
    dsimp only
    split <;> rfl
  rw [hres]
  exact right_of_mem hmem

theorem hitIdx_of_mem (hd : Distinct workers) (hw : w ∈ workers) :
    (w.isHealthy = true ∧ ∃ i, hitIdx workers w.url = some i ∧ workers[i]? = some w) ∨
      w.isHealthy = false ∧ hitIdx workers w.url = none := by
  obtain ⟨i, hi, hat⟩ := hd.position hw
  rw [hitIdx, hi]
  cases hh : w.isHealthy with
  | true => exact .inl ⟨rfl, i, by simp [Option.filter, hat, hh], hat⟩
  | false => exact .inr ⟨rfl, by simp [Option.filter, hat, hh]⟩

theorem hitIdx_none {tenant : String} (h : ∀ w ∈ workers, w.url ≠ tenant) :
    hitIdx workers tenant = none := by
  rw [hitIdx, position_none h]
  rfl

variable [Floats F]

theorem selectByMatch_right (p : CacheAwarePolicy F) (key : String) (text : List Char)
    (result : PrefixMatchResult) (hfirst : firstAvailable nowMs workers = some first)
    (hd : Distinct workers) :
    Right nowMs workers (p.selectByMatch workers (getHealthyWorkerIndices nowMs workers) key text result).1 ↔
      (p.config.isHit result = true → ∀ w ∈ workers, w.url = result.tenant → w.isHealthy = true →
        w.circuitBreaker.canExecute nowMs = true) := by
  -- an index in the list is taken, and without one the first healthy worker is
  have hsome : ∀ {i w}, (if p.config.isHit result then hitIdx workers result.tenant
        else (getHealthyWorkerIndices nowMs workers).argmin (loadOf workers)) = some i →
      workers[i]? = some w →
      (p.selectByMatch workers (getHealthyWorkerIndices nowMs workers) key text result).1 = some i := by
    intro i w hi hw
    simp only [CacheAwarePolicy.selectByMatch, hi, Option.bind_some, hw, Option.map_some]
  have hnone : (if p.config.isHit result then hitIdx workers result.tenant
        else (getHealthyWorkerIndices nowMs workers).argmin (loadOf workers)) = none →
      (p.selectByMatch workers (getHealthyWorkerIndices nowMs workers) key text result).1 =
        (getHealthyWorkerIndices nowMs workers).head? := by
    intro hi
    simp only [CacheAwarePolicy.selectByMatch, hi, Option.bind_none]
  cases hhit : p.config.isHit result with
  | false =>
    obtain ⟨i, hi, hmem⟩ := exists_argmin (loadOf workers) (indices_ne_nil hfirst)
    obtain ⟨w, hw, -⟩ := available_of_mem hmem
    rw [hsome (by simpa [hhit] using hi) hw]
    simp [right_of_mem hmem]
  | true =>
    simp only [hhit, if_true] at hsome hnone
    by_cases hex : ∃ w ∈ workers, w.url = result.tenant
    · obtain ⟨w, hw, hurl⟩ := hex
      have honly : ∀ w' ∈ workers, w'.url = result.tenant → w' = w := fun w' hw' hu =>
        hd.eq hw' hw (hu.trans hurl.symm)
      rcases hitIdx_of_mem hd hw with ⟨hh, i, hi, hat⟩ | ⟨hh, hi⟩
      · rw [hsome (hurl ▸ hi) hat, right_iff_canExecute hat hh]
        refine ⟨fun hc _ w' hw' hu _ => ?_, fun h => h rfl w hw hurl hh⟩
        rw [honly w' hw' hu]
        exact hc
      · rw [hnone (hurl ▸ hi)]
        refine ⟨fun _ _ w' hw' hu hh' => ?_, fun _ => right_head hfirst⟩
        rw [honly w' hw' hu, hh] at hh'
        cases hh'
    · have hno : ∀ w ∈ workers, w.url ≠ result.tenant := fun w hw hu => hex ⟨w, hw, hu⟩
      rw [hnone (hitIdx_none hno)]
      exact ⟨fun _ _ w hw hu => absurd hu (hno w hw), fun _ => right_head hfirst⟩

variable [Crates]

/-- **Cache-aware selection.** The selection is right exactly when the owner of a match over the threshold
    can execute if it is healthy. -/
theorem CacheAwarePolicy.right_iff (p : CacheAwarePolicy F) (info : SelectWorkerInfo)
    (hd : Distinct workers) : (∀ c, Right nowMs workers (p.selectWorker c nowMs workers info).1) ↔
      p.Trusted nowMs workers info := by
  unfold CacheAwarePolicy.Trusted CacheAwarePolicy.selectWorker
  simp only [pivot_eq]
  cases hfirst : firstAvailable nowMs workers with
  | none => simpa [right_none] using fun _ => firstAvailable_eq_none.1 hfirst
  | some first =>
    cases hbal : p.config.isImbalanced workers with
    | true =>
      have := selectWorkerMinLoad_right nowMs p info.requestText
        (treeKeyForWorker first.toWorker) (indices_ne_nil hfirst)
      simp [this]
    | false =>
      cases htree : p.trees.get? (treeKeyForWorker first.toWorker) with
      | none =>
        simp only [Option.some.injEq, Bool.false_eq_true, if_false, htree]
        refine ⟨fun _ _ _ _ h h' => ?_, fun _ c => right_of_mem (randomOf_mem c (indices_ne_nil hfirst))⟩
        subst h
        rw [htree] at h'
        cases h'
      | some tree =>
        simp only [Bool.false_eq_true, if_false, htree]
        constructor
        · intro h first' tree' firstTenant hf ht _
          cases hf
          cases htree.symm.trans ht
          have htrust := (selectByMatch_right _ _ _ _ hfirst hd).1 (h ⟨0, firstTenant, 0, ""⟩)
          exact htrust
        · intro h c
          exact (selectByMatch_right _ _ _ _ hfirst hd).2 (h first tree c.firstTenant rfl htree trivial)

end CacheAware

/-! ## Bucket -/

section Bucket

theorem randomUrl_mem (c : Choices) (hfirst : firstAvailable nowMs workers = some first) :
    Serves nowMs workers (BucketPolicy.randomUrl c workers (getHealthyWorkerIndices nowMs workers)) := by
  obtain ⟨w, hw, hav⟩ := available_of_mem (randomOf_mem c (indices_ne_nil hfirst))
  refine ⟨w, mem_of_getElem? hw, ?_, hav⟩
  rw [BucketPolicy.randomUrl, hw]
  rfl

theorem right_position_iff (hd : Distinct workers)
    (hfirst : firstAvailable nowMs workers = some first) (url : String) :
    Right nowMs workers (workers.findIdx? fun w => decide (w.url = url)) ↔ Serves nowMs workers url := by
  by_cases hex : ∃ w ∈ workers, w.url = url
  · obtain ⟨w, hw, rfl⟩ := hex
    obtain ⟨i, hi, hat⟩ := hd.position hw
    rw [hi, right_some hat]
    constructor
    · exact fun hav => ⟨w, hw, rfl, hav⟩
    · rintro ⟨w', hw', hu, hav⟩
      rwa [hd.eq hw hw' hu.symm]
  · rw [position_none fun w hw hu => hex ⟨w, hw, hu⟩, right_none, ← firstAvailable_eq_none, hfirst]
    constructor
    · intro h
      cases h
    · rintro ⟨w, hw, hu, -⟩
      exact absurd ⟨w, hw, hu⟩ hex

theorem leastLoaded_ne_nil {b : Bucket} (h : b.charsPerUrl.entries ≠ []) : b.leastLoaded ≠ [] := by
  obtain ⟨x, hx, hmem⟩ := exists_argmin (fun x : String × Nat => x.2) h
  intro hnil
  have hin : x.1 ∈ b.leastLoaded := by
    refine mem_map.2 ⟨x, mem_filter.2 ⟨hmem, all_eq_true.2 fun y hy => ?_⟩, rfl⟩
    exact decide_eq_true (le_of_mem_argmin hy hx)
  rw [hnil] at hin
  cases hin

variable {F : Type} [Floats F]

theorem entries_ne_nil_of_imbalanced {p : BucketPolicy F} {b : Bucket} (h : p.isImbalanced b = true) :
    b.charsPerUrl.entries ≠ [] := by
  intro hnil
  have hval : b.charsPerUrl.values = [] := by rw [Dict.values, hnil, map_nil]
  simp [BucketPolicy.isImbalanced, hval] at h

theorem chooseUrl_serves_iff (p : BucketPolicy F) (b : Bucket) (n : Nat)
    (hfirst : firstAvailable nowMs workers = some first) :
    (∀ c, Serves nowMs workers (p.chooseUrl c b workers (getHealthyWorkerIndices nowMs workers) n)) ↔
      if p.isImbalanced b then ∀ url ∈ b.leastLoaded, Serves nowMs workers url
      else ∀ url, b.findBoundary n = some url → url ≠ "" → Serves nowMs workers url := by
  unfold BucketPolicy.chooseUrl
  cases himb : p.isImbalanced b with
  | true =>
    have hpos := length_pos_of_ne_nil (leastLoaded_ne_nil (entries_ne_nil_of_imbalanced himb))
    constructor
    · -- every one of the URLs can be the first in the iteration
      intro h url hurl
      obtain ⟨i, hi, rfl⟩ := mem_iff_getElem.1 hurl
      have hc := h ⟨0, fun _ => 0, i, ""⟩
      rwa [Nat.mod_eq_of_lt hi, getElem?_eq_getElem hi] at hc
    · intro h c
      have hlt := Nat.mod_lt c.firstUrl hpos
      rw [getElem?_eq_getElem hlt]
      exact h _ (getElem_mem hlt)
  | false =>
    cases hfind : b.findBoundary n with
    | none => simpa using fun c => randomUrl_mem c hfirst
    | some url =>
      by_cases hurl : url = ""
      · simpa [hurl] using fun c => randomUrl_mem c hfirst
      · constructor
        · rintro h _ ⟨⟩ -
          simpa [hurl] using h ⟨0, fun _ => 0, 0, ""⟩
        · intro h c
          simpa [hurl] using h url rfl hurl

variable [Crates]

/-- **Bucket selection.** The selection is right exactly when the URL for the length of the text, or every
    URL with the fewest characters, is that of an available worker. -/
theorem BucketPolicy.right_iff (p : BucketPolicy F) (info : SelectWorkerInfo) (hd : Distinct workers) :
    (∀ c, Right nowMs workers (p.selectWorker c nowMs workers info).1) ↔ p.Trusted nowMs workers info := by
  unfold BucketPolicy.Trusted BucketPolicy.selectWorker
  simp only [pivot_eq]
  cases hfirst : firstAvailable nowMs workers with
  | none => simpa [right_none] using fun _ => firstAvailable_eq_none.1 hfirst
  | some first =>
    cases hb : p.buckets.get? (normalizeModelKey first.modelId) with
    | none =>
      simp only [hb, right_position_iff hd hfirst]
      refine ⟨fun _ _ _ h h' => ?_, fun _ c => randomUrl_mem c hfirst⟩
      cases h
      rw [hb] at h'
      cases h'
    | some b =>
      simp only [hb]
      have hchoose := chooseUrl_serves_iff p b ((info.requestText.map length).getD 0) hfirst
      constructor
      · intro h first' b' hf hb'
        cases hf
        cases hb.symm.trans hb'
        exact hchoose.1 fun c => (right_position_iff hd hfirst _).1 (h c)
      · intro h c
        exact (right_position_iff hd hfirst _).2 (hchoose.2 (h first b rfl hb) c)

end Bucket

/-! ## Hash rings -/

section Rings

theorem firstHealthy_eq {isHealthy : String → Bool} {checked : List String}
    (h : ∀ url ∈ checked, isHealthy url = false) (urls : List String) :
    firstHealthy isHealthy checked urls = urls.find? isHealthy := by
  induction urls generalizing checked with
  | nil => rfl
  | cons url urls ih =>
    rw [firstHealthy, find?_cons]
    by_cases hmem : url ∈ checked
    · rw [if_pos hmem, h url hmem]
      exact ih h
    · rw [if_neg hmem]
      cases hurl : isHealthy url with
      | true => rfl
      | false => exact ih (forall_mem_cons.2 ⟨hurl, h⟩)

theorem mem_healthyWorkers :
    (w, i) ∈ healthyWorkers workers ↔ workers[i]? = some w ∧ w.isHealthy = true := by
  rw [healthyWorkers, mem_filter, mk_mem_zipIdx_iff_getElem?]

theorem not_healthy_of_nil (h : healthyWorkers workers = []) : ∀ w ∈ workers, w.isHealthy = false := by
  intro w hw
  by_contra hh
  obtain ⟨i, hi⟩ := getElem?_of_mem hw
  have := mem_healthyWorkers.2 ⟨hi, by simpa using hh⟩
  rw [h] at this
  cases this

theorem filter_zipIdx_fst (p : α → Bool) (l : List α) (n : Nat) :
    ((l.zipIdx n).filter fun x => p x.1).map Prod.fst = l.filter p := by
  induction l generalizing n with
  | nil => rfl
  | cons a l ih =>
    rw [zipIdx_cons, filter_cons, filter_cons]
    split
    · rw [map_cons, ih]
    · exact ih (n + 1)

theorem healthyWorkers_fst : (healthyWorkers workers).map Prod.fst = workers.filter Backend.isHealthy :=
  filter_zipIdx_fst _ workers 0

theorem healthyUrlMap_entries (hd : Distinct workers) : (healthyUrlMap workers).entries =
    (healthyWorkers workers).map fun x => (x.1.url, x) := by
  refine (Dict.entries_foldl_set (d := .empty) ?_ (by simp [Dict.keys, Dict.empty])).trans (nil_append _)
  have hfst : (healthyWorkers workers).map (fun x => x.1.url) =
      (workers.filter Backend.isHealthy).map fun w => w.url := by
    rw [← healthyWorkers_fst, map_map]
    rfl
  rw [hfst]
  exact hd.sublist (filter_sublist.map _)

theorem healthyUrlMap_get? (hd : Distinct workers) {url : String} {x : Backend × Nat} :
    (healthyUrlMap workers).get? url = some x ↔ x ∈ healthyWorkers workers ∧ x.1.url = url := by
  rw [← Dict.mem_entries, healthyUrlMap_entries hd, mem_map]
  constructor
  · rintro ⟨y, hy, heq⟩
    cases heq
    exact ⟨hy, rfl⟩
  · rintro ⟨hx, rfl⟩
    exact ⟨x, hx, rfl⟩

theorem healthyUrlMap_contains (hd : Distinct workers) :
    (healthyUrlMap workers).contains = healthyUrl workers := by
  funext url
  rw [Bool.eq_iff_iff, Dict.contains, Option.isSome_iff_exists]
  simp only [healthyUrl, any_eq_true, Bool.and_eq_true, beq_iff_eq]
  constructor
  · rintro ⟨⟨w, i⟩, hx⟩
    obtain ⟨hmem, rfl⟩ := (healthyUrlMap_get? hd).1 hx
    obtain ⟨hi, hh⟩ := mem_healthyWorkers.1 hmem
    exact ⟨w, mem_of_getElem? hi, hh, rfl⟩
  · rintro ⟨w, hw, hh, rfl⟩
    obtain ⟨i, hi⟩ := getElem?_of_mem hw
    exact ⟨(w, i), (healthyUrlMap_get? hd).2 ⟨mem_healthyWorkers.2 ⟨hi, hh⟩, rfl⟩⟩

theorem healthyIndices_sorted : ((healthyWorkers workers).map Prod.snd).Pairwise (· ≤ ·) := by
  have hrange : (workers.zipIdx.map Prod.snd).Pairwise (· ≤ ·) := by
    rw [zipIdx_map_snd]
    exact pairwise_le_range'
  exact hrange.sublist (filter_sublist.map _)

def Covers (ring : HashRing) (workers : List Backend) : Prop :=
  ∀ w ∈ workers, w.url ∈ ring.entries.map Prod.snd

theorem covers_new (position : String → Nat → Nat) {ws : List Worker}
    (h : ∀ w ∈ workers, ∃ v ∈ ws, v.url = w.url) : Covers (HashRing.new position ws) workers := by
  intro w hw
  obtain ⟨v, hv, hurl⟩ := h w hw
  refine mem_map.2 ⟨(position v.url 0, v.url), ?_, hurl⟩
  rw [HashRing.new, mem_mergeSort]
  exact mem_flatMap.2 ⟨v, hv, mem_map.2 ⟨0, mem_range.2 (by decide), rfl⟩⟩

variable [Crates]

theorem findHealthyUrl_eq (ring : HashRing) (key : String) (isHealthy : String → Bool) :
    ring.findHealthyUrl key isHealthy = (ring.clockwise key).find? isHealthy := by
  unfold HashRing.findHealthyUrl
  split
  next h => simp [HashRing.clockwise, h]
  · exact firstHealthy_eq (by simp) _

/-- Where a key leads on a ring: nowhere without healthy workers, and else to the first healthy worker. -/
theorem lookup_ring (hd : Distinct workers) {ring : HashRing} (hring : Covers ring workers) (key : String) :
    ((∀ w ∈ workers, w.isHealthy = false) ∧
        (ring.findHealthyUrl key (healthyUrlMap workers).contains).bind (healthyUrlMap workers).get? = none) ∨
      ∃ w i, workers[i]? = some w ∧ w.isHealthy = true ∧
        (ring.findHealthyUrl key (healthyUrlMap workers).contains).bind (healthyUrlMap workers).get? =
          some (w, i) ∧ ∀ v, FirstOnRing workers ring key v ↔ v = w := by
  rw [findHealthyUrl_eq, healthyUrlMap_contains hd]
  cases hfind : (ring.clockwise key).find? (healthyUrl workers) with
  | none =>
    refine .inl ⟨fun w hw => ?_, rfl⟩
    by_contra hh
    have hmem : w.url ∈ ring.clockwise key := by
      simpa [HashRing.clockwise] using hring w hw
    refine find?_eq_none.1 hfind w.url hmem (any_eq_true.2 ⟨w, hw, ?_⟩)
    simpa using hh
  | some url =>
    have hany : healthyUrl workers url = true := find?_some hfind
    obtain ⟨w, hw, hcond⟩ := any_eq_true.1 hany
    rw [Bool.and_eq_true, beq_iff_eq] at hcond
    obtain ⟨hh, rfl⟩ := hcond
    obtain ⟨i, hi⟩ := getElem?_of_mem hw
    refine .inr ⟨w, i, hi, hh, (healthyUrlMap_get? hd).2 ⟨mem_healthyWorkers.2 ⟨hi, hh⟩, rfl⟩, fun v => ?_⟩
    unfold FirstOnRing
    rw [hfind]
    constructor
    · rintro ⟨hv, heq⟩
      exact hd.eq hv hw (Option.some.inj heq).symm
    · rintro rfl
      exact ⟨hw, rfl⟩

end Rings

/-! ## Selection among healthy workers -/

section Healthy

/-- The result of a selection that checks only `is_healthy`: nothing without healthy workers, and else the
    one healthy worker for which `P` holds. -/
def Picks (workers : List Backend) (P : Backend → Prop) (idx : Option Nat) : Prop :=
  ((∀ w ∈ workers, w.isHealthy = false) ∧ idx = none) ∨
    ∃ w i, workers[i]? = some w ∧ w.isHealthy = true ∧ idx = some i ∧
      ∀ v ∈ workers.filter Backend.isHealthy, P v ↔ v = w

theorem Picks.right_iff {P : Backend → Prop} {idx : Option Nat} (h : Picks workers P idx) :
    Right nowMs workers idx ↔
      ∀ w ∈ workers.filter Backend.isHealthy, P w → w.circuitBreaker.canExecute nowMs = true := by
  rcases h with ⟨hno, rfl⟩ | ⟨w, i, hi, hh, rfl, hP⟩
  · refine ⟨fun _ w hw => ?_, fun _ => right_none.2 fun w hw => ?_⟩
    · obtain ⟨hw, hh⟩ := mem_filter.1 hw
      rw [hno w hw] at hh
      cases hh
    · rw [Backend.isAvailable, hno w hw, Bool.false_and]
  · have hmem : w ∈ workers.filter Backend.isHealthy := mem_filter.2 ⟨mem_of_getElem? hi, hh⟩
    rw [right_iff_canExecute hi hh]
    constructor
    · intro hc v hv hPv
      rw [(hP v hv).1 hPv]
      exact hc
    · exact fun h => h w hmem ((hP w hmem).2 rfl)

theorem picks_getElem (n : Nat) : Picks workers
    (fun v => (workers.filter Backend.isHealthy)[n % (workers.filter Backend.isHealthy).length]? = some v)
    (((healthyWorkers workers).map Prod.snd)[n % (healthyWorkers workers).length]?) := by
  have hlen : (workers.filter Backend.isHealthy).length = (healthyWorkers workers).length := by
    rw [← healthyWorkers_fst, length_map]
  rw [hlen]
  by_cases hnil : healthyWorkers workers = []
  · exact .inl ⟨not_healthy_of_nil hnil, by simp [hnil]⟩
  · have hlt := Nat.mod_lt n (length_pos_of_ne_nil hnil)
    obtain ⟨⟨w, i⟩, hx⟩ : ∃ x, (healthyWorkers workers)[n % (healthyWorkers workers).length]? = some x :=
      ⟨_, getElem?_eq_getElem hlt⟩
    obtain ⟨hi, hh⟩ := mem_healthyWorkers.1 (mem_of_getElem? hx)
    refine .inr ⟨w, i, hi, hh, by rw [getElem?_map, hx]; rfl, fun v _ => ?_⟩
    rw [← healthyWorkers_fst, getElem?_map, hx]
    exact Option.some_inj.trans eq_comm

end Healthy

/-! ## Consistent hashing -/

section ConsistentHashing

variable [Crates]

theorem findByConsistentHash_picks (info : SelectWorkerInfo) (key : String) (hd : Distinct workers)
    (hring : ∀ ring, info.hashRing = some ring → Covers ring workers) :
    Picks workers (fun v => match info.hashRing with
        | some ring => FirstOnRing workers ring key v
        | none => (workers.filter Backend.isHealthy)[Crates.hashPosition key %
            (workers.filter Backend.isHealthy).length]? = some v)
      (findByConsistentHash workers info key) := by
  unfold findByConsistentHash
  have hvalues : (healthyUrlMap workers).values = healthyWorkers workers := by
    rw [Dict.values, healthyUrlMap_entries hd, map_map]
    exact map_id _
  dsimp only
  by_cases hkeys : (healthyUrlMap workers).keys = []
  · rw [if_pos hkeys]
    have hnil : healthyWorkers workers = [] := by
      rw [Dict.keys, healthyUrlMap_entries hd] at hkeys
      simpa using hkeys
    exact .inl ⟨not_healthy_of_nil hnil, rfl⟩
  · rw [if_neg hkeys]
    cases hr : info.hashRing with
    | some ring =>
      dsimp only
      have hmap : ((ring.findHealthyUrl key (healthyUrlMap workers).contains).bind fun url =>
            ((healthyUrlMap workers).get? url).map Prod.snd) =
          ((ring.findHealthyUrl key (healthyUrlMap workers).contains).bind
            (healthyUrlMap workers).get?).map Prod.snd := by
        rw [Option.map_bind]
        rfl
      rw [hmap]
      rcases lookup_ring hd (hring ring hr) key with ⟨hno, hnone⟩ | ⟨w, i, hi, hh, hsome, hfirst⟩
      · exact .inl ⟨hno, by rw [hnone]; rfl⟩
      · exact .inr ⟨w, i, hi, hh, by rw [hsome]; rfl, fun v _ => hfirst v⟩
    | none =>
      rw [hvalues, mergeSort_of_pairwise (by simpa using healthyIndices_sorted), length_map]
      exact picks_getElem _

/-- **Consistent hashing.** The selection is right exactly when the healthy worker that the key leads to can
    execute. -/
theorem consistentHashing_right_iff (info : SelectWorkerInfo) (hd : Distinct workers)
    (hring : ∀ ring, info.hashRing = some ring → Covers ring workers)
    (htarget : extractTargetWorker info.headers = none) :
    (∀ c, Right nowMs workers (selectConsistentHashing c workers info)) ↔
      ConsistentHashingTrusted nowMs workers info := by
  unfold selectConsistentHashing ConsistentHashingTrusted
  rw [htarget]
  rcases eq_or_ne workers [] with rfl | hne
  · simp [right_none]
  cases (extractRoutingKey info.headers).or (implicitKey info.headers) with
  | some key =>
    have hpick := findByConsistentHash_picks info key hd hring
    simp only [if_neg hne]
    refine ⟨fun h => ?_, fun h _ => hpick.right_iff.2 ?_⟩
    · have htrust := hpick.right_iff.1 (h ⟨0, fun _ => 0, 0, ""⟩)
      cases hr : info.hashRing <;> simpa only [hr] using htrust
    · cases hr : info.hashRing <;> simpa only [hr] using h
  | none =>
    have hrandom : ∀ c : Choices, (if (healthyWorkers workers).length = 0 then none
          else (healthyWorkers workers)[c.random % (healthyWorkers workers).length]?.map Prod.snd) =
        ((healthyWorkers workers).map Prod.snd)[c.random % (healthyWorkers workers).length]? := by
      intro c
      rw [getElem?_map]
      split
      next h => simp [eq_nil_of_length_eq_zero h]
      · rfl
    simp only [if_neg hne, hrandom, (picks_getElem _).right_iff]
    constructor
    · -- every healthy worker can be the random one
      intro h w hw _
      obtain ⟨n, hn, hget⟩ := mem_iff_getElem.1 hw
      refine h ⟨n, fun _ => 0, 0, ""⟩ w hw ?_
      rw [Nat.mod_eq_of_lt hn, getElem?_eq_getElem hn, hget]
    · exact fun h c w hw _ => h w hw trivial

end ConsistentHashing

/-! ## Prefix hash -/

section PrefixHash

theorem argmin_map {β : Type} (g : α → β) (f : β → Nat) (l : List α) :
    (l.map g).argmin f = (l.argmin fun a => f (g a)).map g := by
  induction l with
  | nil => rfl
  | cons a l ih =>
    rw [map_cons, argmin_cons, argmin_cons, ih]
    cases l.argmin fun a => f (g a) with
    | none => rfl
    | some b =>
      dsimp only [Option.map_some]
      split <;> rfl

theorem healthyWorkers_filter_fst (workers : List Backend) (p : Backend → Bool) :
    ((healthyWorkers workers).filter fun x => p x.1).map Prod.fst =
      (workers.filter Backend.isHealthy).filter p := by
  rw [← healthyWorkers_fst, filter_map]
  rfl

theorem argmin_healthy (p : Backend → Bool) {x : Backend × Nat}
    (h : ((healthyWorkers workers).filter fun x => p x.1).argmin (fun x => x.1.load) = some x) :
    workers[x.2]? = some x.1 ∧ x.1.isHealthy = true ∧ p x.1 = true ∧
      ((workers.filter Backend.isHealthy).filter p).argmin Backend.load = some x.1 := by
  obtain ⟨w, i⟩ := x
  obtain ⟨hmem, hp⟩ := mem_filter.1 (argmin_mem h)
  obtain ⟨hi, hh⟩ := mem_healthyWorkers.1 hmem
  refine ⟨hi, hh, hp, ?_⟩
  rw [← healthyWorkers_filter_fst, argmin_map, h]
  rfl

variable {G : Type} [Floats G]

theorem PrefixHashConfig.picks_balanced (config : PrefixHashConfig G)
    (hi : workers[i]? = some w) (hh : w.isHealthy = true) {accepted : List Backend}
    (haccepted : (workers.filter Backend.isHealthy).filter (config.accepts workers) = accepted) :
    Picks workers
      (fun v => if w ∈ accepted ∨ accepted = [] then v = w else accepted.argmin Backend.load = some v)
      (if config.accepts workers w then some i
        else
          match ((healthyWorkers workers).filter fun x => config.accepts workers x.1).argmin fun x => x.1.load with
          | some x => some x.2
          | none => some i) := by
  have hmap := (healthyWorkers_filter_fst workers (config.accepts workers)).trans haccepted
  by_cases hacc : config.accepts workers w = true
  · have hmem : w ∈ accepted := haccepted ▸ mem_filter.2 ⟨mem_filter.2 ⟨mem_of_getElem? hi, hh⟩, hacc⟩
    rw [if_pos hacc]
    exact .inr ⟨w, i, hi, hh, rfl, fun v _ => iff_of_eq (if_pos (.inl hmem))⟩
  · rw [if_neg hacc]
    cases hmin : ((healthyWorkers workers).filter fun x => config.accepts workers x.1).argmin
        fun x => x.1.load with
    | none =>
      rw [argmin_eq_none.1 hmin, map_nil] at hmap
      exact .inr ⟨w, i, hi, hh, rfl, fun v _ => iff_of_eq (if_pos (.inr hmap.symm))⟩
    | some x =>
      obtain ⟨hx, hxh, hxacc, hxmin⟩ := argmin_healthy _ hmin
      rw [haccepted] at hxmin
      have hnot : ¬ (w ∈ accepted ∨ accepted = []) := by
        rintro (hw | hnil)
        · exact hacc (mem_filter.1 (haccepted ▸ hw)).2
        · rw [hnil] at hxmin
          cases hxmin
      refine .inr ⟨x.1, x.2, hx, hxh, rfl, fun v _ => ?_⟩
      dsimp only
      rw [if_neg hnot, hxmin]
      exact Option.some_inj.trans eq_comm

variable [Crates]

/-- **Prefix hash.** The selection is right exactly when the worker that the ring and the loads lead to can
    execute. -/
theorem PrefixHashConfig.right_iff (config : PrefixHashConfig G) (info : SelectWorkerInfo)
    (hd : Distinct workers) (hring : ∀ ring, info.hashRing = some ring → Covers ring workers)
    {tokens : List UInt32} (htokens : info.tokens = some tokens) (hne : tokens ≠ []) :
    Right nowMs workers (config.selectWorker workers info) ↔ config.Trusted nowMs workers info := by
  unfold PrefixHashConfig.selectWorker PrefixHashConfig.Trusted
  rw [htokens]
  dsimp only
  rcases eq_or_ne workers [] with rfl | hnil
  · simp [right_none]
  rw [if_neg hnil, if_neg hne]
  refine Picks.right_iff ?_
  unfold PrefixHashConfig.findWorkerWithLoadBalance
  dsimp only
  by_cases hhealthy : healthyWorkers workers = []
  · rw [if_pos hhealthy]
    exact .inl ⟨not_healthy_of_nil hhealthy, rfl⟩
  rw [if_neg hhealthy]
  cases hr : info.hashRing with
  | some ring =>
    rw [Option.bind_some]
    rcases lookup_ring hd (hring ring hr)
      (hex16 (Crates.xxh3 (tokens.take config.prefixTokenCount))) with ⟨hno, -⟩ | ⟨w, i, hi, hh, hsome, hfirst⟩
    · obtain ⟨⟨v, j⟩, hv⟩ := exists_mem_of_ne_nil _ hhealthy
      obtain ⟨hj, hh⟩ := mem_healthyWorkers.1 hv
      rw [hno v (mem_of_getElem? hj)] at hh
      cases hh
    · rw [hsome]
      simp only [Option.getD_some, hfirst, exists_eq_left]
      exact config.picks_balanced hi hh rfl
  | none =>
    obtain ⟨x, hx, hmem⟩ := exists_argmin (fun x : Backend × Nat => x.1.load) hhealthy
    have hall : ((healthyWorkers workers).filter fun _ => true) = healthyWorkers workers :=
      filter_eq_self.2 fun _ _ => rfl
    have hx' : ((healthyWorkers workers).filter fun _ => true).argmin (fun x => x.1.load) = some x := by
      rwa [hall]
    obtain ⟨hi, hh, -, hmin⟩ := argmin_healthy (fun _ => true) hx'
    rw [filter_eq_self.2 fun _ _ => rfl] at hmin
    refine .inr ⟨x.1, x.2, hi, hh, by rw [Option.bind_none]; dsimp only; rw [hx]; rfl, fun v _ => ?_⟩
    rw [hmin]
    exact Option.some_inj.trans eq_comm

end PrefixHash

/-! ## All policies -/

section Policies

variable [Crates] {F G : Type} [Floats F] [Floats G]

/-- **What a policy checks and what it trusts.** Whatever a policy remembers and however its choices fall,
    its selection is right exactly when what it trusts without a check is in order. -/
theorem selects_available_iff (policy : Policy F G) (nowMs : Nat) (workers : List Backend)
    (info : SelectWorkerInfo) (hd : (workers.map fun w => w.url).Nodup)
    (hring : ∀ ring, info.hashRing = some ring → ∃ position ws, ring = HashRing.new position ws ∧
      ∀ w ∈ workers, ∃ v ∈ ws, v.url = w.url)
    (htarget : extractTargetWorker info.headers = none)
    (htokens : ∃ tokens, info.tokens = some tokens ∧ tokens ≠ []) :
    (∀ c, Right nowMs workers (policy.selectWorker c nowMs workers info).1) ↔
      policy.Trusted nowMs workers info := by
  have hcovers : ∀ ring, info.hashRing = some ring → Covers ring workers := by
    intro ring hr
    obtain ⟨position, ws, rfl, hws⟩ := hring ring hr
    exact covers_new position hws
  cases policy with
  | cacheAware p => exact p.right_iff info hd
  | bucket p => exact p.right_iff info hd
  | consistentHashing => exact consistentHashing_right_iff info hd hcovers htarget
  | prefixHash config =>
    obtain ⟨tokens, htok, hne⟩ := htokens
    have h : Right nowMs workers (config.selectWorker workers info) ↔ config.Trusted nowMs workers info :=
      config.right_iff info hd hcovers htok hne
    exact ⟨fun hc => h.1 (hc ⟨0, fun _ => 0, 0, ""⟩), fun ht _ => h.2 ht⟩

end Policies

/-- Hashes for the examples below. -/
@[reducible]
def lengthHashes : Crates := ⟨"unknown", fun s => s.length, List.length⟩

attribute [local instance] lengthHashes

/-- A healthy worker; its circuit breaker opened at the time 0 if it is not allowed. -/
def workerAt (url : String) (allowed : Bool) : Backend where
  url := url
  modelId := "m"
  workerType := .regular
  connectionMode := .http
  object := 0
  isHealthy := true
  circuitBreaker := ⟨if allowed then .closed else .opened, 0, 1000⟩
  load := 0

def helloRequest : SelectWorkerInfo := ⟨some "hello".toList, some [1, 2], none, none⟩

def noChoices : Choices := ⟨0, fun _ => 0, 0, "id"⟩

/-- A cache-aware policy that has sent a text to the worker `a`. -/
def warmRun (workers : List Backend) : List PolicyEvent :=
  [.initWorkers (workers.map Backend.toWorker), .select noChoices 0 workers helloRequest]

def cachePolicy : Policy Rat Rat := .cacheAware ⟨⟨1 / 2, 32, 11 / 10⟩, .empty, 0⟩

def bucketPolicy : Policy Rat Rat := .bucket ⟨⟨32, 10001 / 10000, 5⟩, .empty⟩

theorem selects_available_iff_allowed : extractTargetWorker helloRequest.headers = none ∧
    ∀ c, Right 0 [workerAt "a" true, workerAt "b" true]
      ((Policy.consistentHashing : Policy Rat Rat).selectWorker c 0 [workerAt "a" true, workerAt "b" true]
        helloRequest).1 := by
  refine ⟨by decide, (selects_available_iff _ 0 _ helloRequest (by decide) nofun (by decide)
    ⟨[1, 2], rfl, by decide⟩).2 ?_⟩
  intro w hw _
  have hall : ∀ w ∈ [workerAt "a" true, workerAt "b" true], w.circuitBreaker.canExecute 0 = true := by
    decide
  exact hall w (mem_filter.1 hw).1

theorem not_right_of_selected {workers : List Backend} {nowMs : Nat} {idx : Option Nat}
    (hidx : idx = some i) (hi : workers[i]? = some w) (hw : w.isAvailable nowMs = false) :
    ¬ Right nowMs workers idx := by
  rw [hidx, right_some hi, hw]
  decide

/-- **A worker with an open circuit breaker is selected.** After a run in which `a` was sent the text, and
    with the breaker of `a` open since, all four policies select `a`, although `b` is available. -/
theorem selects_open_worker :
    (∀ start ∈ [cachePolicy, bucketPolicy], ∃ policy,
      Run.Reaches Policy.step (fun _ _ => True) start policy ∧
      ¬ Right 0 [workerAt "a" false, workerAt "b" true]
        (policy.selectWorker noChoices 0 [workerAt "a" false, workerAt "b" true] helloRequest).1) ∧
    (∀ policy ∈ [(.consistentHashing : Policy Rat Rat), .prefixHash ⟨256, 5 / 4⟩],
      ¬ Right 0 [workerAt "a" false, workerAt "b" true]
        (policy.selectWorker noChoices 0 [workerAt "a" false, workerAt "b" true] helloRequest).1) := by
  have hnot : ∀ {idx : Option Nat}, idx = some 0 →
      ¬ Right 0 [workerAt "a" false, workerAt "b" true] idx :=
    fun h => not_right_of_selected h rfl (by decide)
  have hrun : ∀ start : Policy Rat Rat, ((Run.exec Policy.step start
      (warmRun [workerAt "a" true, workerAt "b" true])).map fun policy =>
        (policy.selectWorker noChoices 0 [workerAt "a" false, workerAt "b" true] helloRequest).1) =
          some (some 0) → ∃ policy, Run.Reaches Policy.step (fun _ _ => True) start policy ∧
      ¬ Right 0 [workerAt "a" false, workerAt "b" true]
        (policy.selectWorker noChoices 0 [workerAt "a" false, workerAt "b" true] helloRequest).1 := by
    intro start h
    obtain ⟨policy, hex, hidx⟩ := Option.map_eq_some_iff.1 h
    exact ⟨policy, Run.reaches_of_exec hex, hnot hidx⟩
  refine ⟨?_, ?_⟩
  · refine forall_mem_cons.2 ⟨hrun _ (by decide +kernel), forall_mem_singleton.2 (hrun _ ?_)⟩
    decide +kernel
  · exact forall_mem_cons.2 ⟨hnot (by decide +kernel), forall_mem_singleton.2 (hnot (by decide +kernel))⟩

end Gateway
