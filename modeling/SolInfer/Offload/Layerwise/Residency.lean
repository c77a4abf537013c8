import SolInfer.Offload.Layerwise.Coherence

set_option autoImplicit false

/-! # Resident layers

How many layers are on the GPU during forward passes through all layers in their order. Before layer `i`
they lie in a window that begins at `i` and is at most two batches long; a batch that reaches behind the
last layer goes on at the first one. -/

open List

namespace Offload

variable {N D E : Type} (m : Model N D E)

/-! ## Batches -/

/-- The layers the hook in front of a layer calls `prefetch_layer` for, in order. -/
def prefetched (i : Nat) : List Nat :=
  (if i = 0 then range m.prefetchSize else []) ++ [i] ++
    if i % m.prefetchSize = 0 then (range' (i + m.prefetchSize) m.prefetchSize).map (· % m.numLayers)
    else []

/-- How far the batches reach before layer `i`. -/
def ahead (p i : Nat) : Nat := p * ((i - 1) / p + 2)

variable {m} {i e j p : Nat}

theorem prefetchSize_pos (hn : 1 ≤ m.numLayers) : 0 < m.prefetchSize := by
  rw [Model.prefetchSize]
  omega

theorem prefetchSize_le : m.prefetchSize ≤ m.numLayers := by
  rw [Model.prefetchSize]
  omega

theorem ahead_le_succ (p i : Nat) : ahead p i ≤ ahead p (i + 1) :=
  Nat.mul_le_mul_left p (Nat.add_le_add_right (Nat.div_le_div_right (by omega)) 2)

theorem ahead_succ (hp : 0 < p) (i : Nat) :
    i + p < ahead p (i + 1) ∧ ahead p (i + 1) ≤ i + 2 * p ∧ (i % p = 0 → ahead p (i + 1) = i + 2 * p) := by
  have hdiv := Nat.div_add_mod i p
  have hmod := Nat.mod_lt i hp
  rw [ahead, Nat.add_sub_cancel, Nat.mul_add]
  omega

theorem batch_of_ahead {i : Nat} (hp : 0 < p) (hj : ahead p i ≤ j) (hj' : j < ahead p (i + 1)) :
    i % p = 0 ∧ i + p ≤ j := by
  have hdiv := Nat.div_add_mod i p
  have hdiv' := Nat.div_add_mod (i - 1) p
  have hmod := Nat.mod_lt (i - 1) hp
  rw [ahead, Nat.mul_add] at hj
  rw [ahead, Nat.add_sub_cancel, Nat.mul_add] at hj'
  have hlt : (i - 1) / p < i / p := lt_of_not_ge fun hge => by
    have := Nat.mul_le_mul_left p hge
    omega
  have hle := Nat.mul_le_mul_left p hlt
  rw [Nat.mul_succ] at hle
  omega

theorem mem_prefetched : e ∈ prefetched m i ↔ i = 0 ∧ e < m.prefetchSize ∨ e = i ∨
    i % m.prefetchSize = 0 ∧
      ∃ j, i + m.prefetchSize ≤ j ∧ j < i + 2 * m.prefetchSize ∧ j % m.numLayers = e := by
  have harith : i + 2 * m.prefetchSize = i + m.prefetchSize + m.prefetchSize := by omega
  rw [prefetched, mem_append, mem_append, mem_singleton, or_assoc, harith]
  refine or_congr ?_ (or_congr Iff.rfl ?_)
  · split <;> simp [*]
  · split <;> simp [*, mem_range'_1, and_assoc]

/-! ## Forward passes -/

variable [DecidableEq N] [DecidableEq D]

section Passes

variable (m)

/-- The calls of the two hooks of a layer that change what is resident. -/
def hookCalls (i : Nat) : List (State N D E → State N D E) :=
  (prefetched m i).map (prefetchLayer m) ++ [releaseLayer m i]

def after (calls : List (State N D E → State N D E)) (s : State N D E) : State N D E :=
  calls.foldl (fun s call => call s) s

/-- The state after `k` passes and the layers before layer `i` of the next one. -/
def beforeLayer (k i : Nat) : State N D E :=
  (range i).foldl (fun s j => forward m j s)
    ((fun s => (range m.numLayers).foldl (fun s j => forward m j s) s)^[k] (initialState m))

/-- The state in which the hook in front of a layer checks whether the layer is there. -/
def atCheck (i : Nat) (s : State N D E) : State N D E := if i = 0 then prepareForNextReq m s else s

theorem preHook_eq (i : Nat) (s : State N D E) :
    preHook m i s = (prefetched m i).foldl (fun s j => prefetchLayer m j s) s := by
  rw [preHook, prefetched, foldl_append, foldl_append]
  by_cases hi : i = 0 <;> by_cases hp : i % m.prefetchSize = 0 <;>
    simp [hi, hp, prepareForNextReq, foldl_map]

theorem after_hookCalls (i : Nat) {s : State N D E} (h : s.attached = 1) :
    after (hookCalls m i) s = forward m i s := by
  rw [forward, beforeForward, h, after, hookCalls, foldl_append, foldl_map]
  show releaseLayer m i _ = postHook m i (preHook m i s)
  rw [preHook_eq]
  rfl

end Passes

/-! ## The window -/

variable {s : State N D E}

/-- What holds before layer `i`: nothing is resident outside the window, and past the first layer all of the
    window up to the last layer is. -/
structure Window (m : Model N D E) (i : Nat) (s : State N D E) : Prop where
  attached : s.attached = 1
  upper : ∀ e ∈ s.gpuLayers, ∃ j, i ≤ j ∧ j < ahead m.prefetchSize i ∧ j % m.numLayers = e
  lower : i ≠ 0 → ∀ j, i ≤ j → j < m.numLayers → j < ahead m.prefetchSize i → m.metadata j ≠ [] →
    j ∈ s.gpuLayers

theorem mem_after_prefetched (l : List Nat) :
    e ∈ (after (l.map (prefetchLayer m)) s).gpuLayers ↔ e ∈ s.gpuLayers ∨ e ∈ l ∧ m.metadata e ≠ [] := by
  rw [after, foldl_map]
  simpa using mem_gpuLayers_prefetchLayers l id

theorem Window.fetched_upper (h : Window m i s) (hn : 1 ≤ m.numLayers) (hi : i < m.numLayers) {l : List Nat}
    (hl : ∀ j ∈ l, j ∈ prefetched m i) :
    ∀ e ∈ (after (l.map (prefetchLayer m)) s).gpuLayers,
      ∃ j, i ≤ j ∧ j < ahead m.prefetchSize (i + 1) ∧ j % m.numLayers = e := by
  obtain ⟨hself, -, hbatch⟩ := ahead_succ (prefetchSize_pos hn) i
  intro e he
  rcases (mem_after_prefetched l).1 he with he | ⟨he, -⟩
  · obtain ⟨j, hij, hj, hmod⟩ := h.upper e he
    exact ⟨j, hij, hj.trans_le (ahead_le_succ _ i), hmod⟩
  · rcases mem_prefetched.1 (hl e he) with ⟨rfl, hlt⟩ | rfl | ⟨hzero, j, hij, hj, hmod⟩
    · refine ⟨e, Nat.zero_le e, ?_, Nat.mod_eq_of_lt (hlt.trans_le prefetchSize_le)⟩
      have := hbatch (Nat.zero_mod _)
      omega
    · exact ⟨e, le_rfl, by omega, Nat.mod_eq_of_lt hi⟩
    · exact ⟨j, by omega, by rw [hbatch hzero]; exact hj, hmod⟩

theorem Window.fetched_lower (h : Window m i s) (hn : 1 ≤ m.numLayers) (hij : i ≤ j)
    (hj : j < m.numLayers) (hlt : j < ahead m.prefetchSize (i + 1)) (hmeta : m.metadata j ≠ []) :
    j ∈ (after ((prefetched m i).map (prefetchLayer m)) s).gpuLayers := by
  have hp := prefetchSize_pos hn
  obtain ⟨-, hle, -⟩ := ahead_succ hp i
  refine (mem_after_prefetched _).2 ?_
  by_cases hi : i = 0
  · -- the first batch is fetched again, and the second one after it
    refine .inr ⟨mem_prefetched.2 ?_, hmeta⟩
    by_cases hjp : j < m.prefetchSize
    · exact .inl ⟨hi, hjp⟩
    · exact .inr (.inr ⟨by simp [hi], j, by omega, by omega, Nat.mod_eq_of_lt hj⟩)
  · by_cases hold : j < ahead m.prefetchSize i
    · exact .inl (h.lower hi j hij hj hold hmeta)
    · obtain ⟨hzero, hjp⟩ := batch_of_ahead hp (Nat.le_of_not_lt hold) hlt
      exact .inr ⟨mem_prefetched.2 (.inr (.inr ⟨hzero, j, hjp, by omega, Nat.mod_eq_of_lt hj⟩)), hmeta⟩

theorem mem_gpuLayers_releaseLayer : j ∈ (releaseLayer m i s).gpuLayers ↔ j ∈ s.gpuLayers ∧ j ≠ i := by
  by_cases hi : i ∈ s.gpuLayers
  · rw [releaseLayer_eq hi]
    simp
  · rw [releaseLayer, if_pos hi]
    exact ⟨fun hj => ⟨hj, fun heq => hi (heq ▸ hj)⟩, And.left⟩

theorem attached_prefetchLayer : (prefetchLayer m i s).attached = s.attached := by
  by_cases hi : i ∈ s.gpuLayers
  · rw [prefetchLayer, if_pos hi]
  by_cases hmeta : m.metadata i = []
  · rw [prefetchLayer, if_neg hi, if_pos hmeta]
  · rw [prefetchLayer_eq hi hmeta]

theorem attached_prefetchLayers (l : List Nat) :
    (l.foldl (fun s j => prefetchLayer m j s) s).attached = s.attached := by
  induction l generalizing s with
  | nil => rfl
  | cons j rest ih => exact ih.trans attached_prefetchLayer

theorem attached_releaseLayer : (releaseLayer m i s).attached = s.attached := by
  by_cases hi : i ∈ s.gpuLayers
  · rw [releaseLayer_eq hi]
  · rw [releaseLayer, if_pos hi]

theorem Window.forward (h : Window m i s) (hn : 1 ≤ m.numLayers) (hi : i < m.numLayers) :
    Window m (i + 1) (forward m i s) := by
  have hforward : Offload.forward m i s
      = releaseLayer m i (after ((prefetched m i).map (prefetchLayer m)) s) := by
    rw [← after_hookCalls m i h.attached, after, hookCalls, foldl_append]
    rfl
  rw [hforward]
  refine ⟨?_, fun e he => ?_, fun _ j hij hj hlt hmeta => ?_⟩
  · rw [attached_releaseLayer, after, foldl_map, attached_prefetchLayers, h.attached]
  · obtain ⟨hmem, hne⟩ := mem_gpuLayers_releaseLayer.1 he
    obtain ⟨j, hij, hj, hmod⟩ := h.fetched_upper hn hi (fun _ hj => hj) e hmem
    refine ⟨j, Nat.lt_of_le_of_ne hij ?_, hj, hmod⟩
    rintro rfl
    exact hne (hmod.symm.trans (Nat.mod_eq_of_lt hi))
  · exact mem_gpuLayers_releaseLayer.2
      ⟨h.fetched_lower hn (by omega) hj hlt hmeta, by omega⟩

omit [DecidableEq N] in
/-- A pass ends in a window of the next one. -/
theorem Window.wrap (h : Window m m.numLayers s) (hn : 1 ≤ m.numLayers) : Window m 0 s := by
  refine ⟨h.attached, fun e he => ?_, fun hne => absurd rfl hne⟩
  obtain ⟨j, hj, hlt, hmod⟩ := h.upper e he
  refine ⟨j - m.numLayers, Nat.zero_le _, ?_, ?_⟩
  · have hle := (ahead_succ (prefetchSize_pos hn) (m.numLayers - 1)).2.1
    rw [Nat.sub_add_cancel hn] at hle
    rw [ahead, Nat.zero_sub, Nat.zero_div]
    omega
  · rw [← hmod, ← Nat.mod_eq_sub_mod hj]

theorem window_layers (h : Window m 0 s) (hn : 1 ≤ m.numLayers) (hi : i ≤ m.numLayers) :
    Window m i ((range i).foldl (fun s j => Offload.forward m j s) s) := by
  induction i with
  | zero => exact h
  | succ i ih =>
    rw [range_succ, foldl_append]
    exact (ih (by omega)).forward hn hi

theorem window_beforeLayer (hn : 1 ≤ m.numLayers) (k : Nat) (hi : i ≤ m.numLayers) :
    Window m i (beforeLayer m k i) := by
  refine window_layers ?_ hn hi
  induction k with
  | zero =>
    refine ⟨?_, fun e he => ?_, fun hne => absurd rfl hne⟩
    · show (prepareForNextReq m (offloaded m)).attached + 1 = 1
      rw [prepareForNextReq, attached_prefetchLayers]
      rfl
    · rcases (mem_gpuLayers_prefetchLayers (range m.prefetchSize) id).1 he with he | ⟨he, -⟩
      · cases he
      · rw [map_id, mem_range] at he
        refine ⟨e, Nat.zero_le e, ?_, Nat.mod_eq_of_lt (he.trans_le prefetchSize_le)⟩
        rw [ahead, Nat.zero_sub, Nat.zero_div]
        omega
  | succ k ih =>
    rw [Function.iterate_succ_apply']
    exact (window_layers ih hn le_rfl).wrap hn

theorem card_le_of_window {gpuLayers : List Nat} {n a : Nat} (hn : 0 < n)
    (h : ∀ e ∈ gpuLayers, ∃ j, i ≤ j ∧ j < a ∧ j % n = e) (ha : a ≤ i + 2 * p) :
    gpuLayers.toFinset.card ≤ min n (2 * p) := by
  refine le_min ?_ ?_
  · rw [← Finset.card_range n]
    refine Finset.card_le_card fun e he => ?_
    obtain ⟨j, -, -, rfl⟩ := h e (mem_toFinset.1 he)
    exact Finset.mem_range.2 (Nat.mod_lt j hn)
  · have hsub : gpuLayers.toFinset ⊆ (Finset.Ico i a).image (· % n) := fun e he => by
      obtain ⟨j, hij, hj, hmod⟩ := h e (mem_toFinset.1 he)
      exact Finset.mem_image.2 ⟨j, Finset.mem_Ico.2 ⟨hij, hj⟩, hmod⟩
    refine (Finset.card_le_card hsub).trans (Finset.card_image_le.trans ?_)
    rw [Nat.card_Ico]
    omega

/-- **Residency.** In every pass through the layers, at every moment around the forward of a layer, at most
    `min(num_layers, 2 * prefetch_size)` layers are resident, and a layer with parameters is there when the
    hook in front of it checks. A layer without parameters never is, and prefetching it does nothing. -/
theorem residency (m : Model N D E) (hn : 1 ≤ m.numLayers) (k i : Nat) (hi : i < m.numLayers) :
    (∀ t, (after ((hookCalls m i).take t) (beforeLayer m k i)).gpuLayers.toFinset.card
        ≤ min m.numLayers (2 * m.prefetchSize)) ∧
      after (hookCalls m i) (beforeLayer m k i) = beforeLayer m k (i + 1) ∧
      (m.metadata i ≠ [] → i ∈ (atCheck m i (beforeLayer m k i)).gpuLayers) ∧
      (m.metadata i = [] → prefetchLayer m i (atCheck m i (beforeLayer m k i))
        = atCheck m i (beforeLayer m k i)) := by
  have hwindow := window_beforeLayer hn k hi.le
  obtain ⟨-, hle, -⟩ := ahead_succ (prefetchSize_pos hn) i
  refine ⟨fun t => card_le_of_window hn ?_ hle, ?_, fun hmeta => ?_, fun hmeta => ?_⟩
  · rcases Nat.lt_or_ge (prefetched m i).length t with hlt | hle
    · -- all calls were made
      rw [take_of_length_le (by simpa [hookCalls] using hlt), after_hookCalls m i hwindow.attached]
      intro e he
      obtain ⟨j, hij, hj, hmod⟩ := (hwindow.forward hn hi).upper e he
      exact ⟨j, by omega, hj, hmod⟩
    · rw [hookCalls, take_append_of_le_length (by simpa using hle), ← map_take]
      exact hwindow.fetched_upper hn hi fun _ => mem_of_mem_take
  · rw [after_hookCalls m i hwindow.attached, beforeLayer, beforeLayer, range_succ, foldl_append]
    rfl
  · rw [atCheck]
    split
    next hzero =>
      subst hzero
      exact (mem_gpuLayers_prefetchLayers (range m.prefetchSize) id).2
        (Or.inr ⟨by simpa using prefetchSize_pos hn, hmeta⟩)
    next hne =>
      refine hwindow.lower hne i le_rfl hi ?_ hmeta
      have := (ahead_succ (prefetchSize_pos hn) (i - 1)).1
      rw [Nat.sub_add_cancel (Nat.one_le_iff_ne_zero.2 hne)] at this
      have := prefetchSize_pos hn
      omega
  · rw [prefetchLayer, if_pos hmeta, ite_self]

/-- A model of three layers of which the second has no parameters. -/
def gapModel : Model Nat Unit Nat where
  weights := [⟨0, (), [1], [7], true, rfl⟩, ⟨2, (), [1], [8], true, by decide⟩]
  nodup := by decide
  layerOf := some
  numLayers := 3
  requestedPrefetch := 1
  elementSize := fun _ => 8
  uninit := 0
  toDtype := fun _ x => x

theorem residency_gapModel :
    (after ((hookCalls gapModel 0).take 3) (beforeLayer gapModel 2 0)).gpuLayers.toFinset.card ≤ 2 ∧
      2 ∈ (atCheck gapModel 2 (beforeLayer gapModel 2 2)).gpuLayers :=
  ⟨(residency gapModel (by decide) 2 0 (by decide)).1 3,
    (residency gapModel (by decide) 2 2 (by decide)).2.2.1 (by decide)⟩

/-- The second layer is not there when its hook checks. -/
theorem gapModel_missing : 1 ∉ (atCheck gapModel 1 (beforeLayer gapModel 0 1)).gpuLayers := by decide

end Offload
