import SolInfer.Offload.Layerwise.Layout

set_option autoImplicit false

/-! # Coherence of the copies

The CPU copies hold what was last synced, the parameters of a layer on the GPU hold the latest values, and
a layer that was edited since it was synced is on the GPU. All operations keep this, except that a layer
must not be released while it holds an edit. -/

open List Function

namespace Offload

variable {N D E : Type} [DecidableEq D]

/-! ## Coherence -/

/-- The copies of the weights agree with what was written. -/
structure Coherent (m : Model N D E) (latest synced : N → List E) (dirty : List Nat)
    (s : State N D E) : Prop where
  roomy : Roomy m s
  cpu : ∀ i, ∀ entry ∈ m.metadata i, s.cpuRead i entry = synced entry.name
  sized : ∀ w ∈ m.weights, (latest w.name).length = w.numel
  loaded : ∀ i ∈ s.gpuLayers, ∀ entry ∈ m.metadata i, s.params entry.name = ⟨entry.shape, latest entry.name⟩
  released : ∀ i, i ∉ s.gpuLayers → ∀ entry ∈ m.metadata i, s.params entry.name = m.placeholder
  dirtyLoaded : ∀ i ∈ dirty, i ∈ s.gpuLayers
  clean : ∀ i, i ∉ dirty → ∀ entry ∈ m.metadata i, synced entry.name = latest entry.name
  resident : ∀ w ∈ m.weights, m.offloadedIn w.name = none →
    s.params w.name = ⟨w.shape, latest w.name⟩ ∧ synced w.name = latest w.name

variable {m : Model N D E} {latest synced : N → List E} {dirty : List Nat} {s : State N D E}
  {i j : Nat} {entry other : Meta N D} {w : Weight N D E} {name : N} {data : List E}

theorem eq_of_metadata_name_eq (h : entry ∈ m.metadata i) (h' : other ∈ m.metadata j)
    (hname : entry.name = other.name) : i = j ∧ entry = other := by
  have hij : i = j := by
    by_contra hij
    exact name_ne_of_layer_ne h h' hij hname
  subst hij
  exact ⟨rfl, inj_on_of_nodup_map (metadata_nodup m i) h h' hname⟩

theorem Coherent.length_latest (h : Coherent m latest synced dirty s) (hentry : entry ∈ m.metadata i) :
    (latest entry.name).length = entry.shape.prod := by
  obtain ⟨w, hw⟩ := exists_describes hentry
  rw [hw.name, hw.shape]
  exact h.sized w (mem_layerWeights.1 hw.mem).1

def syncedAfter (m : Model N D E) (layers : List Nat) (latest synced : N → List E) (name : N) : List E :=
  if (m.offloadedIn name).any (fun i => i ∈ layers) then latest name else synced name

theorem syncedAfter_metadata (h : entry ∈ m.metadata i) (layers : List Nat)
    (latest synced : N → List E) :
    syncedAfter m layers latest synced entry.name =
      if i ∈ layers then latest entry.name else synced entry.name := by
  simp [syncedAfter, layer_of_metadata h]

variable [DecidableEq N]

def assigned (m : Model N D E) (i : Nat) (f : Meta N D → Tensor E) (params : N → Tensor E) (name : N) :
    Tensor E :=
  (((m.metadata i).find? (fun entry => entry.name = name)).map f).getD (params name)

section

variable {f : Meta N D → Tensor E} {params : N → Tensor E}

theorem assigned_self (h : entry ∈ m.metadata i) : assigned m i f params entry.name = f entry := by
  have hsome : ((m.metadata i).find? (fun e => e.name = entry.name)).isSome := by
    rw [find?_isSome]
    exact ⟨entry, h, by simp⟩
  obtain ⟨found, hfound⟩ := Option.isSome_iff_exists.1 hsome
  have hname : found.name = entry.name := by simpa using find?_some hfound
  rw [assigned, hfound, inj_on_of_nodup_map (metadata_nodup m i) (mem_of_find?_eq_some hfound) h hname]
  rfl

theorem assigned_of_ne (h : m.offloadedIn name ≠ some i) : assigned m i f params name = params name := by
  have hnone : (m.metadata i).find? (fun e => e.name = name) = none := by
    rw [find?_eq_none]
    intro e he hname
    refine h ?_
    rw [← of_decide_eq_true hname]
    exact layer_of_metadata he
  rw [assigned, hnone]
  rfl

theorem assigned_other (h : other ∈ m.metadata j) (hij : j ≠ i) :
    assigned m i f params other.name = params other.name := by
  refine assigned_of_ne ?_
  rw [layer_of_metadata h]
  exact fun heq => hij (Option.some.inj heq)

end

omit [DecidableEq D] in
theorem foldl_setParam (f : State N D E → Meta N D → Tensor E)
    (hf : ∀ s name t entry, f (s.setParam name t) entry = f s entry) {entries : List (Meta N D)}
    (hnodup : (entries.map Meta.name).Nodup) (s : State N D E) :
    entries.foldl (fun s entry => s.setParam entry.name (f s entry)) s =
      { s with params := fun name =>
          ((entries.find? (fun entry => entry.name = name)).map (f s)).getD (s.params name) } := by
  induction entries generalizing s with
  | nil => rfl
  | cons first rest ih =>
    obtain ⟨hfirst, hrest⟩ := nodup_cons.1 hnodup
    rw [foldl_cons, ih hrest]
    simp only [State.setParam, State.mk.injEq, true_and, and_true]
    funext name
    have hfn : f (s.setParam first.name (f s first)) = f s := funext fun e => hf _ _ _ _
    unfold State.setParam at hfn
    rw [hfn]
    by_cases hname : first.name = name
    · -- the rest assigns to other names
      subst hname
      have hnone : rest.find? (fun entry => entry.name = first.name) = none := by
        rw [find?_eq_none]
        intro e he heq
        exact hfirst (of_decide_eq_true heq ▸ mem_map_of_mem he)
      simp [hnone]
    · have hne : name ≠ first.name := fun heq => hname heq.symm
      simp [hname, update_of_ne hne]

/-! ## Loading and releasing -/

theorem prefetchLayer_eq (hi : i ∉ s.gpuLayers) (hmeta : m.metadata i ≠ []) :
    prefetchLayer m i s =
      { s with
        params := assigned m i (fun entry => ⟨entry.shape, s.cpuRead i entry⟩) s.params
        gpuLayers := s.gpuLayers ++ [i] } := by
  rw [prefetchLayer, if_neg hi, if_neg hmeta,
    foldl_setParam (fun s entry => ⟨entry.shape, s.cpuRead i entry⟩) (fun _ _ _ _ => rfl)
      (metadata_nodup m i)]
  rfl

theorem releaseLayer_eq (hi : i ∈ s.gpuLayers) :
    releaseLayer m i s =
      { s with
        params := assigned m i (fun _ => m.placeholder) s.params
        gpuLayers := s.gpuLayers.filter (fun j => j ≠ i) } := by
  rw [releaseLayer, if_neg (not_not_intro hi),
    foldl_setParam (fun _ _ => m.placeholder) (fun _ _ _ _ => rfl) (metadata_nodup m i)]
  rfl

section

variable (h : Coherent m latest synced dirty s)
include h

/-- Loading never needs a condition: a layer that is not on the GPU holds no edit. -/
theorem Coherent.prefetchLayer (i : Nat) : Coherent m latest synced dirty (prefetchLayer m i s) := by
  by_cases hi : i ∈ s.gpuLayers
  · rwa [Offload.prefetchLayer, if_pos hi]
  by_cases hmeta : m.metadata i = []
  · rwa [Offload.prefetchLayer, if_neg hi, if_pos hmeta]
  have hclean : i ∉ dirty := fun hdirty => hi (h.dirtyLoaded i hdirty)
  rw [prefetchLayer_eq hi hmeta]
  refine ⟨h.roomy, h.cpu, h.sized, ?_, ?_, ?_, h.clean, ?_⟩
  · intro j hj entry hentry
    dsimp only
    by_cases hij : j = i
    · subst hij
      rw [assigned_self hentry, h.cpu j entry hentry,
        h.clean j hclean entry hentry]
    · rw [assigned_other hentry hij]
      refine h.loaded j ?_ entry hentry
      simpa [hij] using hj
  · intro j hj entry hentry
    have hij : j ≠ i := by
      rintro rfl
      simp at hj
    dsimp only
    rw [assigned_other hentry hij]
    exact h.released j (fun hmem => hj (mem_append_left _ hmem)) entry hentry
  · intro j hj
    exact mem_append_left _ (h.dirtyLoaded j hj)
  · intro w hw hnone
    have hother : m.offloadedIn w.name ≠ some i := by simp [hnone]
    dsimp only
    rw [assigned_of_ne hother]
    exact h.resident w hw hnone

theorem Coherent.releaseLayer (hclean : i ∉ dirty) :
    Coherent m latest synced dirty (releaseLayer m i s) := by
  by_cases hi : i ∈ s.gpuLayers
  swap
  · rwa [Offload.releaseLayer, if_pos hi]
  rw [releaseLayer_eq hi]
  refine ⟨h.roomy, h.cpu, h.sized, ?_, ?_, ?_, h.clean, ?_⟩
  · intro j hj entry hentry
    obtain ⟨hj, hij⟩ := mem_filter.1 hj
    dsimp only
    rw [assigned_other hentry (of_decide_eq_true hij)]
    exact h.loaded j hj entry hentry
  · intro j hj entry hentry
    dsimp only
    by_cases hij : j = i
    · subst hij
      rw [assigned_self hentry]
    · rw [assigned_other hentry hij]
      refine h.released j (fun hmem => hj ?_) entry hentry
      exact mem_filter.2 ⟨hmem, by simpa using hij⟩
  · intro j hj
    have hij : j ≠ i := fun heq => hclean (heq ▸ hj)
    exact mem_filter.2 ⟨h.dirtyLoaded j hj, by simpa using hij⟩
  · intro w hw hnone
    have hother : m.offloadedIn w.name ≠ some i := by simp [hnone]
    dsimp only
    rw [assigned_of_ne hother]
    exact h.resident w hw hnone

theorem Coherent.prefetchLayers (layers : List Nat) (f : Nat → Nat) :
    Coherent m latest synced dirty
      (layers.foldl (fun s i => Offload.prefetchLayer m (f i) s) s) := by
  induction layers generalizing s with
  | nil => exact h
  | cons i rest ih => exact ih (h.prefetchLayer (f i))

end

theorem Coherent.releaseLayers (h : Coherent m latest synced [] s) (layers : List Nat) :
    Coherent m latest synced [] (layers.foldl (fun s i => Offload.releaseLayer m i s) s) := by
  induction layers generalizing s with
  | nil => exact h
  | cons i rest ih => exact ih (h.releaseLayer (not_mem_nil))

theorem mem_gpuLayers_prefetchLayer :
    j ∈ (prefetchLayer m i s).gpuLayers ↔ j ∈ s.gpuLayers ∨ j = i ∧ m.metadata i ≠ [] := by
  by_cases hi : i ∈ s.gpuLayers
  · rw [prefetchLayer, if_pos hi]
    exact ⟨.inl, fun h => h.elim id fun h => h.1 ▸ hi⟩
  by_cases hmeta : m.metadata i = []
  · rw [prefetchLayer, if_neg hi, if_pos hmeta]
    simp [hmeta]
  · rw [prefetchLayer_eq hi hmeta]
    simp [hmeta]

theorem mem_gpuLayers_prefetchLayers (layers : List Nat) (f : Nat → Nat) :
    j ∈ (layers.foldl (fun s i => prefetchLayer m (f i) s) s).gpuLayers ↔
      j ∈ s.gpuLayers ∨ j ∈ layers.map f ∧ m.metadata j ≠ [] := by
  induction layers generalizing s with
  | nil => simp
  | cons i rest ih =>
    rw [foldl_cons, ih, mem_gpuLayers_prefetchLayer, map_cons, mem_cons]
    by_cases hij : j = f i
    · subst hij
      tauto
    · simp [hij]

/-! ## Hooks -/

theorem Coherent.preHook (h : Coherent m latest synced dirty s) (i : Nat) :
    Coherent m latest synced dirty (preHook m i s) := by
  unfold Offload.preHook
  have hfirst : Coherent m latest synced dirty (if i = 0 then prepareForNextReq m s else s) := by
    split
    · exact h.prefetchLayers _ id
    · exact h
  have hown := hfirst.prefetchLayer i
  dsimp only
  split
  · exact hown.prefetchLayers _ fun j => j % m.numLayers
  · exact hown

theorem mem_gpuLayers_preHook (hmeta : m.metadata i ≠ []) : i ∈ (preHook m i s).gpuLayers := by
  unfold preHook
  dsimp only
  split
  · exact (mem_gpuLayers_prefetchLayers _ fun j => j % m.numLayers).2
      (.inl (mem_gpuLayers_prefetchLayer.2 (.inr ⟨rfl, hmeta⟩)))
  · exact mem_gpuLayers_prefetchLayer.2 (.inr ⟨rfl, hmeta⟩)

theorem Coherent.beforeForward (h : Coherent m latest synced dirty s) (i : Nat) :
    Coherent m latest synced dirty (beforeForward m i s) := by
  unfold Offload.beforeForward
  generalize s.attached = n
  induction n with
  | zero => exact h
  | succ n ih =>
    rw [iterate_succ_apply']
    exact ih.preHook i

theorem Coherent.forward (h : Coherent m latest synced dirty s) (i : Nat)
    (hclean : s.attached ≠ 0 → i ∉ dirty) : Coherent m latest synced dirty (forward m i s) := by
  have hbefore := h.beforeForward i
  unfold Offload.forward
  by_cases hattached : s.attached = 0
  · rw [hattached]
    exact hbefore
  have hclean := hclean hattached
  generalize s.attached = n
  induction n with
  | zero => exact hbefore
  | succ n ih =>
    rw [iterate_succ_apply']
    exact ih.releaseLayer hclean

theorem mem_gpuLayers_beforeForward (hmeta : m.metadata i ≠ []) (hattached : s.attached ≠ 0) :
    i ∈ (beforeForward m i s).gpuLayers := by
  unfold beforeForward
  obtain ⟨n, hn⟩ := Nat.exists_eq_succ_of_ne_zero hattached
  rw [hn, iterate_succ_apply']
  exact mem_gpuLayers_preHook hmeta

/-! ## Writing back -/

section

variable (s : State N D E) (i : Nat) (entry : Meta N D)

@[simp]
theorem State.cpuWrite_gpuLayers (data : List E) : (s.cpuWrite i entry data).gpuLayers = s.gpuLayers := by
  unfold State.cpuWrite
  split <;> rfl

@[simp]
theorem State.cpuWrite_params (data : List E) : (s.cpuWrite i entry data).params = s.params := by
  unfold State.cpuWrite
  split <;> rfl

omit [DecidableEq D] in
@[simp]
theorem State.setParam_cpuRead (name : N) (t : Tensor E) :
    (s.setParam name t).cpuRead i entry = s.cpuRead i entry := rfl

end

theorem foldl_cpuWrite {entries : List (Meta N D)} (hentries : ∀ entry ∈ entries, entry ∈ m.metadata i)
    (hnodup : (entries.map Meta.name).Nodup) (hroom : Roomy m s)
    (hsize : ∀ entry ∈ entries, (s.params entry.name).data.length = entry.shape.prod) :
    let s' := entries.foldl (fun s entry => s.cpuWrite i entry (s.params entry.name).data) s
    Roomy m s' ∧ s'.gpuLayers = s.gpuLayers ∧ s'.params = s.params ∧
      (∀ entry ∈ entries, s'.cpuRead i entry = (s.params entry.name).data) ∧
      ∀ j, ∀ other ∈ m.metadata j, other.name ∉ entries.map Meta.name →
        s'.cpuRead j other = s.cpuRead j other := by
  induction entries generalizing s with
  | nil => exact ⟨hroom, rfl, rfl, fun _ h => (not_mem_nil h).elim, fun _ _ _ _ => rfl⟩
  | cons first rest ih =>
    obtain ⟨hfirst, hrest⟩ := nodup_cons.1 hnodup
    have hmem := hentries first mem_cons_self
    have hlength := hsize first mem_cons_self
    obtain ⟨hroom', hgpu, hparams, hread, hkeep⟩ := ih
      (s := s.cpuWrite i first (s.params first.name).data)
      (fun entry hentry => hentries entry (.tail _ hentry)) hrest
      (hroom.cpuWrite hmem hlength)
      (fun entry hentry => by
        rw [State.cpuWrite_params]
        exact hsize entry (.tail _ hentry))
    rw [State.cpuWrite_gpuLayers] at hgpu
    rw [State.cpuWrite_params] at hparams hread
    refine ⟨hroom', hgpu, hparams, ?_, ?_⟩
    · intro entry hentry
      rcases mem_cons.1 hentry with rfl | hentry
      · exact (hkeep i entry hmem hfirst).trans (cpuRead_cpuWrite_self hroom hmem hlength)
      · exact hread entry hentry
    · intro j other hother hnot
      obtain ⟨hne, hnot⟩ := not_or.1 fun hor => hnot (mem_cons.2 hor)
      exact (hkeep j other hother hnot).trans
        (cpuRead_cpuWrite_of_ne hroom hmem hlength hother fun heq => hne heq.symm)

theorem Coherent.syncLayerToCpu (h : Coherent m latest synced dirty s) (hi : i ∈ s.gpuLayers) :
    Coherent m latest (syncedAfter m [i] latest synced) (dirty.filter (fun j => j ∉ [i]))
      (syncLayerToCpu m i s) ∧ (syncLayerToCpu m i s).gpuLayers = s.gpuLayers := by
  have hsize : ∀ entry ∈ m.metadata i, (s.params entry.name).data.length = entry.shape.prod := by
    intro entry hentry
    rw [h.loaded i hi entry hentry]
    exact h.length_latest hentry
  obtain ⟨hroom, hgpu, hparams, hread, hkeep⟩ := foldl_cpuWrite (fun _ h => h) (metadata_nodup m i)
    h.roomy hsize
  rw [Offload.syncLayerToCpu, if_neg (not_not_intro hi)]
  refine ⟨⟨hroom, ?_, h.sized, ?_, ?_, ?_, ?_, ?_⟩, hgpu⟩
  · intro j entry hentry
    rw [syncedAfter_metadata hentry]
    by_cases hij : j = i
    · subst hij
      rw [if_pos (mem_singleton_self j), hread entry hentry, h.loaded j hi entry hentry]
    · have hother : entry.name ∉ (m.metadata i).map Meta.name := by
        intro hname
        obtain ⟨e, he, heq⟩ := mem_map.1 hname
        exact name_ne_of_layer_ne hentry he hij heq.symm
      rw [if_neg (fun hmem => hij (mem_singleton.1 hmem)), hkeep j entry hentry hother]
      exact h.cpu j entry hentry
  · intro j hj entry hentry
    rw [hparams]
    exact h.loaded j (hgpu ▸ hj) entry hentry
  · intro j hj entry hentry
    rw [hparams]
    exact h.released j (fun hmem => hj (hgpu.symm ▸ hmem)) entry hentry
  · intro j hj
    rw [hgpu]
    exact h.dirtyLoaded j (mem_of_mem_filter hj)
  · intro j hj entry hentry
    rw [syncedAfter_metadata hentry]
    split
    · rfl
    next hne =>
      refine h.clean j (fun hdirty => hj ?_) entry hentry
      exact mem_filter.2 ⟨hdirty, by simpa using hne⟩
  · intro w hw hnone
    rw [hparams]
    have hsame : syncedAfter m [i] latest synced w.name = synced w.name := by
      simp [syncedAfter, hnone]
    rw [hsame]
    exact h.resident w hw hnone

omit [DecidableEq D] [DecidableEq N] in
theorem syncedAfter_cons (m : Model N D E) (i : Nat) (rest : List Nat) (latest synced : N → List E) :
    syncedAfter m rest latest (syncedAfter m [i] latest synced) =
      syncedAfter m (i :: rest) latest synced := by
  funext name
  unfold syncedAfter
  cases m.offloadedIn name with
  | none => rfl
  | some j => by_cases hrest : j ∈ rest <;> by_cases hij : j = i <;> simp [hrest, hij]

section

variable (h : Coherent m latest synced dirty s)
include h

theorem Coherent.syncLayers {layers : List Nat} (hlayers : ∀ i ∈ layers, i ∈ s.gpuLayers) :
    let s' := layers.foldl (fun s i => Offload.syncLayerToCpu m i s) s
    Coherent m latest (syncedAfter m layers latest synced) (dirty.filter (fun j => j ∉ layers)) s' := by
  induction layers generalizing s synced dirty with
  | nil =>
    have hsynced : syncedAfter m [] latest synced = synced := by
      funext name
      simp [syncedAfter]
    simpa [hsynced] using h
  | cons i rest ih =>
    obtain ⟨hfirst, hgpu⟩ := h.syncLayerToCpu (hlayers i mem_cons_self)
    have hrest := ih hfirst (fun j hj => by
      rw [hgpu]
      exact hlayers j (.tail _ hj))
    rw [syncedAfter_cons, filter_filter] at hrest
    have hdirty : dirty.filter (fun j => decide (j ∉ rest) && decide (j ∉ [i])) =
        dirty.filter (fun j => j ∉ i :: rest) := by
      refine filter_congr fun j _ => ?_
      by_cases hij : j = i <;> by_cases hj : j ∈ rest <;> simp [hij, hj]
    rw [hdirty] at hrest
    exact hrest

theorem Coherent.enableOffload :
    Coherent m latest (syncedAfter m s.gpuLayers latest synced)
      (dirty.filter (fun j => j ∉ s.gpuLayers)) (enableOffload m s) := by
  have hsynced := h.syncLayers fun i hi => hi
  have hnone : dirty.filter (fun j => j ∉ s.gpuLayers) = [] := by
    rw [filter_eq_nil_iff]
    intro j hj
    simpa using h.dirtyLoaded j hj
  rw [hnone] at hsynced ⊢
  obtain ⟨hroom, hcpu, hsized, hloaded, hreleased, hdirty, hclean, hresident⟩ :=
    hsynced.releaseLayers (syncAllLayersToCpu m s).gpuLayers
  exact ⟨hroom, hcpu, hsized, hloaded, hreleased, hdirty, hclean, hresident⟩

theorem Coherent.disableOffload : Coherent m latest synced dirty (disableOffload m s) := by
  have hremoved : Coherent m latest synced dirty (removeForwardHooks s) := by
    unfold removeForwardHooks
    split
    · exact { h with }
    · exact h
  exact hremoved.prefetchLayers _ id

end

/-! ## New values -/

theorem updateWeight_eq (s : State N D E) (i : Nat) (entry : Meta N D) (data : List E) :
    updateWeight i entry data s = { s.cpuWrite i entry data with
      params := if i ∈ s.gpuLayers then update s.params entry.name ⟨(s.params entry.name).shape, data⟩
        else s.params } := by
  unfold updateWeight State.cpuWrite
  cases entry.place <;> dsimp only <;> split <;> rfl

theorem Coherent.updateWeight (h : Coherent m latest synced dirty s)
    (hentry : entry ∈ m.metadata i) (hdata : data.length = entry.shape.prod) :
    Coherent m (update latest entry.name data) (update synced entry.name data) dirty
      (updateWeight i entry data s) := by
  have hgpu := s.cpuWrite_gpuLayers i entry data
  have hparams : ∀ name, name ≠ entry.name → (if i ∈ s.gpuLayers then
      update s.params entry.name ⟨(s.params entry.name).shape, data⟩ else s.params) name = s.params name := by
    intro name hname
    split
    · exact update_of_ne hname ..
    · rfl
  rw [updateWeight_eq]
  refine ⟨h.roomy.cpuWrite hentry hdata, ?_, ?_, ?_, ?_, ?_, ?_, ?_⟩
  · intro j other hother
    change (s.cpuWrite i entry data).cpuRead j other = _
    by_cases hname : other.name = entry.name
    · obtain ⟨rfl, rfl⟩ := eq_of_metadata_name_eq hother hentry hname
      rw [update_self]
      exact cpuRead_cpuWrite_self h.roomy hother hdata
    · rw [update_of_ne hname,
        cpuRead_cpuWrite_of_ne h.roomy hentry hdata hother fun heq => hname heq.symm]
      exact h.cpu j other hother
  · intro w hw
    by_cases hname : w.name = entry.name
    · obtain ⟨v, hv⟩ := exists_describes hentry
      obtain rfl := eq_of_name_eq (mem_layerWeights.1 hv.mem).1 hw (hv.name.symm.trans hname.symm)
      rw [hname, update_self, hdata, hv.shape]
      rfl
    · rw [update_of_ne hname]
      exact h.sized w hw
  · intro j hj other hother
    dsimp only at hj ⊢
    rw [hgpu] at hj
    by_cases hname : other.name = entry.name
    · obtain ⟨rfl, rfl⟩ := eq_of_metadata_name_eq hother hentry hname
      rw [if_pos hj, update_self, update_self, h.loaded j hj other hother]
    · rw [hparams _ hname, update_of_ne hname]
      exact h.loaded j hj other hother
  · intro j hj other hother
    dsimp only at hj ⊢
    rw [hgpu] at hj
    by_cases hname : other.name = entry.name
    · obtain ⟨rfl, rfl⟩ := eq_of_metadata_name_eq hother hentry hname
      rw [if_neg hj]
      exact h.released j hj other hother
    · rw [hparams _ hname]
      exact h.released j hj other hother
  · intro j hj
    dsimp only
    rw [hgpu]
    exact h.dirtyLoaded j hj
  · intro j hj other hother
    by_cases hname : other.name = entry.name
    · rw [hname, update_self, update_self]
    · rw [update_of_ne hname, update_of_ne hname]
      exact h.clean j hj other hother
  · intro w hw hnone
    have hname : w.name ≠ entry.name := by
      intro heq
      rw [heq, layer_of_metadata hentry] at hnone
      cases hnone
    dsimp only
    rw [hparams _ hname, update_of_ne hname, update_of_ne hname]
    exact h.resident w hw hnone

theorem findMeta_eq_some {found : Nat × Meta N D} (h : findMeta m name = some found) :
    found.2 ∈ m.metadata found.1 ∧ found.2.name = name := by
  unfold findMeta at h
  split at h
  · cases h
  next i hlayer =>
    obtain ⟨entry, hentry, rfl⟩ := Option.map_eq_some_iff.1 h
    exact ⟨mem_of_find?_eq_some hentry, by simpa using find?_some hentry⟩

/-- The run of `update_cpu_weights`, also when it ends by raising. -/
theorem Coherent.updateCpuWeights {weights : List (N × Tensor E)}
    (hweights : ∀ p ∈ weights, p.2.data.length = p.2.shape.prod) {l : Ledger N D E}
    (h : Coherent m l.latest l.synced l.dirty s) :
    let l' := l.write (Offload.updateCpuWeights m weights s).1
    l'.dirty = l.dirty ∧ l'.state = l.state ∧
      Coherent m l'.latest l'.synced l.dirty (Offload.updateCpuWeights m weights s).2.2 := by
  induction weights generalizing s l with
  | nil => exact ⟨rfl, rfl, h⟩
  | cons p rest ih =>
    obtain ⟨name, loaded⟩ := p
    have hrest := fun q hq => hweights q (.tail _ hq)
    have hloaded := hweights (name, loaded) mem_cons_self
    rw [Offload.updateCpuWeights]
    split
    · exact ih hrest h
    next i entry hfound =>
      obtain ⟨hentry, hname⟩ := findMeta_eq_some hfound
      subst hname
      split
      · exact ⟨rfl, rfl, h⟩
      next hshape =>
        have hdata : (loaded.data.map (m.toDtype entry.dtype)).length = entry.shape.prod := by
          rw [length_map, not_not.1 hshape]
          exact hloaded
        exact ih hrest (l := { l with
          latest := update l.latest entry.name (loaded.data.map (m.toDtype entry.dtype))
          synced := update l.synced entry.name (loaded.data.map (m.toDtype entry.dtype)) })
          (h.updateWeight hentry hdata)

theorem coherent_editLedger {l : Ledger N D E} (h : Coherent m l.latest l.synced l.dirty l.state)
    (hw : w ∈ m.weights) (hdata : data.length = w.numel)
    (hloaded : ∀ i, m.offloadedIn w.name = some i → i ∈ l.state.gpuLayers) :
    let l' := editLedger m l w.name data
    Coherent m l'.latest l'.synced l'.dirty l'.state := by
  have hsized : ∀ v ∈ m.weights, (update l.latest w.name data v.name).length = v.numel := by
    intro v hv
    by_cases hname : v.name = w.name
    · obtain rfl := eq_of_name_eq hv hw hname
      rw [update_self, hdata]
    · rw [update_of_ne hname]
      exact h.sized v hv
  have hother : ∀ {i} {e : Meta N D}, e ∈ m.metadata i → m.offloadedIn w.name ≠ some i →
      e.name ≠ w.name := by
    intro i e he hne heq
    rw [← heq] at hne
    exact hne (layer_of_metadata he)
  unfold editLedger
  split
  next i hlayer =>
    have hi := hloaded i hlayer
    refine ⟨h.roomy, h.cpu, hsized, ?_, ?_, ?_, ?_, ?_⟩
    · intro j hj e he
      by_cases hname : e.name = w.name
      · simp only [State.setParam, hname, update_self]
        rw [← hname, h.loaded j hj e he]
      · simp only [State.setParam, update_of_ne hname]
        exact h.loaded j hj e he
    · intro j hj e he
      have hji : m.offloadedIn w.name ≠ some j := by
        rw [hlayer]
        rintro ⟨⟩
        exact hj hi
      simp only [State.setParam, update_of_ne (hother he hji)]
      exact h.released j hj e he
    · intro j hj
      rcases mem_cons.1 hj with rfl | hj
      · exact hi
      · exact h.dirtyLoaded j hj
    · intro j hj e he
      obtain ⟨hji, hj⟩ := not_or.1 fun hor => hj (mem_cons.2 hor)
      have hne : m.offloadedIn w.name ≠ some j := by
        rw [hlayer]
        exact fun heq => hji (Option.some.inj heq).symm
      simp only [update_of_ne (hother he hne)]
      exact h.clean j hj e he
    · intro v hv hnone
      have hname : v.name ≠ w.name := by
        intro heq
        rw [heq, hlayer] at hnone
        cases hnone
      simp only [State.setParam, update_of_ne hname]
      exact h.resident v hv hnone
  next hlayer =>
    have hoffloaded : ∀ i, ∀ e ∈ m.metadata i, e.name ≠ w.name :=
      fun i e he => hother he (by simp [hlayer])
    refine ⟨h.roomy, ?_, hsized, ?_, ?_, h.dirtyLoaded, ?_, ?_⟩
    · intro j e he
      rw [State.setParam_cpuRead]
      simp only [update_of_ne (hoffloaded j e he)]
      exact h.cpu j e he
    · intro j hj e he
      simp only [State.setParam, update_of_ne (hoffloaded j e he)]
      exact h.loaded j hj e he
    · intro j hj e he
      simp only [State.setParam, update_of_ne (hoffloaded j e he)]
      exact h.released j hj e he
    · intro j hj e he
      simp only [update_of_ne (hoffloaded j e he)]
      exact h.clean j hj e he
    · intro v hv hnone
      by_cases hname : v.name = w.name
      · obtain rfl := eq_of_name_eq hv hw hname
        simp only [State.setParam, update_self, (h.resident v hv hnone).1, and_self]
      · simp only [State.setParam, update_of_ne hname]
        exact h.resident v hv hnone

end Offload
