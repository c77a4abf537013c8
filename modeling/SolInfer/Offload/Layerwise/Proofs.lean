import SolInfer.Offload.Layerwise.Coherence

set_option autoImplicit false

/-! # Layerwise offload is transparent

In every run in which edited layers are not released before they are synced, a layer runs with its latest
values. A hook that `register_forward_hooks` forgot breaks this: it is still attached while offload is
disabled, and releases the layer behind its forward. -/

open List

namespace Offload

variable {N D E : Type} [DecidableEq D] {m : Model N D E}
  {latest synced : N → List E} {dirty : List Nat} {s : State N D E} {w : Weight N D E} {name : N}

/-! ## The weights on the CPU -/

theorem mem_iterCpuWeights {p : N × Tensor E} :
    p ∈ iterCpuWeights m s ↔
      ∃ i, ∃ entry ∈ m.metadata i, p = (entry.name, ⟨entry.shape, s.cpuRead i entry⟩) := by
  simp only [iterCpuWeights, mem_flatMap, mem_range, mem_map]
  constructor
  · rintro ⟨i, _, entry, hentry, rfl⟩
    exact ⟨i, entry, hentry, rfl⟩
  · rintro ⟨i, entry, hentry, rfl⟩
    have hlayer := layer_of_metadata hentry
    rw [Model.offloadedIn, Option.filter_eq_some_iff] at hlayer
    exact ⟨i, of_decide_eq_true hlayer.2, entry, hentry, rfl⟩

theorem iterCpuWeights_nodup (m : Model N D E) (s : State N D E) :
    ((iterCpuWeights m s).map Prod.fst).Nodup := by
  rw [iterCpuWeights, map_flatMap, nodup_flatMap]
  refine ⟨?_, ?_⟩
  · intro i _
    rw [map_map]
    exact metadata_nodup m i
  · refine nodup_range.imp ?_
    intro i j hij name hi hj
    simp only [map_map, mem_map, Function.comp_apply] at hi hj
    obtain ⟨entry, hentry, rfl⟩ := hi
    obtain ⟨other, hother, heq⟩ := hj
    exact name_ne_of_layer_ne hentry hother hij heq.symm

theorem mem_iterCpuWeights_names :
    name ∈ (iterCpuWeights m s).map Prod.fst ↔
      ∃ w ∈ m.weights, w.name = name ∧ (m.offloadedIn w.name).isSome := by
  constructor
  · intro hname
    obtain ⟨p, hp, rfl⟩ := mem_map.1 hname
    obtain ⟨i, entry, hentry, rfl⟩ := mem_iterCpuWeights.1 hp
    obtain ⟨w, hw⟩ := exists_describes hentry
    obtain ⟨hweight, hlayer⟩ := mem_layerWeights.1 hw.mem
    exact ⟨w, hweight, hw.name.symm, by simp [hlayer]⟩
  · rintro ⟨w, hw, rfl, hsome⟩
    obtain ⟨i, hi⟩ := Option.isSome_iff_exists.1 hsome
    obtain ⟨entry, hentry, hdescribes⟩ := exists_metadata (mem_layerWeights.2 ⟨hw, hi⟩)
    exact mem_map.2 ⟨_, mem_iterCpuWeights.2 ⟨i, entry, hentry, rfl⟩, hdescribes.name⟩

/-! ## The weights as they were loaded -/

variable [DecidableEq N]

omit [DecidableEq D] in
theorem find_weight (hw : w ∈ m.weights) : m.weights.find? (fun v => v.name = w.name) = some w := by
  have hsome : (m.weights.find? (fun v => v.name = w.name)).isSome := by
    rw [find?_isSome]
    exact ⟨w, hw, by simp⟩
  obtain ⟨found, hfound⟩ := Option.isSome_iff_exists.1 hsome
  have hname : found.name = w.name := by simpa using find?_some hfound
  rw [hfound, eq_of_name_eq (mem_of_find?_eq_some hfound) hw hname]

theorem offloaded_flat (m : Model N D E) (i : Nat) (d : D) :
    (offloaded m).flat i d = cpuBuffer (m.alignmentNumel d) m.uninit (contiguousOf m i d) := by
  simp only [offloaded, groupByDtype_getD, contiguousOf]

theorem coherent_offloaded (m : Model N D E) :
    Coherent m (Ledger.start m).latest (Ledger.start m).synced [] (offloaded m) := by
  have hdata : ∀ {w}, w ∈ m.weights → (Ledger.start m).latest w.name = w.data := by
    intro w hw
    simp [Ledger.start, find_weight hw]
  refine ⟨?_, ?_, ?_, ?_, ?_, ?_, fun _ _ _ _ => rfl, ?_⟩
  · intro i entry hentry o n hplace
    obtain ⟨w, hw⟩ := exists_describes hentry
    obtain ⟨rfl, hmem⟩ := hw.slice hplace
    rw [offloaded_flat, hw.dtype]
    exact (read_cpuBuffer (alignmentNumel_pos m _) m.uninit hmem).1
  · intro i entry hentry
    obtain ⟨w, hw⟩ := exists_describes hentry
    have hweight := (mem_layerWeights.1 hw.mem).1
    rw [hw.name]
    refine Eq.trans ?_ (hdata hweight).symm
    rcases hw.place with hplace | ⟨offset, hplace, hmem⟩
    · simp [State.cpuRead, hplace, offloaded, hw.name, find_weight hweight]
    · simp only [State.cpuRead, hplace, offloaded_flat, hw.dtype]
      exact (read_cpuBuffer (alignmentNumel_pos m _) m.uninit hmem).2
  · intro w hw
    rw [hdata hw]
    exact w.length_data
  · intro i hi
    cases hi
  · intro i _ entry hentry
    obtain ⟨w, hw⟩ := exists_describes hentry
    obtain ⟨hweight, hlayer⟩ := mem_layerWeights.1 hw.mem
    simp [offloaded, hw.name, find_weight hweight, hlayer]
  · intro i hi
    cases hi
  · intro w hw hnone
    refine ⟨?_, rfl⟩
    rw [hdata hw]
    simp [offloaded, find_weight hw, hnone]

theorem coherent_start (m : Model N D E) :
    Coherent m (Ledger.start m).latest (Ledger.start m).synced [] (Ledger.start m).state := by
  obtain ⟨hroom, hcpu, hsized, hloaded, hreleased, hdirty, hclean, hresident⟩ :=
    (coherent_offloaded m).prefetchLayers (range m.prefetchSize) id
  exact ⟨hroom, hcpu, hsized, hloaded, hreleased, hdirty, hclean, hresident⟩

/-! ## Runs -/

/-- Edited layers are not released before they are synced: neither by a call, nor by a hook behind a
    forward. Without hooks, only layers on the GPU run, and only parameters on the GPU are edited. -/
def Careful (m : Model N D E) (l : Ledger N D E) : Event N E → Prop
  | .forward i =>
    if l.state.attached = 0 then m.layerWeights i ≠ [] → i ∈ l.state.gpuLayers else i ∉ l.dirty
  | .releaseLayer i => i ∉ l.dirty
  | .edit name data =>
    Admitted m l (.edit name data) ∧ ∀ i ∈ m.offloadedIn name, i ∈ l.state.gpuLayers
  | e => Admitted m l e

instance (l : Ledger N D E) (e : Event N E) : Decidable (Admitted m l e) := by
  unfold Admitted
  split <;> infer_instance

instance (l : Ledger N D E) (e : Event N E) : Decidable (Careful m l e) := by
  unfold Careful
  split <;> infer_instance

theorem coherent_step {l l' : Ledger N D E} {e : Event N E}
    (h : Coherent m l.latest l.synced l.dirty l.state) (hcareful : Careful m l e)
    (hstep : step m l e = some l') : Coherent m l'.latest l'.synced l'.dirty l'.state := by
  cases e with
  | forward i =>
    cases hstep
    refine h.forward i fun hattached => ?_
    simpa [Careful, hattached] using hcareful
  | prefetchLayer i =>
    cases hstep
    exact h.prefetchLayer i
  | releaseLayer i =>
    cases hstep
    exact h.releaseLayer hcareful
  | loadAllLayers =>
    cases hstep
    exact h.prefetchLayers _ id
  | syncLayerToCpu i =>
    cases hstep
    by_cases hi : i ∈ l.state.gpuLayers
    · simp only [if_pos hi]
      exact (h.syncLayerToCpu hi).1
    · simp only [if_neg hi]
      have hsame : syncLayerToCpu m i l.state = l.state := by rw [syncLayerToCpu, if_pos hi]
      rw [hsame]
      have hnone : ∀ j ∈ ([] : List Nat), j ∈ l.state.gpuLayers := fun _ hj => (not_mem_nil hj).elim
      exact h.syncLayers hnone
  | updateCpuWeights weights =>
    cases hstep
    obtain ⟨hdirty, hstate, hupdated⟩ := Coherent.updateCpuWeights hcareful
      (l := { l with state := (updateCpuWeights m weights l.state).2.2 }) h
    rw [hdirty, hstate]
    exact hupdated
  | disableOffload =>
    cases hstep
    exact h.disableOffload
  | edit name data =>
    cases hstep
    obtain ⟨⟨_, w, hw, rfl, hdata⟩, hloaded⟩ := hcareful
    exact coherent_editLedger h hw hdata hloaded
  | enableOffload =>
    cases hstep
    exact h.enableOffload

/-! ## Results -/

theorem Coherent.mem_iterMaterializedWeights (h : Coherent m latest synced dirty s)
    {p : N × Tensor E} :
    p ∈ iterMaterializedWeights m s ↔ ∃ w ∈ m.weights, p = (w.name, ⟨w.shape, synced w.name⟩) := by
  simp only [iterMaterializedWeights, mem_append]
  constructor
  · rintro (hp | hp)
    · obtain ⟨i, entry, hentry, rfl⟩ := mem_iterCpuWeights.1 hp
      obtain ⟨w, hw⟩ := exists_describes hentry
      refine ⟨w, (mem_layerWeights.1 hw.mem).1, ?_⟩
      rw [h.cpu i entry hentry, hw.name, hw.shape]
    · obtain ⟨w, hw, rfl⟩ := mem_map.1 hp
      obtain ⟨hw, hnot⟩ := mem_filter.1 hw
      have hnone : m.offloadedIn w.name = none := by
        by_contra hsome
        refine of_decide_eq_true hnot (mem_iterCpuWeights_names.2 ⟨w, hw, rfl, ?_⟩)
        exact Option.isSome_iff_ne_none.2 hsome
      obtain ⟨hparams, hsynced⟩ := h.resident w hw hnone
      exact ⟨w, hw, by rw [hparams, hsynced]⟩
  · rintro ⟨w, hw, rfl⟩
    cases hlayer : m.offloadedIn w.name with
    | some i =>
      obtain ⟨entry, hentry, hdescribes⟩ := exists_metadata (mem_layerWeights.2 ⟨hw, hlayer⟩)
      refine .inl (mem_iterCpuWeights.2 ⟨i, entry, hentry, ?_⟩)
      rw [h.cpu i entry hentry, hdescribes.name, hdescribes.shape]
    | none =>
      obtain ⟨hparams, hsynced⟩ := h.resident w hw hlayer
      refine .inr (mem_map.2 ⟨w, mem_filter.2 ⟨hw, ?_⟩, by rw [hparams, hsynced]⟩)
      refine decide_eq_true fun hname => ?_
      obtain ⟨v, hv, heq, hsome⟩ := mem_iterCpuWeights_names.1 hname
      rw [heq, hlayer] at hsome
      cases hsome

theorem iterMaterializedWeights_nodup (m : Model N D E) (s : State N D E) :
    ((iterMaterializedWeights m s).map Prod.fst).Nodup := by
  rw [iterMaterializedWeights, map_append, nodup_append', map_map]
  refine ⟨iterCpuWeights_nodup m s, m.nodup.sublist (filter_sublist.map _), ?_⟩
  intro name hname hother
  obtain ⟨w, hw, rfl⟩ := mem_map.1 hother
  exact of_decide_eq_true (mem_filter.1 hw).2 hname

/-- What offload promises of a state. -/
structure Transparent (m : Model N D E) (l : Ledger N D E) : Prop where
  /-- A layer that runs has its latest values, in their shapes. -/
  forward : ∀ i, Careful m l (.forward i) → ∀ w ∈ m.layerWeights i,
    (beforeForward m i l.state).params w.name = ⟨w.shape, l.latest w.name⟩
  /-- A layer that is not on the GPU has placeholders, and its latest values on the CPU. -/
  released : ∀ i, i ∉ l.state.gpuLayers → ∀ w ∈ m.layerWeights i,
    l.state.params w.name = m.placeholder ∧ ∃ entry ∈ m.metadata i, entry.name = w.name ∧
      entry.shape = w.shape ∧ l.state.cpuRead i entry = l.latest w.name
  /-- Every parameter is yielded once, with the value last synced. -/
  materialized : (iterMaterializedWeights m l.state).Perm
    (m.weights.map fun w => (w.name, ⟨w.shape, l.synced w.name⟩))

theorem Coherent.transparent {l : Ledger N D E}
    (h : Coherent m l.latest l.synced l.dirty l.state) : Transparent m l := by
  refine ⟨?_, ?_, ?_⟩
  · intro i hcareful w hw
    obtain ⟨entry, hentry, hdescribes⟩ := exists_metadata hw
    have hloaded : i ∈ (Offload.beforeForward m i l.state).gpuLayers := by
      by_cases hattached : l.state.attached = 0
      · rw [Offload.beforeForward, hattached]
        rw [Careful, if_pos hattached] at hcareful
        exact hcareful (ne_nil_of_mem hw)
      · exact mem_gpuLayers_beforeForward (ne_nil_of_mem hentry) hattached
    rw [← hdescribes.name, ← hdescribes.shape]
    exact (h.beforeForward i).loaded i hloaded entry hentry
  · intro i hi w hw
    obtain ⟨entry, hentry, hdescribes⟩ := exists_metadata hw
    have hclean : i ∉ l.dirty := fun hdirty => hi (h.dirtyLoaded i hdirty)
    rw [← hdescribes.name]
    refine ⟨h.released i hi entry hentry, entry, hentry, rfl, hdescribes.shape, ?_⟩
    rw [h.cpu i entry hentry]
    exact h.clean i hclean entry hentry
  · have hnames : ((m.weights.map fun w => (w.name, (⟨w.shape, l.synced w.name⟩ : Tensor E))).map
        Prod.fst).Nodup := by
      rw [map_map]
      exact m.nodup
    refine (perm_ext_iff_of_nodup (iterMaterializedWeights_nodup m l.state).of_map
      hnames.of_map).2 ?_
    intro p
    rw [h.mem_iterMaterializedWeights, mem_map]
    constructor
    · rintro ⟨w, hw, rfl⟩
      exact ⟨w, hw, rfl⟩
    · rintro ⟨w, hw, rfl⟩
      exact ⟨w, hw, rfl⟩

/-- **Offload is transparent**: for every model and every run whose steps are careful, in every state
    reached each layer that runs has its latest values, released layers have theirs on the CPU, and all
    parameters are yielded once with the values last synced. -/
theorem offload_transparent {l : Ledger N D E}
    (h : Run.Reaches (step m) (Careful m) (Ledger.start m) l) : Transparent m l := by
  have hcoherent := h.invariant (I := fun l => Coherent m l.latest l.synced l.dirty l.state)
    (coherent_start m) fun _ _ _ hl hcareful hstep => coherent_step hl hcareful hstep
  exact hcoherent.transparent

/-! A model of two layers, with a weight that is kept strided and one that is not offloaded. -/

def twoLayers : Model Nat Unit Nat where
  weights := [⟨0, (), [2], [1, 2], true, rfl⟩, ⟨1, (), [2, 1], [3, 4], false, rfl⟩,
    ⟨2, (), [3], [5, 6, 7], true, rfl⟩, ⟨9, (), [1], [8], true, rfl⟩]
  nodup := by decide
  layerOf := fun name => if name = 9 then none else some (name / 2)
  numLayers := 2
  requestedPrefetch := 1
  elementSize := fun _ => 8
  uninit := 0
  toDtype := fun _ x => x

theorem offload_transparent_refit :
    ∃ l, Run.Reaches (step twoLayers) (Careful twoLayers) (Ledger.start twoLayers) l ∧
      Transparent twoLayers l ∧ l.latest 0 = [10, 20] ∧ l.synced 1 = [30, 40] ∧ l.synced 9 = [80] ∧
      l.state.gpuLayers = [0] := by
  have hrun : (Run.exec (fun l e => if Careful twoLayers l e then step twoLayers l e else none)
      (Ledger.start twoLayers)
      [.forward 1, .disableOffload, .edit 0 [10, 20], .edit 9 [80], .forward 0, .enableOffload,
        .updateCpuWeights [(1, ⟨[2, 1], [30, 40]⟩)], .forward 1]).map
      (fun l => (l.latest 0, l.synced 1, l.synced 9, l.state.gpuLayers)) =
      some ([10, 20], [30, 40], [80], [0]) := by decide +kernel
  obtain ⟨l, hexec, hvalues⟩ := Option.map_eq_some_iff.1 hrun
  simp only [Prod.mk.injEq] at hvalues
  obtain ⟨hlatest, hone, hnine, hgpu⟩ := hvalues
  have hreach := Run.reaches_of_exec_guarded hexec
  exact ⟨l, hreach, offload_transparent hreach, hlatest, hone, hnine, hgpu⟩

/-- After `enable_offload` was called twice, `disable_offload` leaves a hook: the layer that was edited is
    released behind its forward, and runs with its old value from then on. -/
theorem forgotten_hook_loses_edit :
    ∃ l, Run.Reaches (step twoLayers) (Admitted twoLayers) (Ledger.start twoLayers) l ∧
      l.disabled = true ∧ l.latest 0 = [10, 20] ∧
      (beforeForward twoLayers 0 l.state).params 0 = ⟨[2], [1, 2]⟩ := by
  have hrun : (Run.exec (fun l e => if Admitted twoLayers l e then step twoLayers l e else none)
      (Ledger.start twoLayers)
      [.enableOffload, .disableOffload, .edit 0 [10, 20], .forward 0]).map
      (fun l => (l.disabled, l.latest 0, (beforeForward twoLayers 0 l.state).params 0)) =
      some (true, [10, 20], ⟨[2], [1, 2]⟩) := by decide +kernel
  obtain ⟨l, hexec, hvalues⟩ := Option.map_eq_some_iff.1 hrun
  simp only [Prod.mk.injEq] at hvalues
  obtain ⟨hdisabled, hlatest, hparams⟩ := hvalues
  exact ⟨l, Run.reaches_of_exec_guarded hexec, hdisabled, hlatest, hparams⟩

end Offload
