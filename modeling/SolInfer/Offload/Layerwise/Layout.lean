import SolInfer.Offload.Layerwise

set_option autoImplicit false

/-! # The layout of the CPU buffers

Every weight of a layer has one entry in the metadata, and the slices of two weights in one buffer are
apart. So the CPU copies of the weights can be read and written independently of each other. -/

open List Function

namespace Offload

variable {N D E : Type} {ws : List (Weight N D E)} {a : Nat}

/-! ## Packing -/

theorem le_alignNumelOffset (ha : 0 < a) (offset : Nat) : offset ≤ alignNumelOffset a offset := by
  unfold alignNumelOffset
  have hmod := Nat.mod_lt offset ha
  dsimp only
  split <;> omega

theorem alignedOffsets_map_fst (a current : Nat) (ws : List (Weight N D E)) :
    (alignedOffsets a current ws).map Prod.fst = ws := by
  induction ws generalizing current with
  | nil => rfl
  | cons w rest ih => simp [alignedOffsets, ih]

theorem le_totalNumel (ha : 0 < a) (current : Nat) (ws : List (Weight N D E)) :
    current ≤ totalNumel a current ws := by
  induction ws generalizing current with
  | nil => exact le_rfl
  | cons w rest ih =>
    have hstart := le_alignNumelOffset ha current
    have hrest := ih (alignNumelOffset a current + w.numel)
    rw [totalNumel]
    omega

theorem alignedOffsets_bounds (ha : 0 < a) {current : Nat}
    {p : Weight N D E × Nat} (hp : p ∈ alignedOffsets a current ws) :
    current ≤ p.2 ∧ p.2 + p.1.numel ≤ totalNumel a current ws := by
  induction ws generalizing current with
  | nil => cases hp
  | cons w rest ih =>
    have hstart := le_alignNumelOffset ha current
    rcases mem_cons.1 hp with rfl | hp
    · exact ⟨hstart, le_totalNumel ha _ rest⟩
    · obtain ⟨hle, htotal⟩ := ih hp
      exact ⟨by omega, htotal⟩

theorem alignedOffsets_apart (ha : 0 < a) (current : Nat) (ws : List (Weight N D E)) :
    (alignedOffsets a current ws).Pairwise (fun p q => p.2 + p.1.numel ≤ q.2) := by
  induction ws generalizing current with
  | nil => exact List.Pairwise.nil
  | cons w rest ih =>
    refine List.Pairwise.cons (fun q hq => ?_) (ih _)
    exact (alignedOffsets_bounds ha hq).1

theorem read_foldl_write {ps : List (Weight N D E × Nat)} (buffer : List E)
    (hapart : ps.Pairwise (fun p q => p.2 + p.1.numel ≤ q.2))
    (hrange : ∀ p ∈ ps, p.2 + p.1.numel ≤ buffer.length) :
    let filled := ps.foldl (fun buffer (w, offset) => Slices.write buffer offset w.data) buffer
    filled.length = buffer.length ∧ (∀ p ∈ ps, Slices.read filled p.2 p.1.numel = p.1.data) ∧
      ∀ offset n, (∀ p ∈ ps, offset + n ≤ p.2) →
        Slices.read filled offset n = Slices.read buffer offset n := by
  induction ps generalizing buffer with
  | nil => exact ⟨rfl, by simp, fun _ _ _ => rfl⟩
  | cons p rest ih =>
    obtain ⟨w, offset⟩ := p
    obtain ⟨hfirst, hrest⟩ := pairwise_cons.1 hapart
    have hwrite : offset + w.data.length ≤ buffer.length := by
      rw [w.length_data]
      exact hrange (w, offset) mem_cons_self
    have hlength := Slices.length_write hwrite
    obtain ⟨hfilled, hread, hkeep⟩ := ih (Slices.write buffer offset w.data) hrest
      fun q hq => by rw [hlength]; exact hrange q (.tail _ hq)
    refine ⟨hfilled.trans hlength, ?_, ?_⟩
    · rintro q (_ | ⟨_, hq⟩)
      · -- the later slices are behind this one
        refine (hkeep offset w.numel (fun q hq => hfirst q hq)).trans ?_
        have hself := Slices.read_write_self hwrite
        rwa [w.length_data] at hself
      · exact hread q hq
    · intro offset' n hbefore
      refine (hkeep offset' n (fun q hq => hbefore q (.tail _ hq))).trans ?_
      exact Slices.read_write_of_apart hwrite (.inr (hbefore (w, offset) mem_cons_self))

theorem read_cpuBuffer (ha : 0 < a) (uninit : E)
    {p : Weight N D E × Nat} (hp : p ∈ alignedOffsets a 0 ws) :
    p.2 + p.1.numel ≤ (cpuBuffer a uninit ws).length ∧
      Slices.read (cpuBuffer a uninit ws) p.2 p.1.numel = p.1.data := by
  obtain ⟨hlength, hread, _⟩ := read_foldl_write
    (replicate (totalNumel a 0 ws) uninit) (alignedOffsets_apart ha 0 ws)
    fun q hq => by rw [length_replicate]; exact (alignedOffsets_bounds ha hq).2
  refine ⟨?_, hread p hp⟩
  rw [cpuBuffer, hlength, length_replicate]
  exact (alignedOffsets_bounds ha hp).2

/-! ## Groups -/

section

variable [DecidableEq D]

theorem groupByDtype_concat (ws : List (Weight N D E)) (w : Weight N D E) :
    groupByDtype (ws ++ [w]) =
      (groupByDtype ws).set w.dtype (((groupByDtype ws).get? w.dtype).getD [] ++ [w]) := by
  simp [groupByDtype]

theorem groupByDtype_getD (ws : List (Weight N D E)) (d : D) :
    ((groupByDtype ws).get? d).getD [] = ws.filter (fun w => w.dtype = d) := by
  induction ws using reverseRecOn with
  | nil => rfl
  | append_singleton ws w ih =>
    rw [groupByDtype_concat, Dict.get?_set, filter_append]
    by_cases hd : w.dtype = d
    · subst hd
      simp [ih]
    · simp [hd, ih]

theorem mem_groupByDtype {group : List (Weight N D E)} {d : D}
    (h : (d, group) ∈ (groupByDtype ws).entries) : group = ws.filter (fun w => w.dtype = d) := by
  rw [← groupByDtype_getD, Dict.mem_entries.1 h, Option.getD_some]

theorem exists_group {w : Weight N D E} (hw : w ∈ ws) :
    (w.dtype, ws.filter (fun v => v.dtype = w.dtype)) ∈ (groupByDtype ws).entries := by
  rw [Dict.mem_entries, ← groupByDtype_getD]
  cases hget : (groupByDtype ws).get? w.dtype with
  | some group => rfl
  | none =>
    have hempty := groupByDtype_getD ws w.dtype
    rw [hget, Option.getD_none] at hempty
    have hmem : w ∈ ws.filter (fun v => v.dtype = w.dtype) := by simp [hw]
    rw [← hempty] at hmem
    cases hmem

end

/-! ## Metadata -/

variable {m : Model N D E} {i j : Nat} {entry other : Meta N D} {w v : Weight N D E}

theorem alignmentNumel_pos (m : Model N D E) (d : D) : 0 < m.alignmentNumel d :=
  Nat.lt_of_lt_of_le Nat.zero_lt_one (Nat.le_max_left _ _)

theorem eq_of_name_eq (hw : w ∈ m.weights) (hv : v ∈ m.weights) (h : w.name = v.name) : w = v :=
  inj_on_of_nodup_map m.nodup hw hv h

theorem mem_layerWeights : w ∈ m.layerWeights i ↔ w ∈ m.weights ∧ m.offloadedIn w.name = some i := by
  simp [Model.layerWeights]

theorem groupMetadata_map_name (a : Nat) (d : D) (ws : List (Weight N D E)) :
    ((groupMetadata a d ws).map Meta.name).Perm (ws.map Weight.name) := by
  have hslices : (alignedOffsets a 0 (ws.filter (fun w => w.isContiguous))).map
      (fun p => p.1.name) = (ws.filter (fun w => w.isContiguous)).map Weight.name := by
    rw [← comp_def Weight.name Prod.fst, ← map_map, alignedOffsets_map_fst]
  have hnames : (groupMetadata a d ws).map Meta.name =
      (ws.filter (fun w => ¬ w.isContiguous) ++ ws.filter (fun w => w.isContiguous)).map Weight.name := by
    simp only [groupMetadata, map_append, map_map, comp_def]
    rw [← hslices]
  rw [hnames]
  refine List.Perm.map _ (perm_append_comm.trans ?_)
  have hperm := filter_append_perm (fun w : Weight N D E => w.isContiguous) ws
  simpa using hperm

variable [DecidableEq D]

def contiguousOf (m : Model N D E) (i : Nat) (d : D) : List (Weight N D E) :=
  ((m.layerWeights i).filter (fun w => w.dtype = d)).filter fun w => w.isContiguous

structure Describes (m : Model N D E) (i : Nat) (entry : Meta N D) (w : Weight N D E) : Prop where
  mem : w ∈ m.layerWeights i
  name : entry.name = w.name
  dtype : entry.dtype = w.dtype
  shape : entry.shape = w.shape
  place : entry.place = .strided ∨ ∃ offset, entry.place = .slice offset w.numel ∧
    (w, offset) ∈ alignedOffsets (m.alignmentNumel w.dtype) 0 (contiguousOf m i w.dtype)

theorem Describes.slice {o n : Nat} (hw : Describes m i entry w) (hplace : entry.place = .slice o n) :
    n = w.numel ∧ (w, o) ∈ alignedOffsets (m.alignmentNumel w.dtype) 0 (contiguousOf m i w.dtype) := by
  rcases hw.place with hstrided | ⟨offset, hoffset, hmem⟩
  · rw [hstrided] at hplace
    cases hplace
  · rw [hoffset] at hplace
    cases hplace
    exact ⟨rfl, hmem⟩

theorem exists_describes (h : entry ∈ m.metadata i) : ∃ w, Describes m i entry w := by
  obtain ⟨⟨d, group⟩, hgroup, hentry⟩ := mem_flatMap.1 h
  obtain rfl := mem_groupByDtype hgroup
  rcases mem_append.1 hentry with hentry | hentry
  · obtain ⟨w, hw, rfl⟩ := mem_map.1 hentry
    obtain ⟨hw, _⟩ := mem_filter.1 hw
    obtain ⟨hw, hd⟩ := mem_filter.1 hw
    exact ⟨w, hw, rfl, (of_decide_eq_true hd).symm, rfl, .inl rfl⟩
  · obtain ⟨⟨w, offset⟩, hw, rfl⟩ := mem_map.1 hentry
    have hmem : w ∈ contiguousOf m i d := by
      rw [contiguousOf, ← alignedOffsets_map_fst (m.alignmentNumel d) 0
        (((m.layerWeights i).filter (fun w => w.dtype = d)).filter (fun w => w.isContiguous))]
      exact mem_map_of_mem hw
    obtain ⟨hgroup, _⟩ := mem_filter.1 hmem
    obtain ⟨hlayer, hd⟩ := mem_filter.1 hgroup
    obtain rfl : w.dtype = d := of_decide_eq_true hd
    exact ⟨w, hlayer, rfl, rfl, rfl, .inr ⟨offset, rfl, hw⟩⟩

theorem exists_metadata (h : w ∈ m.layerWeights i) : ∃ entry ∈ m.metadata i, Describes m i entry w := by
  have hgroup := exists_group h
  have hname : w.name ∈ (groupMetadata (m.alignmentNumel w.dtype) w.dtype
      ((m.layerWeights i).filter (fun v => v.dtype = w.dtype))).map Meta.name := by
    rw [(groupMetadata_map_name _ _ _).mem_iff]
    exact mem_map_of_mem (by simp [h])
  obtain ⟨entry, hentry, hentryName⟩ := mem_map.1 hname
  have hmem : entry ∈ m.metadata i := mem_flatMap.2 ⟨_, hgroup, hentry⟩
  obtain ⟨v, hv⟩ := exists_describes hmem
  obtain rfl : v = w := eq_of_name_eq (mem_layerWeights.1 hv.mem).1 (mem_layerWeights.1 h).1
    (hv.name.symm.trans hentryName)
  exact ⟨entry, hmem, hv⟩

theorem metadata_nodup (m : Model N D E) (i : Nat) : ((m.metadata i).map Meta.name).Nodup := by
  have hlayer : ((m.layerWeights i).map Weight.name).Nodup :=
    m.nodup.sublist (filter_sublist.map _)
  rw [Model.metadata, map_flatMap, nodup_flatMap]
  refine ⟨?_, ?_⟩
  · rintro ⟨d, group⟩ hgroup
    obtain rfl := mem_groupByDtype hgroup
    rw [(groupMetadata_map_name _ _ _).nodup_iff]
    exact hlayer.sublist (filter_sublist.map _)
  · -- weights of one name have one element type
    have hkeys : ((groupByDtype (m.layerWeights i)).entries).Pairwise (fun p q => p.1 ≠ q.1) :=
      pairwise_map.1 (groupByDtype (m.layerWeights i)).nodup
    refine hkeys.imp_of_mem ?_
    rintro ⟨d, group⟩ ⟨d', group'⟩ hgroup hgroup' hne name hname hname'
    obtain rfl := mem_groupByDtype hgroup
    obtain rfl := mem_groupByDtype hgroup'
    rw [(groupMetadata_map_name _ _ _).mem_iff] at hname hname'
    obtain ⟨v, hv, rfl⟩ := mem_map.1 hname
    obtain ⟨v', hv', heq⟩ := mem_map.1 hname'
    obtain ⟨hv, hd⟩ := mem_filter.1 hv
    obtain ⟨hv', hd'⟩ := mem_filter.1 hv'
    obtain rfl := eq_of_name_eq (mem_layerWeights.1 hv').1 (mem_layerWeights.1 hv).1 heq
    exact hne ((of_decide_eq_true hd).symm.trans (of_decide_eq_true hd'))

section

variable (h : entry ∈ m.metadata i)
include h

theorem layer_of_metadata : m.offloadedIn entry.name = some i := by
  obtain ⟨w, hw⟩ := exists_describes h
  rw [hw.name]
  exact (mem_layerWeights.1 hw.mem).2

theorem name_ne_of_layer_ne (h' : other ∈ m.metadata j) (hij : i ≠ j) : entry.name ≠ other.name := by
  intro heq
  have hi := layer_of_metadata h
  rw [heq, layer_of_metadata h'] at hi
  exact hij (Option.some.inj hi).symm

theorem metadata_apart (h' : other ∈ m.metadata i) (hne : entry.name ≠ other.name)
    (hdtype : entry.dtype = other.dtype) {o n o' n' : Nat} (hplace : entry.place = .slice o n)
    (hplace' : other.place = .slice o' n') : o + n ≤ o' ∨ o' + n' ≤ o := by
  obtain ⟨w, hw⟩ := exists_describes h
  obtain ⟨v, hv⟩ := exists_describes h'
  have hd : w.dtype = v.dtype := by rw [← hw.dtype, hdtype, hv.dtype]
  obtain ⟨rfl, hmem⟩ := hw.slice hplace
  obtain ⟨rfl, hmem'⟩ := hv.slice hplace'
  rw [← hd] at hmem'
  let apart : Weight N D E × Nat → Weight N D E × Nat → Prop :=
    fun p q => p.2 + p.1.numel ≤ q.2 ∨ q.2 + q.1.numel ≤ p.2
  have : Std.Symm apart := ⟨fun _ _ h => h.symm⟩
  have hapart : (alignedOffsets (m.alignmentNumel w.dtype) 0 (contiguousOf m i w.dtype)).Pairwise
      apart := (alignedOffsets_apart (alignmentNumel_pos m w.dtype) 0 _).imp .inl
  have hpair : (w, o) ≠ (v, o') := by
    intro heq
    cases heq
    exact hne (hw.name.trans hv.name.symm)
  exact hapart.forall hmem hmem' hpair

theorem slice_numel {o n : Nat} (hplace : entry.place = .slice o n) : n = entry.shape.prod := by
  obtain ⟨w, hw⟩ := exists_describes h
  rw [(hw.slice hplace).1, hw.shape]
  rfl

end

/-! ## Reading and writing the CPU copies -/

def Roomy (m : Model N D E) (s : State N D E) : Prop :=
  ∀ i, ∀ entry ∈ m.metadata i, ∀ o n, entry.place = .slice o n → o + n ≤ (s.flat i entry.dtype).length

variable [DecidableEq N] {s : State N D E} {data : List E}

section

variable (hroom : Roomy m s) (h : entry ∈ m.metadata i)
include hroom h

section

variable (hdata : data.length = entry.shape.prod)
include hdata

theorem Roomy.cpuWrite : Roomy m (s.cpuWrite i entry data) := by
  intro j other hother o n hplace
  have hold := hroom j other hother o n hplace
  unfold State.cpuWrite
  split
  next offset numel hslice =>
    have hwrite : offset + data.length ≤ (s.flat i entry.dtype).length := by
      rw [hdata, ← slice_numel h hslice]
      exact hroom i entry h offset numel hslice
    by_cases hij : j = i
    · subst hij
      by_cases hd : other.dtype = entry.dtype
      · simp only [update_self, hd, Slices.length_write hwrite]
        rw [← hd]
        exact hold
      · simpa [update_of_ne hd] using hold
    · simpa [update_of_ne hij] using hold
  · exact hold

theorem cpuRead_cpuWrite_self : (s.cpuWrite i entry data).cpuRead i entry = data := by
  unfold State.cpuWrite State.cpuRead
  cases hplace : entry.place with
  | slice offset numel =>
    have hnumel := slice_numel h hplace
    have hwrite : offset + data.length ≤ (s.flat i entry.dtype).length := by
      rw [hdata, ← hnumel]
      exact hroom i entry h offset numel hplace
    simp only [update_self]
    rw [hnumel, ← hdata]
    exact Slices.read_write_self hwrite
  | strided => simp only [update_self]

theorem cpuRead_cpuWrite_of_ne (h' : other ∈ m.metadata j) (hne : entry.name ≠ other.name) :
    (s.cpuWrite i entry data).cpuRead j other = s.cpuRead j other := by
  unfold State.cpuWrite State.cpuRead
  cases hplace : entry.place with
  | strided => cases other.place <;> simp [update_of_ne (Ne.symm hne)]
  | slice offset numel =>
    have hnumel := slice_numel h hplace
    have hwrite : offset + data.length ≤ (s.flat i entry.dtype).length := by
      rw [hdata, ← hnumel]
      exact hroom i entry h offset numel hplace
    cases hplace' : other.place with
    | strided => rfl
    | slice offset' numel' =>
      by_cases hij : j = i
      · subst hij
        by_cases hd : other.dtype = entry.dtype
        · have hapart := metadata_apart h h' hne hd.symm hplace hplace'
          simp only [update_self, hd]
          refine Slices.read_write_of_apart hwrite ?_
          rw [hdata, ← hnumel]
          exact hapart
        · simp [update_of_ne hd]
      · simp [update_of_ne hij]

end

end

end Offload
