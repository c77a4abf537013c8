import SolInfer.Lib.Python

set_option autoImplicit false

/-! # Ulysses and ring groups

`set_seq_parallel_pg_by_sp_groups` of `distributed/parallel_groups.py`. The ranks of a sequence-parallel
group are laid out in a grid; Ulysses groups are its rows and ring groups its columns, or, with
`use_ulysses_low` off, the other way round. -/

open List

namespace ParallelGroups

/-! ## The function -/

/-- `range(start, stop, step)`. -/
def rangeStep (start stop step : Nat) : List Nat :=
  (range ((stop - start + step - 1) / step)).map fun k => start + k * step

inductive Kind where
  | ulysses
  | ring
deriving DecidableEq

/-- The calls of `new_group` a rank has made, each with the loop it is made in, and the two groups it keeps.
    A group is known by the number of its call. -/
structure State where
  created : List (Kind × List Nat)
  ulyssesPg : Option Nat
  ringPg : Option Nat

def State.pg (s : State) : Kind → Option Nat
  | .ulysses => s.ulyssesPg
  | .ring => s.ringPg

def mapIndicesToRanks (ranks indices : List Nat) : Except PyError (List Nat) :=
  indices.mapM fun i => match ranks[i]? with
    | some rank => .ok rank
    | none => .error (.indexError "list index out of range")

/-- `new_group`, and the assignment that follows it. -/
def newGroup (rank : Nat) (s : State) (call : Kind × List Nat) : State :=
  let group := s.created.length
  let s := { s with created := s.created ++ [call] }
  if rank ∈ call.2 then
    match call.1 with
    | .ulysses => { s with ulyssesPg := some group }
    | .ring => { s with ringPg := some group }
  else s

/-- One of the four inner loops. -/
def createGroups (rank : Nat) (spRanks : List Nat) (kind : Kind) (indices : List (List Nat)) (s : State) :
    Except PyError State :=
  indices.foldlM (fun s idx => do
    let ranks ← mapIndicesToRanks spRanks idx
    return newGroup rank s (kind, ranks)) s

def setSeqParallelPgBySpGroups (spUlyssesDegree spRingDegree rank : Nat) (spGroups : List (List Nat))
    (useUlyssesLow : Bool) : Except PyError State := do
  let spDegree := spRingDegree * spUlyssesDegree
  let sizes := spGroups.map length
  if spDegree = 0 then throw (.assertionError "")
  if sizes.any (· ≠ spDegree) then
    throw (.assertionError s!"Each SP group must have size {spDegree}, got sizes {sizes}")
  let numUlyssesPgs := spRingDegree
  let numRingPgs := spUlyssesDegree
  spGroups.foldlM (fun s spRanks =>
    if useUlyssesLow then do
      let s ← createGroups rank spRanks .ulysses ((range numUlyssesPgs).map fun i =>
        range' (i * spUlyssesDegree) spUlyssesDegree) s
      createGroups rank spRanks .ring ((range numRingPgs).map fun i =>
        rangeStep i spDegree numRingPgs) s
    else do
      let s ← createGroups rank spRanks .ring ((range numRingPgs).map fun i =>
        range' (i * spRingDegree) spRingDegree) s
      createGroups rank spRanks .ulysses ((range numUlyssesPgs).map fun i =>
        rangeStep i spDegree numUlyssesPgs) s) ⟨[], none, none⟩

/-! ## Rows and columns of indices -/

/-- Row `i` of a grid with rows of `w`. -/
def row (w i : Nat) : List Nat := range' (i * w) w

/-- Column `j` of a grid with `h` rows of `w`. -/
def column (w h j : Nat) : List Nat := (range h).map fun k => j + k * w

theorem rangeStep_eq_column {w h j : Nat} (hj : j < w) : rangeStep j (h * w) w = column w h j := by
  have hlen : (h * w - j + w - 1) / w = h := by
    cases h with
    | zero => rw [Nat.div_eq_of_lt]; omega
    | succ h =>
      have hle : w ≤ w * (h + 1) := Nat.le_mul_of_pos_right w h.succ_pos
      rw [show (h + 1) * w - j + w - 1 = (w - 1 - j) + w * (h + 1) by rw [Nat.mul_comm]; omega,
        Nat.add_mul_div_left _ _ (by omega), Nat.div_eq_of_lt (by omega), Nat.zero_add]
  rw [rangeStep, hlen, column]

variable {w h : Nat}

theorem mem_row (hw : 0 < w) {i q : Nat} (hi : i < h) : q ∈ row w i ↔ q < h * w ∧ q / w = i := by
  rw [row, mem_range'_1, Nat.div_eq_iff hw, Nat.add_comm]
  have := Nat.mul_le_mul_right w (Nat.succ_le_of_lt hi)
  rw [Nat.succ_mul] at this
  omega

theorem mem_column {j q : Nat} (hj : j < w) : q ∈ column w h j ↔ q < h * w ∧ q % w = j := by
  simp only [column, mem_map, mem_range]
  constructor
  · rintro ⟨k, hk, rfl⟩
    have := Nat.mul_le_mul_right w (Nat.succ_le_of_lt hk)
    rw [Nat.succ_mul] at this
    exact ⟨by omega, by rw [Nat.add_mul_mod_self_right, Nat.mod_eq_of_lt hj]⟩
  · rintro ⟨hq, rfl⟩
    refine ⟨q / w, Nat.div_lt_of_lt_mul (by rwa [Nat.mul_comm]), ?_⟩
    rw [Nat.mul_comm, Nat.mod_add_div]

theorem perm_range_of_classes {n k : Nat} {f : Nat → Nat} {groups : Nat → List Nat}
    (hnodup : ∀ i < k, (groups i).Nodup) (hmem : ∀ i < k, ∀ q, q ∈ groups i ↔ q < n ∧ f q = i)
    (hf : ∀ q < n, f q < k) : ((range k).map groups).flatten.Perm (range n) := by
  refine (perm_ext_iff_of_nodup (nodup_flatten.2 ⟨?_, ?_⟩) nodup_range).2 fun q => ?_
  · simpa using hnodup
  · refine pairwise_map.2 (nodup_range.imp_of_mem fun {i j} hi hj hne q hq hq' => hne ?_)
    rw [← ((hmem i (mem_range.1 hi) q).1 hq).2, ((hmem j (mem_range.1 hj) q).1 hq').2]
  · simp only [mem_flatten, mem_map, mem_range]
    constructor
    · rintro ⟨_, ⟨i, hi, rfl⟩, hq⟩
      exact ((hmem i hi q).1 hq).1
    · exact fun hq => ⟨_, ⟨f q, hf q hq, rfl⟩, (hmem _ (hf q hq) q).2 ⟨hq, rfl⟩⟩

/-! ## Grids of ranks -/

/-- The ranks of a group, in rows of `w` and columns of `h`. -/
structure FormGrid (ranks : List Nat) (w h : Nat) (rows columns : List (List Nat)) : Prop where
  length_rows : rows.length = h
  length_row : ∀ r ∈ rows, r.length = w
  perm_rows : rows.flatten.Perm ranks
  length_columns : columns.length = w
  length_column : ∀ c ∈ columns, c.length = h
  perm_columns : columns.flatten.Perm ranks
  meet : ∀ r ∈ rows, ∀ c ∈ columns, ∃! x, x ∈ r ∧ x ∈ c

theorem FormGrid.swap {ranks : List Nat} {rows columns : List (List Nat)} (g : FormGrid ranks w h rows columns) :
    FormGrid ranks h w columns rows :=
  ⟨g.length_columns, g.length_column, g.perm_columns, g.length_rows, g.length_row, g.perm_rows,
    fun c hc r hr => by simpa only [and_comm] using g.meet r hr c hc⟩

def ranksAt (ranks indices : List Nat) : List Nat := indices.map fun i => ranks.getD i 0

def rowsOf (w h : Nat) (ranks : List Nat) : List (List Nat) :=
  (range h).map fun i => ranksAt ranks (row w i)

def columnsOf (w h : Nat) (ranks : List Nat) : List (List Nat) :=
  (range w).map fun j => ranksAt ranks (column w h j)

variable {ranks : List Nat}

theorem ranksAt_range : ranksAt ranks (range ranks.length) = ranks := by
  refine ext_getElem (by simp [ranksAt]) fun i hi hi' => ?_
  simp [ranksAt, hi']

theorem perm_of_classes {k : Nat} {f : Nat → Nat} {groups : Nat → List Nat}
    (hnodup : ∀ i < k, (groups i).Nodup) (hmem : ∀ i < k, ∀ q, q ∈ groups i ↔ q < ranks.length ∧ f q = i)
    (hf : ∀ q < ranks.length, f q < k) :
    ((range k).map fun i => ranksAt ranks (groups i)).flatten.Perm ranks := by
  have hperm := (perm_range_of_classes hnodup hmem hf).map fun i => ranks.getD i 0
  rw [map_flatten, map_map] at hperm
  exact hperm.trans (.of_eq ranksAt_range)

theorem formGrid (hw : 0 < w) (hlen : ranks.length = h * w) (hnodup : ranks.Nodup) :
    FormGrid ranks w h (rowsOf w h ranks) (columnsOf w h ranks) where
  length_rows := by simp [rowsOf]
  length_row := by simp [rowsOf, ranksAt, row]
  perm_rows := by
    refine perm_of_classes (fun i _ => nodup_range') (fun i hi q => hlen ▸ mem_row hw hi) fun q hq => ?_
    exact Nat.div_lt_of_lt_mul (by rwa [Nat.mul_comm, ← hlen])
  length_columns := by simp [columnsOf]
  length_column := by simp [columnsOf, ranksAt, column]
  perm_columns := by
    refine perm_of_classes (fun j _ => nodup_range.map fun a b hab => ?_)
      (fun j hj q => hlen ▸ mem_column hj) fun q _ => Nat.mod_lt _ hw
    exact Nat.eq_of_mul_eq_mul_right hw (Nat.add_left_cancel hab)
  meet := by
    simp only [rowsOf, columnsOf, mem_map, mem_range]
    rintro _ ⟨i, hi, rfl⟩ _ ⟨j, hj, rfl⟩
    simp only [ranksAt, mem_map, mem_row hw hi, mem_column hj]
    -- the rank in row `i` and column `j`
    have hq : i * w + j < h * w := by
      have := Nat.mul_le_mul_right w (Nat.succ_le_of_lt hi)
      rw [Nat.succ_mul] at this
      omega
    have hdiv : (i * w + j) / w = i := by
      rw [Nat.add_comm, Nat.add_mul_div_right _ _ hw, Nat.div_eq_of_lt hj, Nat.zero_add]
    have hmod : (i * w + j) % w = j := by rw [Nat.add_comm, Nat.add_mul_mod_self_right, Nat.mod_eq_of_lt hj]
    refine ⟨_, ⟨⟨_, ⟨hq, hdiv⟩, rfl⟩, ⟨_, ⟨hq, hmod⟩, rfl⟩⟩, ?_⟩
    rintro _ ⟨⟨p, ⟨hp, hpdiv⟩, rfl⟩, ⟨q, ⟨hq', hqmod⟩, hqp⟩⟩
    rw [← hlen] at hp hq'
    have heq : q = p := by
      rw [getD_eq_getElem _ _ hq', getD_eq_getElem _ _ hp] at hqp
      exact (List.Nodup.getElem_inj_iff hnodup).1 hqp
    rw [← hpdiv, ← hqmod, heq, Nat.div_add_mod']

/-! ## The calls of a rank -/

variable {u r : Nat}

def ulyssesGroups (u r : Nat) (low : Bool) (ranks : List Nat) : List (List Nat) :=
  if low then rowsOf u r ranks else columnsOf r u ranks

def ringGroups (u r : Nat) (low : Bool) (ranks : List Nat) : List (List Nat) :=
  if low then columnsOf u r ranks else rowsOf r u ranks

/-- The calls of `new_group` for one SP group, which do not depend on the rank that makes them. -/
def calls (u r : Nat) (low : Bool) (ranks : List Nat) : List (Kind × List Nat) :=
  if low then (ulyssesGroups u r low ranks).map (.ulysses, ·) ++ (ringGroups u r low ranks).map (.ring, ·)
  else (ringGroups u r low ranks).map (.ring, ·) ++ (ulyssesGroups u r low ranks).map (.ulysses, ·)

theorem groups_formGrid (hu : 1 ≤ u) (hr : 1 ≤ r) (low : Bool) (hlen : ranks.length = u * r)
    (hnodup : ranks.Nodup) :
    FormGrid ranks u r (ulyssesGroups u r low ranks) (ringGroups u r low ranks) := by
  cases low with
  | true => exact formGrid hu (by rw [hlen, Nat.mul_comm]) hnodup
  | false => exact (formGrid hr hlen hnodup).swap

theorem createGroups_eq (rank : Nat) (kind : Kind) {indices : List (List Nat)} (s : State)
    (h : ∀ idx ∈ indices, ∀ q ∈ idx, q < ranks.length) :
    createGroups rank ranks kind indices s
      = .ok ((indices.map fun idx => (kind, ranksAt ranks idx)).foldl (newGroup rank) s) := by
  induction indices generalizing s with
  | nil => rfl
  | cons idx rest ih =>
    have hmap : mapIndicesToRanks ranks idx = .ok (ranksAt ranks idx) := by
      nth_rewrite 1 [← map_id idx]
      refine mapM_map_ok idx fun q hq => ?_
      have hlt := h idx mem_cons_self q hq
      rw [id_eq, getElem?_eq_getElem hlt, getD_eq_getElem _ _ hlt]
    rw [createGroups, foldlM_cons, hmap]
    exact ih _ fun idx hidx => h idx (.tail _ hidx)

theorem mem_row_lt (hw : 0 < w) (hlen : ranks.length = h * w) :
    ∀ idx ∈ (range h).map (row w), ∀ q ∈ idx, q < ranks.length := by
  simp only [mem_map, mem_range]
  rintro _ ⟨i, hi, rfl⟩ q hq
  exact hlen ▸ ((mem_row hw hi).1 hq).1

theorem mem_column_lt (hlen : ranks.length = h * w) :
    ∀ idx ∈ (range w).map (column w h), ∀ q ∈ idx, q < ranks.length := by
  simp only [mem_map, mem_range]
  rintro _ ⟨j, hj, rfl⟩ q hq
  exact hlen ▸ ((mem_column hj).1 hq).1

theorem createGroups_rows_columns (rank : Nat) (first second : Kind) (hw : 0 < w)
    (hlen : ranks.length = h * w) (s : State) :
    (do
      let s ← createGroups rank ranks first ((range h).map fun i => range' (i * w) w) s
      createGroups rank ranks second ((range w).map fun i => rangeStep i (h * w) w) s)
      = .ok (((rowsOf w h ranks).map (first, ·) ++ (columnsOf w h ranks).map (second, ·)).foldl
          (newGroup rank) s) := by
  have hcolumns : ((range w).map fun i => rangeStep i (h * w) w) = (range w).map (column w h) :=
    map_congr_left fun j hj => rangeStep_eq_column (mem_range.1 hj)
  rw [foldl_append, rowsOf, columnsOf, map_map, map_map, hcolumns,
    show (fun i => range' (i * w) w) = row w from rfl, createGroups_eq rank first s (mem_row_lt hw hlen),
    map_map]
  refine (createGroups_eq rank second _ (mem_column_lt hlen)).trans ?_
  rw [map_map]
  rfl

theorem setSeqParallel_eq (hu : 1 ≤ u) (hr : 1 ≤ r) (low : Bool) (rank : Nat) {spGroups : List (List Nat)}
    (hsize : ∀ g ∈ spGroups, g.length = u * r) :
    setSeqParallelPgBySpGroups u r rank spGroups low
      = .ok ((spGroups.flatMap (calls u r low)).foldl (newGroup rank) ⟨[], none, none⟩) := by
  have hany : ((spGroups.map length).any (· ≠ r * u)) = false := by
    simp only [any_map, any_eq_false, Function.comp]
    intro g hg
    simp [hsize g hg, Nat.mul_comm]
  rw [setSeqParallelPgBySpGroups]
  simp only [hany, Nat.mul_eq_zero, (show r ≠ 0 by omega), (show u ≠ 0 by omega)]
  generalize (⟨[], none, none⟩ : State) = s
  clear hany
  induction spGroups generalizing s with
  | nil => rfl
  | cons g rest ih =>
    obtain ⟨hg, hrest⟩ := forall_mem_cons.1 hsize
    rw [flatMap_cons, foldl_append, foldlM_cons, ← ih hrest]
    refine congrArg (· >>= _) (?_ : _ = Except.ok ((calls u r low g).foldl (newGroup rank) s))
    cases low with
    | true => exact createGroups_rows_columns rank .ulysses .ring hu (by rw [hg, Nat.mul_comm]) s
    | false =>
      rw [Nat.mul_comm r u]
      exact createGroups_rows_columns rank .ring .ulysses hr hg s

/-! ## The groups a rank keeps -/

theorem created_foldl (rank : Nat) (l : List (Kind × List Nat)) (s : State) :
    (l.foldl (newGroup rank) s).created = s.created ++ l := by
  induction l generalizing s with
  | nil => simp
  | cons call rest ih =>
    have hcreated : (newGroup rank s call).created = s.created ++ [call] := by
      rw [newGroup]
      rcases call with ⟨kind, group⟩
      split <;> cases kind <;> rfl
    rw [foldl_cons, ih, hcreated, append_assoc]
    rfl

theorem pg_newGroup (rank : Nat) (s : State) (call : Kind × List Nat) (kind : Kind) :
    (newGroup rank s call).pg kind
      = if call.1 = kind ∧ rank ∈ call.2 then some s.created.length else s.pg kind := by
  rcases call with ⟨called, group⟩
  rw [newGroup]
  by_cases hmem : rank ∈ group <;> cases called <;> cases kind <;> simp [hmem, State.pg]

/-- The kept group is one of its kind that holds the rank, and there is one if some call made one. -/
theorem pg_foldl (rank : Nat) (l : List (Kind × List Nat)) (kind : Kind) :
    (∀ k, (l.foldl (newGroup rank) ⟨[], none, none⟩).pg kind = some k →
        ∃ group, l[k]? = some (kind, group) ∧ rank ∈ group) ∧
      ((∃ group, (kind, group) ∈ l ∧ rank ∈ group) →
        ((l.foldl (newGroup rank) ⟨[], none, none⟩).pg kind).isSome) := by
  induction l using reverseRecOn with
  | nil =>
    refine ⟨fun k hk => ?_, nofun⟩
    cases kind <;> cases hk
  | append_singleton l call ih =>
    rw [foldl_append, foldl_cons, foldl_nil, pg_newGroup, created_foldl]
    by_cases hcall : call.1 = kind ∧ rank ∈ call.2
    · rw [if_pos hcall]
      obtain ⟨rfl, hmem⟩ := hcall
      refine ⟨?_, fun _ => rfl⟩
      intro k hk
      obtain rfl := Option.some.inj hk
      exact ⟨call.2, by simp, hmem⟩
    · rw [if_neg hcall]
      refine ⟨fun k hk => ?_, ?_⟩
      · obtain ⟨group, hget, hmem⟩ := ih.1 k hk
        exact ⟨group, by rw [List.getElem?_append_left (List.getElem?_eq_some_iff.1 hget).1, hget], hmem⟩
      · rintro ⟨group, hmem, hrank⟩
        rcases List.mem_append.1 hmem with hmem | hmem
        · exact ih.2 ⟨group, hmem, hrank⟩
        · obtain rfl := mem_singleton.1 hmem
          exact absurd ⟨rfl, hrank⟩ hcall

theorem mem_calls {low : Bool} {call : Kind × List Nat} :
    call ∈ calls u r low ranks ↔ match call.1 with
      | .ulysses => call.2 ∈ ulyssesGroups u r low ranks
      | .ring => call.2 ∈ ringGroups u r low ranks := by
  rcases call with ⟨kind, group⟩
  cases low <;> cases kind <;> simp [calls]

theorem groups_of_kind (hu : 1 ≤ u) (hr : 1 ≤ r) (low : Bool) (hlen : ranks.length = u * r)
    (hnodup : ranks.Nodup) (kind : Kind) :
    ∃ groups : List (List Nat), (∀ group, (kind, group) ∈ calls u r low ranks ↔ group ∈ groups) ∧
      groups.flatten.Perm ranks := by
  have hgrid := groups_formGrid hu hr low hlen hnodup
  cases kind with
  | ulysses => exact ⟨_, fun _ => mem_calls, hgrid.perm_rows⟩
  | ring => exact ⟨_, fun _ => mem_calls, hgrid.perm_columns⟩

theorem pairwise_tagged {first second : Kind} (hne : first ≠ second) {as bs : List (List Nat)}
    (has : as.Pairwise List.Disjoint) (hbs : bs.Pairwise List.Disjoint) :
    (as.map (first, ·) ++ bs.map (second, ·)).Pairwise fun a b => a.1 = b.1 → List.Disjoint a.2 b.2 := by
  refine pairwise_append.2 ⟨pairwise_map.2 ?_, pairwise_map.2 ?_, fun a ha b hb heq => ?_⟩
  · exact List.Pairwise.imp (by simp) has
  · exact List.Pairwise.imp (by simp) hbs
  · obtain ⟨_, -, rfl⟩ := mem_map.1 ha
    obtain ⟨_, -, rfl⟩ := mem_map.1 hb
    exact absurd heq hne

theorem pairwise_calls (hu : 1 ≤ u) (hr : 1 ≤ r) (low : Bool) {spGroups : List (List Nat)}
    (hsize : ∀ g ∈ spGroups, g.length = u * r) (hnodup : spGroups.flatten.Nodup) :
    (spGroups.flatMap (calls u r low)).Pairwise fun a b => a.1 = b.1 → List.Disjoint a.2 b.2 := by
  obtain ⟨hone, hapart⟩ := nodup_flatten.1 hnodup
  refine pairwise_flatMap.2 ⟨fun g hg => ?_, hapart.imp_of_mem fun {g g'} hg hg' hdisj => ?_⟩
  · have hgrid := groups_formGrid hu hr low (hsize g hg) (hone g hg)
    have hrows := (nodup_flatten.1 (hgrid.perm_rows.nodup_iff.2 (hone g hg))).2
    have hcolumns := (nodup_flatten.1 (hgrid.perm_columns.nodup_iff.2 (hone g hg))).2
    cases low with
    | true => exact pairwise_tagged (by decide) hrows hcolumns
    | false => exact pairwise_tagged (by decide) hcolumns hrows
  · rintro ⟨kind, a⟩ ha ⟨_, b⟩ hb rfl x hxa hxb
    obtain ⟨groups, hmem, hperm⟩ := groups_of_kind hu hr low (hsize g hg) (hone g hg) kind
    obtain ⟨groups', hmem', hperm'⟩ := groups_of_kind hu hr low (hsize g' hg') (hone g' hg') kind
    exact hdisj (hperm.mem_iff.1 (mem_flatten.2 ⟨a, (hmem a).1 ha, hxa⟩))
      (hperm'.mem_iff.1 (mem_flatten.2 ⟨b, (hmem' b).1 hb, hxb⟩))

/-- **The groups form a grid.** Every rank makes the same calls; those for an SP group are its Ulysses groups
    and its ring groups, and the rank keeps the one of each kind that holds it. -/
theorem setSeqParallel_grid (hu : 1 ≤ u) (hr : 1 ≤ r) (low : Bool) {spGroups : List (List Nat)}
    (hsize : ∀ g ∈ spGroups, g.length = u * r) (hnodup : spGroups.flatten.Nodup) :
    (∀ g ∈ spGroups, FormGrid g u r (ulyssesGroups u r low g) (ringGroups u r low g)) ∧
      ∀ rank, ∃ s, setSeqParallelPgBySpGroups u r rank spGroups low = .ok s ∧
        s.created = spGroups.flatMap (calls u r low) ∧
        ∀ kind, (∀ k, s.pg kind = some k ↔ ∃ group, s.created[k]? = some (kind, group) ∧ rank ∈ group) ∧
          (rank ∈ spGroups.flatten → (s.pg kind).isSome) := by
  have hone := (nodup_flatten.1 hnodup).1
  refine ⟨fun g hg => groups_formGrid hu hr low (hsize g hg) (hone g hg), fun rank => ?_⟩
  refine ⟨_, setSeqParallel_eq hu hr low rank hsize, by rw [created_foldl]; rfl, fun kind => ?_⟩
  obtain ⟨hsome, hkeeps⟩ := pg_foldl rank (spGroups.flatMap (calls u r low)) kind
  rw [created_foldl, nil_append]
  refine ⟨fun k => ⟨hsome k, ?_⟩, fun hrank => hkeeps ?_⟩
  · rintro ⟨group, hk, hrank⟩
    obtain ⟨k', hk'⟩ := Option.isSome_iff_exists.1 (hkeeps ⟨group, mem_of_getElem? hk, hrank⟩)
    obtain ⟨group', hget', hrank'⟩ := hsome k' hk'
    -- two groups of one kind that hold the rank are the same call
    have hpair := List.pairwise_iff_getElem.1 (pairwise_calls hu hr low hsize hnodup)
    obtain ⟨hlt, hget⟩ := List.getElem?_eq_some_iff.1 hk
    obtain ⟨hlt', hget'⟩ := List.getElem?_eq_some_iff.1 hget'
    rcases lt_trichotomy k k' with hlt_k | rfl | hlt_k
    · have hdisj := hpair k k' hlt hlt' hlt_k
      rw [hget, hget'] at hdisj
      exact absurd hrank' (hdisj rfl hrank)
    · exact hk'
    · have hdisj := hpair k' k hlt' hlt hlt_k
      rw [hget, hget'] at hdisj
      exact absurd hrank (hdisj rfl hrank')
  · obtain ⟨g, hg, hmem⟩ := mem_flatten.1 hrank
    obtain ⟨groups, hgroups, hperm⟩ := groups_of_kind hu hr low (hsize g hg) (hone g hg) kind
    obtain ⟨group, hgroup, hin⟩ := mem_flatten.1 (hperm.mem_iff.2 hmem)
    exact ⟨group, mem_flatMap.2 ⟨g, hg, (hgroups group).2 hgroup⟩, hin⟩

theorem setSeqParallel_grid_two :
    (∀ g ∈ [[0, 2, 4, 6], [1, 3, 5, 7]], FormGrid g 2 2 (ulyssesGroups 2 2 true g) (ringGroups 2 2 true g)) ∧
      ∃ s, setSeqParallelPgBySpGroups 2 2 5 [[0, 2, 4, 6], [1, 3, 5, 7]] true = .ok s ∧
        s.created = [(.ulysses, [0, 2]), (.ulysses, [4, 6]), (.ring, [0, 4]), (.ring, [2, 6]),
          (.ulysses, [1, 3]), (.ulysses, [5, 7]), (.ring, [1, 5]), (.ring, [3, 7])] ∧
        s.ulyssesPg = some 5 ∧ s.ringPg = some 6 := by
  obtain ⟨hgrid, hrun⟩ := @setSeqParallel_grid 2 2 (by decide) (by decide) true
    [[0, 2, 4, 6], [1, 3, 5, 7]] (by decide) (by decide)
  obtain ⟨s, hs, hcreated, hpg⟩ := hrun 5
  refine ⟨hgrid, s, hs, hcreated.trans (by decide), ?_, ?_⟩
  · exact ((hpg .ulysses).1 5).2 ⟨[5, 7], by rw [hcreated]; decide, by decide⟩
  · exact ((hpg .ring).1 6).2 ⟨[1, 5], by rw [hcreated]; decide, by decide⟩

end ParallelGroups
