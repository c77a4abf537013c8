import SolInfer.Lib.Collective

set_option autoImplicit false

/-! # Branches of classifier-free guidance on several ranks

`distributed/cfg_parallel_utils.py`: the branches are dealt out to the ranks, each rank predicts those it
was given, and all-gathers bring the predictions together. All-gathers are those of `Lib/Collective`:
they give each rank the list of the tensors of all ranks, also in a group of one. -/

namespace CfgParallel

open Collective

variable {T S B : Type}

/-- What a prediction function returns: a tensor or a tuple of tensors. -/
inductive Prediction (T : Type) where
  | tensor (t : T)
  | tuple (ts : List T)
deriving DecidableEq, Repr

def wrap : Prediction T → List T
  | .tensor t => [t]
  | .tuple ts => ts

def unwrap : List T → Prediction T
  | [t] => .tensor t
  | ts => .tuple ts

def dispatchBranches (nBranches nRanks : Nat) : List (List Nat) :=
  (List.range nBranches).foldl
    (fun assignments i => assignments.modify (i % nRanks) (fun bids => bids ++ [i]))
    (List.replicate nRanks [])

/-- `_run`; an index out of range raises. Moving the tensors to the device does not change them. -/
def run (predictFn : B → Prediction T) (branches : List B) (bid : Nat) : Option (List T) :=
  branches[bid]?.map fun branch => wrap (predictFn branch)

/-- The predictions for the branches of a rank. An idle rank predicts the first branch. -/
def localPredictions (predictFn : B → Prediction T) (branches : List B) (assigned : List Nat) :
    Option (List (List T)) :=
  match assigned.mapM (run predictFn branches) with
  | none => none
  | some [] => (run predictFn branches 0).map fun p => [p]
  | some predictions => some predictions

def pad (zerosLike : T → T) (maxNumBranchesPerRank : Nat) (ref : List T)
    (predictions : List (List T)) : List (List T) :=
  predictions ++
    List.replicate (maxNumBranchesPerRank - predictions.length) (ref.map zerosLike)

/-- `all_slots[slot][ei][owner]` for all elements of the prediction for a branch. -/
def collect (cfgWorldSize nElems : Nat) (allSlots : List (List (List T))) (bid : Nat) :
    Option (Prediction T) :=
  let owner := bid % cfgWorldSize
  let slot := bid / cfgWorldSize
  match allSlots[slot]? with
  | none => none
  | some elems =>
    ((List.range nElems).mapM fun ei => elems[ei]?.bind fun tensors => tensors[owner]?).map unwrap

/-- `run_cfg_parallel` on one rank. It returns `none` when it raises. -/
def runCfgParallel (zerosLike : T → T) (cfgWorldSize : Nat) (branches : List B)
    (predictFn : B → Prediction T) (cfgRank : Nat) : Prog T (Option (List (Prediction T))) :=
  let nBranches := branches.length
  let assignments := dispatchBranches nBranches cfgWorldSize
  match assignments[cfgRank]?, (assignments.map List.length).max? with
  | some assigned, some maxNumBranchesPerRank =>
    match localPredictions predictFn branches assigned with
    | some (ref :: rest) =>
      let predictions := pad zerosLike maxNumBranchesPerRank ref (ref :: rest)
      (Prog.traverse (Prog.traverse Prog.allGather) predictions).bind fun allSlots =>
        .ret ((List.range nBranches).mapM (collect cfgWorldSize ref.length allSlots))
    | _ => .ret none
  | _, _ => .ret none

def SameShapes (shape : T → S) (branches : List B) (predictFn : B → Prediction T) (shapes : List S) :
    Prop :=
  ∀ branch ∈ branches, (wrap (predictFn branch)).map shape = shapes

/-! ## Parallel guidance is serial guidance

Branch `s * W + r` is the prediction of rank `r` in slot `s`. All ranks have as many slots as rank 0, and
all slots hold tensors of the same shapes, so that the ranks make the same calls. -/

open List

variable {n W bid r : Nat}

/-! ## Dealing out the branches -/

def slots (n W r : Nat) : Nat := n / W + if r < n % W then 1 else 0

theorem slots_zero (W r : Nat) : slots 0 W r = 0 := by simp [slots]

theorem slots_of_mod_eq (n W : Nat) : slots n W (n % W) = n / W := by simp [slots]

theorem slots_succ (hr : r < W) : slots (n + 1) W r = slots n W r + if n % W = r then 1 else 0 := by
  have hW : 0 < W := by omega
  have hmod := Nat.mod_lt n hW
  have hn : n + 1 = n % W + 1 + W * (n / W) := by
    have := Nat.div_add_mod n W
    omega
  by_cases hlast : n % W + 1 = W
  · have hdiv : (n + 1) / W = n / W + 1 := by
      rw [hn, hlast, Nat.add_mul_div_left _ _ hW, Nat.div_self hW, Nat.add_comm]
    have hmod' : (n + 1) % W = 0 := by rw [hn, hlast, Nat.add_mul_mod_self_left, Nat.mod_self]
    simp only [slots, hdiv, hmod']
    split_ifs <;> omega
  · have hlt : n % W + 1 < W := by omega
    have hdiv : (n + 1) / W = n / W := by
      rw [hn, Nat.add_mul_div_left _ _ hW, Nat.div_eq_of_lt hlt, Nat.zero_add]
    have hmod' : (n + 1) % W = n % W + 1 := by
      rw [hn, Nat.add_mul_mod_self_left, Nat.mod_eq_of_lt hlt]
    simp only [slots, hdiv, hmod']
    split_ifs <;> omega

theorem branch_lt_of_slot {s : Nat} (h : s < slots n W r) (hr : r < W) : s * W + r < n := by
  induction n with
  | zero => simp [slots_zero] at h
  | succ n ih =>
    rw [slots_succ hr] at h
    by_cases hs : s < slots n W r
    · exact Nat.lt_succ_of_lt (ih hs)
    · have hmod : n % W = r := by
        by_contra hne
        simp only [hne, if_false, Nat.add_zero] at h
        exact hs h
      have hslot : s = n / W := by
        subst hmod
        rw [slots_of_mod_eq] at h hs
        simp only [if_true] at h
        omega
      have := Nat.div_add_mod' n W
      rw [hslot, ← hmod, this]
      exact Nat.lt_succ_self n

theorem slot_of_branch (h : bid < n) : bid / W < slots n W (bid % W) := by
  have hle : bid / W ≤ n / W := Nat.div_le_div_right h.le
  have hbid := Nat.div_add_mod bid W
  have hn := Nat.div_add_mod n W
  unfold slots
  rcases Nat.lt_or_eq_of_le hle with hlt | heq
  · omega
  · rw [heq] at hbid
    have hmod : bid % W < n % W := by omega
    rw [if_pos hmod]
    omega

theorem slots_le (r : Nat) : slots n W r ≤ slots n W 0 := by
  unfold slots
  split_ifs <;> omega

theorem slots_pos (hn : 0 < n) : 0 < slots n W 0 := by
  have := slot_of_branch (W := W) hn
  rwa [Nat.zero_div, Nat.zero_mod] at this

/-- **Round robin**: what `dispatch_branches` gives each rank. -/
theorem dispatchBranches_eq (n W : Nat) :
    dispatchBranches n W =
      (range W).map (fun r => (range (slots n W r)).map (fun s => s * W + r)) := by
  induction n with
  | zero =>
    refine ext_getElem (by simp [dispatchBranches]) fun r _ _ => ?_
    simp [dispatchBranches, slots_zero]
  | succ n ih =>
    have hstep : dispatchBranches (n + 1) W =
        (dispatchBranches n W).modify (n % W) (fun bids => bids ++ [n]) := by
      simp [dispatchBranches, range_succ]
    rw [hstep, ih]
    refine ext_getElem (by simp) fun r hr _ => ?_
    have hr : r < W := by simpa using hr
    simp only [getElem_modify, getElem_map, getElem_range, slots_succ hr]
    by_cases hmod : n % W = r
    · -- the new branch goes to the end of this rank's list
      subst hmod
      simp only [if_true, range_succ, map_append, map_cons, map_nil, slots_of_mod_eq, Nat.div_add_mod']
    · simp [hmod]

theorem dispatchBranches_getElem? (hr : r < W) :
    (dispatchBranches n W)[r]? = some ((range (slots n W r)).map (fun s => s * W + r)) := by
  rw [dispatchBranches_eq, getElem?_map, getElem?_range hr]
  rfl

theorem max_dispatchBranches (hW : 0 < W) :
    ((dispatchBranches n W).map length).max? = some (slots n W 0) := by
  rw [max?_eq_some_iff, dispatchBranches_eq]
  simp only [map_map, mem_map, mem_range, Function.comp_apply, length_map, length_range]
  refine ⟨⟨0, hW, rfl⟩, ?_⟩
  rintro _ ⟨r, _, rfl⟩
  exact slots_le r

/-! ## The predictions of a rank -/

theorem mapM_eq_some {α β : Type} {f : α → Option β} {g : α → β} {l : List α}
    (h : ∀ a ∈ l, f a = some (g a)) : l.mapM f = some (l.map g) := by
  induction l with
  | nil => rfl
  | cons a rest ih =>
    rw [mapM_cons, h a mem_cons_self, ih (fun b hb => h b (mem_cons_of_mem a hb))]
    rfl

theorem mapM_range_getElem? {α : Type} (l : List α) : (range l.length).mapM (fun i => l[i]?) = some l := by
  induction l with
  | nil => rfl
  | cons a rest ih =>
    rw [length_cons, range_succ_eq_map, mapM_cons, mapM_map]
    simp only [getElem?_cons_zero, Function.comp_def, getElem?_cons_succ, ih]
    rfl

section Ranks

variable {shape : T → S} {shapes : List S} {zerosLike : T → T} {branches : List B}
  {predictFn : B → Prediction T} {predictions : Fin W → List (List T)} {columns : List (Fin W → List T)}

def predicted (predictFn : B → Prediction T) (branches : List B) (bid : Nat) : List T :=
  (run predictFn branches bid).getD []

theorem run_eq_some (h : bid < branches.length) :
    run predictFn branches bid = some (predicted predictFn branches bid) := by
  simp [predicted, run, h]

theorem predicted_eq (h : bid < branches.length) :
    predicted predictFn branches bid = wrap (predictFn branches[bid]) := by
  simp [predicted, run, h]

theorem SameShapes.predicted (hsame : SameShapes shape branches predictFn shapes)
    (h : bid < branches.length) : (predicted predictFn branches bid).map shape = shapes := by
  rw [predicted_eq h]
  exact hsame _ (getElem_mem h)

/-- What the padded predictions of rank `r` have to be: `m` slots of tensors with the given shapes, and in
    the slot of each branch of the rank its prediction. -/
structure Padded (shape : T → S) (shapes : List S) (predictFn : B → Prediction T) (branches : List B)
    (W r : Nat) (predictions : List (List T)) : Prop where
  length : predictions.length = slots branches.length W 0
  shapes : ∀ p ∈ predictions, p.map shape = shapes
  slot : ∀ s, s < slots branches.length W r →
    predictions[s]? = some (predicted predictFn branches (s * W + r))

theorem localPredictions_eq (hr : r < W) (hn : 0 < branches.length) :
    localPredictions predictFn branches
        ((range (slots branches.length W r)).map (fun s => s * W + r)) =
      some (if slots branches.length W r = 0 then [predicted predictFn branches 0]
        else (range (slots branches.length W r)).map
          (fun s => predicted predictFn branches (s * W + r))) := by
  have hmapM : ((range (slots branches.length W r)).map (fun s => s * W + r)).mapM
        (run predictFn branches) =
      some (((range (slots branches.length W r)).map (fun s => s * W + r)).map
        (predicted predictFn branches)) := by
    refine mapM_eq_some ?_
    intro bid hbid
    obtain ⟨s, hs, rfl⟩ := mem_map.1 hbid
    exact run_eq_some (branch_lt_of_slot (mem_range.1 hs) hr)
  rw [map_map] at hmapM
  unfold localPredictions
  rw [hmapM]
  cases hslots : slots branches.length W r with
  | zero =>
    rw [run_eq_some hn]
    rfl
  | succ m =>
    simp only [Nat.add_one_ne_zero, if_false, range_succ_eq_map, map_cons]
    rfl

theorem exists_padded (hzeros : ∀ t, shape (zerosLike t) = shape t)
    (hsame : SameShapes shape branches predictFn shapes) (hn : 0 < branches.length) (hr : r < W) :
    ∃ ref rest, localPredictions predictFn branches
        ((range (slots branches.length W r)).map (fun s => s * W + r)) = some (ref :: rest) ∧
      ref.map shape = shapes ∧
      Padded shape shapes predictFn branches W r
        (pad zerosLike (slots branches.length W 0) ref (ref :: rest)) := by
  -- whatever the predictions of the rank are, padding them keeps the shapes
  have hpad : ∀ ref rest, (∀ p ∈ ref :: rest, p.map shape = shapes) →
      (ref :: rest).length ≤ slots branches.length W 0 →
      (∀ s, s < slots branches.length W r →
        (ref :: rest)[s]? = some (predicted predictFn branches (s * W + r))) →
      Padded shape shapes predictFn branches W r
        (pad zerosLike (slots branches.length W 0) ref (ref :: rest)) := by
    intro ref rest hshapes hlength hslot
    refine ⟨?_, ?_, ?_⟩
    · rw [pad, length_append, length_replicate]
      omega
    · intro p hp
      rcases mem_append.1 hp with hp | hp
      · exact hshapes p hp
      · rw [eq_of_mem_replicate hp, map_map]
        rw [← hshapes ref mem_cons_self]
        exact map_congr_left fun t _ => hzeros t
    · intro s hs
      have hget := hslot s hs
      rw [pad, List.getElem?_append_left (List.getElem?_eq_some_iff.1 hget).1]
      exact hget
  rw [localPredictions_eq hr hn]
  cases hslots : slots branches.length W r with
  | zero =>
    have hshapes := hsame.predicted hn
    refine ⟨predicted predictFn branches 0, [], rfl, hshapes, hpad _ _ ?_ (slots_pos hn) ?_⟩
    · rintro p (_ | ⟨_, ⟨⟩⟩)
      exact hshapes
    · intro s hs
      rw [hslots] at hs
      exact absurd hs (Nat.not_lt_zero s)
  | succ m =>
    have hentries : ∀ p ∈ (range (m + 1)).map (fun s => predicted predictFn branches (s * W + r)),
        p.map shape = shapes := by
      intro p hp
      obtain ⟨s, hs, rfl⟩ := mem_map.1 hp
      refine hsame.predicted (branch_lt_of_slot ?_ hr)
      rw [hslots]
      exact mem_range.1 hs
    have hlength : ((range (m + 1)).map
        (fun s => predicted predictFn branches (s * W + r))).length ≤ slots branches.length W 0 := by
      rw [length_map, length_range, ← hslots]
      exact slots_le r
    have hslot : ∀ s, s < slots branches.length W r →
        ((range (m + 1)).map (fun s => predicted predictFn branches (s * W + r)))[s]? =
          some (predicted predictFn branches (s * W + r)) := by
      intro s hs
      rw [hslots] at hs
      simp [hs]
    rw [range_succ_eq_map, map_cons] at hentries hlength hslot ⊢
    exact ⟨_, _, rfl, hentries _ mem_cons_self, hpad _ _ hentries hlength hslot⟩

/-! ## Gathering -/

def gathered (m : Nat) (x : Fin W → List T) : List (List T) :=
  (range m).map fun e => (ofFn x).filterMap fun p => p[e]?

theorem gathered_columns (columns : List (Fin W → T)) :
    gathered columns.length (fun r => columns.map (fun c => c r)) =
      columns.map (fun c => ofFn c) := by
  refine ext_getElem (by simp [gathered]) fun e he _ => ?_
  have he : e < columns.length := by simpa [gathered] using he
  have hall : ∀ r : Fin W, (columns.map (fun c => c r))[e]? = some (columns[e] r) := by
    intro r
    simp [he]
  simp only [gathered, getElem_map, getElem_range, ofFn_eq_map, filterMap_map, Function.comp_def, hall]
  exact congrFun filterMap_eq_map _

theorem yields_slot (hW : 0 < W) {x : Fin W → List T} (hx : ∀ r, (x r).map shape = shapes) :
    Yields shape (fun r => Prog.traverse Prog.allGather (x r)) shapes
      (fun _ => gathered shapes.length x) := by
  have hlength : ∀ r, (x r).length = shapes.length := fun r => by rw [← hx r, length_map]
  obtain ⟨columns, hcolumns, hx'⟩ := exists_columns hlength
  obtain rfl : x = fun r => columns.map (fun c => c r) := funext hx'
  have htrace : columns.flatMap (fun c => [shape (c ⟨0, hW⟩)]) = shapes := by
    rw [← hx ⟨0, hW⟩, map_map]
    exact map_eq_flatMap.symm
  have hcolumn : ∀ c ∈ columns, Yields shape (fun r => Prog.allGather (c r)) [shape (c ⟨0, hW⟩)]
      (fun _ => ofFn c) := by
    intro c hc
    refine Yields.allGather fun r => ?_
    have hmap := (hx r).trans (hx ⟨0, hW⟩).symm
    rw [map_map, map_map] at hmap
    exact map_inj_left.1 hmap c hc
  rw [← hcolumns, gathered_columns]
  conv => arg 3; rw [← htrace]
  exact Yields.traverse (f := fun _ => Prog.allGather) (t := fun c => [shape (c ⟨0, hW⟩)])
    (w := fun c _ => ofFn c) columns hcolumn

theorem gathered_getElem? {x : Fin W → List T} {m : Nat} (hx : ∀ r, (x r).length = m) (owner : Fin W) :
    (range m).mapM (fun ei => (gathered m x)[ei]?.bind fun tensors => tensors[owner.val]?) =
      some (x owner) := by
  obtain ⟨columns, rfl, hx'⟩ := exists_columns hx
  obtain rfl : x = fun r => columns.map (fun c => c r) := funext hx'
  have hget : (fun ei : Nat => (columns.map (fun c => ofFn c))[ei]?.bind
      fun tensors : List T => tensors[owner.val]?) = fun ei => (columns.map (fun c => c owner))[ei]? := by
    funext ei
    cases hei : columns[ei]? <;> simp [hei]
  have hlength : columns.length = (columns.map (fun c => c owner)).length := by simp
  rw [gathered_columns, hget, hlength]
  exact mapM_range_getElem? _

section

variable (hcolumns : ∀ r, predictions r = columns.map (fun x => x r)) (hW : 0 < W)
include hcolumns hW

/-- **The slot arithmetic inverts the assignment.** -/
theorem collect_eq (hpadded : ∀ r : Fin W, Padded shape shapes predictFn branches W r (predictions r))
    (hbid : bid < branches.length) :
    collect W shapes.length (columns.map (gathered shapes.length)) bid =
      some (unwrap (predicted predictFn branches bid)) := by
  let owner : Fin W := ⟨bid % W, Nat.mod_lt bid hW⟩
  have hslot := (hpadded owner).slot (bid / W) (slot_of_branch hbid)
  have hbranch : bid / W * W + owner.val = bid := Nat.div_add_mod' bid W
  rw [hbranch, hcolumns owner, getElem?_map] at hslot
  obtain ⟨x, hx, howner⟩ := Option.map_eq_some_iff.1 hslot
  have hlength : ∀ r, (x r).length = shapes.length := by
    intro r
    have hmem : x r ∈ predictions r := by
      rw [hcolumns r]
      exact mem_map_of_mem (mem_of_getElem? hx)
    rw [← (hpadded r).shapes _ hmem, length_map]
  simp only [collect, getElem?_map, hx, Option.map_some]
  rw [gathered_getElem? hlength owner, howner]
  rfl

theorem yields_slots (hshapes : ∀ r, ∀ p ∈ predictions r, p.map shape = shapes) :
    Yields shape (fun r => Prog.traverse (Prog.traverse Prog.allGather) (predictions r))
      (columns.flatMap fun _ => shapes) (fun _ => columns.map (gathered shapes.length)) := by
  simp only [hcolumns]
  refine Yields.traverse (f := fun _ => Prog.traverse Prog.allGather) (t := fun _ => shapes)
    (w := fun x _ => gathered shapes.length x) columns fun x hx => ?_
  refine yields_slot hW fun r => hshapes r _ ?_
  rw [hcolumns r]
  exact mem_map_of_mem hx

theorem collect_all (hpadded : ∀ r : Fin W, Padded shape shapes predictFn branches W r (predictions r)) :
    (range branches.length).mapM
        (collect W shapes.length (columns.map (gathered shapes.length))) =
      some (branches.map fun branch => unwrap (wrap (predictFn branch))) := by
  rw [mapM_eq_some (g := fun bid => unwrap (predicted predictFn branches bid))
    (fun bid hbid => collect_eq hcolumns hW hpadded (mem_range.1 hbid))]
  congr 1
  refine ext_getElem (by simp) fun bid hbid _ => ?_
  have hbid : bid < branches.length := by simpa using hbid
  simp [predicted_eq hbid]

end

/-- What every rank returns: the predictions in branch order, where a tuple of one tensor comes back as
    that tensor. -/
def serial (branches : List B) (predictFn : B → Prediction T) : List (Prediction T) :=
  branches.map fun branch => unwrap (wrap (predictFn branch))

/-- A prediction that is not a tuple of one tensor comes back as it is. -/
theorem unwrap_wrap {p : Prediction T} (h : ∀ t, p ≠ .tuple [t]) : unwrap (wrap p) = p := by
  cases p with
  | tensor t => rfl
  | tuple ts =>
    match ts, h with
    | [], _ => rfl
    | [t], h => exact absurd rfl (h t)
    | _ :: _ :: _, _ => rfl

/-- **Running the branches in parallel is running them one by one.** All ranks make the same calls, one
    for each slot and shape, and every rank returns the predictions in branch order. There is no other
    run of the group. -/
theorem runCfgParallel_serial (shape : T → S) (zerosLike : T → T)
    (hzeros : ∀ t, shape (zerosLike t) = shape t) (branches : List B) (predictFn : B → Prediction T)
    (shapes : List S) (hsame : SameShapes shape branches predictFn shapes)
    (hn : 1 ≤ branches.length) (W : Nat) (hW : 1 ≤ W) :
    let ranks (r : Fin W) := runCfgParallel zerosLike W branches predictFn r
    let trace := (replicate (slots branches.length W 0) shapes).flatten
    Runs shape ranks trace (fun _ => some (serial branches predictFn)) ∧
      (∀ trace' out, Runs shape ranks trace' out →
        trace' = trace ∧ ∀ r, out r = some (serial branches predictFn)) ∧
      ((∀ branch ∈ branches, ∀ t, predictFn branch ≠ .tuple [t]) →
        serial branches predictFn = branches.map predictFn) := by
  intro ranks trace
  choose ref rest hlocal href hpadded using fun r : Fin W =>
    exists_padded hzeros hsame hn r.isLt
  let predictions (r : Fin W) := pad zerosLike (slots branches.length W 0) (ref r) (ref r :: rest r)
  obtain ⟨columns, hlength, hcolumns⟩ := exists_columns fun r : Fin W => (hpadded r).length
  have hprogram : ranks = fun r =>
      (Prog.traverse (Prog.traverse Prog.allGather) (predictions r)).bind fun allSlots =>
        .ret ((range branches.length).mapM (collect W shapes.length allSlots)) := by
    funext r
    have harity : (ref r).length = shapes.length := by rw [← href r, length_map]
    simp only [ranks, runCfgParallel, dispatchBranches_getElem? r.isLt, max_dispatchBranches hW,
      hlocal r, harity]
    rfl
  have htrace : columns.flatMap (fun _ => shapes) = trace := by
    simp only [trace, ← hlength, flatMap_def, map_const']
  have hruns : Runs shape ranks trace (fun _ => some (serial branches predictFn)) := by
    have hyields := yields_slots hcolumns hW (fun r => (hpadded r).shapes)
    have hruns := hyields.runs (fun _ allSlots =>
      (range branches.length).mapM (collect W shapes.length allSlots))
    rw [htrace, collect_all hcolumns hW hpadded] at hruns
    rw [hprogram]
    exact hruns
  refine ⟨hruns, fun trace' out hother => ?_, fun htuples => ?_⟩
  · obtain ⟨heq, hout⟩ := hruns.unique hW hother
    exact ⟨heq, fun r => congrFun hout r⟩
  · exact map_congr_left fun branch hbranch => unwrap_wrap (htuples branch hbranch)

end Ranks

/-- Three branches on two ranks: rank 1 fills its second slot with zeros, and all four calls are made by
    both. A tensor is the list of its elements here, and its shape their number. -/
theorem runCfgParallel_serial_three_branches :
    let predictFn (b : Int) : Prediction (List Int) := .tuple [[b], [b, b + 1]]
    let ranks (r : Fin 2) := runCfgParallel (map fun _ => 0) 2 [10, 20, 30] predictFn r
    Runs length ranks [1, 2, 1, 2]
      (fun _ => some [.tuple [[10], [10, 11]], .tuple [[20], [20, 21]], .tuple [[30], [30, 31]]]) :=
  (runCfgParallel_serial length (map fun _ => 0) (fun _ => length_map _) [10, 20, 30]
    (fun b => .tuple [[b], [b, b + 1]]) [1, 2] (fun _ _ => rfl) (by decide) 2 (by decide)).1

/-- A prediction that is a tuple of one tensor comes back as the tensor. -/
theorem runCfgParallel_unwraps :
    let predictFn (_ : Unit) : Prediction (List Int) := .tuple [[7]]
    let ranks (r : Fin 2) := runCfgParallel (map fun _ => 0) 2 [()] predictFn r
    SameShapes length [()] predictFn [1] ∧
      Runs length ranks [1] (fun _ => some [.tensor [7]]) ∧
      [.tensor [7]] ≠ [()].map predictFn := by
  intro predictFn ranks
  have hprogram : ∀ r, ranks r = .gather [7] fun xs => .ret ([0].mapM (collect 2 1 [[xs]])) := by
    intro r
    fin_cases r <;> rfl
  exact ⟨fun _ _ => rfl, .gather hprogram (fun _ => rfl) (.done fun _ => rfl), by decide⟩

end CfgParallel
