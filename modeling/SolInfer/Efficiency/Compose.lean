import SolInfer.Efficiency.Technique

set_option autoImplicit false

/-! # Composition of a plan

`efficiency/compose.py`: `compose` checks a mixed list of techniques and transforms against a model
spec and against each other, and orders it into a `Plan`. -/

variable {K V E C : Type}

/-- An element of the list given to `compose`. -/
inductive Item (K V : Type) (E : Type := V × Option V) (C : Type := Unit) where
  | technique (t : Technique K V E C)
  | transform (t : ModelTransform)
  | other (repr : String)

namespace Item

def name : Item K V E C → String
  | .technique t => t.name
  | .transform t => t.name
  | .other repr => repr

def writes : Item K V E C → Finset Seam
  | .technique t => t.writes
  | .transform t => t.writes
  | .other _ => ∅

def requiredCapabilities : Item K V E C → Finset Capability
  | .technique t => t.requiredCapabilities
  | .transform t => t.requiredCapabilities
  | .other _ => ∅

def technique? : Item K V E C → Option (Technique K V E C)
  | .technique t => some t
  | _ => none

def transform? : Item K V E C → Option ModelTransform
  | .transform t => some t
  | _ => none

def isOther : Item K V E C → Bool
  | .other _ => true
  | _ => false

end Item

/-- A structural conflict; the source renders it as a message. -/
inductive Problem where
  /-- "exclusive seam … has multiple active writers: …" -/
  | multipleWriters (seam : Seam) (names : List String)
  /-- "write-read conflict on … between … and … in the same phase …" -/
  | writeRead (seams : Finset Seam) (first second : String) (phase : Phase)
deriving DecidableEq

inductive CompositionError where
  | unknown (items : List String)
  | missing (name : String) (capabilities : Finset Capability) (spec : String)
      (provided : Finset Capability)
  | conflicts (problems : List Problem)

/-! ## Conflict check -/

/-- `combinations(l, 2)`. -/
def combinations {α : Type} : List α → List (α × α)
  | [] => []
  | a :: rest => rest.map (fun b => (a, b)) ++ combinations rest

/-- `_always_on`: a transform always is; a technique if it is truthy at a sampled step. -/
def alwaysOn : Item K V E C → Bool
  | .technique t => decide (t.enabled.truthySteps ≠ ∅)
  | _ => true

def techStepsOverlap (a b : Technique K V E C) (horizon : Nat) : Bool :=
  decide (a.enabled.truthySteps horizon ∩ b.enabled.truthySteps horizon ≠ ∅)

def writersClash (horizon : Nat) : Item K V E C → Item K V E C → Bool
  | .technique a, .technique b => techStepsOverlap a b horizon
  | _, _ => true

def exclusiveProblem (active : List (Item K V E C)) (horizon : Nat) (seam : Seam) : Option Problem :=
  let writers := active.filter fun it => seam ∈ it.writes
  let clash := (combinations writers).filter fun p => writersClash horizon p.1 p.2
  if clash = [] then none
  else
    let names := clash.flatMap fun p => [p.1.name, p.2.name]
    some (.multipleWriters seam (names.dedup.insertionSort (· ≤ ·)))

def writeReadSeams (a b : Technique K V E C) : Finset Seam :=
  (a.writes ∩ b.reads ∪ b.writes ∩ a.reads) \ exclusiveSeams

def writeReadProblem (horizon : Nat) (a b : Technique K V E C) : Option Problem :=
  if a.phase ≠ b.phase ∨ techStepsOverlap a b horizon = false then none
  else if writeReadSeams a b = ∅ then none
  else some (.writeRead (writeReadSeams a b) a.name b.name a.phase)

/-- `check_conflicts`; the exclusive seams are visited in a fixed order. -/
def checkConflicts (items : List (Item K V E C)) (horizon : Nat := 64) : List Problem :=
  let active := items.filter alwaysOn
  let techs := active.filterMap Item.technique?
  [Seam.attentionBackend, .tokenSet, .stepOutput, .ffnPrecision].filterMap
      (exclusiveProblem active horizon)
    ++ (combinations techs).filterMap fun p => writeReadProblem horizon p.1 p.2

/-! ## Plans -/

/-- `Plan`: the transforms and techniques of a model, ordered by phase. -/
structure Plan (K V : Type) (E : Type := V × Option V) (C : Type := Unit) where
  transforms : List ModelTransform
  techniques : List (Technique K V E C)
  spec : ModelSpec

namespace Plan

variable (p : Plan K V E C) (ctx : TechniqueContext K)

def active (phase : Phase) : List (Technique K V E C) :=
  p.techniques.filter fun t => decide (t.phase = phase) && t.isActive ctx.step ctx.stage

theorem active_eq {p : Plan K V E C} {phase : Phase} {t : Technique K V E C}
    (hp : p.techniques.filter (fun t => t.phase = phase) = [t]) (ctx : TechniqueContext K) :
    p.active ctx phase = if t.isActive ctx.step ctx.stage then [t] else [] := by
  have hfilter : p.active ctx phase = (p.techniques.filter (fun t => t.phase = phase)).filter
      (fun t => t.isActive ctx.step ctx.stage) := by
    rw [List.filter_filter]
    refine List.filter_congr fun t _ => ?_
    rw [Bool.and_comm]
  rw [hfilter, hp, List.filter_singleton, Bool.cond_eq_ite]

/-- `Plan.before_blocks`: the hooks of the active techniques in turn, and what each of them hands to
    its `after_blocks`. -/
def beforeBlocks (hidden : V) : HookM K V E (V × List (Technique K V E C × Option C)) :=
  (p.active ctx .preBlocks).foldlM (fun (hidden, carries) t => do
    let (hidden, carry) ← t.beforeBlocks ctx hidden
    return (hidden, carries ++ [(t, carry)])) (hidden, [])

/-- `Plan.after_blocks`: the paired hooks in the reverse order. -/
def afterBlocks (hidden : V) (carries : List (Technique K V E C × Option C)) : HookM K V E V :=
  carries.reverse.foldlM (fun hidden (t, carry) => t.afterBlocks ctx hidden carry) hidden

/-- `Plan.on_step`: the hooks of the active techniques, nested around the step. -/
def onStep (runStep : StepM K V E) : StepM K V E :=
  (p.active ctx .onStep).foldr (fun t fn => t.onStep ctx fn) runStep

end Plan

def compose (items : List (Item K V E C)) (spec : ModelSpec) (horizon : Nat := 64) :
    Except CompositionError (Plan K V E C) :=
  let techniques := items.filterMap Item.technique?
  let transforms := items.filterMap Item.transform?
  let unknown := items.filter Item.isOther
  if unknown ≠ [] then .error (.unknown (unknown.map Item.name))
  else
    match items.find? (fun it => decide (spec.missing it.requiredCapabilities ≠ ∅)) with
    | some it => .error (.missing it.name (spec.missing it.requiredCapabilities) spec.name
        spec.capabilities)
    | none =>
      match checkConflicts items horizon with
      | [] => .ok {
          transforms := transforms.insertionSort fun a b => a.phase.value ≤ b.phase.value
          techniques := techniques.insertionSort fun a b => a.phase.value ≤ b.phase.value
          spec := spec }
      | problems => .error (.conflicts problems)

/-! ## Soundness of `compose`

The conflict check samples the schedules: a technique counts as a writer only if it is truthy at one
of the steps 0 to 63 of the unnamed stage, and two techniques overlap only if they share a truthy
step below the horizon in that stage. A plan is sound exactly when the sampling sees every overlap of
two items whose effects conflict. -/

open List

variable {α : Type} {items : List (Item K V)} {horizon : Nat} {l : List α}

/-! ## Pairs of a list -/

theorem forall_combinations {R : α → α → Prop} : (∀ p ∈ combinations l, R p.1 p.2) ↔ l.Pairwise R := by
  induction l with
  | nil => simp [combinations]
  | cons a rest ih =>
    rw [combinations, forall_mem_append, ih, pairwise_cons, forall_mem_map]

theorem length_le_one_iff : l.length ≤ 1 ↔ l.Pairwise (fun _ _ => False) := by
  match l with
  | [] => simp
  | [a] => simp
  | a :: b :: rest =>
    refine iff_of_false (by simp) fun h => ?_
    exact (pairwise_cons.1 h).1 b mem_cons_self

theorem forall_pairwise {ι : Type} {R : ι → α → α → Prop} {S : ι → Prop} :
    (∀ i, S i → l.Pairwise (R i)) ↔ l.Pairwise (fun a b => ∀ i, S i → R i a b) := by
  simp only [pairwise_iff_forall_sublist]
  exact ⟨fun h a b hs i hi => h i hi hs, fun h i hi a b hs => h hs i hi⟩

/-! ## Conflicts of two items -/

namespace Item

/-- An item acts at a step and stage: a technique when it is active, anything else always. -/
def activeAt (step : Nat) (stage : String) : Item K V → Bool
  | .technique t => t.isActive step stage
  | _ => true

def ShareWriter (a b : Item K V) : Prop := ∃ seam ∈ exclusiveSeams, seam ∈ a.writes ∧ seam ∈ b.writes

/-- Two techniques of one phase, one of which writes a shared seam that the other reads. -/
def OrderAmbiguous : Item K V → Item K V → Prop
  | .technique a, .technique b => a.phase = b.phase ∧ writeReadSeams a b ≠ ∅
  | _, _ => False

def Conflict (a b : Item K V) : Prop := a.ShareWriter b ∨ a.OrderAmbiguous b

/-- Both items act at some step below the horizon, in some stage. -/
def CoActive (horizon : Nat) (a b : Item K V) : Prop :=
  ∃ step < horizon, ∃ stage, a.activeAt step stage = true ∧ b.activeAt step stage = true

def Sampled (horizon : Nat) (a b : Item K V) : Prop :=
  alwaysOn a = true ∧ alwaysOn b = true ∧ writersClash horizon a b = true

end Item

theorem mem_writeReadSeams {a b : Technique K V} {seam : Seam} :
    seam ∈ writeReadSeams a b ↔ seam ∉ exclusiveSeams ∧
      ((seam ∈ a.writes ∧ seam ∈ b.reads) ∨ (seam ∈ b.writes ∧ seam ∈ a.reads)) := by
  simp [writeReadSeams, and_comm]

/-! ## The conflict check -/

theorem exclusiveProblem_eq_none {seam : Seam} :
    exclusiveProblem (items.filter alwaysOn) horizon seam = none ↔
      items.Pairwise (fun a b => seam ∈ a.writes → seam ∈ b.writes → ¬ a.Sampled horizon b) := by
  have hclash : exclusiveProblem (items.filter alwaysOn) horizon seam = none ↔
      ∀ p ∈ combinations ((items.filter alwaysOn).filter (fun it => seam ∈ it.writes)),
        ¬ writersClash horizon p.1 p.2 = true := by
    unfold exclusiveProblem
    simp only
    split
    next h => simpa [filter_eq_nil_iff] using h
    next h => simpa [filter_eq_nil_iff] using h
  rw [hclash, forall_combinations (R := fun a b => ¬ writersClash horizon a b = true),
    filter_filter, pairwise_filter]
  refine List.Pairwise.iff fun a b => ?_
  simp only [Bool.and_eq_true, decide_eq_true_eq, Item.Sampled]
  tauto

theorem pairwise_technique? {R : Technique K V → Technique K V → Prop}
    {S : Item K V → Item K V → Prop}
    (h : ∀ a b, R a b ↔ ((Item.technique a).OrderAmbiguous (.technique b) →
      S (.technique a) (.technique b))) :
    (items.filterMap Item.technique?).Pairwise R ↔
      items.Pairwise (fun a b => a.OrderAmbiguous b → S a b) := by
  rw [pairwise_filterMap]
  refine List.Pairwise.iff fun a b => ?_
  cases a with
  | technique a =>
    cases b with
    | technique b => simp only [Item.technique?, Option.some.injEq, forall_eq', h]
    | transform t => simp [Item.technique?, Item.OrderAmbiguous]
    | other r => simp [Item.technique?, Item.OrderAmbiguous]
  | transform t => simp [Item.technique?, Item.OrderAmbiguous]
  | other r => simp [Item.technique?, Item.OrderAmbiguous]

theorem writeReadProblems_eq_nil :
    (combinations ((items.filter alwaysOn).filterMap Item.technique?)).filterMap
        (fun p => writeReadProblem horizon p.1 p.2) = [] ↔
      items.Pairwise (fun a b => a.OrderAmbiguous b → ¬ a.Sampled horizon b) := by
  have hnone : ∀ a b : Technique K V, writeReadProblem horizon a b = none ↔
      (a.phase = b.phase ∧ writeReadSeams a b ≠ ∅ →
        ¬ writersClash horizon (.technique a) (.technique b) = true) := by
    intro a b
    unfold writeReadProblem writersClash
    split
    next h =>
      rcases h with h | h
      · simp [h]
      · simp [h]
    next h =>
      split
      next he => simp [he]
      next he => simp_all
  rw [filterMap_eq_nil_iff,
    forall_combinations (R := fun a b => writeReadProblem horizon a b = none),
    pairwise_technique? (S := fun a b => ¬ writersClash horizon a b = true) hnone, pairwise_filter]
  refine List.Pairwise.iff fun a b => ?_
  simp only [Item.Sampled]
  tauto

/-- The check finds nothing exactly when no two items with conflicting effects are sampled
    together. -/
theorem checkConflicts_eq_nil :
    checkConflicts items horizon = [] ↔
      items.Pairwise (fun a b => a.Conflict b → ¬ a.Sampled horizon b) := by
  have hseams : ∀ seam, seam ∈ [Seam.attentionBackend, .tokenSet, .stepOutput, .ffnPrecision]
      ↔ seam ∈ exclusiveSeams := by
    intro seam
    cases seam <;> decide
  unfold checkConflicts
  rw [append_eq_nil_iff, writeReadProblems_eq_nil, filterMap_eq_nil_iff]
  simp only [hseams, exclusiveProblem_eq_none]
  rw [forall_pairwise, ← pairwise_and_iff]
  refine List.Pairwise.iff fun a b => ?_
  constructor
  · rintro ⟨hw, ho⟩ (⟨seam, hs, ha, hb⟩ | hamb)
    · exact hw seam hs ha hb
    · exact ho hamb
  · intro h
    exact ⟨fun seam hs ha hb => h (.inl ⟨seam, hs, ha, hb⟩), fun hamb => h (.inr hamb)⟩

/-! ## Sound plans -/

namespace Plan

def activeItems (p : Plan K V) (step : Nat) (stage : String) : List (Item K V) :=
  p.transforms.map .transform ++ (p.techniques.filter (fun t => t.isActive step stage)).map .technique

/-- At every step below the horizon and in every stage, each exclusive seam has at most one active
    writer, and no active technique writes a shared seam that another one of its phase reads. -/
structure Sound (p : Plan K V) (horizon : Nat) : Prop where
  exclusive : ∀ step < horizon, ∀ stage, ∀ seam ∈ exclusiveSeams,
    ((p.activeItems step stage).filter (fun it => seam ∈ it.writes)).length ≤ 1
  ordered : ∀ step < horizon, ∀ stage,
    (p.techniques.filter (fun t => t.isActive step stage)).Pairwise (fun a b =>
      a.phase = b.phase → ∀ seam ∉ exclusiveSeams,
        ¬ (seam ∈ a.writes ∧ seam ∈ b.reads) ∧ ¬ (seam ∈ b.writes ∧ seam ∈ a.reads))

end Plan

theorem items_perm (h : ∀ it ∈ items, it.isOther = false) :
    ((items.filterMap Item.transform?).map Item.transform
      ++ (items.filterMap Item.technique?).map Item.technique).Perm items := by
  induction items with
  | nil => exact List.Perm.refl _
  | cons it rest ih =>
    have hrest := ih fun it' hit => h it' (.tail _ hit)
    cases it with
    | technique t =>
      exact perm_middle.trans (hrest.cons _)
    | transform t =>
      simp only [filterMap_cons, Item.transform?, Item.technique?, map_cons, cons_append]
      exact hrest.cons _
    | other r => exact absurd (h (.other r) mem_cons_self) (by simp [Item.isOther])

theorem activeItems_perm {p : Plan K V} (h : ∀ it ∈ items, it.isOther = false)
    (htr : p.transforms.Perm (items.filterMap Item.transform?))
    (htq : p.techniques.Perm (items.filterMap Item.technique?)) (step : Nat) (stage : String) :
    (p.activeItems step stage).Perm (items.filter (Item.activeAt step stage)) := by
  have hfilter : p.activeItems step stage
      = (p.transforms.map Item.transform ++ p.techniques.map Item.technique).filter
          (Item.activeAt step stage) := by
    unfold Plan.activeItems
    rw [filter_append, filter_map, filter_map]
    congr 1
    have hall : p.transforms.filter (Item.activeAt (K := K) (V := V) step stage ∘ Item.transform)
        = p.transforms := filter_eq_self.2 fun _ _ => rfl
    rw [hall]
  rw [hfilter]
  exact (((htr.map _).append (htq.map _)).trans (items_perm h)).filter _

theorem orderAmbiguous_iff {a b : Technique K V} :
    (Item.technique a).OrderAmbiguous (.technique b) ↔
      ¬ (a.phase = b.phase → ∀ seam ∉ exclusiveSeams,
        ¬ (seam ∈ a.writes ∧ seam ∈ b.reads) ∧ ¬ (seam ∈ b.writes ∧ seam ∈ a.reads)) := by
  change a.phase = b.phase ∧ writeReadSeams a b ≠ ∅ ↔ _
  rw [Classical.not_imp, ← Finset.nonempty_iff_ne_empty, Finset.Nonempty]
  simp only [mem_writeReadSeams, not_forall, exists_prop, not_and_or (a := ¬ _), not_not]

/-- A plan over these items is sound exactly when no two items that conflict are ever active
    together. -/
theorem sound_iff {p : Plan K V} (horizon : Nat) (h : ∀ it ∈ items, it.isOther = false)
    (htr : p.transforms.Perm (items.filterMap Item.transform?))
    (htq : p.techniques.Perm (items.filterMap Item.technique?)) :
    p.Sound horizon ↔ items.Pairwise (fun a b => a.Conflict b → ¬ a.CoActive horizon b) := by
  have hexcl : ∀ step stage seam,
      ((p.activeItems step stage).filter (fun it => seam ∈ it.writes)).length ≤ 1 ↔
        items.Pairwise (fun a b => a.activeAt step stage = true → b.activeAt step stage = true →
          ¬ (seam ∈ a.writes ∧ seam ∈ b.writes)) := by
    intro step stage seam
    rw [length_le_one_iff, pairwise_filter]
    refine ((activeItems_perm h htr htq step stage).pairwise_iff
      fun hab hb ha => hab ha hb).trans ?_
    rw [pairwise_filter]
    refine List.Pairwise.iff fun a b => ?_
    simp only [decide_eq_true_eq, not_and]
  have hord : ∀ step stage,
      (p.techniques.filter (fun t => t.isActive (step : Nat) stage)).Pairwise (fun a b =>
        a.phase = b.phase → ∀ seam ∉ exclusiveSeams,
          ¬ (seam ∈ a.writes ∧ seam ∈ b.reads) ∧ ¬ (seam ∈ b.writes ∧ seam ∈ a.reads)) ↔
        items.Pairwise (fun a b => a.OrderAmbiguous b →
          ¬ (a.activeAt step stage = true ∧ b.activeAt step stage = true)) := by
    intro step stage
    refine ((htq.filter _).pairwise_iff fun hab he seam hs => (hab he.symm seam hs).symm).trans ?_
    rw [pairwise_filter]
    refine pairwise_technique? fun a b => ?_
    rw [orderAmbiguous_iff, Item.activeAt, Item.activeAt]
    tauto
  -- both rules, at all steps and stages, are one pairwise property of the items
  have hall : p.Sound horizon ↔
      (∀ step < horizon, ∀ stage, ∀ seam ∈ exclusiveSeams, items.Pairwise (fun a b =>
        a.activeAt step stage = true → b.activeAt step stage = true →
          ¬ (seam ∈ a.writes ∧ seam ∈ b.writes))) ∧
      (∀ step < horizon, ∀ stage, items.Pairwise (fun a b => a.OrderAmbiguous b →
        ¬ (a.activeAt step stage = true ∧ b.activeAt step stage = true))) := by
    simp only [← hexcl, ← hord]
    exact ⟨fun hs => ⟨hs.exclusive, hs.ordered⟩, fun hs => ⟨hs.1, hs.2⟩⟩
  rw [hall]
  simp only [pairwise_iff_forall_sublist]
  constructor
  · rintro ⟨hw, ho⟩ a b hs hc ⟨step, hlt, stage, ha, hb⟩
    rcases hc with ⟨seam, hseam, hwa, hwb⟩ | hamb
    · exact hw step hlt stage seam hseam hs ha hb ⟨hwa, hwb⟩
    · exact ho step hlt stage hs hamb ⟨ha, hb⟩
  · intro hc
    refine ⟨fun step hlt stage seam hseam a b hs ha hb hw => ?_, fun step hlt stage a b hs hamb hab => ?_⟩
    · exact hc hs (.inl ⟨seam, hseam, hw⟩) ⟨step, hlt, stage, ha, hb⟩
    · exact hc hs (.inr hamb) ⟨step, hlt, stage, hab⟩

/-! ## `compose` -/

/-- `compose` refuses the list: an item is neither technique nor transform, the model lacks a
    capability, or two items with conflicting effects are sampled together. -/
def Refused (items : List (Item K V)) (spec : ModelSpec) (horizon : Nat) : Prop :=
  (∃ it ∈ items, it.isOther = true) ∨ (∃ it ∈ items, spec.missing it.requiredCapabilities ≠ ∅) ∨
    ¬ items.Pairwise fun a b => a.Conflict b → ¬ a.Sampled horizon b

/-- `compose` raises on a refused list; any other list is sorted by phase. -/
theorem compose_cases (items : List (Item K V)) (spec : ModelSpec) (horizon : Nat) :
    (Refused items spec horizon ∧ ∃ e, compose items spec horizon = .error e) ∨
    (¬ Refused items spec horizon ∧
      items.Pairwise (fun a b => a.Conflict b → ¬ a.Sampled horizon b) ∧
      ∃ p, compose items spec horizon = .ok p ∧ (∀ it ∈ items, it.isOther = false) ∧
        p.transforms.Perm (items.filterMap Item.transform?) ∧
        p.techniques.Perm (items.filterMap Item.technique?)) := by
  unfold compose
  simp only
  split
  next hother =>
    obtain ⟨it, hit⟩ := exists_mem_of_ne_nil _ hother
    exact .inl ⟨.inl ⟨it, mem_filter.1 hit⟩, _, rfl⟩
  next hother =>
    split
    next it hcap =>
      exact .inl ⟨.inr (.inl ⟨it, mem_of_find?_eq_some hcap, by simpa using find?_some hcap⟩), _, rfl⟩
    next hcap =>
      split
      next hclean =>
        have hpair := checkConflicts_eq_nil.1 hclean
        have hno : ∀ it ∈ items, it.isOther = false := by
          simpa [filter_eq_nil_iff] using hother
        refine .inr ⟨?_, hpair, _, rfl, hno, perm_insertionSort _ _, perm_insertionSort _ _⟩
        rintro (⟨it, hit, ho⟩ | ⟨it, hit, hm⟩ | hc)
        · exact absurd ho (by simp [hno it hit])
        · exact absurd (find?_eq_none.1 hcap it hit) (by simpa using hm)
        · exact hc hpair
      next hprob => exact .inl ⟨.inr (.inr fun h => hprob (checkConflicts_eq_nil.2 h)), _, rfl⟩

/-- **Every plan that `compose` returns is sound exactly when the sampling misses nothing**: the list
    is refused, or whenever two items with conflicting effects are active together at some step below
    the horizon and in some stage, the check has sampled both together. -/
theorem compose_sound_iff_sampled (items : List (Item K V)) (spec : ModelSpec) (horizon : Nat) :
    (∀ p, compose items spec horizon = .ok p → p.Sound horizon) ↔
      Refused items spec horizon ∨
        items.Pairwise (fun a b => a.Conflict b → a.CoActive horizon b → a.Sampled horizon b) := by
  rcases compose_cases items spec horizon with ⟨hr, e, he⟩ | ⟨hr, hclean, p, hp, hno, htr, htq⟩
  · exact iff_of_true (fun p hp => nomatch he.symm.trans hp) (.inl hr)
  · have hsound := sound_iff horizon hno htr htq
    simp only [hp, Except.ok.injEq, forall_eq', hsound, hr, false_or]
    constructor
    · intro h
      exact h.imp fun hab hc hact => absurd hact (hab hc)
    · intro h
      exact h.imp₂ (fun a b hab hcl hc hact => hcl hc (hab hc hact)) hclean

/-- A technique that prunes tokens in one named stage only. -/
def stagePrune (name : String) : Technique Unit Unit :=
  { name := name, writes := {.tokenSet}
    enabled := Schedule.byStage (Dict.empty.set "refine" (Schedule.const true))
      (Schedule.const false) }

/-- Two techniques that own the token set in the stage `"refine"` are accepted together. -/
theorem compose_accepts_two_stage_pruners :
    ∃ p, compose [.technique (stagePrune "first"), .technique (stagePrune "second")]
        { name := "model", capabilities := ∅ } 64 = .ok p ∧ ¬ p.Sound 64 := by
  refine ⟨_, rfl, fun h => ?_⟩
  have := h.exclusive 0 (by decide) "refine" .tokenSet (by decide)
  revert this
  decide
