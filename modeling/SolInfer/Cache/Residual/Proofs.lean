import SolInfer.Cache.Residual

set_option autoImplicit false

/-! # What the entries remember

The entry of a key holds the residual and the features of the last computed call on the key, and counts
at least the hits since. It adds up the distances of these hits as long as no computed call leaves an
old distance behind. -/

namespace Residual

variable {κ H Φ F : Type} {entries : Dict κ (Entry H Φ F)}

/-! ## The tests of one call -/

section Lookup

theorem isHit_of_none {verdict : Verdict H F} (h : verdict.replayed = none) (v : Visit κ H Φ) :
    Record.isHit ⟨v, verdict⟩ = false := by
  rw [Record.isHit, h]
  rfl

variable [Add F] [LE F] [DecidableLE F] [OfScientific F] {policy : Policy F} {ops : FeatureOps Φ F}

def Entry.afterHit (entry : Entry H Φ F) (distance : F) : Entry H Φ F :=
  { entry with
    accumulatedDistance := entry.accumulatedDistance + distance
    continuousHits := entry.continuousHits + 1 }

/-- What a hit finds in the entry, and what it leaves there. -/
structure Hit (policy : Policy F) (ops : FeatureOps Φ F) (feature : Φ) (entry : Entry H Φ F)
    (result : Verdict H F × Entry H Φ F) (stored : H) (before : Φ) : Prop where
  residual : entry.residual = some stored
  previous : entry.previousFeature = some before
  notAtCap : ¬ entry.atCap policy = true
  below : ¬ policy.threshold ≤ entry.accumulatedDistance + ops.distance feature before
  verdict : result.1 = ⟨.cacheHit, some stored,
    some (entry.accumulatedDistance + ops.distance feature before)⟩
  after : result.2 = entry.afterHit (ops.distance feature before)

/-- The call is computed for another reason than the threshold. -/
def Entry.Stale (policy : Policy F) (ops : FeatureOps Φ F) (step : Int) (feature : Φ)
    (entry : Entry H Φ F) : Prop :=
  entry.isPeriodic policy step = true ∨ entry.atCap policy = true ∨
    ∃ previous, entry.previousFeature = some previous ∧ ops.sameShape previous feature = false

/-- The distance after a computed call: it is set back, or the threshold was not what decided. -/
def KeepsDistance (policy : Policy F) (ops : FeatureOps Φ F) (v : Visit κ H Φ) (entry after : Entry H Φ F) : Prop :=
  after.accumulatedDistance = 0.0 ∨ after.accumulatedDistance = entry.accumulatedDistance ∧
    (v.eligible = false ∨ entry.residual = none ∨ entry.previousFeature = none ∨
      entry.Stale policy ops v.step v.feature)

/-- **The tests**: a call is a hit, or it is computed and stored. -/
theorem tested_spec (policy : Policy F) (ops : FeatureOps Φ F) (v : Visit κ H Φ) (entry : Entry H Φ F) :
    (v.eligible = true ∧ ∃ stored before,
      Hit policy ops v.feature entry (tested policy ops v entry) stored before) ∨
    ((tested policy ops v entry).1.replayed = none ∧
      KeepsDistance policy ops v entry (tested policy ops v entry).2) := by
  unfold tested
  split
  next heligible =>
    unfold Entry.lookup
    split
    next stored before hresidual hprevious =>
      split
      next h => exact .inr ⟨rfl, .inr ⟨rfl, .inr (.inr (.inr (.inl h)))⟩⟩
      split
      next h => exact .inr ⟨rfl, .inr ⟨rfl, .inr (.inr (.inr (.inr (.inl h))))⟩⟩
      next hcap =>
      split
      next h =>
        rw [Bool.not_eq_true] at h
        exact .inr ⟨rfl, .inr ⟨rfl, .inr (.inr (.inr (.inr (.inr ⟨before, hprevious, h⟩))))⟩⟩
      simp only
      split
      · exact .inr ⟨rfl, .inl rfl⟩
      next h => exact .inl ⟨heligible, stored, before, hresidual, hprevious, hcap, h, rfl, rfl⟩
    next hmissing =>
      refine .inr ⟨rfl, .inr ⟨rfl, .inr ?_⟩⟩
      cases hresidual : entry.residual with
      | none => exact .inl rfl
      | some stored =>
        cases hprevious : entry.previousFeature with
        | none => exact .inr (.inl rfl)
        | some before => exact absurd hprevious (hmissing stored before hresidual)
  next heligible => exact .inr ⟨rfl, .inr ⟨rfl, .inl (Bool.eq_false_of_not_eq_true heligible)⟩⟩

omit [DecidableLE F] [OfScientific F] in
theorem Hit.isHit {entry : Entry H Φ F} {result : Verdict H F × Entry H Φ F} {stored : H} {before : Φ}
    {v : Visit κ H Φ} (h : Hit policy ops v.feature entry result stored before) :
    Record.isHit ⟨v, result.1⟩ = true := by
  rw [Record.isHit, h.verdict]
  rfl

theorem lookup_hidden [DecidableEq κ] [Add H] {key : κ}
    {eligible : Bool} {step : Int} {feature : Φ} {hidden out : H}
    (h : (lookup policy ops entries key eligible step feature hidden).1.hidden = some out) :
    ∃ residual, out = hidden + residual := by
  unfold lookup at h
  split at h
  · cases h
  · obtain ⟨residual, _, hresidual⟩ := Option.map_eq_some_iff.1 h
    exact ⟨residual, hresidual.symm⟩

end Lookup

/-! ## Histories of a key -/

section History

/-- The calls that the entries found by a call stem from. -/
def recent (v : Visit κ H Φ) (earlier : List (Record κ H Φ F)) : List (Record κ H Φ F) :=
  if v.clears then [] else sinceClear earlier

theorem sinceClear_cons (r : Record κ H Φ F) (earlier : List (Record κ H Φ F)) :
    sinceClear (r :: earlier) = r :: recent r.visit earlier := by
  rw [sinceClear, recent]
  split <;> rfl

theorem sinceClear_initial (history : List (Record κ H Φ F)) : sinceClear history <+: history := by
  induction history with
  | nil => exact List.prefix_refl _
  | cons r earlier ih =>
    rw [sinceClear]
    split
    · exact ⟨earlier, rfl⟩
    · exact (List.prefix_cons_inj r).2 ih

variable [DecidableEq κ] {key : κ} {r : Record κ H Φ F} {history : List (Record κ H Φ F)}

theorem lastComputed_cons_of_ne (h : r.visit.key ≠ key) :
    lastComputed key (r :: history) = lastComputed key history := by
  simp [lastComputed, ofKey, h]

theorem hitsSince_cons_of_ne (h : r.visit.key ≠ key) :
    hitsSince key (r :: history) = hitsSince key history := by
  simp [hitsSince, ofKey, h]

theorem lastComputed_cons_hit (h : r.isHit = true) :
    lastComputed key (r :: history) = lastComputed key history := by
  by_cases hkey : r.visit.key = key <;> simp [lastComputed, ofKey, hkey, h]

theorem hitsSince_cons_hit (hkey : r.visit.key = key) (h : r.isHit = true) :
    hitsSince key (r :: history) = r :: hitsSince key history := by
  simp [hitsSince, ofKey, hkey, h]

theorem lastComputed_cons_computed (hkey : r.visit.key = key) (h : r.isHit = false) :
    lastComputed key (r :: history) = some r := by
  simp [lastComputed, ofKey, hkey, h]

theorem hitsSince_cons_computed (hkey : r.visit.key = key) (h : r.isHit = false) :
    hitsSince key (r :: history) = [] := by
  simp [hitsSince, ofKey, hkey, h]

theorem lastComputed_of_initial {recent : List (Record κ H Φ F)} (h : recent <+: history)
    {c : Record κ H Φ F} (hc : lastComputed key recent = some c) :
    lastComputed key history = some c ∧ hitsSince key history = hitsSince key recent := by
  obtain ⟨older, rfl⟩ := h
  unfold lastComputed ofKey at hc ⊢
  unfold hitsSince ofKey
  rw [List.filter_append]
  refine ⟨by rw [List.find?_append, hc]; rfl, ?_⟩
  rw [List.takeWhile_append, if_neg]
  -- the computed call ends the streak before the older part begins
  intro hall
  obtain ⟨hcomputed, hmem⟩ := And.intro (List.find?_some hc) (List.mem_of_find?_eq_some hc)
  have htake := (List.takeWhile_prefix Record.isHit).eq_of_length hall
  rw [← htake] at hmem
  have hhit := List.mem_takeWhile_imp hmem
  rw [hhit] at hcomputed
  cases hcomputed

end History

/-! ## The entries -/

section Entries

variable [OfScientific F] [DecidableEq κ] {earlier : List (Record κ H Φ F)} {v : Visit κ H Φ}

/-- The entry of a key holds the last computed call on it. -/
structure Tracks (key : κ) (entry : Entry H Φ F) (history : List (Record κ H Φ F))
    (c : Record κ H Φ F) : Prop where
  computed : lastComputed key history = some c
  residual : entry.residual = some c.visit.residual
  previous : entry.previousFeature = some c.visit.feature
  hits : (hitsSince key history).length ≤ entry.continuousHits

/-- Every entry is empty or holds the last computed call since the entries were forgotten. -/
def Kept (entries : Dict κ (Entry H Φ F)) (history : List (Record κ H Φ F)) : Prop :=
  ∀ key, entryOf entries key = .new ∨ ∃ c, Tracks key (entryOf entries key) (sinceClear history) c

theorem entryOf_set (entries : Dict κ (Entry H Φ F)) (key key' : κ) (entry : Entry H Φ F) :
    entryOf (entries.set key entry) key' = if key = key' then entry else entryOf entries key' := by
  unfold entryOf
  rw [Dict.get?_set]
  split <;> rfl

theorem found_kept (h : Kept entries earlier) (v : Visit κ H Φ) (key : κ) :
    entryOf (found entries v) key = .new ∨
      ∃ c, Tracks key (entryOf (found entries v) key) (recent v earlier) c := by
  unfold found recent
  split
  · exact .inl rfl
  · exact h key

theorem kept_empty : Kept (.empty : Dict κ (Entry H Φ F)) [] := fun _ => .inl rfl

variable [Add F] {ops : FeatureOps Φ F}

/-- Every entry has added up the distances of the hits since its last computed call. -/
def Summed (ops : FeatureOps Φ F) (entries : Dict κ (Entry H Φ F))
    (history : List (Record κ H Φ F)) : Prop :=
  ∀ key c, lastComputed key (sinceClear history) = some c →
    (entryOf entries key).accumulatedDistance =
      distanceSince ops c (hitsSince key (sinceClear history))

theorem found_summed (h : Summed ops entries earlier) (v : Visit κ H Φ) {key : κ} {c : Record κ H Φ F}
    (hc : lastComputed key (recent v earlier) = some c) :
    (entryOf (found entries v) key).accumulatedDistance =
      distanceSince ops c (hitsSince key (recent v earlier)) := by
  unfold recent at hc ⊢
  unfold found
  split at hc
  · cases hc
  next hclears =>
    rw [if_neg hclears, if_neg hclears]
    exact h key c hc

theorem summed_empty : Summed ops (.empty : Dict κ (Entry H Φ F)) [] := by
  intro key c hc
  cases hc

variable [LE F] [DecidableLE F] {policy : Policy F}

/-- What a hit keeps in every run: all but the accumulated distance. -/
structure Replayed (policy : Policy F) (r : Record κ H Φ F) (earlier : List (Record κ H Φ F))
    (c : Record κ H Φ F) : Prop where
  eligible : r.visit.eligible = true
  clears : r.visit.clears = false
  computed : lastComputed r.visit.key (sinceClear earlier) = some c
  replayed : r.verdict.replayed = some c.visit.residual
  streak : 0 ≤ policy.maxContinuousHits →
    ((hitsSince r.visit.key (sinceClear earlier)).length : Int) < policy.maxContinuousHits

theorem settled_tracks {entry : Entry H Φ F} {history : List (Record κ H Φ F)}
    (h : entry = .new ∨ ∃ c, Tracks v.key entry history c) :
    ∃ c, Tracks v.key (settled policy v (tested policy ops v entry))
      (⟨v, (tested policy ops v entry).1⟩ :: history) c := by
  rcases tested_spec policy ops v entry with ⟨-, stored, before, hhit⟩ | ⟨hnone, -⟩
  · -- a hit counts itself and leaves the rest of the entry alone
    have hsettled : settled policy v (tested policy ops v entry) =
        entry.afterHit (ops.distance v.feature before) := by
      rw [settled, hhit.verdict, ← hhit.after]
    rcases h with rfl | ⟨c, htracks⟩
    · exact absurd hhit.residual (by simp [Entry.new])
    · refine ⟨c, ?_, ?_, ?_, ?_⟩
      · rw [lastComputed_cons_hit hhit.isHit, htracks.computed]
      · rw [hsettled, ← htracks.residual]
        rfl
      · rw [hsettled, ← htracks.previous]
        rfl
      · rw [hsettled, hitsSince_cons_hit rfl hhit.isHit]
        exact Nat.succ_le_succ htracks.hits
  · have hisHit := isHit_of_none hnone v
    have hsettled : settled policy v (tested policy ops v entry) =
        (tested policy ops v entry).2.store policy v.step v.feature v.residual := by
      rw [settled, hnone]
    refine ⟨_, lastComputed_cons_computed rfl hisHit, ?_, ?_, ?_⟩
    · rw [hsettled]
      rfl
    · rw [hsettled]
      rfl
    · rw [hitsSince_cons_computed rfl hisHit]
      exact Nat.zero_le _

theorem entryOf_visit (entries : Dict κ (Entry H Φ F)) (v : Visit κ H Φ) (key : κ) :
    entryOf (visit policy ops entries v).2 key =
      if v.key = key then settled policy v (tested policy ops v (entryOf (found entries v) v.key))
      else entryOf (found entries v) key :=
  entryOf_set _ _ _ _

theorem visit_key (entries : Dict κ (Entry H Φ F)) (v : Visit κ H Φ) :
    (visit policy ops entries v).1.visit.key = v.key := rfl

theorem visit_kept (policy : Policy F) (ops : FeatureOps Φ F)
    (h : Kept entries earlier) (v : Visit κ H Φ) :
    Kept (visit policy ops entries v).2 ((visit policy ops entries v).1 :: earlier) := by
  intro key
  rw [sinceClear_cons, entryOf_visit]
  split
  next hkey =>
    subst hkey
    exact .inr (settled_tracks (found_kept h v v.key))
  next hkey =>
    refine (found_kept h v key).imp_right ?_
    rintro ⟨c, htracks⟩
    refine ⟨c, ?_, htracks.residual, htracks.previous, ?_⟩
    · rw [lastComputed_cons_of_ne hkey]
      exact htracks.computed
    · rw [hitsSince_cons_of_ne hkey]
      exact htracks.hits

theorem tracks_of_hit (h : Kept entries earlier) {stored : H} {before : Φ}
    (hhit : Hit policy ops v.feature (entryOf (found entries v) v.key)
      (tested policy ops v (entryOf (found entries v) v.key)) stored before) :
    v.clears = false ∧ ∃ c, stored = c.visit.residual ∧ before = c.visit.feature ∧
      Tracks v.key (entryOf (found entries v) v.key) (sinceClear earlier) c := by
  have hresidual := hhit.residual
  have hclears : v.clears = false := by
    by_contra hclears
    rw [Bool.not_eq_false] at hclears
    rw [found, if_pos hclears] at hresidual
    cases hresidual
  have hrecent : recent v earlier = sinceClear earlier := by simp [recent, hclears]
  rcases found_kept h v v.key with hnew | ⟨c, htracks⟩
  · rw [hnew] at hresidual
    cases hresidual
  · rw [hrecent] at htracks
    refine ⟨hclears, c, ?_, ?_, htracks⟩
    · exact Option.some.inj (hhit.residual.symm.trans htracks.residual)
    · exact Option.some.inj (hhit.previous.symm.trans htracks.previous)

/-- **A hit replays the last computed call on its key**, in the window and within the limit. -/
theorem visit_replayed (h : Kept entries earlier) (v : Visit κ H Φ)
    (hhit : (visit policy ops entries v).1.isHit = true) :
    ∃ c, Replayed policy (visit policy ops entries v).1 earlier c := by
  rcases tested_spec policy ops v (entryOf (found entries v) v.key) with
    ⟨heligible, stored, before, hfound⟩ | ⟨hnone, -⟩
  · obtain ⟨hclears, c, rfl, -, htracks⟩ := tracks_of_hit h hfound
    refine ⟨c, heligible, hclears, htracks.computed, ?_, fun hmax => ?_⟩
    · show (tested policy ops v _).1.replayed = _
      rw [hfound.verdict]
    · have hcap := hfound.notAtCap
      simp only [Entry.atCap, Bool.and_eq_true, decide_eq_true_eq, not_and, not_le] at hcap
      have hhits : (hitsSince v.key (sinceClear earlier)).length ≤
          (entryOf (found entries v) v.key).continuousHits := htracks.hits
      exact (Int.ofNat_le.2 hhits).trans_lt (hcap hmax)
  · cases (isHit_of_none hnone v).symm.trans hhit

omit [Add F] [LE F] [DecidableLE F] in
/-- A computed call that does not forget a distance leaves none behind. -/
theorem accumulatedDistance_of_computed (h : Kept entries earlier)
    (hforgets : ¬ Forgets policy ops entries v)
    {after : Entry H Φ F} (hacc : KeepsDistance policy ops v (entryOf (found entries v) v.key) after) :
    after.accumulatedDistance = 0.0 := by
  rcases hacc with hzero | ⟨hsame, hreason⟩
  · exact hzero
  rw [hsame]
  rcases found_kept h v v.key with hnew | ⟨c, htracks⟩
  · rw [hnew]
    rfl
  · by_contra hne
    refine hforgets ⟨hne, ?_⟩
    rcases hreason with heligible | hresidual | hprevious | hstale
    · exact .inl heligible
    · exact absurd (htracks.residual.symm.trans hresidual) (by simp)
    · exact absurd (htracks.previous.symm.trans hprevious) (by simp)
    · exact .inr hstale

theorem visit_summed (h : Kept entries earlier) (hsummed : Summed ops entries earlier)
    (hforgets : ¬ Forgets policy ops entries v) :
    Summed ops (visit policy ops entries v).2 ((visit policy ops entries v).1 :: earlier) := by
  intro key c hc
  rw [sinceClear_cons] at hc ⊢
  rw [entryOf_visit]
  by_cases hkey : v.key = key
  · rw [if_pos hkey]
    subst hkey
    rcases tested_spec policy ops v (entryOf (found entries v) v.key) with
      ⟨-, stored, before, hfound⟩ | ⟨hnone, hacc⟩
    · -- a hit adds its own distance to the sum
      have hisHit : (visit policy ops entries v).1.isHit = true := hfound.isHit
      rw [lastComputed_cons_hit hisHit] at hc
      rw [hitsSince_cons_hit (visit_key entries v) hisHit, settled, hfound.verdict]
      obtain ⟨hclears, c', -, rfl, htracks⟩ := tracks_of_hit h hfound
      have hrecent : recent v earlier = sinceClear earlier := by simp [recent, hclears]
      obtain rfl : c' = c := Option.some.inj (htracks.computed.symm.trans (hrecent ▸ hc))
      rw [hfound.after]
      show _ + _ = distanceSince ops c' _ + _
      rw [found_summed hsummed v hc]
      rfl
    · have hisHit : (visit policy ops entries v).1.isHit = false := isHit_of_none hnone v
      rw [hitsSince_cons_computed (visit_key entries v) hisHit, settled, hnone]
      exact accumulatedDistance_of_computed h hforgets hacc
  · rw [if_neg hkey, hitsSince_cons_of_ne hkey]
    rw [lastComputed_cons_of_ne hkey] at hc
    exact found_summed hsummed v hc

/-- **A hit is measured against the last computed call on its key**, when the sums are kept. -/
theorem visit_measured
    (h : Kept entries earlier) (hsummed : Summed ops entries earlier) (v : Visit κ H Φ)
    (hhit : (visit policy ops entries v).1.isHit = true) :
    ∃ c, lastComputed v.key earlier = some c ∧
      Measured policy ops (visit policy ops entries v).1 earlier c := by
  obtain ⟨c, hreplayed⟩ := visit_replayed h v hhit
  obtain ⟨hcomputed, hhits⟩ :=
    lastComputed_of_initial (sinceClear_initial earlier) hreplayed.computed
  have hsum : (entryOf (found entries v) v.key).accumulatedDistance =
      distanceSince ops c (hitsSince v.key (sinceClear earlier)) := by
    have hclears : v.clears = false := hreplayed.clears
    have hrecent : recent v earlier = sinceClear earlier := by simp [recent, hclears]
    rw [← hrecent]
    exact found_summed hsummed v (hrecent ▸ hreplayed.computed)
  rcases tested_spec policy ops v (entryOf (found entries v) v.key) with
    ⟨-, stored, before, hfound⟩ | ⟨hnone, -⟩
  · obtain ⟨-, c', -, rfl, htracks⟩ := tracks_of_hit h hfound
    obtain rfl : c' = c :=
      Option.some.inj (htracks.computed.symm.trans hreplayed.computed)
    have hbelow := hfound.below
    rw [hsum] at hbelow
    refine ⟨c', hcomputed, hreplayed.eligible, hreplayed.replayed, ?_, ?_, ?_⟩
    · rw [show hitsSince _ earlier = _ from hhits]
      exact hreplayed.streak
    · show (tested policy ops v _).1.accumulated = _
      rw [hfound.verdict, hsum]
      rw [show hitsSince _ earlier = _ from hhits]
      rfl
    · rw [show hitsSince _ earlier = _ from hhits]
      exact hbelow
  · cases (isHit_of_none hnone v).symm.trans hhit

/-! ## Forward passes -/

/-- **A forward pass makes one visit to the entries**, and on a hit it adds the replayed residual to its
    input. -/
theorem forwardPass_eq_visit [Add H] (policy : Policy F) (ops : FeatureOps Φ F)
    (entries : Dict κ (Entry H Φ F)) (v : Visit κ H Φ) (hidden computed : H) :
    visit policy ops entries v = ((forwardPass policy ops entries v hidden computed).1.record,
        (forwardPass policy ops entries v hidden computed).2) ∧
      ∀ residual,
        (forwardPass policy ops entries v hidden computed).1.record.verdict.replayed = some residual →
        (forwardPass policy ops entries v hidden computed).1.output =
          (forwardPass policy ops entries v hidden computed).1.input + residual := by
  unfold visit tested forwardPass lookup
  cases heligible : v.eligible with
  | false => exact ⟨rfl, fun residual h => nomatch h⟩
  | true =>
    simp only [not_true_eq_false, if_false, if_true]
    unfold settled store
    cases hreplayed :
      ((entryOf (found entries v) v.key).lookup policy ops v.step v.feature).1.replayed with
    | some stored =>
      refine ⟨rfl, fun residual h => ?_⟩
      obtain rfl : stored = residual := Option.some.inj (hreplayed.symm.trans h)
      rfl
    | none =>
      -- `store` writes the entry of the key once more
      refine ⟨?_, fun residual h => absurd (hreplayed.symm.trans h) (by simp)⟩
      refine congrArg (Prod.mk _) ?_
      show _ = ((found entries v).set _ _).set _ _
      rw [Dict.set_set, entryOf_set, if_pos rfl]

/-! ## Runs -/

/-- How a coordinator makes its visits: each call is one visit to the entries, and a hit adds what it
    replays to the input. -/
structure Visits [Add H] {σ ι : Type} (policy : Policy F) (ops : FeatureOps Φ F)
    (entriesOf : σ → Dict κ (Entry H Φ F)) (visitOf : σ → ι → Visit κ H Φ)
    (step : σ → ι → Answer κ H Φ F × σ) (s : σ) (x : ι) : Prop where
  visit : visit policy ops (entriesOf s) (visitOf s x) =
    ((step s x).1.record, entriesOf (step s x).2)
  output : ∀ residual, (step s x).1.record.verdict.replayed = some residual →
    (step s x).1.output = (step s x).1.input + residual

variable {σ ι : Type} {entriesOf : σ → Dict κ (Entry H Φ F)} {visitOf : σ → ι → Visit κ H Φ}
  {step : σ → ι → Answer κ H Φ F × σ}

/-- The entries of a coordinator hold what the records of the calls so far say. -/
structure Explained (ops : FeatureOps Φ F) (entriesOf : σ → Dict κ (Entry H Φ F)) (Inv : σ → Prop) (s : σ)
    (history : List (Answer κ H Φ F)) : Prop where
  inv : Inv s
  kept : Kept (entriesOf s) (history.map Answer.record)
  summed : Summed ops (entriesOf s) (history.map Answer.record)

/-- **Every run of a coordinator that never forgets a distance is faithful.** The calls of the run keep
    an invariant under which the coordinator makes its visits. -/
theorem faithful_of_reaches [Add H] {Inv : σ → Prop} {s₀ : σ} {s : σ × List (Answer κ H Φ F)}
    (hvisits : ∀ s x, Inv s → Visits policy ops entriesOf visitOf step s x ∧ Inv (step s x).2)
    (hs₀ : Inv s₀) (hempty : entriesOf s₀ = .empty) (h : Run.Reaches (History.log step)
      (fun s x => ¬ Forgets policy ops (entriesOf s.1) (visitOf s.1 x)) (s₀, []) s) :
    History.Always (Faithful policy ops) s.2 := by
  have hinit : Explained ops entriesOf Inv s₀ [] := ⟨hs₀, hempty ▸ kept_empty, hempty ▸ summed_empty⟩
  refine (History.always_of_reaches h hinit ?_).2
  rintro s earlier x ⟨hinv, hkept, hsummed⟩ hforgets
  obtain ⟨⟨hvisit, houtput⟩, hinv'⟩ := hvisits s x hinv
  have hrecord : (visit policy ops (entriesOf s) (visitOf s x)).1 = (step s x).1.record := by
    rw [hvisit]
  have hkept' := visit_kept policy ops hkept (visitOf s x)
  have hsummed' := visit_summed hkept hsummed hforgets
  rw [hvisit] at hkept' hsummed'
  refine ⟨fun hhit => ?_, hinv', hkept', hsummed'⟩
  obtain ⟨c, hc, hmeasured⟩ :=
    visit_measured hkept hsummed (visitOf s x) (hrecord ▸ hhit)
  rw [hrecord] at hmeasured
  refine ⟨c, ?_, hmeasured, houtput _ hmeasured.replayed⟩
  rw [← hc, ← hrecord]
  rfl

end Entries

end Residual
