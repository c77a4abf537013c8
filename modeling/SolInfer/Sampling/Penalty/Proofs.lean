import SolInfer.Sampling.Penalty

set_option autoImplicit false

/-! # Sampling penalties: proofs

The row of a request holds what its penalizer made of some history. As long as that history is the outputs
of the request, or the request does not ask for the penalty, the row is adjusted as the outputs ask for;
prefills, merges, filters and decode steps keep it so, except a prefill that brings back a request with
outputs and a penalty. -/

open List Function

namespace Penalty

variable {R α : Type} {id : Nat}

/-- Requests that differ in their outputs only. -/
def Req.SameParams (r r' : Req R) : Prop :=
  r.samplingParams = r'.samplingParams ∧ r.tokenizer = r'.tokenizer

theorem Req.SameParams.refl (r : Req R) : r.SameParams r := ⟨rfl, rfl⟩

/-! ## Outputs -/

theorem append_of_not_mem {table : Nat → Req R} {pairs : List (Nat × Nat)} (h : id ∉ pairs.map (·.1)) :
    Scheduler.append table pairs id = table id := by
  induction pairs generalizing table with
  | nil => rfl
  | cons p rest ih =>
    rw [map_cons, mem_cons, not_or] at h
    rw [Scheduler.append, ih h.2, update_of_ne h.1]

theorem append_of_mem {table : Nat → Req R} {pairs : List (Nat × Nat)} (hnodup : (pairs.map (·.1)).Nodup) {token : Nat}
    (h : (id, token) ∈ pairs) :
    Scheduler.append table pairs id = { table id with outputIds := (table id).outputIds ++ [token] } := by
  induction pairs generalizing table with
  | nil => cases h
  | cons p rest ih =>
    rw [map_cons, nodup_cons] at hnodup
    rcases mem_cons.1 h with rfl | h
    · rw [Scheduler.append, append_of_not_mem hnodup.1, update_self]
    · have hne : id ≠ p.1 := by
        rintro rfl
        exact hnodup.1 (mem_map.2 ⟨_, h, rfl⟩)
      rw [Scheduler.append, ih hnodup.2 h, update_of_ne hne]

theorem append_sameParams (table : Nat → Req R) (pairs : List (Nat × Nat)) (id : Nat) :
    (Scheduler.append table pairs id).SameParams (table id) := by
  induction pairs generalizing table with
  | nil => exact .refl _
  | cons p rest ih =>
    refine ⟨(ih _).1.trans ?_, (ih _).2.trans ?_⟩ <;>
      · by_cases hid : id = p.1
        · subst hid
          rw [update_self]
        · rw [update_of_ne hid]

variable [Field R] [LinearOrder R] {logits : List (Logits R)} {keep tokens : List Nat} {l : List α}
variable {r : Req R}

/-! ## One row -/

def Kind.row (k : Kind) (r : Req R) (history : List Nat) : (penalizer R k).Row :=
  history.foldl (penalizer R k).cumulate ((penalizer R k).prepare r)

theorem Kind.row_append (k : Kind) (r : Req R) (history : List Nat) (token : Nat) :
    k.row r (history ++ [token]) = (penalizer R k).cumulate (k.row r history) token := by
  rw [Kind.row, foldl_append]
  rfl

theorem frequency_row (r : Req R) (history : List Nat) :
    Kind.frequency.row r history = (r.samplingParams.frequencyPenalty,
      fun t => (history.count t : R) * r.samplingParams.frequencyPenalty) := by
  induction history using reverseRecOn with
  | nil => simp [Kind.row, penalizer, batchedFrequencyPenalizer]
  | append_singleton history token ih =>
    rw [Kind.row_append, ih]
    refine Prod.ext rfl (funext fun t => ?_)
    by_cases ht : t = token
    · subst ht
      simp [penalizer, batchedFrequencyPenalizer, count_append]
      ring
    · have hne : token ≠ t := fun h => ht h.symm
      simp [penalizer, batchedFrequencyPenalizer, count_append, update_of_ne ht, hne]

theorem minNewTokens_row (r : Req R) (history : List Nat) :
    Kind.minNewTokens.row r history = (⟨r.samplingParams.minNewTokens,
      fun t => if t ∈ r.stopTokens then ⊥ else 0, history.length⟩ : MinNewTokensRow R) := by
  induction history using reverseRecOn with
  | nil => rfl
  | append_singleton history token ih =>
    rw [Kind.row_append, ih, length_append]
    rfl

theorem foldl_update (p d : α) (history : List Nat) :
    history.foldl (fun (row : α × (Nat → α)) token => (row.1, update row.2 token row.1))
      (p, fun _ => d) = (p, fun t => if t ∈ history then p else d) := by
  induction history using reverseRecOn with
  | nil => simp
  | append_singleton history token ih =>
    rw [foldl_append, ih]
    refine Prod.ext rfl (funext fun t => ?_)
    by_cases ht : t = token
    · subst ht
      simp
    · simp [ht]

/-- **A row is adjusted as its history asks for.** -/
theorem apply_row (k : Kind) (r : Req R) (history : List Nat) (logits : Logits R) :
    (penalizer R k).apply (k.row r history) logits = k.own r history logits := by
  funext t
  cases k with
  | frequency =>
    rw [frequency_row]
    rfl
  | minNewTokens =>
    rw [minNewTokens_row]
    simp only [penalizer, batchedMinNewTokensPenalizer, Kind.own]
    by_cases hlen : history.length < r.samplingParams.minNewTokens <;>
      by_cases ht : t ∈ r.stopTokens <;> simp [hlen, ht]
  | presence =>
    have hrow : Kind.presence.row r history = (r.samplingParams.presencePenalty,
        fun t => if t ∈ history then r.samplingParams.presencePenalty else 0) := foldl_update ..
    rw [hrow]
    simp only [penalizer, batchedPresencePenalizer, Kind.own]
    by_cases ht : t ∈ history
    · simp [ht]
    · cases logits t <;> simp [ht]
  | repetition =>
    have hrow : Kind.repetition.row r history = (r.samplingParams.repetitionPenalty,
        fun t => if t ∈ history then r.samplingParams.repetitionPenalty else 1) := foldl_update ..
    rw [hrow]
    simp only [penalizer, batchedRepetitionPenalizer, Kind.own]
    by_cases ht : t ∈ history
    · simp [ht]
    · cases logits t <;> simp [ht, applyScalingPenalties]

theorem own_of_not_required {k : Kind} (h : (penalizer R k).isRequired r = false)
    (history : List Nat) (logits : Logits R) : k.own r history logits = logits := by
  funext t
  cases k with
  | frequency =>
    have hp : r.samplingParams.frequencyPenalty = 0 := by
      simpa [penalizer, batchedFrequencyPenalizer] using h
    cases hl : logits t <;> simp [Kind.own, hp, hl]
  | minNewTokens =>
    have hp : r.samplingParams.minNewTokens = 0 := by
      simpa [penalizer, batchedMinNewTokensPenalizer] using h
    simp [Kind.own, hp]
  | presence =>
    have hp : r.samplingParams.presencePenalty = 0 := by
      simpa [penalizer, batchedPresencePenalizer] using h
    cases hl : logits t <;> simp [Kind.own, hp, hl]
  | repetition =>
    have hp : r.samplingParams.repetitionPenalty = 1 := by
      simpa [penalizer, batchedRepetitionPenalizer] using h
    cases hl : logits t <;> simp [Kind.own, hp, hl, applyScalingPenalties]

theorem Req.SameParams.congr {r' : Req R} (h : r.SameParams r') (k : Kind) (history : List Nat) :
    k.row r history = k.row r' history ∧ (penalizer R k).isRequired r = (penalizer R k).isRequired r' := by
  obtain ⟨p, t, o⟩ := r
  obtain ⟨p', t', o'⟩ := r'
  obtain ⟨rfl, rfl⟩ := h
  cases k <;> exact ⟨rfl, rfl⟩

/-! ## Tensors -/

/-- A row holds the history of a request, or is of no account. -/
def Holds (k : Kind) (r : Req R) (history : List Nat) (row : (penalizer R k).Row) : Prop :=
  ∃ h, row = k.row r h ∧ (h = history ∨ (penalizer R k).isRequired r = false)

/-- The tensors hold the histories of the requests; they may be missing when none asks for the penalty. -/
def Covers (table : Nat → Req R) (history : Nat → List Nat) (k : Kind) (ids : List Nat) :
    (penalizer R k).Tensors → Prop
  | none => ∀ id ∈ ids, (penalizer R k).isRequired (table id) = false
  | some rows => Forall₂ (fun id row => Holds k (table id) (history id) row) ids rows

section Tensors

variable {table table' : Nat → Req R} {history history' : Nat → List Nat} {k : Kind} {ids ids' : List Nat}
  {tensors theirs : (penalizer R k).Tensors}

theorem Holds.apply_eq {h : List Nat} {row : (penalizer R k).Row} (hrow : Holds k r h row)
    (logits : Logits R) : (penalizer R k).apply row logits = k.own r h logits := by
  obtain ⟨h', rfl, rfl | hno⟩ := hrow
  · exact apply_row k r h' logits
  · rw [apply_row, own_of_not_required hno, own_of_not_required hno]

theorem Covers.congr (h : Covers table history k ids tensors)
    (htable : ∀ id ∈ ids, (table' id).SameParams (table id))
    (hhistory : ∀ id ∈ ids, history' id = history id ∨ (penalizer R k).isRequired (table id) = false) :
    Covers table' history' k ids tensors := by
  cases tensors with
  | none =>
    intro id hid
    rw [((htable id hid).congr k []).2]
    exact h id hid
  | some rows =>
    refine List.Forall₂.imp ?_ ((forall₂_and_left _ _).2 ⟨fun id hid => hid, h⟩)
    rintro i row ⟨hi, hist, rfl, hor⟩
    obtain ⟨hrow, hrequired⟩ := (htable i hi).congr k hist
    refine ⟨hist, hrow.symm, ?_⟩
    rw [hrequired]
    rcases hor with rfl | hno
    · exact (hhistory i hi).imp Eq.symm id
    · exact .inr hno

theorem covers_prepare (table : Nat → Req R) (k : Kind) (ids : List Nat) :
    Covers table (fun _ => []) k ids (BatchedPenalizer.prepareTensors (ids.map table) none) := by
  show Forall₂ _ ids ((ids.map table).map (penalizer R k).prepare)
  rw [map_map, forall₂_map_right_iff]
  exact forall₂_same.2 fun id _ => ⟨[], rfl, .inl rfl⟩

theorem required_eq_false (h : (penalizer R k).required (ids.map table) = false) :
    ∀ id ∈ ids, (penalizer R k).isRequired (table id) = false := by
  intro id hid
  rw [BatchedPenalizer.required, any_map, any_eq_false] at h
  simpa using h id hid

theorem Covers.prepare (h : Covers table history k ids tensors) :
    Covers table history k ids (BatchedPenalizer.prepareTensors (ids.map table) tensors) := by
  cases tensors with
  | none =>
    exact (covers_prepare table k ids).congr (fun id _ => .refl _) fun id hid => .inr (h id hid)
  | some rows => exact h

theorem Covers.cumulate (h : Covers table history k ids tensors)
    (htokens : Forall₂ (fun id token => history' id = history id ++ [token]) ids tokens) :
    Covers table history' k ids (BatchedPenalizer.cumulateOutputTokens tensors tokens) := by
  cases tensors with
  | none => exact h
  | some rows =>
    replace h : Forall₂ _ ids rows := h
    induction htokens generalizing rows with
    | nil => cases h; exact .nil
    | @cons id token ids tokens htoken _ ih =>
      cases h with
      | @cons _ row _ rows hrow hrows =>
        refine .cons ?_ (ih rows hrows)
        obtain ⟨hist, rfl, hor⟩ := hrow
        refine ⟨hist ++ [token], (k.row_append _ _ _).symm, ?_⟩
        rcases hor with rfl | hno
        · exact .inl htoken.symm
        · exact .inr hno

theorem forall₂_select {β : Type} {P : α → β → Prop} {l' : List β} (h : Forall₂ P l l')
    (keep : List Nat) :
    Forall₂ P (keep.filterMap fun i => l[i]?) (keep.filterMap fun i => l'[i]?) := by
  induction keep with
  | nil => exact .nil
  | cons i keep ih =>
    rw [filterMap_cons, filterMap_cons]
    rcases Nat.lt_or_ge i l.length with hi | hi
    · have hi' : i < l'.length := h.length_eq ▸ hi
      rw [getElem?_eq_getElem hi, getElem?_eq_getElem hi']
      exact .cons (h.get hi hi') ih
    · have hi' : l'.length ≤ i := h.length_eq ▸ hi
      rw [getElem?_eq_none hi, getElem?_eq_none hi']
      exact ih

theorem mem_select {a : α} (h : a ∈ keep.filterMap fun i => l[i]?) : a ∈ l := by
  obtain ⟨i, -, hi⟩ := mem_filterMap.1 h
  exact mem_of_getElem? hi

section

variable (h : Covers table history k ids tensors)
include h

theorem Covers.filter (keep : List Nat) :
    Covers table history k (keep.filterMap fun i => ids[i]?)
      (BatchedPenalizer.filterTensors tensors keep) := by
  cases tensors with
  | none => exact fun id hid => h id (mem_select hid)
  | some rows => exact forall₂_select h keep

theorem Covers.merge (h' : Covers table history k ids' theirs) :
    Covers table history k (ids ++ ids')
      (BatchedPenalizer.mergeTensors (ids.map table) (ids'.map table) tensors theirs) := by
  have hprep := h.prepare
  have hprep' := h'.prepare
  cases tensors with
  | none =>
    cases theirs with
    | none => exact fun id hid => (mem_append.1 hid).elim (h id) (h' id)
    | some rows' => exact rel_append hprep hprep'
  | some rows => cases theirs <;> exact rel_append hprep hprep'

theorem Covers.apply_eq (hlen : logits.length = ids.length) :
    BatchedPenalizer.applyTensors tensors logits =
      zipWith (fun id l => k.own (table id) (history id) l) ids logits := by
  cases tensors with
  | none =>
    show logits = _
    replace h : ∀ id ∈ ids, (penalizer R k).isRequired (table id) = false := h
    induction ids generalizing logits with
    | nil => exact eq_nil_of_length_eq_zero hlen
    | cons id ids ih =>
      cases logits with
      | nil => cases hlen
      | cons l logits =>
        rw [zipWith_cons_cons, own_of_not_required (h id mem_cons_self),
          ← ih (Nat.succ.inj hlen) fun i hi => h i (.tail _ hi)]
  | some rows =>
    show zipWith _ rows logits = _
    replace h : Forall₂ _ ids rows := h
    induction h generalizing logits with
    | nil => simp
    | @cons id row ids rows hrow _ ih =>
      cases logits with
      | nil => cases hlen
      | cons l logits =>
        rw [zipWith_cons_cons, zipWith_cons_cons, hrow.apply_eq, ih (Nat.succ.inj hlen)]

end

end Tensors

/-! ## Batches -/

theorem zipWith_right {β : Type} (f : α → β → β) (hf : ∀ a b, f a b = b) {l' : List β}
    (hlen : l'.length = l.length) : zipWith f l l' = l' := by
  induction l generalizing l' with
  | nil => exact (eq_nil_of_length_eq_zero hlen).symm
  | cons a l ih =>
    cases l' with
    | nil => rfl
    | cons b l' => rw [zipWith_cons_cons, hf, ih (Nat.succ.inj hlen)]

theorem zipWith_zipWith {β : Type} (f g : α → β → β) (l : List α) (l' : List β) :
    zipWith f l (zipWith g l l') = zipWith (fun a b => f a (g a b)) l l' := by
  induction l generalizing l' with
  | nil => rfl
  | cons a l ih =>
    cases l' with
    | nil => rfl
    | cons b l' => rw [zipWith_cons_cons, zipWith_cons_cons, zipWith_cons_cons, ih]

/-- The penalizers of a batch hold the histories of its requests. -/
structure Tracks (table : Nat → Req R) (history : Nat → List Nat) (b : ScheduleBatch R) : Prop where
  nodup : b.reqs.Nodup
  covers : ∀ k, Covers table history k b.reqs (b.orchestrator.penalizers k)
  flag : b.orchestrator.isRequired = false → ∀ k, b.orchestrator.penalizers k = none

section Batches

variable {table table' : Nat → Req R} {history history' : Nat → List Nat} {b b' : ScheduleBatch R}

theorem Kind.mem_all (k : Kind) : k ∈ Kind.all := by cases k <;> simp [Kind.all]

theorem Tracks.covers_of_flag (h : Tracks table history b) (hflag : b.orchestrator.isRequired = false) (k : Kind)
    (history' : Nat → List Nat) : Covers table history' k b.reqs (b.orchestrator.penalizers k) := by
  have hcov := h.covers k
  rw [h.flag hflag k] at hcov ⊢
  exact hcov

theorem tracks_init (table : Nat → Req R) {ids : List Nat} (hnodup : ids.Nodup) (inputIds : List Nat) :
    Tracks table (fun _ => []) ⟨ids, .init (ids.map table), inputIds⟩ where
  nodup := hnodup
  covers k := by
    simp only [BatchedPenalizerOrchestrator.init]
    split
    · exact covers_prepare table k ids
    next hreq => exact required_eq_false (Bool.eq_false_iff.2 hreq)
  flag hflag k := by
    have hno := any_eq_false.1 hflag k k.mem_all
    exact if_neg hno

section

variable (h : Tracks table history b)
include h

theorem Tracks.prepareForDecode
    (htokens : Forall₂ (fun id token => history' id = history id ++ [token]) b.reqs b.inputIds) :
    Tracks table history' b.prepareForDecode := by
  unfold ScheduleBatch.prepareForDecode
  split
  · refine ⟨h.nodup, fun k => (h.covers k).cumulate htokens, fun hflag => ?_⟩
    simp_all [BatchedPenalizerOrchestrator.cumulateOutputTokens]
  next hflag =>
    rw [Bool.not_eq_true] at hflag
    exact ⟨h.nodup, fun k => h.covers_of_flag hflag k history', h.flag⟩

/-- **The rows of a batch are adjusted as the histories of its requests ask for.** -/
theorem Tracks.applyLogitsBias_eq (order : List Kind) (hlen : logits.length = b.reqs.length) :
    b.applyLogitsBias order logits =
      zipWith (fun id l => order.foldl (fun l k => k.own (table id) (history id) l) l) b.reqs logits := by
  have happly : b.applyLogitsBias order logits = b.orchestrator.apply order logits := by
    unfold ScheduleBatch.applyLogitsBias
    split
    · rfl
    next hflag =>
      rw [Bool.not_eq_true] at hflag
      symm
      refine foldlRecOn order _ (motive := fun l => l = logits) rfl fun l hl k _ => ?_
      rw [hl, h.flag hflag k]
      rfl
  rw [happly, BatchedPenalizerOrchestrator.apply]
  clear happly
  induction order generalizing logits with
  | nil =>
    exact (zipWith_right (fun _ l => l) (fun _ _ => rfl) hlen).symm
  | cons k order ih =>
    rw [foldl_cons, (h.covers k).apply_eq hlen, ih (by simp [hlen]), zipWith_zipWith]
    rfl

theorem Tracks.congr (htable : ∀ id ∈ b.reqs, (table' id).SameParams (table id))
    (hhistory : ∀ id ∈ b.reqs, history' id = history id ∨
      ∀ k, (penalizer R k).isRequired (table id) = false) : Tracks table' history' b where
  nodup := h.nodup
  covers k := (h.covers k).congr htable fun id hid => (hhistory id hid).imp_right fun h => h k
  flag := h.flag

theorem Tracks.withInput (inputIds : List Nat) :
    Tracks table history { b with inputIds := inputIds } := ⟨h.nodup, h.covers, h.flag⟩

end

theorem nodup_select (hl : l.Nodup) (hkeep : keep.Nodup) : (keep.filterMap fun i => l[i]?).Nodup := by
  refine hkeep.filterMap fun i j a hi hj => ?_
  have hi : l[i]? = some a := hi
  have hj : l[j]? = some a := hj
  exact (List.getElem?_inj (List.getElem?_eq_some_iff.1 hi).1 hl).1 (hi.trans hj.symm)

theorem filterBatch_cases (b : ScheduleBatch R) (table : Nat → Req R) (keep : List Nat)
    (hne : (b.filterBatch table keep).reqs ≠ []) :
    (keep.length = b.reqs.length ∧ b.filterBatch table keep = b) ∨
      (keep.length ≠ b.reqs.length ∧ keep ≠ [] ∧ b.filterBatch table keep = {
        reqs := keep.filterMap fun i => b.reqs[i]?
        orchestrator := b.orchestrator.filter ((keep.filterMap fun i => b.reqs[i]?).map table) keep
        inputIds := keep.filterMap fun i => b.inputIds[i]? }) := by
  unfold ScheduleBatch.filterBatch at hne ⊢
  split at hne
  · exact absurd rfl hne
  next hkeep =>
    rw [if_neg hkeep]
    split
    next hlen => exact .inl ⟨hlen, rfl⟩
    next hlen => exact .inr ⟨hlen, hkeep, rfl⟩

theorem Tracks.filterBatch (h : Tracks table history b) (hkeep : keep.Nodup)
    (hne : (b.filterBatch table keep).reqs ≠ []) : Tracks table history (b.filterBatch table keep) := by
  rcases filterBatch_cases b table keep hne with ⟨-, heq⟩ | ⟨-, hnil, heq⟩
  · rw [heq]
    exact h
  · rw [heq]
    refine ⟨nodup_select h.nodup hkeep, fun k => ?_, fun hflag k => ?_⟩
    · simp only [BatchedPenalizerOrchestrator.filter]
      split
      next hreq =>
        have hcov := h.covers k
        rw [h.flag hreq k] at hcov ⊢
        exact fun id hid => hcov id (mem_select hid)
      next hreq =>
        dsimp only
        split
        · exact (h.covers k).filter keep
        next hno => exact required_eq_false (Bool.eq_false_iff.2 hno)
    · simp only [BatchedPenalizerOrchestrator.filter] at hflag ⊢
      split at hflag
      next hreq =>
        rw [if_pos hreq]
        exact h.flag hreq k
      next hreq =>
        rw [if_neg hreq, if_neg hnil]
        exact if_neg (any_eq_false.1 hflag k k.mem_all)

theorem forall₂_filterBatch {P : Nat → Nat → Prop} (h : Forall₂ P b.reqs b.inputIds)
    (hne : (b.filterBatch table keep).reqs ≠ []) :
    Forall₂ P (b.filterBatch table keep).reqs (b.filterBatch table keep).inputIds := by
  rcases filterBatch_cases b table keep hne with ⟨-, heq⟩ | ⟨-, -, heq⟩
  · rw [heq]
    exact h
  · rw [heq]
    exact forall₂_select h keep

theorem filterBatch_subset (b : ScheduleBatch R) (table : Nat → Req R) (keep : List Nat) :
    ∀ id ∈ (b.filterBatch table keep).reqs, id ∈ b.reqs := by
  intro id hid
  rcases filterBatch_cases b table keep (ne_nil_of_mem hid) with ⟨-, heq⟩ | ⟨-, -, heq⟩
  · rwa [heq] at hid
  · rw [heq] at hid
    exact mem_select hid

theorem Tracks.mergeBatch (h : Tracks table history b) (h' : Tracks table history b')
    (hdisj : ∀ id ∈ b.reqs, id ∉ b'.reqs) : Tracks table history (b.mergeBatch b' table) := by
  refine ⟨nodup_append'.2 ⟨h.nodup, h'.nodup, fun id hid hid' => hdisj id hid hid'⟩, fun k => ?_,
    fun hflag k => ?_⟩
  · simp only [ScheduleBatch.mergeBatch, BatchedPenalizerOrchestrator.merge]
    split
    next hreq =>
      have hcov := h.covers k
      have hcov' := h'.covers k
      rw [h.flag hreq.1 k] at hcov ⊢
      rw [h'.flag hreq.2 k] at hcov'
      exact fun id hid => (mem_append.1 hid).elim (hcov id) (hcov' id)
    · exact (h.covers k).merge (h'.covers k)
  · simp only [ScheduleBatch.mergeBatch, BatchedPenalizerOrchestrator.merge] at hflag ⊢
    split at hflag
    next hreq =>
      rw [if_pos hreq]
      exact h.flag hreq.1 k
    · cases hflag

end Batches

/-! ## The scheduler -/

section Scheduler

variable {table : Nat → Req R}

open Scheduler

/-- A live batch: its penalizers have all outputs of its requests but the last ones, which come in next. -/
structure Good (table : Nat → Req R) (b : ScheduleBatch R) : Prop where
  tracks : Tracks table (fun id => (table id).outputIds.dropLast) b
  input : Forall₂ (fun id token => (table id).outputIds = (table id).outputIds.dropLast ++ [token])
    b.reqs b.inputIds

theorem Good.congr {table' : Nat → Req R} {b : ScheduleBatch R} (h : Good table b)
    (htable : ∀ id ∈ b.reqs, table' id = table id) : Good table' b where
  tracks := h.tracks.congr (fun id hid => by rw [htable id hid]; exact .refl _)
    fun id hid => .inl (by rw [htable id hid])
  input := by
    refine List.Forall₂.imp ?_ ((forall₂_and_left _ _).2 ⟨fun id hid => hid, h.input⟩)
    rintro id token ⟨hid, heq⟩
    rw [htable id hid]
    exact heq

theorem Tracks.good {table' : Nat → Req R} {history : Nat → List Nat} {b : ScheduleBatch R}
    (h : Tracks table' history b)
    (hout : Forall₂ (fun id token => (table' id).outputIds = history id ++ [token]) b.reqs b.inputIds) :
    Good table' b := by
  have hhist : ∀ id ∈ b.reqs, (table' id).outputIds.dropLast = history id := by
    intro id hid
    obtain ⟨i, hi, rfl⟩ := getElem_of_mem hid
    have := hout.get hi (hout.length_eq ▸ hi)
    simp only [get_eq_getElem] at this
    rw [this, dropLast_concat]
  refine ⟨h.congr (fun id _ => .refl _) fun id hid => .inl (hhist id hid), ?_⟩
  refine List.Forall₂.imp ?_ ((forall₂_and_left _ _).2 ⟨hhist, hout⟩)
  rintro id token ⟨hdrop, heq⟩
  rw [hdrop]
  exact heq

structure Sound (order : List Kind) (s : Scheduler R) : Prop where
  good : ∀ b ∈ s.batches, Good s.table b
  disjoint : s.batches.Pairwise fun b b' => ∀ id ∈ b.reqs, id ∉ b'.reqs
  samples : ∀ x ∈ s.samples, x.adjusted = own order x.req x.logits

variable {order : List Kind} {s s' : Scheduler R} {b : ScheduleBatch R} {place : Nat}

theorem Tracks.sampled_eq (h : Tracks table (fun id => (table id).outputIds) b)
    (hlen : logits.length = b.reqs.length) :
    ∀ x ∈ sampled table order b logits, x.adjusted = own order x.req x.logits := by
  rw [sampled, h.applyLogitsBias_eq order hlen]
  clear hlen
  generalize b.reqs = ids
  induction ids generalizing logits with
  | nil =>
    intro x hx
    cases hx
  | cons id ids ih =>
    cases logits with
    | nil =>
      intro x hx
      simp at hx
    | cons l logits =>
      intro x hx
      simp only [map_cons, zipWith_cons_cons, zip_cons_cons, mem_cons] at hx
      rcases hx with rfl | hx
      · rfl
      · exact ih x hx

theorem Sound.take (h : Sound order s) (hb : s.batches[place]? = some b) :
    Good s.table b ∧ (∀ b' ∈ s.batches.eraseIdx place, Good s.table b' ∧ ∀ id ∈ b.reqs, id ∉ b'.reqs) ∧
      (s.batches.eraseIdx place).Pairwise fun b b' => ∀ id ∈ b.reqs, id ∉ b'.reqs := by
  obtain ⟨hlt, rfl⟩ := List.getElem?_eq_some_iff.1 hb
  have hsymm : ∀ {b b' : ScheduleBatch R}, (∀ id ∈ b.reqs, id ∉ b'.reqs) → ∀ id ∈ b'.reqs, id ∉ b.reqs :=
    fun h id hid' hid => h id hid hid'
  have hpair := ((getElem_cons_eraseIdx_perm hlt).pairwise_iff hsymm).2 h.disjoint
  obtain ⟨hhead, hrest⟩ := pairwise_cons.1 hpair
  exact ⟨h.good _ (getElem_mem hlt),
    fun b' hb' => ⟨h.good b' (mem_of_mem_eraseIdx hb'), hhead b' hb'⟩, hrest⟩

theorem sound_put {batches : List (ScheduleBatch R)} {samples : List (Sample R)}
    (hgood : b.reqs ≠ [] → Good table b) (hothers : ∀ b' ∈ batches, Good table b' ∧ ∀ id ∈ b.reqs, id ∉ b'.reqs)
    (hpair : batches.Pairwise fun b b' => ∀ id ∈ b.reqs, id ∉ b'.reqs)
    (hsamples : ∀ x ∈ samples, x.adjusted = own order x.req x.logits) :
    Sound order ⟨table, put b batches, samples⟩ := by
  by_cases hnil : b.reqs = []
  · rw [put, if_pos hnil]
    exact ⟨fun b' hb' => (hothers b' hb').1, hpair, hsamples⟩
  · rw [put, if_neg hnil]
    refine ⟨fun b' hb' => ?_, pairwise_cons.2 ⟨fun b' hb' => (hothers b' hb').2, hpair⟩, hsamples⟩
    rcases mem_cons.1 hb' with rfl | hb'
    · exact hgood hnil
    · exact (hothers b' hb').1

theorem prepareForDecode_reqs (b : ScheduleBatch R) : b.prepareForDecode.reqs = b.reqs := by
  unfold ScheduleBatch.prepareForDecode
  split <;> rfl

theorem step_decode (h : Sound order s)
    (hstep : step order s (.decode place logits tokens) = some s') : Sound order s' := by
  obtain ⟨b, hb, hstep⟩ := Option.bind_eq_some_iff.1 hstep
  split at hstep
  next hlen =>
    cases hstep
    obtain ⟨hgood, hothers, hpair⟩ := h.take hb
    have htracks : Tracks s.table (fun id => (s.table id).outputIds) b.prepareForDecode :=
      hgood.tracks.prepareForDecode hgood.input
    have hreqs := prepareForDecode_reqs b
    have hfst : (b.reqs.zip tokens).map (·.1) = b.reqs := map_fst_zip (by omega)
    refine sound_put (fun _ => ?_) (fun b' hb' => ?_) hpair fun x hx => ?_
    · refine ((htracks.congr (fun id _ => append_sameParams s.table _ id) fun id _ => .inl rfl).withInput
        tokens).good ?_
      rw [forall₂_iff_zip]
      refine ⟨by simp only [hreqs]; omega, fun {id token} hmem => ?_⟩
      simp only [hreqs] at hmem ⊢
      rw [append_of_mem (by rw [hfst]; exact hgood.tracks.nodup) hmem]
    · obtain ⟨hgood', hdisj⟩ := hothers b' hb'
      refine ⟨hgood'.congr fun id hid => append_of_not_mem ?_, by simpa only [hreqs] using hdisj⟩
      rw [hreqs, hfst]
      exact fun hid' => hdisj id hid' hid
    · rcases mem_append.1 hx with hx | hx
      · exact h.samples x hx
      · exact htracks.sampled_eq (by rw [hreqs]; exact hlen.1) x hx
  · cases hstep

theorem step_filter (h : Sound order s)
    (hstep : step order s (.filter place keep) = some s') : Sound order s' := by
  obtain ⟨b, hb, hstep⟩ := Option.bind_eq_some_iff.1 hstep
  split at hstep
  next hkeep =>
    cases hstep
    obtain ⟨hgood, hothers, hpair⟩ := h.take hb
    refine sound_put (fun hne => ⟨hgood.tracks.filterBatch hkeep.1 hne, forall₂_filterBatch hgood.input hne⟩)
      (fun b' hb' => ?_) hpair h.samples
    obtain ⟨hgood', hdisj⟩ := hothers b' hb'
    exact ⟨hgood', fun id hid => hdisj id (filterBatch_subset b s.table keep id hid)⟩
  · cases hstep

theorem step_merge (h : Sound order s) {other : Nat}
    (hstep : step order s (.merge place other) = some s') : Sound order s' := by
  obtain ⟨b, hb, hstep⟩ := Option.bind_eq_some_iff.1 hstep
  obtain ⟨b', hb', hstep⟩ := Option.bind_eq_some_iff.1 hstep
  cases hstep
  obtain ⟨hgood, hothers, hpair⟩ := h.take hb
  -- the others without `b` are sound too
  have hrest : Sound order { s with batches := s.batches.eraseIdx place } :=
    ⟨fun x hx => (hothers x hx).1, hpair, h.samples⟩
  obtain ⟨hgood', hothers', hpair'⟩ := hrest.take hb'
  have hdisj := (hothers b' (mem_of_getElem? hb')).2
  refine sound_put (fun _ => ⟨hgood.tracks.mergeBatch hgood'.tracks hdisj, rel_append hgood.input hgood'.input⟩)
    (fun x hx => ⟨(hothers' x hx).1, fun id hid => ?_⟩) hpair' h.samples
  rcases mem_append.1 hid with hid | hid
  · exact (hothers x (mem_of_mem_eraseIdx hx)).2 id hid
  · exact (hothers' x hx).2 id hid

/-- The requests that stay after a prefill are those that got their last chunk. -/
theorem not_chunked_of_mem (b : ScheduleBatch R) (table : Nat → Req R) (chunked : List Nat)
    (hid : id ∈ (b.filterBatch table ((range b.reqs.length).filter fun i =>
      (b.reqs[i]?).any fun id => decide (id ∉ chunked))).reqs) : id ∉ chunked := by
  rcases filterBatch_cases b table _ (ne_nil_of_mem hid) with ⟨hlen, heq⟩ | ⟨-, -, heq⟩
  · rw [heq] at hid
    obtain ⟨i, hi, rfl⟩ := getElem_of_mem hid
    have hall := length_filter_eq_length_iff.1 (hlen.trans length_range.symm) i (mem_range.2 hi)
    simpa [getElem?_eq_getElem hi] using hall
  · rw [heq] at hid
    obtain ⟨i, hi, hget⟩ := mem_filterMap.1 hid
    have hany := (mem_filter.1 hi).2
    rw [hget] at hany
    simpa using hany

theorem step_prefill (h : Sound order s) {ids chunked : List Nat}
    (hfresh : Op.forgets s (.prefill ids chunked logits tokens) = false)
    (hstep : step order s (.prefill ids chunked logits tokens) = some s') : Sound order s' := by
  simp only [step] at hstep
  split at hstep
  next hcond =>
    obtain ⟨hnodup, hnew, hlogits, htokens⟩ := hcond
    cases hstep
    -- outputs from before the prefill are those of requests that ask for nothing
    have htracks : Tracks s.table (fun id => (s.table id).outputIds)
        ⟨ids, .init (ids.map s.table), []⟩ := by
      refine (tracks_init s.table hnodup []).congr (fun id _ => .refl _) fun id hid => ?_
      by_cases hout : (s.table id).outputIds = []
      · exact .inl hout
      · refine .inr fun k => Bool.eq_false_iff.2 fun hreq => ?_
        have hasks : (s.table id).asks = true := any_eq_true.2 ⟨k, k.mem_all, hreq⟩
        have hno := any_eq_false.1 hfresh id hid
        simp [hout, hasks] at hno
    generalize hpairs : ((ids.zip tokens).filter fun p => decide (p.1 ∉ chunked)) = pairs
    have hsub : ∀ p ∈ pairs, p ∈ ids.zip tokens ∧ p.1 ∉ chunked := by
      intro p hp
      rw [← hpairs, mem_filter] at hp
      simpa using hp
    have hfst : (pairs.map (·.1)).Nodup := by
      have hzip : ((ids.zip tokens).map (·.1)).Nodup := by
        rw [map_fst_zip (by omega)]
        exact hnodup
      rw [← hpairs]
      exact hzip.sublist (filter_sublist.map _)
    have hids : ∀ id ∈ pairs.map (·.1), id ∈ ids := by
      intro id hid
      obtain ⟨p, hp, rfl⟩ := mem_map.1 hid
      exact (of_mem_zip (hsub p hp).1).1
    have htracks' := (htracks.congr (fun id _ => append_sameParams s.table pairs id)
      fun id _ => .inl rfl).withInput tokens
    have hout : Forall₂ (fun id token => id ∉ chunked →
        (append s.table pairs id).outputIds = (s.table id).outputIds ++ [token]) ids tokens := by
      rw [forall₂_iff_zip]
      refine ⟨htokens.symm, fun {id token} hmem hnot => ?_⟩
      have hpair : (id, token) ∈ pairs := by
        rw [← hpairs, mem_filter]
        exact ⟨hmem, by simpa using hnot⟩
      rw [append_of_mem hfst hpair]
    refine sound_put (fun hne => ?_) (fun b' hb' => ?_) h.disjoint fun x hx => ?_
    · refine (htracks'.filterBatch (nodup_range.filter _) hne).good ?_
      refine List.Forall₂.imp ?_ ((forall₂_and_left _ _).2 ⟨fun id hid => hid, forall₂_filterBatch hout hne⟩)
      rintro id token ⟨hid, himp⟩
      exact himp (not_chunked_of_mem _ _ chunked hid)
    · refine ⟨(h.good b' hb').congr fun id hid => append_of_not_mem fun hid' =>
        hnew id (hids id hid') b' hb' hid, fun id hid => hnew id (filterBatch_subset _ _ _ id hid) b' hb'⟩
    · rcases mem_append.1 hx with hx | hx
      · exact h.samples x hx
      · exact htracks.sampled_eq hlogits x hx
  · cases hstep

/-- **Penalties depend on the request's own history.** In every run in which no request comes back with
    outputs and a penalty, every row was adjusted as the parameters and the outputs of its request ask for. -/
theorem samples_own_history (order : List Kind) {table : Nat → Req R} {s : Scheduler R}
    (h : Run.Reaches (step order) (fun s op => Op.forgets s op = false) ⟨table, [], []⟩ s) :
    ∀ x ∈ s.samples, x.adjusted = own order x.req x.logits := by
  have hsound : Sound order s := by
    refine h.invariant ⟨by simp, .nil, by simp⟩ fun s op s' hs hop hstep => ?_
    cases op with
    | prefill ids chunked logits tokens => exact step_prefill hs hop hstep
    | merge place other => exact step_merge hs hstep
    | filter place keep => exact step_filter hs hstep
    | decode place logits tokens => exact step_decode hs hstep
  exact hsound.samples

/-- Request 0 asks for a frequency penalty and for two tokens, the others for nothing. -/
def exampleTable (id : Nat) : Req ℚ :=
  ⟨if id = 0 then ⟨1, 0, 1, 2, none⟩ else ⟨0, 0, 1, 0, none⟩, ⟨none, 9⟩, []⟩

/-- A request without penalties is retracted and comes back, the other one goes on. -/
def exampleOps : List (Op ℚ) :=
  [.prefill [0, 1] [] [0, 0] [5, 5], .decode 0 [0, 0] [5, 6], .filter 0 [0],
    .prefill [1] [] [0] [5], .merge 1 0, .decode 0 [0, 0] [7, 7]]

/-- What is sampled in that run: the penalties of request 0 follow its outputs 5, 5. -/
theorem samples_own_history_retracted :
    ∃ s, Run.Reaches (step Kind.all) (fun s op => Op.forgets s op = false) ⟨exampleTable, [], []⟩ s ∧
      (s.samples.map fun x => (x.adjusted 5, x.adjusted 9)) =
        [(0, ⊥), (0, 0), (((-1 : ℚ) : WithBot ℚ), ⊥), (0, 0), (0, 0), (((-2 : ℚ) : WithBot ℚ), 0), (0, 0)] ∧
      ∀ x ∈ s.samples, x.adjusted = own Kind.all x.req x.logits := by
  obtain ⟨s, hs, hsamples⟩ := Option.map_eq_some_iff.1 (show
    (Run.exec (fun s op => if Op.forgets s op = false then step Kind.all s op else none)
      ⟨exampleTable, [], []⟩ exampleOps).map
        (fun s => s.samples.map fun x => (x.adjusted 5, x.adjusted 9)) =
      some [(0, ⊥), (0, 0), (((-1 : ℚ) : WithBot ℚ), ⊥), (0, 0), (0, 0), (((-2 : ℚ) : WithBot ℚ), 0), (0, 0)]
    by decide +kernel)
  have hreach := Run.reaches_of_exec_guarded hs
  exact ⟨s, hreach, hsamples, samples_own_history Kind.all hreach⟩

/-- **A request that comes back is not penalised for its earlier outputs.** Request 0 has output 5 twice when
    it is retracted; when it comes back, the logit of 5 is left as it is. -/
theorem samples_forget_history :
    ∃ s, Run.Reaches (step Kind.all) (fun _ _ => True) ⟨exampleTable, [], []⟩ s ∧
      ∃ x ∈ s.samples, x.req.outputIds = [5, 5] ∧ x.adjusted 5 = 0 ∧
        own Kind.all x.req x.logits 5 = ((-2 : ℚ) : WithBot ℚ) := by
  obtain ⟨s, hs, hsamples⟩ := Option.map_eq_some_iff.1 (show
    (Run.exec (step Kind.all) ⟨exampleTable, [], []⟩
      [.prefill [0, 1] [] [0, 0] [5, 5], .decode 0 [0, 0] [5, 6], .filter 0 [1], .prefill [0] [] [0] [7]]).map
        (fun s => s.samples.any fun x => decide (x.req.outputIds = [5, 5] ∧ x.adjusted 5 = 0 ∧
          own Kind.all x.req x.logits 5 = ((-2 : ℚ) : WithBot ℚ))) = some true
    by decide +kernel)
  obtain ⟨x, hx, hcond⟩ := any_eq_true.1 hsamples
  exact ⟨s, Run.reaches_of_exec hs, x, hx, of_decide_eq_true hcond⟩

end Scheduler

end Penalty
