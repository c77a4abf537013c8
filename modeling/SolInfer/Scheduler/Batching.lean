import SolInfer.Lib.Positions
import SolInfer.Lib.Run
import SolInfer.Scheduler.Admission

set_option autoImplicit false

/-! # Forming batches

`get_next_batch_to_run` of `managers/scheduler.py`: the head of the waiting queue, with the requests
behind it that are compatible with it, in their order. What only feeds metrics is left out. -/

namespace Scheduler

variable {ι σ ρ π F : Type}

/-- What waits in the queue: a request, or a payload of another kind. -/
inductive Payload (σ ρ π : Type) where
  | request (req : Req σ ρ)
  | other (payload : π)
deriving DecidableEq, Repr

/-- `(identity, req, enqueue_time)`. -/
structure Entry (ι σ ρ π F : Type) where
  identity : ι
  payload : Payload σ ρ π
  enqueueTime : F
deriving DecidableEq, Repr

/-- `(identity, req)`. -/
abbrev Item (ι σ ρ π : Type) := ι × Payload σ ρ π

def Entry.item (entry : Entry ι σ ρ π F) : Item ι σ ρ π := (entry.identity, entry.payload)

/-- What the scheduler reads of its settings: `batching_max_size` and `batching_delay_s`, the admission
    controller, and `supports_dynamic_batching()` of the pipeline, if it has one. -/
structure Config (σ ρ F : Type) where
  batchingMaxSize : Int
  batchingDelayS : F
  admission : Controller σ ρ F
  supportsDynamicBatching : Option Bool := none
  /-- The controller is given the same size. -/
  userMax_eq : admission.userMaxBatchSize = max 1 batchingMaxSize

section Compatible

variable [DecidableEq σ]

def canDynamicBatch (base candidate : Req σ ρ) : Bool :=
  if base.isWarmup ∨ candidate.isWarmup then false
  else if ¬ base.promptIsStr ∨ ¬ candidate.promptIsStr then false
  else if base.imagePath ≠ none ∨ candidate.imagePath ≠ none then false
  else if base.returnFilePathsOnly ≠ candidate.returnFilePathsOnly then false
  else base.signature.isSome && decide (base.signature = candidate.signature)

end Compatible

variable [LinearOrder F] [DecidableEq σ]

def dynamicBatchingEnabled (c : Config σ ρ F) : Bool :=
  c.admission.enabled && c.supportsDynamicBatching.getD true

variable [Add F] [Zero F]

/-- `compatible_indices` and `compatible_reqs`. -/
structure Selection (σ ρ : Type) where
  indices : List Nat
  reqs : List (Req σ ρ)

def Selection.isFull (c : Config σ ρ F) (s : Selection σ ρ) : Bool :=
  decide (c.batchingMaxSize ≤ s.indices.length) || c.admission.batchIsFull s.reqs

def Selection.consider (c : Config σ ρ F) (head : Req σ ρ) (queue : List (Entry ι σ ρ π F)) (idx : Nat)
    (s : Selection σ ρ) : Selection σ ρ :=
  match queue[idx]? with
  | some ⟨_, .request candidate, _⟩ =>
    if canDynamicBatch head candidate then
      match c.admission.rejectReasonForCandidate s.reqs candidate with
      | none => ⟨s.indices ++ [idx], s.reqs ++ [candidate]⟩
      | some _ => s
    else s
  | _ => s

def select (c : Config σ ρ F) (head : Req σ ρ) (queue : List (Entry ι σ ρ π F)) :
    List Nat → Selection σ ρ → Selection σ ρ
  | [], s => s
  | idx :: rest, s => if s.isFull c then s else select c head queue rest (s.consider c head queue idx)

/-- The loop that moves the selected items from the queue to `batch_items`, the last first. It raises when
    an index is out of range. -/
def takeOut (batchLen : Nat) :
    List Nat → Nat → List (Option (Item ι σ ρ π)) → List (Entry ι σ ρ π F) →
      Option (List (Option (Item ι σ ρ π)) × List (Entry ι σ ρ π F))
  | [], _, batchItems, queue => some (batchItems, queue)
  | idx :: rest, pos, batchItems, queue =>
    match queue[idx]? with
    | none => none
    | some entry =>
      takeOut batchLen rest (pos + 1) (batchItems.set (batchLen - 1 - pos) (some entry.item))
        (queue.eraseIdx idx)

/-- A call raises, waits for more requests, or dispatches a batch; with the queue it leaves. -/
inductive Outcome (ι σ ρ π F : Type) where
  | raised
  | wait (queue : List (Entry ι σ ρ π F))
  | batch (items : List (Option (Item ι σ ρ π))) (queue : List (Entry ι σ ρ π F))
deriving DecidableEq, Repr

/-- `get_next_batch_to_run` at the time `now`. -/
def getNextBatchToRun [Sub F] (c : Config σ ρ F) (now : F) (queue : List (Entry ι σ ρ π F)) : Outcome ι σ ρ π F :=
  match queue with
  | [] => .wait []
  | head :: rest =>
    if ¬ dynamicBatchingEnabled c then .batch [some head.item] rest
    else
      match head.payload with
      | .other _ => .batch [some head.item] rest
      | .request req =>
        if ¬ canDynamicBatch req req then .batch [some head.item] rest
        else
          let s := select c req queue ((List.range queue.length).drop 1) ⟨[0], [req]⟩
          let batchLen := s.indices.length
          if batchLen < c.batchingMaxSize ∧ ¬ c.admission.batchIsFull s.reqs ∧
              now - head.enqueueTime < c.batchingDelayS then
            .wait queue
          else
            match takeOut batchLen s.indices.reverse 0 (List.replicate batchLen none) queue with
            | none => .raised
            | some (items, queue) => .batch items queue

/-! ## What a batch is -/

def Entry.request? (entry : Entry ι σ ρ π F) : Option (Req σ ρ) :=
  match entry.payload with
  | .request req => some req
  | .other _ => none

def headRequest? (queue : List (Entry ι σ ρ π F)) : Option (Req σ ρ) := queue.head?.bind Entry.request?

/-- A batch of several entries keeps the caps for its head. -/
structure WithinLimits (c : Config σ ρ F) (head : Req σ ρ) (entries : List (Entry ι σ ρ π F)) : Prop where
  maxSize : (entries.length : Int) ≤ c.batchingMaxSize
  limit : (entries.length : Int) ≤ (c.admission.limitFor head).maxBatchSize
  cost : ∀ rule ∈ c.admission.matchingRules head, ∀ maxCost ∈ rule.maxCost,
    c.admission.estimateBatchCost (entries.filterMap Entry.request?) ≤ maxCost

/-- A batch is formed from a queue at increasing positions, of which the first is the head. Behind the
    head there are only requests compatible with it, and if there are any, the batch is within the
    limits. -/
structure Formed (c : Config σ ρ F) (queue : List (Entry ι σ ρ π F)) (indices : List Nat) : Prop where
  positions : Positions.Ascending indices queue
  head : indices.head? = some 0
  compatible : ∀ entry ∈ Positions.pick indices.tail queue, ∃ base candidate,
    headRequest? queue = some base ∧ entry.request? = some candidate ∧ canDynamicBatch base candidate = true
  limits : 2 ≤ indices.length → ∃ base, headRequest? queue = some base ∧
    WithinLimits c base (Positions.pick indices queue)

/-- What a call may do to a queue: nothing, or dispatch a batch formed from it and leave the rest. -/
def Sound (c : Config σ ρ F) (queue : List (Entry ι σ ρ π F)) : Outcome ι σ ρ π F → Prop
  | .raised => False
  | .wait left => left = queue
  | .batch items left => ∃ indices, Formed c queue indices ∧
      items = (Positions.pick indices queue).map (fun entry => some entry.item) ∧
      left = Positions.without indices queue

/-! ## Runs -/

inductive Event (ι σ ρ π F : Type) where
  | enqueue (entries : List (Entry ι σ ρ π F))
  | next (now : F)

/-- The queue, with all entries that came in and all items that went out. -/
structure Ledger (ι σ ρ π F : Type) where
  queue : List (Entry ι σ ρ π F) := []
  received : List (Entry ι σ ρ π F) := []
  dispatched : List (Option (Item ι σ ρ π)) := []

def step [Sub F] (c : Config σ ρ F) (s : Ledger ι σ ρ π F) : Event ι σ ρ π F → Option (Ledger ι σ ρ π F)
  | .enqueue entries =>
    some { s with queue := s.queue ++ entries, received := s.received ++ entries }
  | .next now =>
    match getNextBatchToRun c now s.queue with
    | .raised => none
    | .wait queue => some { s with queue := queue }
    | .batch items queue => some { s with queue := queue, dispatched := s.dispatched ++ items }


/-! ## Batches are formed soundly

The loop over the candidates keeps a selection of positions that fits together; what is selected is then
taken out of the queue, the last position first. -/

open List

open Positions

variable {c : Config σ ρ F} {queue rest : List (Entry ι σ ρ π F)} {head : Entry ι σ ρ π F}
  {req : Req σ ρ}

/-! ## Admission -/

omit [Add F] [Zero F] in
theorem rejectReason_eq_none {limit : AdmissionLimit F} {batchSize : Int} {batchCost : F}
    (h : limit.rejectReason batchSize batchCost = none) :
    batchSize ≤ limit.maxBatchSize ∧ ∀ maxCost ∈ limit.maxCost, batchCost ≤ maxCost := by
  unfold AdmissionLimit.rejectReason at h
  split at h
  · cases h
  next hsize =>
    refine ⟨not_lt.1 hsize, fun maxCost hmax => ?_⟩
    rw [Option.mem_def.1 hmax] at h
    dsimp only at h
    split at h
    · cases h
    next hcost => exact not_lt.1 hcost

omit [DecidableEq σ] [Add F] [Zero F] in
theorem limitFor_maxCost {c : Controller σ ρ F} {rule : BatchingRule F} {maxCost : F}
    (hrule : rule ∈ c.matchingRules req) (hcost : maxCost ∈ rule.maxCost) :
    ∃ budget ∈ (c.limitFor req).maxCost, budget ≤ maxCost := by
  have hmem : maxCost ∈ (c.matchingRules req).filterMap BatchingRule.maxCost :=
    mem_filterMap.2 ⟨rule, hrule, hcost⟩
  obtain ⟨budget, hbudget⟩ := Option.isSome_iff_exists.1 (isSome_min?_of_mem hmem)
  have hsize : ((c.matchingRules req).map BatchingRule.maxBatchSize).min?.isSome :=
    isSome_min?_of_mem (mem_map_of_mem hrule)
  obtain ⟨configCap, hcap⟩ := Option.isSome_iff_exists.1 hsize
  refine ⟨budget, ?_, (min?_eq_some_iff.1 hbudget).2 maxCost hmem⟩
  simp only [Controller.limitFor, hcap]
  exact hbudget

/-! ## Selecting -/

/-- A selection: positions behind the head, the requests found there, and their fitness. -/
structure Selected (c : Config σ ρ F) (queue : List (Entry ι σ ρ π F)) (req : Req σ ρ)
    (s : Selection σ ρ) (behind : List Nat) (others : List (Req σ ρ)) : Prop where
  indices : s.indices = 0 :: behind
  reqs : s.reqs = req :: others
  positions : Ascending (0 :: behind) queue
  requests : (pick behind queue).map Entry.request? = others.map some
  compatible : ∀ candidate ∈ others, canDynamicBatch req candidate = true
  limits : others ≠ [] → (s.reqs.length : Int) ≤ c.batchingMaxSize ∧
    (c.admission.limitFor req).rejectReason s.reqs.length (c.admission.estimateBatchCost s.reqs) = none

section

variable {s : Selection σ ρ} {behind : List Nat} {others : List (Req σ ρ)}
  (h : Selected c queue req s behind others)
include h

theorem Selected.length : others.length = behind.length := by
  have hlength := congrArg List.length h.requests
  rw [length_map, length_map] at hlength
  rw [← hlength, pick, length_filterMap_eq_countP, countP_eq_length]
  intro i hi
  simpa using h.positions.inRange i (mem_cons_of_mem 0 hi)

/-- **Step**: a candidate behind everything selected is added or left. -/
theorem Selected.consider (henabled : c.admission.enabled = true) (hroom : s.isFull c = false) {idx : Nat}
    (hidx : idx < queue.length) (hbelow : ∀ i ∈ s.indices, i < idx) :
    ∃ behind' others', Selected c queue req (s.consider c req queue idx) behind' others' ∧
      ∀ i ∈ (s.consider c req queue idx).indices, i ≤ idx := by
  have hkeep : ∃ behind' others', Selected c queue req s behind' others' ∧ ∀ i ∈ s.indices, i ≤ idx :=
    ⟨behind, others, h, fun i hi => (hbelow i hi).le⟩
  unfold Selection.consider
  split
  next identity candidate enqueueTime hentry =>
    split
    next hcompatible =>
      split
      next hadmitted =>
        refine ⟨behind ++ [idx], others ++ [candidate], ⟨?_, ?_, ⟨?_, ?_⟩, ?_, ?_, ?_⟩, ?_⟩
        · rw [h.indices, cons_append]
        · rw [h.reqs, cons_append]
        · rw [← cons_append, pairwise_append]
          refine ⟨h.positions.increasing, pairwise_singleton _ _, ?_⟩
          rintro i hi j (_ | ⟨_, ⟨⟩⟩)
          exact hbelow i (h.indices ▸ hi)
        · intro i hi
          rw [← cons_append] at hi
          rcases mem_append.1 hi with hi | hi
          · exact h.positions.inRange i hi
          · rw [mem_singleton.1 hi]; exact hidx
        · have hget : queue[idx] = ⟨identity, .request candidate, enqueueTime⟩ :=
            (List.getElem?_eq_some_iff.1 hentry).2
          rw [pick_concat hidx, List.map_append, List.map_append, h.requests, hget]
          rfl
        · intro r hr
          rcases mem_append.1 hr with hr | hr
          · exact h.compatible r hr
          · rw [mem_singleton.1 hr]; exact hcompatible
        · intro _
          have hfull : (s.indices.length : Int) < c.batchingMaxSize := by
            simp only [Selection.isFull, Bool.or_eq_false_iff, decide_eq_false_iff_not, not_le] at hroom
            exact hroom.1
          refine ⟨?_, ?_⟩
          · have hlength := h.length
            rw [h.indices, length_cons] at hfull
            rw [length_append, h.reqs, length_cons, length_singleton]
            omega
          · simp only [Controller.rejectReasonForCandidate, henabled, not_true_eq_false, if_false,
              h.reqs, cons_append] at hadmitted
            rw [h.reqs, cons_append]
            exact hadmitted
        · intro i hi
          rcases mem_append.1 hi with hi | hi
          · exact (hbelow i hi).le
          · exact (mem_singleton.1 hi).le
      · exact hkeep
    · exact hkeep
  · exact hkeep

/-- **Run**: the loop over increasing positions. -/
theorem Selected.select {positions : List Nat} (henabled : c.admission.enabled = true)
    (hincreasing : positions.Pairwise (· < ·))
    (hrange : ∀ j ∈ positions, j < queue.length ∧ ∀ i ∈ s.indices, i < j) :
    ∃ behind' others', Selected c queue req (select c req queue positions s) behind' others' := by
  induction positions generalizing s behind others with
  | nil => exact ⟨behind, others, h⟩
  | cons idx later ih =>
    unfold Scheduler.select
    split
    · exact ⟨behind, others, h⟩
    next hroom =>
      obtain ⟨hidx, hbelow⟩ := hrange idx mem_cons_self
      obtain ⟨hlater, hincreasing'⟩ := pairwise_cons.1 hincreasing
      obtain ⟨behind', others', h', hle⟩ :=
        h.consider henabled (Bool.not_eq_true _ ▸ hroom) hidx hbelow
      refine ih h' hincreasing' fun j hj => ⟨(hrange j (mem_cons_of_mem idx hj)).1, ?_⟩
      intro i hi
      exact lt_of_le_of_lt (hle i hi) (hlater j hj)

end

/-! ## Taking out -/

omit [LinearOrder F] [DecidableEq σ] [Add F] [Zero F] in
/-- **The removal loop** fills the list from its end, and leaves the queue without the positions. -/
theorem takeOut_eq {batchLen : Nat} {indices : List Nat} {pos : Nat}
    {batchItems : List (Option (Item ι σ ρ π))} (h : Ascending indices queue)
    (hpos : pos + indices.length = batchLen) (hlength : batchItems.length = batchLen) :
    takeOut batchLen indices.reverse pos batchItems queue =
      some ((pick indices queue).map (fun entry => some entry.item) ++ batchItems.drop indices.length,
        without indices queue) := by
  induction indices using reverseRecOn generalizing pos batchItems queue with
  | nil => simp [takeOut, pick, without_nil]
  | append_singleton indices i ih =>
    obtain ⟨hi, hlt, hinit⟩ := h.init
    rw [length_append, length_singleton] at hpos
    have hslot : batchLen - 1 - pos = indices.length := by omega
    have hroom : indices.length < batchItems.length := by omega
    rw [reverse_append, reverse_singleton, singleton_append, takeOut, getElem?_eq_getElem hi]
    dsimp only
    rw [ih hinit (by omega) (by rw [length_set, hlength]), hslot, pick_eraseIdx hlt,
      without_concat hi hlt, pick_concat hi, map_append, append_assoc]
    congr 3
    rw [length_append, length_singleton,
      drop_eq_getElem_cons (by rw [length_set]; exact hroom), getElem_set_self,
      drop_set_of_lt (Nat.lt_succ_self _)]
    rfl

/-! ## Calls -/

theorem formed_head (c : Config σ ρ F) (head : Entry ι σ ρ π F) (rest : List (Entry ι σ ρ π F)) :
    Formed c (head :: rest) [0] := by
  refine ⟨⟨pairwise_singleton _ _, ?_⟩, rfl, ?_, ?_⟩
  · rintro i (_ | ⟨_, ⟨⟩⟩)
    exact Nat.zero_lt_succ _
  · rintro entry ⟨⟩
  · intro hlength
    exact absurd hlength (by decide)

theorem sound_head (c : Config σ ρ F) (head : Entry ι σ ρ π F) (rest : List (Entry ι σ ρ π F)) :
    Sound c (head :: rest) (.batch [some head.item] rest) := by
  refine ⟨[0], formed_head c head rest, rfl, ?_⟩
  have hwithout : without [] ((head :: rest).eraseIdx 0) = without ([] ++ [0]) (head :: rest) :=
    without_concat (Nat.zero_lt_succ _) (by simp)
  rwa [without_nil] at hwithout

theorem Selected.formed {s : Selection σ ρ} {behind : List Nat} {others : List (Req σ ρ)}
    (h : Selected c (head :: rest) req s behind others) (hreq : head.payload = .request req) :
    Formed c (head :: rest) s.indices := by
  have hbase : headRequest? (head :: rest) = some req := by
    simp [headRequest?, Entry.request?, hreq]
  have hpick : pick (0 :: behind) (head :: rest) = head :: pick behind (head :: rest) := rfl
  have hrequests : (pick (0 :: behind) (head :: rest)).filterMap Entry.request? = req :: others := by
    have hhead : head.request? = some req := by simp [Entry.request?, hreq]
    have hothers : (pick behind (head :: rest)).filterMap Entry.request? = others := by
      have hsome := congrArg (filterMap id) h.requests
      simpa [filterMap_map] using hsome
    rw [hpick, filterMap_cons_some hhead, hothers]
  refine ⟨h.indices ▸ h.positions, by rw [h.indices]; rfl, ?_, ?_⟩
  · intro entry hentry
    rw [h.indices, tail_cons] at hentry
    have hmem : entry.request? ∈ others.map some := h.requests ▸ mem_map_of_mem hentry
    obtain ⟨candidate, hcandidate, heq⟩ := mem_map.1 hmem
    exact ⟨req, candidate, hbase, heq.symm, h.compatible candidate hcandidate⟩
  · intro hseveral
    have hne : others ≠ [] := by
      rintro rfl
      have hlength := h.length
      rw [h.indices, length_cons, ← hlength] at hseveral
      simp at hseveral
    obtain ⟨hmaxSize, hadmitted⟩ := h.limits hne
    obtain ⟨hlimit, hcost⟩ := rejectReason_eq_none hadmitted
    have hlength : (pick s.indices (head :: rest)).length = s.reqs.length := by
      rw [h.indices, hpick, h.reqs, length_cons, length_cons]
      have := congrArg List.length h.requests
      simpa using this
    refine ⟨req, hbase, ?_, ?_, ?_⟩
    · rw [hlength]; exact hmaxSize
    · rw [hlength]; exact hlimit
    · intro rule hrule maxCost hmax
      obtain ⟨budget, hbudget, hle⟩ := limitFor_maxCost hrule hmax
      rw [h.indices, hrequests, ← h.reqs]
      exact (hcost budget hbudget).trans hle

theorem selected_start (c : Config σ ρ F) (req : Req σ ρ) (head : Entry ι σ ρ π F)
    (rest : List (Entry ι σ ρ π F)) : Selected c (head :: rest) req ⟨[0], [req]⟩ [] [] := by
  refine ⟨rfl, rfl, (formed_head c head rest).positions, rfl, ?_, fun hne => absurd rfl hne⟩
  rintro candidate ⟨⟩

variable [Sub F]

theorem getNextBatchToRun_sound (c : Config σ ρ F) (now : F) (queue : List (Entry ι σ ρ π F)) :
    Sound c queue (getNextBatchToRun c now queue) := by
  cases queue with
  | nil => exact rfl
  | cons head rest =>
    unfold getNextBatchToRun
    dsimp only
    split
    · exact sound_head c head rest
    next henabled =>
      split
      · exact sound_head c head rest
      next req hreq =>
        split
        · exact sound_head c head rest
        · split
          · exact rfl
          · have hadmission : c.admission.enabled = true := by
              rw [not_not, dynamicBatchingEnabled, Bool.and_eq_true] at henabled
              exact henabled.1
            -- the candidates are the positions behind the head
            have hpositions : (range (head :: rest).length).drop 1 =
                range' 1 rest.length := by
              rw [length_cons, range_eq_range', range'_succ, drop_one, tail_cons]
            obtain ⟨behind, others, hselected⟩ := (selected_start c req head rest).select hadmission
              (hpositions ▸ pairwise_lt_range')
              (by
                rw [hpositions]
                intro j hj
                obtain ⟨hle, hlt⟩ := mem_range'_1.1 hj
                refine ⟨by rw [length_cons]; omega, ?_⟩
                rintro i (_ | ⟨_, ⟨⟩⟩)
                omega)
            have hformed := hselected.formed hreq
            rw [takeOut_eq hformed.positions (Nat.zero_add _) (length_replicate ..)]
            refine ⟨_, hformed, ?_, rfl⟩
            simp

/-- **A call waits and leaves the queue as it is, or dispatches a batch** that is formed from it: not empty,
    the head first, behind it only compatible requests, within the limits when there are several, and
    taken out of the queue at exactly its positions. -/
theorem getNextBatchToRun_forms_batch (c : Config σ ρ F) (now : F) (queue : List (Entry ι σ ρ π F)) :
    getNextBatchToRun c now queue = .wait queue ∨
      ∃ indices, Formed c queue indices ∧ pick indices queue ≠ [] ∧
        getNextBatchToRun c now queue =
          .batch ((pick indices queue).map (fun entry => some entry.item)) (without indices queue) := by
  have hsound := getNextBatchToRun_sound c now queue
  cases houtcome : getNextBatchToRun c now queue with
  | raised => rw [houtcome] at hsound; exact hsound.elim
  | wait left =>
    rw [houtcome] at hsound
    exact .inl (congrArg Outcome.wait hsound)
  | batch items left =>
    rw [houtcome] at hsound
    obtain ⟨indices, hformed, rfl, rfl⟩ := hsound
    refine .inr ⟨indices, hformed, ?_, rfl⟩
    obtain ⟨behind, rfl⟩ := head?_eq_some_iff.1 hformed.head
    have hzero : 0 < queue.length := hformed.positions.inRange 0 mem_cons_self
    simp [pick, hzero]

def pairs : Config Unit Unit ℚ where
  batchingMaxSize := 2
  batchingDelayS := 0
  admission := ⟨"dynamic", 2, "model", false, none, [], fun _ => 1⟩
  userMax_eq := rfl

/-- A warmup request is dispatched although it is not compatible with any request, itself included. -/
theorem getNextBatchToRun_warmup :
    let req : Req Unit Unit := ⟨true, true, none, false, some (), none, none, ()⟩
    let head : Entry Unit Unit Unit Unit ℚ := ⟨(), .request req, 0⟩
    getNextBatchToRun pairs 0 [head] = .batch [some head.item] [] ∧ canDynamicBatch req req = false := by
  decide +kernel

/-- Every entry that came in is waiting or has been dispatched, once. -/
def Conserves (s : Ledger ι σ ρ π F) : Prop :=
  (s.dispatched ++ s.queue.map (fun entry => some entry.item)).Perm
    (s.received.map (fun entry => some entry.item))

omit [Sub F] in
theorem Sound.perm {items : List (Option (Item ι σ ρ π))} {left : List (Entry ι σ ρ π F)}
    (h : Sound c queue (.batch items left)) :
    (items ++ left.map (fun entry => some entry.item)).Perm
      (queue.map (fun entry => some entry.item)) ∧ left <+ queue := by
  obtain ⟨indices, hformed, rfl, rfl⟩ := h
  rw [← map_append]
  refine ⟨(pick_append_without_perm hformed.positions).map _, ?_⟩
  have hsub : without indices queue <+ queue.zipIdx.map Prod.fst := filter_sublist.map _
  rwa [zipIdx_map_fst] at hsub

/-- A step succeeds, loses nothing, dispatches nothing twice and keeps the order of what waits. -/
theorem step_conserves {s : Ledger ι σ ρ π F} (hs : Conserves s ∧ s.queue <+ s.received)
    (e : Event ι σ ρ π F) : ∃ s', step c s e = some s' ∧ Conserves s' ∧ s'.queue <+ s'.received := by
  cases e with
  | enqueue entries =>
    refine ⟨_, rfl, ?_, hs.2.append_right _⟩
    simp only [Conserves, map_append, ← append_assoc]
    exact hs.1.append_right _
  | next now =>
    have hsound := getNextBatchToRun_sound c now s.queue
    rw [step]
    generalize getNextBatchToRun c now s.queue = outcome at hsound ⊢
    cases outcome with
    | raised => exact hsound.elim
    | wait left =>
      cases hsound
      exact ⟨_, rfl, hs⟩
    | batch items left =>
      obtain ⟨hperm, hsub⟩ := hsound.perm
      refine ⟨_, rfl, ?_, hsub.trans hs.2⟩
      simp only [Conserves, append_assoc]
      exact (hperm.append_left _).trans hs.1

/-- **Nothing is lost or dispatched twice**, whatever comes in and whenever batches are asked for; what waits
    is in the order in which it came; and no call raises. -/
theorem run_conserves {s : Ledger ι σ ρ π F}
    (h : Run.Reaches (step c) (fun _ _ => True) {} s) :
    Conserves s ∧ s.queue <+ s.received ∧ ∀ e, step c s e ≠ none := by
  have hs : Conserves s ∧ s.queue <+ s.received := by
    refine h.invariant (I := fun s => Conserves s ∧ s.queue <+ s.received) ⟨.refl _, .refl _⟩ ?_
    intro s e s' hs _ hstep
    obtain ⟨t, ht, hkeeps⟩ := step_conserves hs e
    rw [ht] at hstep
    cases hstep
    exact hkeeps
  refine ⟨hs.1, hs.2, fun e hnone => ?_⟩
  obtain ⟨t, ht, -⟩ := step_conserves hs e
  rw [ht] at hnone
  cases hnone

def plainReq : Req Unit Unit := ⟨false, true, none, false, some (), none, none, ()⟩

/-- Two of three requests are dispatched as one batch, past a payload of another kind between them. -/
theorem run_conserves_two : ∃ s : Ledger Nat Unit Unit Unit ℚ, Conserves s ∧
    s.dispatched = [some (0, .request plainReq), some (2, .request plainReq)] ∧
    Run.exec (step pairs) {}
      [.enqueue [⟨0, .request plainReq, 0⟩, ⟨1, .other (), 0⟩, ⟨2, .request plainReq, 1⟩],
        .enqueue [⟨3, .request plainReq, 1⟩], .next 1] = some s := by
  obtain ⟨s, hs, hdispatched⟩ : ∃ s : Ledger Nat Unit Unit Unit ℚ, Run.exec (step pairs) {}
      [.enqueue [⟨0, .request plainReq, 0⟩, ⟨1, .other (), 0⟩, ⟨2, .request plainReq, 1⟩],
        .enqueue [⟨3, .request plainReq, 1⟩], .next 1] = some s ∧
      s.dispatched = [some (0, .request plainReq), some (2, .request plainReq)] := ⟨_, rfl, by decide +kernel⟩
  exact ⟨s, (run_conserves (Run.reaches_of_exec hs)).1, hdispatched, hs⟩

end Scheduler
