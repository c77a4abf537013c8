import Mathlib.Algebra.Order.Ring.Rat
import Mathlib.Algebra.BigOperators.Group.List.Basic
import Mathlib.Data.List.Nodup
import Mathlib.Data.Prod.Lex
import Mathlib.Tactic.Linarith
import Mathlib.Tactic.Ring

set_option autoImplicit false

/-! # Priority preemption

`preempt_to_schedule` of `managers/schedule_policy.py`: a new request may push running requests out of the
batch, the least important ones first, until their estimated tokens make room for it. Numbers of tokens are
rational, since the estimates are scaled by a ratio. -/

open List

namespace Preemption

/-- A request, as far as preemption reads it. `object` tells requests apart. -/
structure Req where
  object : Nat
  priority : Int
  waitQueueEntryTime : ℚ
  maxNewTokens : Int
  /-- `len(output_ids)` -/
  numOutputIds : Nat
  extendInputLen : Int
  finished : Bool
deriving DecidableEq, Repr

structure Config where
  scheduleLowPriorityValuesFirst : Bool
  preemptionThreshold : Int
  newTokenRatio : ℚ
  /-- `CLIP_MAX_NEW_TOKENS` -/
  clipMaxNewTokens : Int

variable (c : Config)

/-- `_get_running_request_total_token_offset`. -/
def Config.totalTokenOffset (r : Req) : ℚ :=
  (min (r.maxNewTokens - r.numOutputIds) c.clipMaxNewTokens : Int) * c.newTokenRatio

def Config.prioritySign : Int := if c.scheduleLowPriorityValuesFirst then 1 else -1

/-- The key of the sort: the priority with a sign that makes important requests large, then the requests
    that came last. -/
def Config.sortKey (r : Req) : ℤ ×ₗ ℚ := toLex (r.priority * -c.prioritySign, -r.waitQueueEntryTime)

/-- The difference in priority that is held against the threshold. -/
def Config.priorityDiff (req r : Req) : Int := (req.priority - r.priority) * -c.prioritySign

/-- The loop over the sorted requests: those that are taken, and the tokens that are still to remove. -/
def Config.collect (req : Req) : ℚ → List Req → List Req × ℚ
  | toRemove, [] => ([], toRemove)
  | toRemove, r :: rest =>
    if c.preemptionThreshold < c.priorityDiff req r then
      let toRemove := toRemove - c.totalTokenOffset r
      if toRemove ≤ 0 then ([r], toRemove)
      else
        let (taken, toRemove) := collect req toRemove rest
        (r :: taken, toRemove)
    else ([], toRemove)

/-- What the second loop leaves behind: `release_req` is called with an index and the number of requests
    that remain. -/
structure Sweep where
  remTotalTokenOffset : ℚ
  released : List (Nat × Nat)
  keepIndices : List Nat

/-- The second loop, over the running requests from index `i` on. -/
def Config.sweep (taken : List Req) (n : Nat) : Nat → List Req → Sweep → Sweep
  | _, [], s => s
  | i, r :: rest, s =>
    if r ∈ taken then
      sweep taken n (i + 1) rest { s with
        remTotalTokenOffset := s.remTotalTokenOffset - c.totalTokenOffset r
        released := s.released ++ [(i, n - (s.released.length + 1))] }
    else sweep taken n (i + 1) rest { s with keepIndices := s.keepIndices ++ [i] }

/-- `filter_batch` with `keep_indices`. -/
def filterBatch (keepIndices : List Nat) (reqs : List Req) : List Req :=
  if keepIndices = [] then []
  else if keepIndices.length = reqs.length then reqs
  else keepIndices.filterMap (reqs[·]?)

/-! ## The loops -/

def Config.tokens (l : List Req) : ℚ := (l.map c.totalTokenOffset).sum

/-- What the first loop may make of the sorted requests `l`: it takes an initial segment of requests that
    are less important, no shorter one of which has enough tokens; and without enough tokens in it, there is
    no such segment that has. -/
structure Collected (req : Req) (toRemove : ℚ) (l : List Req) (out : List Req × ℚ) : Prop where
  segment : out.1 <+: l
  less : ∀ r ∈ out.1, c.preemptionThreshold < c.priorityDiff req r
  left : out.2 = toRemove - c.tokens out.1
  needed : ∀ q, q <+: out.1 → q ≠ [] → q ≠ out.1 → c.tokens q < toRemove
  none : out.1 = [] ∨ 0 < out.2 → ∀ q, q <+: l → q ≠ [] →
    (∀ r ∈ q, c.preemptionThreshold < c.priorityDiff req r) → c.tokens q < toRemove

variable {c} {req : Req}

theorem tokens_cons (r : Req) (l : List Req) : c.tokens (r :: l) = c.totalTokenOffset r + c.tokens l := by
  simp [Config.tokens]

theorem collect_spec (toRemove : ℚ) (l : List Req) :
    Collected c req toRemove l (c.collect req toRemove l) := by
  induction l generalizing toRemove with
  | nil => constructor <;> simp [Config.collect, Config.tokens]
  | cons r rest ih =>
    rw [Config.collect]
    split
    next hr =>
      dsimp only
      split
      next hle =>
        refine ⟨by simp, by simpa using hr, by simp [Config.tokens], fun q hq hne hne' => ?_, fun h => ?_⟩
        · obtain ⟨q', rfl, hq'⟩ := (prefix_cons_iff.1 hq).resolve_left hne
          exact absurd (by rw [prefix_nil.1 hq']) hne'
        · rcases h with h | h
          · cases h
          · exact absurd h (not_lt.2 hle)
      next hgt =>
        obtain ⟨hseg, hless, hleft, hneeded, hnone⟩ := ih (toRemove - c.totalTokenOffset r)
        -- the first request alone has too few tokens
        have hfirst : ∀ q, (q ≠ [] → c.tokens q < toRemove - c.totalTokenOffset r) →
            c.tokens (r :: q) < toRemove := by
          intro q hq
          rw [tokens_cons]
          by_cases hnil : q = []
          · rw [hnil, Config.tokens, map_nil, sum_nil]
            linarith
          · linarith [hq hnil]
        refine ⟨cons_prefix_cons.2 ⟨rfl, hseg⟩, ?_, ?_, fun q hq hne hne' => ?_, fun h q hq hne hall => ?_⟩
        · rintro a (_ | ⟨_, ha⟩)
          · exact hr
          · exact hless a ha
        · rw [tokens_cons, hleft]
          ring
        · obtain ⟨q', rfl, hq'⟩ := (prefix_cons_iff.1 hq).resolve_left hne
          exact hfirst q' fun hnil => hneeded q' hq' hnil fun heq => hne' (by rw [heq])
        · obtain ⟨q', rfl, hq'⟩ := (prefix_cons_iff.1 hq).resolve_left hne
          refine hfirst q' fun hnil => hnone ?_ q' hq' hnil fun a ha => hall a (.tail _ ha)
          exact .inr (h.resolve_left (cons_ne_nil _ _))
    next hr =>
      refine ⟨by simp, by simp, by simp [Config.tokens], fun q hq hne => ?_, fun _ q hq hne hall => ?_⟩
      · exact absurd (prefix_nil.1 hq) hne
      · obtain ⟨q', rfl, -⟩ := (prefix_cons_iff.1 hq).resolve_left hne
        exact absurd (hall r mem_cons_self) hr

/-- **What the second loop does** from an index on: the indices of the requests taken are released, those of
    the others are kept. -/
theorem sweep_spec (taken : List Req) (n : Nat) {reqs l before : List Req} (hreqs : reqs = before ++ l)
    (s : Sweep) :
    (c.sweep taken n before.length l s).remTotalTokenOffset =
        s.remTotalTokenOffset - c.tokens (l.filter (· ∈ taken)) ∧
      (c.sweep taken n before.length l s).released.map (fun x => reqs[x.1]?) =
        s.released.map (fun x => reqs[x.1]?) ++ (l.filter (· ∈ taken)).map some ∧
      (c.sweep taken n before.length l s).keepIndices.filterMap (reqs[·]?) =
        s.keepIndices.filterMap (reqs[·]?) ++ l.filter (· ∉ taken) ∧
      (c.sweep taken n before.length l s).keepIndices.length =
        s.keepIndices.length + (l.filter (· ∉ taken)).length := by
  induction l generalizing before s with
  | nil => simp [Config.sweep, Config.tokens]
  | cons r rest ih =>
    have hat : reqs[before.length]? = some r := by simp [hreqs]
    have hreqs' : reqs = (before ++ [r]) ++ rest := by simp [hreqs]
    have hlen : (before ++ [r]).length = before.length + 1 := by simp
    have hrest := fun s => hlen ▸ ih hreqs' s
    rw [Config.sweep]
    split
    next hr =>
      obtain ⟨hoffset, hreleased, hkeep, hcount⟩ := hrest { s with
        remTotalTokenOffset := s.remTotalTokenOffset - c.totalTokenOffset r
        released := s.released ++ [(before.length, n - (s.released.length + 1))] }
      refine ⟨hoffset.trans ?_, hreleased.trans ?_, hkeep.trans ?_, hcount.trans ?_⟩
      · simp only [hr, Config.tokens, decide_true, filter_cons_of_pos, map_cons, sum_cons]
        ring
      all_goals simp [hr, hat]
    next hr =>
      obtain ⟨hoffset, hreleased, hkeep, hcount⟩ :=
        hrest { s with keepIndices := s.keepIndices ++ [before.length] }
      refine ⟨hoffset.trans ?_, hreleased.trans ?_, hkeep.trans ?_, hcount.trans ?_⟩
      all_goals simp [hr, hat]
      omega

/-! ## The call -/

/-- The order in which a set of requests is iterated. -/
structure SetOrder where
  list : List Req → List Req
  perm : ∀ l, (list l).Perm l

/-- The state of a `PrefillAdder` that preemption reads and changes. No request is twice in the batch, and
    those that were preempted have left it. -/
structure PrefillAdder where
  /-- `running_batch.reqs` -/
  reqs : List Req
  remTotalTokenOffset : ℚ
  preemptList : List Req
  nodup : reqs.Nodup
  left : ∀ r ∈ preemptList, r ∉ reqs

variable (c) (available : Int) (order : SetOrder) (req : Req) (s : PrefillAdder) (taken : List Req)

def PrefillAdder.sortedValidRunningReqs : List Req :=
  (s.reqs.filter fun r => r ∉ s.preemptList ∧ r.finished = false).mergeSort
    fun a b => c.sortKey a ≤ c.sortKey b

/-- `min_tokens_to_remove` before the loop; `available` is what the allocator and the tree can give. -/
def PrefillAdder.minTokensToRemove : ℚ :=
  req.extendInputLen + (min req.maxNewTokens c.clipMaxNewTokens : Int) - (available - s.remTotalTokenOffset)

def PrefillAdder.sweep : Sweep := c.sweep taken s.reqs.length 0 s.reqs ⟨s.remTotalTokenOffset, [], []⟩

theorem sweep_eq :
    (s.sweep c taken).remTotalTokenOffset = s.remTotalTokenOffset - c.tokens (s.reqs.filter (· ∈ taken)) ∧
      (s.sweep c taken).released.map (fun x => s.reqs[x.1]?) = (s.reqs.filter (· ∈ taken)).map some ∧
      filterBatch (s.sweep c taken).keepIndices s.reqs = s.reqs.filter (· ∉ taken) := by
  obtain ⟨hoffset, hreleased, hkeep, hcount⟩ := sweep_spec (c := c) taken s.reqs.length
    (nil_append s.reqs).symm ⟨s.remTotalTokenOffset, [], []⟩
  simp only [length_nil, filterMap_nil, nil_append, Nat.zero_add] at hkeep hcount
  refine ⟨hoffset, hreleased, ?_⟩
  unfold filterBatch PrefillAdder.sweep
  split
  next hnil => rw [← hkeep, hnil, filterMap_nil]
  next =>
    split
    next hlen => exact (filter_eq_self.2 (length_filter_eq_length_iff.1 (hcount.symm.trans hlen))).symm
    next => exact hkeep

/-- The adder after the requests `taken` have been released. -/
def PrefillAdder.preempt : PrefillAdder where
  reqs := filterBatch (s.sweep c taken).keepIndices s.reqs
  remTotalTokenOffset := (s.sweep c taken).remTotalTokenOffset
  preemptList := s.preemptList ++ order.list taken
  nodup := by
    rw [(sweep_eq c s taken).2.2]
    exact s.nodup.filter _
  left r hr := by
    rw [(sweep_eq c s taken).2.2, mem_filter]
    rintro ⟨hmem, hnot⟩
    rcases mem_append.1 hr with hr | hr
    · exact s.left r hr hmem
    · exact of_decide_eq_true hnot ((order.perm taken).mem_iff.1 hr)

/-- `preempt_to_schedule`: what it returns, the adder behind it, and the calls of `release_req`. -/
def PrefillAdder.preemptToSchedule : Bool × PrefillAdder × List (Nat × Nat) :=
  let (preemptible, toRemove) :=
    c.collect req (s.minTokensToRemove c available req) (s.sortedValidRunningReqs c)
  if preemptible = [] ∨ 0 < toRemove then (false, s, [])
  else (true, s.preempt c order preemptible, (s.sweep c preemptible).released)

/-! ## What is taken -/

/-- The unfinished requests in the order in which they may be taken: the least important ones first, and
    among equals those that came last. -/
structure LeastImportantFirst (l : List Req) : Prop where
  perm : l.Perm (s.reqs.filter fun r => r.finished = false)
  sorted : l.Pairwise fun a b => 0 < c.priorityDiff b a ∨
    a.priority = b.priority ∧ b.waitQueueEntryTime ≤ a.waitQueueEntryTime

/-- The requests that may be taken and make room: an initial segment of less important requests with enough
    tokens. At least one request has to go, since its place is needed. -/
structure Victims : Prop where
  members : ∀ r ∈ taken, r ∈ s.reqs ∧ r.finished = false ∧ r ∉ s.preemptList ∧
    c.preemptionThreshold < c.priorityDiff req r
  segment : taken <+: s.sortedValidRunningReqs c
  ne_nil : taken ≠ []
  enough : s.minTokensToRemove c available req ≤ c.tokens taken

theorem leastImportantFirst : LeastImportantFirst c s (s.sortedValidRunningReqs c) where
  perm := by
    refine (mergeSort_perm _ _).trans (.of_eq (filter_congr fun r hr => ?_))
    have hleft : r ∉ s.preemptList := fun hmem => s.left r hmem hr
    simp [hleft]
  sorted := by
    have hsorted : (s.sortedValidRunningReqs c).Pairwise fun a b => decide (c.sortKey a ≤ c.sortKey b) :=
      pairwise_mergeSort fun a b d hab hbd => by simp only [decide_eq_true_eq] at *; exact hab.trans hbd
        (fun a b => by simpa using le_total _ _) _
    refine hsorted.imp fun {a b} hab => ?_
    rcases Prod.Lex.toLex_le_toLex.1 (of_decide_eq_true hab) with hlt | ⟨heq, hle⟩
    · refine .inl ?_
      rw [Config.priorityDiff, sub_mul]
      exact sub_pos.2 hlt
    · refine .inr ⟨?_, neg_le_neg_iff.1 hle⟩
      have hsign : -c.prioritySign ≠ 0 := by
        unfold Config.prioritySign
        split <;> decide
      exact mul_right_cancel₀ hsign heq

/-- **Preemption takes only what it may and must.** Either nothing changes, and no requests are there that
    may be taken and make room; or such requests are released, each once, no shorter segment of them would
    do, and the others stay in their order. -/
theorem preemptToSchedule_takes_victims :
    LeastImportantFirst c s (s.sortedValidRunningReqs c) ∧
    ((s.preemptToSchedule c available order req = (false, s, []) ∧
        ∀ taken, ¬ Victims c available req s taken) ∨
      ∃ s' released taken, s.preemptToSchedule c available order req = (true, s', released) ∧
        Victims c available req s taken ∧ taken.Nodup ∧
        (∀ q, q <+: taken → q ≠ [] → q ≠ taken → c.tokens q < s.minTokensToRemove c available req) ∧
        (released.map fun x => s.reqs[x.1]?).Perm (taken.map some) ∧
        s'.reqs = s.reqs.filter (· ∉ taken) ∧
        s'.remTotalTokenOffset = s.remTotalTokenOffset - c.tokens taken ∧
        ∃ l, s'.preemptList = s.preemptList ++ l ∧ l.Perm taken) := by
  refine ⟨leastImportantFirst c s, ?_⟩
  have hout := @collect_spec c req (s.minTokensToRemove c available req) (s.sortedValidRunningReqs c)
  unfold PrefillAdder.preemptToSchedule
  generalize c.collect req (s.minTokensToRemove c available req) (s.sortedValidRunningReqs c) = out at hout ⊢
  obtain ⟨taken, toRemove⟩ := out
  obtain ⟨hseg, hless, hleft, hneeded, hnone⟩ := hout
  dsimp only at *
  split
  next hfail =>
    refine .inl ⟨rfl, fun q hq => ?_⟩
    exact absurd hq.enough (not_le.2 (hnone hfail q hq.segment hq.ne_nil fun r hr => (hq.members r hr).2.2.2))
  next hok =>
    obtain ⟨hne, hle⟩ := not_or.1 hok
    have hvictims : Victims c available req s taken := by
      refine ⟨fun r hr => ?_, hseg, hne, by linarith [not_lt.1 hle]⟩
      have hmem := mem_filter.1 ((mergeSort_perm _ _).mem_iff.1 (hseg.subset hr))
      obtain ⟨hnot, hunfinished⟩ := of_decide_eq_true hmem.2
      exact ⟨hmem.1, hunfinished, hnot, hless r hr⟩
    have hnodup : taken.Nodup :=
      hseg.sublist.nodup ((mergeSort_perm _ _).nodup_iff.2 (s.nodup.filter _))
    have hperm : (s.reqs.filter (· ∈ taken)).Perm taken := by
      refine (perm_ext_iff_of_nodup (s.nodup.filter _) hnodup).2 fun r => ?_
      simpa using fun hr => (hvictims.members r hr).1
    obtain ⟨hoffset, hreleased, hkeep⟩ := sweep_eq c s taken
    rw [Config.tokens, (hperm.map _).sum_eq] at hoffset
    exact .inr ⟨_, _, taken, rfl, hvictims, hnodup, hneeded, (Perm.of_eq hreleased).trans (hperm.map _),
      hkeep, hoffset, _, rfl, order.perm taken⟩

/-- A running request that a more important one pushes out although its tokens are not needed. -/
def idle : Req := ⟨0, 0, 0, 8, 0, 4, false⟩

/-- One request is taken even where no tokens are missing. -/
theorem preemptToSchedule_takes_unneeded :
    ∃ (c : Config) (available : Int) (order : SetOrder) (req : Req) (s : PrefillAdder),
      s.reqs = [idle] ∧ s.minTokensToRemove c available req ≤ c.tokens [idle].dropLast ∧
        (s.preemptToSchedule c available order req).1 = true ∧
        (s.preemptToSchedule c available order req).2.1.reqs = [] :=
  ⟨⟨false, 0, 1, 4096⟩, 100, ⟨id, fun _ => .rfl⟩, { idle with object := 1, priority := 1 },
    ⟨[idle], 0, [], by decide, by decide⟩, rfl, by decide +kernel, by decide +kernel, by decide +kernel⟩

end Preemption
