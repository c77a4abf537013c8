import SolInfer.Lib.Text

set_option autoImplicit false

/-! # Finishing a request

`Req.update_finish_state` of `managers/schedule_batch.py`: after the tokens of a step have been appended to
`output_ids`, the request is tested for its length, for stop tokens, for tokens outside the vocabulary and
for stop strings, in this order. A step appends one token, or a group of them under speculative decoding. -/

namespace Finish

inductive FinishReason where
  | length (length : Nat)
  | matchedToken (matched : Int)
  | matchedStr (matched : List Char)
deriving DecidableEq, Repr

/-- What a request uses of its tokenizer; an absent set of additional stop tokens is empty. -/
structure Tokenizer where
  decode : List Int → List Char
  eosTokenId : Option Int
  additionalStopTokenIds : List Int

/-- What does not change: the sampling parameters without grammar and stop regex, and what the model gives.
    A set is the list of its members in their order of iteration, and an absent set is empty. Stop strings
    need a tokenizer. -/
structure Config where
  maxNewTokens : Nat
  stopTokenIds : List Int
  stopStrs : List (List Char)
  stopStrMaxLen : Nat
  ignoreEos : Bool
  eosTokenIds : List Int
  vocabSize : Nat
  tokenizer : Option Tokenizer
  decodable : stopStrs = [] ∨ tokenizer.isSome = true

structure Req where
  outputIds : List Int
  finishedReason : Option FinishReason
  finishedLen : Option Nat
deriving DecidableEq, Repr

def Req.new : Req := ⟨[], none, none⟩

def Req.finished (r : Req) : Bool := r.finishedReason.isSome

def Req.outputIdsThroughStop (r : Req) : List Int :=
  match r.finishedLen with
  | some n => r.outputIds.take n
  | none => r.outputIds

namespace Config

variable (p : Config)

/-- The tokens that `tail_str` decodes. -/
def tailIds (ids : List Int) : List Int := ids.drop (ids.length - min (max (p.stopStrMaxLen + 1) 1) ids.length)

def tailStr (ids : List Int) : List Char :=
  match p.stopStrs, p.tokenizer with
  | [], _ => []
  | _, some tokenizer => tokenizer.decode (p.tailIds ids)
  | _, none => []

/-- The test of one token in `_check_token_based_finish`. -/
def isStopToken (token : Int) : Bool :=
  decide (token ∈ p.stopTokenIds) || decide (token ∈ p.eosTokenIds) ||
    match p.tokenizer with
    | some tokenizer =>
      decide (some token = tokenizer.eosTokenId) || decide (token ∈ tokenizer.additionalStopTokenIds)
    | none => false

variable (r : Req) (tokens : List Int)

def checkTokenBasedFinish (newAcceptedTokens : List Int) : Option Req :=
  if p.ignoreEos then none
  else
    match newAcceptedTokens.findIdx? p.isStopToken with
    | some i =>
      newAcceptedTokens[i]?.map fun token => { r with
        finishedReason := some (.matchedToken token)
        finishedLen := some (r.outputIds.length - newAcceptedTokens.length + i + 1) }
    | none => none

def isOutside (token : Int) : Bool := decide ((p.vocabSize : Int) < token) || decide (token < 0)

def replacement (token : Int) : Int := p.eosTokenIds.head?.getD (p.stopTokenIds.head?.getD token)

def checkVocabBoundaryFinish (newAcceptedTokens : List Int) : Option Req :=
  match newAcceptedTokens.findIdx? p.isOutside with
  | some i =>
    let offset := r.outputIds.length - newAcceptedTokens.length + i
    some { r with
      outputIds := r.outputIds.modify offset p.replacement
      finishedReason := some (.matchedStr "NaN happened".toList)
      finishedLen := some (offset + 1) }
  | none => none

/-- The stop string that `_check_str_based_finish` matches; `decoded_text` of a request stays empty. -/
def matchedStopStr (ids : List Int) : Option (List Char) :=
  p.stopStrs.find? fun stopStr => Text.contains (p.tailStr ids) stopStr || Text.contains [] stopStr

/-- `_check_str_based_finish`; the length is not set. -/
def checkStrBasedFinish : Option Req :=
  (p.matchedStopStr r.outputIds).map fun stopStr =>
    { r with finishedReason := some (.matchedStr stopStr) }

def updateFinishState (newAcceptedLen : Nat) : Req :=
  if r.finished then r
  else if p.maxNewTokens ≤ r.outputIds.length then
    { r with finishedReason := some (.length p.maxNewTokens), finishedLen := some p.maxNewTokens }
  else
    let newAcceptedTokens := r.outputIds.drop (r.outputIds.length - newAcceptedLen)
    match p.checkTokenBasedFinish r newAcceptedTokens with
    | some r => r
    | none =>
      match p.checkVocabBoundaryFinish r newAcceptedTokens with
      | some r => r
      | none => (p.checkStrBasedFinish r).getD r

/-- One step of the decode loop; a finished request is passed over. -/
def step (group : List Int) : Req :=
  if r.finished then r
  else p.updateFinishState { r with outputIds := r.outputIds ++ group } group.length

def run (groups : List (List Int)) : Req := groups.foldl p.step .new

def outcome (groups : List (List Int)) : List Int × Option FinishReason :=
  ((p.run groups).outputIdsThroughStop, (p.run groups).finishedReason)

/-! ## Which position finishes a request -/

/-- The `k`-th token is a stop token. -/
def StopsAt (k : Nat) : Prop :=
  p.ignoreEos = false ∧ ∃ token, tokens[k - 1]? = some token ∧ p.isStopToken token = true

/-- The `k`-th token is outside the vocabulary. -/
def OutsideAt (k : Nat) : Prop :=
  ∃ token, tokens[k - 1]? = some token ∧ p.isOutside token = true

/-- The tail of the first `k` tokens has a stop string. -/
def MatchesAt (k : Nat) : Prop := (p.matchedStopStr (tokens.take k)).isSome = true

/-- The first `k` tokens, and no fewer, meet a condition. -/
structure FirstAt (tokens : List Int) (k : Nat) : Prop where
  pos : 0 < k
  le : k ≤ tokens.length
  meets : p.maxNewTokens ≤ k ∨ p.StopsAt tokens k ∨ p.OutsideAt tokens k ∨ p.MatchesAt tokens k
  first : ∀ j, 0 < j → j < k → ¬ (p.maxNewTokens ≤ j ∨ p.StopsAt tokens j ∨ p.OutsideAt tokens j ∨
    p.MatchesAt tokens j)

end Config

/-- The number of tokens up to the end of the group that has the `k`-th one. -/
def groupEnd : List (List Int) → Nat → Nat
  | [], _ => 0
  | group :: groups, k =>
    if k ≤ group.length then group.length else group.length + groupEnd groups (k - group.length)

/-- The group in which the request should finish ends before the length limit, unless that is what finishes
    it; a token outside the vocabulary is followed by no stop token in its group, and a stop string is
    complete at the end of its group. -/
def Config.Harmless (p : Config) (groups : List (List Int)) : Prop :=
  ∀ k, p.FirstAt groups.flatten k →
    p.maxNewTokens ≤ k ∨
      groupEnd groups k < p.maxNewTokens ∧
        (p.StopsAt groups.flatten k ∨
          p.OutsideAt groups.flatten k ∧
            (∀ j, k < j → j ≤ groupEnd groups k → ¬ p.StopsAt groups.flatten j) ∨
          groupEnd groups k = k)

/-! ## Groups of tokens and single tokens

A request that gets its tokens one at a time finishes at the first position that meets a condition. In a
group the conditions are tested over all of its tokens, so the group must not hide that position. -/

open List

namespace Config

variable {p : Config} {tokens pre group ids : List Int} {test : Int → Bool} {k j : Nat} {r : Req}

/-! ## Positions -/

/-- The `k`-th token passes a test. -/
def At (test : Int → Bool) (tokens : List Int) (k : Nat) : Prop :=
  ∃ token, tokens[k - 1]? = some token ∧ test token = true

theorem at_append {i : Nat} :
    At test (pre ++ group) (pre.length + i + 1) ↔ ∃ token, group[i]? = some token ∧ test token = true := by
  unfold At
  rw [Nat.add_sub_cancel, getElem?_append_right (Nat.le_add_right _ _), Nat.add_sub_cancel_left]

theorem not_at_of_findIdx?
    (h : group.findIdx? test = none) (hj : pre.length < j) : ¬ At test (pre ++ group) j := by
  obtain ⟨i, rfl⟩ : ∃ i, j = pre.length + i + 1 := ⟨j - pre.length - 1, by omega⟩
  rw [at_append]
  rintro ⟨token, hi, ht⟩
  rw [findIdx?_eq_none_iff.1 h token (mem_of_getElem? hi)] at ht
  cases ht

theorem at_of_findIdx? (pre : List Int) {i : Nat} (h : group.findIdx? test = some i) :
    pre.length + i + 1 ≤ (pre ++ group).length ∧ At test (pre ++ group) (pre.length + i + 1) ∧
      ∀ j, pre.length < j → j < pre.length + i + 1 → ¬ At test (pre ++ group) j := by
  obtain ⟨hi, htest, hfirst⟩ := findIdx?_eq_some_iff_getElem.1 h
  refine ⟨by rw [length_append]; omega, ?_, ?_⟩
  · exact at_append.2 ⟨group[i], getElem?_eq_getElem hi, htest⟩
  · intro j hj hlt
    obtain ⟨i', rfl⟩ : ∃ i', j = pre.length + i' + 1 := ⟨j - pre.length - 1, by omega⟩
    rw [at_append]
    rintro ⟨token, hi', ht⟩
    obtain ⟨hlen, rfl⟩ := List.getElem?_eq_some_iff.1 hi'
    exact hfirst i' (by omega) ht

theorem at_of_isPrefix (h : ids <+: tokens)
    (h0 : 0 < j) (hj : j ≤ ids.length) : At test ids j ↔ At test tokens j := by
  obtain ⟨rest, rfl⟩ := h
  unfold At
  rw [getElem?_append_left (by omega)]

theorem stopsAt_of_isPrefix (h : ids <+: tokens) (h0 : 0 < j)
    (hj : j ≤ ids.length) : p.StopsAt ids j ↔ p.StopsAt tokens j :=
  and_congr_right fun _ => at_of_isPrefix h h0 hj

theorem matchesAt_of_isPrefix (h : ids <+: tokens)
    (hj : j ≤ ids.length) : p.MatchesAt ids j ↔ p.MatchesAt tokens j := by
  obtain ⟨rest, rfl⟩ := h
  unfold MatchesAt
  rw [take_append_of_le_length hj]

/-! ## What a step can do -/

/-- A step after `pre` that leaves the tokens `ids`. -/
inductive Stepped (p : Config) (pre ids : List Int) : Req → Prop where
  | length (h : p.maxNewTokens ≤ ids.length) :
      Stepped p pre ids ⟨ids, some (.length p.maxNewTokens), some p.maxNewTokens⟩
  | token (h : ids.length < p.maxNewTokens) (j : Nat) (token : Int) (hj : pre.length < j)
      (hle : j ≤ ids.length) (hstop : p.StopsAt ids j) (htoken : ids[j - 1]? = some token)
      (hfirst : ∀ i, pre.length < i → i < j → ¬ p.StopsAt ids i) :
      Stepped p pre ids ⟨ids, some (.matchedToken token), some j⟩
  | outside (h : ids.length < p.maxNewTokens)
      (hstop : ∀ i, pre.length < i → i ≤ ids.length → ¬ p.StopsAt ids i)
      (j : Nat) (hj : pre.length < j) (hle : j ≤ ids.length) (hout : p.OutsideAt ids j)
      (hfirst : ∀ i, pre.length < i → i < j → ¬ p.OutsideAt ids i) :
      Stepped p pre ids
        ⟨ids.modify (j - 1) p.replacement, some (.matchedStr "NaN happened".toList), some j⟩
  | matched (h : ids.length < p.maxNewTokens)
      (hstop : ∀ i, pre.length < i → i ≤ ids.length → ¬ p.StopsAt ids i)
      (hout : ∀ i, pre.length < i → i ≤ ids.length → ¬ p.OutsideAt ids i)
      (stopStr : List Char) (hstr : p.matchedStopStr ids = some stopStr) :
      Stepped p pre ids ⟨ids, some (.matchedStr stopStr), none⟩
  | running (h : ids.length < p.maxNewTokens)
      (hstop : ∀ i, pre.length < i → i ≤ ids.length → ¬ p.StopsAt ids i)
      (hout : ∀ i, pre.length < i → i ≤ ids.length → ¬ p.OutsideAt ids i)
      (hstr : p.matchedStopStr ids = none) :
      Stepped p pre ids ⟨ids, none, none⟩

theorem checkTokenBasedFinish_cases (pre group : List Int) (h : (pre ++ group).length < p.maxNewTokens) :
    (p.checkTokenBasedFinish ⟨pre ++ group, none, none⟩ group = none ∧
        ∀ i, pre.length < i → i ≤ (pre ++ group).length → ¬ p.StopsAt (pre ++ group) i) ∨
      ∃ r, p.checkTokenBasedFinish ⟨pre ++ group, none, none⟩ group = some r ∧
        Stepped p pre (pre ++ group) r := by
  unfold checkTokenBasedFinish
  by_cases hig : p.ignoreEos = true
  · rw [if_pos hig]
    refine .inl ⟨rfl, fun i _ _ hstop => ?_⟩
    rw [hstop.1] at hig
    cases hig
  rw [if_neg hig]
  cases hfind : group.findIdx? p.isStopToken with
  | none => exact .inl ⟨rfl, fun i hi _ hstop => not_at_of_findIdx? hfind hi hstop.2⟩
  | some i =>
    obtain ⟨hle, hat, hfirst⟩ := at_of_findIdx? pre hfind
    obtain ⟨token, htoken, -⟩ := at_append.1 hat
    refine .inr ⟨⟨pre ++ group, some (.matchedToken token), some (pre.length + i + 1)⟩, ?_, ?_⟩
    · simp only [htoken, Option.map_some, length_append, Nat.add_sub_cancel]
    · refine .token h _ token (by omega) hle ⟨by simpa using hig, hat⟩ ?_ ?_
      · rwa [Nat.add_sub_cancel, getElem?_append_right (by omega), Nat.add_sub_cancel_left]
      · exact fun j hj hlt hstop => hfirst j hj hlt hstop.2

theorem step_cases (pre group : List Int) :
    Stepped p pre (pre ++ group) (p.step ⟨pre, none, none⟩ group) := by
  have hstep : p.step ⟨pre, none, none⟩ group =
      p.updateFinishState ⟨pre ++ group, none, none⟩ group.length := rfl
  rw [hstep, updateFinishState]
  dsimp only
  by_cases hmax : p.maxNewTokens ≤ (pre ++ group).length
  · rw [if_pos hmax]
    exact .length hmax
  have hlt : (pre ++ group).length < p.maxNewTokens := by omega
  have hdrop : (pre ++ group).drop ((pre ++ group).length - group.length) = group := by
    rw [length_append, Nat.add_sub_cancel, drop_left]
  rw [if_neg hmax, hdrop]
  rcases checkTokenBasedFinish_cases pre group hlt with ⟨hnone, hstop⟩ | ⟨r, hsome, hr⟩
  · rw [hnone]
    unfold checkVocabBoundaryFinish
    cases hfind : group.findIdx? p.isOutside with
    | some i =>
      obtain ⟨hle, hat, hfirst⟩ := at_of_findIdx? pre hfind
      have hj : (pre ++ group).length - group.length + i = pre.length + i + 1 - 1 := by
        rw [length_append]
        omega
      dsimp only
      rw [hj]
      exact .outside hlt hstop (pre.length + i + 1) (by omega) hle hat hfirst
    | none =>
      have hout : ∀ i, pre.length < i → i ≤ (pre ++ group).length → ¬ p.OutsideAt (pre ++ group) i :=
        fun i hi _ => not_at_of_findIdx? hfind hi
      unfold checkStrBasedFinish
      cases hstr : p.matchedStopStr (pre ++ group) with
      | some stopStr => exact .matched hlt hstop hout stopStr hstr
      | none => exact .running hlt hstop hout hstr
  · rw [hsome]
    exact hr

/-! ## Runs -/

theorem foldl_step_of_finished (h : r.finished = true) (groups : List (List Int)) :
    groups.foldl p.step r = r := by
  induction groups with
  | nil => rfl
  | cons group groups ih =>
    rw [foldl_cons, step, if_pos h]
    exact ih

def seen (r : Req) : List Int × Option FinishReason := (r.outputIdsThroughStop, r.finishedReason)

theorem Stepped.finished (h : Stepped p pre ids r) :
    r.finished = true ∨ r = ⟨ids, none, none⟩ ∧ ids.length < p.maxNewTokens := by
  cases h with
  | running h => exact .inr ⟨rfl, h⟩
  | length => exact .inl rfl
  | token => exact .inl rfl
  | outside => exact .inl rfl
  | matched => exact .inl rfl

theorem Stepped.length_le (h : Stepped p pre ids r)
    (hpre : pre.length ≤ p.maxNewTokens) (hids : pre.length ≤ ids.length) :
    pre.length ≤ r.outputIdsThroughStop.length := by
  cases h with
  | length h =>
    simp only [Req.outputIdsThroughStop, length_take]
    omega
  | token h j token hj hle =>
    simp only [Req.outputIdsThroughStop, length_take]
    omega
  | outside h hstop j hj hle =>
    simp only [Req.outputIdsThroughStop, length_take, length_modify]
    omega
  | matched => exact hids
  | running => exact hids

theorem length_le_foldl (groups : List (List Int)) (hpre : pre.length ≤ p.maxNewTokens) :
    pre.length ≤ (groups.foldl p.step ⟨pre, none, none⟩).outputIdsThroughStop.length := by
  induction groups generalizing pre with
  | nil => exact le_rfl
  | cons group groups ih =>
    rw [foldl_cons]
    have hids : pre.length ≤ (pre ++ group).length := by
      rw [length_append]
      omega
    have hstep := step_cases (p := p) pre group
    rcases hstep.finished with hfin | ⟨hrun, hlt⟩
    · rw [foldl_step_of_finished hfin]
      exact hstep.length_le hpre hids
    · rw [hrun]
      exact hids.trans (ih hlt.le)

/-- The result of a request that finishes at position `k`. -/
noncomputable def expected (p : Config) (tokens : List Int) (k : Nat) : List Int × Option FinishReason :=
  open Classical in
  if p.maxNewTokens ≤ k then (tokens.take p.maxNewTokens, some (.length p.maxNewTokens))
  else if p.StopsAt tokens k then (tokens.take k, (tokens[k - 1]?).map .matchedToken)
  else if p.OutsideAt tokens k then
    ((tokens.take k).modify (k - 1) p.replacement, some (.matchedStr "NaN happened".toList))
  else (tokens.take k, (p.matchedStopStr (tokens.take k)).map .matchedStr)

section Expected

variable {tokens : List Int} {k : Nat}

theorem expected_length (h : p.maxNewTokens ≤ k) :
    p.expected tokens k = (tokens.take p.maxNewTokens, some (.length p.maxNewTokens)) := if_pos h

section

variable (h : ¬ p.maxNewTokens ≤ k)
include h

theorem expected_token (hstop : p.StopsAt tokens k) :
    p.expected tokens k = (tokens.take k, (tokens[k - 1]?).map .matchedToken) := by
  rw [expected, if_neg h, if_pos hstop]

theorem expected_outside (hstop : ¬ p.StopsAt tokens k) (hout : p.OutsideAt tokens k) :
    p.expected tokens k =
      ((tokens.take k).modify (k - 1) p.replacement, some (.matchedStr "NaN happened".toList)) := by
  rw [expected, if_neg h, if_neg hstop, if_pos hout]

theorem expected_matched (hstop : ¬ p.StopsAt tokens k) (hout : ¬ p.OutsideAt tokens k) :
    p.expected tokens k = (tokens.take k, (p.matchedStopStr (tokens.take k)).map .matchedStr) := by
  rw [expected, if_neg h, if_neg hstop, if_neg hout]

theorem expected_ne_token (hstop : ¬ p.StopsAt tokens k) (token : Int) :
    (p.expected tokens k).2 ≠ some (.matchedToken token) := by
  by_cases hout : p.OutsideAt tokens k
  · rw [expected_outside h hstop hout]
    simp
  · rw [expected_matched h hstop hout]
    simp

theorem expected_ne_length (n : Nat) : (p.expected tokens k).2 ≠ some (.length n) := by
  by_cases hstop : p.StopsAt tokens k
  · rw [expected_token h hstop]
    simp
  by_cases hout : p.OutsideAt tokens k
  · rw [expected_outside h hstop hout]
    simp
  · rw [expected_matched h hstop hout]
    simp

end

end Expected

/-- A group of which the last token is the `n`-th lets the request finish at position `k`. -/
def HarmlessAt (p : Config) (tokens : List Int) (n k : Nat) : Prop :=
  p.maxNewTokens ≤ k ∨ n < p.maxNewTokens ∧ (p.StopsAt tokens k ∨
    p.OutsideAt tokens k ∧ (∀ j, k < j → j ≤ n → ¬ p.StopsAt tokens j) ∨ n = k)

/-- At a position where only a stop string can end the request, its group has to end there. -/
theorem harmlessAt_iff_eq {n : Nat} (hmax : ¬ p.maxNewTokens ≤ k) (hstop : ¬ p.StopsAt tokens k)
    (hout : ¬ p.OutsideAt tokens k) (hn : n < p.maxNewTokens) : p.HarmlessAt tokens n k ↔ n = k := by
  simp [HarmlessAt, hmax, hstop, hout, hn]

section

variable (hr : Stepped p pre ids r) (hids : ids <+: tokens) (hk : p.FirstAt tokens k)
include hr hids hk

/-- **The group of the first position.** The request ends as it should exactly when the group is
    harmless. -/
theorem seen_group_iff (hpre : pre.length < k) (hle : k ≤ ids.length) (rest : List (List Int)) :
    seen (rest.foldl p.step r) = p.expected tokens k ↔ p.HarmlessAt tokens ids.length k := by
  have htake : ∀ n ≤ ids.length, ids.take n = tokens.take n := by
    intro n hn
    obtain ⟨tail, rfl⟩ := hids
    rw [take_append_of_le_length hn]
  have hlen := hids.length_le
  -- a condition at a position of the group is not before `k`
  have hstops : ∀ {j}, pre.length < j → j ≤ ids.length → (p.StopsAt ids j ↔ p.StopsAt tokens j) :=
    fun hj hle => stopsAt_of_isPrefix hids (by omega) hle
  have houts : ∀ {j}, pre.length < j → j ≤ ids.length → (p.OutsideAt ids j ↔ p.OutsideAt tokens j) :=
    fun hj hle => at_of_isPrefix hids (by omega) hle
  cases hr with
  | length hmax =>
    rw [foldl_step_of_finished rfl]
    by_cases hmaxk : p.maxNewTokens ≤ k
    · rw [expected_length hmaxk, seen, Req.outputIdsThroughStop]
      dsimp only
      rw [htake _ hmax]
      exact ⟨fun _ => .inl hmaxk, fun _ => rfl⟩
    · refine ⟨fun heq => ?_, fun hharm => ?_⟩
      · exact absurd (congrArg Prod.snd heq).symm (expected_ne_length hmaxk _)
      · rcases hharm with h | ⟨h, -⟩
        · exact absurd h hmaxk
        · omega
  | token hmax j token hj hjle hstop htoken hfirst =>
    have hmaxk : ¬ p.maxNewTokens ≤ k := by omega
    have hkj : k ≤ j := by
      by_contra hlt
      exact hk.first j (by omega) (by omega) (.inr (.inl ((hstops hj hjle).1 hstop)))
    rw [foldl_step_of_finished rfl]
    by_cases hstopk : p.StopsAt tokens k
    · obtain rfl : j = k := by
        by_contra hne
        exact hfirst k hpre (by omega) ((hstops hpre hle).2 hstopk)
      have htoken' : tokens[j - 1]? = some token := by
        obtain ⟨tail, rfl⟩ := hids
        rw [getElem?_append_left (by omega), htoken]
      rw [expected_token hmaxk hstopk, htoken', seen, Req.outputIdsThroughStop]
      dsimp only
      rw [htake _ hjle]
      exact ⟨fun _ => .inr ⟨hmax, .inl hstopk⟩, fun _ => rfl⟩
    · refine ⟨fun heq => ?_, fun hharm => ?_⟩
      · exact absurd (congrArg Prod.snd heq).symm (expected_ne_token hmaxk hstopk _)
      · have hne : k ≠ j := by
          rintro rfl
          exact hstopk ((hstops hj hjle).1 hstop)
        rcases hharm with h | ⟨-, h | ⟨-, h⟩ | h⟩
        · exact absurd h hmaxk
        · exact absurd h hstopk
        · exact absurd ((hstops hj hjle).1 hstop) (h j (by omega) hjle)
        · omega
  | outside hmax hstop j hj hjle hout hfirst =>
    have hmaxk : ¬ p.maxNewTokens ≤ k := by omega
    have hstopk : ¬ p.StopsAt tokens k := fun h => hstop k hpre hle ((hstops hpre hle).2 h)
    have hkj : k ≤ j := by
      by_contra hlt
      exact hk.first j (by omega) (by omega) (.inr (.inr (.inl ((houts hj hjle).1 hout))))
    have hnostop : ∀ i, k < i → i ≤ ids.length → ¬ p.StopsAt tokens i :=
      fun i hi hile h => hstop i (by omega) hile ((hstops (by omega) hile).2 h)
    rw [foldl_step_of_finished rfl]
    by_cases houtk : p.OutsideAt tokens k
    · obtain rfl : j = k := by
        by_contra hne
        exact hfirst k hpre (by omega) ((houts hpre hle).2 houtk)
      rw [expected_outside hmaxk hstopk houtk, seen, Req.outputIdsThroughStop]
      dsimp only
      rw [take_modify, htake _ hjle]
      exact ⟨fun _ => .inr ⟨hmax, .inr (.inl ⟨houtk, hnostop⟩)⟩, fun _ => rfl⟩
    · have hne : k ≠ j := by
        rintro rfl
        exact houtk ((houts hj hjle).1 hout)
      rw [harmlessAt_iff_eq hmaxk hstopk houtk hmax, expected_matched hmaxk hstopk houtk]
      refine iff_of_false (fun heq => ?_) (by omega)
      have hcount := congrArg (fun x => x.1.length) heq
      simp only [seen, Req.outputIdsThroughStop, length_take, length_modify] at hcount
      omega
  | matched hmax hstop hout stopStr hstr =>
    have hmaxk : ¬ p.maxNewTokens ≤ k := by omega
    have hstopk : ¬ p.StopsAt tokens k := fun h => hstop k hpre hle ((hstops hpre hle).2 h)
    have houtk : ¬ p.OutsideAt tokens k := fun h => hout k hpre hle ((houts hpre hle).2 h)
    rw [foldl_step_of_finished rfl, harmlessAt_iff_eq hmaxk hstopk houtk hmax,
      expected_matched hmaxk hstopk houtk, seen, Req.outputIdsThroughStop]
    constructor
    · intro heq
      have hcount := congrArg (fun x => x.1.length) heq
      simp only [length_take] at hcount
      omega
    · rintro rfl
      rw [← htake _ le_rfl, take_length, hstr]
      rfl
  | running hmax hstop hout hstr =>
    have hmaxk : ¬ p.maxNewTokens ≤ k := by omega
    have hstopk : ¬ p.StopsAt tokens k := fun h => hstop k hpre hle ((hstops hpre hle).2 h)
    have houtk : ¬ p.OutsideAt tokens k := fun h => hout k hpre hle ((houts hpre hle).2 h)
    have hmatch : p.MatchesAt tokens k :=
      ((hk.meets.resolve_left hmaxk).resolve_left hstopk).resolve_left houtk
    -- the stop string is in the tail after `k` tokens and no longer at the end of the group
    have hne : ids.length ≠ k := by
      rintro rfl
      rw [MatchesAt, ← htake _ le_rfl, take_length, hstr] at hmatch
      cases hmatch
    rw [harmlessAt_iff_eq hmaxk hstopk houtk hmax, expected_matched hmaxk hstopk houtk]
    refine iff_of_false (fun heq => ?_) hne
    have hcount := congrArg (fun x => x.1.length) heq
    have hmore := length_le_foldl (p := p) rest hmax.le
    simp only [seen, length_take] at hcount
    omega

theorem Stepped.running_of_before (hlt : ids.length < k) (hpre : pre.length < ids.length) :
    r = ⟨ids, none, none⟩ := by
  have hno : ∀ j, pre.length < j → j ≤ ids.length → ¬ (p.maxNewTokens ≤ j ∨ p.StopsAt tokens j ∨
      p.OutsideAt tokens j ∨ p.MatchesAt tokens j) := fun j hj hle => hk.first j (by omega) (by omega)
  cases hr with
  | length hmax => exact absurd (.inl hmax) (hno _ hpre le_rfl)
  | token hmax j token hj hjle hstop =>
    exact absurd (.inr (.inl ((stopsAt_of_isPrefix hids (by omega) hjle).1 hstop))) (hno j hj hjle)
  | outside hmax hstop j hj hjle hout =>
    exact absurd (.inr (.inr (.inl ((at_of_isPrefix hids (by omega) hjle).1 hout)))) (hno j hj hjle)
  | matched hmax hstop hout stopStr hstr =>
    have hmatch : p.MatchesAt ids ids.length := by
      rw [MatchesAt, take_length, hstr]
      rfl
    exact absurd (.inr (.inr (.inr ((matchesAt_of_isPrefix hids le_rfl).1 hmatch)))) (hno _ hpre le_rfl)
  | running => rfl

end

theorem seen_foldl_iff (hk : p.FirstAt tokens k) (groups : List (List Int))
    (hne : ∀ group ∈ groups, group ≠ []) (pre : List Int) (htokens : tokens = pre ++ groups.flatten)
    (hpre : pre.length < k) :
    seen (groups.foldl p.step ⟨pre, none, none⟩) = p.expected tokens k ↔
      p.HarmlessAt tokens (pre.length + groupEnd groups (k - pre.length)) k := by
  induction groups generalizing pre with
  | nil =>
    have := hk.le
    rw [htokens, flatten_nil, append_nil] at this
    omega
  | cons group groups ih =>
    obtain ⟨hgroup, hne⟩ := forall_mem_cons.1 hne
    have hpos := length_pos_of_ne_nil hgroup
    have hids : pre ++ group <+: tokens := ⟨groups.flatten, by simp [htokens]⟩
    have hstep := step_cases (p := p) pre group
    rw [foldl_cons, groupEnd]
    by_cases hin : k - pre.length ≤ group.length
    · rw [if_pos hin, seen_group_iff hstep hids hk hpre (by rw [length_append]; omega), length_append]
    · have hlt : (pre ++ group).length < k := by
        rw [length_append]
        omega
      rw [if_neg hin, hstep.running_of_before hids hk hlt (by rw [length_append]; omega),
        ih hne (pre ++ group) (by simp [htokens]) hlt]
      simp only [length_append, Nat.sub_sub, Nat.add_assoc]

/-! ## Single tokens -/

theorem groupEnd_singletons (tokens : List Int) (h0 : 0 < k) (hle : k ≤ tokens.length) :
    groupEnd (tokens.map fun t => [t]) k = k := by
  induction tokens generalizing k with
  | nil =>
    rw [length_nil] at hle
    omega
  | cons t tokens ih =>
    rw [map_cons, groupEnd]
    by_cases hk : k ≤ [t].length
    · rw [if_pos hk]
      simp only [length_singleton] at hk ⊢
      omega
    · simp only [not_le, length_cons] at hk hle ⊢
      rw [if_neg (by omega), ih (by omega) (by omega)]
      omega

theorem outcome_singletons (hk : p.FirstAt tokens k) :
    p.outcome (tokens.map fun t => [t]) = p.expected tokens k := by
  have hflat : (tokens.map fun t => [t]).flatten = tokens := by
    rw [← flatMap_def, flatMap_singleton']
  refine (seen_foldl_iff hk _ ?_ [] (by simpa using hflat.symm) hk.pos).2 ?_
  · intro group hgroup
    obtain ⟨t, -, rfl⟩ := mem_map.1 hgroup
    exact cons_ne_nil _ _
  · rw [length_nil, Nat.zero_add, Nat.sub_zero, groupEnd_singletons tokens hk.pos hk.le]
    by_cases hmax : p.maxNewTokens ≤ k
    · exact .inl hmax
    · exact .inr ⟨by omega, .inr (.inr rfl)⟩

theorem exists_firstAt (h0 : tokens ≠ []) (hlen : p.maxNewTokens ≤ tokens.length) :
    ∃ k, p.FirstAt tokens k := by
  classical
  have hex : ∃ k, 0 < k ∧ (p.maxNewTokens ≤ k ∨ p.StopsAt tokens k ∨ p.OutsideAt tokens k ∨
      p.MatchesAt tokens k) := ⟨tokens.length, length_pos_of_ne_nil h0, .inl hlen⟩
  refine ⟨Nat.find hex, (Nat.find_spec hex).1, ?_, (Nat.find_spec hex).2, ?_⟩
  · exact Nat.find_min' hex ⟨length_pos_of_ne_nil h0, .inl hlen⟩
  · exact fun j h0 hlt hmeets => Nat.find_min hex hlt ⟨h0, hmeets⟩

theorem FirstAt.unique {k' : Nat} (h : p.FirstAt tokens k) (h' : p.FirstAt tokens k') : k = k' := by
  rcases lt_trichotomy k k' with hlt | heq | hlt
  · exact absurd h.meets (h'.first k h.pos hlt)
  · exact heq
  · exact absurd h'.meets (h.first k' h'.pos hlt)

end Config

/-- **Groups and single tokens.** A sequence of tokens that is long enough for the length limit gives the
    same output and the same reason in groups as one token at a time exactly when the groups are
    harmless. -/
theorem grouped_eq_single_iff (p : Config) (groups : List (List Int)) (hne : ∀ group ∈ groups, group ≠ [])
    (h0 : groups ≠ []) (hlen : p.maxNewTokens ≤ groups.flatten.length) :
    p.outcome groups = p.outcome (groups.flatten.map fun t => [t]) ↔ p.Harmless groups := by
  have hflat : groups.flatten ≠ [] := by
    obtain ⟨group, hgroup⟩ := exists_mem_of_ne_nil _ h0
    exact fun h => hne group hgroup (flatten_eq_nil_iff.1 h group hgroup)
  obtain ⟨k, hk⟩ := Config.exists_firstAt hflat hlen
  have hiff := Config.seen_foldl_iff hk groups hne [] rfl hk.pos
  rw [length_nil, Nat.zero_add, Nat.sub_zero] at hiff
  rw [Config.outcome_singletons hk]
  refine hiff.trans ⟨fun h k' hk' => ?_, fun h => h k hk⟩
  rw [← hk.unique hk']
  exact h

/-- Tokens are the characters of the text, and the token 0 ends it. -/
def charConfig (maxNewTokens : Nat) (stopStrs : List (List Char)) : Config where
  maxNewTokens := maxNewTokens
  stopTokenIds := []
  stopStrs := stopStrs
  stopStrMaxLen := 1
  ignoreEos := false
  eosTokenIds := [0]
  vocabSize := 127
  tokenizer := some ⟨fun ids => ids.map fun t => Char.ofNat t.toNat, some 0, []⟩
  decodable := .inr rfl

theorem grouped_eq_single_three_groups :
    (charConfig 6 [['x']]).outcome [[97, 98], [99, 0, 100], [101]] =
        ([97, 98, 99, 0], some (.matchedToken 0)) ∧
      (charConfig 6 [['x']]).Harmless [[97, 98], [99, 0, 100], [101]] := by
  refine ⟨by decide +kernel, ?_⟩
  refine (grouped_eq_single_iff _ _ (by decide) (by decide) (by decide)).1 ?_
  decide +kernel

/-- **Groups that change the end of a request.** A stop token is passed over when its group reaches the
    length limit, and a stop string inside a group keeps the tokens behind it, or is not seen at all. -/
theorem grouped_ne_single :
    (charConfig 3 []).outcome [[97], [0, 98]] = ([97, 0, 98], some (.length 3)) ∧
      (charConfig 3 []).outcome [[97], [0], [98]] = ([97, 0], some (.matchedToken 0)) ∧
    (charConfig 9 [['b']]).outcome [[97, 98, 99]] = ([97, 98, 99], some (.matchedStr ['b'])) ∧
      (charConfig 9 [['b']]).outcome [[97], [98], [99]] = ([97, 98], some (.matchedStr ['b'])) ∧
    (charConfig 5 [['b']]).outcome [[97, 98, 99, 100], [101]] = ([97, 98, 99, 100, 101], some (.length 5)) ∧
      (charConfig 5 [['b']]).outcome [[97], [98], [99], [100], [101]] =
        ([97, 98], some (.matchedStr ['b'])) := by
  decide +kernel

end Finish
