import SolInfer.Detokenizer.Manager.Proofs

set_option autoImplicit false

/-! # Stop strings

Three places see a stop string: the scheduler looks for it in the text of the last tokens, the streamer holds
back a message while the text may be the beginning of one, and the detokenizer cuts the text at the first
occurrence of the string that was matched. A request gets one token per step. -/

open List

namespace Detokenizer

open OutputStreamer (Entry Sender Streaming promptTail rows)
open Increments (increments Grows lastLength)

structure Request where
  tokenizer : Tokenizer
  /-- `tokenizer.encode(text, add_special_tokens=False)`. -/
  encode : List Char → List Int
  eosTokenId : Option Int
  additionalStopTokenIds : List Int
  prompt : List Int
  maxNewTokens : Nat
  stopTokenIds : List Int
  stopStrs : List (List Char)
  ignoreEos : Bool
  eosTokenIds : List Int
  vocabSize : Nat
  streaming : Streaming
  stopStrs_ne : ∀ stopStr ∈ stopStrs, stopStr ≠ []

namespace Request

variable (q : Request)

/-- `stop_str_max_len` of `SamplingParams.normalize`. -/
def stopStrMaxLen : Nat := q.stopStrs.foldl (fun n stopStr => max n (q.encode stopStr).length) 0

def config : Finish.Config where
  maxNewTokens := q.maxNewTokens
  stopTokenIds := q.stopTokenIds
  stopStrs := q.stopStrs
  stopStrMaxLen := q.stopStrMaxLen
  ignoreEos := q.ignoreEos
  eosTokenIds := q.eosTokenIds
  vocabSize := q.vocabSize
  tokenizer := some ⟨q.tokenizer.decode, q.eosTokenId, q.additionalStopTokenIds⟩
  decodable := .inr rfl

structure State where
  req : Finish.Req
  sender : Sender
  sent : List Entry

def start : State := ⟨.new, .new q.prompt, []⟩

/-- One step of the decode loop: a token, the test for the end, and `accept`. -/
def step (rid : String) (st : State) (token : Int) : State :=
  if st.req.finished then st
  else
    let req := q.config.step st.req [token]
    let (sender, es) := q.streaming.accept q.config rid false req st.sender
    ⟨req, sender, st.sent ++ es⟩

def run (rid : String) (tokens : List Int) : State := tokens.foldl (q.step rid) q.start

/-! ## What is asked of it -/

def Hit (ids : List Int) : Prop :=
  ∃ stopStr ∈ q.stopStrs, Text.contains (q.tokenizer.decode ids) stopStr = true

instance (ids : List Int) : Decidable (q.Hit ids) := inferInstanceAs (Decidable (∃ _ ∈ _, _))

/-- The decoded output up to the first position at which a stop string begins. -/
def textBefore (ids : List Int) : List Char :=
  (q.tokenizer.decode ids).take ((Text.findAny q.stopStrs (q.tokenizer.decode ids)).getD 0)

/-- The first `k` tokens meet none of the other conditions. -/
def Undisturbed (tokens : List Int) : Prop :=
  tokens.length < q.maxNewTokens ∧
    ∀ k, 0 < k → k ≤ tokens.length → ¬ q.config.StopsAt tokens k ∧ ¬ q.config.OutsideAt tokens k

/-! ## When it is so -/

/-- The portions in which tokens are sent after `ids`, and the tokens left over; `left` are left over before. -/
def portionsFrom : List Int → List Int → List Int → List (List Int) × List Int
  | _, left, [] => ([], left)
  | ids, left, token :: tokens =>
    if q.streaming.shouldOutput q.config (ids ++ [token]) then
      let rest := portionsFrom (ids ++ [token]) [] tokens
      ((left ++ [token]) :: rest.1, rest.2)
    else portionsFrom (ids ++ [token]) (left ++ [token]) tokens

def portions (tokens : List Int) : List (List Int) := (q.portionsFrom [] [] tokens.dropLast).1

def shownLength (tokens : List Int) : Nat :=
  lastLength 0 (shown q.tokenizer [] [] (q.portions tokens))

/-- No other condition is met, the prompt ends with a character, and the tail has a stop string when the output
    has one; and then the string that is matched begins first, no portion takes back what is shown, and nothing
    behind the position was shown. -/
structure Clear (tokens : List Int) : Prop where
  undisturbed : q.Undisturbed tokens
  prompt : q.tokenizer.Complete q.prompt
  tail : ∀ k, 0 < k → k ≤ tokens.length → (q.config.MatchesAt tokens k ↔ q.Hit (tokens.take k))
  first : q.Hit tokens → ∀ stopStr, q.config.matchedStopStr tokens = some stopStr →
    Text.find stopStr (q.tokenizer.decode tokens) = Text.findAny q.stopStrs (q.tokenizer.decode tokens)
  steady : q.Hit tokens → Steady q.tokenizer [] (q.portions tokens)
  behind : q.Hit tokens → q.shownLength tokens ≤ (q.textBefore tokens).length

/-- The request finishes with the token after which the output contains a stop string, and the increments are
    the text before it. -/
structure Honoured (rid : String) (tokens : List Int) (incs : List (List Char)) : Prop where
  before : ∀ k < tokens.length, (q.run rid (tokens.take k)).req.finished = false
  finished : (q.run rid tokens).req.finished = true ↔ q.Hit tokens
  text : q.Hit tokens → incs.flatten = q.textBefore tokens

variable {q} {rid : String} {ids tokens : List Int} {token : Int}

/-! ## Steps of the scheduler -/

theorem Undisturbed.of_isPrefix (h : q.Undisturbed tokens) (hpre : ids <+: tokens) : q.Undisturbed ids := by
  refine ⟨lt_of_le_of_lt hpre.length_le h.1, fun k h0 hk => ?_⟩
  obtain ⟨hstop, hout⟩ := h.2 k h0 (hk.trans hpre.length_le)
  exact ⟨fun hs => hstop ((Finish.Config.stopsAt_of_isPrefix hpre h0 hk).1 hs),
    fun ho => hout ((Finish.Config.at_of_isPrefix hpre h0 hk).1 ho)⟩

theorem step_req (h : q.Undisturbed (ids ++ [token])) :
    q.config.step ⟨ids, none, none⟩ [token] =
      ⟨ids ++ [token], (q.config.matchedStopStr (ids ++ [token])).map .matchedStr, none⟩ := by
  have hlen : (ids ++ [token]).length = ids.length + 1 := by simp
  have hstep := Finish.Config.step_cases (p := q.config) ids [token]
  generalize q.config.step ⟨ids, none, none⟩ [token] = r at hstep
  cases hstep with
  | length hmax => exact absurd h.1 (Nat.not_lt.2 hmax)
  | token hlt j token hj hle hstop => exact absurd hstop (h.2 j (by omega) hle).1
  | outside hlt hstop j hj hle hout => exact absurd hout (h.2 j (by omega) hle).2
  | matched hlt hstop hout stopStr hstr => rw [hstr]; rfl
  | running hlt hstop hout hstr => rw [hstr]; rfl

theorem portionsFrom_flatten (ids left tokens : List Int) :
    (q.portionsFrom ids left tokens).1.flatten ++ (q.portionsFrom ids left tokens).2 = left ++ tokens := by
  induction tokens generalizing ids left with
  | nil => simp [portionsFrom]
  | cons token tokens ih =>
    rw [portionsFrom]
    split
    · simp only [flatten_cons, append_assoc, ih]
      simp
    · rw [ih, append_assoc]
      rfl

theorem portionsFrom_concat (tokens : List Int) (token : Int) :
    (q.portionsFrom [] [] tokens).1.flatten ++ ((q.portionsFrom [] [] tokens).2 ++ [token]) =
      tokens ++ [token] := by
  rw [← append_assoc, portionsFrom_flatten]
  rfl

theorem portionsFrom_ne (ids left tokens : List Int) :
    ∀ portion ∈ (q.portionsFrom ids left tokens).1, portion ≠ [] := by
  induction tokens generalizing ids left with
  | nil => exact nofun
  | cons token tokens ih =>
    rw [portionsFrom]
    split
    · intro portion h
      rcases mem_cons.1 h with rfl | h
      · simp
      · exact ih _ _ portion h
    · exact ih _ _

/-- From one state to another, all tokens but the last ones have been sent in portions. -/
structure Portioned (rid : String) (portions : List (List Int) × List Int) (ids : List Int)
    (st st' : State) : Prop where
  req : st'.req = ⟨ids, none, none⟩
  rest : st'.sender.outputIds ++ portions.2 = ids
  messages : ∀ reason last,
    st.sent ++ Sender.messages rid false reason st.sender portions.1 (portions.2 ++ last) =
      st'.sent ++ Sender.messages rid false reason st'.sender [] (portions.2 ++ last)

theorem foldl_step_unmatched (left : List Int) (st : State) (hreq : st.req = ⟨ids, none, none⟩)
    (hsent : st.sender.outputIds ++ left = ids) (h : q.Undisturbed (ids ++ tokens))
    (hnone : ∀ k, ids.length < k → k ≤ (ids ++ tokens).length → ¬ q.config.MatchesAt (ids ++ tokens) k) :
    Portioned rid (q.portionsFrom ids left tokens) (ids ++ tokens) st (tokens.foldl (q.step rid) st) := by
  induction tokens generalizing ids left st with
  | nil => exact ⟨by simpa using hreq, by simpa [portionsFrom] using hsent, fun reason last => rfl⟩
  | cons token tokens ih =>
    have hassoc : ids ++ token :: tokens = (ids ++ [token]) ++ tokens := by simp
    rw [hassoc] at h hnone ⊢
    have hpre : ids ++ [token] <+: ids ++ [token] ++ tokens := prefix_append ..
    have hlen : (ids ++ [token]).length = ids.length + 1 := by simp
    have hmatch : q.config.matchedStopStr (ids ++ [token]) = none := by
      have := hnone (ids.length + 1) (by omega) (hlen ▸ hpre.length_le)
      rw [Finish.Config.MatchesAt, ← hlen, take_left] at this
      simpa using this
    have hreq' : q.config.step st.req [token] = ⟨ids ++ [token], none, none⟩ := by
      rw [hreq, step_req (h.of_isPrefix hpre), hmatch]
      rfl
    have hrest : ∀ k, (ids ++ [token]).length < k → k ≤ (ids ++ [token] ++ tokens).length →
        ¬ q.config.MatchesAt (ids ++ [token] ++ tokens) k := fun k hk hle => hnone k (by omega) hle
    rw [foldl_cons]
    have hrunning : ¬ st.req.finished = true := by rw [hreq]; exact Bool.false_ne_true
    by_cases hout : q.streaming.shouldOutput q.config (ids ++ [token]) = true
    · set sent := { st.sender with outputIds := ids ++ [token] }.send rid none false with hsend
      have hstep : q.step rid st token = ⟨⟨ids ++ [token], none, none⟩, sent.1, st.sent ++ [sent.2]⟩ := by
        rw [step, if_neg hrunning, hreq']
        simp only [Streaming.accept, hout, Bool.or_true, if_true]
        rfl
      have hids : sent.1.outputIds ++ [] = ids ++ [token] := by
        rw [hsend, Sender.outputIds_send, append_nil]
      obtain ⟨hr, hs, hm⟩ := ih [] ⟨⟨ids ++ [token], none, none⟩, sent.1, st.sent ++ [sent.2]⟩ rfl hids h
        hrest
      rw [hstep, portionsFrom, if_pos hout]
      refine ⟨hr, hs, fun reason last => ?_⟩
      rw [← hm reason last, append_assoc, singleton_append]
      refine congrArg (st.sent ++ ·) ?_
      rw [Sender.messages, ← append_assoc, hsent]
    · have hstep : q.step rid st token = ⟨⟨ids ++ [token], none, none⟩, st.sender, st.sent⟩ := by
        rw [step, if_neg hrunning, hreq']
        simp [Streaming.accept, hout, Finish.Req.finished]
      obtain ⟨hr, hs, hm⟩ := ih (left ++ [token]) ⟨⟨ids ++ [token], none, none⟩, st.sender, st.sent⟩ rfl
        (by rw [← append_assoc, hsent]) h hrest
      rw [hstep, portionsFrom, if_neg hout]
      exact ⟨hr, hs, hm⟩

/-- The tail has had no stop string. -/
def Unmatched (q : Request) (tokens : List Int) : Prop :=
  ∀ k, 0 < k → k ≤ tokens.length → ¬ q.config.MatchesAt tokens k

theorem run_unmatched (rid : String) (h : q.Undisturbed tokens)
    (hnone : q.Unmatched tokens) :
    Portioned rid (q.portionsFrom [] [] tokens) tokens q.start (q.run rid tokens) :=
  foldl_step_unmatched [] q.start rfl rfl h hnone

theorem run_concat (tokens : List Int) (token : Int) :
    q.run rid (tokens ++ [token]) = q.step rid (q.run rid tokens) token := by
  rw [run, foldl_append]
  rfl

theorem matchesAt_length (tokens : List Int) :
    q.config.MatchesAt tokens tokens.length ↔ (q.config.matchedStopStr tokens).isSome = true := by
  rw [Finish.Config.MatchesAt, take_length]

theorem unmatched_concat :
    q.Unmatched (tokens ++ [token]) ↔
      q.Unmatched tokens ∧ q.config.matchedStopStr (tokens ++ [token]) = none := by
  have hpre : tokens <+: tokens ++ [token] := prefix_append ..
  have hlen : (tokens ++ [token]).length = tokens.length + 1 := by simp
  have hlast := not_congr (q.matchesAt_length (tokens ++ [token]))
  rw [Option.not_isSome_iff_eq_none] at hlast
  rw [← hlast]
  constructor
  · intro h
    refine ⟨fun k h0 hk hm => ?_, h _ (by omega) le_rfl⟩
    exact h k h0 (by omega) ((Finish.Config.matchesAt_of_isPrefix hpre hk).1 hm)
  · rintro ⟨h, hl⟩ k h0 hk hm
    rcases Nat.lt_or_ge tokens.length k with hlt | hge
    · exact hl (by rwa [le_antisymm hk (hlen ▸ hlt)] at hm)
    · exact h k h0 hge ((Finish.Config.matchesAt_of_isPrefix hpre hge).2 hm)

/-- **A request is finished when the tail had a stop string at some step.** -/
theorem finished_iff (rid : String) (h : q.Undisturbed tokens) :
    (q.run rid tokens).req.finished = true ↔ ¬ q.Unmatched tokens := by
  induction tokens using reverseRecOn with
  | nil => exact iff_of_false Bool.false_ne_true (not_not.2 fun k h0 hk => absurd hk (Nat.not_le.2 h0))
  | append_singleton tokens token ih =>
    have hpre : tokens <+: tokens ++ [token] := prefix_append ..
    have ih := ih (h.of_isPrefix hpre)
    rw [run_concat, step, unmatched_concat]
    by_cases hfin : (q.run rid tokens).req.finished = true
    · rw [if_pos hfin]
      exact iff_of_true hfin fun hun => ih.1 hfin hun.1
    · have hun : q.Unmatched tokens := not_not.1 (mt ih.2 hfin)
      rw [if_neg hfin, (run_unmatched rid (h.of_isPrefix hpre) hun).1, step_req h, and_iff_right hun,
        ← Option.not_isSome_iff_eq_none, not_not]
      exact Bool.eq_iff_iff.1 (Option.isSome_map ..)

/-! ## The messages of a request that finishes by a stop string -/

def job (q : Request) (tokens : List Int) (token : Int) (reason : Finish.FinishReason) : Job where
  prompt := q.prompt
  portions := (q.portionsFrom [] [] tokens).1
  last := (q.portionsFrom [] [] tokens).2 ++ [token]
  reason := reason
  noStopTrim := false
  portions_ne := portionsFrom_ne [] [] tokens
  last_ne := by simp

variable {stopStr : List Char}

theorem sent_of_finished {last : Int} {reason : Finish.FinishReason} (h : q.Undisturbed tokens)
    (hnone : q.Unmatched tokens)
    (hids : (q.config.step ⟨tokens, none, none⟩ [token]).outputIdsThroughStop = tokens ++ [last])
    (hreason : (q.config.step ⟨tokens, none, none⟩ [token]).finishedReason = some reason) :
    (q.run rid (tokens ++ [token])).sent = (q.job tokens last reason).messages rid := by
  obtain ⟨hreq, hrest, hmessages⟩ := run_unmatched rid h hnone
  have hrunning : ¬ (q.run rid tokens).req.finished = true := by rw [hreq]; exact Bool.false_ne_true
  rw [run_concat, step, if_neg hrunning, hreq]
  refine Eq.trans ?_ (hmessages reason [last]).symm
  refine congrArg ((q.run rid tokens).sent ++ ·) ?_
  rw [Sender.messages, ← append_assoc, hrest, Streaming.accept, Finish.Req.finished, hreason, hids]
  rfl

theorem sent_of_matched (h : q.Undisturbed (tokens ++ [token]))
    (hnone : q.Unmatched tokens) (hstr : q.config.matchedStopStr (tokens ++ [token]) = some stopStr) :
    (q.run rid (tokens ++ [token])).sent = (q.job tokens token (.matchedStr stopStr)).messages rid := by
  have hstep := step_req h
  rw [hstr] at hstep
  exact sent_of_finished (h.of_isPrefix (prefix_append ..)) hnone (by rw [hstep]; rfl) (by rw [hstep]; rfl)

theorem outputIds_of_finished {reason : Finish.FinishReason} (h : q.Undisturbed tokens)
    (hreason : (q.config.step ⟨tokens, none, none⟩ [token]).finishedReason = some reason) :
    ∃ last, (q.config.step ⟨tokens, none, none⟩ [token]).outputIdsThroughStop = tokens ++ [last] := by
  have hlen : (tokens ++ [token]).length = tokens.length + 1 := by simp
  have hstep := Finish.Config.step_cases (p := q.config) tokens [token]
  generalize q.config.step ⟨tokens, none, none⟩ [token] = r at hstep hreason
  have hmax : tokens.length < q.config.maxNewTokens := h.1
  cases hstep with
  | length hle =>
    have htake : (tokens ++ [token]).length ≤ q.config.maxNewTokens := by omega
    exact ⟨token, List.take_of_length_le htake⟩
  | token hlt j stop hj hle =>
    have htake : (tokens ++ [token]).length ≤ j := by omega
    exact ⟨token, List.take_of_length_le htake⟩
  | outside hlt hstop j hj hle =>
    obtain rfl : j = tokens.length + 1 := by omega
    refine ⟨q.config.replacement token, ?_⟩
    have hmodify : (tokens ++ [token]).modify tokens.length q.config.replacement
        = tokens ++ [q.config.replacement token] := by simp [modify_eq_take_drop]
    rw [Finish.Req.outputIdsThroughStop, Nat.add_sub_cancel, hmodify]
    exact List.take_of_length_le (by simp)
  | matched => exact ⟨token, rfl⟩
  | running => cases hreason

theorem undisturbed_of_running (h : q.Undisturbed tokens)
    (hreason : (q.config.step ⟨tokens, none, none⟩ [token]).finishedReason = none) :
    q.Undisturbed (tokens ++ [token]) ∧ q.config.matchedStopStr (tokens ++ [token]) = none := by
  have hpre : tokens <+: tokens ++ [token] := prefix_append ..
  have hstep := Finish.Config.step_cases (p := q.config) tokens [token]
  generalize q.config.step ⟨tokens, none, none⟩ [token] = r at hstep hreason
  cases hstep with
  | running hlt hstop hout hstr =>
    refine ⟨⟨hlt, fun k h0 hk => ?_⟩, hstr⟩
    rcases Nat.lt_or_ge tokens.length k with hlast | hle
    · exact ⟨hstop k hlast hk, hout k hlast hk⟩
    · obtain ⟨hstop', hout'⟩ := h.2 k h0 hle
      exact ⟨fun hs => hstop' ((Finish.Config.stopsAt_of_isPrefix hpre h0 hle).2 hs),
        fun ho => hout' ((Finish.Config.at_of_isPrefix hpre h0 hle).2 ho)⟩
  | _ => cases hreason

/-- Whatever is sent is the beginning of the messages of a request. -/
theorem sent_isPrefix (rid : String) (h : q.Undisturbed tokens.dropLast) :
    ∃ j : Job, (q.run rid tokens).sent <+: j.messages rid := by
  induction tokens using reverseRecOn with
  | nil => exact ⟨q.job [] 0 (.matchedStr []), nil_prefix⟩
  | append_singleton tokens token ih =>
    rw [dropLast_concat] at h
    by_cases hfin : (q.run rid tokens).req.finished = true
    · rw [run_concat, step, if_pos hfin]
      exact ih (h.of_isPrefix ( dropLast_prefix tokens))
    · have hun : q.Unmatched tokens := not_not.1 (mt (finished_iff rid h).2 hfin)
      cases hreason : (q.config.step ⟨tokens, none, none⟩ [token]).finishedReason with
      | some reason =>
        obtain ⟨last, hids⟩ := outputIds_of_finished h hreason
        exact ⟨q.job tokens last reason, by rw [sent_of_finished h hun hids hreason]⟩
      | none =>
        obtain ⟨hrunning, hstr⟩ := undisturbed_of_running h hreason
        obtain ⟨-, -, hmessages⟩ := run_unmatched rid hrunning (unmatched_concat.2 ⟨hun, hstr⟩)
        exact ⟨q.job (tokens ++ [token]) 0 (.matchedStr []), _, (hmessages (.matchedStr []) [0]).symm⟩

/-! ## The text of a request that finishes by a stop string -/

theorem finalText_job (tokens : List Int) (token : Int) (stopStr : List Char) :
    (q.job tokens token (.matchedStr stopStr)).finalText q.tokenizer =
      DetokenizerManager.trimMatchedStopStr (q.tokenizer.decode (tokens ++ [token]))
        (some (.matchedStr stopStr)) false := by
  rw [← q.portionsFrom_concat]
  rfl

theorem trim_eq_textBefore (hit : q.Hit tokens) (hmem : stopStr ∈ q.stopStrs) (text : List Char)
    (htext : text = DetokenizerManager.trimMatchedStopStr (q.tokenizer.decode tokens)
      (some (.matchedStr stopStr)) false) :
    text <+: q.tokenizer.decode tokens ∧ (q.textBefore tokens).length ≤ text.length ∧
      (text = q.textBefore tokens ↔ Text.find stopStr (q.tokenizer.decode tokens) =
        Text.findAny q.stopStrs (q.tokenizer.decode tokens)) := by
  obtain ⟨first, hfirst⟩ := Text.exists_findAny hit
  have hlt : first < (q.tokenizer.decode tokens).length := by
    obtain ⟨t, ht, hfind⟩ := Text.exists_of_findAny hfirst
    exact Text.find_lt_length hfind (q.stopStrs_ne t ht)
  have hbefore : q.textBefore tokens = (q.tokenizer.decode tokens).take first := by
    rw [textBefore, hfirst]
    rfl
  rw [hbefore, hfirst, length_take]
  simp only [DetokenizerManager.trimMatchedStopStr, if_neg (q.stopStrs_ne stopStr hmem)] at htext
  cases hfind : Text.find stopStr (q.tokenizer.decode tokens) with
  | none =>
    obtain rfl : text = q.tokenizer.decode tokens := by rw [htext, hfind]
    refine ⟨prefix_refl _, min_le_right .., iff_of_false (fun heq => ?_) (by simp)⟩
    have := congrArg length heq
    rw [length_take] at this
    omega
  | some pos =>
    have hle := Text.findAny_le hfirst hmem hfind
    have hpos := Text.find_lt_length hfind (q.stopStrs_ne stopStr hmem)
    obtain rfl : text = (q.tokenizer.decode tokens).take pos := by rw [htext, hfind]
    refine ⟨List.take_prefix .., by simp only [length_take]; omega, ?_⟩
    rw [take_eq_take_iff, Option.some.injEq]
    omega

theorem flatten_sent_iff (h : q.Undisturbed (tokens ++ [token]))
    (hnone : q.Unmatched tokens) (hstr : q.config.matchedStopStr (tokens ++ [token]) = some stopStr)
    (hit : q.Hit (tokens ++ [token])) (hprompt : q.tokenizer.Complete q.prompt) :
    (feeds q.tokenizer none (q.run rid (tokens ++ [token])).sent).flatten = q.textBefore (tokens ++ [token]) ↔
      Text.find stopStr (q.tokenizer.decode (tokens ++ [token])) =
          Text.findAny q.stopStrs (q.tokenizer.decode (tokens ++ [token])) ∧
        Steady q.tokenizer [] (q.portions (tokens ++ [token])) ∧
        q.shownLength (tokens ++ [token]) ≤ (q.textBefore (tokens ++ [token])).length := by
  have hmem : stopStr ∈ q.stopStrs := mem_of_find?_eq_some hstr
  obtain ⟨hpre, hle, heq⟩ := trim_eq_textBefore hit hmem _ rfl
  have hshown : ∀ u ∈ shown q.tokenizer [] [] (q.job tokens token (.matchedStr stopStr)).portions,
      u <+: q.tokenizer.decode (tokens ++ [token]) := by
    rw [← q.portionsFrom_concat]
    exact shown_isPrefix [] [] (q.portionsFrom [] [] tokens).1 _
  have hportions : q.portions (tokens ++ [token]) = (q.job tokens token (.matchedStr stopStr)).portions := by
    rw [portions, dropLast_concat]
    rfl
  rw [sent_of_matched h hnone hstr, Job.feeds_messages_eq hprompt, finalText_job,
    Increments.flatten_increments_eq_iff hshown hpre hle, Job.grows_texts, heq, shownLength, hportions]
  constructor
  · rintro ⟨⟨hsteady, hlast⟩, hfind⟩
    rw [heq.2 hfind] at hlast
    exact ⟨hfind, hsteady, hlast⟩
  · rintro ⟨hfind, hsteady, hlast⟩
    rw [heq.2 hfind]
    exact ⟨⟨hsteady, hlast⟩, hfind⟩

/-! ## Every request -/

theorem not_hit_nil : ¬ q.Hit [] := by
  rintro ⟨t, ht, hin⟩
  obtain ⟨i, hi⟩ := Option.isSome_iff_exists.1 hin
  exact absurd (Text.find_lt_length hi (q.stopStrs_ne t ht)) (Nat.not_lt_zero i)

theorem unfinished_iff (h : q.Undisturbed tokens) :
    (∀ k < tokens.length, (q.run rid (tokens.take k)).req.finished = false) ↔
      ∀ k, 0 < k → k < tokens.length → ¬ q.config.MatchesAt tokens k := by
  have hpre : ∀ k, tokens.take k <+: tokens := fun k => List.take_prefix ..
  constructor
  · intro hfin k h0 hk hm
    have hlen : (tokens.take k).length = k := by rw [length_take]; omega
    have hm' := (Finish.Config.matchesAt_of_isPrefix (hpre k) hlen.ge).2 hm
    have := (finished_iff rid (h.of_isPrefix (hpre k))).2 fun hun => hun k h0 hlen.ge hm'
    rw [hfin k hk] at this
    cases this
  · intro hnone k hk
    rw [← Bool.not_eq_true, finished_iff rid (h.of_isPrefix (hpre k)), not_not]
    intro i h0 hi hm
    have hlt : i < tokens.length := by
      rw [length_take] at hi
      omega
    exact hnone i h0 hlt ((Finish.Config.matchesAt_of_isPrefix (hpre k) hi).1 hm)

section

variable (h : q.Undisturbed tokens)
  (hnone : ∀ k, 0 < k → k < tokens.length → ¬ q.config.MatchesAt tokens k)
include h hnone

theorem finished_iff_last :
    (q.run rid tokens).req.finished = true ↔
      0 < tokens.length ∧ q.config.MatchesAt tokens tokens.length := by
  rw [finished_iff rid h, not_iff_comm]
  constructor
  · intro hlast k h0 hk hm
    rcases Nat.lt_or_ge k tokens.length with hlt | hge
    · exact hnone k h0 hlt hm
    · rw [le_antisymm hk hge] at h0 hm
      exact hlast ⟨h0, hm⟩
  · exact fun hun hm => hun _ hm.1 le_rfl hm.2

theorem text_iff (h0 : 0 < tokens.length) (hm : q.config.MatchesAt tokens tokens.length)
    (hit : q.Hit tokens) (hprompt : q.tokenizer.Complete q.prompt) :
    (feeds q.tokenizer none (q.run rid tokens).sent).flatten = q.textBefore tokens ↔
      (∀ stopStr, q.config.matchedStopStr tokens = some stopStr →
        Text.find stopStr (q.tokenizer.decode tokens) =
          Text.findAny q.stopStrs (q.tokenizer.decode tokens)) ∧
        Steady q.tokenizer [] (q.portions tokens) ∧
        q.shownLength tokens ≤ (q.textBefore tokens).length := by
  rw [matchesAt_length] at hm
  obtain ⟨stopStr, hstr⟩ := Option.isSome_iff_exists.1 hm
  rcases eq_nil_or_concat tokens with rfl | ⟨init, token, rfl⟩
  · exact absurd h0 (lt_irrefl 0)
  · rw [concat_eq_append] at *
    have hinit : q.Unmatched init := by
      intro k hk hle hmk
      refine hnone k hk ?_ ((Finish.Config.matchesAt_of_isPrefix (prefix_append ..) hle).1 hmk)
      rw [length_append, length_singleton]
      omega
    rw [flatten_sent_iff h hinit hstr hit hprompt, hstr]
    exact and_congr_left fun _ => ⟨fun hfind s hs => Option.some.inj hs ▸ hfind, fun hfind => hfind _ rfl⟩

end

theorem honoured_iff (h : q.Undisturbed tokens) (hfirst : ∀ k < tokens.length, ¬ q.Hit (tokens.take k))
    (hprompt : q.tokenizer.Complete q.prompt) :
    q.Honoured rid tokens (feeds q.tokenizer none (q.run rid tokens).sent) ↔ q.Clear tokens := by
  constructor
  · rintro ⟨hbefore, hfinished, htext⟩
    have hnone := (unfinished_iff h).1 hbefore
    rw [finished_iff_last h hnone] at hfinished
    have hclear : q.Hit tokens → _ := fun hit =>
      (text_iff h hnone (hfinished.2 hit).1 (hfinished.2 hit).2 hit hprompt).1 (htext hit)
    refine ⟨h, hprompt, fun k h0 hk => ?_, fun hit => (hclear hit).1, fun hit => (hclear hit).2.1,
      fun hit => (hclear hit).2.2⟩
    rcases Nat.lt_or_ge k tokens.length with hlt | hge
    · exact iff_of_false (hnone k h0 hlt) (hfirst k hlt)
    · obtain rfl : k = tokens.length := le_antisymm hk hge
      rw [take_length, ← hfinished]
      exact (and_iff_right h0).symm
  · rintro ⟨-, -, htail, hearliest, hsteady, hbehind⟩
    have hnone : ∀ k, 0 < k → k < tokens.length → ¬ q.config.MatchesAt tokens k := fun k h0 hk hm =>
      hfirst k hk ((htail k h0 hk.le).1 hm)
    have hlast : 0 < tokens.length ∧ q.config.MatchesAt tokens tokens.length ↔ q.Hit tokens := by
      constructor
      · rintro ⟨h0, hm⟩
        simpa using (htail _ h0 le_rfl).1 hm
      · intro hit
        have h0 : 0 < tokens.length := by
          refine length_pos_iff.2 fun hnil => not_hit_nil (q := q) ?_
          rwa [hnil] at hit
        exact ⟨h0, (htail _ h0 le_rfl).2 (by rwa [take_length])⟩
    refine ⟨(unfinished_iff h).2 hnone, (finished_iff_last h hnone).trans hlast, fun hit => ?_⟩
    obtain ⟨h0, hm⟩ := hlast.2 hit
    exact (text_iff h hnone h0 hm hit hprompt).2 ⟨hearliest hit, hsteady hit, hbehind hit⟩

end Request

/-- **Stop strings are honoured when the way of the request is clear**, and only then if nothing else ends it
    with this token and the prompt ends with a character. -/
theorem stop_strings_honoured_iff (q : Request) (tokens : List Int) (hearlier : q.Undisturbed tokens.dropLast)
    (hfirst : ∀ k < tokens.length, ¬ q.Hit (tokens.take k))
    (rid : String) (capacity : Nat) (jobs : String → Job) (batches : List (List Entry))
    (hnodup : ∀ batch ∈ batches, (batch.map Entry.rid).Nodup) (hfits : Fits capacity ∅ batches)
    (hothers : ∀ r, r ≠ rid → messagesOf r batches <+: (jobs r).messages r)
    (hown : messagesOf rid batches = (q.run rid tokens).sent) :
    ∃ m outs, DetokenizerManager.run ⟨q.tokenizer, capacity, false, .empty⟩ batches = .ok (m, outs) ∧
      (q.Clear tokens → q.Honoured rid tokens (incrementsOf rid outs)) ∧
      (q.Undisturbed tokens → q.tokenizer.Complete q.prompt →
        q.Honoured rid tokens (incrementsOf rid outs) → q.Clear tokens) := by
  have hreads : ∀ r, Reads q.tokenizer none (messagesOf r batches) := by
    intro r
    by_cases hr : r = rid
    · obtain ⟨j, hj⟩ := Request.sent_isPrefix rid hearlier
      subst hr
      rw [hown]
      exact (Job.reads_messages r).of_isPrefix hj
    · exact (Job.reads_messages r).of_isPrefix (hothers r hr)
  obtain ⟨m, outs, hrun, hincs⟩ :=
    run_eq (m := ⟨q.tokenizer, capacity, false, .empty⟩) rfl hnodup hfits hreads
  have hincs' : incrementsOf rid outs = feeds q.tokenizer none (q.run rid tokens).sent := by
    rw [hincs, hown]
    rfl
  refine ⟨m, outs, hrun, ?_⟩
  rw [hincs']
  exact ⟨fun hclear => (Request.honoured_iff hclear.undisturbed hfirst hclear.prompt).2 hclear,
    fun hundisturbed hprompt => (Request.honoured_iff hundisturbed hfirst hprompt).1⟩

/-! ## Requests whose stop strings are and are not honoured -/

/-- Tokens of one byte, and three of several. -/
def byteTokenizer : Tokenizer where
  bytes id :=
    if id = 300 then [0x61, 0x62, 0x63]
    else if id = 301 then [0x61, 0x62]
    else if id = 302 then [0x61, 0xC3]
    else [UInt8.ofNat id.toNat]

def streamed (stopStrs : List (List Char)) (hne : ∀ stopStr ∈ stopStrs, stopStr ≠ []) : Request where
  tokenizer := byteTokenizer
  encode text := if text = ['a', 'b', 'c'] then [300] else text.map fun c => (c.toNat : Int)
  eosTokenId := none
  additionalStopTokenIds := []
  prompt := [120]
  maxNewTokens := 100
  stopTokenIds := []
  stopStrs := stopStrs
  ignoreEos := true
  eosTokenIds := []
  vocabSize := 400
  streaming := ⟨true, 1, 50, by decide, by decide⟩
  stopStrs_ne := hne

theorem undisturbed_streamed {stopStrs : List (List Char)} {hne : ∀ stopStr ∈ stopStrs, stopStr ≠ []}
    {tokens : List Int} (hlen : tokens.length < 100) (hin : ∀ token ∈ tokens, 0 ≤ token ∧ token ≤ 400) :
    (streamed stopStrs hne).Undisturbed tokens := by
  refine ⟨hlen, fun k h0 hk => ⟨fun hstop => Bool.noConfusion hstop.1, ?_⟩⟩
  rintro ⟨token, htoken, hout⟩
  obtain ⟨hlow, hhigh⟩ := hin token (mem_of_getElem? htoken)
  have hsize : (streamed stopStrs hne).config.vocabSize = 400 := rfl
  simp only [Finish.Config.isOutside, hsize, Bool.or_eq_true, decide_eq_true_eq] at hout
  omega

theorem stop_strings_honoured_held_back :
    ∃ m outs, DetokenizerManager.run ⟨byteTokenizer, 1, false, .empty⟩
        [[⟨"r", none, [], [120, 120], 1, false⟩],
          [⟨"r", some (.matchedStr ['a', 'b']), [], [97, 98], 1, false⟩]] = .ok (m, outs) ∧
      ((streamed [['a', 'b']] (by decide)).run "r" [120, 97, 98]).req.finished = true ∧
      (incrementsOf "r" outs).flatten = ['x'] := by
  have hclear : (streamed [['a', 'b']] (by decide)).Clear [120, 97, 98] := by
    refine ⟨undisturbed_streamed (by decide) (by decide), rfl, fun k h0 hk => ?_, fun _ stopStr hstr => ?_,
      fun _ => by decide +kernel, fun _ => by decide +kernel⟩
    · rw [Finish.Config.MatchesAt]
      have hk' : k ≤ 3 := hk
      interval_cases k <;> decide +kernel
    · have : (streamed [['a', 'b']] (by decide)).config.matchedStopStr [120, 97, 98] = some ['a', 'b'] := by
        decide +kernel
      cases hstr
      decide +kernel
  obtain ⟨m, outs, hrun, h⟩ := stop_strings_honoured_iff (streamed [['a', 'b']] (by decide)) [120, 97, 98]
    (undisturbed_streamed (by decide) (by decide)) (by decide +kernel) "r" 1
    (fun _ => otherJob) [[⟨"r", none, [], [120, 120], 1, false⟩],
      [⟨"r", some (.matchedStr ['a', 'b']), [], [97, 98], 1, false⟩]] (by decide +kernel)
    ⟨by decide +kernel, by decide +kernel, trivial⟩
    (fun r hr => by
      have hnone : messagesOf r [[⟨"r", none, [], [120, 120], 1, false⟩],
          [⟨"r", some (.matchedStr ['a', 'b']), [], [97, 98], 1, false⟩]] = [] := by
        simp [messagesOf, Ne.symm hr]
      rw [hnone]
      exact nil_prefix)
    (by decide +kernel)
  obtain ⟨-, hfinished, htext⟩ := h.1 hclear
  have hit : (streamed [['a', 'b']] (by decide)).Hit [120, 97, 98] := by decide +kernel
  exact ⟨m, outs, hrun, hfinished.2 hit, (htext hit).trans (by decide +kernel)⟩

def outcome (q : Request) (tokens : List Int) : Bool × Option (List Char) :=
  ((q.run "r" tokens).req.finished,
    match DetokenizerManager.run ⟨q.tokenizer, 1, false, .empty⟩ ((q.run "r" tokens).sent.map fun e => [e]) with
    | .ok (_, outs) => some (incrementsOf "r" outs).flatten
    | .error _ => none)

/-- **A stop string in other tokens than its own is missed, a string that is listed first wins over one that
    begins first, and the beginning of a stop string is sent before a character that is cut.** -/
theorem stop_strings_not_honoured :
    (outcome (streamed [['a', 'b', 'c']] (by decide)) [97, 98, 99] = (false, some ['a', 'b', 'c']) ∧
      (streamed [['a', 'b', 'c']] (by decide)).Hit [97, 98, 99]) ∧
    (outcome (streamed [['b'], ['a', 'b']] (by decide)) [301] = (true, some ['a']) ∧
      (streamed [['b'], ['a', 'b']] (by decide)).textBefore [301] = []) ∧
    (outcome (streamed [[' ', 'a', 'é']] (by decide)) [120, 32, 302, 0xA9] = (true, some ['x', ' ']) ∧
      (streamed [[' ', 'a', 'é']] (by decide)).textBefore [120, 32, 302, 0xA9] = ['x']) := by
  decide +kernel

end Detokenizer
