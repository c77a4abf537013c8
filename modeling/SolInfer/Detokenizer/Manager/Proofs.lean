import SolInfer.Detokenizer.Manager.Batches
import SolInfer.Lib.Increments

set_option autoImplicit false

/-! # Incremental decoding and decoding everything

The text of a request is what has been decoded for good, followed by what can be shown of the tokens since.
Offsets only move past complete characters, so the difference of the two decodings is the decoding of the
tokens since; the increments are those of the texts shown one after another. -/

open List

namespace Detokenizer

open OutputStreamer (Entry Sender promptTail rows)
open Increments (increments Grows lastLength)

variable {tokenizer : Tokenizer} {s : DecodeStatus} {pending : List Int} {e : Entry}

/-! ## Decoding tokens -/

namespace Tokenizer

theorem bytesOf_append (a b : List Int) :
    tokenizer.bytesOf (a ++ b) = tokenizer.bytesOf a ++ tokenizer.bytesOf b := flatMap_append

/-- The tokens end at a character boundary. -/
def Complete (tokenizer : Tokenizer) (ids : List Int) : Prop := Lossy.Complete (tokenizer.bytesOf ids)

variable {a : List Int}

theorem decode_append (h : tokenizer.Complete a) (b : List Int) :
    tokenizer.decode (a ++ b) = tokenizer.decode a ++ tokenizer.decode b := by
  rw [decode, bytesOf_append, Lossy.decode_append h]
  rfl

theorem Complete.append {b : List Int} (ha : tokenizer.Complete a) (hb : tokenizer.Complete b) :
    tokenizer.Complete (a ++ b) := by
  rw [Complete, bytesOf_append]
  exact Lossy.Complete.append ha hb

theorem Complete.drop (h : tokenizer.Complete a) (n : Nat) : tokenizer.Complete (a.drop n) := by
  rw [← take_append_drop n a, Complete, bytesOf_append] at h
  exact Lossy.Complete.suffix h

theorem length_decode_le (a b : List Int) : (tokenizer.decode a).length ≤ (tokenizer.decode (a ++ b)).length := by
  rw [decode, decode, bytesOf_append]
  exact Lossy.length_decode_le ..

/-- The text is kept: it is not empty and does not end in a replacement character. -/
def Kept (tokenizer : Tokenizer) (ids : List Int) : Prop :=
  tokenizer.decode ids ≠ [] ∧ (tokenizer.decode ids).getLast? ≠ some Lossy.replacement

instance (ids : List Int) : Decidable (tokenizer.Kept ids) := inferInstanceAs (Decidable (_ ∧ _))

theorem Kept.complete {ids : List Int} (h : tokenizer.Kept ids) : tokenizer.Complete ids :=
  Lossy.complete_of_getLast h.2

end Tokenizer

/-! ## What can be shown of a text -/

theorem untilLastSpace_isPrefix (text : List Char) : untilLastSpace text <+: text := by
  rw [untilLastSpace, ← reverse_suffix, reverse_reverse]
  exact dropWhile_suffix _

/-- A replacement character at the end is not shown. -/
theorem findPrintableText_isPrefix (text : List Char) :
    findPrintableText (text ++ [Lossy.replacement]) <+: text := by
  unfold findPrintableText
  rw [getLast?_concat, dropLast_concat, if_neg (by decide), if_neg (by decide)]
  split
  · exact prefix_refl _
  · have : untilLastSpace (text ++ [Lossy.replacement]) = untilLastSpace text := by
      rw [untilLastSpace, reverse_concat, dropWhile_cons_of_pos (by decide)]
      rfl
    rw [this]
    exact untilLastSpace_isPrefix text

theorem findPrintableText_nil : findPrintableText [] = [] := rfl

theorem printable_isPrefix {ids : List Int} (h : ¬ tokenizer.Kept ids) (more : List Int) :
    findPrintableText (tokenizer.decode ids) <+: tokenizer.decode (ids ++ more) := by
  rw [Tokenizer.Kept, not_and_not_right] at h
  rcases eq_nil_or_concat (tokenizer.decode ids) with hnil | ⟨text, c, htext⟩
  · rw [hnil]
    exact nil_prefix
  · have hlast := h (by rw [htext]; simp)
    rw [htext, concat_eq_append, getLast?_concat] at hlast
    cases hlast
    have hdrop := Lossy.dropLast_decode_prefix (tokenizer.bytesOf ids) (tokenizer.bytesOf more)
    rw [← Tokenizer.bytesOf_append] at hdrop
    change (tokenizer.decode ids).dropLast <+: tokenizer.decode (ids ++ more) at hdrop
    rw [htext, concat_eq_append, dropLast_concat] at hdrop
    rw [htext, concat_eq_append]
    exact (findPrintableText_isPrefix text).trans hdrop

/-! ## The texts shown -/

def nextDone (tokenizer : Tokenizer) (done : List Char) (pending portion : List Int) : List Char :=
  if tokenizer.Kept (pending ++ portion) then done ++ tokenizer.decode (pending ++ portion) else done

def nextPending (tokenizer : Tokenizer) (pending portion : List Int) : List Int :=
  if tokenizer.Kept (pending ++ portion) then [] else pending ++ portion

def shownText (tokenizer : Tokenizer) (done : List Char) (pending portion : List Int) : List Char :=
  if tokenizer.Kept (pending ++ portion) then done ++ tokenizer.decode (pending ++ portion)
  else done ++ findPrintableText (tokenizer.decode (pending ++ portion))

def shown (tokenizer : Tokenizer) : List Char → List Int → List (List Int) → List (List Char)
  | _, _, [] => []
  | done, pending, portion :: portions =>
    shownText tokenizer done pending portion ::
      shown tokenizer (nextDone tokenizer done pending portion) (nextPending tokenizer pending portion) portions

/-- While the text of the tokens is not kept, no portion takes back what is shown of it. -/
def Steady (tokenizer : Tokenizer) : List Int → List (List Int) → Prop
  | _, [] => True
  | pending, portion :: portions =>
    (¬ tokenizer.Kept (pending ++ portion) →
      (findPrintableText (tokenizer.decode pending)).length ≤
        (findPrintableText (tokenizer.decode (pending ++ portion))).length) ∧
      Steady tokenizer (nextPending tokenizer pending portion) portions

instance decidableSteady (tokenizer : Tokenizer) :
    ∀ pending portions, Decidable (Steady tokenizer pending portions)
  | _, [] => inferInstanceAs (Decidable True)
  | pending, portion :: portions =>
    have := decidableSteady tokenizer (nextPending tokenizer pending portion) portions
    inferInstanceAs (Decidable ((_ → _) ∧ _))

theorem shown_isPrefix (done : List Char) (pending : List Int) (portions : List (List Int)) (more : List Int) :
    ∀ u ∈ shown tokenizer done pending portions,
      u <+: done ++ tokenizer.decode (pending ++ (portions.flatten ++ more)) := by
  induction portions generalizing done pending with
  | nil => exact nofun
  | cons portion portions ih =>
    intro u hu
    have hassoc : pending ++ ((portion :: portions).flatten ++ more) =
        (pending ++ portion) ++ (portions.flatten ++ more) := by
      rw [flatten_cons, append_assoc, append_assoc]
    rw [hassoc]
    have hih := ih (nextDone tokenizer done pending portion) (nextPending tokenizer pending portion)
    rw [shown, shownText, mem_cons] at hu
    rw [nextDone, nextPending] at hu hih
    by_cases hk : tokenizer.Kept (pending ++ portion)
    · simp only [if_pos hk] at hu hih
      rw [Tokenizer.decode_append hk.complete, ← append_assoc]
      rcases hu with rfl | hu
      · exact prefix_append ..
      · exact hih u hu
    · simp only [if_neg hk] at hu hih
      rcases hu with rfl | hu
      · exact prefix_append_right_inj _ |>.2 (printable_isPrefix hk _)
      · exact hih u hu

/-- **The texts never get shorter exactly when the portions are steady.** -/
theorem grows_shown (done : List Char) (hpending : ¬ tokenizer.Kept pending) (portions : List (List Int)) :
    Grows (done ++ findPrintableText (tokenizer.decode pending)).length
        (shown tokenizer done pending portions) ↔ Steady tokenizer pending portions := by
  induction portions generalizing done pending with
  | nil => exact Iff.rfl
  | cons portion portions ih =>
    rw [shown, Grows, Steady, shownText, nextDone, nextPending]
    by_cases hk : tokenizer.Kept (pending ++ portion)
    · simp only [if_pos hk]
      have hle := (printable_isPrefix hpending portion).length_le
      have hnil : ¬ tokenizer.Kept [] := fun h => h.1 rfl
      have hih := ih (done ++ tokenizer.decode (pending ++ portion)) hnil
      rw [show tokenizer.decode [] = [] from rfl, findPrintableText_nil, append_nil] at hih
      rw [hih]
      constructor
      · exact fun h => ⟨fun hnot => absurd hk hnot, h.2⟩
      · refine fun h => ⟨?_, h.2⟩
        simp only [length_append]
        omega
    · simp only [if_neg hk]
      rw [ih done hk]
      simp only [length_append, Nat.add_le_add_iff_left]
      exact and_congr_left fun _ => ⟨fun h _ => h, fun h => h hk⟩

/-! ## The status follows the text -/

/-- The status has read complete characters, and then the given tokens. -/
structure Tracks (tokenizer : Tokenizer) (s : DecodeStatus) (pending : List Int) : Prop where
  split : ∃ before, s.decodeIds = before ++ pending ∧ s.readOffset = before.length ∧
    s.surrOffset ≤ before.length ∧ tokenizer.Complete before

structure InRange (s : DecodeStatus) : Prop where
  surr : s.surrOffset ≤ s.decodeIds.length
  read : s.readOffset ≤ s.decodeIds.length

theorem InRange.readable (h : InRange s) (he : e.decodeIds ≠ []) : Readable (some s) e := by
  have hlen : s.surrOffset < (s.decodeIds ++ e.decodeIds).length := by
    have := h.surr
    have := length_pos_iff.2 he
    rw [length_append]
    omega
  exact fun hnil => absurd (drop_eq_nil_iff.1 hnil) (Nat.not_le.2 hlen)

theorem InRange.feed_stream (h : InRange s) (hreason : e.finishedReason = none) :
    ∃ s', (feed tokenizer (some s) e).1 = some s' ∧ InRange s' := by
  have hsurr := h.surr
  have hread := h.read
  simp only [feed, extended, DecodeStatus.emit, hreason]
  refine ⟨_, rfl, ?_⟩
  unfold DecodeStatus.stream
  split
  · refine ⟨?_, Nat.le_refl _⟩
    simp only [DecodeStatus.extend, length_append]
    omega
  · refine ⟨?_, ?_⟩
    · simp only [DecodeStatus.extend, length_append]
      omega
    · simp only [DecodeStatus.extend, length_append]
      omega

theorem trimmed_append (a : List Int) {b : List Int} (hb : b ≠ []) (finishedReason : Option Finish.FinishReason)
    (noStopTrim : Bool) :
    trimmed (a ++ b) finishedReason noStopTrim = a ++ trimmed b finishedReason noStopTrim := by
  unfold trimmed
  split
  · split
    · rfl
    · exact dropLast_append_of_ne_nil hb
  · rfl

section

variable (h : Tracks tokenizer s pending) (he : e.decodeIds ≠ [])
include h he

/-- **The difference of the two decodings is the decoding of the tokens since.** -/
theorem Tracks.newText :
    (texts tokenizer (s.extend e) e).1.drop (texts tokenizer (s.extend e) e).2.length =
      tokenizer.decode (pending ++ trimmed e.decodeIds e.finishedReason e.noStopTrim) := by
  obtain ⟨before, hids, hread, hsurr, hcomplete⟩ := h.split
  have hsurrIds : (s.extend e).surrIds = before.drop s.surrOffset := by
    simp only [DecodeStatus.surrIds, DecodeStatus.extend, hids, hread, append_assoc, take_left]
  have hreadIds : readIds (s.extend e) e =
      before.drop s.surrOffset ++ (pending ++ trimmed e.decodeIds e.finishedReason e.noStopTrim) := by
    simp only [readIds, DecodeStatus.extend]
    rw [hids, append_assoc, drop_append_of_le_length hsurr, ← append_assoc,
      trimmed_append _ he, append_assoc]
  simp only [texts, hsurrIds, hreadIds]
  rw [Tokenizer.decode_append (hcomplete.drop _), drop_left]

theorem Tracks.feed_stream (hreason : e.finishedReason = none) :
    ∃ s', feed tokenizer (some s) e =
        (some s', (shownText tokenizer s.decodedText pending e.decodeIds).drop s.sentOffset) ∧
      s'.sentOffset = (shownText tokenizer s.decodedText pending e.decodeIds).length ∧
      s'.decodedText = nextDone tokenizer s.decodedText pending e.decodeIds ∧
      Tracks tokenizer s' (nextPending tokenizer pending e.decodeIds) := by
  have htext := h.newText he
  have htrim : trimmed e.decodeIds e.finishedReason e.noStopTrim = e.decodeIds := by
    rw [hreason]
    cases e.noStopTrim <;> rfl
  have hstr : ∀ text, DetokenizerManager.trimMatchedStopStr text none e.noStopTrim = text := by
    intro text
    cases e.noStopTrim <;> rfl
  obtain ⟨before, hids, hread, hsurr, hcomplete⟩ := h.split
  rw [htrim] at htext
  simp only [feed, extended, DecodeStatus.emit, hreason, htext, hstr]
  rw [shownText, nextDone, nextPending, DecodeStatus.stream]
  by_cases hk : tokenizer.Kept (pending ++ e.decodeIds)
  · have hk' := hk
    rw [Tokenizer.Kept] at hk'
    rw [if_pos hk', if_pos hk, if_pos hk, if_pos hk]
    refine ⟨_, Prod.ext rfl ?_, ?_, rfl, ⟨_, (append_nil _).symm, rfl, ?_, ?_⟩⟩
    · simp [DecodeStatus.extend]
    · simp [DecodeStatus.extend]
    · simp only [DecodeStatus.extend, hids, hread, length_append]
      omega
    · simp only [DecodeStatus.extend, hids, append_assoc]
      exact hcomplete.append hk.complete
  · have hk' := hk
    rw [Tokenizer.Kept] at hk'
    rw [if_neg hk', if_neg hk, if_neg hk, if_neg hk]
    refine ⟨_, rfl, rfl, rfl, ⟨before, ?_, hread, hsurr, hcomplete⟩⟩
    simp [DecodeStatus.extend, hids]

theorem Tracks.feed_last {reason : Finish.FinishReason} (hreason : e.finishedReason = some reason) :
    (feed tokenizer (some s) e).2 =
      (DetokenizerManager.trimMatchedStopStr
        (s.decodedText ++ tokenizer.decode (pending ++ trimmed e.decodeIds (some reason) e.noStopTrim))
        (some reason) e.noStopTrim).drop s.sentOffset := by
  have htext := h.newText he
  simp only [feed, extended, DecodeStatus.emit, hreason, htext]
  rfl

end

variable {last : List Int} {portions : List (List Int)} (rid : String) (noStopTrim : Bool)
  (reason : Finish.FinishReason) (n : Nat)

theorem InRange.reads_rows (h : InRange s) (hportions : ∀ p ∈ portions, p ≠ []) (hlast : last ≠ []) :
    Reads tokenizer (some s) (rows rid noStopTrim reason n portions last) := by
  induction portions generalizing s with
  | nil => exact ⟨h.readable hlast, trivial⟩
  | cons portion portions ih =>
    refine ⟨h.readable (hportions portion mem_cons_self), ?_⟩
    obtain ⟨s', hfeed, hs'⟩ := h.feed_stream (e := ⟨rid, none, [], portion, n, noStopTrim⟩) rfl
    rw [hfeed]
    exact ih hs' fun p hp => hportions p (.tail _ hp)

theorem next_append_decode (done : List Char) (pending portion more : List Int) :
    nextDone tokenizer done pending portion ++
        tokenizer.decode (nextPending tokenizer pending portion ++ more) =
      done ++ tokenizer.decode (pending ++ (portion ++ more)) := by
  rw [nextDone, nextPending, ← append_assoc pending]
  by_cases hk : tokenizer.Kept (pending ++ portion)
  · rw [if_pos hk, if_pos hk, Tokenizer.decode_append hk.complete, nil_append, append_assoc]
  · rw [if_neg hk, if_neg hk]

/-- **The increments of a request** are those of the texts shown, and of the text at its end. -/
theorem Tracks.feeds_rows (h : Tracks tokenizer s pending) (hportions : ∀ p ∈ portions, p ≠ [])
    (hlast : last ≠ []) :
    feeds tokenizer (some s) (rows rid noStopTrim reason n portions last) =
      increments s.sentOffset (shown tokenizer s.decodedText pending portions ++
        [DetokenizerManager.trimMatchedStopStr
          (s.decodedText ++ tokenizer.decode (pending ++ (portions.flatten ++
            trimmed last (some reason) noStopTrim))) (some reason) noStopTrim]) := by
  induction portions generalizing s pending with
  | nil => exact congrArg (fun text => [text]) (h.feed_last hlast rfl)
  | cons portion portions ih =>
    obtain ⟨s', hfeed, hsent, hdone, hs'⟩ := h.feed_stream (e := ⟨rid, none, [], portion, n, noStopTrim⟩)
      (hportions portion mem_cons_self) rfl
    have hfeeds := ih hs' fun p hp => hportions p (.tail _ hp)
    change (feed tokenizer (some s) _).2 :: feeds tokenizer (feed tokenizer (some s) _).1
      (rows rid noStopTrim reason n portions last) = _
    rw [hfeed]
    simp only
    rw [hfeeds, hsent, hdone, shown, cons_append, increments, next_append_decode, flatten_cons,
      append_assoc]

/-! ## Requests -/

/-- A request whose output is sent in portions that are not empty, the last one when it finishes. -/
structure Job where
  prompt : List Int
  portions : List (List Int)
  last : List Int
  reason : Finish.FinishReason
  noStopTrim : Bool
  portions_ne : ∀ p ∈ portions, p ≠ []
  last_ne : last ≠ []

namespace Job

variable (j : Job)

def messages (rid : String) : List Entry :=
  Sender.messages rid j.noStopTrim j.reason (.new j.prompt) j.portions j.last

def outputIds : List Int := j.portions.flatten ++ j.last

def finalText (tokenizer : Tokenizer) : List Char :=
  DetokenizerManager.trimMatchedStopStr
    (tokenizer.decode (j.portions.flatten ++ trimmed j.last (some j.reason) j.noStopTrim)) (some j.reason)
    j.noStopTrim

variable {j}

def start (j : Job) : DecodeStatus := ⟨[], promptTail j.prompt, 0, (promptTail j.prompt).length, 0⟩

theorem inRange_start : InRange j.start := ⟨Nat.zero_le _, Nat.le_refl _⟩

theorem tracks_start (hprompt : tokenizer.Complete j.prompt) : Tracks tokenizer j.start [] :=
  ⟨promptTail j.prompt, (append_nil _).symm, rfl, Nat.zero_le _, hprompt.drop _⟩

theorem feeds_messages (rid : String) :
    feeds tokenizer none (j.messages rid) = feeds tokenizer (some j.start)
      (rows rid j.noStopTrim j.reason (promptTail j.prompt).length j.portions j.last) := by
  rw [messages, Sender.messages_new]
  cases j.portions with
  | nil => rfl
  | cons portion portions => rfl

theorem reads_messages (rid : String) : Reads tokenizer none (j.messages rid) := by
  have h : Reads tokenizer (some j.start)
      (rows rid j.noStopTrim j.reason (promptTail j.prompt).length j.portions j.last) :=
    inRange_start.reads_rows rid j.noStopTrim j.reason _ j.portions_ne j.last_ne
  rw [messages, Sender.messages_new]
  cases hportions : j.portions with
  | nil =>
    rw [hportions] at h
    exact h
  | cons portion portions =>
    rw [hportions] at h
    exact h

theorem feeds_messages_eq (hprompt : tokenizer.Complete j.prompt) (rid : String) :
    feeds tokenizer none (j.messages rid) =
      increments 0 (shown tokenizer [] [] j.portions ++ [j.finalText tokenizer]) := by
  rw [feeds_messages, (tracks_start hprompt).feeds_rows rid j.noStopTrim j.reason _ j.portions_ne j.last_ne]
  rfl

theorem grows_texts (t : List Char) :
    Grows 0 (shown tokenizer [] [] j.portions ++ [t]) ↔
      Steady tokenizer [] j.portions ∧ lastLength 0 (shown tokenizer [] [] j.portions) ≤ t.length := by
  have hnil : ¬ tokenizer.Kept [] := fun h => h.1 rfl
  rw [Increments.grows_concat]
  exact and_congr_left fun _ => grows_shown [] hnil j.portions

/-- The decoding of all output tokens, without the stop token unless it is not to be trimmed. -/
def expected (j : Job) (tokenizer : Tokenizer) : List Char :=
  match j.reason, j.noStopTrim with
  | .matchedToken _, false => tokenizer.decode j.outputIds.dropLast
  | _, _ => tokenizer.decode j.outputIds

/-- The request finishes by its length or by a stop token. -/
inductive Ends (j : Job) : Prop where
  | length (n : Nat) (h : j.reason = .length n)
  | stopToken (id : Int) (h : j.reason = .matchedToken id) (hlast : j.last.getLast? = some id)

/-- No portion takes back what is shown, and a stop token 0 that is to be trimmed adds no text. -/
def Faithful (j : Job) (tokenizer : Tokenizer) : Prop :=
  Steady tokenizer [] j.portions ∧
    (j.reason = .matchedToken 0 → j.noStopTrim = false →
      tokenizer.decode j.outputIds = tokenizer.decode j.outputIds.dropLast)

theorem dropLast_outputIds : j.outputIds.dropLast = j.portions.flatten ++ j.last.dropLast :=
  dropLast_append_of_ne_nil j.last_ne

/-- The text at the end is the expected one unless a stop token 0 is left in it. -/
theorem finalText_eq (tokenizer : Tokenizer) (hends : j.Ends) :
    (∃ more, j.finalText tokenizer = tokenizer.decode (j.portions.flatten ++ more)) ∧
      (j.expected tokenizer).length ≤ (j.finalText tokenizer).length ∧
      (j.finalText tokenizer = j.expected tokenizer ↔
        (j.reason = .matchedToken 0 → j.noStopTrim = false →
          tokenizer.decode j.outputIds = tokenizer.decode j.outputIds.dropLast)) := by
  have htext : j.finalText tokenizer =
      tokenizer.decode (j.portions.flatten ++ trimmed j.last (some j.reason) j.noStopTrim) := by
    unfold finalText DetokenizerManager.trimMatchedStopStr
    cases hends with
    | length n h => cases j.noStopTrim <;> simp [h]
    | stopToken id h hlast => cases j.noStopTrim <;> simp [h]
  refine ⟨⟨_, htext⟩, ?_⟩
  rw [htext]
  cases hends with
  | length n h => cases hno : j.noStopTrim <;> simp [expected, outputIds, trimmed, h, hno]
  | stopToken id h hlast =>
    cases hno : j.noStopTrim with
    | true => simp [expected, outputIds, trimmed, h, hno]
    | false =>
      have hexpected : j.expected tokenizer = tokenizer.decode (j.portions.flatten ++ j.last.dropLast) := by
        simp only [expected, h, hno, dropLast_outputIds]
      by_cases hid : id = 0
      · subst hid
        have hsplit := dropLast_concat_getLast j.last_ne
        have hle : (tokenizer.decode (j.portions.flatten ++ j.last.dropLast)).length ≤
            (tokenizer.decode (j.portions.flatten ++ j.last)).length := by
          conv_rhs => rw [← hsplit, ← append_assoc]
          exact Tokenizer.length_decode_le ..
        rw [hexpected, dropLast_outputIds]
        simpa [trimmed, h, outputIds] using hle
      · simp [hexpected, trimmed, h, hid]

/-- **The increments of a request are the decoding of its output exactly when it is faithful.** -/
theorem flatten_feeds_messages (hprompt : tokenizer.Complete j.prompt) (hends : j.Ends) (rid : String) :
    (feeds tokenizer none (j.messages rid)).flatten = j.expected tokenizer ↔ j.Faithful tokenizer := by
  obtain ⟨⟨more, hmore⟩, hle, heq⟩ := finalText_eq tokenizer hends
  have hpre : ∀ u ∈ shown tokenizer [] [] j.portions, u <+: j.finalText tokenizer := by
    rw [hmore]
    exact shown_isPrefix [] [] j.portions more
  rw [feeds_messages_eq hprompt, Increments.flatten_increments_eq_iff hpre (prefix_refl _) hle, heq,
    grows_texts, Faithful]
  exact and_congr_left fun _ =>
    and_iff_left (Increments.lastLength_le_of_isPrefix (Nat.zero_le _) hpre)

end Job

/-- **Incremental detokenization equals decoding everything**, for a request among others, exactly when no
    portion takes back what is shown of a text that is not kept and no stop token 0 that is to be trimmed
    adds text. -/
theorem incremental_eq_decode_iff (tokenizer : Tokenizer) (capacity : Nat) (jobs : String → Job)
    (batches : List (List Entry)) (rid : String)
    (hnodup : ∀ batch ∈ batches, (batch.map Entry.rid).Nodup) (hfits : Fits capacity ∅ batches)
    (hjobs : ∀ r, messagesOf r batches <+: (jobs r).messages r)
    (hall : messagesOf rid batches = (jobs rid).messages rid)
    (hprompt : tokenizer.Complete (jobs rid).prompt) (hends : (jobs rid).Ends) :
    ∃ m outs, DetokenizerManager.run ⟨tokenizer, capacity, false, .empty⟩ batches = .ok (m, outs) ∧
      ((incrementsOf rid outs).flatten = (jobs rid).expected tokenizer ∧
          (∀ k, ((incrementsOf rid outs).take k).flatten <+: (jobs rid).expected tokenizer) ↔
        (jobs rid).Faithful tokenizer) := by
  obtain ⟨m, outs, hrun, hincs⟩ := run_eq (m := ⟨tokenizer, capacity, false, .empty⟩) rfl hnodup hfits
    fun r => (Job.reads_messages r).of_isPrefix (hjobs r)
  refine ⟨m, outs, hrun, ?_⟩
  have hflat : (incrementsOf rid outs).flatten = (jobs rid).expected tokenizer ↔
      (jobs rid).Faithful tokenizer := by
    rw [hincs, hall]
    exact Job.flatten_feeds_messages hprompt hends rid
  rw [← hflat]
  refine and_iff_left_of_imp fun h k => ?_
  rw [← h]
  conv_rhs => rw [← take_append_drop k (incrementsOf rid outs), flatten_append]
  exact prefix_append ..

/-! ## Requests that are and are not faithful -/

def sampleTokenizer : Tokenizer where
  bytes id :=
    if id = 0 then [0x21]
    else if id = 1 then [0xE4]
    else if id = 2 then [0xBD, 0xA0]
    else if id = 3 then [0xE4, 0xBD, 0xA0, 0xE4]
    else if id = 4 then [0x61, 0xE4]
    else [0x62]

def cutJob : Job := ⟨[5], [[1], [2]], [5, 9], .matchedToken 9, false, by decide, by decide⟩

def otherJob : Job := ⟨[1], [[5]], [5, 5], .length 3, false, by decide, by decide⟩

def sampleBatches : List (List Entry) :=
  [[⟨"cut", none, [], [5, 1], 1, false⟩, ⟨"other", none, [], [1, 5], 1, false⟩],
    [⟨"cut", none, [], [2], 1, false⟩],
    [⟨"other", some (.length 3), [], [5, 5], 1, false⟩,
      ⟨"cut", some (.matchedToken 9), [], [5, 9], 1, false⟩]]

theorem incremental_eq_decode_cut :
    ∃ m outs, DetokenizerManager.run ⟨sampleTokenizer, 2, false, .empty⟩ sampleBatches = .ok (m, outs) ∧
      (incrementsOf "cut" outs).flatten = ['你', 'b'] := by
  have hjobs : ∀ r, messagesOf r sampleBatches <+:
      (if r = "cut" then cutJob else otherJob).messages r := by
    intro r
    by_cases hcut : r = "cut"
    · subst hcut
      decide +kernel
    · by_cases hother : r = "other"
      · subst hother
        decide +kernel
      · have hnone : messagesOf r sampleBatches = [] := by
          simp [messagesOf, sampleBatches, Ne.symm hcut, Ne.symm hother]
        rw [hnone]
        exact nil_prefix
  obtain ⟨m, outs, hrun, h⟩ := incremental_eq_decode_iff sampleTokenizer 2
    (fun r => if r = "cut" then cutJob else otherJob) sampleBatches "cut" (by decide +kernel)
    ⟨by decide +kernel, by decide +kernel, by decide +kernel, trivial⟩ hjobs (by decide +kernel) rfl
    (.stopToken 9 rfl rfl)
  refine ⟨m, outs, hrun, (h.2 ⟨by decide +kernel, ?_⟩).1.trans (by decide +kernel)⟩
  intro hreason
  cases hreason

/-- A character is shown, taken back and shown again. -/
def takenBackJob : Job := ⟨[5], [[3], [4]], [2], .length 3, false, by decide, by decide⟩

/-- The stop token has the id 0 and the text of an exclamation mark. -/
def stopZeroJob : Job := ⟨[5], [[5]], [0], .matchedToken 0, false, by decide, by decide⟩

def alone (j : Job) : Option (List Char) :=
  match DetokenizerManager.run ⟨sampleTokenizer, 1, false, .empty⟩ ((j.messages "r").map fun e => [e]) with
  | .ok (_, outs) => some (incrementsOf "r" outs).flatten
  | .error _ => none

/-- **A shown character is sent twice, and a stop token 0 is not trimmed.** -/
theorem incremental_ne_decode :
    (alone takenBackJob = some ['你', '你', Lossy.replacement, 'a', '你'] ∧
      takenBackJob.expected sampleTokenizer = ['你', Lossy.replacement, 'a', '你']) ∧
    (alone stopZeroJob = some ['b', '!'] ∧ stopZeroJob.expected sampleTokenizer = ['b']) := by
  decide +kernel

end Detokenizer
