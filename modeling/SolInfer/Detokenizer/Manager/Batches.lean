import SolInfer.Detokenizer.Manager

set_option autoImplicit false

/-! # One request among the others

While the statuses fit the capacity, what the detokenizer returns for a request depends on the messages of
this request only: it is what `feeds` makes of them. -/

open List

namespace Detokenizer

open OutputStreamer (Entry)

variable {tokenizer : Tokenizer} {m : DetokenizerManager} {e : Entry} {es batch : List Entry}
  {batches : List (List Entry)} {s : DecodeStatus} {rid : String}

/-! ## The messages of one request -/

def trimmed (ids : List Int) (finishedReason : Option Finish.FinishReason) (noStopTrim : Bool) : List Int :=
  match noStopTrim, finishedReason with
  | false, some (.matchedToken matched) => if matched = 0 then ids else ids.dropLast
  | _, _ => ids

def extended : Option DecodeStatus → Entry → DecodeStatus
  | none, e => .new e
  | some s, e => s.extend e

def readIds (s : DecodeStatus) (e : Entry) : List Int :=
  trimmed (s.decodeIds.drop s.surrOffset) e.finishedReason e.noStopTrim

def texts (tokenizer : Tokenizer) (s : DecodeStatus) (e : Entry) : List Char × List Char :=
  (tokenizer.decode (readIds s e), tokenizer.decode s.surrIds)

def feed (tokenizer : Tokenizer) (st : Option DecodeStatus) (e : Entry) : Option DecodeStatus × List Char :=
  (extended st e).emit e (texts tokenizer (extended st e) e).1 (texts tokenizer (extended st e) e).2

def feeds (tokenizer : Tokenizer) : Option DecodeStatus → List Entry → List (List Char)
  | _, [] => []
  | st, e :: es => (feed tokenizer st e).2 :: feeds tokenizer (feed tokenizer st e).1 es

def Readable (st : Option DecodeStatus) (e : Entry) : Prop :=
  (extended st e).decodeIds.drop (extended st e).surrOffset ≠ []

def Reads (tokenizer : Tokenizer) : Option DecodeStatus → List Entry → Prop
  | _, [] => True
  | st, e :: es => Readable st e ∧ Reads tokenizer (feed tokenizer st e).1 es

theorem Reads.of_isPrefix {st : Option DecodeStatus} {es es' : List Entry} (h : Reads tokenizer st es')
    (hpre : es <+: es') : Reads tokenizer st es := by
  induction es generalizing st es' with
  | nil => trivial
  | cons e es ih =>
    obtain ⟨rest, rfl⟩ := hpre
    exact ⟨h.1, ih h.2 ⟨rest, rfl⟩⟩

theorem feed_isSome (st : Option DecodeStatus) (e : Entry) :
    (feed tokenizer st e).1.isSome = e.finishedReason.isNone := by
  unfold feed DecodeStatus.emit
  cases e.finishedReason <;> rfl

def messageOf (rid : String) (batch : List Entry) : Option Entry := batch.find? fun e => e.rid = rid

theorem messageOf_cons (rid : String) (e : Entry) (es : List Entry) :
    messageOf rid (e :: es) = if e.rid = rid then some e else messageOf rid es := by
  unfold messageOf
  by_cases h : e.rid = rid
  · simp [h]
  · simp [h]

theorem messageOf_eq_none (h : rid ∉ es.map Entry.rid) : messageOf rid es = none := by
  refine find?_eq_none.2 fun e he hrid => h ?_
  exact mem_map.2 ⟨e, he, of_decide_eq_true hrid⟩

theorem messageOf_eq_some (h : messageOf rid es = some e) : e ∈ es ∧ e.rid = rid := by
  have hrid := find?_some h
  exact ⟨mem_of_find?_eq_some h, by simpa using hrid⟩

theorem messageOf_of_mem (hnodup : (es.map Entry.rid).Nodup) (he : e ∈ es) : messageOf e.rid es = some e := by
  induction es with
  | nil => cases he
  | cons e' es ih =>
    rw [map_cons, nodup_cons] at hnodup
    rw [messageOf_cons]
    rcases mem_cons.1 he with rfl | hes
    · rw [if_pos rfl]
    · have hne : e'.rid ≠ e.rid := fun h => hnodup.1 (h ▸ mem_map_of_mem hes)
      rw [if_neg hne, ih hnodup.2 hes]

theorem filter_eq_messageOf (rid : String) (hnodup : (es.map Entry.rid).Nodup) :
    es.filter (fun e => e.rid = rid) = (messageOf rid es).toList := by
  induction es with
  | nil => rfl
  | cons e es ih =>
    rw [map_cons, nodup_cons] at hnodup
    rw [messageOf_cons]
    by_cases h : e.rid = rid
    · rw [if_pos h, filter_cons_of_pos (by simpa using h), ih hnodup.2,
        messageOf_eq_none (h ▸ hnodup.1)]
      rfl
    · rw [if_neg h, filter_cons_of_neg (by simpa using h), ih hnodup.2]

/-! ## The two loops -/

theorem trimMatchedStopIds_eq (hgpt : m.isToolCallParserGptOss = false) {ids : List Int} (hids : ids ≠ [])
    (finishedReason : Option Finish.FinishReason) (noStopTrim : Bool) :
    m.trimMatchedStopIds ids finishedReason noStopTrim = .ok (trimmed ids finishedReason noStopTrim) := by
  cases noStopTrim with
  | true => rfl
  | false =>
    unfold DetokenizerManager.trimMatchedStopIds trimmed
    rcases finishedReason with - | ⟨n | matched | matched⟩
    · rfl
    · rfl
    · simp only [getLast?_eq_some_getLast hids, hgpt]
      split <;> simp
    · rfl

theorem receive_eq (hfit : (m.decodeStatus.keys.toFinset ∪ {e.rid}).card ≤ m.capacity) :
    m.receive e = .ok (m.update e.rid (some (extended (m.decodeStatus.get? e.rid) e)),
      extended (m.decodeStatus.get? e.rid) e) := by
  unfold DetokenizerManager.receive
  cases hst : m.decodeStatus.get? e.rid with
  | none =>
    have hnot : e.rid ∉ m.decodeStatus.keys.toFinset := fun h =>
      Dict.get?_eq_none.1 hst (mem_toFinset.1 h)
    have hcard : m.decodeStatus.keys.toFinset.card = m.decodeStatus.keys.length :=
      toFinset_card_of_nodup m.decodeStatus.nodup
    rw [Finset.card_union_of_disjoint (Finset.disjoint_singleton_right.2 hnot), hcard,
      Finset.card_singleton] at hfit
    simp only [DetokenizerManager.insert]
    rw [if_neg (by omega)]
    rfl
  | some s => rfl

section

variable (st : Option DecodeStatus)

@[simp] theorem update_tokenizer (rid : String) :
    (m.update rid st).tokenizer = m.tokenizer := by cases st <;> rfl

@[simp] theorem update_capacity (rid : String) :
    (m.update rid st).capacity = m.capacity := by cases st <;> rfl

@[simp] theorem update_gptOss (rid : String) :
    (m.update rid st).isToolCallParserGptOss = m.isToolCallParserGptOss := by cases st <;> rfl

theorem get?_update (rid rid' : String) :
    (m.update rid st).decodeStatus.get? rid' = if rid = rid' then st else m.decodeStatus.get? rid' := by
  cases st with
  | some s => exact Dict.get?_set ..
  | none => exact Dict.get?_erase ..

end

structure SameServer (m m' : DetokenizerManager) : Prop where
  tokenizer : m'.tokenizer = m.tokenizer
  capacity : m'.capacity = m.capacity
  gptOss : m'.isToolCallParserGptOss = m.isToolCallParserGptOss

theorem SameServer.update {m' : DetokenizerManager} {st : Option DecodeStatus}
    (h : SameServer (m.update rid st) m') : SameServer m m' :=
  ⟨by simpa using h.tokenizer, by simpa using h.capacity, by simpa using h.gptOss⟩

theorem collect_eq (hgpt : m.isToolCallParserGptOss = false) (hnodup : (es.map Entry.rid).Nodup)
    (hfit : (m.decodeStatus.keys.toFinset ∪ (es.map Entry.rid).toFinset).card ≤ m.capacity)
    (hread : ∀ e ∈ es, Readable (m.decodeStatus.get? e.rid) e) :
    ∃ m', m.collect es = .ok (m', es.map fun e =>
        (readIds (extended (m.decodeStatus.get? e.rid) e) e, (extended (m.decodeStatus.get? e.rid) e).surrIds)) ∧
      SameServer m m' ∧
      ∀ rid, m'.decodeStatus.get? rid =
        match messageOf rid es with
        | some e => some (extended (m.decodeStatus.get? rid) e)
        | none => m.decodeStatus.get? rid := by
  induction es generalizing m with
  | nil => exact ⟨m, rfl, ⟨rfl, rfl, rfl⟩, fun rid => rfl⟩
  | cons e es ih =>
    rw [map_cons, nodup_cons] at hnodup
    rw [map_cons, toFinset_cons] at hfit
    set s := extended (m.decodeStatus.get? e.rid) e with hs
    have hfit' : (m.decodeStatus.keys.toFinset ∪ {e.rid}).card ≤ m.capacity := by
      refine (Finset.card_le_card (Finset.union_subset_union_right ?_)).trans hfit
      exact Finset.singleton_subset_iff.2 (Finset.mem_insert_self ..)
    have hother : ∀ e' ∈ es, (m.update e.rid (some s)).decodeStatus.get? e'.rid =
        m.decodeStatus.get? e'.rid := by
      intro e' he'
      have hne : e.rid ≠ e'.rid := fun h => hnodup.1 (h ▸ mem_map_of_mem he')
      rw [get?_update, if_neg hne]
    have hkeys : ((m.update e.rid (some s)).decodeStatus.keys.toFinset ∪
        (es.map Entry.rid).toFinset).card ≤ (m.update e.rid (some s)).capacity := by
      refine (Finset.card_le_card fun rid hrid => ?_).trans hfit
      simp only [DetokenizerManager.update, Finset.mem_union, mem_toFinset, Finset.mem_insert,
        Dict.mem_keys_set] at hrid ⊢
      tauto
    obtain ⟨m', hcollect, hsame, hget⟩ := ih (by simpa using hgpt) hnodup.2 hkeys fun e' he' => by
      rw [hother e' he']
      exact hread e' (.tail _ he')
    refine ⟨m', ?_, hsame.update, fun rid => ?_⟩
    · rw [DetokenizerManager.collect, receive_eq hfit', ← hs]
      simp only [bind, Except.bind]
      rw [trimMatchedStopIds_eq (by simpa using hgpt) (hread e mem_cons_self), hcollect]
      refine congrArg Except.ok (Prod.ext rfl (congrArg₂ cons rfl ?_))
      refine map_congr_left fun e' he' => ?_
      rw [hother e' he']
    · rw [hget, messageOf_cons, get?_update]
      by_cases h : e.rid = rid
      · subst h
        rw [if_pos rfl, messageOf_eq_none hnodup.1, if_pos rfl]
      · rw [if_neg h, if_neg h]

theorem emit_eq (hnodup : (es.map Entry.rid).Nodup) {st : Entry → DecodeStatus}
    (hst : ∀ e ∈ es, m.decodeStatus.get? e.rid = some (st e)) (g : Entry → List Char × List Char) :
    ∃ m', m.emit (es.map fun e => (e, g e)) =
        .ok (m', es.map fun e => (e.rid, ((st e).emit e (g e).1 (g e).2).2)) ∧
      SameServer m m' ∧
      ∀ rid, m'.decodeStatus.get? rid =
        match messageOf rid es with
        | some e => ((st e).emit e (g e).1 (g e).2).1
        | none => m.decodeStatus.get? rid := by
  induction es generalizing m with
  | nil => exact ⟨m, rfl, ⟨rfl, rfl, rfl⟩, fun rid => rfl⟩
  | cons e es ih =>
    rw [map_cons, nodup_cons] at hnodup
    obtain ⟨m', hemit, hsame, hget⟩ := ih (m := m.update e.rid ((st e).emit e (g e).1 (g e).2).1) hnodup.2
      fun e' he' => by
        have hne : e.rid ≠ e'.rid := fun h => hnodup.1 (h ▸ mem_map_of_mem he')
        rw [get?_update, if_neg hne]
        exact hst e' (.tail _ he')
    refine ⟨m', ?_, hsame.update, fun rid => ?_⟩
    · rw [map_cons, DetokenizerManager.emit, hst e mem_cons_self]
      simp only [bind, Except.bind]
      rw [hemit]
      rfl
    · rw [hget, messageOf_cons, get?_update]
      by_cases h : e.rid = rid
      · subst h
        rw [if_pos rfl, messageOf_eq_none hnodup.1, if_pos rfl]
      · rw [if_neg h, if_neg h]

theorem zip_map {α β : Type} (f : α → β) (l : List α) : l.zip (l.map f) = l.map fun a => (a, f a) := by
  induction l with
  | nil => rfl
  | cons a l ih => rw [map_cons, zip_cons_cons, ih, map_cons]

/-- **A batch does to a request what its message does.** -/
theorem decodeBatch_eq (hgpt : m.isToolCallParserGptOss = false) (hnodup : (batch.map Entry.rid).Nodup)
    (hfit : (m.decodeStatus.keys.toFinset ∪ (batch.map Entry.rid).toFinset).card ≤ m.capacity)
    (hread : ∀ e ∈ batch, Readable (m.decodeStatus.get? e.rid) e) :
    ∃ m', m.decodeBatchTokenIdOutput batch = .ok (m', batch.map fun e =>
        (e.rid, (feed m.tokenizer (m.decodeStatus.get? e.rid) e).2)) ∧
      SameServer m m' ∧
      ∀ rid, m'.decodeStatus.get? rid =
        match messageOf rid batch with
        | some e => (feed m.tokenizer (m.decodeStatus.get? rid) e).1
        | none => m.decodeStatus.get? rid := by
  obtain ⟨m₁, hcollect, hsame₁, hget₁⟩ := collect_eq hgpt hnodup hfit hread
  have hst : ∀ e ∈ batch, m₁.decodeStatus.get? e.rid = some (extended (m.decodeStatus.get? e.rid) e) := by
    intro e he
    rw [hget₁, messageOf_of_mem hnodup he]
  obtain ⟨m₂, hemit, hsame₂, hget₂⟩ := emit_eq hnodup hst
    fun e => texts m.tokenizer (extended (m.decodeStatus.get? e.rid) e) e
  refine ⟨m₂, ?_, ?_, fun rid => ?_⟩
  · unfold DetokenizerManager.decodeBatchTokenIdOutput
    rw [hcollect]
    simp only [bind, Except.bind, map_map]
    rw [zip_map]
    exact hemit
  · exact ⟨hsame₂.tokenizer.trans hsame₁.tokenizer, hsame₂.capacity.trans hsame₁.capacity,
      hsame₂.gptOss.trans hsame₁.gptOss⟩
  · rw [hget₂]
    cases hmsg : messageOf rid batch with
    | none =>
      simp only
      rw [hget₁, hmsg]
    | some e =>
      obtain ⟨-, rfl⟩ := messageOf_eq_some hmsg
      rfl

/-! ## Runs -/

def messagesOf (rid : String) (batches : List (List Entry)) : List Entry :=
  batches.flatten.filter fun e => e.rid = rid

def finishing (batch : List Entry) : List String :=
  (batch.filter fun e => e.finishedReason.isSome).map Entry.rid

/-- The requests between their first and their last message are never more than the capacity. -/
def Fits (capacity : Nat) : Finset String → List (List Entry) → Prop
  | _, [] => True
  | live, batch :: batches =>
    (live ∪ (batch.map Entry.rid).toFinset).card ≤ capacity ∧
      Fits capacity ((live ∪ (batch.map Entry.rid).toFinset) \ (finishing batch).toFinset) batches

theorem keys_of_batch {m' : DetokenizerManager} (hnodup : (batch.map Entry.rid).Nodup)
    (hget : ∀ rid, m'.decodeStatus.get? rid =
      match messageOf rid batch with
      | some e => (feed m.tokenizer (m.decodeStatus.get? rid) e).1
      | none => m.decodeStatus.get? rid) :
    m'.decodeStatus.keys.toFinset =
      (m.decodeStatus.keys.toFinset ∪ (batch.map Entry.rid).toFinset) \ (finishing batch).toFinset := by
  ext rid
  simp only [Finset.mem_sdiff, Finset.mem_union, mem_toFinset, Dict.mem_keys, hget]
  cases hmsg : messageOf rid batch with
  | none =>
    have hnot : rid ∉ batch.map Entry.rid := by
      intro h
      obtain ⟨e, he, rfl⟩ := mem_map.1 h
      rw [messageOf_of_mem hnodup he] at hmsg
      cases hmsg
    have hfin : rid ∉ finishing batch := fun h => by
      obtain ⟨e, he, rfl⟩ := mem_map.1 h
      exact hnot (mem_map_of_mem (mem_of_mem_filter he))
    simp [hnot, hfin]
  | some e =>
    obtain ⟨he, rfl⟩ := messageOf_eq_some hmsg
    have hfin : e.rid ∈ finishing batch ↔ e.finishedReason.isSome = true := by
      constructor
      · intro h
        obtain ⟨e', he', hrid⟩ := mem_map.1 h
        obtain ⟨hmem, hsome⟩ := mem_filter.1 he'
        have := messageOf_of_mem hnodup hmem
        rw [hrid, hmsg] at this
        cases this
        exact hsome
      · exact fun h => mem_map_of_mem (mem_filter.2 ⟨he, h⟩)
    have hmem : e.rid ∈ batch.map Entry.rid := mem_map_of_mem he
    rw [← Option.isSome_iff_exists, feed_isSome, hfin]
    simp only [hmem, or_true, true_and]
    cases e.finishedReason <;> simp

/-- **What is returned for a request is what its messages make of it**, when the statuses fit. -/
theorem run_eq (hgpt : m.isToolCallParserGptOss = false)
    (hnodup : ∀ batch ∈ batches, (batch.map Entry.rid).Nodup)
    (hfits : Fits m.capacity m.decodeStatus.keys.toFinset batches)
    (hreads : ∀ rid, Reads m.tokenizer (m.decodeStatus.get? rid) (messagesOf rid batches)) :
    ∃ m' outs, m.run batches = .ok (m', outs) ∧
      ∀ rid, incrementsOf rid outs = feeds m.tokenizer (m.decodeStatus.get? rid) (messagesOf rid batches) := by
  induction batches generalizing m with
  | nil => exact ⟨m, [], rfl, fun rid => rfl⟩
  | cons batch batches ih =>
    have hnod := hnodup batch mem_cons_self
    have hsplit : ∀ rid, messagesOf rid (batch :: batches) =
        (messageOf rid batch).toList ++ messagesOf rid batches := fun rid => by
      rw [messagesOf, flatten_cons, filter_append, filter_eq_messageOf rid hnod]
      rfl
    obtain ⟨m₁, hbatch, hsame, hget⟩ := decodeBatch_eq hgpt hnod hfits.1 fun e he => by
      have := hreads e.rid
      rw [hsplit, messageOf_of_mem hnod he] at this
      exact this.1
    have hreads₁ : ∀ rid, Reads m₁.tokenizer (m₁.decodeStatus.get? rid) (messagesOf rid batches) := by
      intro rid
      have := hreads rid
      rw [hsplit] at this
      rw [hget, hsame.tokenizer]
      cases hmsg : messageOf rid batch with
      | none =>
        rw [hmsg] at this
        exact this
      | some e =>
        rw [hmsg] at this
        exact this.2
    obtain ⟨m₂, outs, hrun, hincs⟩ := ih (hsame.gptOss.trans hgpt)
      (fun b hb => hnodup b (mem_cons_of_mem _ hb))
      (by
        rw [hsame.capacity, keys_of_batch hnod hget]
        exact hfits.2)
      hreads₁
    refine ⟨m₂, (batch.map fun e => (e.rid, (feed m.tokenizer (m.decodeStatus.get? e.rid) e).2)) :: outs, ?_,
      fun rid => ?_⟩
    · rw [DetokenizerManager.run, hbatch]
      simp only [bind, Except.bind]
      rw [hrun]
    · rw [hsplit, incrementsOf, flatten_cons, filter_append, map_append, ← incrementsOf,
        hincs rid, hget, hsame.tokenizer, filter_map, map_map]
      have hfilter : batch.filter ((fun out : String × List Char => out.1 = rid) ∘ fun e =>
          (e.rid, (feed m.tokenizer (m.decodeStatus.get? e.rid) e).2)) = (messageOf rid batch).toList :=
        filter_eq_messageOf rid hnod
      rw [hfilter]
      cases hmsg : messageOf rid batch with
      | none => rfl
      | some e =>
        obtain ⟨-, rfl⟩ := messageOf_eq_some hmsg
        rfl

end Detokenizer
