import SolInfer.Lib.Chunks
import SolInfer.Parser.Reasoning

set_option autoImplicit false

/-! # The phases of a stream

Reasoning goes on up to its marker, and all text after it is normal. A reader that streams gives out
reasoning in segments, one that does not waits for the marker. -/

open List

namespace Reasoning

variable {d : Detector} {o : Output} {R Z cur buffer x : Str} {stripped : Bool}

/-! ## Tokens -/

theorem marker_cases (htool : o.tool → d.toolStartToken.isSome) :
    (o.tool = false ∧ o.marker d = d.thinkEndToken) ∨
      (o.tool = true ∧ d.toolStartToken = some (o.marker d)) := by
  unfold Output.marker
  cases hkind : o.tool with
  | false => exact .inl ⟨rfl, rfl⟩
  | true =>
    obtain ⟨t, ht⟩ := Option.isSome_iff_exists.1 (htool hkind)
    exact .inr ⟨rfl, by simp [ht]⟩

section

variable (h : o.Clear d)
include h

theorem Output.Clear.thinkStart_ne_nil : d.thinkStartToken ≠ [] := by
  intro hnil
  have hat : d.thinkStartToken <+: (o.text d).drop 1 := hnil ▸ nil_prefix
  exact absurd (h.thinkStart 1 hat).2 Nat.one_ne_zero

theorem Output.Clear.thinkEnd_ne_nil : d.thinkEndToken ≠ [] := by
  intro hnil
  have hzero := (h.thinkEnd 0 (hnil ▸ nil_prefix)).2
  have hone := (h.thinkEnd 1 (hnil ▸ nil_prefix)).2
  omega

theorem Output.Clear.tool_ne_nil {t : Str} (ht : d.toolStartToken = some t) : t ≠ [] := by
  intro hnil
  have hzero := (h.toolStart t ht 0 (hnil ▸ nil_prefix)).2
  have hone := (h.toolStart t ht 1 (hnil ▸ nil_prefix)).2
  omega

theorem Output.Clear.thinkStartText_ne_nil : d.thinkStartText ≠ [] := by
  intro hnil
  exact h.thinkStart_ne_nil (append_eq_nil_iff.1 hnil).1

theorem Output.Clear.marker_ne_nil : o.marker d ≠ [] := by
  rcases marker_cases h.tool with ⟨_, heq⟩ | ⟨_, heq⟩
  · rw [heq]
    exact h.thinkEnd_ne_nil
  · exact h.tool_ne_nil heq

end

theorem held_iff : d.held cur = true ↔ ∃ t ∈ d.tokensToCheck, cur <+: t ∧ t ≠ cur := by
  simp [Detector.held, any_eq_true]

theorem held_of_isPrefix (hx : x <+: cur) (h : d.held cur = true) : d.held x = true := by
  obtain ⟨t, ht, hpre, hne⟩ := held_iff.1 h
  refine held_iff.2 ⟨t, ht, hx.trans hpre, ?_⟩
  rintro rfl
  exact hne (hpre.eq_of_length (le_antisymm hpre.length_le hx.length_le)).symm

theorem held_of_isPrefix_start (hx : x <+: d.thinkStartText)
    (hlt : x.length < d.thinkStartText.length) : d.held x = true := by
  refine held_iff.2 ⟨_, by simp [Detector.tokensToCheck], hx, ?_⟩
  intro heq
  rw [heq] at hlt
  exact lt_irrefl _ hlt

/-! ## Reasoning that ends at its marker -/

/-- A text that begins with reasoning and goes on with the marker and the normal text. -/
structure Tail (d : Detector) (o : Output) (R Z : Str) : Prop where
  eq : Z = R ++ (o.marker d ++ o.normal)
  thinkEnd : ∀ i, d.thinkEndToken <+: Z.drop i → ¬ o.tool ∧ i = R.length
  toolStart : ∀ t ∈ d.toolStartToken, ∀ i, t <+: Z.drop i → o.tool ∧ i = R.length

/-- The part of the marker that belongs to the normal text. -/
def visible (d : Detector) (o : Output) : Str := if o.tool then o.marker d else []

theorem tail_text (h : o.Clear d) : Tail d o (o.front d) (o.text d) :=
  ⟨rfl, h.thinkEnd, h.toolStart⟩

theorem Tail.drop (h : Tail d o (x ++ R) (x ++ Z)) : Tail d o R Z := by
  refine ⟨?_, ?_, ?_⟩
  · exact append_cancel_left (h.eq.trans (append_assoc _ _ _))
  · intro i hat
    have hx : d.thinkEndToken <+: (x ++ Z).drop (x.length + i) := by simpa using hat
    obtain ⟨htool, hi⟩ := h.thinkEnd _ hx
    rw [length_append] at hi
    exact ⟨htool, by omega⟩
  · intro t ht i hat
    have hx : t <+: (x ++ Z).drop (x.length + i) := by simpa using hat
    obtain ⟨htool, hi⟩ := h.toolStart t ht _ hx
    rw [length_append] at hi
    exact ⟨htool, by omega⟩

theorem Tail.length_eq (h : Tail d o R Z) :
    Z.length = R.length + (o.marker d).length + o.normal.length := by
  rw [h.eq]
  simp only [length_append]
  omega

theorem Tail.normal_eq (h : Tail d o R (cur ++ x))
    (hlong : R.length + (o.marker d).length ≤ cur.length) :
    o.normal = cur.drop (R.length + (o.marker d).length) ++ x := by
  have hdrop := congrArg (List.drop (R.length + (o.marker d).length)) h.eq
  rw [drop_append_of_le_length hlong, ← append_assoc R, drop_left' (length_append ..)] at hdrop
  exact hdrop.symm

section Settle

variable (hclear : o.Clear d) (htail : Tail d o R Z) (hcur : cur <+: Z)

include hclear htail hcur

theorem find_none_of_short (hshort : cur.length < R.length + (o.marker d).length) :
    Text.find d.thinkEndToken cur = none ∧
      (d.toolStartToken.filter (fun t => t ≠ [])).bind (Text.find · cur) = none := by
  refine ⟨?_, ?_⟩
  · rw [Text.find_eq_none]
    intro i hat
    obtain ⟨htool, rfl⟩ := htail.thinkEnd i (Text.occurs_of_isPrefix hcur hat)
    have hlength := Text.occurs_length hat hclear.thinkEnd_ne_nil
    rcases marker_cases hclear.tool with ⟨_, heq⟩ | ⟨htool', _⟩
    · rw [heq] at hshort
      omega
    · exact htool htool'
  · rw [Option.bind_eq_none_iff]
    intro t ht
    have ht := (Option.filter_eq_some_iff.1 ht).1
    rw [Text.find_eq_none]
    intro i hat
    obtain ⟨htool, rfl⟩ := htail.toolStart t ht i (Text.occurs_of_isPrefix hcur hat)
    have hlength := Text.occurs_length hat (hclear.tool_ne_nil ht)
    rcases marker_cases hclear.tool with ⟨htool', _⟩ | ⟨_, heq⟩
    · rw [htool'] at htool
      cases htool
    · rw [ht] at heq
      cases heq
      omega

theorem settle_short (hshort : cur.length < R.length + (o.marker d).length) :
    d.settle cur ⟨buffer, stripped, true⟩ =
      if d.streamReasoning then ({ reasoningText := cur }, ⟨[], stripped, true⟩)
      else ({}, ⟨buffer, stripped, true⟩) := by
  obtain ⟨hend, htool⟩ := find_none_of_short hclear htail hcur hshort
  rw [Detector.settle, if_pos rfl, hend, htool]

section

variable (hlong : R.length + (o.marker d).length ≤ cur.length)
include hlong

omit hclear in
theorem take_of_long :
    cur.take R.length = R ∧
      cur.drop R.length = o.marker d ++ cur.drop (R.length + (o.marker d).length) := by
  obtain ⟨v, hv⟩ := hcur
  have hcat : cur ++ v = R ++ (o.marker d ++ o.normal) := hv.trans htail.eq
  have hR : cur.take R.length = R := by
    have htake := congrArg (take R.length) hcat
    rwa [take_append_of_le_length (by omega), take_left] at htake
  have hM : (cur.drop R.length).take (o.marker d).length = o.marker d := by
    have hdrop := congrArg (drop R.length) hcat
    rw [drop_append_of_le_length (by omega), drop_left] at hdrop
    have htake := congrArg (take (o.marker d).length) hdrop
    rwa [take_append_of_le_length (by rw [length_drop]; omega), take_left] at htake
  refine ⟨hR, ?_⟩
  conv_lhs => rw [← take_append_drop (o.marker d).length (cur.drop R.length), hM, drop_drop]

theorem find_of_long :
    (o.tool = false ∧ Text.find d.thinkEndToken cur = some R.length) ∨
      (o.tool = true ∧ Text.find d.thinkEndToken cur = none ∧
        Text.find (o.marker d) cur = some R.length) := by
  have hM : o.marker d <+: cur.drop R.length := by
    rw [(take_of_long htail hcur hlong).2]
    exact prefix_append _ _
  have hle : R.length ≤ cur.length := by omega
  rcases marker_cases hclear.tool with ⟨htool, heq⟩ | ⟨htool, heq⟩
  · refine .inl ⟨htool, Text.find_eq_some (heq ▸ hM) hle (fun j hj hat => ?_)⟩
    have := (htail.thinkEnd j (Text.occurs_of_isPrefix hcur hat)).2
    omega
  · refine .inr ⟨htool, Text.find_eq_none.2 (fun i hat => ?_), Text.find_eq_some hM hle
      (fun j hj hat => ?_)⟩
    · exact (htail.thinkEnd i (Text.occurs_of_isPrefix hcur hat)).1 htool
    · have := (htail.toolStart _ heq j (Text.occurs_of_isPrefix hcur hat)).2
      omega

theorem settle_long :
    d.settle cur ⟨buffer, stripped, true⟩ =
      ({ normalText := visible d o ++ cur.drop (R.length + (o.marker d).length), reasoningText := R },
        ⟨[], stripped, false⟩) := by
  obtain ⟨htake, hdrop⟩ := take_of_long htail hcur hlong
  rcases find_of_long hclear htail hcur hlong with ⟨htool, hfind⟩ | ⟨htool, hnone, hfind⟩
  · have heq : o.marker d = d.thinkEndToken := by simp [Output.marker, htool]
    rw [Detector.settle, if_pos rfl, hfind]
    simp [htake, visible, htool, heq]
  · have hfilter : d.toolStartToken.filter (fun t => t ≠ []) = some (o.marker d) := by
      rcases marker_cases hclear.tool with ⟨hnot, _⟩ | ⟨_, heq⟩
      · rw [htool] at hnot
        cases hnot
      · rw [heq, Option.filter_eq_some_iff]
        exact ⟨rfl, by simpa using hclear.marker_ne_nil⟩
    rw [Detector.settle, if_pos rfl, hnone, hfilter]
    simp [hfind, htake, visible, htool, hdrop]

end

end Settle

/-! ## After the marker -/

/-- No start text is stripped: one was stripped before, or the text has none. -/
def NoStart (d : Detector) (stripped : Bool) (Z : Str) : Prop :=
  stripped = true ∨ ∀ i, ¬ d.thinkStartText <+: Z.drop i

theorem NoStart.of_drop (h : NoStart d stripped (x ++ Z)) : NoStart d stripped Z := by
  refine h.imp id fun hnone i hat => ?_
  have hx : d.thinkStartText <+: (x ++ Z).drop (x.length + i) := by simpa using hat
  exact hnone _ hx

theorem NoStart.of_isPrefix (h : NoStart d stripped Z) (hcur : cur <+: Z) : NoStart d stripped cur :=
  h.imp id fun hnone i hat => hnone i (Text.occurs_of_isPrefix hcur hat)

theorem release_eq {inReasoning : Bool} (h : NoStart d stripped cur) :
    d.release ⟨cur, stripped, inReasoning⟩ = d.settle cur ⟨cur, stripped, inReasoning⟩ := by
  have hstrip : d.stripThinkStart ⟨cur, stripped, inReasoning⟩ =
      (cur, ⟨cur, stripped, inReasoning⟩) := by
    unfold Detector.stripThinkStart
    split
    next idx hfind =>
      rcases h with hstripped | hnone
      · rw [if_pos hstripped]
      · rw [Text.find_eq_none.2 hnone] at hfind
        cases hfind
    · rfl
  rw [Detector.release, hstrip]

theorem settle_normal : d.settle cur ⟨buffer, stripped, false⟩ =
    ({ normalText := cur }, ⟨[], stripped, false⟩) := rfl

/-- Outside of reasoning all text is normal, but the last of it may be kept. -/
theorem parseChunks_normal {chunks : List Str}
    (hstart : NoStart d stripped (buffer ++ chunks.flatten)) :
    (d.parseChunks ⟨buffer, stripped, false⟩ chunks).reasoningText = [] ∧
      (d.parseChunks ⟨buffer, stripped, false⟩ chunks).normalText ++
        Chunks.carry d.held d.held buffer chunks = buffer ++ chunks.flatten := by
  induction chunks generalizing buffer with
  | nil => simp [Detector.parseChunks, Chunks.carry]
  | cons c rest ih =>
    have hsplit : buffer ++ (c :: rest).flatten = (buffer ++ c) ++ rest.flatten := by simp
    rw [hsplit] at hstart ⊢
    rw [Detector.parseChunks, Chunks.carry, Detector.parseStreamingIncrement]
    dsimp only
    split
    next hheld => exact ih hstart
    next hheld =>
      have hrest : NoStart d stripped ([] ++ rest.flatten) := hstart.of_drop
      obtain ⟨hreasoning, hnormal⟩ := ih hrest
      rw [release_eq (hstart.of_isPrefix (prefix_append _ _)), settle_normal]
      simp only [Result.append, nil_append, append_assoc] at hnormal ⊢
      exact ⟨hreasoning, by rw [hnormal]⟩

/-! ## Streaming of segments -/

def parseSegments (d : Detector) : State → List Str → Result
  | _, [] => {}
  | s, seg :: rest =>
    let (result, s) := d.release { s with buffer := seg }
    result.append (parseSegments d s rest)

theorem parseSegments_buffer (s : State) (buffer : Str) (segs : List Str) :
    parseSegments d { s with buffer := buffer } segs = parseSegments d s segs := by
  cases segs <;> rfl

theorem settle_buffer (hstream : d.streamReasoning = true) (cur : Str) (s : State) :
    (d.settle cur s).2.buffer = [] := by
  unfold Detector.settle
  split
  · split
    · rfl
    · split
      · rfl
      · simp
  · rfl

theorem parseChunks_eq_segments (hstream : d.streamReasoning = true) (s : State) (chunks : List Str) :
    d.parseChunks s chunks = parseSegments d s (Chunks.segments d.held s.buffer chunks) := by
  induction chunks generalizing s with
  | nil => rfl
  | cons c rest ih =>
    rw [Detector.parseChunks, Chunks.segments, Detector.parseStreamingIncrement]
    dsimp only
    split
    next hheld =>
      rw [ih, parseSegments_buffer]
      simp [Result.append]
    next hheld =>
      have hbuffer : (d.release { s with buffer := s.buffer ++ c }).2.buffer = [] :=
        settle_buffer hstream _ _
      rw [parseSegments, ih, hbuffer]

theorem parseSegments_normal {segs : List Str} (hstart : NoStart d stripped segs.flatten) :
    parseSegments d ⟨buffer, stripped, false⟩ segs = { normalText := segs.flatten } := by
  induction segs generalizing buffer with
  | nil => rfl
  | cons seg rest ih =>
    rw [parseSegments, release_eq (hstart.of_isPrefix (prefix_append _ _)), settle_normal]
    simp [ih hstart.of_drop, Result.append]

/-- Some segment ends inside the marker, which stands behind `front` characters. -/
def CutInside (front marker : Nat) (segs : List Str) : Prop :=
  ∃ k, front < (segs.take k).flatten.length ∧ (segs.take k).flatten.length < front + marker

theorem cutInside_nil (front marker : Nat) : ¬ CutInside front marker [] := by
  rintro ⟨k, hk, _⟩
  simp at hk

theorem cutInside_cons {front marker : Nat} (seg : Str) (rest : List Str) :
    CutInside (seg.length + front) marker (seg :: rest) ↔ CutInside front marker rest := by
  constructor
  · rintro ⟨k, hk, hlt⟩
    rcases k with _ | k
    · simp at hk
    · simp only [take_succ_cons, flatten_cons, length_append] at hk hlt
      exact ⟨k, by omega, by omega⟩
  · rintro ⟨k, hk, hlt⟩
    refine ⟨k + 1, ?_, ?_⟩ <;>
      simp only [take_succ_cons, flatten_cons, length_append] <;> omega

theorem not_cutInside_of_long {front marker : Nat} {seg : Str} {rest : List Str}
    (hlong : front + marker ≤ seg.length) : ¬ CutInside front marker (seg :: rest) := by
  rintro ⟨k, hk, hlt⟩
  rcases k with _ | k
  · simp at hk
  · simp only [take_succ_cons, flatten_cons, length_append] at hlt
    omega

/-- **Streamed reasoning** is complete if and only if no segment ends inside the marker and nothing but an
    end token is left. -/
theorem parseSegments_reasoning (buffer : Str) (hclear : o.Clear d) (hstream : d.streamReasoning = true)
    {segs : List Str} {rest : Str} (htail : Tail d o R (segs.flatten ++ rest))
    (hstart : NoStart d stripped (segs.flatten ++ rest)) :
    parseSegments d ⟨buffer, stripped, true⟩ segs = ⟨visible d o ++ o.normal, R⟩ ↔
      ¬ CutInside R.length (o.marker d).length segs ∧
        (rest = [] ∨ (o.tool = false ∧ o.normal = [] ∧ rest = o.marker d)) := by
  induction segs generalizing R buffer with
  | nil =>
    have hrest : rest = R ++ (o.marker d ++ o.normal) := by simpa using htail.eq
    have hne : rest ≠ [] := by simp [hrest, hclear.marker_ne_nil]
    simp only [parseSegments, Result.mk.injEq, cutInside_nil, not_false_eq_true, true_and, hne, false_or]
    constructor
    · rintro ⟨hnormal, rfl⟩
      obtain ⟨hvisible, hnil⟩ := append_eq_nil_iff.1 hnormal.symm
      have htool : o.tool = false := by
        by_contra htool
        simp only [visible, Bool.not_eq_false] at htool hvisible
        rw [if_pos htool] at hvisible
        exact hclear.marker_ne_nil hvisible
      exact ⟨htool, hnil, by simp [hrest, hnil]⟩
    · rintro ⟨htool, hnil, heq⟩
      have hR : R = [] := by
        have hlength := congrArg length (hrest.symm.trans heq)
        simp only [length_append] at hlength
        exact eq_nil_of_length_eq_zero (by omega)
      exact ⟨by simp [visible, htool, hnil], hR.symm⟩
  | cons seg segs ih =>
    have hZ : (seg :: segs).flatten ++ rest = seg ++ (segs.flatten ++ rest) := by simp
    rw [hZ] at htail hstart
    have hpre : seg <+: seg ++ (segs.flatten ++ rest) := prefix_append _ _
    rw [parseSegments, release_eq (hstart.of_isPrefix hpre)]
    rcases Nat.lt_or_ge seg.length (R.length + (o.marker d).length) with hshort | hlong
    · rw [settle_short hclear htail hpre hshort, if_pos hstream]
      simp only [Result.append, nil_append]
      rcases Nat.lt_or_ge R.length seg.length with hinside | hfront
      · -- a part of the marker was given out as reasoning
        have hcut : CutInside R.length (o.marker d).length (seg :: segs) :=
          ⟨1, by simpa using hinside, by simpa using hshort⟩
        simp only [hcut, not_true_eq_false, false_and, iff_false]
        intro heq
        have hlength := congrArg (length ∘ Result.reasoningText) heq
        simp only [Function.comp_apply, length_append] at hlength
        omega
      · obtain ⟨R', rfl⟩ : ∃ R', R = seg ++ R' := by
          have hR : R <+: seg ++ (segs.flatten ++ rest) := by
            rw [htail.eq]
            exact prefix_append _ _
          obtain ⟨v, hv⟩ := prefix_of_prefix_length_le hpre hR hfront
          exact ⟨v, hv.symm⟩
        rw [length_append, cutInside_cons]
        refine Iff.trans ?_ (ih [] htail.drop hstart.of_drop)
        cases parseSegments d ⟨[], stripped, true⟩ segs
        simp
    · have hnormal := htail.normal_eq hlong
      rw [settle_long hclear htail hpre hlong]
      have hrest : parseSegments d ⟨[], stripped, false⟩ segs = { normalText := segs.flatten } :=
        parseSegments_normal (hstart.of_drop.of_isPrefix (prefix_append _ _))
      simp only [hrest, Result.append, Result.mk.injEq, append_nil, and_true,
        not_cutInside_of_long hlong, not_false_eq_true, true_and, append_assoc,
        append_cancel_left_eq]
      rw [hnormal]
      constructor
      · intro heq
        refine .inl ?_
        simpa using heq
      · rintro (rfl | ⟨_, hnil, heq⟩)
        · simp
        · simp only [append_eq_nil_iff] at hnil
          simp [hnil.2.2]

/-! ## Buffered reasoning -/

/-- A reader that does not stream waits for the first `n` characters. -/
def waits (d : Detector) (n : Nat) (text : Str) : Bool := d.held text || decide (text.length < n)

/-- Reasoning that is not streamed is given out whole, unless all text is held back to the end. -/
theorem parseChunks_buffered (hclear : o.Clear d) (hstream : d.streamReasoning = false)
    {chunks : List Str} (htail : Tail d o R (buffer ++ chunks.flatten))
    (hstart : NoStart d stripped (buffer ++ chunks.flatten)) :
    let result := d.parseChunks ⟨buffer, stripped, true⟩ chunks
    let kept := Chunks.carry (waits d (R.length + (o.marker d).length)) d.held buffer chunks
    (result.reasoningText = R ∧ result.normalText ++ kept = visible d o ++ o.normal) ∨
      (result = {} ∧ kept = buffer ++ chunks.flatten ∧
        (chunks = [] ∨ d.held (buffer ++ chunks.flatten) = true)) := by
  induction chunks generalizing buffer with
  | nil => exact .inr ⟨rfl, by simp [Chunks.carry], .inl rfl⟩
  | cons c rest ih =>
    have hsplit : buffer ++ (c :: rest).flatten = (buffer ++ c) ++ rest.flatten := by simp
    rw [hsplit] at htail hstart ⊢
    have hpre : buffer ++ c <+: (buffer ++ c) ++ rest.flatten := prefix_append _ _
    have hlength := htail.length_eq
    simp only [Detector.parseChunks, Chunks.carry, Detector.parseStreamingIncrement]
    -- the chunks after this one, with the buffer kept
    have hnext := ih htail hstart
    by_cases hheld : d.held (buffer ++ c) = true
    · have hwaits : waits d (R.length + (o.marker d).length) (buffer ++ c) = true := by
        simp [waits, hheld]
      rw [if_pos hheld, if_pos hwaits]
      refine hnext.imp id fun hempty => ?_
      obtain ⟨hresult, hkept, hend⟩ := hempty
      refine ⟨hresult, hkept, .inr ?_⟩
      rcases hend with rfl | hend
      · simpa using hheld
      · exact hend
    · rw [if_neg hheld, release_eq (hstart.of_isPrefix hpre)]
      rcases Nat.lt_or_ge (buffer ++ c).length (R.length + (o.marker d).length) with hshort | hlong
      · have hwaits : waits d (R.length + (o.marker d).length) (buffer ++ c) = true := by
          rw [waits, decide_eq_true hshort, Bool.or_true]
        rw [settle_short hclear htail hpre hshort, if_neg (by simp [hstream]), if_pos hwaits]
        refine hnext.imp id fun hempty => ?_
        obtain ⟨hresult, hkept, hend⟩ := hempty
        refine ⟨hresult, hkept, .inr ?_⟩
        rcases hend with rfl | hend
        · simp only [flatten_nil, append_nil] at hlength
          omega
        · exact hend
      · have hwaits : ¬ waits d (R.length + (o.marker d).length) (buffer ++ c) = true := by
          simp only [waits, hheld, Bool.false_or, decide_eq_true_eq]
          omega
        have hrest : NoStart d stripped ([] ++ rest.flatten) := hstart.of_drop
        obtain ⟨hreasoning, hnormal⟩ := parseChunks_normal hrest
        rw [settle_long hclear htail hpre hlong, if_neg hwaits]
        refine .inl ⟨by simp [Result.append, hreasoning], ?_⟩
        simp only [Result.append, append_assoc, hnormal, nil_append]
        rw [htail.normal_eq hlong]

end Reasoning
