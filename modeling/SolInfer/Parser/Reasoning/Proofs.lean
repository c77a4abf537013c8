import SolInfer.Parser.Reasoning.Phases

set_option autoImplicit false

/-! # Streaming against one-time parsing

Both parsers agree on an output unless text is given out too early or kept too long: a reader that streams
the reasoning gives out the first part of a marker that is cut behind other text, one that does not stream
it keeps the start text in its buffer, and both keep a last chunk that could become a token. -/

open List

namespace Reasoning

variable {d : Detector} {o : Output} {R Z cur buffer : Str} {stripped : Bool}

/-! ## The whole output -/

def Output.reasons (d : Detector) (o : Output) : Bool := o.start || d.forceReasoning

def Output.parsed (d : Detector) (o : Output) : Result :=
  if o.reasons d then ⟨visible d o ++ o.normal, o.reasoning⟩ else { normalText := o.text d }

theorem init_eq (hclear : o.Clear d) (hprevious : d.previousContent = []) :
    d.init = ⟨[], false, d.forceReasoning⟩ := by
  have hend : Text.contains [] d.thinkEndToken = false := by
    simp [Text.contains, Text.find, hclear.thinkEnd_ne_nil]
  have hstart : Text.contains [] d.thinkStartToken = false := by
    simp [Text.contains, Text.find, hclear.thinkStart_ne_nil]
  simp [Detector.init, hprevious, hend, hstart]

theorem not_occurs_thinkStartText (hclear : o.Clear d) (hstart : o.start = false) (i : Nat) :
    ¬ d.thinkStartText <+: (o.text d).drop i := by
  intro hat
  have htoken := (hclear.thinkStart i ((prefix_append _ _).trans hat)).1
  rw [hstart] at htoken
  cases htoken

theorem text_of_start (hstart : o.start = true) :
    o.text d = d.thinkStartText ++ (o.reasoning ++ (o.marker d ++ o.normal)) := by
  simp [Output.text, Output.front, hstart]

theorem length_front (hstart : o.start = true) :
    (o.front d).length = d.thinkStartText.length + o.reasoning.length := by
  simp [Output.front, hstart]

theorem tail_of_not_start (hclear : o.Clear d) (hstart : o.start = false) (hZ : Z = o.text d) :
    o.front d = o.reasoning ∧ Tail d o o.reasoning Z ∧ NoStart d false Z := by
  have hfront : o.front d = o.reasoning := by simp [Output.front, hstart]
  rw [hZ]
  exact ⟨hfront, hfront ▸ tail_text hclear, .inr (not_occurs_thinkStartText hclear hstart)⟩

def Output.body (d : Detector) (o : Output) : Str := o.reasoning ++ (o.marker d ++ o.normal)

theorem tail_body (hclear : o.Clear d) : Tail d o o.reasoning (o.body d) := by
  have htail := tail_text hclear
  cases hstart : o.start with
  | false => simpa [Output.text, Output.front, Output.body, hstart] using htail
  | true =>
    rw [text_of_start hstart] at htail
    simp only [Output.front, hstart, if_true] at htail
    exact htail.drop

theorem stripStarts_text (hclear : o.Clear d) :
    Detector.stripStarts d.thinkStartText ((o.text d).length + 1) (o.text d) = some (o.body d) := by
  cases hstart : o.start with
  | false =>
    have hnot : ¬ d.thinkStartText.isPrefixOf (o.text d) = true := fun hpre =>
      not_occurs_thinkStartText hclear hstart 0 (List.isPrefixOf_iff_prefix.1 hpre)
    rw [Detector.stripStarts, if_neg hnot]
    simp [Output.text, Output.front, Output.body, hstart]
  | true =>
    have hpos := length_pos_iff.2 hclear.thinkStartText_ne_nil
    have hfirst : d.thinkStartText.isPrefixOf (o.text d) = true := by
      rw [text_of_start hstart, List.isPrefixOf_iff_prefix]
      exact prefix_append _ _
    have hbody : (o.text d).drop d.thinkStartText.length = o.body d := by
      rw [text_of_start hstart, drop_left]
      rfl
    have hnot : ¬ d.thinkStartText.isPrefixOf (o.body d) = true := by
      intro hpre
      rw [List.isPrefixOf_iff_prefix, ← hbody] at hpre
      have := (hclear.thinkStart _ ((prefix_append _ _).trans hpre)).2
      omega
    obtain ⟨n, hn⟩ : ∃ n, (o.text d).length = n + 1 := by
      refine Nat.exists_eq_succ_of_ne_zero ?_
      rw [text_of_start hstart, length_append]
      omega
    rw [Detector.stripStarts, if_pos hfirst, hbody, hn, Detector.stripStarts, if_neg hnot]

/-- **One-time parsing** finds the parts of the output. -/
theorem detectAndParse_text (hclear : o.Clear d) (hprevious : d.previousContent = []) :
    d.detectAndParse d.init (o.text d) = some (o.parsed d) := by
  rw [init_eq hclear hprevious, Detector.detectAndParse, Output.parsed]
  cases hreasons : o.reasons d with
  | false =>
    obtain ⟨hstart, hforce⟩ := Bool.or_eq_false_iff.1 hreasons
    have hnone : Text.contains (o.text d) d.thinkStartToken = false := by
      rw [Text.contains_eq_false]
      intro i hat
      have htoken := (hclear.thinkStart i hat).1
      rw [hstart] at htoken
      cases htoken
    simp [hforce, hnone]
  | true =>
    have hdetected : (d.forceReasoning || Text.contains (o.text d) d.thinkStartToken) = true := by
      rcases Bool.or_eq_true_iff.1 hreasons with hstart | hforce
      · have hcontains : Text.contains (o.text d) d.thinkStartToken = true := by
          by_contra hnot
          refine Text.contains_eq_false.1 (Bool.eq_false_iff.2 hnot) 0 ?_
          rw [text_of_start hstart, Detector.thinkStartText, append_assoc]
          exact prefix_append _ _
        rw [hcontains, Bool.or_true]
      · rw [hforce, Bool.true_or]
    have htail := tail_body hclear
    have hlong : o.reasoning.length + (o.marker d).length ≤ (o.body d).length := by
      rw [htail.length_eq]
      omega
    obtain ⟨htake, hdrop⟩ := take_of_long htail prefix_rfl hlong
    have hnormal : (o.body d).drop (o.reasoning.length + (o.marker d).length) = o.normal := by
      have hall : Tail d o o.reasoning (o.body d ++ []) := by rwa [append_nil]
      simpa using (hall.normal_eq hlong).symm
    rw [stripStarts_text hclear]
    simp only [hdetected, Bool.not_true, Bool.false_eq_true, if_false, Option.bind_some, if_true]
    rcases find_of_long hclear htail prefix_rfl hlong with
      ⟨htool, hfind⟩ | ⟨htool, hnone, hfind⟩
    · have heq : o.marker d = d.thinkEndToken := by simp [Output.marker, htool]
      rw [heq] at hnormal
      simp [Text.contains, hfind, hclear.thinkEnd_ne_nil, htake, hnormal, visible, htool]
    · have hempty : Text.find d.thinkEndToken ([] : Str) = none := by
        simp [Text.find, hclear.thinkEnd_ne_nil]
      have htoken : d.toolStartToken = some (o.marker d) := by
        rcases marker_cases hclear.tool with ⟨hnot, _⟩ | ⟨_, heq⟩
        · rw [htool] at hnot
          cases hnot
        · exact heq
      simp [Text.contains, hnone, hprevious, hempty, htoken, hfind, htake, hdrop, hnormal, visible, htool]

def Output.keptAtEnd (d : Detector) (o : Output) (chunks : List Str) : Str :=
  if o.reasons d && !d.streamReasoning then
    Chunks.carry (waits d ((o.front d).length + (o.marker d).length)) d.held [] chunks
  else Chunks.carry d.held d.held [] chunks

/-- The cuts of an output that do no harm. -/
structure Output.CutWell (d : Detector) (o : Output) (chunks : List Str) : Prop where
  /-- Streamed segments do not end inside the marker. -/
  marker : o.reasons d = true → d.streamReasoning = true →
    ¬ CutInside (o.front d).length (o.marker d).length (Chunks.segments d.held [] chunks)
  /-- Without streaming, all text in front of the end of the marker is held back behind a start text. -/
  start : o.start = true → d.streamReasoning = false → ∀ k, d.held (chunks.take k).flatten = true ∨
    (o.front d).length + (o.marker d).length ≤ (chunks.take k).flatten.length
  /-- At the end nothing is kept but tokens that are not given out. -/
  kept : o.keptAtEnd d chunks = [] ∨ (o.reasons d = true ∧ o.tool = false ∧ o.normal = [] ∧
    (o.keptAtEnd d chunks = o.marker d ∨ (o.reasoning = [] ∧ o.keptAtEnd d chunks = o.text d)))

/-! ## When streaming agrees -/

theorem settle_congr_buffer (hstream : d.streamReasoning = true) (b b' : Str) (inReasoning : Bool) :
    d.settle cur ⟨b, stripped, inReasoning⟩ = d.settle cur ⟨b', stripped, inReasoning⟩ := by
  simp [Detector.settle, hstream]

theorem release_start (inReasoning : Bool) (y : Str) :
    d.release ⟨d.thinkStartText ++ y, false, inReasoning⟩ =
      d.settle y ⟨d.thinkStartText ++ y, true, true⟩ := by
  have hfind : Text.find d.thinkStartText (d.thinkStartText ++ y) = some 0 :=
    Text.find_eq_some (by simp) (Nat.zero_le _) fun j hj => (Nat.not_lt_zero j hj).elim
  simp [Detector.release, Detector.stripThinkStart, hfind]

theorem cutInside_start (n marker : Nat) (x y : Str) (rest : List Str) :
    CutInside (x.length + n) marker ((x ++ y) :: rest) ↔ CutInside n marker (y :: rest) := by
  constructor
  all_goals
    rintro ⟨k, hk, hlt⟩
    rcases k with _ | k
    · simp at hk
    · simp only [take_succ_cons, flatten_cons, length_append] at hk hlt
      refine ⟨k + 1, ?_, ?_⟩ <;>
        simp only [take_succ_cons, flatten_cons, length_append] <;> omega

theorem exists_of_not_held (hstart : o.start = true) (hcur : cur <+: o.text d)
    (hheld : d.held cur = false) : ∃ y, cur = d.thinkStartText ++ y := by
  have hfront : d.thinkStartText <+: o.text d := by
    rw [text_of_start hstart]
    exact prefix_append _ _
  rcases Nat.lt_or_ge cur.length d.thinkStartText.length with hlt | hge
  · have hpre := prefix_of_prefix_length_le hcur hfront hlt.le
    rw [held_of_isPrefix_start hpre hlt] at hheld
    cases hheld
  · obtain ⟨y, hy⟩ := prefix_of_prefix_length_le hfront hcur hge
    exact ⟨y, hy.symm⟩

section Agreement

variable (hclear : o.Clear d) (hprevious : d.previousContent = []) {chunks : List Str}
  (hchunks : chunks.flatten = o.text d)

include hclear

theorem text_ne_nil : o.text d ≠ [] := by
  simp [Output.text, hclear.marker_ne_nil]

theorem parsed_eq_empty_iff :
    ({} : Result) = ⟨visible d o ++ o.normal, o.reasoning⟩ ↔
      o.tool = false ∧ o.normal = [] ∧ o.reasoning = [] := by
  have hvisible : visible d o = [] ↔ o.tool = false := by
    cases htool : o.tool <;> simp [visible, htool, hclear.marker_ne_nil]
  simp only [Result.mk.injEq, eq_comm (a := ([] : Str)), append_eq_nil_iff, hvisible, and_assoc]

theorem parseChunks_iff_of_start (hstart : o.start = true) (hstream : d.streamReasoning = false)
    {inReasoning : Bool} (hheld : d.held buffer = true) {n : Nat} (hn : n = (o.front d).length + (o.marker d).length)
    (hchunks : buffer ++ chunks.flatten = o.text d) :
    d.parseChunks ⟨buffer, false, inReasoning⟩ chunks = ⟨visible d o ++ o.normal, o.reasoning⟩ ↔
      (∀ k, d.held (buffer ++ (chunks.take k).flatten) = true ∨
        n ≤ (buffer ++ (chunks.take k).flatten).length) ∧
      (Chunks.carry (waits d n) d.held buffer chunks = [] ∨
        (o.tool = false ∧ o.normal = [] ∧ o.reasoning = [] ∧
          Chunks.carry (waits d n) d.held buffer chunks =
            o.text d)) := by
  have hfront := length_front (d := d) hstart
  induction chunks generalizing buffer with
  | nil =>
    obtain rfl : buffer = o.text d := by simpa using hchunks
    rw [Detector.parseChunks, parsed_eq_empty_iff hclear]
    simp [Chunks.carry, text_ne_nil hclear, hheld]
  | cons c rest ih =>
    have hsplit : buffer ++ (c :: rest).flatten = (buffer ++ c) ++ rest.flatten := by simp
    rw [hsplit] at hchunks
    have hall : ∀ {P : Str → Prop}, P buffer →
        ((∀ k, P (buffer ++ ((c :: rest).take k).flatten)) ↔
          ∀ k, P ((buffer ++ c) ++ (rest.take k).flatten)) := by
      intro P hP
      constructor
      · intro h k
        simpa using h (k + 1)
      · intro h k
        rcases k with _ | k
        · simpa using hP
        · simpa using h k
    rw [hall (P := fun x => d.held x = true ∨
      n ≤ x.length) (.inl hheld)]
    simp only [Detector.parseChunks, Chunks.carry, Detector.parseStreamingIncrement]
    by_cases hcur : d.held (buffer ++ c) = true
    · have hwaits : waits d n (buffer ++ c) = true := by
        simp [waits, hcur]
      rw [if_pos hcur, if_pos hwaits]
      exact ih hcur hchunks
    · have hpre : buffer ++ c <+: o.text d := ⟨rest.flatten, hchunks⟩
      obtain ⟨y, hy⟩ := exists_of_not_held hstart hpre (Bool.eq_false_iff.2 hcur)
      rw [if_neg hcur, hy, release_start]
      rw [hy] at hcur hchunks hpre
      have hbody : y ++ rest.flatten = o.body d := by
        have heq := hchunks.trans (text_of_start hstart)
        simpa [Output.body] using heq
      have htail : Tail d o o.reasoning (y ++ rest.flatten) := hbody ▸ tail_body hclear
      rcases Nat.lt_or_ge y.length (o.reasoning.length + (o.marker d).length) with hshort | hlong
      · rw [settle_short hclear htail (prefix_append _ _) hshort,
          if_neg (by simp [hstream])]
        refine iff_of_false ?_ ?_
        · -- the start text comes out in front of the reasoning
          intro heq
          have hfull : Tail d o (o.front d) ((d.thinkStartText ++ y) ++ rest.flatten) := by
            rw [hchunks]
            exact tail_text hclear
          have hlength := hfull.length_eq
          have hsame : (d.parseChunks ⟨d.thinkStartText ++ y, true, true⟩ rest).reasoningText =
              o.reasoning := congrArg Result.reasoningText heq
          rcases parseChunks_buffered hclear hstream hfull (.inl rfl) with
            ⟨hreasoning, _⟩ | ⟨_, _, hend⟩
          · rw [hsame] at hreasoning
            have hsame := congrArg length hreasoning
            have hpos := length_pos_iff.2 hclear.thinkStartText_ne_nil
            omega
          · rcases hend with rfl | hend
            · simp only [flatten_nil, append_nil, length_append] at hlength
              omega
            · exact hcur (held_of_isPrefix (prefix_append _ _) hend)
        · rintro ⟨hlooked, _⟩
          rcases hlooked 0 with hlooked | hlooked
          · exact hcur (by simpa using hlooked)
          · simp only [take_zero, flatten_nil, append_nil, length_append] at hlooked
            omega
      · have hwaits : ¬ waits d n
            (d.thinkStartText ++ y) = true := by
          simp only [waits, hcur, Bool.false_or, decide_eq_true_eq, length_append]
          omega
        have hnostart : NoStart d true ([] ++ rest.flatten) := .inl rfl
        obtain ⟨hreasoning, hnormal⟩ := parseChunks_normal hnostart
        have hN := htail.normal_eq hlong
        rw [settle_long hclear htail (prefix_append _ _) hlong, if_neg hwaits]
        have hcomplete : ∀ k, d.held (d.thinkStartText ++ y ++ (rest.take k).flatten) = true ∨
            n ≤
              (d.thinkStartText ++ y ++ (rest.take k).flatten).length := by
          intro k
          refine .inr ?_
          simp only [length_append]
          omega
        rw [nil_append] at hnormal
        simp only [Result.append, Result.mk.injEq, hreasoning, append_nil, and_true,
          append_assoc, append_cancel_left_eq]
        rw [and_iff_right (by simpa using hcomplete), hN, ← hnormal]
        simp only [append_cancel_left_eq, self_eq_append_right]
        refine ⟨.inl, fun h => h.elim id ?_⟩
        rintro ⟨_, hnil, _⟩
        exact (append_eq_nil_iff.1 (append_eq_nil_iff.1 hnil).2).2

include hchunks

theorem kept_cases (hnil : o.normal = []) {n : Nat} (hn : n = (o.front d).length + (o.marker d).length) :
    Chunks.carry (waits d n) d.held [] chunks = [] ∨
      Chunks.carry (waits d n) d.held [] chunks = o.text d := by
  rcases Chunks.carry_cases (waits d n) d.held []
    chunks with hall | ⟨cur, hwaits, hlength⟩
  · exact .inr (by rw [hall, nil_append, hchunks])
  · have hlong : n ≤ cur.length := by
      simp only [waits, Bool.or_eq_false_iff, decide_eq_false_iff_not] at hwaits
      omega
    have htext := (tail_text hclear).length_eq
    rw [nil_append, hchunks, htext, hnil, length_nil] at hlength
    exact .inl (eq_nil_of_length_eq_zero (by omega))

include hprevious

theorem parseChunks_iff_of_normal (hreasons : o.reasons d = false) :
    d.parseChunks d.init chunks = o.parsed d ↔ o.CutWell d chunks := by
  obtain ⟨hstart, hforce⟩ := Bool.or_eq_false_iff.1 hreasons
  obtain ⟨-, -, hnostart⟩ := tail_of_not_start hclear hstart hchunks
  obtain ⟨hreasoning, hnormal⟩ := parseChunks_normal (show NoStart d _ ([] ++ chunks.flatten) from hnostart)
  have hkept : o.keptAtEnd d chunks = Chunks.carry d.held d.held [] chunks := by
    simp [Output.keptAtEnd, hreasons]
  rw [nil_append, hchunks] at hnormal
  rw [init_eq hclear hprevious, hforce]
  constructor
  · intro heq
    refine ⟨by simp [hreasons], by simp [hstart], .inl ?_⟩
    rw [heq, Output.parsed, if_neg (by simp [hreasons])] at hnormal
    rw [hkept]
    simpa using hnormal
  · intro hwell
    have hnil : Chunks.carry d.held d.held [] chunks = [] := by
      rcases hwell.kept with hnil | ⟨htrue, _⟩
      · rwa [hkept] at hnil
      · rw [hreasons] at htrue
        cases htrue
    rw [Output.parsed, if_neg (by simp [hreasons])]
    cases hresult : d.parseChunks ⟨[], false, false⟩ chunks
    simp_all

theorem parseChunks_iff_of_streamed (hreasons : o.reasons d = true)
    (hstream : d.streamReasoning = true) :
    d.parseChunks d.init chunks = o.parsed d ↔ o.CutWell d chunks := by
  have hkept : o.keptAtEnd d chunks = Chunks.carry d.held d.held [] chunks := by
    simp [Output.keptAtEnd, hstream]
  have hcat := Chunks.segments_append_carry d.held [] chunks
  have hunheld : ∀ seg ∈ Chunks.segments d.held [] chunks, d.held seg = false :=
    fun _ => Chunks.not_held_of_mem_segments
  rw [nil_append, hchunks] at hcat
  rw [parseChunks_eq_segments hstream, init_eq hclear hprevious, Output.parsed, if_pos hreasons]
  -- from now on only the segments and the rest matter
  have hwell : o.CutWell d chunks ↔
      ¬ CutInside (o.front d).length (o.marker d).length (Chunks.segments d.held [] chunks) ∧
        (Chunks.carry d.held d.held [] chunks = [] ∨ (o.tool = false ∧ o.normal = [] ∧
          (Chunks.carry d.held d.held [] chunks = o.marker d ∨
            (o.reasoning = [] ∧ Chunks.carry d.held d.held [] chunks = o.text d)))) := by
    rw [← hkept]
    constructor
    · intro h
      exact ⟨h.marker hreasons hstream, h.kept.imp id And.right⟩
    · rintro ⟨hcut, hrest⟩
      exact ⟨fun _ _ => hcut, by simp [hstream], hrest.imp id (And.intro hreasons)⟩
  rw [hwell]
  generalize Chunks.segments d.held [] chunks = segs at hcat hunheld ⊢
  generalize Chunks.carry d.held d.held [] chunks = rest at hcat ⊢
  cases hstart : o.start with
  | false =>
    have hforce : d.forceReasoning = true := by simpa [Output.reasons, hstart] using hreasons
    obtain ⟨hfront, htail, hnostart⟩ := tail_of_not_start hclear hstart hcat
    rw [hforce, hfront]
    refine (parseSegments_reasoning [] hclear hstream htail hnostart).trans ?_
    refine and_congr_right (fun _ => or_congr_right (and_congr_right (fun htool =>
      and_congr_right (fun hnil => ?_))))
    refine ⟨.inl, fun h => h.elim id ?_⟩
    rintro ⟨hR, rfl⟩
    simp [Output.text, hfront, hR, hnil]
  | true =>
    have hfront := length_front (d := d) hstart
    have hpos := length_pos_iff.2 hclear.thinkStartText_ne_nil
    have htext := text_of_start (d := d) hstart
    have hlength := congrArg length htext
    simp only [length_append] at hlength
    rcases segs with _ | ⟨seg, segs⟩
    · -- everything was held back
      obtain rfl : rest = o.text d := by simpa using hcat
      have hne : o.text d ≠ o.marker d := by
        intro heq
        rw [heq] at hlength
        omega
      rw [parseSegments, parsed_eq_empty_iff hclear]
      simp only [cutInside_nil, not_false_eq_true, true_and, text_ne_nil hclear, false_or, hne, and_true]
    · have hseg : seg <+: o.text d := by
        rw [← hcat, flatten_cons, append_assoc]
        exact prefix_append _ _
      obtain ⟨y, rfl⟩ := exists_of_not_held hstart hseg (hunheld seg mem_cons_self)
      have hbody : (y :: segs).flatten ++ rest = o.body d := by
        have hall := hcat.trans htext
        simpa [Output.body] using hall
      have hparse : parseSegments d ⟨[], false, d.forceReasoning⟩ ((d.thinkStartText ++ y) :: segs) =
          parseSegments d ⟨[], true, true⟩ (y :: segs) := by
        rw [parseSegments, parseSegments, release_start, release_eq (.inl rfl),
          settle_congr_buffer hstream (d.thinkStartText ++ y) y]
      have htail : Tail d o o.reasoning ((y :: segs).flatten ++ rest) := hbody ▸ tail_body hclear
      have hne : rest ≠ o.text d := by
        intro heq
        have := congrArg length hcat
        simp only [flatten_cons, length_append, heq] at this
        omega
      rw [hparse, hfront, cutInside_start]
      refine (parseSegments_reasoning [] hclear hstream htail (.inl rfl)).trans ?_
      simp [hne]

theorem parseChunks_iff_of_buffered (hreasons : o.reasons d = true)
    (hstream : d.streamReasoning = false) :
    d.parseChunks d.init chunks = o.parsed d ↔ o.CutWell d chunks := by
  have hkept : o.keptAtEnd d chunks =
      Chunks.carry (waits d ((o.front d).length + (o.marker d).length)) d.held [] chunks := by
    simp [Output.keptAtEnd, hreasons, hstream]
  have hempty : d.held [] = true := held_of_isPrefix_start nil_prefix
    (length_pos_iff.2 hclear.thinkStartText_ne_nil)
  have htext : [] ++ chunks.flatten = o.text d := by rw [nil_append, hchunks]
  -- a kept marker is all of the text
  have hmarker : o.normal = [] → o.keptAtEnd d chunks = o.marker d → o.text d = o.marker d := by
    intro hnil heq
    rw [hkept] at heq
    rcases kept_cases hclear hchunks hnil rfl with hk | hk
    · rw [hk] at heq
      exact absurd heq.symm hclear.marker_ne_nil
    · exact hk.symm.trans heq
  have hwell : o.CutWell d chunks ↔
      (o.start = true → ∀ k, d.held (chunks.take k).flatten = true ∨
        (o.front d).length + (o.marker d).length ≤ (chunks.take k).flatten.length) ∧
      (o.keptAtEnd d chunks = [] ∨ (o.tool = false ∧ o.normal = [] ∧ o.reasoning = [] ∧
        o.keptAtEnd d chunks = o.text d)) := by
    constructor
    · intro h
      refine ⟨fun hstart => h.start hstart hstream, h.kept.imp id ?_⟩
      rintro ⟨_, htool, hnil, heq | ⟨hR, heq⟩⟩
      · have hsame := hmarker hnil heq
        have hlength := (tail_text hclear).length_eq
        rw [hsame] at hlength
        have hfront : o.front d = [] := eq_nil_of_length_eq_zero (by omega)
        exact ⟨htool, hnil, (append_eq_nil_iff.1 hfront).2, heq.trans hsame.symm⟩
      · exact ⟨htool, hnil, hR, heq⟩
    · rintro ⟨hlooked, hrest⟩
      refine ⟨by simp [hstream], fun hstart _ => hlooked hstart, hrest.imp id ?_⟩
      rintro ⟨htool, hnil, hR, heq⟩
      exact ⟨hreasons, htool, hnil, .inr ⟨hR, heq⟩⟩
  rw [hwell, hkept, init_eq hclear hprevious, Output.parsed, if_pos hreasons]
  cases hstart : o.start with
  | true =>
    rw [parseChunks_iff_of_start hclear hstart hstream hempty rfl htext]
    simp
  | false =>
    have hforce : d.forceReasoning = true := by simpa [Output.reasons, hstart] using hreasons
    obtain ⟨hfront, htail, hnostart⟩ := tail_of_not_start hclear hstart htext
    rw [hforce, hfront]
    simp only [Bool.false_eq_true, false_implies, true_and]
    rcases parseChunks_buffered hclear hstream htail hnostart with
      ⟨hreasoning, hnormal⟩ | ⟨hresult, hall, _⟩
    · generalize Chunks.carry (waits d (o.reasoning.length + (o.marker d).length)) d.held [] chunks =
        kept at hnormal ⊢
      have hiff : d.parseChunks ⟨[], false, true⟩ chunks = ⟨visible d o ++ o.normal, o.reasoning⟩ ↔
          kept = [] := by
        cases hparse : d.parseChunks ⟨[], false, true⟩ chunks
        rw [hparse] at hreasoning hnormal
        simp only at hreasoning hnormal
        rw [← hnormal, hreasoning]
        simp
      rw [hiff]
      refine ⟨.inl, fun h => h.elim id ?_⟩
      rintro ⟨htool, hnil, _, _⟩
      rw [hnil, visible, if_neg (by simp [htool]), append_nil] at hnormal
      exact (append_eq_nil_iff.1 hnormal).2
    · rw [hresult, parsed_eq_empty_iff hclear, hall, htext]
      simp [text_ne_nil hclear]

end Agreement

section Tokens

variable (hclear : o.Clear d) {t : Str} (ht : t ∈ d.tokens)
include hclear ht

theorem Output.Clear.token_ne_nil : t ≠ [] := by
  rcases mem_cons.1 ht with rfl | ht
  · exact hclear.thinkStart_ne_nil
  rcases mem_cons.1 ht with rfl | ht
  · exact hclear.thinkEnd_ne_nil
  · exact hclear.tool_ne_nil (Option.mem_toList.1 ht)

theorem Output.Clear.occurs {i : Nat} (hat : t <+: (o.text d).drop i) :
    (o.start ∧ i = 0) ∨ i = (o.front d).length := by
  rcases mem_cons.1 ht with rfl | ht
  · exact .inl (hclear.thinkStart i hat)
  rcases mem_cons.1 ht with rfl | ht
  · exact .inr (hclear.thinkEnd i hat).2
  · exact .inr (hclear.toolStart t (Option.mem_toList.1 ht) i hat).2

theorem not_occurs_reasoning (i : Nat) : ¬ t <+: o.reasoning.drop i := by
  intro hat
  -- a token in the reasoning would be one of the text, in front of its marker
  have hne := hclear.token_ne_nil ht
  have hlength := Text.occurs_length hat hne
  have hpos := length_pos_iff.2 hne
  obtain ⟨x, hx⟩ : ∃ x : Str, o.text d = x ++ o.reasoning ++ (o.marker d ++ o.normal) := ⟨_, rfl⟩
  have hfront : (o.front d).length = x.length + o.reasoning.length := by
    have hsame := congrArg length hx
    simp only [Output.text, length_append] at hsame
    omega
  have hintext : t <+: (o.text d).drop (x.length + i) := by
    rw [hx, append_assoc, drop_length_add_append]
    exact Text.occurs_of_isPrefix (prefix_append _ _) hat
  rcases hclear.occurs ht hintext with ⟨hstart, hzero⟩ | hi
  · have hstartText := length_front (d := d) hstart
    have hpos := length_pos_iff.2 hclear.thinkStartText_ne_nil
    omega
  · omega

theorem not_occurs_normal (i : Nat) : ¬ t <+: o.normal.drop i := by
  intro hat
  have hpos := length_pos_iff.2 hclear.marker_ne_nil
  have hintext : t <+: (o.text d).drop ((o.front d ++ o.marker d).length + i) := by
    rw [Output.text, ← append_assoc, drop_length_add_append]
    exact hat
  rw [length_append] at hintext
  rcases hclear.occurs ht hintext with ⟨-, hzero⟩ | hi <;> omega

theorem contains_reasoning : Text.contains (o.parsed d).reasoningText t = false := by
  unfold Output.parsed
  split
  · exact Text.contains_eq_false.2 (not_occurs_reasoning hclear ht)
  · simp [Text.contains, Text.find, hclear.token_ne_nil ht]

end Tokens

/-- **Streaming equals one-time parsing** exactly for the outputs that are cut well: for every detector
    without a continued message, every clear output and every way to cut it, the texts of the chunks are
    those of the whole output, and no token is in the reasoning. -/
theorem streaming_eq_oneTime_iff (hclear : o.Clear d) (hprevious : d.previousContent = [])
    {chunks : List Str} (hchunks : chunks.flatten = o.text d) :
    (∃ result, d.detectAndParse d.init (o.text d) = some result ∧
      d.parseChunks d.init chunks = result ∧
      ∀ t ∈ d.thinkStartToken :: d.thinkEndToken :: d.toolStartToken.toList,
        Text.contains result.reasoningText t = false) ↔ o.CutWell d chunks := by
  have hcuts : d.parseChunks d.init chunks = o.parsed d ↔ o.CutWell d chunks := by
    cases hreasons : o.reasons d with
    | false => exact parseChunks_iff_of_normal hclear hprevious hchunks hreasons
    | true =>
      cases hstream : d.streamReasoning with
      | false => exact parseChunks_iff_of_buffered hclear hprevious hchunks hreasons hstream
      | true => exact parseChunks_iff_of_streamed hclear hprevious hchunks hreasons hstream
  rw [← hcuts, detectAndParse_text hclear hprevious]
  constructor
  · rintro ⟨result, hresult, hparse, _⟩
    cases hresult
    exact hparse
  · intro hparse
    exact ⟨_, rfl, hparse, fun t ht => contains_reasoning hclear ht⟩

/-! ## Tokens that do not overlap -/

theorem marker_mem (htool : o.tool → d.toolStartToken.isSome) : o.marker d ∈ d.tokens := by
  rcases marker_cases htool with ⟨-, heq⟩ | ⟨-, heq⟩
  · simp [Detector.tokens, heq]
  · simp [Detector.tokens, heq]

theorem occurs_body (h : d.Separate) {t marker R N : Str} (ht : t ∈ d.tokens) (hmarker : marker ∈ d.tokens)
    (hR : ∀ i, ¬ t <+: R.drop i) (hN : ∀ i, ¬ t <+: N.drop i) {i : Nat}
    (hat : t <+: (R ++ (marker ++ N)).drop i) : t = marker ∧ i = R.length := by
  rcases Text.occurs_append hat with ⟨hge, hat⟩ | ⟨-, hat⟩ | ⟨hlt, w, hw, htw, hat⟩
  · rcases Text.occurs_append hat with ⟨-, hat⟩ | ⟨hlt, hat⟩ | ⟨hlt, w, -, htw, -⟩
    · exact absurd hat (hN _)
    · obtain ⟨rfl, hzero⟩ := h.apart t ht marker hmarker _ hlt (.inl hat)
      exact ⟨rfl, by omega⟩
    · obtain ⟨rfl, hzero⟩ := h.apart t ht marker hmarker _ hlt (.inr ⟨w, htw.symm⟩)
      exact ⟨rfl, by omega⟩
  · exact absurd hat (hR i)
  · -- the end of the token would begin the marker
    have hpos : 0 < (R.drop i).length := by rw [length_drop]; omega
    have hend : t.drop (R.drop i).length = w := by rw [htw, drop_left]
    have hin : (R.drop i).length < t.length := by
      rw [htw, length_append]
      have := length_pos_iff.2 hw
      omega
    have hbegins : Text.Begins marker t (R.drop i).length := by
      rw [Text.Begins, hend]
      exact prefix_or_prefix_of_prefix (prefix_append marker N) hat
    obtain ⟨-, hzero⟩ := h.apart marker hmarker t ht _ hin hbegins
    omega

theorem occurs_text (h : d.Separate) (htool : o.tool → d.toolStartToken.isSome) {t : Str} (ht : t ∈ d.tokens)
    (hR : ∀ i, ¬ t <+: o.reasoning.drop i) (hN : ∀ i, ¬ t <+: o.normal.drop i) {i : Nat}
    (hat : t <+: (o.text d).drop i) :
    (o.start ∧ t = d.thinkStartToken ∧ i = 0) ∨ (t = o.marker d ∧ i = (o.front d).length) := by
  unfold Output.text Output.front at *
  cases hstart : o.start with
  | false =>
    rw [hstart] at hat
    exact .inr (occurs_body h ht (marker_mem htool) hR hN hat)
  | true =>
    rw [hstart, if_pos rfl, append_assoc] at hat
    rcases Text.occurs_append hat with ⟨hge, hat⟩ | ⟨hlt, hat⟩ | ⟨hlt, w, -, htw, -⟩
    · obtain ⟨heq, hi⟩ := occurs_body h ht (marker_mem htool) hR hN hat
      refine .inr ⟨heq, ?_⟩
      rw [if_pos rfl, length_append]
      omega
    · exact .inl ⟨rfl, h.start t ht i hlt (.inl hat)⟩
    · exact .inl ⟨rfl, h.start t ht i hlt (.inr ⟨w, htw.symm⟩)⟩

theorem clear_of_contains (h : d.Separate) (htool : o.tool → d.toolStartToken.isSome)
    (hnone : ∀ t ∈ d.tokens, Text.contains o.reasoning t = false ∧ Text.contains o.normal t = false) :
    o.Clear d := by
  have hocc : ∀ t ∈ d.tokens, ∀ i, t <+: (o.text d).drop i →
      (o.start ∧ t = d.thinkStartToken ∧ i = 0) ∨ (t = o.marker d ∧ i = (o.front d).length) := by
    intro t ht i hat
    obtain ⟨hR, hN⟩ := hnone t ht
    exact occurs_text h htool ht (Text.contains_eq_false.1 hR) (Text.contains_eq_false.1 hN) hat
  obtain ⟨⟨hstartEnd, hstartTool⟩, hendTool, -⟩ := by
    simpa only [Detector.tokens, nodup_cons, mem_cons, Option.mem_toList, not_or] using h.nodup
  have hmarker := marker_cases htool
  refine ⟨htool, fun i hat => ?_, fun i hat => ?_, fun t ht i hat => ?_⟩
  · rcases hocc _ (by simp [Detector.tokens]) i hat with ⟨hstart, -, hi⟩ | ⟨heq, -⟩
    · exact ⟨hstart, hi⟩
    · rw [← heq] at hmarker
      rcases hmarker with ⟨-, hend⟩ | ⟨-, htool⟩
      · exact absurd hend hstartEnd
      · exact absurd htool hstartTool
  · rcases hocc _ (by simp [Detector.tokens]) i hat with ⟨-, heq, -⟩ | ⟨heq, hi⟩
    · exact absurd heq.symm hstartEnd
    · rw [← heq] at hmarker
      rcases hmarker with ⟨hkind, -⟩ | ⟨-, htool⟩
      · exact ⟨by simp [hkind], hi⟩
      · exact absurd htool hendTool
  · have ht' : d.toolStartToken = some t := ht
    rcases hocc t (by simp [Detector.tokens, ht']) i hat with ⟨-, rfl, -⟩ | ⟨rfl, hi⟩
    · exact absurd ht' hstartTool
    · rcases hmarker with ⟨-, hend⟩ | ⟨hkind, -⟩
      · exact absurd (hend ▸ ht') hendTool
      · exact ⟨hkind, hi⟩

/-- **For tokens that do not overlap, an output is clear when its reasoning and normal text contain no token.** -/
theorem clear_iff (h : d.Separate) : o.Clear d ↔ (o.tool → d.toolStartToken.isSome) ∧
    ∀ t ∈ d.tokens, Text.contains o.reasoning t = false ∧ Text.contains o.normal t = false := by
  refine ⟨fun hclear => ⟨hclear.tool, fun t ht => ?_⟩, fun hnone => clear_of_contains h hnone.1 hnone.2⟩
  exact ⟨Text.contains_eq_false.2 (not_occurs_reasoning hclear ht),
    Text.contains_eq_false.2 (not_occurs_normal hclear ht)⟩

/-! A detector with the tokens of most models. -/

def thinkDetector (streamReasoning : Bool) : Detector where
  thinkStartToken := "<think>".toList
  thinkEndToken := "</think>".toList
  toolStartToken := some "<tool_call>".toList
  forceReasoning := false
  streamReasoning := streamReasoning
  thinkStartSelfLabel := []
  previousContent := []

def shortOutput : Output := ⟨true, "ab".toList, false, "c".toList⟩

theorem thinkDetector_separate (streamReasoning : Bool) : (thinkDetector streamReasoning).Separate := by
  cases streamReasoning <;> exact ⟨by decide, by decide, by decide +kernel, by decide +kernel⟩

theorem shortOutput_clear (streamReasoning : Bool) : shortOutput.Clear (thinkDetector streamReasoning) :=
  (clear_iff (thinkDetector_separate streamReasoning)).2
    ⟨fun h => absurd h Bool.false_ne_true, by cases streamReasoning <;> decide +kernel⟩

theorem streaming_eq_oneTime_cut_tokens :
    shortOutput.CutWell (thinkDetector true)
      ["<thi".toList, "nk>ab".toList, "</thi".toList, "nk>c".toList] := by
  have hchunks : ["<thi".toList, "nk>ab".toList, "</thi".toList, "nk>c".toList].flatten =
      shortOutput.text (thinkDetector true) := by decide
  refine (streaming_eq_oneTime_iff (shortOutput_clear true) rfl hchunks).1 ⟨⟨['c'], ['a', 'b']⟩, ?_⟩
  refine ⟨by decide +kernel, by decide +kernel, by decide +kernel⟩

/-- An end token cut behind reasoning is streamed as reasoning, and what follows it too; without streaming
    the start token is in the reasoning. -/
theorem streaming_loses_marker :
    (thinkDetector true).detectAndParse (thinkDetector true).init "<think>ab</think>c".toList =
        some ⟨"c".toList, "ab".toList⟩ ∧
      (thinkDetector true).parseChunks (thinkDetector true).init
          ["<think>ab</th".toList, "ink>c".toList] = ⟨[], "ab</think>c".toList⟩ ∧
      (thinkDetector false).detectAndParse (thinkDetector false).init "<think>ab</think>c".toList =
        some ⟨"c".toList, "ab".toList⟩ ∧
      (thinkDetector false).parseChunks (thinkDetector false).init
          ["<think>ab".toList, "</think>c".toList] = ⟨"c".toList, "<think>ab".toList⟩ := by
  decide +kernel

end Reasoning
