import SolInfer.Lib.Python

set_option autoImplicit false

/-! # The reasoning grammar object

`srt/constrained/reasoner_grammar_backend.py`: a grammar object that leaves the tokens of the thinking
phase alone and hands the tokens after the think-end token to an inner grammar. The phase is encoded in
two counters, which `rollback` has to turn back together with the inner grammar. -/

namespace Constrained

inductive KeyType where
  | json
  | regex
  | ebnf
  | structuralTag
deriving DecidableEq, Repr

def KeyType.str : KeyType → String
  | .json => "json"
  | .regex => "regex"
  | .ebnf => "ebnf"
  | .structuralTag => "structural_tag"

abbrev Key := KeyType × String

/-- What a dispatch of the inner backend returns. -/
inductive Dispatched (G : Type) where
  | none
  | invalid (message : String)
  | grammar (g : G)

/-- The inner grammar backend and its grammar objects, whose states are `G`. A call that raises does not
    return a state. -/
structure InnerGrammar (G Mask : Type) where
  /-- `_init_value_dispatch`. -/
  initValueDispatch : Key → Except PyError (Dispatched G)
  acceptToken : G → Int → Except PyError G
  rollback : G → Nat → Except PyError G
  fillVocabMask : G → Mask → Nat → Mask
  copy : G → G
  /-- `set_token_filter` of the backend: `vocab_mask`, `token_ids`, `batch_idx`, `is_allowed`. -/
  setTokenFilter : Mask → Option (List Int) → Nat → Bool → Mask
  isSupportTokenFilter : Bool

/-- The fields of a `ReasonerGrammarObject`. -/
structure ReasonerGrammarObject (G : Type) where
  grammar : Option G
  thinkEndId : Int
  thinkExcludedTokenIds : Option (List Int)
  maxThinkTokens : Int
  enableTokenFilter : Bool
  tokensInThink : Int
  tokensAfterEnd : Int

namespace ReasonerGrammarObject

variable {G Mask : Type} (inner : InnerGrammar G Mask) (obj : ReasonerGrammarObject G)

def maybeInitReasoning (reasoning : Bool) : ReasonerGrammarObject G :=
  if reasoning then { obj with tokensInThink := 0 }
  else { obj with tokensInThink := -1, tokensAfterEnd := 0 }

def isThinking : Bool := decide (0 ≤ obj.tokensInThink) && decide (obj.tokensAfterEnd = -1)

def isGeneration : Bool := decide (0 ≤ obj.tokensAfterEnd)

def transferState (token : Int) : ReasonerGrammarObject G :=
  if obj.isThinking then
    if token = obj.thinkEndId then { obj with tokensAfterEnd := 0 }
    else { obj with tokensInThink := obj.tokensInThink + 1 }
  else if obj.isGeneration then { obj with tokensAfterEnd := obj.tokensAfterEnd + 1 }
  else obj

def rollbackState : ReasonerGrammarObject G :=
  if obj.isThinking then
    if 0 < obj.tokensInThink then { obj with tokensInThink := obj.tokensInThink - 1 } else obj
  else if obj.isGeneration then
    if obj.tokensAfterEnd = 0 then { obj with tokensAfterEnd := -1 }
    else { obj with tokensAfterEnd := obj.tokensAfterEnd - 1 }
  else obj

/-- The inner grammar after a token: consulted in the generation phase only. -/
def acceptInner (token : Int) : Except PyError (Option G) :=
  match obj.isGeneration, obj.grammar with
  | true, some g => (inner.acceptToken g token).map some
  | _, grammar => .ok grammar

def acceptToken (token : Int) : Except PyError (ReasonerGrammarObject G) := do
  let grammar ← obj.acceptInner inner token
  return { obj with grammar := grammar }.transferState token

/-- `min(k, max(0, self.tokens_after_end))`. -/
def stepsAfter (k : Nat) : Nat := min k (max 0 obj.tokensAfterEnd).toNat

/-- The inner grammar after a rollback. -/
def rollbackInner (k : Nat) : Except PyError (Option G) :=
  match obj.grammar with
  | some g => if 0 < obj.stepsAfter k then (inner.rollback g (obj.stepsAfter k)).map some else .ok (some g)
  | none => .ok none

def rollback (k : Nat) : Except PyError (ReasonerGrammarObject G) := do
  let grammar ← obj.rollbackInner inner k
  return rollbackState^[k] { obj with grammar := grammar }

def canThinkMore : Bool :=
  decide (obj.maxThinkTokens < 0) || decide (obj.tokensInThink < obj.maxThinkTokens)

/-- `_do_token_filter`; the object has a filter function exactly when the filter is enabled. -/
def doTokenFilter (mask : Mask) (tokenIds : Option (List Int)) (idx : Nat) (isAllowed : Bool) : Mask :=
  if obj.enableTokenFilter then inner.setTokenFilter mask tokenIds idx isAllowed else mask

def fillVocabMask (mask : Mask) (idx : Nat) : Mask :=
  if obj.isThinking then
    if obj.enableTokenFilter = false then mask
    else if obj.canThinkMore then
      obj.doTokenFilter inner mask obj.thinkExcludedTokenIds idx false
    else obj.doTokenFilter inner mask (some [obj.thinkEndId]) idx true
  else
    match obj.isGeneration, obj.grammar with
    | true, some g => inner.fillVocabMask g mask idx
    | _, _ => mask

/-- `copy`: a new object with the same counters around a copy of the inner grammar. -/
def copy : ReasonerGrammarObject G := { obj with grammar := obj.grammar.map inner.copy }

end ReasonerGrammarObject

/-- The settings of a `ReasonerGrammarBackend`. -/
structure ReasonerGrammarBackend where
  thinkEndId : Int
  enableStrictThinking : Bool
  thinkExcludedTokenIds : Option (List Int)
  maxThinkTokens : Int

inductive GrammarValue (G : Type) where
  | invalid (message : String)
  | reasoner (obj : ReasonerGrammarObject G)

/-- `copy` of a cached value; that of an invalid grammar is the object itself. -/
def GrammarValue.copy {G Mask : Type} (inner : InnerGrammar G Mask) : GrammarValue G → GrammarValue G
  | .invalid message => .invalid message
  | .reasoner obj => .reasoner (obj.copy inner)

def GrammarValue.maybeInitReasoning {G : Type} (reasoning : Bool) : GrammarValue G → GrammarValue G
  | .invalid message => .invalid message
  | .reasoner obj => .reasoner (obj.maybeInitReasoning reasoning)

namespace ReasonerGrammarBackend

variable {G Mask : Type} (inner : InnerGrammar G Mask) (backend : ReasonerGrammarBackend)

def enableTokenFilter : Bool :=
  backend.enableStrictThinking && backend.thinkExcludedTokenIds.isSome && inner.isSupportTokenFilter

def makeGrammarObject (grammar : Option G) (reasoning : Bool) : ReasonerGrammarObject G :=
  ReasonerGrammarObject.maybeInitReasoning
    { grammar := grammar
      thinkEndId := backend.thinkEndId
      thinkExcludedTokenIds := backend.thinkExcludedTokenIds
      maxThinkTokens := backend.maxThinkTokens
      enableTokenFilter := backend.enableTokenFilter inner
      tokensInThink := -1
      tokensAfterEnd := -1 } reasoning

def initStrictReasoningGrammar (reasoning : Bool) : Option (ReasonerGrammarObject G) :=
  if backend.enableStrictThinking then some (backend.makeGrammarObject inner none reasoning) else none

/-- `_init_value_dispatch`; `none` is Python's `None`. -/
def initValueDispatch (key : Key) (reasoning : Bool) : Except PyError (Option (GrammarValue G)) := do
  match ← inner.initValueDispatch key with
  | .none => return none
  | .invalid message => return some (.invalid message)
  | .grammar g => return some (.reasoner (backend.makeGrammarObject inner (some g) reasoning))

end ReasonerGrammarBackend

/-! ## The reasoning grammar object follows its tokens

The counters of the object and the tokens that its inner grammar has seen are functions of the tokens
that the object has accepted and not rolled back. -/

open List

/-! ## The two phases of a list of tokens -/

section Phases

variable (thinkEndId : Int) (reasoning : Bool) (ts : List Int) (t : Int)

/-- The tokens are all of the thinking phase. -/
def stillThinking : Bool := reasoning && !ts.contains thinkEndId

/-- The number of tokens before the first think-end token. -/
def thought : Nat := (ts.takeWhile (· ≠ thinkEndId)).length

/-- The tokens for the inner grammar: those after the first think-end token, or all of them. -/
def generated : List Int := if reasoning then (ts.dropWhile (· ≠ thinkEndId)).tail else ts

theorem stillThinking_concat :
    stillThinking thinkEndId reasoning (ts ++ [t])
      = (stillThinking thinkEndId reasoning ts && decide (t ≠ thinkEndId)) := by
  simp [stillThinking, Bool.and_assoc, eq_comm (a := t)]

variable {thinkEndId reasoning ts t}

theorem stillThinking_iff :
    stillThinking thinkEndId reasoning ts = true ↔ reasoning = true ∧ thinkEndId ∉ ts := by
  simp [stillThinking]

theorem thought_of_stillThinking (h : stillThinking thinkEndId reasoning ts = true) :
    thought thinkEndId ts = ts.length := by
  have hne : ∀ t ∈ ts, t ≠ thinkEndId := fun t ht he => (stillThinking_iff.1 h).2 (he ▸ ht)
  rw [thought, takeWhile_eq_self_iff.2 (by simpa using hne)]

theorem generated_of_stillThinking (h : stillThinking thinkEndId reasoning ts = true) :
    generated thinkEndId reasoning ts = [] := by
  obtain ⟨hr, hmem⟩ := stillThinking_iff.1 h
  have hne : ∀ t ∈ ts, t ≠ thinkEndId := fun t ht he => hmem (he ▸ ht)
  rw [generated, if_pos hr, dropWhile_eq_nil_iff.2 (by simpa using hne), tail_nil]

theorem generated_concat_of_not_stillThinking (h : stillThinking thinkEndId reasoning ts = false) :
    generated thinkEndId reasoning (ts ++ [t]) = generated thinkEndId reasoning ts ++ [t] := by
  cases reasoning with
  | false => rfl
  | true =>
    have hmem : thinkEndId ∈ ts := by simpa [stillThinking] using h
    have hne : ts.dropWhile (· ≠ thinkEndId) ≠ [] := by
      simpa [dropWhile_eq_nil_iff] using hmem
    simp only [generated, if_true]
    rw [dropWhile_append, if_neg (by simpa using hne), tail_append_of_ne_nil hne]

theorem generated_concat_of_stillThinking (h : stillThinking thinkEndId reasoning ts = true) :
    generated thinkEndId reasoning (ts ++ [t]) = [] := by
  obtain ⟨hr, hmem⟩ := stillThinking_iff.1 h
  have hnil : ts.dropWhile (· ≠ thinkEndId) = [] := by
    have hne : ∀ t ∈ ts, t ≠ thinkEndId := fun t ht he => hmem (he ▸ ht)
    simpa [dropWhile_eq_nil_iff] using hne
  rw [generated, if_pos hr, dropWhile_append, if_pos (by rw [hnil]; rfl)]
  by_cases ht : t = thinkEndId <;> simp [ht]

theorem thought_concat_of_mem (h : thinkEndId ∈ ts ++ [t]) :
    thought thinkEndId (ts ++ [t]) = thought thinkEndId ts := by
  rw [thought, thought, takeWhile_append]
  split
  next hlen =>
    have hall := takeWhile_eq_self_iff.1 ((List.takeWhile_prefix _).eq_of_length hlen)
    have hend : t = thinkEndId := by
      rcases mem_append.1 h with hmem | hmem
      · simpa using hall _ hmem
      · exact (mem_singleton.1 hmem).symm
    rw [takeWhile_cons_of_neg (by simp [hend]), append_nil, hlen]
  · rfl

theorem generated_take (k : Nat) :
    generated thinkEndId reasoning (ts.take (ts.length - k))
      = (generated thinkEndId reasoning ts).take ((generated thinkEndId reasoning ts).length - k) := by
  induction ts using reverseRecOn generalizing k with
  | nil => simp [generated]
  | append_singleton ts t ih =>
    cases k with
    | zero => rw [Nat.sub_zero, Nat.sub_zero, take_length, take_length]
    | succ k =>
      rw [length_append, length_singleton, Nat.add_sub_add_right,
        take_append_of_le_length (Nat.sub_le ..), ih]
      cases hphase : stillThinking thinkEndId reasoning ts with
      | true =>
        rw [generated_of_stillThinking hphase, generated_concat_of_stillThinking hphase, take_nil, take_nil]
      | false =>
        rw [generated_concat_of_not_stillThinking hphase, length_append,
          length_singleton, Nat.add_sub_add_right,
          take_append_of_le_length (Nat.sub_le ..)]

end Phases

/-! ## What an inner grammar has to do -/

variable {G Mask : Type}

/-- `Advanced key ts g` is to say that `g` is the grammar of `key` after the tokens `ts`: compilation
    starts it, and the calls that return keep it. A copy is only asked for before any token. -/
structure InnerGrammar.Lawful (inner : InnerGrammar G Mask) (Advanced : Key → List Int → G → Prop) :
    Prop where
  dispatch : ∀ {key g}, inner.initValueDispatch key = .ok (.grammar g) → Advanced key [] g
  accept : ∀ {key ts g t g'}, Advanced key ts g → inner.acceptToken g t = .ok g' →
    Advanced key (ts ++ [t]) g'
  rollback : ∀ {key ts g k g'}, Advanced key ts g → k ≤ ts.length → inner.rollback g k = .ok g' →
    Advanced key (ts.take (ts.length - k)) g'
  copy : ∀ {key g}, Advanced key [] g → Advanced key [] (inner.copy g)

namespace ReasonerGrammarObject

/-! ## The counters -/

/-- The counters of the object after the tokens `ts`. -/
structure Tracks (thinkEndId : Int) (reasoning : Bool) (ts : List Int) (obj : ReasonerGrammarObject G) :
    Prop where
  thinkEndId_eq : obj.thinkEndId = thinkEndId
  tokensInThink : obj.tokensInThink = if reasoning then (thought thinkEndId ts : Int) else -1
  tokensAfterEnd : obj.tokensAfterEnd =
    if stillThinking thinkEndId reasoning ts then -1
    else ((generated thinkEndId reasoning ts).length : Int)

variable {thinkEndId : Int} {reasoning : Bool} {ts : List Int} {t : Int} {obj : ReasonerGrammarObject G}
variable {k : Nat}

section

variable (h : Tracks thinkEndId reasoning ts obj)
include h

theorem Tracks.isThinking_eq : obj.isThinking = stillThinking thinkEndId reasoning ts := by
  rw [isThinking, h.tokensInThink, h.tokensAfterEnd]
  cases hphase : stillThinking thinkEndId reasoning ts with
  | true => simp [(stillThinking_iff.1 hphase).1]
  | false => simp

theorem Tracks.isGeneration_eq : obj.isGeneration = !stillThinking thinkEndId reasoning ts := by
  rw [isGeneration, h.tokensAfterEnd]
  cases stillThinking thinkEndId reasoning ts <;> simp

theorem Tracks.withGrammar (grammar : Option G) :
    Tracks thinkEndId reasoning ts { obj with grammar := grammar } :=
  { h with }

end

theorem Tracks.tokensInThink_concat (h : stillThinking thinkEndId reasoning (ts ++ [t]) = false) :
    (if reasoning then (thought thinkEndId (ts ++ [t]) : Int) else -1)
      = if reasoning then (thought thinkEndId ts : Int) else -1 := by
  cases reasoning with
  | false => rfl
  | true =>
    have hmem : thinkEndId ∈ ts ++ [t] := by
      by_contra hnot
      rw [stillThinking_iff.2 ⟨rfl, hnot⟩] at h
      cases h
    rw [thought_concat_of_mem hmem]

theorem Tracks.transferState (h : Tracks thinkEndId reasoning ts obj) :
    Tracks thinkEndId reasoning (ts ++ [t]) (obj.transferState t) := by
  obtain ⟨rfl, hin, hafter⟩ := id h
  rw [ReasonerGrammarObject.transferState, h.isThinking_eq, h.isGeneration_eq]
  cases hphase : stillThinking obj.thinkEndId reasoning ts with
  | false =>
    have hstill : stillThinking obj.thinkEndId reasoning (ts ++ [t]) = false := by
      rw [stillThinking_concat, hphase, Bool.false_and]
    rw [hphase, if_neg Bool.false_ne_true] at hafter
    refine ⟨rfl, hin.trans (tokensInThink_concat hstill).symm, ?_⟩
    rw [hstill, if_neg Bool.false_ne_true, generated_concat_of_not_stillThinking hphase, hafter]
    simp
  | true =>
    obtain ⟨rfl, -⟩ := stillThinking_iff.1 hphase
    rw [hphase, if_pos rfl] at hafter
    rw [if_pos rfl]
    by_cases ht : t = obj.thinkEndId
    · have hstill : stillThinking obj.thinkEndId true (ts ++ [t]) = false := by
        rw [stillThinking_concat, decide_eq_false (not_not.2 ht), Bool.and_false]
      rw [if_pos ht]
      refine ⟨rfl, hin.trans (tokensInThink_concat hstill).symm, ?_⟩
      rw [hstill, if_neg Bool.false_ne_true, generated_concat_of_stillThinking hphase]
      rfl
    · have hstill : stillThinking obj.thinkEndId true (ts ++ [t]) = true := by
        rw [stillThinking_concat, hphase, decide_eq_true ht, Bool.and_true]
      rw [if_neg ht]
      refine ⟨rfl, ?_, ?_⟩
      · rw [hin, if_pos rfl, if_pos rfl, thought_of_stillThinking hstill,
          thought_of_stillThinking hphase]
        simp
      · rw [hstill, if_pos rfl, hafter]

theorem Tracks.rollbackState (h : Tracks thinkEndId reasoning (ts ++ [t]) obj) :
    Tracks thinkEndId reasoning ts obj.rollbackState := by
  obtain ⟨rfl, hin, hafter⟩ := id h
  rw [ReasonerGrammarObject.rollbackState, h.isThinking_eq, h.isGeneration_eq]
  cases hstill : stillThinking obj.thinkEndId reasoning (ts ++ [t]) with
  | true =>
    obtain ⟨rfl, hmem⟩ := stillThinking_iff.1 hstill
    have hphase : stillThinking obj.thinkEndId true ts = true :=
      stillThinking_iff.2 ⟨rfl, fun hm => hmem (mem_append_left _ hm)⟩
    rw [if_pos rfl, thought_of_stillThinking hstill, length_append, length_singleton] at hin
    rw [hstill, if_pos rfl] at hafter
    rw [if_pos rfl, if_pos (by omega)]
    refine ⟨rfl, ?_, ?_⟩
    · rw [hin, if_pos rfl, thought_of_stillThinking hphase]
      simp
    · rw [hphase, if_pos rfl, hafter]
  | false =>
    rw [hstill, if_neg Bool.false_ne_true] at hafter
    rw [tokensInThink_concat hstill] at hin
    rw [if_neg Bool.false_ne_true, if_pos (by rfl)]
    cases hphase : stillThinking obj.thinkEndId reasoning ts with
    | true =>
      -- the token that goes is the think-end token
      rw [generated_concat_of_stillThinking hphase] at hafter
      rw [if_pos (show obj.tokensAfterEnd = 0 from hafter)]
      exact ⟨rfl, hin, by rw [hphase, if_pos rfl]⟩
    | false =>
      rw [generated_concat_of_not_stillThinking hphase, length_append, length_singleton] at hafter
      rw [if_neg (by omega)]
      refine ⟨rfl, hin, ?_⟩
      rw [hphase, if_neg Bool.false_ne_true, hafter]
      simp

theorem Tracks.iterate_rollbackState (h : Tracks thinkEndId reasoning ts obj) (hk : k ≤ ts.length) :
    Tracks thinkEndId reasoning (ts.take (ts.length - k)) (ReasonerGrammarObject.rollbackState^[k] obj) := by
  induction k generalizing ts obj with
  | zero => rwa [Nat.sub_zero, take_length]
  | succ k ih =>
    rcases eq_nil_or_concat ts with rfl | ⟨init, t, rfl⟩
    · cases hk
    rw [concat_eq_append, length_append, length_singleton] at hk
    rw [concat_eq_append] at h
    rw [Function.iterate_succ_apply, concat_eq_append, length_append, length_singleton,
      Nat.add_sub_add_right, take_append_of_le_length (Nat.sub_le ..)]
    exact ih h.rollbackState (Nat.le_of_succ_le_succ hk)

/-! ## The inner grammar -/

theorem transferState_eq (obj : ReasonerGrammarObject G) (t : Int) :
    ∃ inThink afterEnd, obj.transferState t
      = { obj with tokensInThink := inThink, tokensAfterEnd := afterEnd } := by
  rw [transferState]
  split_ifs <;> exact ⟨_, _, rfl⟩

theorem iterate_rollbackState_eq (k : Nat) (obj : ReasonerGrammarObject G) :
    ∃ inThink afterEnd, rollbackState^[k] obj
      = { obj with tokensInThink := inThink, tokensAfterEnd := afterEnd } := by
  induction k generalizing obj with
  | zero => exact ⟨_, _, rfl⟩
  | succ k ih =>
    have hone : ∃ inThink afterEnd, obj.rollbackState
        = { obj with tokensInThink := inThink, tokensAfterEnd := afterEnd } := by
      rw [rollbackState]
      split_ifs <;> exact ⟨_, _, rfl⟩
    obtain ⟨_, _, hone⟩ := hone
    rw [Function.iterate_succ_apply, hone]
    exact ih _

/-- The object of a request after the tokens `ts`: its settings, its counters, and the inner grammar of
    `key`, if there is one, after the tokens of the generation phase. -/
structure Serves (inner : InnerGrammar G Mask) (backend : ReasonerGrammarBackend)
    (Advanced : Key → List Int → G → Prop) (key : Option Key) (limit : Int) (reasoning : Bool)
    (ts : List Int) (obj : ReasonerGrammarObject G) : Prop where
  tracks : Tracks backend.thinkEndId reasoning ts obj
  thinkExcludedTokenIds : obj.thinkExcludedTokenIds = backend.thinkExcludedTokenIds
  enableTokenFilter : obj.enableTokenFilter = backend.enableTokenFilter inner
  maxThinkTokens : obj.maxThinkTokens = limit
  noGrammar : key = none → obj.grammar = none
  advanced : ∀ k, key = some k → ∃ g, obj.grammar = some g ∧
    Advanced k (generated backend.thinkEndId reasoning ts) g

variable {inner : InnerGrammar G Mask} {backend : ReasonerGrammarBackend}
  {Advanced : Key → List Int → G → Prop} {key : Option Key} {limit : Int}
  {obj' : ReasonerGrammarObject G} {grammar : Option G}

section

variable (hlaw : inner.Lawful Advanced)
  (h : Serves inner backend Advanced key limit reasoning ts obj)
include hlaw h

/-- The inner grammar gets exactly the tokens of the generation phase. -/
theorem Serves.acceptInner (hg : obj.acceptInner inner t = .ok grammar) :
    (key = none → grammar = none) ∧ ∀ k, key = some k → ∃ g, grammar = some g ∧
      Advanced k (generated backend.thinkEndId reasoning (ts ++ [t])) g := by
  rw [ReasonerGrammarObject.acceptInner, h.tracks.isGeneration_eq] at hg
  cases hphase : stillThinking backend.thinkEndId reasoning ts with
  | true =>
    rw [hphase] at hg
    cases hg
    refine ⟨h.noGrammar, fun k hk => ?_⟩
    rw [generated_concat_of_stillThinking hphase, ← generated_of_stillThinking hphase]
    exact h.advanced k hk
  | false =>
    rw [hphase, Bool.not_false] at hg
    rw [generated_concat_of_not_stillThinking hphase]
    cases hobj : obj.grammar with
    | none =>
      rw [hobj] at hg
      cases hg
      refine ⟨fun _ => rfl, fun k hk => ?_⟩
      obtain ⟨g, hsome, -⟩ := h.advanced k hk
      rw [hobj] at hsome
      cases hsome
    | some g =>
      rw [hobj] at hg
      obtain ⟨g', hg', rfl⟩ := Except.map_eq_ok.1 hg
      refine ⟨fun hk => ?_, fun k hk => ?_⟩
      · rw [h.noGrammar hk] at hobj
        cases hobj
      · obtain ⟨g₀, hsome, hadv⟩ := h.advanced k hk
        rw [hobj] at hsome
        cases hsome
        exact ⟨g', rfl, hlaw.accept hadv hg'⟩

theorem Serves.acceptToken (hobj : obj.acceptToken inner t = .ok obj') :
    Serves inner backend Advanced key limit reasoning (ts ++ [t]) obj' := by
  obtain ⟨grammar, hg, heq⟩ := Except.bind_eq_ok.1 hobj
  obtain ⟨hnone, hadv⟩ := h.acceptInner hlaw hg
  cases heq
  have htracks : Tracks backend.thinkEndId reasoning (ts ++ [t])
      ({ obj with grammar := grammar }.transferState t) :=
    (h.tracks.withGrammar grammar).transferState
  obtain ⟨_, _, heq⟩ := transferState_eq { obj with grammar := grammar } t
  rw [heq] at htracks ⊢
  exact { h with tracks := htracks, noGrammar := hnone, advanced := hadv }

end

theorem Serves.stepsAfter_eq (h : Serves inner backend Advanced key limit reasoning ts obj) (k : Nat) :
    obj.stepsAfter k = min k (generated backend.thinkEndId reasoning ts).length := by
  rw [stepsAfter, h.tracks.tokensAfterEnd]
  cases hphase : stillThinking backend.thinkEndId reasoning ts with
  | true => rw [generated_of_stillThinking hphase]; rfl
  | false => simp

section

variable (hlaw : inner.Lawful Advanced)
  (h : Serves inner backend Advanced key limit reasoning ts obj)
include hlaw h

theorem Serves.rollbackInner (hg : obj.rollbackInner inner k = .ok grammar) :
    (key = none → grammar = none) ∧ ∀ k', key = some k' → ∃ g, grammar = some g ∧
      Advanced k' (generated backend.thinkEndId reasoning (ts.take (ts.length - k))) g := by
  rw [ReasonerGrammarObject.rollbackInner] at hg
  rw [generated_take]
  cases hkey : key with
  | none =>
    rw [h.noGrammar hkey] at hg
    cases hg
    exact ⟨fun _ => rfl, nofun⟩
  | some k' =>
    obtain ⟨g, hsome, hadv⟩ := h.advanced k' hkey
    refine ⟨fun hk => absurd hk (Option.some_ne_none _), fun _ hk => ?_⟩
    cases hk
    rw [hsome] at hg
    simp only [h.stepsAfter_eq] at hg
    split at hg
    · obtain ⟨g', hg', rfl⟩ := Except.map_eq_ok.1 hg
      refine ⟨g', rfl, ?_⟩
      have := hlaw.rollback hadv (min_le_right ..) hg'
      rwa [show (generated backend.thinkEndId reasoning ts).length
          - min k (generated backend.thinkEndId reasoning ts).length
        = (generated backend.thinkEndId reasoning ts).length - k by omega] at this
    next hzero =>
      cases hg
      refine ⟨g, rfl, ?_⟩
      -- nothing was generated, or nothing goes
      rwa [show (generated backend.thinkEndId reasoning ts).length - k
        = (generated backend.thinkEndId reasoning ts).length by omega, take_length]

theorem Serves.rollback (hk : k ≤ ts.length) (hobj : obj.rollback inner k = .ok obj') :
    Serves inner backend Advanced key limit reasoning (ts.take (ts.length - k)) obj' := by
  obtain ⟨grammar, hg, heq⟩ := Except.bind_eq_ok.1 hobj
  obtain ⟨hnone, hadv⟩ := h.rollbackInner hlaw hg
  cases heq
  have htracks : Tracks backend.thinkEndId reasoning (ts.take (ts.length - k))
      (rollbackState^[k] { obj with grammar := grammar }) :=
    (h.tracks.withGrammar grammar).iterate_rollbackState hk
  obtain ⟨_, _, heq⟩ := iterate_rollbackState_eq k { obj with grammar := grammar }
  rw [heq] at htracks ⊢
  exact { h with tracks := htracks, noGrammar := hnone, advanced := hadv }

end

/-! ## The mask -/

/-- The mask of the thinking phase after `n` tokens under the limit: unchanged without the token filter,
    without the excluded tokens below the limit, and the think-end token alone from the limit on. -/
def thinkingMask (inner : InnerGrammar G Mask) (backend : ReasonerGrammarBackend) (limit : Int) (n : Nat)
    (mask : Mask) (idx : Nat) : Mask :=
  if backend.enableTokenFilter inner = false then mask
  else if limit < 0 ∨ (n : Int) < limit then
    inner.setTokenFilter mask backend.thinkExcludedTokenIds idx false
  else inner.setTokenFilter mask (some [backend.thinkEndId]) idx true

theorem Serves.fillVocabMask_eq (h : Serves inner backend Advanced key limit reasoning ts obj)
    (mask : Mask) (idx : Nat) :
    obj.fillVocabMask inner mask idx =
      if stillThinking backend.thinkEndId reasoning ts then
        thinkingMask inner backend limit ts.length mask idx
      else obj.grammar.elim mask (inner.fillVocabMask · mask idx) := by
  rw [fillVocabMask, h.tracks.isThinking_eq, h.tracks.isGeneration_eq]
  cases hphase : stillThinking backend.thinkEndId reasoning ts with
  | true =>
    have hcount : obj.tokensInThink = ts.length := by
      rw [h.tracks.tokensInThink, if_pos (stillThinking_iff.1 hphase).1, thought_of_stillThinking hphase]
    rw [if_pos rfl, if_pos rfl, thinkingMask, canThinkMore, doTokenFilter, doTokenFilter,
      h.enableTokenFilter, h.maxThinkTokens, h.thinkExcludedTokenIds, h.tracks.thinkEndId_eq, hcount]
    by_cases hfilter : backend.enableTokenFilter inner = false
    · rw [if_pos hfilter, if_pos hfilter]
    · simp only [if_neg hfilter, if_pos (Bool.not_eq_false _ ▸ hfilter), Bool.or_eq_true, decide_eq_true_eq]
  | false =>
    cases obj.grammar <;> rfl

/-! ## New objects -/

/-- An object that no token has been given to, as the cache keeps it. -/
structure Unused (inner : InnerGrammar G Mask) (backend : ReasonerGrammarBackend)
    (Advanced : Key → List Int → G → Prop) (key : Option Key) (obj : ReasonerGrammarObject G) : Prop where
  thinkEndId : obj.thinkEndId = backend.thinkEndId
  thinkExcludedTokenIds : obj.thinkExcludedTokenIds = backend.thinkExcludedTokenIds
  enableTokenFilter : obj.enableTokenFilter = backend.enableTokenFilter inner
  maxThinkTokens : obj.maxThinkTokens = backend.maxThinkTokens
  tokensAfterEnd : obj.isGeneration = false → obj.tokensAfterEnd = -1
  noGrammar : key = none → obj.grammar = none
  advanced : ∀ k, key = some k → ∃ g, obj.grammar = some g ∧ Advanced k [] g

theorem generated_nil (thinkEndId : Int) (reasoning : Bool) : generated thinkEndId reasoning [] = [] := by
  cases reasoning <;> rfl

theorem Unused.serves (h : Unused inner backend Advanced key obj)
    (hphase : reasoning = true → obj.isGeneration = false) :
    Serves inner backend Advanced key backend.maxThinkTokens reasoning []
      (obj.maybeInitReasoning reasoning) := by
  have hadv : ∀ k, key = some k → ∃ g, obj.grammar = some g ∧
      Advanced k (generated backend.thinkEndId reasoning []) g := by
    rw [generated_nil]
    exact h.advanced
  cases reasoning with
  | true =>
    have htracks : Tracks backend.thinkEndId true [] (obj.maybeInitReasoning true) :=
      ⟨h.thinkEndId, rfl, h.tokensAfterEnd (hphase rfl)⟩
    exact { h with tracks := htracks, advanced := hadv }
  | false =>
    have htracks : Tracks backend.thinkEndId false [] (obj.maybeInitReasoning false) :=
      ⟨h.thinkEndId, rfl, rfl⟩
    exact { h with tracks := htracks, advanced := hadv }

theorem Unused.copy (hlaw : inner.Lawful Advanced) (h : Unused inner backend Advanced key obj) :
    Unused inner backend Advanced key (obj.copy inner) where
  __ := h
  noGrammar hk := by rw [ReasonerGrammarObject.copy, h.noGrammar hk]; rfl
  advanced k hk := by
    obtain ⟨g, hg, hadv⟩ := h.advanced k hk
    exact ⟨inner.copy g, by rw [ReasonerGrammarObject.copy, hg]; rfl, hlaw.copy hadv⟩

theorem Serves.unused (h : Serves inner backend Advanced key backend.maxThinkTokens reasoning [] obj) :
    Unused inner backend Advanced key obj where
  __ := h
  thinkEndId := h.tracks.thinkEndId_eq
  tokensAfterEnd hgen := by
    rw [h.tracks.isGeneration_eq, Bool.not_eq_false'] at hgen
    rw [h.tracks.tokensAfterEnd, if_pos hgen]
  advanced := by
    have := h.advanced
    rwa [generated_nil] at this

theorem Serves.withLimit (h : Serves inner backend Advanced key limit reasoning ts obj) (limit' : Int) :
    Serves inner backend Advanced key limit' reasoning ts { obj with maxThinkTokens := limit' } where
  __ := h
  tracks := { h.tracks with }
  maxThinkTokens := rfl

theorem serves_makeGrammarObject (hnone : key = none → grammar = none)
    (hadv : ∀ k, key = some k → ∃ g, grammar = some g ∧ Advanced k [] g) (reasoning : Bool) :
    Serves inner backend Advanced key backend.maxThinkTokens reasoning []
      (backend.makeGrammarObject inner grammar reasoning) :=
  Unused.serves ⟨rfl, rfl, rfl, rfl, fun _ => rfl, hnone, hadv⟩ fun _ => rfl

end ReasonerGrammarObject

end Constrained
