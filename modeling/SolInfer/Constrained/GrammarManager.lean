import SolInfer.Constrained.Reasoner
import SolInfer.Lib.Dict
import SolInfer.Lib.Json
import SolInfer.Lib.Run

set_option autoImplicit false

/-! # The grammar manager

`srt/constrained/grammar_manager.py` with the cache of `srt/constrained/base_grammar_backend.py`: a
request gets a copy of the cached grammar of its key, or waits in the grammar queue for a compilation
whose result is then cached. -/

namespace Constrained

variable {G Mask : Type}

/-! ## Requests -/

/-- The parts of `sampling_params` that the manager reads. -/
structure SamplingParams where
  jsonSchema : Option String
  regex : Option String
  ebnf : Option String
  structuralTag : Option String
  customParams : Json

/-- The grammar key of a request, if it has one. An empty structural tag passes the test for a grammar
    and then leaves `key` unassigned. -/
def SamplingParams.key (params : SamplingParams) : Except PyError (Option Key) :=
  match params.jsonSchema, params.regex, params.ebnf, params.structuralTag with
  | some schema, _, _, _ => .ok (some (.json, schema))
  | none, some regex, _, _ => .ok (some (.regex, regex))
  | none, none, some ebnf, _ => .ok (some (.ebnf, ebnf))
  | none, none, none, some tag =>
    if tag = "" then
      .error (.unboundLocalError
        "cannot access local variable 'key' where it is not associated with a value")
    else .ok (some (.structuralTag, tag))
  | none, none, none, none => .ok none

inductive Grammar (G : Type) where
  | none
  | future (key : Key) (reasoning : Bool)
  | value (v : GrammarValue G)

/-- A request of the scheduler. `accepted` records the tokens that its grammar object has accepted and not
    rolled back; the code has no such field. -/
structure Req (G : Type) where
  rid : String
  samplingParams : SamplingParams
  requireReasoning : Bool
  grammar : Grammar G
  grammarKey : Option Key
  grammarWaitCt : Nat
  /-- The message of the abort that `to_finish` carries. -/
  toFinish : Option String
  accepted : List Int

structure ReqInput where
  rid : String
  samplingParams : SamplingParams
  requireReasoning : Bool

def Req.ofInput (input : ReqInput) : Req G where
  rid := input.rid
  samplingParams := input.samplingParams
  requireReasoning := input.requireReasoning
  grammar := .none
  grammarKey := none
  grammarWaitCt := 0
  toFinish := none
  accepted := []

def Req.setFinishWithAbort (message : String) (req : Req G) : Req G :=
  { req with grammar := .none, toFinish := some message }

/-- `_get_request_thinking_budget`; a Python `bool` is an `int`. -/
def getRequestThinkingBudget (params : SamplingParams) : Option Int :=
  match params.customParams with
  | .obj entries =>
    match Dict.lookup "thinking_budget" entries with
    | some (.int n) => some n
    | some (.bool b) => some (if b then 1 else 0)
    | _ => none
  | _ => none

def Req.applyRequestReasoningBudget (req : Req G) : Req G :=
  match getRequestThinkingBudget req.samplingParams, req.grammar with
  | some budget, .value (.reasoner obj) =>
    { req with grammar := .value (.reasoner { obj with maxThinkTokens := budget }) }
  | _, _ => req

/-! ## The manager -/

/-- The settings of the manager: the backends and the number of polls after which a compilation has timed
    out. -/
structure Config (G Mask : Type) where
  inner : InnerGrammar G Mask
  backend : ReasonerGrammarBackend
  maxPollIterations : Nat
  /-- `repr` of a string. -/
  reprStr : String → String

/-- The manager, and the requests it has handed to the scheduler. -/
structure State (G : Type) where
  cache : Dict Key (GrammarValue G)
  grammarQueue : List (Req G)
  scheduled : List (Req G)

def State.new : State G := ⟨Dict.empty, [], []⟩

variable (cfg : Config G Mask)

/-- `get_cached_or_future_value`: the request's `grammar`, and whether the cache was hit. -/
def getCachedOrFutureValue (cache : Dict Key (GrammarValue G)) (key : Key) (requireReasoning : Bool) :
    Grammar G × Bool :=
  match cache.get? key with
  | some value => (.value ((value.copy cfg.inner).maybeInitReasoning requireReasoning), true)
  | none => (.future key requireReasoning, false)

/-- The end of a cache hit: an invalid grammar aborts the request, another one gets its budget. -/
def Req.useValue (key : Key) (req : Req G) : GrammarValue G → Req G
  | .invalid message =>
    req.setFinishWithAbort s!"Failed to compile {key.1.str} grammar: {message}"
  | .reasoner _ => req.applyRequestReasoningBudget

variable (st : State G)

def processKey (req : Req G) (key : Key) : State G :=
  match getCachedOrFutureValue cfg st.cache key req.requireReasoning with
  | (.value value, _) =>
    { st with scheduled := st.scheduled ++ [{ req with grammar := .value value }.useValue key value] }
  | (grammar, _) =>
    { st with grammarQueue := st.grammarQueue ++ [{ req with grammar := grammar, grammarKey := some key }] }

def processPlain (req : Req G) : State G :=
  match cfg.backend.initStrictReasoningGrammar cfg.inner req.requireReasoning with
  | some obj =>
    { st with scheduled := st.scheduled ++
        [{ req with grammar := .value (.reasoner obj) }.applyRequestReasoningBudget] }
  | none => { st with scheduled := st.scheduled ++ [req] }

/-- `process_req_with_grammar` for a manager with a grammar backend. A request that is not queued goes on
    to the scheduler. -/
def processReqWithGrammar (input : ReqInput) : Except PyError (State G) := do
  match ← input.samplingParams.key with
  | some key => return processKey cfg st (Req.ofInput input) key
  | none => return processPlain cfg st (Req.ofInput input)

def abortRequests (rid : String) (abortAll : Bool) : State G :=
  { st with grammarQueue := st.grammarQueue.map fun req =>
      if abortAll || req.rid.startsWith rid then req.setFinishWithAbort "Aborted by AbortReq." else req }

/-! ## Polling -/

def Grammar.isNone : Grammar G → Bool
  | .none => true
  | _ => false

/-- The queued requests that a poll finds ready. A queued request has not run, so `req.finished()` is
    false; `done` tells which futures are done. -/
def readyReqIdxs (queue : List (Req G)) (done : Nat → Bool) : List Nat :=
  (List.range queue.length).filter fun i =>
    match queue[i]? with
    | some req => req.grammar.isNone || done i
    | none => false

def countWaits (queue : List (Req G)) (ready : List Nat) : List (Req G) :=
  queue.mapIdx fun i req => if i ∈ ready then req else { req with grammarWaitCt := req.grammarWaitCt + 1 }

/-- The queued requests that have waited too long. -/
def failedReqIdxs (queue : List (Req G)) (ready : List Nat) : List Nat :=
  (List.range queue.length).filter fun i =>
    match queue[i]? with
    | some req => decide (i ∉ ready) && decide (cfg.maxPollIterations ≤ req.grammarWaitCt)
    | none => false

/-- `req.grammar.result()`, where an exception of the compilation is caught. -/
def futureResult (key : Key) (reasoning : Bool) : Option (GrammarValue G) :=
  match cfg.backend.initValueDispatch cfg.inner key reasoning with
  | .ok value => value
  | .error e => some (.invalid s!"Grammar compilation failed: {e.str}")

/-- A request whose compilation has a result: the cache gets a copy before the request gets its budget. -/
def Req.finishCompilation (key : Key) (value : GrammarValue G) (req : Req G) : Req G :=
  { req with grammar := .value value }.useValue key value

def returnReady (i : Nat) : Except PyError (State G) :=
  match st.grammarQueue[i]? with
  | none => .error (.indexError "list index out of range")
  | some req =>
    match req.grammar, req.grammarKey with
    | .none, _ => .ok st
    | .future key reasoning, some grammarKey =>
      match futureResult cfg key reasoning with
      | none => .error (.attributeError "'NoneType' object has no attribute 'copy'")
      | some value => .ok { st with
          cache := st.cache.set grammarKey (value.copy cfg.inner)
          grammarQueue := st.grammarQueue.set i (req.finishCompilation grammarKey value) }
    | _, _ => .error (.assertionError "")

def returnFailed (i : Nat) : Except PyError (State G) :=
  match st.grammarQueue[i]? with
  | none => .error (.indexError "list index out of range")
  | some req =>
    match req.grammar, req.grammarKey with
    | .future _ _, some key => .ok { st with
        cache := st.cache.set key (.invalid "Grammar preprocessing timed out")
        grammarQueue := st.grammarQueue.set i (req.setFinishWithAbort
          s!"Grammar preprocessing timed out: req.grammar_key=({cfg.reprStr key.1.str}, {cfg.reprStr key.2})") }
    | _, _ => .error (.assertionError "")

/-- The end of `get_ready_grammar_requests`; `ready` and `failed` are the synchronised sets, in the order
    in which the loops go through them. -/
def returnRequests (ready failed : List Nat) : Except PyError (State G) := do
  let st ← ready.foldlM (returnReady cfg) st
  let st ← failed.foldlM (returnFailed cfg) st
  let returned := (ready ++ failed).filterMap (st.grammarQueue[·]?)
  let queue := st.grammarQueue.zipIdx.filter fun e => e.2 ∉ ready ∧ e.2 ∉ failed
  return { st with scheduled := st.scheduled ++ returned, grammarQueue := queue.map Prod.fst }

/-- The sets that all ranks agree on. -/
def syncedReady (ready : List Nat) (others : List (List Nat × List Nat)) : List Nat :=
  ready.filter fun i => others.all fun o => o.1.contains i

def syncedFailed (failed : List Nat) (others : List (List Nat × List Nat)) : List Nat :=
  (failed ++ others.flatMap Prod.snd).dedup

/-- `get_ready_grammar_requests`. `others` are the sets of the other ranks, and `ready` and `failed` list
    the synchronised sets in some order. -/
def getReadyGrammarRequests (done : Nat → Bool) (others : List (List Nat × List Nat))
    (ready failed : List Nat) : Option (State G) :=
  let localReady := readyReqIdxs st.grammarQueue done
  let st := { st with grammarQueue := countWaits st.grammarQueue localReady }
  if ready.Perm (syncedReady localReady others) ∧
      failed.Perm (syncedFailed (failedReqIdxs cfg st.grammarQueue localReady) others) then
    (returnRequests cfg st ready failed).toOption
  else none

/-! ## Runs -/

/-- `accept_token` or `rollback` of a request that is with the scheduler. -/
def Req.withObject (req : Req G) (accepted : List Int)
    (f : ReasonerGrammarObject G → Except PyError (ReasonerGrammarObject G)) : Option (Req G) :=
  match req.grammar with
  | .value (.reasoner obj) =>
    (f obj).toOption.map fun obj => { req with grammar := .value (.reasoner obj), accepted := accepted }
  | _ => none

inductive Event where
  | request (input : ReqInput)
  | abort (rid : String) (abortAll : Bool)
  | poll (done : Nat → Bool) (others : List (List Nat × List Nat)) (ready failed : List Nat)
  /-- `clear`, which empties the cache. -/
  | clear
  | accept (i : Nat) (token : Int)
  /-- `rollback(k)` of no more tokens than were accepted. -/
  | rollback (i k : Nat)

def step : Event → Option (State G)
  | .request input => (processReqWithGrammar cfg st input).toOption
  | .abort rid abortAll => some (abortRequests st rid abortAll)
  | .poll done others ready failed => getReadyGrammarRequests cfg st done others ready failed
  | .clear => some { st with cache := Dict.empty }
  | .accept i token => do
    let req ← st.scheduled[i]?
    let req ← req.withObject (req.accepted ++ [token]) (·.acceptToken cfg.inner token)
    return { st with scheduled := st.scheduled.set i req }
  | .rollback i k => do
    let req ← st.scheduled[i]?
    if k ≤ req.accepted.length then
      let req ← req.withObject (req.accepted.take (req.accepted.length - k)) (·.rollback cfg.inner k)
      return { st with scheduled := st.scheduled.set i req }
    else none

/-! ## The grammar of a request does not depend on other requests

The cache holds unused objects with the default thinking limit. A request that finds one gets an object
like a new one, unless it is to think first and the cached object was made for a request that was not:
`maybe_init_reasoning` leaves such an object in the generation phase. -/

open List

open ReasonerGrammarObject

variable (Advanced : Key → List Int → G → Prop)

/-! ## The invariant -/

/-- The thinking limit of a request: its own budget, or the configured one. -/
def thinkingLimit (params : SamplingParams) : Int :=
  (getRequestThinkingBudget params).getD cfg.backend.maxThinkTokens

/-- The grammar of a request for the scheduler: its object, or none if the request is to be aborted or
    has no use for one. -/
def Suits (key : Option Key) (req : Req G) : Grammar G → Prop
  | .value (.reasoner obj) =>
    Serves cfg.inner cfg.backend Advanced key (thinkingLimit cfg req.samplingParams) req.requireReasoning
      req.accepted obj
  | .none => req.toFinish = none → key = none ∧ cfg.backend.enableStrictThinking = false
  | _ => False

/-- A request that is ready for the scheduler. -/
def Ready (req : Req G) : Prop :=
  ∃ key, req.samplingParams.key = .ok key ∧ Suits cfg Advanced key req req.grammar

structure Waiting (req : Req G) (key : Key) : Prop where
  key_eq : req.samplingParams.key = .ok (some key)
  grammar : req.grammar = .future key req.requireReasoning
  grammarKey : req.grammarKey = some key
  accepted : req.accepted = []

def Pending (req : Req G) : Prop := (∃ key, Waiting req key) ∨ Ready cfg Advanced req

/-- A cached value is invalid or an unused object. -/
def CachedFor (key : Key) : GrammarValue G → Prop
  | .invalid _ => True
  | .reasoner obj => Unused cfg.inner cfg.backend Advanced (some key) obj

structure Inv (st : State G) : Prop where
  cache : ∀ key value, st.cache.get? key = some value → CachedFor cfg Advanced key value
  queue : ∀ req ∈ st.grammarQueue, Pending cfg Advanced req
  scheduled : ∀ req ∈ st.scheduled, Ready cfg Advanced req

theorem inv_new : Inv cfg Advanced State.new where
  cache _ _ h := by cases h
  queue _ h := by cases h
  scheduled _ h := by cases h

/-! ## Requests -/

variable {cfg Advanced} {req : Req G} {key : Key}

theorem ready_of_abort {key : Option Key} (h : req.samplingParams.key = .ok key)
    (message : String) : Ready cfg Advanced (req.setFinishWithAbort message) :=
  ⟨key, h, fun hnone => by cases hnone⟩

theorem ready_applyRequestReasoningBudget {key : Option Key} {obj : ReasonerGrammarObject G}
    (hkey : req.samplingParams.key = .ok key) (hgrammar : req.grammar = .value (.reasoner obj))
    (hserves : Serves cfg.inner cfg.backend Advanced key cfg.backend.maxThinkTokens
      req.requireReasoning req.accepted obj) :
    Ready cfg Advanced req.applyRequestReasoningBudget := by
  cases hbudget : getRequestThinkingBudget req.samplingParams with
  | none =>
    have heq : req.applyRequestReasoningBudget = req := by
      rw [Req.applyRequestReasoningBudget, hbudget]
    rw [heq]
    refine ⟨key, hkey, ?_⟩
    rw [hgrammar, Suits, thinkingLimit, hbudget]
    exact hserves
  | some budget =>
    have heq : req.applyRequestReasoningBudget
        = { req with grammar := .value (.reasoner { obj with maxThinkTokens := budget }) } := by
      rw [Req.applyRequestReasoningBudget, hbudget, hgrammar]
    rw [heq]
    refine ⟨key, hkey, ?_⟩
    rw [Suits, thinkingLimit, hbudget]
    exact hserves.withLimit budget

theorem ready_useValue {value : GrammarValue G} (hkey : req.samplingParams.key = .ok (some key))
    (hvalue : ∀ obj, value = .reasoner obj → Serves cfg.inner cfg.backend Advanced (some key)
      cfg.backend.maxThinkTokens req.requireReasoning req.accepted obj) :
    Ready cfg Advanced ({ req with grammar := .value value }.useValue key value) := by
  cases value with
  | invalid message => exact ready_of_abort hkey _
  | reasoner obj => exact ready_applyRequestReasoningBudget hkey rfl (hvalue obj rfl)

/-! ## The conditions of the steps -/

/-- A request that is to think first finds an object in the generation phase in the cache. -/
def staleHit (st : State G) : Event → Bool
  | .request input =>
    match input.requireReasoning, input.samplingParams.key with
    | true, .ok (some key) =>
      match st.cache.get? key with
      | some (.reasoner obj) => obj.isGeneration
      | _ => false
    | _, _ => false
  | _ => false

variable {st st' : State G} {input : ReqInput} {i : Nat}

section

variable (h : Inv cfg Advanced st)
include h

theorem Inv.schedule (hreq : Ready cfg Advanced req) :
    Inv cfg Advanced { st with scheduled := st.scheduled ++ [req] } where
  cache := h.cache
  queue := h.queue
  scheduled := by
    intro r hr
    rcases mem_append.1 hr with hr | hr
    · exact h.scheduled r hr
    · rw [mem_singleton.1 hr]
      exact hreq

theorem Inv.processKey (hlaw : cfg.inner.Lawful Advanced) (hkey : input.samplingParams.key = .ok (some key))
    (hstale : staleHit st (.request input) = false) :
    Inv cfg Advanced (processKey cfg st (Req.ofInput input) key) := by
  rw [Constrained.processKey, getCachedOrFutureValue]
  cases hget : st.cache.get? key with
  | some value =>
    refine h.schedule (ready_useValue hkey (fun obj hobj => ?_))
    cases value with
    | invalid message => cases hobj
    | reasoner cached =>
      cases hobj
      refine ((h.cache key _ hget).copy hlaw).serves fun hr => ?_
      rw [staleHit, show input.requireReasoning = true from hr, hkey] at hstale
      simp only [hget] at hstale
      exact hstale
  | none =>
    refine ⟨h.cache, fun r hr => ?_, h.scheduled⟩
    rcases mem_append.1 hr with hr | hr
    · exact h.queue r hr
    · rw [mem_singleton.1 hr]
      exact .inl ⟨key, hkey, rfl, rfl, rfl⟩

theorem Inv.processPlain (hkey : input.samplingParams.key = .ok none) :
    Inv cfg Advanced (processPlain cfg st (Req.ofInput input)) := by
  rw [Constrained.processPlain, ReasonerGrammarBackend.initStrictReasoningGrammar]
  cases hstrict : cfg.backend.enableStrictThinking with
  | true =>
    refine h.schedule (ready_applyRequestReasoningBudget hkey rfl ?_)
    exact serves_makeGrammarObject (fun _ => rfl) (fun k hk => by cases hk) _
  | false => exact h.schedule ⟨none, hkey, fun _ => ⟨rfl, hstrict⟩⟩

theorem Inv.request (hlaw : cfg.inner.Lawful Advanced) (hstale : staleHit st (.request input) = false)
    (hstep : processReqWithGrammar cfg st input = .ok st') : Inv cfg Advanced st' := by
  obtain ⟨key, hkey, hst'⟩ := Except.bind_eq_ok.1 hstep
  cases key with
  | none =>
    cases hst'
    exact h.processPlain hkey
  | some key =>
    cases hst'
    exact h.processKey hlaw hkey hstale

theorem Inv.abort (rid : String) (abortAll : Bool) : Inv cfg Advanced (abortRequests st rid abortAll) := by
  refine ⟨h.cache, fun r hr => ?_, h.scheduled⟩
  obtain ⟨req, hreq, rfl⟩ := mem_map.1 hr
  have hpending := h.queue req hreq
  split
  · rcases hpending with ⟨key, hw⟩ | ⟨key, hkey, -⟩
    · exact .inr (ready_of_abort hw.key_eq _)
    · exact .inr (ready_of_abort hkey _)
  · exact hpending

end

/-! ## Polling -/

theorem Inv.countWaits (h : Inv cfg Advanced st) (ready : List Nat) :
    Inv cfg Advanced { st with grammarQueue := countWaits st.grammarQueue ready } := by
  refine ⟨h.cache, fun r hr => ?_, h.scheduled⟩
  obtain ⟨i, hi, rfl⟩ := mem_mapIdx.1 hr
  have hpending := h.queue _ (getElem_mem hi)
  split
  · exact hpending
  · rcases hpending with ⟨key, hw⟩ | hready
    · exact .inl ⟨key, hw.key_eq, hw.grammar, hw.grammarKey, hw.accepted⟩
    · exact .inr hready

theorem serves_futureResult (hlaw : cfg.inner.Lawful Advanced) {reasoning : Bool}
    {obj : ReasonerGrammarObject G} (h : futureResult cfg key reasoning = some (.reasoner obj)) :
    Serves cfg.inner cfg.backend Advanced (some key) cfg.backend.maxThinkTokens reasoning [] obj := by
  rw [futureResult, ReasonerGrammarBackend.initValueDispatch] at h
  cases hd : cfg.inner.initValueDispatch key with
  | error e => rw [hd] at h; cases h
  | ok dispatched =>
    rw [hd] at h
    cases dispatched with
    | none => cases h
    | invalid message => cases h
    | grammar g =>
      cases h
      refine serves_makeGrammarObject (fun hk => by cases hk) (fun k hk => ?_) reasoning
      cases hk
      exact ⟨g, rfl, hlaw.dispatch hd⟩

/-- The request at a place of the queue is ready for the scheduler. -/
def ReadyAt (cfg : Config G Mask) (Advanced : Key → List Int → G → Prop) (i : Nat) (st : State G) : Prop :=
  ∃ req, st.grammarQueue[i]? = some req ∧ Ready cfg Advanced req

theorem Inv.setReady (h : Inv cfg Advanced st) (hreq : Ready cfg Advanced req)
    (hi : i < st.grammarQueue.length) {value : GrammarValue G}
    (hvalue : CachedFor cfg Advanced key value) :
    let st' := { st with cache := st.cache.set key value, grammarQueue := st.grammarQueue.set i req }
    Inv cfg Advanced st' ∧ ReadyAt cfg Advanced i st' ∧
      ∀ j, ReadyAt cfg Advanced j st → ReadyAt cfg Advanced j st' := by
  refine ⟨⟨fun key' value' hget => ?_, Run.forall_mem_set h.queue (.inr hreq) i, h.scheduled⟩, ?_, fun j hj => ?_⟩
  · rw [Dict.get?_set] at hget
    split at hget
    next heq =>
      cases hget
      rwa [← heq]
    · exact h.cache key' value' hget
  · exact ⟨req, getElem?_set_self hi, hreq⟩
  · obtain ⟨r, hr, hready⟩ := hj
    by_cases hij : i = j
    · subst hij
      exact ⟨req, getElem?_set_self hi, hreq⟩
    · exact ⟨r, (getElem?_set_ne hij).trans hr, hready⟩

theorem Inv.returnReady (hlaw : cfg.inner.Lawful Advanced) (h : Inv cfg Advanced st)
    (hstep : returnReady cfg st i = .ok st') :
    Inv cfg Advanced st' ∧ ReadyAt cfg Advanced i st' ∧
      ∀ j, ReadyAt cfg Advanced j st → ReadyAt cfg Advanced j st' := by
  rw [Constrained.returnReady] at hstep
  cases hi : st.grammarQueue[i]? with
  | none => rw [hi] at hstep; cases hstep
  | some req =>
    rw [hi] at hstep
    have hlt : i < st.grammarQueue.length := (List.getElem?_eq_some_iff.1 hi).1
    rcases h.queue req (List.mem_of_getElem? hi) with ⟨key, hw⟩ | hready
    · simp only [hw.grammar, hw.grammarKey] at hstep
      cases hresult : futureResult cfg key req.requireReasoning with
      | none => rw [hresult] at hstep; cases hstep
      | some value =>
        rw [hresult] at hstep
        cases hstep
        refine h.setReady (ready_useValue hw.key_eq (fun obj hobj => ?_)) hlt ?_
        · rw [hw.accepted]
          exact serves_futureResult hlaw (hobj ▸ hresult)
        · cases value with
          | invalid message => trivial
          | reasoner obj => exact (serves_futureResult hlaw hresult).unused.copy hlaw
    · dsimp only at hstep
      split at hstep
      · cases hstep
        exact ⟨h, ⟨req, hi, hready⟩, fun _ hj => hj⟩
      next hfuture _ =>
        obtain ⟨key, -, hsuits⟩ := hready
        rw [hfuture] at hsuits
        exact hsuits.elim
      · cases hstep

theorem Inv.returnFailed (h : Inv cfg Advanced st) (hstep : returnFailed cfg st i = .ok st') :
    Inv cfg Advanced st' ∧ ReadyAt cfg Advanced i st' ∧
      ∀ j, ReadyAt cfg Advanced j st → ReadyAt cfg Advanced j st' := by
  rw [Constrained.returnFailed] at hstep
  cases hi : st.grammarQueue[i]? with
  | none => rw [hi] at hstep; cases hstep
  | some req =>
    rw [hi] at hstep
    have hlt : i < st.grammarQueue.length := (List.getElem?_eq_some_iff.1 hi).1
    have hkey : ∃ key, req.samplingParams.key = .ok key := by
      rcases h.queue req (List.mem_of_getElem? hi) with ⟨key, hw⟩ | ⟨key, hkey, -⟩
      · exact ⟨some key, hw.key_eq⟩
      · exact ⟨key, hkey⟩
    obtain ⟨key, hkey⟩ := hkey
    dsimp only at hstep
    split at hstep
    · cases hstep
      exact h.setReady (ready_of_abort hkey _) hlt trivial
    · cases hstep

theorem Inv.getReadyGrammarRequests (hlaw : cfg.inner.Lawful Advanced) (h : Inv cfg Advanced st)
    {done : Nat → Bool} {others : List (List Nat × List Nat)} {ready failed : List Nat}
    (hstep : getReadyGrammarRequests cfg st done others ready failed = some st') :
    Inv cfg Advanced st' := by
  rw [Constrained.getReadyGrammarRequests] at hstep
  split at hstep
  · rw [Except.toOption_eq_some] at hstep
    obtain ⟨st₁, hready, hrest⟩ := Except.bind_eq_ok.1 hstep
    obtain ⟨st₂, hfailed, hst'⟩ := Except.bind_eq_ok.1 hrest
    cases hst'
    have h₀ := h.countWaits (readyReqIdxs st.grammarQueue done)
    obtain ⟨h₁, hvisited₁, -⟩ := foldlM_visits
      (fun s i s' (hs : Inv cfg Advanced s) => hs.returnReady hlaw) hready h₀
    obtain ⟨h₂, hvisited₂, hkeep⟩ := foldlM_visits
      (fun s i s' (hs : Inv cfg Advanced s) => hs.returnFailed) hfailed h₁
    refine ⟨h₂.cache, fun r hr => ?_, fun r hr => ?_⟩
    · obtain ⟨e, he, rfl⟩ := mem_map.1 hr
      exact h₂.queue _ (fst_mem_of_mem_zipIdx (mem_filter.1 he).1)
    · rcases mem_append.1 hr with hr | hr
      · exact h₂.scheduled r hr
      · obtain ⟨i, hi, hget⟩ := mem_filterMap.1 hr
        have hat : ReadyAt cfg Advanced i st₂ := by
          rcases mem_append.1 hi with hi | hi
          · exact hkeep i (hvisited₁ i hi)
          · exact hvisited₂ i hi
        obtain ⟨req, hreq, hready⟩ := hat
        rw [hreq] at hget
        cases hget
        exact hready
  · cases hstep

/-! ## Tokens -/

theorem Inv.setScheduled (h : Inv cfg Advanced st) (i : Nat) (hreq : Ready cfg Advanced req) :
    Inv cfg Advanced { st with scheduled := st.scheduled.set i req } :=
  ⟨h.cache, h.queue, Run.forall_mem_set h.scheduled hreq i⟩

theorem Ready.withObject {req' : Req G} {accepted : List Int}
    {f : ReasonerGrammarObject G → Except PyError (ReasonerGrammarObject G)}
    (h : Ready cfg Advanced req) (hf : ∀ key obj obj', Serves cfg.inner cfg.backend Advanced key
        (thinkingLimit cfg req.samplingParams) req.requireReasoning req.accepted obj →
      f obj = .ok obj' → Serves cfg.inner cfg.backend Advanced key
        (thinkingLimit cfg req.samplingParams) req.requireReasoning accepted obj')
    (hreq : req.withObject accepted f = some req') : Ready cfg Advanced req' := by
  obtain ⟨key, hkey, hsuits⟩ := h
  rw [Req.withObject] at hreq
  split at hreq
  next obj hgrammar =>
    obtain ⟨obj', hobj', rfl⟩ := Option.map_eq_some_iff.1 hreq
    rw [hgrammar] at hsuits
    exact ⟨key, hkey, hf key obj obj' hsuits (Except.toOption_eq_some.1 hobj')⟩
  · cases hreq

/-- Every step keeps the invariant, if it is no stale hit of the cache. -/
theorem Inv.step (hlaw : cfg.inner.Lawful Advanced) (h : Inv cfg Advanced st) {e : Event}
    (hstale : staleHit st e = false) (hstep : step cfg st e = some st') : Inv cfg Advanced st' := by
  cases e with
  | request input => exact h.request hlaw hstale (Except.toOption_eq_some.1 hstep)
  | abort rid abortAll =>
    cases hstep
    exact h.abort rid abortAll
  | poll done others ready failed => exact h.getReadyGrammarRequests hlaw hstep
  | clear =>
    cases hstep
    refine ⟨fun key value hget => ?_, h.queue, h.scheduled⟩
    cases hget
  | accept i token =>
    obtain ⟨req, hreq, hrest⟩ := Option.bind_eq_some_iff.1 hstep
    obtain ⟨req', hreq', hst'⟩ := Option.bind_eq_some_iff.1 hrest
    cases hst'
    refine h.setScheduled i ((h.scheduled req (mem_of_getElem? hreq)).withObject ?_ hreq')
    exact fun key obj obj' hserves hobj => hserves.acceptToken hlaw hobj
  | rollback i k =>
    obtain ⟨req, hreq, hrest⟩ := Option.bind_eq_some_iff.1 hstep
    split at hrest
    next hk =>
      obtain ⟨req', hreq', hst'⟩ := Option.bind_eq_some_iff.1 hrest
      cases hst'
      refine h.setScheduled i ((h.scheduled req (mem_of_getElem? hreq)).withObject ?_ hreq')
      exact fun key obj obj' hserves hobj => hserves.rollback hlaw hk hobj
    · cases hrest

/-! ## The results -/

/-- The grammar object of a request does what the request alone asks for. -/
structure OwnGrammar (cfg : Config G Mask) (Advanced : Key → List Int → G → Prop) (key : Option Key)
    (req : Req G) (obj : ReasonerGrammarObject G) : Prop where
  /-- The inner grammar has seen the remaining tokens after the first think-end token, or all of them. -/
  advanced : ∀ k, key = some k → ∃ g, obj.grammar = some g ∧
    Advanced k (generated cfg.backend.thinkEndId req.requireReasoning req.accepted) g
  /-- The inner grammar fills the mask from there on, and not before. -/
  mask : ∀ mask idx, obj.fillVocabMask cfg.inner mask idx =
    if stillThinking cfg.backend.thinkEndId req.requireReasoning req.accepted then
      thinkingMask cfg.inner cfg.backend (thinkingLimit cfg req.samplingParams) req.accepted.length mask idx
    else obj.grammar.elim mask (cfg.inner.fillVocabMask · mask idx)
  limit : obj.maxThinkTokens = thinkingLimit cfg req.samplingParams

/-- Every request with the scheduler that is not to be aborted has its own grammar, if it has a key or
    strict thinking is on. -/
def OwnGrammars (cfg : Config G Mask) (Advanced : Key → List Int → G → Prop) (st : State G) : Prop :=
  ∀ req ∈ st.scheduled, ∀ key, req.samplingParams.key = .ok key → req.toFinish = none →
    (key.isSome ∨ cfg.backend.enableStrictThinking = true) →
    ∃ obj, req.grammar = .value (.reasoner obj) ∧ OwnGrammar cfg Advanced key req obj

theorem Inv.ownGrammars (h : Inv cfg Advanced st) : OwnGrammars cfg Advanced st := by
  intro req hreq key hkey hfinish huse
  obtain ⟨key', hkey', hsuits⟩ := h.scheduled req hreq
  rw [hkey] at hkey'
  cases hkey'
  rw [Suits.eq_def] at hsuits
  split at hsuits
  next obj hgrammar =>
    exact ⟨obj, hgrammar, hsuits.advanced, hsuits.fillVocabMask_eq, hsuits.maxThinkTokens⟩
  · obtain ⟨rfl, hstrict⟩ := hsuits hfinish
    rw [hstrict] at huse
    simp at huse
  · exact hsuits.elim

/-- **In every run in which no request that is to think finds an object in the generation phase in the
    cache, the grammar of every request depends on its own tokens, key, flag and budget only.** -/
theorem ownGrammars_of_no_staleHit (hlaw : cfg.inner.Lawful Advanced)
    (h : Run.Reaches (step cfg) (fun st e => staleHit st e = false) State.new st) :
    OwnGrammars cfg Advanced st :=
  (h.invariant (inv_new cfg Advanced) (fun _ _ _ hs hstale hstep => hs.step hlaw hstale hstep)).ownGrammars

/-! ## Two runs -/

/-- A grammar whose state is the list of its tokens, and whose masks list what was done to them. -/
def listGrammar : InnerGrammar (List Int) (List String) where
  initValueDispatch _ := .ok (.grammar [])
  acceptToken ts t := .ok (ts ++ [t])
  rollback ts k := .ok (ts.take (ts.length - k))
  fillVocabMask _ mask _ := mask ++ ["grammar"]
  copy ts := ts
  setTokenFilter mask _ _ _ := mask ++ ["filter"]
  isSupportTokenFilter := true

theorem listGrammar_lawful : listGrammar.Lawful (fun _ ts g => g = ts) where
  dispatch h := by cases h; rfl
  accept h hacc := by cases h; cases hacc; rfl
  rollback h _ hroll := by cases h; cases hroll; rfl
  copy h := h

def listConfig : Config (List Int) (List String) where
  inner := listGrammar
  backend := ⟨9, true, some [7], 100⟩
  maxPollIterations := 10
  reprStr s := s

def jsonRequest (rid : String) (reasoning : Bool) (customParams : Json) : Event :=
  .request ⟨rid, ⟨some "{}", none, none, none, customParams⟩, reasoning⟩

/-- A thinking request compiles the grammar, one that does not think and one with its own budget take it
    from the cache; the last one is rolled back into its thinking phase. -/
def sharedRun : List Event :=
  [jsonRequest "a" true .null, .poll (fun _ => true) [] [0] [], jsonRequest "b" false .null,
    jsonRequest "c" true (.obj [("thinking_budget", .int 2)]), .accept 0 5, .accept 0 9, .accept 0 6,
    .accept 1 6, .accept 2 9, .accept 2 6, .rollback 2 2]

def sharedState : State (List Int) :=
  (Run.exec (fun st e => if staleHit st e = false then step listConfig st e else none)
    State.new sharedRun).getD State.new

theorem ownGrammars_sharedRun :
    sharedState.scheduled.map Req.accepted = [[5, 9, 6], [6], []] ∧
    OwnGrammars listConfig (fun _ ts g => g = ts) sharedState := by
  have hrun : Run.exec (fun st e => if staleHit st e = false then step listConfig st e else none)
      State.new sharedRun = some sharedState := rfl
  exact ⟨rfl, ownGrammars_of_no_staleHit listGrammar_lawful (Run.reaches_of_exec_guarded hrun)⟩

/-- The grammar is compiled for a request that does not think; the thinking request that follows takes it
    from the cache and accepts a token. -/
def staleRun : List Event :=
  [jsonRequest "a" false .null, .poll (fun _ => true) [] [0] [], jsonRequest "b" true .null, .accept 1 5]

/-- The inner grammar is given a token of the thinking phase and constrains the mask. -/
theorem not_ownGrammars_staleRun :
    ∃ st, Run.exec (step listConfig) State.new staleRun = some st ∧
      ¬ OwnGrammars listConfig (fun _ ts g => g = ts) st := by
  refine ⟨_, rfl, fun hown => ?_⟩
  obtain ⟨obj, hobj, hgrammar⟩ := hown _ (.tail _ (mem_singleton_self _)) _ rfl rfl
    (.inl rfl)
  obtain ⟨g, hg, hadv⟩ := hgrammar.advanced _ rfl
  cases hobj
  cases hg
  cases hadv

end Constrained
