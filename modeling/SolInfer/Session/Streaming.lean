import SolInfer.Lib.Run

set_option autoImplicit false

/-! # The requests of a streaming session

`srt/session/session_controller.py` and the parts of `srt/session/streaming_session.py`,
`srt/mem_cache/common.py` and the scheduler that set and clear the flag of a streaming session while its
requests are created, scheduled, finished, aborted and retracted. -/

namespace Streaming

inductive FinishReason where
  | abort (message : String)
  | length (length : Nat)
  | matched
deriving DecidableEq, Repr

inductive Phase where
  | waiting
  | running
  | gone
deriving DecidableEq, Repr

/-- A `Req`. `accepted` records that it was created without an abort message; the code has no such
    field. -/
structure Req where
  rid : String
  originInputIds : List Nat
  outputIds : List Nat
  maxNewTokens : Nat
  hasSession : Bool
  toFinish : Option FinishReason
  finishedReason : Option FinishReason
  finishedLen : Option Nat
  reqPoolIdx : Option Nat
  retractedStain : Bool
  phase : Phase
  accepted : Bool
deriving DecidableEq, Repr

/-- The part of a `SessionSlot` that decides whether it holds KV. -/
structure SessionSlot where
  reqPoolIdx : Option Nat
deriving DecidableEq, Repr

structure SessionParams where
  replace : Bool
  dropPreviousOutput : Bool
  offset : Option Int
deriving DecidableEq, Repr

structure TokenizedGenerateReqInput where
  rid : String
  inputIds : List Nat
  maxNewTokens : Nat
  sessionParams : SessionParams
deriving DecidableEq, Repr

/-- A streaming session, its slot and all `Req` objects created on it, by number. `reqNodes` is the
    request of the single node. -/
structure State where
  inflight : Bool
  reqNodes : Option Nat
  slot : Option SessionSlot
  reqs : List Req
deriving DecidableEq, Repr

def State.new : State := ⟨false, none, none, []⟩

variable (bosTokenId : Option Nat) (req : TokenizedGenerateReqInput) (st : State) (i : Nat)
  (r : Req)

def State.modifyReq (f : Req → Req) : State :=
  { st with reqs := st.reqs.modify i f }

/-! ## `Session` -/

/-- Why `create_req` refuses a request on a streaming session. -/
def State.abortMessage (params : SessionParams) : Option String :=
  if st.inflight then some "Streaming session already has an active request."
  else if params.replace then some "Streaming sessions do not support replace."
  else if params.dropPreviousOutput then
    some "Streaming sessions do not support drop_previous_output."
  else if params.offset.getD 0 ≠ 0 then some "Streaming sessions do not support offset."
  else none

/-- The input of an append: a leading BOS token is dropped. -/
def trimBos (inputIds : List Nat) : List Nat :=
  match bosTokenId, inputIds with
  | some bos, t :: ts => if t = bos then ts else t :: ts
  | _, ids => ids

def Req.setFinishWithAbort (message : String) (r : Req) : Req :=
  { r with originInputIds := [0], toFinish := some (.abort message) }

def Req.ofInput (inputIds : List Nat) : Req where
  rid := req.rid
  originInputIds := inputIds
  outputIds := []
  maxNewTokens := req.maxNewTokens
  hasSession := true
  toFinish := none
  finishedReason := none
  finishedLen := none
  reqPoolIdx := none
  retractedStain := false
  phase := .waiting
  accepted := false

/-- `create_req` on a streaming session; the new request goes to the waiting queue. -/
def createReq : State :=
  match st.abortMessage req.sessionParams with
  | some message =>
    { st with reqs := st.reqs ++ [(Req.ofInput req req.inputIds).setFinishWithAbort message] }
  | none =>
    let inputIds :=
      match st.reqNodes.bind (st.reqs[·]?) with
      | some last =>
        last.originInputIds ++ last.outputIds.take last.maxNewTokens ++ trimBos bosTokenId req.inputIds
      | none => req.inputIds
    { st with
      inflight := true
      reqs := st.reqs ++ [{ Req.ofInput req inputIds with accepted := true }] }

def finishReq (st : State) : State :=
  let st := match st.reqNodes with
    | some prev => st.modifyReq prev fun r => { r with hasSession := false }
    | none => st
  { st with inflight := false, reqNodes := some i }

def abortReq : State := { st with inflight := false }

/-! ## `StreamingSession` -/

def State.isHoldingKv : Bool := (st.slot.bind SessionSlot.reqPoolIdx).isSome

/-- `match_prefix` of request `i` with value `r`: on a slot that holds KV, a request that is to finish
    leaves the session and any other gets the slot's row. -/
def matchPrefix (st : State) : State :=
  match r.hasSession, st.slot.bind SessionSlot.reqPoolIdx with
  | true, some row =>
    if r.toFinish.isSome then (abortReq st).modifyReq i fun r => { r with hasSession := false }
    else st.modifyReq i fun r => { r with reqPoolIdx := some row }
  | _, _ => st

/-- `_trim_overshoot`, on the tokens. -/
def Req.trimOvershoot : Req :=
  { r with outputIds := r.outputIds.take (r.finishedLen.getD r.outputIds.length) }

/-- `cache_finished_req` and the release of the row. -/
def cacheFinishedReq (st : State) : State :=
  if r.hasSession then
    match r.finishedReason with
    | some (.abort _) =>
      abortReq ({ st with slot := none }.modifyReq i fun r => { r with reqPoolIdx := none })
    | _ =>
      finishReq i ({ st with slot := some ⟨r.reqPoolIdx⟩ }.modifyReq i fun r =>
        { r.trimOvershoot with reqPoolIdx := none })
  else st.modifyReq i fun r => { r with reqPoolIdx := none }

def releaseKvCache (st : State) : State :=
  match st.reqs[i]? with
  | some r => if r.reqPoolIdx.isSome then cacheFinishedReq i r st else st
  | none => st

/-! ## The scheduler -/

/-- `update_finish_state`; `matchedLen` is the length at which a stop token or string was found. -/
def Req.updateFinishState (matchedLen : Option Nat) (r : Req) : Req :=
  if r.finishedReason.isSome then r
  else if r.toFinish.isSome then { r with finishedReason := r.toFinish, toFinish := none }
  else if r.maxNewTokens ≤ r.outputIds.length then
    { r with finishedReason := some (.length r.maxNewTokens), finishedLen := some r.maxNewTokens }
  else match matchedLen with
    | some n => { r with finishedReason := some .matched, finishedLen := some n }
    | none => r

/-- What can happen to the requests of the session.
  * `create` is a call of `create_req`;
  * `attempt` is a scheduling attempt: `match_prefix` and, when `admitted`, the start of the request, on
    `row` if it has none;
  * `forward` is the result of a forward pass;
  * `abort` marks a request that has not finished;
  * `abortQueued` takes a request out of the waiting queue and, when `releases`, releases its KV;
  * `retract` releases a running request, which then waits again or, with `outOfMemory`, is given up. -/
inductive Event where
  | create (req : TokenizedGenerateReqInput)
  | attempt (i : Nat) (admitted : Bool) (row : Nat)
  | forward (i : Nat) (tokens : List Nat) (matchedLen : Option Nat)
  | abort (i : Nat) (message : String)
  | abortQueued (i : Nat) (releases : Bool)
  | retract (i : Nat) (outOfMemory : Bool)
deriving DecidableEq, Repr

def Req.start (row : Nat) (r : Req) : Req :=
  { r with phase := .running, reqPoolIdx := r.reqPoolIdx <|> some row }

def Req.leave : Req := { r with phase := .gone }

def attempt (admitted : Bool) (row : Nat) (st : State) : State :=
  let st := matchPrefix i r st
  if admitted then st.modifyReq i (Req.start row) else st

def forward (tokens : List Nat) (matchedLen : Option Nat) (st : State) : State :=
  let r := { r with outputIds := r.outputIds ++ tokens }.updateFinishState matchedLen
  let st := st.modifyReq i fun _ => r
  if r.finishedReason.isSome then (releaseKvCache i st).modifyReq i Req.leave else st

def abort (message : String) (st : State) : State :=
  match r.phase with
  | .waiting => st.modifyReq i (Req.setFinishWithAbort message)
  | _ => st.modifyReq i fun r => { r with toFinish := some (.abort message) }

def abortQueued (releases : Bool) (st : State) : State :=
  let st := if releases then releaseKvCache i st else st
  st.modifyReq i Req.leave

def Req.resetForRetract : Req := { r with retractedStain := true }

def outOfMemoryMessage : String :=
  "Out of memory even after retracting all other requests in the decode batch. " ++
    "Aborting the last request."

/-- `release_req` on a request of the batch, and what `retract_decode` does with it. -/
def retract (outOfMemory : Bool) (st : State) : State :=
  let st := if outOfMemory then
      st.modifyReq i fun r => { r with toFinish := some (.abort outOfMemoryMessage) }
    else st
  let st := (releaseKvCache i st).modifyReq i Req.resetForRetract
  st.modifyReq i fun r => { r with phase := if outOfMemory then .gone else .waiting }

/-- A step of request `i`, in one of the phases `p`. -/
def State.onReq (p : Phase → Prop) [DecidablePred p] (f : Req → State) : Option State :=
  match st.reqs[i]? with
  | some r => if p r.phase then some (f r) else none
  | none => none

def step : Event → Option State
  | .create req => some (createReq bosTokenId req st)
  | .attempt i admitted row => st.onReq i (· = .waiting) fun r => attempt i r admitted row st
  | .forward i tokens matchedLen => st.onReq i (· = .running) fun r => forward i r tokens matchedLen st
  | .abort i message => st.onReq i (· ≠ .gone) fun r => abort i r message st
  | .abortQueued i releases => st.onReq i (· = .waiting) fun _ => abortQueued i releases st
  | .retract i outOfMemory => st.onReq i (· = .running) fun _ => retract i outOfMemory st

/-! ## Active requests -/

def Req.Pending : Prop := r.accepted ∧ r.phase ≠ .gone

/-- Accepted, and neither finished nor aborted. -/
def Req.Active : Prop := r.Pending ∧ r.finishedReason = none ∧ r.toFinish = none

instance (r : Req) : Decidable r.Pending := inferInstanceAs (Decidable (_ ∧ _))

instance (r : Req) : Decidable r.Active := inferInstanceAs (Decidable (_ ∧ _ ∧ _))

/-- If request `i` was refused and still points to the session, no accepted request is pending. -/
def State.Clear : Prop :=
  ∀ r ∈ st.reqs[i]?, r.accepted = false → r.hasSession → ∀ r' ∈ st.reqs, ¬ r'.Pending

/-- When the flag stays right: a request is created only when no retracted request is pending, and a
    refused request meets the slot or is released only when it has left the session or nothing is
    pending. -/
def Allowed : Event → Prop
  | .create _ => ∀ r ∈ st.reqs, r.Pending → r.retractedStain = false
  | .attempt i _ _ => st.isHoldingKv → st.Clear i
  | .forward i _ _ => st.Clear i
  | .abort _ _ => True
  | .abortQueued i releases => releases → st.Clear i
  | .retract i _ => st.Clear i

instance (st : State) (i : Nat) : Decidable (st.Clear i) := by
  unfold State.Clear
  infer_instance

instance (st : State) (e : Event) : Decidable (Allowed st e) := by
  cases e <;> unfold Allowed <;> infer_instance

/-- A step of a request that was, or now is, refused. -/
def OfRefused : Event → Prop
  | .create req => st.abortMessage req.sessionParams ≠ none
  | .attempt i _ _ | .forward i _ _ | .abort i _ | .abortQueued i _ | .retract i _ =>
    ∀ r ∈ st.reqs[i]?, r.accepted = false

/-! ## One active request per streaming session

The flag of a session stands for one particular request: the accepted request that is still pending and
can still clear it. The proof says once what a release and a match do to the flag and to the requests
(`releaseKvCache_inflight`, `matchPrefix_inflight`, `Kept`), and that no step makes a request that could
not clear the flag able to (`Fades`). -/

/-! ## Requests after an update -/

theorem getElem?_modifyReq_self (st : State) (i : Nat) (f : Req → Req) :
    (st.modifyReq i f).reqs[i]? = st.reqs[i]?.map f := by
  simp [State.modifyReq]

variable {i j : Nat}

theorem getElem?_modifyReq_ne (st : State) (f : Req → Req) (h : j ≠ i) :
    (st.modifyReq i f).reqs[j]? = st.reqs[j]? := by
  simp [State.modifyReq, Ne.symm h]

@[simp] theorem modifyReq_inflight (st : State) (i : Nat) (f : Req → Req) :
    (st.modifyReq i f).inflight = st.inflight := rfl

/-- Every request of the later state comes from one of the earlier state, by `R`. -/
def State.Each (R : Req → Req → Prop) (st st' : State) : Prop :=
  ∀ (j : Nat) (r' : Req), st'.reqs[j]? = some r' → ∃ r : Req, st.reqs[j]? = some r ∧ R r r'

variable {st st' : State} {r : Req} {R : Req → Req → Prop}

theorem getElem?_modifyReq (hr : st.reqs[i]? = some r) (f : Req → Req) :
    (st.modifyReq i f).reqs[i]? = some (f r) := by
  rw [getElem?_modifyReq_self, hr]
  rfl

theorem State.Each.mono {R' : Req → Req → Prop} (h : st.Each R st')
    (hR : ∀ r r', R r r' → R' r r') : st.Each R' st' := by
  intro j r' hr'
  obtain ⟨r, hr, hrel⟩ := h j r' hr'
  exact ⟨r, hr, hR r r' hrel⟩

theorem State.Each.trans {st'' : State} (h : st.Each R st')
    (h' : st'.Each R st'') (hR : ∀ {r r' r''}, R r r' → R r' r'' → R r r'') : st.Each R st'' := by
  intro j r'' hr''
  obtain ⟨r', hr', hrel'⟩ := h' j r'' hr''
  obtain ⟨r, hr, hrel⟩ := h j r' hr'
  exact ⟨r, hr, hR hrel hrel'⟩

theorem State.each_modifyReq (hrefl : ∀ r, R r r) (st : State) (i : Nat)
    (f : Req → Req) (hf : ∀ r, st.reqs[i]? = some r → R r (f r)) : st.Each R (st.modifyReq i f) := by
  intro j r' hr'
  by_cases hj : j = i
  · subst hj
    rw [getElem?_modifyReq_self] at hr'
    obtain ⟨r, hr, rfl⟩ := Option.map_eq_some_iff.1 hr'
    exact ⟨r, hr, hf r hr⟩
  · rw [getElem?_modifyReq_ne st f hj] at hr'
    exact ⟨r', hr', hrefl r'⟩

/-! ## What a release and a match keep -/

/-- Nothing changed but that the request may have left the session, and its tokens and row. -/
structure Req.Kept (r r' : Req) : Prop where
  accepted : r'.accepted = r.accepted
  phase : r'.phase = r.phase
  toFinish : r'.toFinish = r.toFinish
  stain : r'.retractedStain = r.retractedStain
  session : r'.hasSession → r.hasSession

theorem Req.Kept.refl (r : Req) : r.Kept r := ⟨rfl, rfl, rfl, rfl, id⟩

theorem Req.Kept.trans {r' r'' : Req} (h : r.Kept r') (h' : r'.Kept r'') : r.Kept r'' where
  accepted := h'.accepted.trans h.accepted
  phase := h'.phase.trans h.phase
  toFinish := h'.toFinish.trans h.toFinish
  stain := h'.stain.trans h.stain
  session := fun hs => h.session (h'.session hs)

abbrev State.Kept (st st' : State) : Prop := st.Each Req.Kept st'

theorem State.Kept.refl (st : State) : st.Kept st := fun _ r' h => ⟨r', h, Req.Kept.refl r'⟩

theorem State.kept_modifyReq (st : State) (i : Nat) (f : Req → Req) (hf : ∀ r : Req, r.Kept (f r)) :
    st.Kept (st.modifyReq i f) :=
  st.each_modifyReq Req.Kept.refl i f fun r _ => hf r

theorem finishReq_kept (i : Nat) (st : State) : st.Kept (finishReq i st) := by
  unfold finishReq
  cases hn : st.reqNodes with
  | none => exact State.Kept.refl st
  | some prev => exact st.kept_modifyReq prev _ fun r => ⟨rfl, rfl, rfl, rfl, by simp⟩

theorem cacheFinishedReq_kept (i : Nat) (r : Req) (st : State) : st.Kept (cacheFinishedReq i r st) := by
  have hrow : ∀ st' : State, st'.Kept (st'.modifyReq i fun r => { r with reqPoolIdx := none }) :=
    fun st' => st'.kept_modifyReq i _ fun r => ⟨rfl, rfl, rfl, rfl, id⟩
  unfold cacheFinishedReq
  split
  · split
    · exact hrow { st with slot := none }
    · have htrim : st.Kept ({ st with slot := some ⟨r.reqPoolIdx⟩ }.modifyReq i fun r =>
          { r.trimOvershoot with reqPoolIdx := none }) :=
        State.kept_modifyReq { st with slot := some ⟨r.reqPoolIdx⟩ } i _ fun r => ⟨rfl, rfl, rfl, rfl, id⟩
      exact htrim.trans (finishReq_kept i _) Req.Kept.trans
  · exact hrow st

theorem releaseKvCache_kept (i : Nat) (st : State) : st.Kept (releaseKvCache i st) := by
  unfold releaseKvCache
  split
  · split
    · exact cacheFinishedReq_kept i _ st
    · exact State.Kept.refl st
  · exact State.Kept.refl st

theorem releaseKvCache_inflight (i : Nat) (st : State) :
    (releaseKvCache i st).inflight = st.inflight ∨ ∃ r, st.reqs[i]? = some r ∧ r.hasSession = true := by
  unfold releaseKvCache
  split
  next r hr =>
    split
    · by_cases hs : r.hasSession = true
      · exact .inr ⟨r, hr, hs⟩
      · exact .inl (by simp [cacheFinishedReq, hs])
    · exact .inl rfl
  · exact .inl rfl

theorem matchPrefix_kept (i : Nat) (r : Req) (st : State) : st.Kept (matchPrefix i r st) := by
  unfold matchPrefix
  split
  · split
    · exact State.kept_modifyReq (abortReq st) i _ fun r => ⟨rfl, rfl, rfl, rfl, by simp⟩
    · exact st.kept_modifyReq i _ fun r => ⟨rfl, rfl, rfl, rfl, id⟩
  · exact State.Kept.refl st

/-- A match clears the flag only for a request of the session that meets a slot with KV and is to
    finish, and that request leaves the session. -/
theorem matchPrefix_inflight (hr : st.reqs[i]? = some r) :
    (matchPrefix i r st).inflight = st.inflight ∨
      st.isHoldingKv = true ∧ r.hasSession = true ∧ r.toFinish ≠ none ∧
        (matchPrefix i r st).reqs[i]? = some { r with hasSession := false } := by
  unfold matchPrefix State.isHoldingKv
  split
  next row hs hslot =>
    split
    next hf =>
      refine .inr ⟨by rw [hslot]; rfl, hs, by simpa [Option.isSome_iff_ne_none] using hf, ?_⟩
      exact getElem?_modifyReq (show (abortReq st).reqs[i]? = some r from hr) _
    · exact .inl rfl
  · exact .inl rfl

/-! ## Requests that can clear the flag -/

/-- A pending request that is still in the session or not marked to finish. -/
def Req.Holds (r : Req) : Prop := r.Pending ∧ (r.hasSession ∨ r.toFinish = none)

theorem Req.Active.holds (h : r.Active) : r.Holds := ⟨h.1, .inr h.2.2⟩

/-- The request cannot come to hold the flag, and stays marked as retracted. -/
structure Req.Fades (r r' : Req) : Prop where
  holds : r'.Holds → r.Holds
  stain : r.retractedStain → r'.retractedStain

theorem Req.Kept.fades {r' : Req} (h : r.Kept r') : r.Fades r' where
  holds := by
    rintro ⟨⟨ha, hp⟩, hs⟩
    exact ⟨⟨h.accepted ▸ ha, h.phase ▸ hp⟩, hs.imp h.session fun hf => h.toFinish ▸ hf⟩
  stain := fun hs => h.stain ▸ hs

theorem Req.Fades.trans {r' r'' : Req} (h : r.Fades r') (h' : r'.Fades r'') : r.Fades r'' :=
  ⟨fun hh => h.holds (h'.holds hh), fun hs => h'.stain (h.stain hs)⟩

theorem Req.Fades.refl (r : Req) : r.Fades r := ⟨id, id⟩

abbrev State.Fades (st st' : State) : Prop := st.Each Req.Fades st'

theorem State.Each.fades (h : st.Kept st') : st.Fades st' :=
  h.mono fun _ _ hk => hk.fades

/-- Whoever takes up `phase` must have been pending for it to hold the flag. -/
theorem Req.fades_phase (f : Req → Req) (hp : r.phase ≠ .gone)
    (ha : (f r).accepted = r.accepted) (hs : (f r).hasSession = r.hasSession)
    (ht : (f r).toFinish = r.toFinish) (hm : r.retractedStain → (f r).retractedStain) : r.Fades (f r) where
  holds := by
    rintro ⟨⟨hacc, -⟩, hor⟩
    exact ⟨⟨ha ▸ hacc, hp⟩, by rwa [hs, ht] at hor⟩
  stain := hm

theorem Req.leave_fades (r : Req) : r.Fades r.leave where
  holds := fun h => absurd rfl h.1.2
  stain := id

/-! ## The invariant -/

/-- At most one request can clear the flag, and the flag is set for it unless it was retracted. -/
structure Exclusive (st : State) : Prop where
  flag : ∀ (i : Nat) (r : Req), st.reqs[i]? = some r → r.Holds → st.inflight = true ∨ r.retractedStain = true
  unique : ∀ (i j : Nat) (r r' : Req), st.reqs[i]? = some r → st.reqs[j]? = some r' → r.Holds → r'.Holds → i = j

theorem Exclusive.of_fades (h : Exclusive st) (hfade : st.Fades st')
    (hflag : st'.inflight = st.inflight ∨
      ∀ (j : Nat) (r' : Req), st'.reqs[j]? = some r' → r'.Holds → r'.retractedStain = true) : Exclusive st' where
  flag := by
    intro j r' hr' hh
    rcases hflag with hsame | hall
    · obtain ⟨r, hr, hf⟩ := hfade j r' hr'
      exact (h.flag j r hr (hf.holds hh)).imp (fun hi => hsame ▸ hi) hf.stain
    · exact .inr (hall j r' hr' hh)
  unique := by
    intro i j r r' hr hr' hh hh'
    obtain ⟨q, hq, hf⟩ := hfade i r hr
    obtain ⟨q', hq', hf'⟩ := hfade j r' hr'
    exact h.unique i j q q' hq hq' (hf.holds hh) (hf'.holds hh')

theorem Exclusive.only (h : Exclusive st) {r' : Req}
    (hr : st.reqs[i]? = some r) (hs : r.hasSession = true) (hp : r.phase ≠ .gone) (hc : st.Clear i)
    (hr' : st.reqs[j]? = some r') (hh : r'.Holds) : j = i := by
  cases ha : r.accepted with
  | true => exact h.unique j i r' r hr' hr hh ⟨⟨ha, hp⟩, .inl hs⟩
  | false => exact absurd hh.1 (hc r hr ha hs r' (List.mem_of_getElem? hr'))

theorem Exclusive.release {st₁ : State} (h : Exclusive st) {r₁ : Req} (f : Req → Req)
    (hr : st.reqs[i]? = some r) (hp : r.phase ≠ .gone) (hc : st.Clear i)
    (hflag : st₁.inflight = st.inflight) (hne : ∀ j, j ≠ i → st₁.reqs[j]? = st.reqs[j]?)
    (hr₁ : st₁.reqs[i]? = some r₁) (hs₁ : r₁.hasSession = r.hasSession)
    (hend : ∀ q, r₁.Kept q → r.Fades (f q) ∧ ((f q).Holds → (f q).retractedStain = true)) :
    Exclusive ((releaseKvCache i st₁).modifyReq i f) := by
  have hkept := releaseKvCache_kept i st₁
  have hself : ∀ r', ((releaseKvCache i st₁).modifyReq i f).reqs[i]? = some r' →
      r.Fades r' ∧ (r'.Holds → r'.retractedStain = true) := by
    intro r' hr'
    rw [getElem?_modifyReq_self] at hr'
    obtain ⟨q, hq, rfl⟩ := Option.map_eq_some_iff.1 hr'
    obtain ⟨q₁, hq₁, hk⟩ := hkept i q hq
    cases hr₁.symm.trans hq₁
    exact hend q hk
  have hfade : st.Fades ((releaseKvCache i st₁).modifyReq i f) := by
    intro j r' hr'
    by_cases hj : j = i
    · subst hj
      exact ⟨r, hr, (hself r' hr').1⟩
    · rw [getElem?_modifyReq_ne _ f hj] at hr'
      obtain ⟨q, hq, hk⟩ := hkept j r' hr'
      exact ⟨q, hne j hj ▸ hq, hk.fades⟩
  refine h.of_fades hfade ?_
  rcases releaseKvCache_inflight i st₁ with hsame | ⟨r₀, hr₀, hs⟩
  · exact .inl (hsame.trans hflag)
  · refine .inr ?_
    intro j r' hr' hh
    cases hr₁.symm.trans hr₀
    obtain ⟨q, hq, hfq⟩ := hfade j r' hr'
    -- the flag was given up by request `i`, so no other request holds it
    obtain rfl : j = i := h.only hr (hs₁ ▸ hs) hp hc hq (hfq.holds hh)
    exact (hself r' hr').2 hh

/-! ## Steps -/

theorem new_exclusive : Exclusive State.new where
  flag := by intro i r hr; simp [State.new] at hr
  unique := by intro i j r r' hr; simp [State.new] at hr

theorem abortMessage_ne_none (h : st.inflight = true) (params : SessionParams) :
    st.abortMessage params ≠ none := by
  simp [State.abortMessage, h]

theorem getElem?_append_singleton {α : Type} {xs : List α} {x y : α}
    (h : (xs ++ [x])[i]? = some y) : xs[i]? = some y ∨ i = xs.length ∧ y = x := by
  rw [List.getElem?_append] at h
  split at h
  · exact .inl h
  next hi =>
    obtain ⟨hlt, hx⟩ := List.getElem?_eq_some_iff.1 h
    simp only [List.length_cons, List.length_nil] at hlt
    refine .inr ⟨by omega, ?_⟩
    simpa using hx.symm

theorem createReq_exclusive (h : Exclusive st) (bosTokenId : Option Nat)
    (req : TokenizedGenerateReqInput) (hA : Allowed st (.create req)) :
    Exclusive (createReq bosTokenId req st) := by
  unfold createReq
  split
  next message hm =>
    -- a request that is not accepted holds nothing
    have hold : ∀ {i : Nat} {r : Req},
        (st.reqs ++ [(Req.ofInput req req.inputIds).setFinishWithAbort message])[i]? = some r →
        r.Holds → st.reqs[i]? = some r := by
      intro i r hr hh
      rcases getElem?_append_singleton hr with hr | ⟨-, rfl⟩
      · exact hr
      · cases hh.1.1
    exact ⟨fun i r hr hh => h.flag i r (hold hr hh) hh,
      fun i j r r' hr hr' hh hh' => h.unique i j r r' (hold hr hh) (hold hr' hh') hh hh'⟩
  next hm =>
    -- the flag is clear and no retracted request is pending, so the new request is the only holder
    have hnone : ∀ (i : Nat) (r : Req), st.reqs[i]? = some r → ¬ r.Holds := by
      intro i r hr hh
      rcases h.flag i r hr hh with hi | hst
      · exact abortMessage_ne_none hi _ hm
      · rw [hA r (List.mem_of_getElem? hr) hh.1] at hst
        cases hst
    refine ⟨fun _ _ _ _ => .inl rfl, ?_⟩
    intro i j r r' hr hr' hh hh'
    rcases getElem?_append_singleton hr with hr | ⟨rfl, -⟩
    · exact absurd hh (hnone i r hr)
    · rcases getElem?_append_singleton hr' with hr' | ⟨rfl, -⟩
      · exact absurd hh' (hnone j r' hr')
      · rfl

theorem attempt_exclusive (h : Exclusive st)
    (hr : st.reqs[i]? = some r) (hp : r.phase = .waiting) (admitted : Bool) (row : Nat)
    (hA : Allowed st (.attempt i admitted row)) : Exclusive (attempt i r admitted row st) := by
  have hmatch : Exclusive (matchPrefix i r st) := by
    have hkept := matchPrefix_kept i r st
    refine h.of_fades hkept.fades ?_
    rcases matchPrefix_inflight hr with hsame | ⟨hkv, hs, hf, hself⟩
    · exact .inl hsame
    · refine .inr ?_
      intro j r' hr' hh
      obtain ⟨q, hq, hk⟩ := hkept j r' hr'
      obtain rfl : j = i := h.only hr hs (by simp [hp]) (hA hkv) hq (hk.fades.holds hh)
      rw [hself] at hr'
      cases hr'
      exact absurd hh.2 (by simpa using hf)
  unfold attempt
  split
  · refine hmatch.of_fades (State.each_modifyReq Req.Fades.refl _ i _ fun q hq => ?_) (.inl rfl)
    obtain ⟨r₀, hr₀, hk⟩ := matchPrefix_kept i r st i q hq
    cases hr.symm.trans hr₀
    exact Req.fades_phase (Req.start row) (by rw [hk.phase, hp]; simp) rfl rfl rfl id
  · exact hmatch

theorem updateFinishState_kept (r : Req) (matchedLen : Option Nat) :
    (r.updateFinishState matchedLen).accepted = r.accepted ∧
      (r.updateFinishState matchedLen).hasSession = r.hasSession ∧
      (r.updateFinishState matchedLen).retractedStain = r.retractedStain := by
  unfold Req.updateFinishState
  repeat' split
  all_goals exact ⟨rfl, rfl, rfl⟩

theorem updateFinishState_toFinish {matchedLen : Option Nat}
    (h : (r.updateFinishState matchedLen).finishedReason = none) :
    (r.updateFinishState matchedLen).toFinish = r.toFinish := by
  unfold Req.updateFinishState at h ⊢
  split at h
  next hf => simp [h] at hf
  · split at h
    next hf => simp only at h; simp [h] at hf
    · split at h
      · cases h
      next hf hlen => rw [if_neg ‹_›, if_neg hf, if_neg hlen]; split <;> rfl

theorem forward_exclusive (h : Exclusive st)
    (hr : st.reqs[i]? = some r) (hp : r.phase = .running) (tokens : List Nat) (matchedLen : Option Nat)
    (hA : st.Clear i) : Exclusive (forward i r tokens matchedLen st) := by
  obtain ⟨hacc, hses, hst⟩ :=
    updateFinishState_kept { r with outputIds := r.outputIds ++ tokens } matchedLen
  have htf := @updateFinishState_toFinish { r with outputIds := r.outputIds ++ tokens } matchedLen
  unfold forward
  generalize { r with outputIds := r.outputIds ++ tokens }.updateFinishState matchedLen = r₁ at *
  dsimp only at *
  have hgone : r.phase ≠ .gone := by simp [hp]
  have hself := getElem?_modifyReq hr fun _ => r₁
  split
  · refine h.release Req.leave hr hgone hA rfl (fun j hj => getElem?_modifyReq_ne st _ hj) hself hses ?_
    intro q hk
    refine ⟨⟨fun hh => absurd rfl hh.1.2, fun hs => ?_⟩, fun hh => absurd rfl hh.1.2⟩
    exact (hk.stain.trans hst).trans hs
  next hf =>
    refine h.of_fades (st.each_modifyReq Req.Fades.refl i _ fun q hq => ?_) (.inl rfl)
    cases hr.symm.trans hq
    exact Req.fades_phase (fun _ => r₁) hgone hacc hses (htf (by simpa using hf)) fun hs => hst.trans hs

theorem abort_exclusive (h : Exclusive st) (message : String) : Exclusive (abort i r message st) := by
  have hmark : ∀ (f : Req → Req), (∀ q, (f q).accepted = q.accepted ∧ (f q).phase = q.phase ∧
      (f q).hasSession = q.hasSession ∧ (f q).toFinish ≠ none ∧
      (f q).retractedStain = q.retractedStain) → Exclusive (st.modifyReq i f) := by
    intro f hf
    refine h.of_fades (st.each_modifyReq Req.Fades.refl i f fun q _ => ?_) (.inl rfl)
    obtain ⟨hacc, hphase, hses, htf, hst⟩ := hf q
    refine ⟨?_, fun hs => hst.trans hs⟩
    rintro ⟨⟨ha, hp⟩, hor⟩
    exact ⟨⟨hacc ▸ ha, hphase ▸ hp⟩, .inl (hses ▸ hor.resolve_right htf)⟩
  unfold abort
  split
  · exact hmark _ fun q => ⟨rfl, rfl, rfl, by simp [Req.setFinishWithAbort], rfl⟩
  · exact hmark _ fun q => ⟨rfl, rfl, rfl, by simp, rfl⟩

theorem abortQueued_exclusive (h : Exclusive st)
    (hr : st.reqs[i]? = some r) (hp : r.phase = .waiting) (releases : Bool)
    (hA : releases = true → st.Clear i) : Exclusive (abortQueued i releases st) := by
  unfold abortQueued
  split
  next hrel =>
    refine h.release Req.leave hr (by simp [hp]) (hA hrel) rfl (fun _ _ => rfl) hr rfl ?_
    intro q hk
    exact ⟨hk.fades.trans q.leave_fades, fun hh => absurd rfl hh.1.2⟩
  · exact h.of_fades (st.each_modifyReq Req.Fades.refl i _ fun q _ => q.leave_fades) (.inl rfl)

theorem modifyReq_modifyReq (st : State) (i : Nat) (f g : Req → Req) :
    (st.modifyReq i f).modifyReq i g = st.modifyReq i (g ∘ f) := by
  simp [State.modifyReq, List.modify_modify_eq]

theorem retract_exclusive (h : Exclusive st)
    (hr : st.reqs[i]? = some r) (hp : r.phase = .running) (outOfMemory : Bool)
    (hA : st.Clear i) : Exclusive (retract i outOfMemory st) := by
  have hgone : r.phase ≠ .gone := by simp [hp]
  unfold retract
  simp only [modifyReq_modifyReq]
  cases outOfMemory with
  | true =>
    have hself := getElem?_modifyReq hr fun r => { r with toFinish := some (.abort outOfMemoryMessage) }
    refine h.release _ hr hgone hA rfl (fun j hj => getElem?_modifyReq_ne st _ hj) hself rfl ?_
    intro q hk
    exact ⟨⟨fun hh => absurd rfl hh.1.2, fun _ => rfl⟩, fun _ => rfl⟩
  | false =>
    refine h.release _ hr hgone hA rfl (fun _ _ => rfl) hr rfl ?_
    intro q hk
    refine ⟨⟨?_, fun _ => rfl⟩, fun _ => rfl⟩
    rintro ⟨⟨ha, -⟩, hor⟩
    exact hk.fades.holds ⟨⟨ha, by rw [hk.phase]; exact hgone⟩, hor⟩

theorem onReq_eq_some {p : Phase → Prop} [DecidablePred p]
    {f : Req → State} (h : st.onReq i p f = some st') :
    ∃ r, st.reqs[i]? = some r ∧ p r.phase ∧ f r = st' := by
  unfold State.onReq at h
  split at h
  next r hr =>
    split at h
    next hp => exact ⟨r, hr, hp, Option.some.inj h⟩
    · cases h
  · cases h

theorem step_exclusive (bosTokenId : Option Nat) {e : Event} (h : Exclusive st)
    (hA : Allowed st e) (hstep : step bosTokenId st e = some st') : Exclusive st' := by
  cases e
  case create req =>
    cases hstep
    exact createReq_exclusive h bosTokenId req hA
  all_goals
    rw [step] at hstep
    obtain ⟨r, hr, hp, rfl⟩ := onReq_eq_some hstep
  case attempt => exact attempt_exclusive h hr hp _ _ hA
  case forward => exact forward_exclusive h hr hp _ _ hA
  case abort => exact abort_exclusive h _
  case abortQueued => exact abortQueued_exclusive h hr hp _ hA
  case retract => exact retract_exclusive h hr hp _ hA

/-! ## Steps of refused requests -/

/-- Nothing changed but request `i`. -/
structure Untouched (i : Nat) (st st' : State) : Prop where
  inflight : st'.inflight = st.inflight
  reqNodes : st'.reqNodes = st.reqNodes
  slot : st'.slot = st.slot
  reqs : ∀ j, j ≠ i → st'.reqs[j]? = st.reqs[j]?

theorem Untouched.refl (i : Nat) (st : State) : Untouched i st st := ⟨rfl, rfl, rfl, fun _ _ => rfl⟩

theorem Untouched.trans {st'' : State} (h : Untouched i st st')
    (h' : Untouched i st' st'') : Untouched i st st'' where
  inflight := h'.inflight.trans h.inflight
  reqNodes := h'.reqNodes.trans h.reqNodes
  slot := h'.slot.trans h.slot
  reqs := fun j hj => (h'.reqs j hj).trans (h.reqs j hj)

theorem untouched_modifyReq (i : Nat) (st : State) (f : Req → Req) : Untouched i st (st.modifyReq i f) :=
  ⟨rfl, rfl, rfl, fun _ hj => getElem?_modifyReq_ne st f hj⟩

theorem untouched_releaseKvCache (hr : st.reqs[i]? = some r)
    (hs : r.hasSession = false) : Untouched i st (releaseKvCache i st) := by
  unfold releaseKvCache
  rw [hr]
  dsimp only
  split
  · simp only [cacheFinishedReq, hs]
    exact untouched_modifyReq i st _
  · exact Untouched.refl i st

theorem untouched_matchPrefix
    (h : st.isHoldingKv = true → r.hasSession = false) : Untouched i st (matchPrefix i r st) := by
  unfold matchPrefix
  split
  next row hs hslot =>
    have := h (by rw [State.isHoldingKv, hslot]; rfl)
    rw [hs] at this
    cases this
  · exact Untouched.refl i st

theorem untouched_attempt (admitted : Bool) (row : Nat)
    (h : st.isHoldingKv = true → r.hasSession = false) : Untouched i st (attempt i r admitted row st) := by
  unfold attempt
  split
  · exact (untouched_matchPrefix h).trans (untouched_modifyReq i _ _)
  · exact untouched_matchPrefix h

theorem untouched_forward (tokens : List Nat) (matchedLen : Option Nat)
    (hr : st.reqs[i]? = some r) (hs : r.hasSession = false) :
    Untouched i st (forward i r tokens matchedLen st) := by
  obtain ⟨-, hses, -⟩ :=
    updateFinishState_kept { r with outputIds := r.outputIds ++ tokens } matchedLen
  unfold forward
  generalize { r with outputIds := r.outputIds ++ tokens }.updateFinishState matchedLen = r₁ at *
  dsimp only at *
  have hset := untouched_modifyReq i st fun _ => r₁
  split
  · have hself := getElem?_modifyReq hr fun _ => r₁
    exact (hset.trans (untouched_releaseKvCache hself (hses.trans hs))).trans (untouched_modifyReq i _ _)
  · exact hset

theorem untouched_abort (i : Nat) (st : State) (r : Req) (message : String) :
    Untouched i st (abort i r message st) := by
  unfold abort
  split <;> exact untouched_modifyReq i st _

theorem untouched_abortQueued (hr : st.reqs[i]? = some r)
    (releases : Bool) (hs : releases = true → r.hasSession = false) :
    Untouched i st (abortQueued i releases st) := by
  unfold abortQueued
  split
  next hrel => exact (untouched_releaseKvCache hr (hs hrel)).trans (untouched_modifyReq i _ _)
  · exact untouched_modifyReq i st _

theorem untouched_retract (hr : st.reqs[i]? = some r)
    (outOfMemory : Bool) (hs : r.hasSession = false) : Untouched i st (retract i outOfMemory st) := by
  refine Untouched.trans (Untouched.trans ?_ (untouched_modifyReq i _ _)) (untouched_modifyReq i _ _)
  cases outOfMemory with
  | true =>
    have hself := getElem?_modifyReq hr fun r => { r with toFinish := some (.abort outOfMemoryMessage) }
    exact (untouched_modifyReq i st _).trans (untouched_releaseKvCache hself hs)
  | false => exact untouched_releaseKvCache hr hs

/-- While a request is pending, an allowed step of a refused request touches no other request. -/
theorem step_untouched (bosTokenId : Option Nat) {e : Event} (hA : Allowed st e)
    (hstep : step bosTokenId st e = some st') (href : OfRefused st e) {q : Req}
    (hq : st.reqs[j]? = some q) (hpend : q.Pending) : ∃ i, j ≠ i ∧ Untouched i st st' := by
  have hleft : ∀ {i r}, st.reqs[i]? = some r → r.accepted = false → st.Clear i → r.hasSession = false := by
    intro i r hr hacc hc
    by_contra hs
    exact hc r hr hacc (by simpa using hs) q (List.mem_of_getElem? hq) hpend
  have hne : ∀ {i r}, st.reqs[i]? = some r → r.accepted = false → j ≠ i := by
    rintro i r hr hacc rfl
    cases hr.symm.trans hq
    exact absurd hpend.1 (by simp [hacc])
  cases e
  case create req =>
    cases hstep
    obtain ⟨message, hm⟩ := Option.ne_none_iff_exists'.1 href
    have hj : j < st.reqs.length := (List.getElem?_eq_some_iff.1 hq).1
    refine ⟨st.reqs.length, hj.ne, ?_⟩
    unfold createReq
    rw [hm]
    refine ⟨rfl, rfl, rfl, ?_⟩
    intro k hk
    rcases Nat.lt_or_ge k st.reqs.length with hlt | hge
    · exact List.getElem?_append_left hlt
    · rw [List.getElem?_eq_none (by simp; omega), List.getElem?_eq_none hge]
  all_goals
    rw [step] at hstep
    obtain ⟨r, hr, hp, rfl⟩ := onReq_eq_some hstep
    have hacc := href r hr
    refine ⟨_, hne hr hacc, ?_⟩
  case attempt => exact untouched_attempt _ _ fun hkv => hleft hr hacc (hA hkv)
  case forward => exact untouched_forward _ _ hr (hleft hr hacc hA)
  case abort => exact untouched_abort _ st r _
  case abortQueued => exact untouched_abortQueued hr _ fun hrel => hleft hr hacc (hA hrel)
  case retract => exact untouched_retract hr _ (hleft hr hacc hA)

/-! ## Main results -/

/-- **At most one active request.** In every run of allowed steps, two active requests are the same one,
    and a step of a refused request changes neither an active request nor the flag, the slot and the
    node of its session. -/
theorem one_active_request (bosTokenId : Option Nat) {st : State}
    (h : Run.Reaches (step bosTokenId) Allowed State.new st) :
    (∀ (i j : Nat) (r r' : Req), st.reqs[i]? = some r → st.reqs[j]? = some r' →
      r.Active → r'.Active → i = j) ∧
    ∀ e st', Allowed st e → step bosTokenId st e = some st' → OfRefused st e →
      ∀ (i : Nat) (r : Req), st.reqs[i]? = some r → r.Active →
        st'.reqs[i]? = some r ∧ st'.inflight = st.inflight ∧ st'.slot = st.slot ∧
          st'.reqNodes = st.reqNodes := by
  have hinv : Exclusive st := h.invariant new_exclusive fun _ _ _ => step_exclusive bosTokenId
  refine ⟨?_, ?_⟩
  · intro i j r r' hr hr' ha ha'
    exact hinv.unique i j r r' hr hr' ha.holds ha'.holds
  · intro e st' hA hstep href i r hr ha
    obtain ⟨k, hk, hun⟩ := step_untouched bosTokenId hA hstep href hr ha.1
    exact ⟨(hun.reqs i hk).trans hr, hun.inflight, hun.slot, hun.reqNodes⟩

def append (rid : String) : TokenizedGenerateReqInput := ⟨rid, [7], 1, ⟨false, false, none⟩⟩

/-- Two turns, a refused request in the second one that is scheduled after it, and a third turn with a
    retraction. -/
def orderlyRun : List Event :=
  [.create (append "a"), .attempt 0 true 4, .forward 0 [8] none,
   .create (append "b"), .create (append "c"), .attempt 1 true 5, .forward 1 [9] none,
   .attempt 2 true 5, .forward 2 [0] none, .create (append "d"), .attempt 3 true 6,
   .retract 3 false, .attempt 3 true 6]

theorem one_active_request_orderly : ∃ st, Run.Reaches (step (some 1)) Allowed State.new st ∧
    (st.reqs.filter fun r => r.Active).length = 1 ∧
    ∀ (i j : Nat) (r r' : Req), st.reqs[i]? = some r → st.reqs[j]? = some r' →
      r.Active → r'.Active → i = j := by
  have hex : ((Run.exec (fun s e => if Allowed s e then step (some 1) s e else none) State.new
      orderlyRun).map fun st => (st.reqs.filter fun r => r.Active).length) = some 1 := by
    decide +kernel
  obtain ⟨st, hst, hone⟩ := Option.map_eq_some_iff.1 hex
  have hrun := Run.reaches_of_exec_guarded hst
  exact ⟨st, hrun, hone, (one_active_request (some 1) hrun).1⟩

/-- **Two active requests.** A refused request that meets the slot clears the flag of the active one, and
    so does a retraction; the next request is accepted in both cases. -/
theorem two_active_requests :
    (∃ st, Run.Reaches (step none) (fun _ _ => True) State.new st ∧
      ∃ r r', st.reqs[1]? = some r ∧ st.reqs[3]? = some r' ∧ r.Active ∧ r'.Active) ∧
    ∃ st, Run.Reaches (step none) (fun _ _ => True) State.new st ∧
      ∃ r r', st.reqs[0]? = some r ∧ st.reqs[1]? = some r' ∧ r.Active ∧ r'.Active := by
  have hrun : ∀ (i j : Nat) (es : List Event),
      ((Run.exec (step none) State.new es).bind fun st => st.reqs[i]?.bind fun r =>
        st.reqs[j]?.map fun r' => decide (r.Active ∧ r'.Active)) = some true →
      ∃ st, Run.Reaches (step none) (fun _ _ => True) State.new st ∧
        ∃ r r', st.reqs[i]? = some r ∧ st.reqs[j]? = some r' ∧ r.Active ∧ r'.Active := by
    intro i j es hes
    obtain ⟨st, hst, hes⟩ := Option.bind_eq_some_iff.1 hes
    obtain ⟨r, hr, hes⟩ := Option.bind_eq_some_iff.1 hes
    obtain ⟨r', hr', hes⟩ := Option.map_eq_some_iff.1 hes
    exact ⟨st, Run.reaches_of_exec hst, r, r', hr, hr', of_decide_eq_true hes⟩
  refine ⟨?_, ?_⟩
  · exact hrun 1 3 [.create (append "a"), .attempt 0 true 4, .forward 0 [8] none,
      .create (append "b"), .create (append "c"), .attempt 2 false 5, .create (append "d")]
      (by decide +kernel)
  · exact hrun 0 1 [.create (append "a"), .attempt 0 true 4, .retract 0 false, .create (append "b")]
      (by decide +kernel)

end Streaming
