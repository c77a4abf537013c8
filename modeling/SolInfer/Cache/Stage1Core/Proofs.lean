import SolInfer.Cache.Stage1Core

set_option autoImplicit false

/-! # Runs of the stage-1 controller are safe

Seven methods decide in different ways, but all of them pass the same guards first, and all of them keep
the last two outputs. What a run promises depends on that part of the state only. -/

namespace Stage1

variable {T F : Type} {s : State T F} {history : List (Record T)} {last : T}

/-! ## The part of the state that counts -/

/-- The counters and the last two outputs. -/
structure Core (T : Type) where
  totalCalls : Int
  realCalls : Int
  skippedCalls : Int
  skippedInARow : Int
  lastVideoOutput : Option T
  lastAudioOutput : Option T
  previousVideoOutput : Option T
  previousAudioOutput : Option T

def State.core (s : State T F) : Core T :=
  ⟨s.totalCalls, s.realCalls, s.skippedCalls, s.skippedInARow, s.lastVideoOutput, s.lastAudioOutput,
    s.previousVideoOutput, s.previousAudioOutput⟩

/-- A call is counted before anything else. -/
def State.counted (s : State T F) : State T F := { s with totalCalls := s.totalCalls + 1 }

theorem core_teacacheSkip [Add F] [Sub F] [Mul F] [LT F] [DecidableLT F] [OfScientific F] [Pow F Nat]
    (ops : TensorOps T F) (c : Controller F) (s : State T F) (x : T) :
    (teacacheSkip ops c s x).2.core = s.core := by
  unfold teacacheSkip
  split <;> rfl

theorem core_easycacheSkip [Add F] [Mul F] [Div F] [LT F] [DecidableLT F] [OfScientific F]
    (ops : TensorOps T F) (c : Controller F) (s : State T F) (x : T) :
    (easycacheSkip ops c s x).2.core = s.core := by
  unfold easycacheSkip
  split <;> rfl

theorem canSkipCommon_spec [Div F] [LT F] [LE F] [DecidableLT F] [DecidableLE F] [OfScientific F]
    [IntCast F] {c : Controller F} (h : canSkipCommon c s = true) :
    1 < s.totalCalls ∧ s.totalCalls < c.expectedCalls ∧ s.skippedInARow < c.params.maxSkipSteps ∧
      s.lastVideoOutput.isSome = true := by
  unfold canSkipCommon at h
  split at h
  · cases h
  split at h
  · cases h
  split at h
  · cases h
  split at h
  · cases h
  next hfirst hexpected _ hstreak =>
    exact ⟨not_le.1 hfirst, not_le.1 hexpected, not_le.1 hstreak, h⟩

/-! ## Reusing -/

section

variable [Sub F] [LT F] [DecidableLT F] [OfScientific F] [Add T] [Sub T] [SMul F T] {c : Controller F}
  (hlast : s.lastVideoOutput = some last) (videoX : T) (audioX : Option T)
include hlast

/-- With a last output, nothing that is not set is read. -/
theorem reused_ok : ∃ outputs, reused c s videoX audioX = .ok outputs := by
  unfold reused
  split
  · exact ⟨_, by rw [blended, hlast]; rfl⟩
  split
  · exact ⟨_, by rw [extrapolated, hlast]; rfl⟩
  split
  · exact ⟨_, rfl⟩
  split
  · exact ⟨_, rfl⟩
  · exact ⟨_, by rw [repeated, hlast]; rfl⟩

theorem reused_last (hmode : c.isLast = true) :
    reused c s videoX audioX = .ok ⟨last, if audioX.isSome then s.lastAudioOutput else none⟩ := by
  have hblend : c.fixedMode ≠ some .blendEmaLast := by
    intro h
    simp [Controller.isLast, h] at hmode
    rcases hmode with hm | hm <;> simp [Controller.fixedMode, hm] at h
  have hdelta : c.isDelta = false := by
    unfold Controller.isDelta Controller.isLast Controller.fixedMode at *
    grind
  have hema : c.isEma = false := by
    unfold Controller.isEma Controller.isLast Controller.fixedMode at *
    grind
  have hresidual : c.isResidual = false := by
    unfold Controller.isResidual Controller.isLast Controller.fixedMode at *
    grind
  simp only [reused, hblend, hdelta, hema, hresidual, if_false, Bool.false_eq_true]
  rw [repeated, hlast]
  rfl

theorem reused_delta (hmode : c.isDelta = true) :
    reused c s videoX audioX =
      match s.previousVideoOutput with
      | some previous => .ok ⟨last + c.params.deltaScale • (last - previous),
          if audioX.isSome then extrapolatedAudio c s.lastAudioOutput s.previousAudioOutput else none⟩
      | none => .ok ⟨last, if audioX.isSome then s.lastAudioOutput else none⟩ := by
  have hblend : c.fixedMode ≠ some .blendEmaLast := by
    unfold Controller.isDelta Controller.fixedMode at *
    grind
  have hema : c.isEma = false := by
    unfold Controller.isEma Controller.isDelta Controller.fixedMode at *
    grind
  have hresidual : c.isResidual = false := by
    unfold Controller.isResidual Controller.isDelta Controller.fixedMode at *
    grind
  simp only [reused, hblend, hmode, hema, hresidual, if_false, if_true, Bool.false_eq_true]
  cases s.previousVideoOutput with
  | none =>
    simp only [repeated, hlast]
    rfl
  | some previous =>
    simp only [extrapolated, hlast]
    cases audioX with
    | none => rfl
    | some audioX =>
      cases s.lastAudioOutput with
      | none => rfl
      | some lastAudio => cases s.previousAudioOutput <;> rfl

end

/-! ## Updating -/

theorem core_updateEma [Sub F] [OfScientific F] [Add T] [SMul F T] (c : Controller F) (s : State T F)
    (videoOutput : T) (audioOutput : Option T) :
    (updateEma c s videoOutput audioOutput).core = s.core := by
  unfold updateEma
  split <;> rfl

theorem core_updateDiff [Div F] [LT F] [DecidableLT F] [OfScientific F] [Sub T] (ops : TensorOps T F)
    (c : Controller F) (s : State T F) (hadOutput : Bool) (videoX : T) (audioX : Option T)
    (videoOutput : T) (audioOutput : Option T) :
    (updateDiff ops c s hadOutput videoX audioX videoOutput audioOutput).core = s.core := by
  unfold updateDiff
  split
  · simp only
    split <;> split <;> rfl
  · rfl

theorem core_update [Sub F] [Div F] [LT F] [DecidableLT F] [OfScientific F] [Add T] [Sub T] [SMul F T]
    (ops : TensorOps T F) (c : Controller F) (s : State T F) (videoX : T)
    (audioX videoOutput audioOutput : Option T) :
    (update ops c s videoX audioX videoOutput audioOutput).core =
      match videoOutput with
      | none => { s.core with realCalls := s.realCalls + 1, skippedInARow := 0 }
      | some videoOutput =>
        ⟨s.totalCalls, s.realCalls + 1, s.skippedCalls, 0, some videoOutput, audioOutput,
          s.lastVideoOutput, s.lastAudioOutput⟩ := by
  cases videoOutput with
  | none => rfl
  | some videoOutput =>
    have hcore : (updateDiff ops c (updateEma c (updateLast { s with realCalls := s.realCalls + 1 }
        videoX videoOutput audioOutput) videoOutput audioOutput) s.lastVideoOutput.isSome videoX
        audioX videoOutput audioOutput).core =
        (updateLast { s with realCalls := s.realCalls + 1 } videoX videoOutput audioOutput).core := by
      rw [core_updateDiff, core_updateEma]
    have hreset (s s' : State T F) (h : s.core = s'.core) :
        ({ s with skippedInARow := 0 } : State T F).core = { s'.core with skippedInARow := 0 } := by
      rw [← h]
      rfl
    exact hreset _ _ hcore

/-! ## Histories -/

theorem produced_cons_skipped {r : Record T} (h : r.isSkipped = true) (history : List (Record T)) :
    produced (r :: history) = produced history := by
  simp [produced, h]

theorem produced_cons_computed {x : Call T} (history : List (Record T)) :
    produced (⟨x, none⟩ :: history) =
      (match x.videoOutput with
      | some video => [⟨video, x.audioOutput⟩]
      | none => []) ++ produced history := by
  cases h : x.videoOutput <;> simp [produced, Record.isSkipped, h]

/-- What the state knows about the history. -/
structure Tracks (k : Core T) (history : List (Record T)) : Prop where
  total : k.totalCalls = history.length
  counts : k.totalCalls = k.realCalls + k.skippedCalls
  streak : k.skippedInARow = (history.takeWhile Record.isSkipped).length
  lastVideo : k.lastVideoOutput = (produced history).head?.map Outputs.video
  lastAudio : k.lastAudioOutput = (produced history).head?.bind Outputs.audio
  previousVideo : k.previousVideoOutput = (produced history)[1]?.map Outputs.video
  previousAudio : k.previousAudioOutput = (produced history)[1]?.bind Outputs.audio

theorem tracks_new [OfScientific F] : Tracks (State.new : State T F).core [] :=
  ⟨rfl, rfl, rfl, rfl, rfl, rfl, rfl⟩

section

variable {s' : State T F} (h : Tracks s.core history) (hs' : s'.core = s.counted.core)
include h hs'

theorem Tracks.skipped {r : Record T} (hr : r.isSkipped = true) :
    Tracks s'.skipping.core (r :: history) := by
  have htotal : s'.totalCalls = s.totalCalls + 1 := congrArg Core.totalCalls hs'
  have hreal : s'.realCalls = s.realCalls := congrArg Core.realCalls hs'
  have hskipped : s'.skippedCalls = s.skippedCalls := congrArg Core.skippedCalls hs'
  have hrow : s'.skippedInARow = s.skippedInARow := congrArg Core.skippedInARow hs'
  have hlength : s.totalCalls = history.length := h.total
  have hcounts : s.totalCalls = s.realCalls + s.skippedCalls := h.counts
  have hstreak : s.skippedInARow = (history.takeWhile Record.isSkipped).length := h.streak
  refine ⟨?_, ?_, ?_, ?_, ?_, ?_, ?_⟩
  · show s'.totalCalls = _
    simp [htotal, hlength]
  · show s'.totalCalls = s'.realCalls + (s'.skippedCalls + 1)
    omega
  · show s'.skippedInARow + 1 = _
    rw [List.takeWhile_cons, if_pos hr, hrow, hstreak]
    simp
  all_goals rw [produced_cons_skipped hr]
  · exact (congrArg Core.lastVideoOutput hs').trans h.lastVideo
  · exact (congrArg Core.lastAudioOutput hs').trans h.lastAudio
  · exact (congrArg Core.previousVideoOutput hs').trans h.previousVideo
  · exact (congrArg Core.previousAudioOutput hs').trans h.previousAudio

variable [Sub F] [Div F] [LT F] [DecidableLT F] [OfScientific F] [Add T] [Sub T] [SMul F T]

theorem Tracks.computed (ops : TensorOps T F) (c : Controller F) (x : Call T) :
    Tracks (update ops c s' x.videoX x.audioX x.videoOutput x.audioOutput).core
      (⟨x, none⟩ :: history) := by
  have htotal : s'.totalCalls = s.totalCalls + 1 := congrArg Core.totalCalls hs'
  have hreal : s'.realCalls = s.realCalls := congrArg Core.realCalls hs'
  have hskipped : s'.skippedCalls = s.skippedCalls := congrArg Core.skippedCalls hs'
  have hlength : s.totalCalls = history.length := h.total
  have hcounts : s.totalCalls = s.realCalls + s.skippedCalls := h.counts
  rw [core_update]
  cases hvideo : x.videoOutput with
  | none =>
    have hproduced : produced (⟨x, none⟩ :: history) = produced history := by
      rw [produced_cons_computed, hvideo]
      rfl
    rw [hs']
    refine ⟨?_, ?_, rfl, ?_, ?_, ?_, ?_⟩
    · simp [State.counted, State.core, hlength]
    · show s.totalCalls + 1 = s'.realCalls + 1 + s.skippedCalls
      omega
    all_goals rw [hproduced]
    · exact h.lastVideo
    · exact h.lastAudio
    · exact h.previousVideo
    · exact h.previousAudio
  | some video =>
    have hproduced : produced (⟨x, none⟩ :: history) = ⟨video, x.audioOutput⟩ :: produced history := by
      rw [produced_cons_computed, hvideo]
      rfl
    refine ⟨?_, ?_, rfl, ?_, ?_, ?_, ?_⟩
    · simp [htotal, hlength]
    · show s'.totalCalls = s'.realCalls + 1 + s'.skippedCalls
      omega
    all_goals rw [hproduced]
    · rfl
    · rfl
    · show s'.lastVideoOutput = _
      rw [show s'.lastVideoOutput = s.lastVideoOutput from congrArg Core.lastVideoOutput hs',
        show s.lastVideoOutput = _ from h.lastVideo, List.head?_eq_getElem?]
      rfl
    · show s'.lastAudioOutput = _
      rw [show s'.lastAudioOutput = s.lastAudioOutput from congrArg Core.lastAudioOutput hs',
        show s.lastAudioOutput = _ from h.lastAudio, List.head?_eq_getElem?]
      rfl

variable [LE F] [DecidableLE F] [IntCast F] {c : Controller F}

theorem Tracks.safe (hguard : canSkipCommon c s.counted = true) (x : Call T) :
    ∃ outputs, reused c s' x.videoX x.audioX = .ok outputs ∧ Safe c x outputs history := by
  obtain ⟨hfirst, hexpected, hstreak, hsome⟩ := canSkipCommon_spec hguard
  have hlength : s.totalCalls = history.length := h.total
  have hlast : s'.lastVideoOutput = (produced history).head?.map Outputs.video :=
    (congrArg Core.lastVideoOutput hs').trans h.lastVideo
  have hlastAudio : s'.lastAudioOutput = (produced history).head?.bind Outputs.audio :=
    (congrArg Core.lastAudioOutput hs').trans h.lastAudio
  have hprevious : s'.previousVideoOutput = (produced history)[1]?.map Outputs.video :=
    (congrArg Core.previousVideoOutput hs').trans h.previousVideo
  have hpreviousAudio : s'.previousAudioOutput = (produced history)[1]?.bind Outputs.audio :=
    (congrArg Core.previousAudioOutput hs').trans h.previousAudio
  have hcounted : s.counted.totalCalls = history.length + 1 := by
    show s.totalCalls + 1 = _
    omega
  have hrow : s.counted.skippedInARow = (history.takeWhile Record.isSkipped).length := h.streak
  -- the guards have seen a last output
  obtain ⟨o, rest, hproduced⟩ : ∃ o rest, produced history = o :: rest := by
    have hcount : s.counted.lastVideoOutput = (produced history).head?.map Outputs.video := h.lastVideo
    cases hp : produced history with
    | nil =>
      rw [hcount, hp] at hsome
      cases hsome
    | cons o rest => exact ⟨o, rest, rfl⟩
  rw [hproduced] at hlast hlastAudio hprevious hpreviousAudio
  obtain ⟨outputs, houtputs⟩ := reused_ok (c := c) hlast x.videoX x.audioX
  refine ⟨outputs, houtputs, ⟨by omega, by omega⟩, by omega, by simp [hproduced], ?_, ?_, ?_⟩
  · intro hmode o' ho'
    rw [hproduced] at ho'
    cases ho'
    rw [reused_last hlast _ _ hmode, hlastAudio] at houtputs
    exact (Except.ok.inj houtputs).symm
  · intro hmode o' p rest' hp
    rw [hproduced] at hp
    cases hp
    rw [reused_delta hlast _ _ hmode, hprevious, hlastAudio, hpreviousAudio] at houtputs
    exact (Except.ok.inj houtputs).symm
  · intro hmode o' hp
    rw [hproduced] at hp
    cases hp
    rw [reused_delta hlast _ _ hmode, hprevious, hlastAudio] at houtputs
    exact (Except.ok.inj houtputs).symm

end

/-! ## The controller -/

variable [Add F] [Sub F] [Mul F] [Div F] [LT F] [LE F] [DecidableLT F] [DecidableLE F] [OfScientific F]
  [IntCast F] [Pow F Nat] {c : Controller F}

/-- **The decision** passes the guards, and counts the call. -/
theorem shouldSkip_spec (ops : TensorOps T F)
    (hmethod : ∀ name, c.method ≠ .unknown name) (s : State T F) (x : T) :
    ∃ skip s', shouldSkip ops c s x = .ok (skip, s') ∧ s'.core = s.counted.core ∧
      (skip = true → canSkipCommon c s.counted = true) := by
  unfold shouldSkip
  by_cases hguard : canSkipCommon c s.counted = true
  · have hnot : ¬ ¬ canSkipCommon c { s with totalCalls := s.totalCalls + 1 } = true :=
      not_not.2 hguard
    simp only [if_neg hnot]
    cases hm : c.method with
    | fixedskip => exact ⟨_, _, rfl, rfl, fun _ => hguard⟩
    | periodic => exact ⟨_, _, rfl, rfl, fun _ => hguard⟩
    | delta => exact ⟨_, _, rfl, rfl, fun _ => hguard⟩
    | ema => exact ⟨_, _, rfl, rfl, fun _ => hguard⟩
    | similarity => exact ⟨_, _, rfl, rfl, fun _ => hguard⟩
    | teacache => exact ⟨_, _, rfl, core_teacacheSkip ops c _ x, fun _ => hguard⟩
    | easycache => exact ⟨_, _, rfl, core_easycacheSkip ops c _ x, fun _ => hguard⟩
    | lazycache => exact ⟨_, _, rfl, core_easycacheSkip ops c _ x, fun _ => hguard⟩
    | unknown name => exact absurd hm (hmethod name)
  · have hnot : ¬ canSkipCommon c { s with totalCalls := s.totalCalls + 1 } = true := hguard
    simp only [if_pos hnot]
    exact ⟨_, _, rfl, rfl, fun h => nomatch h⟩

variable [Add T] [Sub T] [SMul F T]

theorem step_spec (ops : TensorOps T F) (hmethod : ∀ name, c.method ≠ .unknown name)
    (h : Tracks s.core history) (x : Call T) :
    ∃ r s', step ops c s x = .ok (r, s') ∧ r.call = x ∧
      (∀ outputs, r.reused = some outputs → Safe c x outputs history) ∧
      Tracks s'.core (r :: history) := by
  obtain ⟨skip, s₁, hdecide, hs₁, hguard⟩ := shouldSkip_spec ops hmethod s x.x
  unfold step
  rw [hdecide]
  cases skip with
  | false =>
    refine ⟨_, _, rfl, rfl, ?_, h.computed hs₁ ops c x⟩
    rintro outputs ⟨⟩
  | true =>
    obtain ⟨outputs, houtputs, hsafe⟩ := h.safe hs₁ (hguard rfl) x
    have hcached : cachedOutputs c s₁ x.videoX x.audioX = .ok (outputs, s₁.skipping) := by
      -- the counters are not read
      have hsame : reused c s₁.skipping x.videoX x.audioX = reused c s₁ x.videoX x.audioX := rfl
      rw [cachedOutputs, hsame, houtputs]
      rfl
    refine ⟨⟨x, some outputs⟩, s₁.skipping, ?_, rfl, ?_, h.skipped hs₁ rfl⟩
    · exact Except.bind_eq_ok.2 ⟨_, rfl, Except.bind_eq_ok.2 ⟨(outputs, s₁.skipping), hcached, rfl⟩⟩
    · rintro _ ⟨⟩
      exact hsafe

/-- **Runs of the controller are safe**: in every state that a run reaches the counters add up, no call
    raises, and the outputs that replace a skipped call are those of the last computed calls that had a
    video output. -/
theorem step_safe (ops : TensorOps T F) {c : Controller F}
    (hmethod : ∀ name, c.method ≠ .unknown name) {s : State T F × List (Record T)}
    (h : Run.Reaches (logStep ops c) (fun _ _ => True) (State.new, []) s) :
    s.1.totalCalls = s.1.realCalls + s.1.skippedCalls ∧
      ∀ x, ∃ r s', step ops c s.1 x = .ok (r, s') ∧ r.call = x ∧
        ∀ outputs, r.reused = some outputs → Safe c x outputs s.2 := by
  have htracks : Tracks s.1.core s.2 := by
    refine h.invariant (I := fun s => Tracks s.1.core s.2) tracks_new ?_
    rintro ⟨s, history⟩ x s' htracks - hstep
    obtain ⟨r, s₁, hok, -, -, htracks'⟩ := step_spec ops hmethod htracks x
    simp only [logStep, hok, Option.some.injEq] at hstep
    rw [← hstep]
    exact htracks'
  refine ⟨htracks.counts, fun x => ?_⟩
  obtain ⟨r, s', hok, hcall, hsafe, -⟩ := step_spec ops hmethod htracks x
  exact ⟨r, s', hok, hcall, hsafe⟩

/-! ## Two runs -/

def numberOps : TensorOps ℚ ℚ where
  subsample := fun _ x => x
  meanAbs := fun x => |x|
  meanAbsDiff := fun x y => |x - y|
  relChange := fun x y => |x - y| / max |y| 0.000001
  abs := fun x => |x|

def numberCall (x : ℚ) (videoOutput : Option ℚ) : Call ℚ := ⟨x, x, none, videoOutput, none⟩

/-- The third of ten calls is skipped, and gets the last output. -/
def skipThird : Controller ℚ := ⟨.fixedskip, { skipIndices := [2] }, 10⟩

/-- After two computed calls, whatever comes next is safe. -/
theorem step_safe_third_call :
    ∃ s, Run.Reaches (logStep numberOps skipThird) (fun _ _ => True) (State.new, []) s ∧
      s.2 = [⟨numberCall 2 (some 20), none⟩, ⟨numberCall 1 (some 10), none⟩] ∧
      s.1.totalCalls = s.1.realCalls + s.1.skippedCalls ∧
      ∀ x, ∃ r s', step numberOps skipThird s.1 x = .ok (r, s') ∧ r.call = x ∧
        ∀ outputs, r.reused = some outputs → Safe skipThird x outputs s.2 := by
  obtain ⟨s, hexec, hhistory⟩ : ∃ s, Run.exec (logStep numberOps skipThird) (State.new, [])
      [numberCall 1 (some 10), numberCall 2 (some 20)] = some s ∧
      s.2 = [⟨numberCall 2 (some 20), none⟩, ⟨numberCall 1 (some 10), none⟩] :=
    Option.map_eq_some_iff.1 (by decide +kernel)
  have hreaches := Run.reaches_of_exec hexec
  exact ⟨s, hreaches, hhistory, step_safe numberOps (by simp [skipThird]) hreaches⟩

/-- When the last computed call had no video output, a skipped call gets an older one. -/
theorem reused_not_last_computed :
    skipThird.isLast = true ∧
    ∃ s, Run.Reaches (logStep numberOps skipThird) (fun _ _ => True) (State.new, []) s ∧
      s.2 = [⟨numberCall 3 none, some ⟨10, none⟩⟩, ⟨numberCall 2 none, none⟩,
        ⟨numberCall 1 (some 10), none⟩] ∧
      ¬ ∀ outputs ∈ s.2.head?.bind Record.reused, ∀ r ∈ (computed s.2).head?,
        some outputs.video = r.call.videoOutput := by
  refine ⟨by decide, ?_⟩
  obtain ⟨s, hexec, hhistory⟩ : ∃ s, Run.exec (logStep numberOps skipThird) (State.new, [])
      [numberCall 1 (some 10), numberCall 2 none, numberCall 3 none] = some s ∧
      s.2 = [⟨numberCall 3 none, some ⟨10, none⟩⟩, ⟨numberCall 2 none, none⟩,
        ⟨numberCall 1 (some 10), none⟩] :=
    Option.map_eq_some_iff.1 (by decide +kernel)
  refine ⟨s, Run.reaches_of_exec hexec, hhistory, ?_⟩
  rw [hhistory]
  intro hlast
  exact absurd (hlast ⟨10, none⟩ rfl ⟨numberCall 2 none, none⟩ rfl) (by decide)

end Stage1
