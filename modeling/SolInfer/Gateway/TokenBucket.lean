import SolInfer.Lib.Run

set_option autoImplicit false

/-! # The token bucket as a concurrency limiter

`core/token_bucket.rs` of the gateway with refill rate 0, where tokens come back by `return_tokens_sync` only.
Tasks interleave between their lock sections and the operations of `Notify`: a failed attempt of `acquire` and
the creation of its `Notified` future are two steps, and so are a refund and its `notify_waiters`, which wakes
the futures that exist. -/

open List

namespace Gateway.TokenBucket

/-- Where a task stands; the number is what its `acquire` asks for. -/
inductive Phase where
  | idle
  /-- The attempt has failed; the next step is `notified()`. -/
  | failed (tokens : ℚ≥0)
  | parked (tokens : ℚ≥0)
  | woken (tokens : ℚ≥0)
  /-- In `return_tokens_sync`, before `notify_waiters`. -/
  | refunded
deriving DecidableEq

def Phase.wanted : Phase → Option ℚ≥0
  | .failed tokens => some tokens
  | _ => none

structure Task where
  held : ℚ≥0
  phase : Phase
deriving DecidableEq

structure State where
  tokens : ℚ
  tasks : List Task
deriving DecidableEq

variable (capacity : ℚ)

def State.new (n : Nat) : State := ⟨capacity, replicate n ⟨0, .idle⟩⟩

/-- `try_acquire_sync`; nothing is refilled. -/
def tryAcquireSync (available : ℚ) (tokens : ℚ≥0) : Bool × ℚ :=
  let available := min available capacity
  if tokens ≤ available then (true, available - tokens) else (false, available)

/-- An attempt of task `i` that goes on in the given phase if it fails. -/
def State.attempt (s : State) (i : Nat) (task : Task) (tokens : ℚ≥0) (otherwise : Phase) : State :=
  let (ok, available) := tryAcquireSync capacity s.tokens tokens
  ⟨available, s.tasks.set i (if ok then ⟨task.held + tokens, .idle⟩ else { task with phase := otherwise })⟩

/-- `notify_waiters`. -/
def Task.wake (task : Task) : Task :=
  match task.phase with
  | .parked tokens => { task with phase := .woken tokens }
  | _ => task

/-- `acquire` is the first attempt of `acquire` or, when it does not wait, of `try_acquire`. -/
inductive Event where
  | acquire (i : Nat) (tokens : ℚ≥0) (waits : Bool)
  | notified (i : Nat)
  | retry (i : Nat)
  | refund (i : Nat) (tokens : ℚ≥0)
  | notifyWaiters (i : Nat)

/-- A step of a task. A task asks for at most the capacity and returns what it holds. -/
def step (s : State) : Event → Option State
  | .acquire i tokens waits => s.tasks[i]?.bind fun task =>
    if task.phase = .idle ∧ 0 < tokens ∧ tokens ≤ capacity then
      some (s.attempt capacity i task tokens (if waits then .failed tokens else .idle))
    else none
  | .notified i => s.tasks[i]?.bind fun task => task.phase.wanted.map fun tokens =>
    { s with tasks := s.tasks.set i { task with phase := .parked tokens } }
  | .retry i => s.tasks[i]?.bind fun task =>
    match task.phase with
    | .woken tokens => some (s.attempt capacity i task tokens (.failed tokens))
    | _ => none
  | .refund i tokens => s.tasks[i]?.bind fun task =>
    if task.phase = .idle ∧ tokens ≤ task.held then
      some ⟨min (s.tokens + tokens) capacity, s.tasks.set i ⟨task.held - tokens, .refunded⟩⟩
    else none
  | .notifyWaiters i => s.tasks[i]?.bind fun task =>
    if task.phase = .refunded then
      some { s with tasks := (s.tasks.set i { task with phase := .idle }).map Task.wake }
    else none

/-- A future is created only where the attempt would still fail, or a notification is to come. -/
def Allowed (s : State) : Event → Prop
  | .notified i => ∀ task ∈ s.tasks[i]?, ∀ tokens ∈ task.phase.wanted,
    s.tokens < tokens ∨ ∃ task ∈ s.tasks, task.phase = .refunded
  | _ => True

instance (s : State) (e : Event) : Decidable (Allowed s e) := by
  unfold Allowed
  split <;> infer_instance

/-! ## Invariants -/

/-- What the tasks hold and what is available is the capacity. -/
def Conserves (s : State) : Prop := s.tokens + (s.tasks.map fun task => (task.held : ℚ)).sum = capacity

/-- A parked task asks for more than is available, or a notification is to come. -/
def Attended (s : State) : Prop :=
  ∀ task ∈ s.tasks, ∀ tokens, task.phase = .parked tokens →
    s.tokens < tokens ∨ ∃ task ∈ s.tasks, task.phase = .refunded

variable {capacity} {s s' : State} {i : Nat} {e : Event} {task task' : Task} {available : ℚ}

/-- What a step does to its task: an attempt, a new future, a refund or a notification. -/
theorem step_cases (hstep : step capacity s e = some s') : ∃ i task, s.tasks[i]? = some task ∧
    ((∃ tokens otherwise, s' = s.attempt capacity i task tokens otherwise ∧ task.phase ≠ .refunded ∧
        ∀ t, otherwise ≠ .parked t) ∨
      (∃ tokens, e = .notified i ∧ task.phase.wanted = some tokens ∧
        s' = { s with tasks := s.tasks.set i { task with phase := .parked tokens } }) ∨
      (∃ tokens ≤ task.held,
        s' = ⟨min (s.tokens + tokens) capacity, s.tasks.set i ⟨task.held - tokens, .refunded⟩⟩) ∨
      s' = { s with tasks := (s.tasks.set i { task with phase := .idle }).map Task.wake }) := by
  cases e with
  | acquire i tokens waits =>
    obtain ⟨task, hi, hstep⟩ := Option.bind_eq_some_iff.1 hstep
    obtain ⟨⟨hp, -⟩, hstep⟩ := Option.ite_none_right_eq_some.1 hstep
    refine ⟨i, task, hi, .inl ⟨tokens, _, (Option.some.inj hstep).symm, by simp [hp], fun t => ?_⟩⟩
    split <;> simp
  | notified i =>
    obtain ⟨task, hi, hstep⟩ := Option.bind_eq_some_iff.1 hstep
    obtain ⟨tokens, hp, rfl⟩ := Option.map_eq_some_iff.1 hstep
    exact ⟨i, task, hi, .inr (.inl ⟨tokens, rfl, hp, rfl⟩)⟩
  | retry i =>
    obtain ⟨task, hi, hstep⟩ := Option.bind_eq_some_iff.1 hstep
    split at hstep
    next tokens hp =>
      exact ⟨i, task, hi, .inl ⟨tokens, _, (Option.some.inj hstep).symm, by simp [hp], by simp⟩⟩
    · cases hstep
  | refund i tokens =>
    obtain ⟨task, hi, hstep⟩ := Option.bind_eq_some_iff.1 hstep
    obtain ⟨⟨-, hle⟩, hstep⟩ := Option.ite_none_right_eq_some.1 hstep
    exact ⟨i, task, hi, .inr (.inr (.inl ⟨tokens, hle, (Option.some.inj hstep).symm⟩))⟩
  | notifyWaiters i =>
    obtain ⟨task, hi, hstep⟩ := Option.bind_eq_some_iff.1 hstep
    obtain ⟨-, hstep⟩ := Option.ite_none_right_eq_some.1 hstep
    exact ⟨i, task, hi, .inr (.inr (.inr (Option.some.inj hstep).symm))⟩

theorem attempt_cases (s : State) (i : Nat) (task : Task) (tokens : ℚ≥0) (otherwise : Phase) :
    s.attempt capacity i task tokens otherwise =
        ⟨min s.tokens capacity - tokens, s.tasks.set i ⟨task.held + tokens, .idle⟩⟩ ∨
      s.attempt capacity i task tokens otherwise =
        ⟨min s.tokens capacity, s.tasks.set i { task with phase := otherwise }⟩ := by
  unfold State.attempt tryAcquireSync
  dsimp only
  split
  · exact .inl rfl
  · exact .inr rfl

theorem Conserves.set (h : Conserves capacity s) (hi : s.tasks[i]? = some task)
    (hsum : available + task'.held = s.tokens + task.held) :
    Conserves capacity ⟨available, s.tasks.set i task'⟩ := by
  obtain ⟨hlt, rfl⟩ := List.getElem?_eq_some_iff.1 hi
  unfold Conserves at h ⊢
  rw [map_set, sum_set', dif_pos (by simpa using hlt), getElem_map]
  linarith

theorem Conserves.held_le (h : Conserves capacity s) (hi : s.tasks[i]? = some task) :
    s.tokens + task.held ≤ capacity := by
  have hmem := mem_map_of_mem (f := fun task => (task.held : ℚ)) (mem_of_getElem? hi)
  have hle := single_le_sum (fun x hx => by obtain ⟨y, -, rfl⟩ := mem_map.1 hx; exact y.held.2) _ hmem
  rw [← h]
  linarith

/-- **No token is lost or made.** -/
theorem step_conserves (h : Conserves capacity s) (hstep : step capacity s e = some s') :
    Conserves capacity s' := by
  obtain ⟨i, task, hi, hcases⟩ := step_cases hstep
  have hcap := h.held_le hi
  have hheld : (0 : ℚ) ≤ task.held := task.held.2
  rcases hcases with ⟨tokens, otherwise, rfl, -⟩ | ⟨tokens, -, -, rfl⟩ | ⟨tokens, hle, rfl⟩ | rfl
  · have hmin : min s.tokens capacity = s.tokens := min_eq_left (by linarith)
    rcases attempt_cases s i task tokens otherwise with heq | heq
    · rw [heq, hmin]
      exact h.set hi (by push_cast; ring)
    · rw [heq, hmin]
      exact h.set hi rfl
  · exact h.set hi rfl
  · have hcast : (tokens : ℚ) ≤ task.held := NNRat.coe_le_coe.2 hle
    rw [min_eq_left (by linarith)]
    exact h.set hi (by rw [NNRat.coe_sub hle]; ring)
  · have hset : Conserves capacity { s with tasks := s.tasks.set i { task with phase := .idle } } := h.set hi rfl
    have hwake : Task.wake = fun (task : Task) => ⟨task.held, task.wake.phase⟩ := by
      funext task
      unfold Task.wake
      split <;> rfl
    unfold Conserves at hset ⊢
    rw [map_map, hwake]
    exact hset

theorem Attended.set (h : Attended s) (hi : s.tasks[i]? = some task) (hp : task.phase ≠ .refunded)
    (hle : available ≤ s.tokens) (hnew : ∀ tokens, task'.phase = .parked tokens →
      s.tokens < tokens ∨ ∃ task ∈ s.tasks, task.phase = .refunded) :
    Attended ⟨available, s.tasks.set i task'⟩ := by
  -- a notification to come is not the task's own
  have hkeep : (∃ task ∈ s.tasks, task.phase = .refunded) →
      ∃ task ∈ s.tasks.set i task', task.phase = .refunded := by
    rintro ⟨x, hx, hphase⟩
    obtain ⟨j, hj⟩ := mem_iff_getElem?.1 hx
    refine ⟨x, mem_of_getElem? (i := j) ?_, hphase⟩
    rw [getElem?_set_ne, hj]
    rintro rfl
    cases hi.symm.trans hj
    exact hp hphase
  intro x hx tokens hphase
  exact (Run.forall_mem_set h hnew i x hx tokens hphase).imp hle.trans_lt hkeep

theorem step_attended (h : Attended s) (hA : Allowed s e) (hstep : step capacity s e = some s') :
    Attended s' := by
  obtain ⟨i, task, hi, hcases⟩ := step_cases hstep
  rcases hcases with ⟨tokens, otherwise, rfl, hp, hnot⟩ | ⟨tokens, rfl, hp, rfl⟩ | ⟨tokens, -, rfl⟩ | rfl
  · have hmin := min_le_left s.tokens capacity
    have htokens : (0 : ℚ) ≤ tokens := tokens.2
    rcases attempt_cases s i task tokens otherwise with heq | heq
    · rw [heq]
      exact h.set hi hp (by linarith) (by simp)
    · rw [heq]
      exact h.set hi hp hmin fun t ht => absurd ht (hnot t)
  · refine h.set hi (fun heq => ?_) le_rfl fun t ht => ?_
    · rw [heq] at hp
      cases hp
    · cases ht
      exact hA task hi tokens hp
  · -- the notification is to come
    intro x _ _ _
    refine .inr ⟨_, mem_set (List.getElem?_eq_some_iff.1 hi).1 _, rfl⟩
  · -- no future is left
    intro x hx tokens hphase
    obtain ⟨y, -, rfl⟩ := mem_map.1 hx
    unfold Task.wake at hphase
    split at hphase
    · cases hphase
    next hnot => exact absurd hphase (hnot tokens)

/-! ## Runs -/

/-- **No task is parked beside enough tokens.** In every run what is held and what is available is the
    capacity. If futures are created only where they can be of use, then whenever every task in `acquire` is
    parked and no refund is under way, every parked task asks for more than is available. -/
theorem parked_beside_too_few {n : Nat} (h : Run.Reaches (step capacity) Allowed (State.new capacity n) s) :
    (∀ s, Run.Reaches (step capacity) (fun _ _ => True) (State.new capacity n) s → Conserves capacity s) ∧
      ((∀ task ∈ s.tasks, task.phase = .idle ∨ ∃ tokens, task.phase = .parked tokens) →
        ∀ task ∈ s.tasks, ∀ tokens, task.phase = .parked tokens → s.tokens < tokens) := by
  have hnew : Conserves capacity (State.new capacity n) := by simp [Conserves, State.new]
  refine ⟨fun s h => h.invariant hnew fun _ _ _ hs _ => step_conserves hs,
    fun hrest task hmem tokens hphase => ?_⟩
  have hatt : Attended s := h.invariant (by simp [Attended, State.new]) fun _ _ _ => step_attended
  refine (hatt task hmem tokens hphase).resolve_right ?_
  rintro ⟨x, hx, hrefunded⟩
  rcases hrest x hx with hidle | ⟨t, hparked⟩
  · rw [hrefunded] at hidle
    cases hidle
  · rw [hrefunded] at hparked
    cases hparked

theorem parked_beside_too_few_two_tasks : ∃ s : State, s.tasks = [⟨1, .idle⟩, ⟨0, .parked 1⟩] ∧
    ∀ task ∈ s.tasks, ∀ tokens, task.phase = .parked tokens → s.tokens < tokens := by
  have hrun : Run.exec (fun s e => if Allowed s e then step 1 s e else none) (State.new 1 2)
      [.acquire 0 1 false, .acquire 1 1 true, .notified 1] =
        some ⟨0, [⟨1, .idle⟩, ⟨0, .parked 1⟩]⟩ := by decide +kernel
  exact ⟨_, rfl, (parked_beside_too_few (Run.reaches_of_exec_guarded hrun)).2 (by simp)⟩

/-- **A lost wake-up.** The refund and its notification come between the failed attempt and the future. -/
theorem parked_beside_enough :
    Run.Reaches (step 1) (fun _ _ => True) (State.new 1 2) ⟨1, [⟨0, .idle⟩, ⟨0, .parked 1⟩]⟩ := by
  have hrun : Run.exec (step 1) (State.new 1 2) [.acquire 0 1 false, .acquire 1 1 true, .refund 0 1,
      .notifyWaiters 0, .notified 1] = some ⟨1, [⟨0, .idle⟩, ⟨0, .parked 1⟩]⟩ := by decide +kernel
  exact Run.reaches_of_exec hrun

end Gateway.TokenBucket
