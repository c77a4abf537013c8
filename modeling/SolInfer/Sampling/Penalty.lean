import SolInfer.Lib.Run

set_option autoImplicit false

/-! # Sampling penalties

The penalizers of `sampling/penaltylib` and the operations of `ScheduleBatch` that move their tensors about.
A penalizer keeps tensors with one row for each request of its batch; they are made when a request of the
batch asks for the penalty, and dropped when none is left that does. Logits are exact numbers and minus
infinity. -/

namespace Penalty

/-- A row of logits, by token; `⊥` is minus infinity. -/
abbrev Logits (R : Type) := Nat → WithBot R

structure Tokenizer where
  additionalStopTokenIds : Option (List Nat)
  eosTokenId : Nat

structure SamplingParams (R : Type) where
  frequencyPenalty : R
  presencePenalty : R
  repetitionPenalty : R
  minNewTokens : Nat
  stopTokenIds : Option (List Nat)

structure Req (R : Type) where
  samplingParams : SamplingParams R
  tokenizer : Tokenizer
  outputIds : List Nat

def Req.stopTokens {R : Type} (r : Req R) : List Nat :=
  r.samplingParams.stopTokenIds.getD [] ++ r.tokenizer.additionalStopTokenIds.getD [] ++
    [r.tokenizer.eosTokenId]

/-- A class of penalizers, by what its methods do to the row of one request. -/
structure BatchedPenalizer (R : Type) where
  Row : Type
  isRequired : Req R → Bool
  prepare : Req R → Row
  cumulate : Row → Nat → Row
  apply : Row → Logits R → Logits R

section Penalizers

variable {R : Type} [Field R] [LinearOrder R]

def batchedFrequencyPenalizer : BatchedPenalizer R where
  Row := R × (Nat → R)
  isRequired r := decide (r.samplingParams.frequencyPenalty ≠ 0)
  prepare r := (r.samplingParams.frequencyPenalty, fun _ => 0)
  cumulate row token := (row.1, Function.update row.2 token (row.2 token + row.1))
  apply row logits t := (logits t).map (· - row.2 t)

structure MinNewTokensRow (R : Type) where
  minNewTokens : Nat
  stopTokenPenalties : Nat → WithBot R
  lenOutputTokens : Nat

def batchedMinNewTokensPenalizer : BatchedPenalizer R where
  Row := MinNewTokensRow R
  isRequired r := decide (0 < r.samplingParams.minNewTokens)
  prepare r := ⟨r.samplingParams.minNewTokens, fun t => if t ∈ r.stopTokens then ⊥ else 0, 0⟩
  cumulate row _ := { row with lenOutputTokens := row.lenOutputTokens + 1 }
  apply row logits t :=
    if row.lenOutputTokens < row.minNewTokens then logits t + row.stopTokenPenalties t else logits t

def batchedPresencePenalizer : BatchedPenalizer R where
  Row := R × (Nat → R)
  isRequired r := decide (r.samplingParams.presencePenalty ≠ 0)
  prepare r := (r.samplingParams.presencePenalty, fun _ => 0)
  cumulate row token := (row.1, Function.update row.2 token row.1)
  apply row logits t := (logits t).map (· - row.2 t)

def applyScalingPenalties (logit : WithBot R) (penalty : R) : WithBot R :=
  logit.map fun x => if x < 0 then x * penalty else x / penalty

def batchedRepetitionPenalizer : BatchedPenalizer R where
  Row := R × (Nat → R)
  isRequired r := decide (r.samplingParams.repetitionPenalty ≠ 1)
  prepare r := (r.samplingParams.repetitionPenalty, fun _ => 1)
  cumulate row token := (row.1, Function.update row.2 token row.1)
  apply row logits t := applyScalingPenalties (logits t) (row.2 t)

end Penalizers

inductive Kind where
  | frequency
  | minNewTokens
  | presence
  | repetition
deriving DecidableEq

def Kind.all : List Kind := [.frequency, .minNewTokens, .presence, .repetition]

def penalizer (R : Type) [Field R] [LinearOrder R] : Kind → BatchedPenalizer R
  | .frequency => batchedFrequencyPenalizer
  | .minNewTokens => batchedMinNewTokensPenalizer
  | .presence => batchedPresencePenalizer
  | .repetition => batchedRepetitionPenalizer

/-! ## The tensors of a penalizer -/

namespace BatchedPenalizer

variable {R : Type} (c : BatchedPenalizer R)

/-- The tensors, row by row; `none` when they are not prepared. -/
abbrev Tensors := Option (List c.Row)

variable {c}

def prepareTensors (reqs : List (Req R)) : c.Tensors → c.Tensors
  | none => some (reqs.map c.prepare)
  | some rows => some rows

def cumulateOutputTokens (tensors : c.Tensors) (outputIds : List Nat) : c.Tensors :=
  tensors.map fun rows => List.zipWith c.cumulate rows outputIds

def applyTensors (tensors : c.Tensors) (logits : List (Logits R)) : List (Logits R) :=
  match tensors with
  | none => logits
  | some rows => List.zipWith c.apply rows logits

def filterTensors (tensors : c.Tensors) (keepIndices : List Nat) : c.Tensors :=
  tensors.map fun rows => keepIndices.filterMap fun i => rows[i]?

/-- Two prepared tensors are concatenated; one that is not prepared is prepared first, for the requests of
    its own batch. -/
def mergeTensors (reqs theirReqs : List (Req R)) (tensors theirs : c.Tensors) : c.Tensors :=
  match tensors, theirs with
  | none, none => none
  | tensors, theirs =>
    match prepareTensors reqs tensors, prepareTensors theirReqs theirs with
    | some rows, some rows' => some (rows ++ rows')
    | _, _ => none

/-- Whether a request of the batch asks for the penalty. -/
def required (c : BatchedPenalizer R) (reqs : List (Req R)) : Bool := reqs.any c.isRequired

end BatchedPenalizer

/-! ## The orchestrator -/

structure BatchedPenalizerOrchestrator (R : Type) [Field R] [LinearOrder R] where
  penalizers : (k : Kind) → (penalizer R k).Tensors
  isRequired : Bool

namespace BatchedPenalizerOrchestrator

variable {R : Type} [Field R] [LinearOrder R]

def init (reqs : List (Req R)) : BatchedPenalizerOrchestrator R where
  penalizers k := if (penalizer R k).required reqs then BatchedPenalizer.prepareTensors reqs none else none
  isRequired := Kind.all.any fun k => (penalizer R k).required reqs

variable (o : BatchedPenalizerOrchestrator R)

def cumulateOutputTokens (outputIds : List Nat) : BatchedPenalizerOrchestrator R :=
  { o with penalizers := fun k => BatchedPenalizer.cumulateOutputTokens (o.penalizers k) outputIds }

/-- The penalizers act in the order of the dictionary that holds them, which is built from a set. -/
def apply (order : List Kind) (logits : List (Logits R)) : List (Logits R) :=
  order.foldl (fun l k => BatchedPenalizer.applyTensors (o.penalizers k) l) logits

def filter (reqs : List (Req R)) (keepIndices : List Nat) : BatchedPenalizerOrchestrator R :=
  if o.isRequired = false then o
  else if keepIndices = [] then ⟨fun _ => none, false⟩
  else
    { penalizers := fun k =>
        if (penalizer R k).required reqs then BatchedPenalizer.filterTensors (o.penalizers k) keepIndices
        else none
      isRequired := Kind.all.any fun k => (penalizer R k).required reqs }

def merge (o their : BatchedPenalizerOrchestrator R) (reqs theirReqs : List (Req R)) :
    BatchedPenalizerOrchestrator R :=
  if o.isRequired = false ∧ their.isRequired = false then o
  else
    { penalizers := fun k =>
        BatchedPenalizer.mergeTensors reqs theirReqs (o.penalizers k) (their.penalizers k)
      isRequired := true }

end BatchedPenalizerOrchestrator

/-! ## Batches -/

/-- A batch: its requests by number, its penalizers and the tokens that the next decode step takes in. -/
structure ScheduleBatch (R : Type) [Field R] [LinearOrder R] where
  reqs : List Nat
  orchestrator : BatchedPenalizerOrchestrator R
  inputIds : List Nat

namespace ScheduleBatch

variable {R : Type} [Field R] [LinearOrder R]

/-- `filter_batch`: when nothing stays, the batch is emptied and its other fields are left as they are. -/
def filterBatch (b : ScheduleBatch R) (table : Nat → Req R) (keepIndices : List Nat) : ScheduleBatch R :=
  if keepIndices = [] then { b with reqs := [] }
  else if keepIndices.length = b.reqs.length then b
  else
    let reqs := keepIndices.filterMap fun i => b.reqs[i]?
    { reqs
      orchestrator := b.orchestrator.filter (reqs.map table) keepIndices
      inputIds := keepIndices.filterMap fun i => b.inputIds[i]? }

/-- `merge_batch`: the penalizers are merged for the requests before the merge. -/
def mergeBatch (b other : ScheduleBatch R) (table : Nat → Req R) : ScheduleBatch R where
  reqs := b.reqs ++ other.reqs
  orchestrator := b.orchestrator.merge other.orchestrator (b.reqs.map table) (other.reqs.map table)
  inputIds := b.inputIds ++ other.inputIds

/-- `prepare_for_decode`: the tokens sampled last are fed to the penalizers. -/
def prepareForDecode (b : ScheduleBatch R) : ScheduleBatch R :=
  if b.orchestrator.isRequired then
    { b with orchestrator := b.orchestrator.cumulateOutputTokens b.inputIds }
  else b

/-- `apply_logits_bias` without overlap. -/
def applyLogitsBias (b : ScheduleBatch R) (order : List Kind) (logits : List (Logits R)) : List (Logits R) :=
  if b.orchestrator.isRequired then b.orchestrator.apply order logits else logits

end ScheduleBatch

/-! ## The scheduler -/

/-- A row that was adjusted: the request as it was then, the logits and what became of them. -/
structure Sample (R : Type) where
  req : Req R
  logits : Logits R
  adjusted : Logits R

/-- The requests by number, the live batches and the rows sampled so far. -/
structure Scheduler (R : Type) [Field R] [LinearOrder R] where
  table : Nat → Req R
  batches : List (ScheduleBatch R)
  samples : List (Sample R)

/-- What the scheduler does with its batches, which are named by their places. A prefill names the requests
    of the new batch and those among them whose last chunk is still to come; a filter ends or retracts the
    requests that do not stay. -/
inductive Op (R : Type) where
  | prefill (reqs chunked : List Nat) (logits : List (Logits R)) (tokens : List Nat)
  | merge (place other : Nat)
  | filter (place : Nat) (keepIndices : List Nat)
  | decode (place : Nat) (logits : List (Logits R)) (tokens : List Nat)

namespace Scheduler

variable {R : Type} [Field R] [LinearOrder R]

def append (table : Nat → Req R) : List (Nat × Nat) → Nat → Req R
  | [] => table
  | (id, token) :: rest =>
    append (Function.update table id { table id with outputIds := (table id).outputIds ++ [token] }) rest

def sampled (table : Nat → Req R) (order : List Kind) (b : ScheduleBatch R) (logits : List (Logits R)) :
    List (Sample R) :=
  List.zipWith (fun (r : Req R) (l : Logits R × Logits R) => ⟨r, l.1, l.2⟩) (b.reqs.map table)
    (logits.zip (b.applyLogitsBias order logits))

/-- A live batch is not empty: an emptied one is replaced by the next prefill batch, never merged into. -/
def put (b : ScheduleBatch R) (batches : List (ScheduleBatch R)) : List (ScheduleBatch R) :=
  if b.reqs = [] then batches else b :: batches

def step (order : List Kind) (s : Scheduler R) : Op R → Option (Scheduler R)
  | .prefill ids chunked logits tokens =>
    if ids.Nodup ∧ (∀ id ∈ ids, ∀ b ∈ s.batches, id ∉ b.reqs) ∧ logits.length = ids.length ∧
        tokens.length = ids.length then
      let b : ScheduleBatch R := ⟨ids, .init (ids.map s.table), []⟩
      -- the token sampled after a chunk that is not the last is dropped
      let table := append s.table ((ids.zip tokens).filter fun p => decide (p.1 ∉ chunked))
      let keep := (List.range ids.length).filter fun i => (ids[i]?).any fun id => decide (id ∉ chunked)
      some {
        table
        batches := put ({ b with inputIds := tokens }.filterBatch table keep) s.batches
        samples := s.samples ++ sampled s.table order b logits }
    else none
  | .merge place other => do
    let b ← s.batches[place]?
    let rest := s.batches.eraseIdx place
    let b' ← rest[other]?
    some { s with batches := put (b.mergeBatch b' s.table) (rest.eraseIdx other) }
  | .filter place keepIndices => do
    let b ← s.batches[place]?
    if keepIndices.Nodup ∧ ∀ i ∈ keepIndices, i < b.reqs.length then
      some { s with batches := put (b.filterBatch s.table keepIndices) (s.batches.eraseIdx place) }
    else none
  | .decode place logits tokens => do
    let b ← s.batches[place]?
    if logits.length = b.reqs.length ∧ tokens.length = b.reqs.length then
      let b := b.prepareForDecode
      some {
        table := append s.table (b.reqs.zip tokens)
        batches := put { b with inputIds := tokens } (s.batches.eraseIdx place)
        samples := s.samples ++ sampled s.table order b logits }
    else none

end Scheduler

/-! ## What the history of a request asks for -/

section Own

variable {R : Type} [Field R] [LinearOrder R]

def Kind.own (k : Kind) (r : Req R) (outputs : List Nat) (logits : Logits R) : Logits R := fun t =>
  match k with
  | .frequency => (logits t).map (· - outputs.count t * r.samplingParams.frequencyPenalty)
  | .minNewTokens =>
    if outputs.length < r.samplingParams.minNewTokens ∧ t ∈ r.stopTokens then ⊥ else logits t
  | .presence => if t ∈ outputs then (logits t).map (· - r.samplingParams.presencePenalty) else logits t
  | .repetition =>
    if t ∈ outputs then applyScalingPenalties (logits t) r.samplingParams.repetitionPenalty else logits t

def own (order : List Kind) (r : Req R) (logits : Logits R) : Logits R :=
  order.foldl (fun l k => k.own r r.outputIds l) logits

def Req.asks (r : Req R) : Bool := Kind.all.any fun k => (penalizer R k).isRequired r

/-- Whether a prefill brings back a request that has outputs and asks for a penalty. -/
def Op.forgets (s : Scheduler R) : Op R → Bool
  | .prefill ids _ _ _ => ids.any fun id => decide ((s.table id).outputIds ≠ []) && (s.table id).asks
  | _ => false

end Own

end Penalty
