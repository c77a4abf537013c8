import SolInfer.Scheduler.Finish

set_option autoImplicit false

/-! # What the scheduler sends to the detokenizer

`Req.init_incremental_detokenize` of `managers/schedule_batch.py` and the part of `accept` in
`scheduler_components/output_streamer.py` that makes a message of a request. The first message has the last
tokens of the prompt before the output tokens; a later one has the tokens since the message before. -/

namespace OutputStreamer

def initIncrementalDetokenizationOffset : Nat := 5

/-- The row of one request in a `BatchTokenIDOutput`. -/
structure Entry where
  rid : String
  finishedReason : Option Finish.FinishReason
  decodedText : List Char
  decodeIds : List Int
  readOffset : Nat
  noStopTrim : Bool
deriving DecidableEq, Repr

structure Sender where
  originInputIdsUnpadded : List Int
  outputIds : List Int
  /-- `surr_offset` and `read_offset`, that are set together. -/
  offsets : Option (Nat × Nat)
  surrAndDecodeIds : List Int
  curDecodeIdsLen : Nat
  sendDecodeIdOffset : Nat
deriving DecidableEq, Repr

namespace Sender

def new (originInputIdsUnpadded : List Int) : Sender := ⟨originInputIdsUnpadded, [], none, [], 0, 0⟩

def initIncrementalDetokenize (r : Sender) : Sender × List Int × Nat :=
  match r.offsets with
  | none =>
    let readOffset := r.originInputIdsUnpadded.length
    let surrOffset := readOffset - initIncrementalDetokenizationOffset
    let ids := r.originInputIdsUnpadded.drop surrOffset ++ r.outputIds
    ({ r with offsets := some (surrOffset, readOffset), surrAndDecodeIds := ids,
              curDecodeIdsLen := r.outputIds.length }, ids, readOffset - surrOffset)
  | some (surrOffset, readOffset) =>
    let ids := r.surrAndDecodeIds ++ r.outputIds.drop r.curDecodeIdsLen
    ({ r with surrAndDecodeIds := ids, curDecodeIdsLen := r.outputIds.length }, ids, readOffset - surrOffset)

/-- The message of `accept`; `decoded_text` of a request stays empty. -/
def send (r : Sender) (rid : String) (finishedReason : Option Finish.FinishReason) (noStopTrim : Bool) :
    Sender × Entry :=
  let (r', decodeIds, readOffset) := r.initIncrementalDetokenize
  ({ r' with sendDecodeIdOffset := decodeIds.length },
    ⟨rid, finishedReason, [], decodeIds.drop r.sendDecodeIdOffset, readOffset, noStopTrim⟩)

/-- The messages of a request whose tokens are sent in portions, the last one when it finishes. -/
def messages (rid : String) (noStopTrim : Bool) (reason : Finish.FinishReason) :
    Sender → List (List Int) → List Int → List Entry
  | r, [], last => [({ r with outputIds := r.outputIds ++ last }.send rid (some reason) noStopTrim).2]
  | r, portion :: portions, last =>
    let (r', e) := { r with outputIds := r.outputIds ++ portion }.send rid none noStopTrim
    e :: messages rid noStopTrim reason r' portions last

end Sender

/-! ## When a message is made -/

def checkMatchStopStrPrefix (p : Finish.Config) (ids : List Int) : Bool :=
  let tailStr := p.tailStr ids
  if tailStr = [] then false
  else
    p.stopStrs.any fun stopStr =>
      stopStr ≠ [] &&
        (Text.contains tailStr stopStr ||
          (List.range (min tailStr.length stopStr.length)).any fun i =>
            tailStr.drop (tailStr.length - (i + 1)) = stopStr.take (i + 1))

/-- What decides when the output of a request is sent; `default_force_stream_interval` is for requests that
    do not stream. -/
structure Streaming where
  stream : Bool
  /-- `req.sampling_params.stream_interval or self.default_stream_interval`. -/
  streamInterval : Nat
  defaultForceStreamInterval : Nat
  streamInterval_pos : 0 < streamInterval
  defaultForceStreamInterval_pos : 0 < defaultForceStreamInterval

/-- `should_output` of `accept`, for a request that has not finished. -/
def Streaming.shouldOutput (c : Streaming) (p : Finish.Config) (ids : List Int) : Bool :=
  if c.stream then
    (if 1 < c.streamInterval then ids.length % c.streamInterval == 1
      else ids.length % c.streamInterval == 0) && !checkMatchStopStrPrefix p ids
  else ids.length % c.defaultForceStreamInterval == 0

/-- `accept`: the message of a request after a step, if there is one. -/
def Streaming.accept (c : Streaming) (p : Finish.Config) (rid : String) (noStopTrim : Bool) (req : Finish.Req)
    (r : Sender) : Sender × List Entry :=
  if req.finished || c.shouldOutput p req.outputIds then
    let (r', e) := { r with outputIds := req.outputIdsThroughStop }.send rid req.finishedReason noStopTrim
    (r', [e])
  else (r, [])

/-! ## What the messages have -/

def promptTail (prompt : List Int) : List Int :=
  prompt.drop (prompt.length - initIncrementalDetokenizationOffset)

def rows (rid : String) (noStopTrim : Bool) (reason : Finish.FinishReason) (readOffset : Nat)
    (portions : List (List Int)) (last : List Int) : List Entry :=
  portions.map (fun portion => ⟨rid, none, [], portion, readOffset, noStopTrim⟩) ++
    [⟨rid, some reason, [], last, readOffset, noStopTrim⟩]

/-- Everything so far has been sent. -/
structure Sender.Sent (r : Sender) (readOffset : Nat) : Prop where
  offsets : ∃ surr read, r.offsets = some (surr, read) ∧ read - surr = readOffset
  decodeIds : r.curDecodeIdsLen = r.outputIds.length
  sentIds : r.sendDecodeIdOffset = r.surrAndDecodeIds.length

variable {r : Sender} {n : Nat} {rid : String} {noStopTrim : Bool} {reason : Finish.FinishReason}

theorem Sender.Sent.send_eq (h : r.Sent n) (rid : String) (noStopTrim : Bool) (ids : List Int)
    (finishedReason : Option Finish.FinishReason) :
    (({ r with outputIds := r.outputIds ++ ids }.send rid finishedReason noStopTrim).1.Sent n) ∧
      ({ r with outputIds := r.outputIds ++ ids }.send rid finishedReason noStopTrim).2 =
        ⟨rid, finishedReason, [], ids, n, noStopTrim⟩ := by
  obtain ⟨⟨surr, read, hoff, hn⟩, hcur, hsent⟩ := h
  have hids : (r.outputIds ++ ids).drop r.curDecodeIdsLen = ids := by rw [hcur, List.drop_left]
  simp only [send, initIncrementalDetokenize, hoff, hids]
  refine ⟨⟨⟨surr, read, rfl, hn⟩, rfl, rfl⟩, ?_⟩
  rw [hsent, List.drop_left, hn]

theorem Sender.Sent.messages_eq (h : r.Sent n) (portions : List (List Int)) (last : List Int) :
    messages rid noStopTrim reason r portions last = rows rid noStopTrim reason n portions last := by
  induction portions generalizing r with
  | nil => exact congrArg (fun e => [e]) (h.send_eq rid noStopTrim last (some reason)).2
  | cons portion portions ih =>
    obtain ⟨hsent, he⟩ := h.send_eq rid noStopTrim portion none
    rw [messages]
    simp only
    rw [he, ih hsent]
    rfl

theorem Sender.outputIds_send (r : Sender) (rid : String) (finishedReason : Option Finish.FinishReason)
    (noStopTrim : Bool) : (r.send rid finishedReason noStopTrim).1.outputIds = r.outputIds := by
  simp only [send, initIncrementalDetokenize]
  cases r.offsets <;> rfl

theorem Sender.send_new (prompt : List Int) (rid : String) (noStopTrim : Bool) (ids : List Int)
    (finishedReason : Option Finish.FinishReason) :
    (({ new prompt with outputIds := ids }.send rid finishedReason noStopTrim).1.Sent (promptTail prompt).length) ∧
      ({ new prompt with outputIds := ids }.send rid finishedReason noStopTrim).2 =
        ⟨rid, finishedReason, [], promptTail prompt ++ ids, (promptTail prompt).length, noStopTrim⟩ := by
  have hlen : (promptTail prompt).length =
      prompt.length - (prompt.length - initIncrementalDetokenizationOffset) := List.length_drop
  refine ⟨⟨⟨_, _, rfl, hlen.symm⟩, rfl, rfl⟩, ?_⟩
  rw [hlen]
  rfl

/-- **The messages of a request** have the tokens of its portions, the first one after the end of the
    prompt. -/
theorem Sender.messages_new (prompt : List Int) (portions : List (List Int)) (last : List Int) :
    messages rid noStopTrim reason (new prompt) portions last =
      (rows rid noStopTrim reason (promptTail prompt).length portions last).modifyHead
        fun e => { e with decodeIds := promptTail prompt ++ e.decodeIds } := by
  cases portions with
  | nil => exact congrArg (fun e => [e]) (send_new prompt rid noStopTrim last (some reason)).2
  | cons portion portions =>
    obtain ⟨hsent, he⟩ := send_new prompt rid noStopTrim portion none
    rw [messages]
    simp only [List.nil_append, new] at he hsent ⊢
    rw [he, hsent.messages_eq]
    rfl

end OutputStreamer
