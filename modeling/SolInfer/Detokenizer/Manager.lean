import SolInfer.Lib.Dict
import SolInfer.Lib.Lossy
import SolInfer.Scheduler.OutputStreamer

set_option autoImplicit false

/-! # The detokenizer

`managers/detokenizer_manager.py` with `find_printable_text` of `utils.py`: the tokens of a request come in
portions, and each time the text past what was sent before is returned. A request has a status from its first
portion until it finishes. -/

namespace Detokenizer

open OutputStreamer (Entry)

/-- A tokenizer that decodes the bytes of its tokens, put together. -/
structure Tokenizer where
  bytes : Int → List UInt8

def Tokenizer.bytesOf (tokenizer : Tokenizer) (ids : List Int) : List UInt8 := ids.flatMap tokenizer.bytes

def Tokenizer.decode (tokenizer : Tokenizer) (ids : List Int) : List Char :=
  Lossy.decode (tokenizer.bytesOf ids)

/-! ## `find_printable_text` -/

def isChineseChar (c : Char) : Bool :=
  let cp := c.toNat
  decide (0x4E00 ≤ cp ∧ cp ≤ 0x9FFF) || decide (0x3400 ≤ cp ∧ cp ≤ 0x4DBF) ||
    decide (0x20000 ≤ cp ∧ cp ≤ 0x2A6DF) || decide (0x2A700 ≤ cp ∧ cp ≤ 0x2B73F) ||
    decide (0x2B740 ≤ cp ∧ cp ≤ 0x2B81F) || decide (0x2B820 ≤ cp ∧ cp ≤ 0x2CEAF) ||
    decide (0xF900 ≤ cp ∧ cp ≤ 0xFAFF) || decide (0x2F800 ≤ cp ∧ cp ≤ 0x2FA1F)

/-- `text[: text.rfind(" ") + 1]`. -/
def untilLastSpace (text : List Char) : List Char := (text.reverse.dropWhile (· ≠ ' ')).reverse

def findPrintableText (text : List Char) : List Char :=
  if text.getLast? = some '\n' then text
  else if text.getLast?.any isChineseChar then text
  else if text.dropLast.getLast?.any isChineseChar then text.dropLast
  else untilLastSpace text

/-! ## The status of a request -/

structure DecodeStatus where
  decodedText : List Char
  decodeIds : List Int
  surrOffset : Nat
  readOffset : Nat
  sentOffset : Nat
deriving DecidableEq, Repr

inductive Error where
  | emptyOutput
  | statusNotFound (rid : String)
  | emptyStates
deriving DecidableEq, Repr

structure DetokenizerManager where
  tokenizer : Tokenizer
  /-- `DETOKENIZER_MAX_STATES`. -/
  capacity : Nat
  isToolCallParserGptOss : Bool
  decodeStatus : Dict String DecodeStatus

namespace DetokenizerManager

variable (m : DetokenizerManager)

/-- `LimitedCapacityDict.__setitem__`. -/
def insert (rid : String) (s : DecodeStatus) : Except Error (Dict String DecodeStatus) :=
  if m.capacity ≤ m.decodeStatus.keys.length then
    match m.decodeStatus.keys with
    | [] => .error .emptyStates
    | oldest :: _ => .ok ((m.decodeStatus.erase oldest).set rid s)
  else .ok (m.decodeStatus.set rid s)

/-- `trim_matched_stop` on tokens; a stop token with id 0 counts as none. -/
def trimMatchedStopIds (output : List Int) (finishedReason : Option Finish.FinishReason) (noStopTrim : Bool) :
    Except Error (List Int) :=
  match noStopTrim, finishedReason with
  | false, some (.matchedToken matched) =>
    if matched = 0 then .ok output
    else
      match output.getLast? with
      | none => .error .emptyOutput
      | some last => if last = 200012 ∧ m.isToolCallParserGptOss then .ok output else .ok output.dropLast
  | _, _ => .ok output

/-- `trim_matched_stop` on the text. -/
def trimMatchedStopStr (output : List Char) (finishedReason : Option Finish.FinishReason) (noStopTrim : Bool) :
    List Char :=
  match noStopTrim, finishedReason with
  | false, some (.matchedStr matched) =>
    if matched = [] then output
    else
      match Text.find matched output with
      | some pos => output.take pos
      | none => output
  | _, _ => output

end DetokenizerManager

def DecodeStatus.new (e : Entry) : DecodeStatus := ⟨e.decodedText, e.decodeIds, 0, e.readOffset, 0⟩

variable (s : DecodeStatus)

def DecodeStatus.extend (e : Entry) : DecodeStatus :=
  { s with decodeIds := s.decodeIds ++ e.decodeIds }

def DecodeStatus.surrIds : List Int := (s.decodeIds.take s.readOffset).drop s.surrOffset

/-- The streaming part of the second loop: the status afterwards, and the text to be added to what is
    decoded. -/
def DecodeStatus.stream (newText : List Char) : DecodeStatus × List Char :=
  if newText ≠ [] ∧ newText.getLast? ≠ some Lossy.replacement then
    ({ s with decodedText := s.decodedText ++ newText, surrOffset := s.readOffset,
              readOffset := s.decodeIds.length }, [])
  else (s, findPrintableText newText)

/-- The status and the text of one request in the second loop; a request that finishes has no status
    afterwards. -/
def DecodeStatus.emit (e : Entry) (readText surrText : List Char) : Option DecodeStatus × List Char :=
  let newText := readText.drop surrText.length
  match e.finishedReason with
  | none =>
    let (s', newText) := s.stream newText
    let outputStr := DetokenizerManager.trimMatchedStopStr (s'.decodedText ++ newText) none e.noStopTrim
    (some { s' with sentOffset := outputStr.length }, outputStr.drop s.sentOffset)
  | some reason =>
    let outputStr := DetokenizerManager.trimMatchedStopStr (s.decodedText ++ newText) (some reason) e.noStopTrim
    (none, outputStr.drop s.sentOffset)

namespace DetokenizerManager

def receive (m : DetokenizerManager) (e : Entry) : Except Error (DetokenizerManager × DecodeStatus) :=
  match m.decodeStatus.get? e.rid with
  | none => (m.insert e.rid (.new e)).map fun d => ({ m with decodeStatus := d }, DecodeStatus.new e)
  | some s => .ok ({ m with decodeStatus := m.decodeStatus.set e.rid (s.extend e) }, s.extend e)

/-- The first loop of `_decode_batch_token_id_output`: the statuses, and the tokens to be decoded. -/
def collect : DetokenizerManager → List Entry → Except Error (DetokenizerManager × List (List Int × List Int))
  | m, [] => .ok (m, [])
  | m, e :: es => do
    let (m, s) ← m.receive e
    let readIds ← m.trimMatchedStopIds (s.decodeIds.drop s.surrOffset) e.finishedReason e.noStopTrim
    let (m, rest) ← collect m es
    .ok (m, (readIds, s.surrIds) :: rest)

def update (m : DetokenizerManager) (rid : String) : Option DecodeStatus → DetokenizerManager
  | some s => { m with decodeStatus := m.decodeStatus.set rid s }
  | none => { m with decodeStatus := m.decodeStatus.erase rid }

def emit : DetokenizerManager → List (Entry × List Char × List Char) →
    Except Error (DetokenizerManager × List (String × List Char))
  | m, [] => .ok (m, [])
  | m, (e, readText, surrText) :: rest =>
    match m.decodeStatus.get? e.rid with
    | none => .error (.statusNotFound e.rid)
    | some s => do
      let (s', text) := s.emit e readText surrText
      let (m, outs) ← emit (m.update e.rid s') rest
      .ok (m, (e.rid, text) :: outs)

def decodeBatchTokenIdOutput (m : DetokenizerManager) (batch : List Entry) :
    Except Error (DetokenizerManager × List (String × List Char)) := do
  let (m', ids) ← m.collect batch
  m'.emit (batch.zip (ids.map fun i => (m.tokenizer.decode i.1, m.tokenizer.decode i.2)))

def run : DetokenizerManager → List (List Entry) →
    Except Error (DetokenizerManager × List (List (String × List Char)))
  | m, [] => .ok (m, [])
  | m, batch :: batches => do
    let (m', outs) ← m.decodeBatchTokenIdOutput batch
    let (m'', rest) ← run m' batches
    .ok (m'', outs :: rest)

end DetokenizerManager

def incrementsOf (rid : String) (outs : List (List (String × List Char))) : List (List Char) :=
  (outs.flatten.filter fun out => out.1 = rid).map Prod.snd

end Detokenizer
