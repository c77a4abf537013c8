import SolInfer.Lib.Text

set_option autoImplicit false

/-! # Reasoning parser

`srt/parser/reasoning_parser.py`: the base methods of the detectors, which separate the reasoning of an
output from its normal text, either from the whole output or from its chunks as they arrive. -/

namespace Reasoning

abbrev Str := List Char

/-- `StreamingParseResult`. -/
structure Result where
  normalText : Str := []
  reasoningText : Str := []
deriving DecidableEq, Repr

def Result.append (a b : Result) : Result :=
  ⟨a.normalText ++ b.normalText, a.reasoningText ++ b.reasoningText⟩

structure Detector where
  thinkStartToken : Str
  thinkEndToken : Str
  toolStartToken : Option Str
  forceReasoning : Bool
  streamReasoning : Bool
  thinkStartSelfLabel : Str
  /-- Empty unless a final message is continued. -/
  previousContent : Str

structure State where
  buffer : Str
  strippedThinkStart : Bool
  inReasoning : Bool
deriving DecidableEq, Repr

namespace Detector

variable (d : Detector)

def thinkStartText : Str := d.thinkStartToken ++ d.thinkStartSelfLabel

def init : State where
  buffer := []
  strippedThinkStart := false
  inReasoning :=
    if Text.contains d.previousContent d.thinkEndToken then false
    else if Text.contains d.previousContent d.thinkStartToken then true
    else d.forceReasoning

/-! ## One-time parsing -/

/-- The loop that strips the start texts in front. It does not end for an empty start text. -/
def stripStarts (start : Str) : Nat → Str → Option Str
  | 0, _ => none
  | fuel + 1, text =>
    if start.isPrefixOf text then stripStarts start fuel (text.drop start.length) else some text

/-- `detect_and_parse`, `none` if it does not end or raises (it splits at an empty end token). -/
def detectAndParse (s : State) (text : Str) : Option Result :=
  if !(s.inReasoning || Text.contains text d.thinkStartToken) then some { normalText := text }
  else
    (stripStarts d.thinkStartText (text.length + 1) text).bind fun processed =>
      if !Text.contains processed d.thinkEndToken && !Text.contains d.previousContent d.thinkEndToken then
        match d.toolStartToken.bind (Text.find · processed) with
        | some toolIdx =>
          some { normalText := processed.drop toolIdx, reasoningText := processed.take toolIdx }
        | none => some { reasoningText := processed }
      else
        match Text.find d.thinkEndToken processed with
        | some endIdx =>
          if d.thinkEndToken = [] then none
          else
            some { normalText := processed.drop (endIdx + d.thinkEndToken.length)
                   reasoningText := processed.take endIdx }
        | none => some { normalText := processed }

/-! ## Parsing of increments -/

/-- `tokens_to_check`; an empty tool start token counts as none. -/
def tokensToCheck : List Str :=
  [d.thinkStartText, d.thinkEndToken] ++ d.toolStartToken.toList.filter fun t => t ≠ []

/-- Whether a text may become a token. -/
def held (text : Str) : Bool :=
  d.tokensToCheck.any fun token => text.isPrefixOf token && token ≠ text

/-- The first start text is stripped from the text, not from the buffer. -/
def stripThinkStart (s : State) : Str × State :=
  match Text.find d.thinkStartText s.buffer with
  | some idx =>
    if s.strippedThinkStart then (s.buffer, s)
    else
      (s.buffer.take idx ++ s.buffer.drop (idx + d.thinkStartText.length),
        { s with strippedThinkStart := true, inReasoning := true })
  | none => (s.buffer, s)

/-- The rest of `parse_streaming_increment`, after the start text was stripped. -/
def settle (text : Str) (s : State) : Result × State :=
  if s.inReasoning then
    match Text.find d.thinkEndToken text with
    | some endIdx =>
      ({ normalText := text.drop (endIdx + d.thinkEndToken.length), reasoningText := text.take endIdx },
        { s with buffer := [], inReasoning := false })
    | none =>
      match (d.toolStartToken.filter (fun t => t ≠ [])).bind (Text.find · text) with
      | some toolIdx =>
        ({ normalText := text.drop toolIdx, reasoningText := text.take toolIdx },
          { s with buffer := [], inReasoning := false })
      | none =>
        if d.streamReasoning then ({ reasoningText := text }, { s with buffer := [] })
        else ({}, s)
  else ({ normalText := text }, { s with buffer := [] })

def release (s : State) : Result × State :=
  let (text, s) := d.stripThinkStart s
  d.settle text s

def parseStreamingIncrement (s : State) (newText : Str) : Result × State :=
  let s := { s with buffer := s.buffer ++ newText }
  if d.held s.buffer then ({}, s) else d.release s

/-- The texts returned for the chunks of an output, concatenated. -/
def parseChunks : State → List Str → Result
  | _, [] => {}
  | s, c :: rest =>
    let (result, s) := d.parseStreamingIncrement s c
    result.append (parseChunks s rest)

end Detector

/-! ## Outputs -/

def Detector.tokens (d : Detector) : List Str := d.thinkStartToken :: d.thinkEndToken :: d.toolStartToken.toList

/-- The tokens do not overlap: none begins in another one or in the start text, except where it is one. -/
structure Detector.Separate (d : Detector) : Prop where
  nodup : d.tokens.Nodup
  ne : ∀ t ∈ d.tokens, t ≠ []
  apart : ∀ t ∈ d.tokens, ∀ u ∈ d.tokens, ∀ i < u.length, Text.Begins t u i → t = u ∧ i = 0
  start : ∀ t ∈ d.tokens, ∀ i < d.thinkStartText.length, Text.Begins t d.thinkStartText i →
    t = d.thinkStartToken ∧ i = 0

/-- An output of a model: an optional start text, the reasoning, and the normal text behind the end token or
    behind the tool start token. -/
structure Output where
  start : Bool
  reasoning : Str
  tool : Bool
  normal : Str

namespace Output

variable (d : Detector) (o : Output)

def marker : Str := if o.tool then d.toolStartToken.getD [] else d.thinkEndToken

def front : Str := (if o.start then d.thinkStartText else []) ++ o.reasoning

def text : Str := o.front d ++ (o.marker d ++ o.normal)

/-- Reasoning and normal text contain no token: the tokens occur in the text only where the output has
    them, so also not across two of its parts. -/
structure Clear : Prop where
  tool : o.tool → d.toolStartToken.isSome
  thinkStart : ∀ i, d.thinkStartToken <+: (o.text d).drop i → o.start ∧ i = 0
  thinkEnd : ∀ i, d.thinkEndToken <+: (o.text d).drop i → ¬ o.tool ∧ i = (o.front d).length
  toolStart : ∀ t ∈ d.toolStartToken, ∀ i, t <+: (o.text d).drop i → o.tool ∧ i = (o.front d).length

end Output

end Reasoning
