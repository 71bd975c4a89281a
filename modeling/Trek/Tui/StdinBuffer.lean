/-
# The splitter of terminal input

`StdinBuffer` gets the input of a terminal in chunks and emits it sequence by
sequence: a character, an escape sequence, or the content of a bracketed paste.
An escape sequence that is not complete waits in the buffer for the next chunk, or
for a timeout that flushes it. Text is a list of UTF-16 code units.
-/
import Trek.Lib.Cut

namespace Trek.Tui

/-! ### Escape sequences -/

/-- `ESC`. -/
def ESC : ℕ := 0x1b

/-- `BRACKETED_PASTE_START`, `ESC [ 200 ~`. -/
def BRACKETED_PASTE_START : List ℕ := [ESC, 0x5b, 0x32, 0x30, 0x30, 0x7e]

/-- `BRACKETED_PASTE_END`, `ESC [ 201 ~`. -/
def BRACKETED_PASTE_END : List ℕ := [ESC, 0x5b, 0x32, 0x30, 0x31, 0x7e]

/-- What `isCompleteSequence` says of a text. -/
inductive SequenceStatus
  | complete | incomplete | notEscape
  deriving DecidableEq

/-- `\d`. -/
def isDigit (c : ℕ) : Bool := 0x30 ≤ c && c ≤ 0x39

/-- `/^\d+$/`. -/
def isDigits (text : List ℕ) : Bool := text ≠ [] && text.all isDigit

/-- `/^<\d+;\d+;\d+[Mm]$/`, and the check of the parts after it: `<`, three numbers, `M` or `m`. -/
def isSgrMouse (payload : List ℕ) : Bool :=
  let parts := (payload.drop 1).dropLast.splitOn 0x3b
  [0x3c].isPrefixOf payload && (payload.getLast? = some 0x4d || payload.getLast? = some 0x6d) &&
    parts.length = 3 && parts.all isDigits

/-- `isCompleteCsiSequence`, of a text that starts with `ESC [`. -/
def isCompleteCsiSequence (data : List ℕ) : SequenceStatus :=
  let payload := data.drop 2
  match payload.getLast? with
  | none => .incomplete
  | some lastChar =>
    if 0x40 ≤ lastChar ∧ lastChar ≤ 0x7e then
      if [0x3c].isPrefixOf payload then if isSgrMouse payload then .complete else .incomplete
      else .complete
    else .incomplete

/-- A text ends in `ESC \`, the string terminator. -/
def endsWithST (data : List ℕ) : Bool := [ESC, 0x5c].isSuffixOf data

/-- `isCompleteSequence`. -/
def isCompleteSequence (data : List ℕ) : SequenceStatus :=
  if !([ESC].isPrefixOf data) then .notEscape
  else if data.length = 1 then .incomplete
  else
    let afterEsc := data.drop 1
    if [0x5b].isPrefixOf afterEsc then
      -- an old mouse report is `ESC [ M` and three bytes, whatever they are
      if [0x5b, 0x4d].isPrefixOf afterEsc then if 6 ≤ data.length then .complete else .incomplete
      else isCompleteCsiSequence data
    else if [0x5d].isPrefixOf afterEsc then
      if endsWithST data || data.getLast? = some 0x07 then .complete else .incomplete
    else if [0x50].isPrefixOf afterEsc then if endsWithST data then .complete else .incomplete
    else if [0x5f].isPrefixOf afterEsc then if endsWithST data then .complete else .incomplete
    else if [0x4f].isPrefixOf afterEsc then if 2 ≤ afterEsc.length then .complete else .incomplete
    else .complete

/-- `parseUnmodifiedKittyPrintableCodepoint`: `/^\x1b\[(\d+)(?::\d*)?(?::\d+)?u$/`. -/
def parseUnmodifiedKittyPrintableCodepoint (sequence : List ℕ) : Option ℕ :=
  if [ESC, 0x5b].isPrefixOf sequence && sequence.getLast? = some 0x75 then
    let body := (sequence.drop 2).dropLast
    let codepoint (digits : List ℕ) : ℕ := digits.foldl (fun n c => 10 * n + (c - 0x30)) 0
    let checked (digits : List ℕ) (rest : Bool) : Option ℕ :=
      if isDigits digits && rest && 32 ≤ codepoint digits then some (codepoint digits) else none
    match body.splitOn 0x3a with
    | [digits] => checked digits true
    | [digits, shifted] => checked digits (shifted.all isDigit)
    | [digits, shifted, base] => checked digits (shifted.all isDigit && isDigits base)
    | _ => none
  else none

/-- The characters that begin an escape sequence after `ESC`: `[`, `]`, `O`, `P`, `_`. -/
def sequenceOpeners : List ℕ := [0x5b, 0x5d, 0x4f, 0x50, 0x5f]

/-- The length of the first prefix that is not incomplete. -/
def sequenceEnd (remaining : List ℕ) : Option ℕ :=
  (List.range' 1 remaining.length).find? fun seqEnd => isCompleteSequence (remaining.take seqEnd) ≠ .incomplete

/-- The body of the loop of `extractCompleteSequences`: the length of the next sequence, if
the text has one. -/
def nextLength (remaining : List ℕ) : Option ℕ :=
  if [ESC].isPrefixOf remaining then
    (sequenceEnd remaining).map fun seqEnd =>
      -- the second of two escapes may begin a sequence of its own
      if remaining.take seqEnd = [ESC, ESC] ∧ ∃ c ∈ sequenceOpeners, remaining[seqEnd]? = some c then 1 else seqEnd
  else if remaining = [] then none else some 1

/-- The loop of `extractCompleteSequences`. Every sequence takes a character, so `fuel` is the
length of the text. -/
def extractFrom : ℕ → List ℕ → List (List ℕ) × List ℕ
  | 0, remaining => ([], remaining)
  | fuel + 1, remaining =>
    match nextLength remaining with
    | none => ([], remaining)
    | some n =>
      let (sequences, remainder) := extractFrom fuel (remaining.drop n)
      (remaining.take n :: sequences, remainder)

/-- `extractCompleteSequences`: the sequences, and the remainder. -/
def extractCompleteSequences (buffer : List ℕ) : List (List ℕ) × List ℕ := extractFrom buffer.length buffer

/-! ### The buffer -/

/-- What leaves the buffer. A key that repeats the printable Kitty sequence before it is
not emitted. -/
inductive Emission
  | data (sequence : List ℕ)
  | suppressed (sequence : List ℕ)
  | paste (content : List ℕ)
  deriving DecidableEq

/-- `StdinBuffer`. -/
structure StdinBuffer where
  buffer : List ℕ
  pasteMode : Bool
  pasteBuffer : List ℕ
  pendingKittyPrintableCodepoint : Option ℕ
  deriving DecidableEq

namespace StdinBuffer

/-- `new StdinBuffer()`. -/
def new : StdinBuffer := ⟨[], false, [], none⟩

/-- `emitDataSequence`, by the pending code point. -/
def emitDataSequence (pending : Option ℕ) (sequence : List ℕ) : Option ℕ × Emission :=
  let rawCodepoint := if sequence.length = 1 then sequence.head? else none
  if rawCodepoint ≠ none ∧ rawCodepoint = pending then (none, .suppressed sequence)
  else (parseUnmodifiedKittyPrintableCodepoint sequence, .data sequence)

/-- `for (const sequence of sequences) this.emitDataSequence(sequence)`. -/
def emitAll (pending : Option ℕ) : List (List ℕ) → Option ℕ × List Emission
  | [] => (pending, [])
  | sequence :: sequences =>
    let (pending, emission) := emitDataSequence pending sequence
    let (pending, emissions) := emitAll pending sequences
    (pending, emission :: emissions)

/-- The end of a paste, if its marker is there; what comes after it is processed. -/
def endPaste (process : StdinBuffer → List ℕ → StdinBuffer × List Emission) (s : StdinBuffer) :
    StdinBuffer × List Emission :=
  match cutAt BRACKETED_PASTE_END s.pasteBuffer with
  | none => (s, [])
  | some (pastedContent, remaining) =>
    let s := { s with pasteMode := false, pasteBuffer := [], pendingKittyPrintableCodepoint := none }
    if remaining ≠ [] then
      let (s, emissions) := process s remaining
      (s, .paste pastedContent :: emissions)
    else (s, [.paste pastedContent])

/-- `process` of a text. A call of itself gets a shorter text, so `fuel` is its length and
that of the buffers. -/
def processFrom : ℕ → StdinBuffer → List ℕ → StdinBuffer × List Emission
  | 0, s, _ => (s, [])
  | fuel + 1, s, str =>
    if str = [] ∧ s.buffer = [] then
      let (pending, emission) := emitDataSequence s.pendingKittyPrintableCodepoint []
      ({ s with pendingKittyPrintableCodepoint := pending }, [emission])
    else
      let s := { s with buffer := s.buffer ++ str }
      if s.pasteMode then endPaste (processFrom fuel) { s with pasteBuffer := s.pasteBuffer ++ s.buffer, buffer := [] }
      else
        match cutAt BRACKETED_PASTE_START s.buffer with
        | some (beforePaste, rest) =>
          let (sequences, _) := extractCompleteSequences beforePaste
          let (_, emissions) := emitAll s.pendingKittyPrintableCodepoint sequences
          let (s, more) := endPaste (processFrom fuel) ⟨[], true, rest, none⟩
          (s, emissions ++ more)
        | none =>
          let (sequences, remainder) := extractCompleteSequences s.buffer
          let (pending, emissions) := emitAll s.pendingKittyPrintableCodepoint sequences
          ({ s with buffer := remainder, pendingKittyPrintableCodepoint := pending }, emissions)

/-- `process` of a text. -/
def processText (s : StdinBuffer) (str : List ℕ) : StdinBuffer × List Emission :=
  processFrom (s.buffer.length + s.pasteBuffer.length + str.length + 1) s str

/-- `string | Buffer`. -/
inductive Data
  | text (str : List ℕ)
  | buffer (bytes : List UInt8)

/-- The text of a chunk. A single byte above 127 is a key with the meta modifier. `decode`
is `Buffer.toString`. -/
def Data.str (decode : List UInt8 → List ℕ) : Data → List ℕ
  | .text str => str
  | .buffer [byte] => if 127 < byte then [ESC, byte.toNat - 128] else decode [byte]
  | .buffer bytes => decode bytes

/-- `process`. -/
def process (decode : List UInt8 → List ℕ) (s : StdinBuffer) (data : Data) : StdinBuffer × List Emission :=
  s.processText (data.str decode)

/-- `flush`. -/
def flush (s : StdinBuffer) : StdinBuffer × List (List ℕ) :=
  if s.buffer = [] then (s, [])
  else ({ s with buffer := [], pendingKittyPrintableCodepoint := none }, [s.buffer])

/-- The timeout: what is flushed is emitted. -/
def timeout (s : StdinBuffer) : StdinBuffer × List Emission :=
  let (s, flushed) := s.flush
  let (pending, emissions) := emitAll s.pendingKittyPrintableCodepoint flushed
  ({ s with pendingKittyPrintableCodepoint := pending }, emissions)

end StdinBuffer
end Trek.Tui
