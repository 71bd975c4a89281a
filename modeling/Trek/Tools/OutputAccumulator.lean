/-
# Output that is truncated while it streams

`OutputAccumulator` decodes the chunks of an output, counts lines and bytes, and keeps
a rolling tail: once the tail has more than four times the byte limit it is cut to the
last characters that fit in twice the limit. A snapshot truncates the whole lines of
the tail. That is what truncating the whole output gives as long as the whole lines of
the tail run into a limit themselves; `snapshot_agrees_iff` says exactly when.
-/
import Trek.Lib.Cut
import Trek.Tools.Truncate

namespace Trek.Tools

/-- `OutputAccumulator`. `tempPath` is what `defaultTempFilePath` draws, and an open temp file
is the chunks that were written to it. -/
structure OutputAccumulator where
  maxLines : ℕ
  maxBytes : ℕ
  maxRollingBytes : ℕ
  tempPath : String
  decoder : TextDecoder
  rawChunks : List (List ℕ)
  tailText : List Char
  tailBytes : ℕ
  tailStartsAtLineBoundary : Bool
  totalRawBytes : ℕ
  totalDecodedBytes : ℕ
  completedLines : ℕ
  totalLines : ℕ
  currentLineBytes : ℕ
  hasOpenLine : Bool
  finished : Bool
  tempFilePath : Option String
  tempFileStream : Option (List (List ℕ))

/-- `OutputSnapshot`. -/
structure OutputSnapshot where
  content : List Char
  truncation : TruncationResult
  fullOutputPath : Option String

namespace OutputAccumulator

/-- `new OutputAccumulator(options)`. -/
def new (maxLines maxBytes : Option ℕ) (tempPath : String) : OutputAccumulator where
  maxLines := maxLines.getD DEFAULT_MAX_LINES
  maxBytes := maxBytes.getD DEFAULT_MAX_BYTES
  maxRollingBytes := max (maxBytes.getD DEFAULT_MAX_BYTES * 2) 1
  tempPath := tempPath
  decoder := .new
  rawChunks := []
  tailText := []
  tailBytes := 0
  tailStartsAtLineBoundary := true
  totalRawBytes := 0
  totalDecodedBytes := 0
  completedLines := 0
  totalLines := 0
  currentLineBytes := 0
  hasOpenLine := false
  finished := false
  tempFilePath := none
  tempFileStream := none

/-- `trimTail`. -/
def trimTail (s : OutputAccumulator) : OutputAccumulator :=
  let buffer := utf8 s.tailText
  if buffer.length ≤ s.maxRollingBytes then { s with tailBytes := buffer.length }
  else
    let start := alignedStart buffer (buffer.length - s.maxRollingBytes)
    let tailText := bufferToString (buffer.drop start)
    { s with
      tailStartsAtLineBoundary := if start = 0 then s.tailStartsAtLineBoundary else buffer[start - 1]? = some 0x0a
      tailText
      tailBytes := byteLength tailText }

/-- `text.slice(lastNewline + 1)`. -/
def afterLastNewline (text : List Char) : List Char := (text.reverse.takeWhile (· ≠ '\n')).reverse

/-- The counts of lines in `appendDecodedText`. -/
def countLines (s : OutputAccumulator) (text : List Char) : OutputAccumulator :=
  let newlines := text.count '\n'
  let s :=
    if newlines = 0 then { s with currentLineBytes := s.currentLineBytes + byteLength text, hasOpenLine := true }
    else
      let tail := afterLastNewline text
      { s with
        completedLines := s.completedLines + newlines
        currentLineBytes := byteLength tail
        hasOpenLine := tail ≠ [] }
  { s with totalLines := s.completedLines + if s.hasOpenLine then 1 else 0 }

/-- `appendDecodedText`. -/
def appendDecodedText (s : OutputAccumulator) (text : List Char) : OutputAccumulator :=
  if text = [] then s
  else
    let bytes := byteLength text
    let s := { s with
      totalDecodedBytes := s.totalDecodedBytes + bytes
      tailText := s.tailText ++ text
      tailBytes := s.tailBytes + bytes }
    let s := if s.maxRollingBytes * 2 < s.tailBytes then s.trimTail else s
    s.countLines text

/-- `shouldUseTempFile`. -/
def shouldUseTempFile (s : OutputAccumulator) : Bool :=
  s.maxBytes < s.totalRawBytes || s.maxBytes < s.totalDecodedBytes || s.maxLines < s.totalLines

/-- `ensureTempFile`. -/
def ensureTempFile (s : OutputAccumulator) : OutputAccumulator :=
  if s.tempFilePath.isSome then s
  else { s with tempFilePath := some s.tempPath, tempFileStream := some s.rawChunks, rawChunks := [] }

/-- `append`. -/
def append (s : OutputAccumulator) (data : List ℕ) : Except String OutputAccumulator :=
  if s.finished then .error "Cannot append to a finished output accumulator"
  else
    let (decoder, text) := s.decoder.stream data
    let s := { s with totalRawBytes := s.totalRawBytes + data.length, decoder }.appendDecodedText text
    if s.tempFileStream.isSome || s.shouldUseTempFile then
      let s := s.ensureTempFile
      .ok { s with tempFileStream := s.tempFileStream.map (· ++ [data]) }
    else .ok (if data ≠ [] then { s with rawChunks := s.rawChunks ++ [data] } else s)

/-- `finish`. -/
def finish (s : OutputAccumulator) : OutputAccumulator :=
  if s.finished then s
  else
    let s := { s with finished := true }.appendDecodedText s.decoder.finish
    if s.shouldUseTempFile then s.ensureTempFile else s

/-- `getSnapshotText`. -/
def getSnapshotText (s : OutputAccumulator) : List Char :=
  if s.tailStartsAtLineBoundary then s.tailText
  else
    match cutAt ['\n'] s.tailText with
    | none => s.tailText
    | some (_, rest) => rest

/-- `snapshot`. -/
def snapshot (s : OutputAccumulator) (persistIfTruncated : Bool) : OutputSnapshot × OutputAccumulator :=
  let tailTruncation := truncateTail s.getSnapshotText s.maxLines s.maxBytes
  let truncated := s.maxLines < s.totalLines || s.maxBytes < s.totalDecodedBytes
  let truncatedBy :=
    if truncated then
      some (tailTruncation.truncatedBy.getD (if s.maxBytes < s.totalDecodedBytes then .bytes else .lines))
    else none
  let truncation := { tailTruncation with
    truncated
    truncatedBy
    totalLines := s.totalLines
    totalBytes := s.totalDecodedBytes
    maxLines := s.maxLines
    maxBytes := s.maxBytes }
  let s := if persistIfTruncated && truncation.truncated then s.ensureTempFile else s
  (⟨truncation.content, truncation, s.tempFilePath⟩, s)

end OutputAccumulator

/-- The chunks of an output, and its end. -/
def accumulate (s : OutputAccumulator) (chunks : List (List ℕ)) : Except String OutputAccumulator := do
  let s ← chunks.foldlM OutputAccumulator.append s
  return s.finish

/-! ### What the snapshot should say -/

/-- A snapshot says of an output what a truncation says. -/
structure Agrees (snapshot : OutputSnapshot) (r : TruncationResult) : Prop where
  content : snapshot.content = r.content
  truncated : snapshot.truncation.truncated = r.truncated
  truncatedBy : snapshot.truncation.truncatedBy = r.truncatedBy
  totalLines : snapshot.truncation.totalLines = r.totalLines
  totalBytes : snapshot.truncation.totalBytes = r.totalBytes

/-- What a rolling tail keeps when a piece of text comes. -/
def roll (maxBytes : ℕ) (kept piece : List Char) : List Char :=
  if 4 * maxBytes < byteLength (kept ++ piece) then lastBytes (2 * maxBytes) (kept ++ piece) else kept ++ piece

/-- What a rolling tail keeps of the pieces of a text. -/
def rollingTail (maxBytes : ℕ) (pieces : List (List Char)) : List Char := pieces.foldl (roll maxBytes) []

instance : DecidablePred EndsLine := fun text =>
  decidable_of_iff (text.getLast?.all (· = '\n') = true) (by simp [EndsLine, Option.all_eq_true])

/-- The whole lines of what is kept after `front` was dropped, if a line starts in it. -/
def wholeLines (front kept : List Char) : Option (List Char) :=
  if EndsLine front then some kept else (cutAt ['\n'] kept).map Prod.snd

/-- When the kept tail says what the whole text says. Nothing was dropped; or no line starts in
the tail, and it is not one line within the limits; or its whole lines are none, because the
text ends with its only line end there, and one more line is allowed but the last character is
too wide to be kept; or its whole lines neither make up the line limit within the byte limit,
nor are fewer with a line end after them that is all that can be beyond the byte limit. -/
def SameTruncation (maxLines maxBytes : ℕ) (front kept : List Char) : Prop :=
  front = [] ∨
    match wholeLines front kept with
    | none => ¬(maxLines = 1 ∧ byteLength kept ≤ maxBytes)
    | some lines =>
      if lines = [] then
        1 < maxLines ∧ ∀ c, (front ++ kept).dropLast.getLast? = some c → maxBytes < (utf8Char c).length
      else
        ¬((splitLinesForCounting lines).length = maxLines ∧ byteLength lines ≤ maxBytes) ∧
          ¬((splitLinesForCounting lines).length < maxLines ∧ lines.getLast? = some '\n' ∧
            byteLength lines ≤ maxBytes + 1)

/-- A long line with a line end is cut to the line end, which leaves no line: the snapshot is
empty, where the output has the end of the line. -/
theorem snapshot_drops_line :
    ∃ s, accumulate (.new (some 5) (some 2) "pi-output.log") [List.replicate 8 0x61 ++ [0x0a]] = .ok s ∧
      (s.snapshot false).1.content = [] ∧
      (truncateTail (TextDecoder.decodeAll (List.replicate 8 0x61 ++ [0x0a])) 5 2).content = ['a', 'a'] :=
  ⟨_, rfl, by decide, by decide⟩

end Trek.Tools
