import GreenPipeline.Core.Loop

/-!
# Reading the lines of COPY data

`CopyLoadRawBuf` fills `raw_buf` from the source, which hands out its data in pieces of any size.
`CopyReadLineText` moves one line from `raw_buf` to `line_buf`. It looks for line ends and the
end-of-copy marker only; in CSV mode it keeps just enough state to know whether it is inside
quotes. Where it needs to look at bytes that are not loaded yet it takes the current byte back,
loads more and starts over with this byte.

`raw_buf` is the list of its `raw_buf_len` bytes; behind them stands a zero byte.

Sources: `src/backend/commands/copy.c`.
-/
namespace GreenPipeline.L4.Copy

open GreenPipeline.Core.Loop

abbrev backslash : UInt8 := 0x5C
abbrev newline : UInt8 := 0x0A
abbrev carriageReturn : UInt8 := 0x0D
abbrev period : UInt8 := 0x2E

@[simp] theorem backslash_ne_newline : backslash ≠ newline := by decide
@[simp] theorem backslash_ne_carriageReturn : backslash ≠ carriageReturn := by decide
@[simp] theorem newline_ne_carriageReturn : newline ≠ carriageReturn := by decide
@[simp] theorem carriageReturn_ne_newline : carriageReturn ≠ newline := by decide

inductive EolType
  | unknown
  | nl
  | cr
  | crnl
  deriving DecidableEq, Repr

/-- The errors of the text formats. The texts for line ends depend on the mode. -/
inductive CopyError
  /-- "literal carriage return found in data", or "unquoted carriage return found in data" in CSV
  mode -/
  | carriageReturn (csvMode : Bool)
  /-- "literal newline found in data", or "unquoted newline found in data" in CSV mode -/
  | newline (csvMode : Bool)
  /-- "end-of-copy marker does not match previous newline style" -/
  | markerStyle
  /-- "end-of-copy marker corrupt" -/
  | markerCorrupt
  /-- "extra data after last expected column" -/
  | extraData
  /-- "unterminated CSV quoted field" -/
  | unterminatedField
  /-- "invalid byte sequence for encoding" -/
  | invalidEncoding
  deriving DecidableEq, Repr

/-- The options of the command, and what is known about the encoding of the file. -/
structure CopyOptions where
  csvMode : Bool
  delim : UInt8
  quote : UInt8
  escape : UInt8
  nullPrint : List UInt8
  headerLine : Bool
  forceQuoteFlags : List Bool
  maxFields : ℕ
  /-- `copy_dest == COPY_NEW_FE` -/
  newFe : Bool
  encodingEmbedsAscii : Bool
  /-- `pg_encoding_mblen` of the file's encoding, by first byte -/
  mblen : UInt8 → ℕ
  /-- `pg_verifymbstr` of the server's encoding -/
  verifymbstr : List UInt8 → Bool

structure CopyState where
  /-- what the source has not handed out, cut as it will hand it out -/
  source : List (List UInt8)
  rawBuf : List UInt8
  rawBufIndex : ℕ
  lineBuf : List UInt8
  eolType : EolType
  curLineno : ℕ
  deriving DecidableEq, Repr

/-! ## Loading -/

/-- mirrors copy.c:210 -/
def RAW_BUF_SIZE : ℕ := 65536

/-- At least one byte if there is one, at most `maxread`. mirrors copy.c:557-659 -/
def copyGetData (maxread : ℕ) : List (List UInt8) → List UInt8 × List (List UInt8)
  | [] => ([], [])
  | [] :: msgs => copyGetData maxread msgs
  | (b :: msg) :: msgs => ((b :: msg).take maxread, (b :: msg).drop maxread :: msgs)

/-- mirrors copy.c:737-760 -/
def copyLoadRawBuf (st : CopyState) : Bool × CopyState :=
  let kept := st.rawBuf.drop st.rawBufIndex
  let data := copyGetData (RAW_BUF_SIZE - kept.length) st.source
  (data.1 ≠ [], { st with source := data.2, rawBuf := kept ++ data.1, rawBufIndex := 0 })

/-- mirrors copy.c:270-280 -/
def refillLinebuf (st : CopyState) (rawBufPtr : ℕ) : CopyState :=
  if rawBufPtr > st.rawBufIndex then
    { st with
      lineBuf := st.lineBuf ++ (st.rawBuf.drop st.rawBufIndex).take (rawBufPtr - st.rawBufIndex)
      rawBufIndex := rawBufPtr }
  else st

/-! ## The loop over the bytes of a line -/

/-- The local variables of the loop. -/
structure LineVars where
  rawBufPtr : ℕ
  needData : Bool
  hitEof : Bool
  firstCharInLine : Bool
  inQuote : Bool
  lastWasEsc : Bool
  deriving DecidableEq, Repr

def LineVars.withQuote (v : LineVars) (quoted : Bool × Bool) : LineVars :=
  { v with inQuote := quoted.1, lastWasEsc := quoted.2 }

/-- How a round leaves the loop: with the result and the place it got to, or with an error. -/
abbrev LineResult := Except CopyError (Bool × CopyState × ℕ)

abbrev LineStep := (CopyState × LineVars) ⊕ LineResult

def CopyState.rawAt (st : CopyState) (i : ℕ) : UInt8 := st.rawBuf.getD i 0

/-- The escape byte as the loop compares it. mirrors copy.c:3658-3665 -/
def CopyOptions.lineEscape (o : CopyOptions) : UInt8 := if o.quote = o.escape then 0 else o.escape

/-- The condition of `IF_NEED_REFILL_AND_NOT_EOF_CONTINUE`. mirrors copy.c:241-244 -/
def needRefill (st : CopyState) (v : LineVars) (ptr : ℕ) : Bool :=
  ptr ≥ st.rawBuf.length && !v.hitEof

/-- Take the byte back and ask for data. mirrors copy.c:245-249 -/
def undoFetch (st : CopyState) (v : LineVars) (prevRawPtr : ℕ) : LineStep :=
  .inl (st, { v with rawBufPtr := prevRawPtr, needData := true })

/-- The end of a round: the rest of a multibyte character. mirrors copy.c:3974-3985 -/
def endRound (o : CopyOptions) (st : CopyState) (v : LineVars) (prevRawPtr : ℕ) (c : UInt8)
    (ptr : ℕ) : LineStep :=
  if o.encodingEmbedsAscii && c ≥ 0x80 then
    let extralen := o.mblen c - 1
    if needRefill st v (ptr + extralen) then undoFetch st v prevRawPtr
    else if ptr + extralen ≥ st.rawBuf.length && v.hitEof then
      .inr (.ok (true, st, if extralen ≠ 0 then st.rawBuf.length else ptr))
    else .inl (st, { v with rawBufPtr := ptr + extralen, firstCharInLine := false })
  else .inl (st, { v with rawBufPtr := ptr, firstCharInLine := false })

/-- `NO_END_OF_COPY_GOTO` in CSV mode, an error in text mode. mirrors copy.c:282-288 -/
def noEndOfCopy (o : CopyOptions) (st : CopyState) (v : LineVars) (prevRawPtr : ℕ)
    (e : CopyError) : LineStep :=
  if !o.csvMode then .inr (.error e) else endRound o st v prevRawPtr backslash (prevRawPtr + 1)

/-- The byte that must end the line of the marker, at `ptr`. mirrors copy.c:3907-3941 -/
def endOfMarker (o : CopyOptions) (st : CopyState) (v : LineVars) (prevRawPtr ptr : ℕ) : LineStep :=
  if needRefill st v ptr then undoFetch st v prevRawPtr
  else
    let c2 := st.rawAt ptr
    if c2 ≠ carriageReturn ∧ c2 ≠ newline then noEndOfCopy o st v prevRawPtr .markerCorrupt
    else
      if st.eolType = .nl ∧ c2 ≠ newline ∨ st.eolType = .crnl ∧ c2 ≠ newline ∨ st.eolType = .cr ∧
      c2 ≠ carriageReturn then
      .inr (.error .markerStyle)
    else
      -- only the data before the marker belongs to the line
      .inr (.ok (true, { refillLinebuf st prevRawPtr with rawBufIndex := ptr + 1 }, ptr + 1))

/-- A backslash and a period have been read. mirrors copy.c:3873-3941 -/
def endOfCopy (o : CopyOptions) (st : CopyState) (v : LineVars) (prevRawPtr : ℕ) : LineStep :=
  let ptr := prevRawPtr + 2
  if st.eolType = .crnl then
    if needRefill st v ptr then undoFetch st v prevRawPtr
    else
      let c2 := st.rawAt ptr
      if c2 = newline then noEndOfCopy o st v prevRawPtr .markerStyle
      else if c2 ≠ carriageReturn then noEndOfCopy o st v prevRawPtr .markerCorrupt
      else endOfMarker o st v prevRawPtr (ptr + 1)
  else endOfMarker o st v prevRawPtr ptr

/-- mirrors copy.c:3856-3957 -/
def processBackslash (o : CopyOptions) (st : CopyState) (v : LineVars)
    (prevRawPtr : ℕ) : LineStep :=
  let ptr := prevRawPtr + 1
  if needRefill st v ptr then undoFetch st v prevRawPtr
  -- a backslash just before the end is data
  else if ptr ≥ st.rawBuf.length && v.hitEof then .inr (.ok (true, st, ptr))
  else if st.rawAt ptr = period then endOfCopy o st v prevRawPtr
  else endRound o st v prevRawPtr backslash (if !o.csvMode then ptr + 1 else ptr)

/-- mirrors copy.c:3780-3833 -/
def processCr (o : CopyOptions) (st : CopyState) (v : LineVars) (prevRawPtr : ℕ) : LineStep :=
  let ptr := prevRawPtr + 1
  match st.eolType with
  | .unknown | .crnl =>
    if needRefill st v ptr then undoFetch st v prevRawPtr
    else if st.rawAt ptr = newline then .inr (.ok (false, { st with eolType := .crnl }, ptr + 1))
    else if st.eolType = .crnl then .inr (.error (.carriageReturn o.csvMode))
    else .inr (.ok (false, { st with eolType := .cr }, ptr))
  | .nl => .inr (.error (.carriageReturn o.csvMode))
  | .cr => .inr (.ok (false, st, ptr))

/-- mirrors copy.c:3836-3850 -/
def processNl (o : CopyOptions) (st : CopyState) (prevRawPtr : ℕ) : LineStep :=
  if st.eolType = .cr ∨ st.eolType = .crnl then .inr (.error (.newline o.csvMode))
  else .inr (.ok (false, { st with eolType := .nl }, prevRawPtr + 1))

/-- The quote state after a byte. mirrors copy.c:3762-3767 -/
def quoteState (o : CopyOptions) (inQuote lastWasEsc : Bool) (c : UInt8) : Bool × Bool :=
  let lastWasEsc := if inQuote && c = o.lineEscape then !lastWasEsc else lastWasEsc
  let inQuote := if c = o.quote && !lastWasEsc then !inQuote else inQuote
  (inQuote, if c ≠ o.lineEscape then false else lastWasEsc)

/-- The quote state stays as it is in text mode. -/
def nextQuote (o : CopyOptions) (inQuote lastWasEsc : Bool) (c : UInt8) : Bool × Bool :=
  if o.csvMode then quoteState o inQuote lastWasEsc c else (inQuote, lastWasEsc)

/-- An embedded line end is counted. mirrors copy.c:3775-3776 -/
def embeddedEol (o : CopyOptions) (eolType : EolType) (inQuote : Bool) (c : UInt8) : ℕ :=
  if o.csvMode && inQuote && c = (if eolType = .nl then newline else carriageReturn) then 1 else 0

/-- What a round does with the byte at `raw_buf_ptr`. mirrors copy.c:3734-3985 -/
def processByte (o : CopyOptions) (st : CopyState) (v : LineVars) : LineStep :=
  let prevRawPtr := v.rawBufPtr
  let c := st.rawAt prevRawPtr
  if o.csvMode && (c = backslash || c = carriageReturn) && needRefill st v (prevRawPtr + 1) then
    undoFetch st v prevRawPtr
  else
    let quoted := nextQuote o v.inQuote v.lastWasEsc c
    let v := v.withQuote quoted
    let st := { st with curLineno := st.curLineno + embeddedEol o st.eolType quoted.1 c }
    if c = carriageReturn && (!o.csvMode || !quoted.1) then processCr o st v prevRawPtr
    else if c = newline && (!o.csvMode || !quoted.1) then processNl o st prevRawPtr
    else if c = backslash && (!o.csvMode || v.firstCharInLine) then
      processBackslash o st v prevRawPtr
    else endRound o st v prevRawPtr c (prevRawPtr + 1)

/-- One round of the loop. mirrors copy.c:3694-3986 -/
def lineStep (o : CopyOptions) (s : CopyState × LineVars) : LineStep :=
  if s.2.rawBufPtr ≥ s.1.rawBuf.length || s.2.needData then
    let loaded := copyLoadRawBuf (refillLinebuf s.1 s.2.rawBufPtr)
    let v := { s.2 with hitEof := s.2.hitEof || !loaded.1, rawBufPtr := 0 }
    if loaded.2.rawBuf.length ≤ 0 then .inr (.ok (true, loaded.2, 0))
    else processByte o loaded.2 { v with needData := false }
  else processByte o s.1 s.2

/-- A bound on the rounds for a line: the bytes that are there, counted twice where they are not
loaded yet. -/
def CopyState.rounds (st : CopyState) : ℕ := st.rawBuf.length + 2 * st.source.flatten.length + 3

/-- The flag says that the data ended. mirrors copy.c:3641-3994 -/
def copyReadLineText (o : CopyOptions) (st : CopyState) :
    Option (Except CopyError (Bool × CopyState)) :=
  let v :=
    { rawBufPtr := st.rawBufIndex, needData := false, hitEof := false, firstCharInLine := true,
      inQuote := false, lastWasEsc := false }
  (iterate (lineStep o) st.rounds (st, v)).map fun result => result.map fun r =>
    (r.1, refillLinebuf r.2.1 r.2.2)

/-- The line end is not part of the line. mirrors copy.c:3586-3611 -/
def stripEol (eolType : EolType) (line : List UInt8) : List UInt8 :=
  match eolType with
  | .nl => line.dropLast
  | .cr => line.dropLast
  | .crnl => line.dropLast.dropLast
  | .unknown => line

/-- `CopyReadLine` without conversion to the server's encoding. mirrors copy.c:3552-3635 -/
def copyReadLine (o : CopyOptions) (st : CopyState) :
    Option (Except CopyError (Bool × CopyState)) :=
  (copyReadLineText o { st with lineBuf := [] }).map fun result => result.map fun r =>
    if r.1 then
      -- what follows the marker is read and forgotten
      (true, if o.newFe then { r.2 with source := [], rawBuf := [], rawBufIndex := 0 } else r.2)
    else (false, { r.2 with lineBuf := stripEol r.2.eolType r.2.lineBuf })

end GreenPipeline.L4.Copy
