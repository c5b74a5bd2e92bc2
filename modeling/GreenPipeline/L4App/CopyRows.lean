import GreenPipeline.L4App.CopyLine

/-!
# Rows of COPY data

The writers of a field in the text format and in CSV, the readers that split a line into fields,
and the loops over the rows of a table. A field is `none` for NULL.

Sources: `src/backend/commands/copy.c`.

Results:

* `nextCopyFromRawFields_row`, `nextCopyFromRawFields_end`: a row that is read, and the end of the
  data.
* `copyFrom_rows`: rows that can be read one by one can be read as a table.
-/
namespace GreenPipeline.L4.Copy

open GreenPipeline.Core.Loop

abbrev Field := Option (List UInt8)

/-! ## Writing -/

/-- The letter for a control character. mirrors copy.c:4584-4603 -/
def controlLetter (c : UInt8) : Option UInt8 :=
  if c = 0x08 then some 0x62
  else if c = 0x0C then some 0x66
  else if c = 0x0A then some 0x6E
  else if c = 0x0D then some 0x72
  else if c = 0x09 then some 0x74
  else if c = 0x0B then some 0x76
  else none

/-- What is sent for one byte. mirrors copy.c:4575-4625 -/
def escapeByte (o : CopyOptions) (c : UInt8) : List UInt8 :=
  if c < 0x20 then
    match controlLetter c with
    | some letter => [backslash, letter]
    | none => if c = o.delim then [backslash, c] else [c]
  else if c = backslash || c = o.delim then [backslash, c]
  else [c]

/-- `skip` bytes of a multibyte character are still to come. mirrors copy.c:4484-4630 -/
def outText (o : CopyOptions) : ℕ → List UInt8 → List UInt8
  | _, [] => []
  | skip + 1, c :: cs => c :: outText o skip cs
  | 0, c :: cs =>
    escapeByte o c ++
      outText o (if o.encodingEmbedsAscii && c ≥ 0x80 && c ≠ o.delim then o.mblen c - 1 else 0) cs

def copyAttributeOutText (o : CopyOptions) (string : List UInt8) : List UInt8 := outText o 0 string

/-- The preliminary pass. mirrors copy.c:4669-4682 -/
def needsQuote (o : CopyOptions) : ℕ → List UInt8 → Bool
  | _, [] => false
  | skip + 1, _ :: cs => needsQuote o skip cs
  | 0, c :: cs =>
    if c = o.delim || c = o.quote || c = newline || c = carriageReturn then true
    else needsQuote o (if c ≥ 0x80 && o.encodingEmbedsAscii then o.mblen c - 1 else 0) cs

/-- mirrors copy.c:4694-4707 -/
def outQuoted (o : CopyOptions) : ℕ → List UInt8 → List UInt8
  | _, [] => []
  | skip + 1, c :: cs => c :: outQuoted o skip cs
  | 0, c :: cs =>
    (if c = o.quote || c = o.escape then [o.escape, c] else [c]) ++
      outQuoted o (if c ≥ 0x80 && o.encodingEmbedsAscii then o.mblen c - 1 else 0) cs

/-- Whether a field is quoted. mirrors copy.c:4647-4684 -/
def useQuote (o : CopyOptions) (string : List UInt8) (forced singleAttr : Bool) : Bool :=
  forced || string = o.nullPrint || (singleAttr && string = [backslash, period]) ||
    needsQuote o 0 string

/-- mirrors copy.c:4637-4716 -/
def copyAttributeOutCSV (o : CopyOptions) (string : List UInt8)
    (forced singleAttr : Bool) : List UInt8 :=
  if useQuote o string forced singleAttr then
    o.quote :: outQuoted o 0 string ++ [o.quote] else string

/-- mirrors copy.c:2129-2148 -/
def sendField (o : CopyOptions) (singleAttr forced : Bool) : Field → List UInt8
  | none => o.nullPrint
  | some string =>
    if o.csvMode then copyAttributeOutCSV o string forced singleAttr
    else copyAttributeOutText o string

/-- The fields of a row with the flags of forced quoting. mirrors copy.c:2116-2160 -/
def sendFields (o : CopyOptions) (singleAttr : Bool) : List Bool → List Field → List UInt8
  | _, [] => []
  | flags, [f] => sendField o singleAttr (flags.headD false) f
  | flags, f :: f2 :: fs =>
    sendField o singleAttr (flags.headD false) f ++
      o.delim :: sendFields o singleAttr flags.tail (f2 :: fs)

/-- mirrors copy.c:2080-2165 -/
def copyOneRowTo (o : CopyOptions) (row : List Field) : List UInt8 :=
  sendFields o (row.length = 1) o.forceQuoteFlags row ++ [newline]

def copyTo (o : CopyOptions) (rows : List (List Field)) : List UInt8 :=
  rows.flatMap (copyOneRowTo o)

/-! ## Splitting a line in the text format -/

/-- A field as it is scanned: de-escaped, whether bytes above ASCII came from escapes, and as it
stands in the line. -/
structure ScannedField where
  value : List UInt8
  sawNonAscii : Bool
  raw : List UInt8
  deriving DecidableEq, Repr

/-- The first field, and those after it. -/
abbrev ScannedFields := ScannedField × List ScannedField

def noFields : ScannedFields := ({ value := [], sawNonAscii := false, raw := [] }, [])

def ScannedFields.put (raw : List UInt8) (c : UInt8) (fields : ScannedFields) : ScannedFields :=
  ({ fields.1 with value := c :: fields.1.value, raw := raw ++ fields.1.raw }, fields.2)

/-- A byte given by its number. -/
def ScannedFields.putCode (raw : List UInt8) (val : ℕ) (fields : ScannedFields) : ScannedFields :=
  let c := UInt8.ofNat (val % 256)
  ({ value := c :: fields.1.value
     sawNonAscii := fields.1.sawNonAscii || c = 0 || c ≥ 0x80
     raw := raw ++ fields.1.raw }, fields.2)

def isOctal (c : UInt8) : Bool := 0x30 ≤ c && c ≤ 0x37

def octValue (c : UInt8) : ℕ := c.toNat - 0x30

def isXdigit (c : UInt8) : Bool :=
  0x30 ≤ c && c ≤ 0x39 || 0x41 ≤ c && c ≤ 0x46 || 0x61 ≤ c && c ≤ 0x66

/-- mirrors copy.c:4000-4006 -/
def getDecimalFromHex (hex : UInt8) : ℕ :=
  if hex ≤ 0x39 then hex.toNat - 0x30 else if hex ≤ 0x46 then hex.toNat - 0x41 + 10
  else hex.toNat - 0x61 + 10

/-- A backslash and a letter that is not a number. mirrors copy.c:4181-4203 -/
def letterEscape (c : UInt8) : UInt8 :=
  if c = 0x62 then 0x08
  else if c = 0x66 then 0x0C
  else if c = 0x6E then 0x0A
  else if c = 0x72 then 0x0D
  else if c = 0x74 then 0x09
  else if c = 0x76 then 0x0B
  else c

/-- mirrors copy.c:4099-4209 -/
def scanTextFields (delim : UInt8) : List UInt8 → ScannedFields
  | [] => noFields
  | c :: cs =>
    if c = delim then (noFields.1, (scanTextFields delim cs).1 :: (scanTextFields delim cs).2)
    else if c = backslash then
      match cs with
      -- the end of the field was in front of the backslash
      | [] => noFields
      | c1 :: cs1 =>
        if isOctal c1 then
          match cs1 with
          | [] => (scanTextFields delim []).putCode [c, c1] (octValue c1)
          | c2 :: cs2 =>
            if isOctal c2 then
              match cs2 with
              | [] => (scanTextFields delim []).putCode [c, c1, c2] (octValue c1 * 8 + octValue c2)
              | c3 :: cs3 =>
                if isOctal c3 then
                  (scanTextFields delim cs3).putCode [c, c1, c2, c3]
                    ((octValue c1 * 8 + octValue c2) * 8 + octValue c3)
                else
                  (scanTextFields delim (c3 :: cs3)).putCode [c, c1, c2]
                    (octValue c1 * 8 + octValue c2)
            else (scanTextFields delim (c2 :: cs2)).putCode [c, c1] (octValue c1)
        else if c1 = 0x78 then
          match cs1 with
          | [] => (scanTextFields delim []).put [c, c1] c1
          | c2 :: cs2 =>
            if isXdigit c2 then
              match cs2 with
              | [] => (scanTextFields delim []).putCode [c, c1, c2] (getDecimalFromHex c2)
              | c3 :: cs3 =>
                if isXdigit c3 then
                  (scanTextFields delim cs3).putCode [c, c1, c2, c3]
                    (getDecimalFromHex c2 * 16 + getDecimalFromHex c3)
                else (scanTextFields delim (c3 :: cs3)).putCode [c, c1, c2] (getDecimalFromHex c2)
            else (scanTextFields delim (c2 :: cs2)).put [c, c1] c1
        else (scanTextFields delim cs1).put [c, c1] (letterEscape c1)
    else (scanTextFields delim cs).put [c] c

/-- The null marker is compared with the field as it stands in the line. mirrors copy.c:4211-4230 -/
def textFieldValue (o : CopyOptions) (f : ScannedField) : Except CopyError Field :=
  if f.raw = o.nullPrint then .ok none
  else if f.sawNonAscii && !o.verifymbstr f.value then .error .invalidEncoding
  else .ok (some f.value)

/-- mirrors copy.c:4028-4247 -/
def copyReadAttributesText (o : CopyOptions) (line : List UInt8) : Except CopyError (List Field) :=
  if o.maxFields ≤ 0 then (if line ≠ [] then .error .extraData else .ok [])
  else ((scanTextFields o.delim line).1 :: (scanTextFields o.delim line).2).mapM (textFieldValue o)

/-! ## Splitting a line in CSV -/

/-- A field as it is scanned: without quotes and escapes, whether there were quotes, and as it
stands in the line. -/
structure CsvField where
  value : List UInt8
  sawQuote : Bool
  raw : List UInt8
  deriving DecidableEq, Repr

abbrev CsvFields := CsvField × List CsvField

def noCsvFields : CsvFields := ({ value := [], sawQuote := false, raw := [] }, [])

def CsvFields.put (raw : List UInt8) (c : UInt8) (fields : CsvFields) : CsvFields :=
  ({ fields.1 with value := c :: fields.1.value, raw := raw ++ fields.1.raw }, fields.2)

/-- A quote that starts or ends a quoted part. -/
def CsvFields.quote (c : UInt8) (fields : CsvFields) : CsvFields :=
  ({ fields.1 with sawQuote := true, raw := c :: fields.1.raw }, fields.2)

/-- The two modes of the scan. mirrors copy.c:4325-4394 -/
def scanCsvFields (o : CopyOptions) : Bool → List UInt8 → Except CopyError CsvFields
  | false, [] => .ok noCsvFields
  | true, [] => .error .unterminatedField
  | false, c :: cs =>
    if c = o.delim then (scanCsvFields o false cs).map fun fields =>
      (noCsvFields.1, fields.1 :: fields.2)
    else if c = o.quote then (scanCsvFields o true cs).map (CsvFields.quote c)
    else (scanCsvFields o false cs).map (CsvFields.put [c] c)
  | true, c :: cs =>
    match cs with
    | [] =>
      if c = o.quote then (scanCsvFields o false []).map (CsvFields.quote c)
      else (scanCsvFields o true []).map (CsvFields.put [c] c)
    | c2 :: cs2 =>
      if c = o.escape && (c2 = o.escape || c2 = o.quote) then
        (scanCsvFields o true cs2).map (CsvFields.put [c, c2] c2)
      else if c = o.quote then (scanCsvFields o false (c2 :: cs2)).map (CsvFields.quote c)
      else (scanCsvFields o true (c2 :: cs2)).map (CsvFields.put [c] c)

/-- mirrors copy.c:4400-4404 -/
def csvFieldValue (o : CopyOptions) (f : CsvField) : Field :=
  if !f.sawQuote && f.raw = o.nullPrint then none else some f.value

/-- mirrors copy.c:4256-4418 -/
def copyReadAttributesCSV (o : CopyOptions) (line : List UInt8) : Except CopyError (List Field) :=
  if o.maxFields ≤ 0 then (if line ≠ [] then .error .extraData else .ok [])
  else (scanCsvFields o false line).map fun fields => (fields.1 :: fields.2).map (csvFieldValue o)

/-! ## Reading rows -/

def copyReadAttributes (o : CopyOptions) (line : List UInt8) : Except CopyError (List Field) :=
  if o.csvMode then copyReadAttributesCSV o line else copyReadAttributesText o line

/-- A line, unless the data ends before it. mirrors copy.c:3259-3280 -/
def readRow (o : CopyOptions) (st : CopyState) :
    Option (Except CopyError (Option (List Field) × CopyState)) :=
  (copyReadLine o { st with curLineno := st.curLineno + 1 }).map fun result => result.bind fun r =>
    if r.1 && r.2.lineBuf = [] then .ok (none, r.2)
    else (copyReadAttributes o r.2.lineBuf).map fun row => (some row, r.2)

/-- mirrors copy.c:3243-3281 -/
def nextCopyFromRawFields (o : CopyOptions) (st : CopyState) :
    Option (Except CopyError (Option (List Field) × CopyState)) :=
  if st.curLineno = 0 && o.headerLine then
    match copyReadLine o { st with curLineno := st.curLineno + 1 } with
    | none => none
    | some (.error e) => some (.error e)
    | some (.ok (true, st)) => some (.ok (none, st))
    | some (.ok (false, st)) => readRow o st
  else readRow o st

/-- One more row, or the end of the table. -/
def rowStep (o : CopyOptions) (s : List (List Field) × CopyState) :
    (List (List Field) × CopyState) ⊕ Option (Except CopyError (List (List Field))) :=
  match nextCopyFromRawFields o s.2 with
  | none => .inr none
  | some (.error e) => .inr (some (.error e))
  | some (.ok (none, _)) => .inr (some (.ok s.1))
  | some (.ok (some row, st)) => .inl (s.1 ++ [row], st)

/-- The state before anything is read. -/
def beginCopyFrom (source : List (List UInt8)) : CopyState :=
  { source := source, rawBuf := [], rawBufIndex := 0, lineBuf := [], eolType := .unknown,
    curLineno := 0 }

/-- The rows of a table, with at most `n` calls; `none` if they do not suffice. -/
def copyFrom (o : CopyOptions) (n : ℕ) (source : List (List UInt8)) :
    Option (Except CopyError (List (List Field))) :=
  (iterate (rowStep o) n ([], beginCopyFrom source)).join

/-! ## Tables -/

/-- The line of a row ends where it should and splits into the row. -/
structure RowReads (o : CopyOptions) (row : List Field) : Prop where
  line : ∀ eolType, eolType = .unknown ∨ eolType = .nl →
    ∀ rest, ∃ n, scanLine o eolType true false false (copyOneRowTo o row ++ rest) =
    .ok { line := copyOneRowTo o row, rest := rest, eof := false, eolType := .nl, embedded := n }
  fields : copyReadAttributes o (sendFields o (row.length = 1) o.forceQuoteFlags row) = .ok row

/-- The data ends here. -/
def EndsHere (o : CopyOptions) (stream : List UInt8) : Prop :=
  ∀ eolType, eolType = .unknown ∨ eolType = .nl →
    ∃ scan, scanLine o eolType true false false stream = .ok scan ∧ scan.eof = true ∧ scan.line = []

theorem endsHere_nil (o : CopyOptions) : EndsHere o [] := fun _ _ => ⟨_, rfl, rfl, rfl⟩

section Table

variable {o : CopyOptions} (hascii : o.encodingEmbedsAscii = false)
  (hquote : o.csvMode = true → o.quote ≠ backslash) (hheader : o.headerLine = false)
  {st : CopyState} (hindex : st.rawBufIndex ≤ st.rawBuf.length)
  (heol : st.eolType = .unknown ∨ st.eolType = .nl)

include hascii hquote hheader hindex heol

omit hheader heol in
/-- A line that is read into the empty line buffer. -/
theorem copyReadLineText_fresh {scan : LineScan}
    (hscan : scanLine o st.eolType true false false st.remaining = .ok scan) :
    ∃ st', copyReadLineText o { st with curLineno := st.curLineno + 1, lineBuf := [] } =
      some (.ok (scan.eof, st')) ∧
      st'.rawBufIndex ≤ st'.rawBuf.length ∧ st'.lineBuf = scan.line ∧ st'.remaining = scan.rest ∧
      st'.eolType = scan.eolType := by
  let fresh : CopyState := { st with curLineno := st.curLineno + 1, lineBuf := [] }
  have hfresh := hscan
  have hindex' : fresh.rawBufIndex ≤ fresh.rawBuf.length := hindex
  obtain ⟨st', hread, hindex', hline, hrest, heol', -⟩ :=
    copyReadLineText_ok hascii hquote hindex' hfresh
  exact ⟨st', hread, hindex', hline, hrest, heol'⟩

theorem nextCopyFromRawFields_row {row : List Field} {rest : List UInt8} (hrow : RowReads o row)
    (hstream : st.remaining = copyOneRowTo o row ++ rest) :
    ∃ st', nextCopyFromRawFields o st = some (.ok (some row, st')) ∧
      st'.rawBufIndex ≤ st'.rawBuf.length ∧ st'.eolType = .nl ∧
      st'.remaining = rest := by
  obtain ⟨n, hscan⟩ := hrow.line st.eolType heol rest
  rw [← hstream] at hscan
  obtain ⟨st', hread, hindex', hline, hrest, heol'⟩ :=
    copyReadLineText_fresh hascii hquote hindex hscan
  have hstrip : stripEol st'.eolType st'.lineBuf =
      sendFields o (row.length = 1) o.forceQuoteFlags row := by
    rw [heol', hline]
    exact List.dropLast_concat
  refine ⟨{ st' with lineBuf := stripEol st'.eolType st'.lineBuf }, ?_, hindex', heol', hrest⟩
  rw [nextCopyFromRawFields, hheader, Bool.and_false, if_neg Bool.false_ne_true, readRow,
    copyReadLine, hread]
  simp only [Option.map_some, Except.map, Except.bind, Bool.false_eq_true, if_false, Bool.false_and]
  rw [hstrip, hrow.fields]

theorem nextCopyFromRawFields_end (hend : EndsHere o st.remaining) :
    ∃ st', nextCopyFromRawFields o st = some (.ok (none, st')) := by
  obtain ⟨scan, hscan, heof, hempty⟩ := hend st.eolType heol
  obtain ⟨st', hread, -, hline, -⟩ := copyReadLineText_fresh hascii hquote hindex hscan
  rw [hempty] at hline
  rw [nextCopyFromRawFields, hheader, Bool.and_false, if_neg Bool.false_ne_true, readRow,
    copyReadLine, hread, heof]
  simp only [Option.map_some, Except.map, Except.bind, if_true, Bool.true_and]
  rw [if_pos (by split <;> exact decide_eq_true hline)]
  exact ⟨_, rfl⟩

/-- The rows are read one by one, up to the end of the data. -/
theorem rows_read {rows : List (List Field)} (hrows : ∀ row ∈ rows, RowReads o row)
    {tail : List UInt8} (htail : EndsHere o tail) (hstream : st.remaining = copyTo o rows ++ tail)
    {n : ℕ} (hn : rows.length < n) (before : List (List Field)) :
    iterate (rowStep o) n (before, st) = some (some (.ok (before ++ rows))) := by
  induction rows generalizing st n before with
  | nil =>
    obtain ⟨n, rfl⟩ : ∃ m, n = m + 1 := ⟨n - 1, by omega⟩
    obtain ⟨st', hnext⟩ :=
      nextCopyFromRawFields_end hascii hquote hheader hindex heol (hstream ▸ htail)
    rw [List.append_nil]
    apply iterate_of_inr
    rw [rowStep, hnext]
  | cons row rows ih =>
    rw [List.length_cons] at hn
    obtain ⟨n, rfl⟩ : ∃ m, n = m + 1 := ⟨n - 1, by omega⟩
    rw [copyTo, List.flatMap_cons, List.append_assoc] at hstream
    obtain ⟨st', hnext, hindex', heol', hrest⟩ :=
      nextCopyFromRawFields_row hascii hquote hheader hindex heol
        (hrows row (List.mem_cons_self ..)) hstream
    have hstep : rowStep o (before, st) = .inl (before ++ [row], st') := by
      rw [rowStep, hnext]
    rw [iterate_of_inl hstep,
      ih hindex' (Or.inr heol') (List.forall_mem_cons.1 hrows).2 hrest (by omega),
      List.append_assoc]
    rfl

end Table

/-- Rows that can be read one by one can be read as a table. -/
theorem copyFrom_rows {o : CopyOptions} (hascii : o.encodingEmbedsAscii = false)
    (hquote : o.csvMode = true → o.quote ≠ backslash)
    (hheader : o.headerLine = false) {rows : List (List Field)}
    (hrows : ∀ row ∈ rows, RowReads o row) {tail : List UInt8} (htail : EndsHere o tail)
    {source : List (List UInt8)} (hsource : source.flatten = copyTo o rows ++ tail) {n : ℕ}
    (hn : rows.length < n) :
    copyFrom o n source = some (.ok rows) := by
  have hstream : (beginCopyFrom source).remaining = copyTo o rows ++ tail := hsource
  have hread : iterate (rowStep o) n ([], beginCopyFrom source) = some (some (.ok ([] ++ rows))) :=
    rows_read hascii hquote hheader (Nat.le_refl 0) (Or.inl rfl) hrows htail hstream hn []
  rw [copyFrom, hread]
  rfl

end GreenPipeline.L4.Copy
