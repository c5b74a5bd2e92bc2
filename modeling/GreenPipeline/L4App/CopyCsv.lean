import GreenPipeline.L4App.CopyRows
import Mathlib.Data.List.TakeWhile

/-!
# COPY in CSV

A field is quoted if it could be taken for something else: for NULL, for the end of the field or
the line, or, alone in its row, for the end-of-copy marker. Inside quotes the line reader and the
splitting of a line agree on what ends the quotes.

One row is taken for the end-of-copy marker although each of its fields is harmless: a backslash
and NULL with a period as delimiter. This row and all rows behind it are lost.

Results:

* `scanLine_field`: the line reader passes a field without changing its state.
* `scanCsvFields_sendFields`: a line splits into the fields that were written.
* `copyCsv_reads`: what is read is the table up to the first lost row.
* `copyCsv_roundtrip_iff`: a table is read back exactly if it has no such row.
-/
namespace GreenPipeline.L4.Copy

open List

/-- CSV with the default null marker and any delimiter, quote and escape byte that are no line
ends, delimiter and quote not a backslash. -/
structure CsvOptions (o : CopyOptions) : Prop where
  csvMode : o.csvMode = true
  headerLine : o.headerLine = false
  nullPrint : o.nullPrint = []
  encoding : o.encodingEmbedsAscii = false
  delim : o.delim ≠ newline ∧ o.delim ≠ carriageReturn ∧ o.delim ≠ backslash
  quote : o.quote ≠ newline ∧ o.quote ≠ carriageReturn ∧ o.quote ≠ backslash ∧ o.quote ≠ 0
  escape : o.escape ≠ newline ∧ o.escape ≠ carriageReturn ∧ o.escape ≠ 0
  distinct : o.delim ≠ o.quote

def NulFree (s : List UInt8) : Prop := ∀ c ∈ s, c ≠ 0

theorem prepend_prepend (a b : List UInt8) (m n : ℕ) (scan : Except CopyError LineScan) :
    prepend a m (prepend b n scan) = prepend (a ++ b) (m + n) scan := by
  cases scan with
  | error e => rfl
  | ok scan => simp [prepend, Except.map, Nat.add_assoc]

theorem prepend_nil (scan : Except CopyError LineScan) : prepend [] 0 scan = scan := by
  cases scan with
  | error e => rfl
  | ok scan => simp [prepend, Except.map]

section Csv

variable {o : CopyOptions} (ho : CsvOptions o)

include ho

/-! ## The quote state -/

theorem nextQuote_outside (c : UInt8) :
    nextQuote o false false c = (decide (c = o.quote), false) := by
  rw [nextQuote, if_pos ho.csvMode]
  by_cases hc : c = o.quote
  · simp [quoteState, hc]
  · simp [quoteState, hc]

omit ho in
theorem lineEscape_ne {c : UInt8} (hzero : c ≠ 0) (hescape : c ≠ o.escape) : c ≠ o.lineEscape := by
  unfold CopyOptions.lineEscape
  split
  · exact hzero
  · exact hescape

theorem nextQuote_inside {c : UInt8} (hzero : c ≠ 0) (hquote : c ≠ o.quote)
    (hescape : c ≠ o.escape) : nextQuote o true false c = (true, false) := by
  have hline := lineEscape_ne hzero hescape
  rw [nextQuote, if_pos ho.csvMode]
  simp [quoteState, hquote, hline]

theorem nextQuote_close : nextQuote o true false o.quote = (false, false) := by
  rw [nextQuote, if_pos ho.csvMode]
  by_cases heq : o.quote = o.escape
  · simp [quoteState, CopyOptions.lineEscape, heq, ho.escape.2.2]
  · simp [quoteState, CopyOptions.lineEscape, heq]

/-- A quote or an escape byte behind an escape byte leaves the quotes open. -/
theorem nextQuote_escaped {c : UInt8} (hc : c = o.quote ∨ c = o.escape) :
    nextQuote o (nextQuote o true false o.escape).1 (nextQuote o true false o.escape).2 c =
      (true, false) := by
  by_cases heq : o.quote = o.escape
  · -- the byte closes the quotes and opens them again
    have hc' := hc.elim id fun h => h.trans heq.symm
    rw [← heq, nextQuote_close ho, hc', nextQuote_outside ho, decide_eq_true rfl]
  · have hescape : nextQuote o true false o.escape = (true, true) := by
      rw [nextQuote, if_pos ho.csvMode]
      simp [quoteState, CopyOptions.lineEscape, heq, Ne.symm heq]
    rw [hescape, nextQuote, if_pos ho.csvMode]
    rcases hc with rfl | rfl
    · simp [quoteState, CopyOptions.lineEscape, heq]
    · simp [quoteState, CopyOptions.lineEscape, heq, Ne.symm heq]

/-! ## The line of a row -/

/-- A byte that is not looked at is passed. -/
theorem scanLine_pass (eolType : EolType) (first inQuote lastWasEsc : Bool) {c : UInt8}
    (hend : (nextQuote o inQuote lastWasEsc c).1 = true ∨ c ≠ newline ∧ c ≠ carriageReturn)
    (hfirst : first = false ∨ c ≠ backslash) (cs : List UInt8) :
    ∃ n, scanLine o eolType first inQuote lastWasEsc (c :: cs) =
      prepend [c] n (scanLine o eolType false (nextQuote o inQuote lastWasEsc c).1
        (nextQuote o inQuote lastWasEsc c).2 cs) := by
  refine ⟨_, scanLine_plain ?_ ?_ ?_⟩
  · rcases hend with hq | ⟨-, hcr⟩
    · simp [hq, ho.csvMode]
    · simp [hcr]
  · rcases hend with hq | ⟨hnl, -⟩
    · simp [hq, ho.csvMode]
    · simp [hnl]
  · rcases hfirst with hf | hbs
    · simp [hf, ho.csvMode]
    · simp [hbs]

/-- The line reader is outside quotes before and after these bytes, and passes them. -/
def Passed (o : CopyOptions) (inQuote : Bool) (t : List UInt8) (inQuote' : Bool) : Prop :=
  ∀ eolType cs, ∃ n, scanLine o eolType false inQuote false (t ++ cs) =
    prepend t n (scanLine o eolType false inQuote' false cs)

omit ho in
theorem Passed.nil (q : Bool) : Passed o q [] q := fun _ _ => ⟨0, (prepend_nil _).symm⟩

omit ho in
theorem Passed.append {q q' q'' : Bool} {t u : List UInt8} (ht : Passed o q t q')
    (hu : Passed o q' u q'') : Passed o q (t ++ u) q'' := by
  intro eolType cs
  obtain ⟨m, hm⟩ := ht eolType (u ++ cs)
  obtain ⟨n, hn⟩ := hu eolType cs
  exact ⟨m + n, by rw [append_assoc, hm, hn, prepend_prepend]⟩

theorem passed_outside {c : UInt8} (hquote : c ≠ o.quote) (hnl : c ≠ newline)
    (hcr : c ≠ carriageReturn) : Passed o false [c] false := by
  intro eolType cs
  obtain ⟨n, hn⟩ := scanLine_pass ho eolType false false false (Or.inr ⟨hnl, hcr⟩) (Or.inl rfl) cs
  rw [nextQuote_outside ho, decide_eq_false hquote] at hn
  exact ⟨n, hn⟩

theorem passed_open : Passed o false [o.quote] true := by
  intro eolType cs
  obtain ⟨n, hn⟩ :=
    scanLine_pass ho eolType false false false (Or.inr ⟨ho.quote.1, ho.quote.2.1⟩) (Or.inl rfl) cs
  rw [nextQuote_outside ho, decide_eq_true rfl] at hn
  exact ⟨n, hn⟩

theorem passed_close : Passed o true [o.quote] false := by
  intro eolType cs
  obtain ⟨n, hn⟩ :=
    scanLine_pass ho eolType false true false (Or.inr ⟨ho.quote.1, ho.quote.2.1⟩) (Or.inl rfl) cs
  rw [nextQuote_close ho] at hn
  exact ⟨n, hn⟩

theorem passed_inside {c : UInt8} (hzero : c ≠ 0) (hquote : c ≠ o.quote) (hescape : c ≠ o.escape) :
    Passed o true [c] true := by
  intro eolType cs
  have hkeep := nextQuote_inside ho hzero hquote hescape
  obtain ⟨n, hn⟩ :=
    scanLine_pass ho eolType false true false (Or.inl (by rw [hkeep])) (Or.inl rfl) cs
  rw [hkeep] at hn
  exact ⟨n, hn⟩

theorem passed_escaped {c : UInt8} (hc : c = o.quote ∨ c = o.escape) :
    Passed o true [o.escape, c] true := by
  intro eolType cs
  obtain ⟨m, hm⟩ :=
    scanLine_pass ho eolType false true false (Or.inr ⟨ho.escape.1, ho.escape.2.1⟩)
      (Or.inl rfl) (c :: cs)
  have hcn : c ≠ newline ∧ c ≠ carriageReturn := by
    rcases hc with rfl | rfl
    · exact ⟨ho.quote.1, ho.quote.2.1⟩
    · exact ⟨ho.escape.1, ho.escape.2.1⟩
  obtain ⟨n, hn⟩ := scanLine_pass ho eolType false (nextQuote o true false o.escape).1
    (nextQuote o true false o.escape).2 (Or.inr hcn) (Or.inl rfl) cs
  rw [nextQuote_escaped ho hc] at hn
  exact ⟨m + n, by rw [cons_append, singleton_append, hm, hn, prepend_prepend]; rfl⟩

theorem outQuoted_cons (c : UInt8) (s : List UInt8) :
    outQuoted o 0 (c :: s) =
      (if c = o.quote || c = o.escape then [o.escape, c] else [c]) ++ outQuoted o 0 s := by
  rw [outQuoted, ho.encoding, Bool.and_false]
  rfl

variable {s : List UInt8}

theorem passed_outQuoted (hs : NulFree s) : Passed o true (outQuoted o 0 s) true := by
  induction s with
  | nil => exact Passed.nil true
  | cons c s ih =>
    rw [outQuoted_cons ho]
    refine Passed.append ?_ (ih (forall_mem_cons.1 hs).2)
    split
    · rename_i hc
      simp only [Bool.or_eq_true, decide_eq_true_eq] at hc
      exact passed_escaped ho hc
    · rename_i hc
      simp only [Bool.or_eq_true, decide_eq_true_eq, not_or] at hc
      exact passed_inside ho (hs c (mem_cons_self ..)) hc.1 hc.2

/-- Without need for quotes there is nothing special in a field. -/
theorem needsQuote_false (h : needsQuote o 0 s = false) :
    ∀ c ∈ s, c ≠ o.delim ∧ c ≠ o.quote ∧ c ≠ newline ∧ c ≠ carriageReturn := by
  induction s with
  | nil =>
    intro c hc
    cases hc
  | cons c s ih =>
    rw [needsQuote, ho.encoding, Bool.and_false, if_neg Bool.false_ne_true] at h
    split at h
    · cases h
    · rename_i hc
      simp only [Bool.or_eq_true, decide_eq_true_eq, not_or] at hc
      intro d hd
      rcases mem_cons.mp hd with rfl | hd
      · exact ⟨hc.1.1.1, hc.1.1.2, hc.1.2, hc.2⟩
      · exact ih h d hd

theorem passed_plain (hs : ∀ c ∈ s, c ≠ o.delim ∧ c ≠ o.quote ∧ c ≠ newline ∧ c ≠ carriageReturn) :
    Passed o false s false := by
  induction s with
  | nil => exact Passed.nil false
  | cons c s ih =>
    obtain ⟨-, hquote, hnl, hcr⟩ := hs c (mem_cons_self ..)
    exact Passed.append (passed_outside ho hquote hnl hcr) (ih (forall_mem_cons.1 hs).2)

omit ho in
theorem useQuote_false {forced single : Bool} (h : ¬ useQuote o s forced single = true) :
    forced = false ∧ s ≠ o.nullPrint ∧ (single = true → s ≠ [backslash, period]) ∧
    needsQuote o 0 s = false := by
  simp only [useQuote, Bool.or_eq_true, Bool.and_eq_true, decide_eq_true_eq, not_or, not_and,
    Bool.not_eq_true] at h
  exact ⟨h.1.1.1, h.1.1.2, h.1.2, h.2⟩

def FieldOk (f : Field) : Prop := ∀ s, f = some s → NulFree s

/-- The line reader passes a field. -/
theorem scanLine_field {f : Field} (hf : FieldOk f) (single forced : Bool) :
    Passed o false (sendField o single forced f) false := by
  cases f with
  | none =>
    rw [sendField, ho.nullPrint]
    exact Passed.nil false
  | some s =>
    rw [sendField, if_pos ho.csvMode, copyAttributeOutCSV]
    split
    · exact ((passed_open ho).append (passed_outQuoted ho (hf s rfl))).append (passed_close ho)
    · rename_i h
      exact passed_plain ho (needsQuote_false ho (useQuote_false h).2.2.2)

variable {row : List Field}

theorem passed_sendFields (hrow : ∀ f ∈ row, FieldOk f) (single : Bool) (flags : List Bool) :
    Passed o false (sendFields o single flags row) false := by
  induction row generalizing flags with
  | nil => exact Passed.nil false
  | cons f row ih =>
    have hfield := scanLine_field ho (hrow f (mem_cons_self ..)) single (flags.headD false)
    cases row with
    | nil => exact hfield
    | cons f2 row =>
      have hdelim := passed_outside ho ho.distinct ho.delim.1 ho.delim.2.1
      exact hfield.append (hdelim.append (ih (forall_mem_cons.1 hrow).2 flags.tail))

/-! ## The first byte of a line -/

theorem sendField_head (single forced : Bool) :
    ∃ c cs, sendField o single forced (some s) = c :: cs ∧ c ≠ newline ∧ c ≠ carriageReturn := by
  rw [sendField, if_pos ho.csvMode, copyAttributeOutCSV]
  split
  · exact ⟨o.quote, _, rfl, ho.quote.1, ho.quote.2.1⟩
  · rename_i h
    obtain ⟨-, hnull, -, hneeds⟩ := useQuote_false h
    rw [ho.nullPrint] at hnull
    obtain ⟨c, cs, rfl⟩ := exists_cons_of_ne_nil hnull
    have hc := needsQuote_false ho hneeds c (mem_cons_self ..)
    exact ⟨c, cs, rfl, hc.2.2⟩

/-- Only a single NULL gives an empty line, and no line starts with a line end. -/
theorem sendFields_head (single : Bool) (flags : List Bool) (f : Field) (row : List Field) :
    f = none ∧ row = [] ∨ ∃ c cs, sendFields o single flags (f :: row) = c :: cs ∧ c ≠ newline ∧
    c ≠ carriageReturn := by
  cases f with
  | none =>
    cases row with
    | nil => exact Or.inl ⟨rfl, rfl⟩
    | cons f2 row =>
      right
      rw [sendFields, sendField, ho.nullPrint]
      exact ⟨o.delim, _, rfl, ho.delim.1, ho.delim.2.1⟩
  | some s =>
    right
    obtain ⟨c, cs, heq, hc⟩ := sendField_head ho (s := s) single (flags.headD false)
    cases row with
    | nil => exact ⟨c, cs, heq, hc⟩
    | cons f2 row =>
      rw [sendFields, heq]
      exact ⟨c, _, rfl, hc⟩

/-- A row whose line is the end-of-copy marker. -/
def Swallowed (o : CopyOptions) (row : List Field) : Prop :=
  o.delim = period ∧ row = [some [backslash], none] ∧ o.forceQuoteFlags.headD false = false

omit ho in
instance decidableSwallowed (o : CopyOptions) (row : List Field) : Decidable (Swallowed o row) :=
  inferInstanceAs (Decidable (_ ∧ _ ∧ _))

variable {cs : List UInt8}

/-- A field that starts with a backslash stands in the line as it is. -/
theorem sendField_backslash {f : Field} {single forced : Bool}
    (h : sendField o single forced f = backslash :: cs) :
    f = some (backslash :: cs) ∧ ¬ useQuote o (backslash :: cs) forced single = true := by
  cases f with
  | none =>
    rw [sendField, ho.nullPrint] at h
    cases h
  | some s =>
    rw [sendField, if_pos ho.csvMode, copyAttributeOutCSV] at h
    split at h
    · exact absurd (cons.inj h).1 ho.quote.2.2.1
    · rename_i hplain
      exact ⟨congrArg some h, h ▸ hplain⟩

/-- The text behind `\.` at the start of the line of a row that is not lost. -/
theorem sendFields_marker (hrow : ¬ Swallowed o row)
    (h : sendFields o (row.length = 1) o.forceQuoteFlags row = backslash :: period :: cs) :
    ∃ c cs', cs = c :: cs' ∧ c ≠ carriageReturn ∧ c ≠ newline := by
  cases row with
  | nil => cases h
  | cons f row =>
    cases row with
    | nil =>
      obtain ⟨-, hplain⟩ := sendField_backslash ho h
      obtain ⟨-, -, hmarker, hneeds⟩ := useQuote_false hplain
      cases cs with
      | nil => exact absurd rfl (hmarker rfl)
      | cons c cs =>
        have hc := needsQuote_false ho hneeds c (by simp)
        exact ⟨c, cs, rfl, hc.2.2.2, hc.2.2.1⟩
    | cons f2 row =>
      rw [sendFields] at h
      generalize hsend : sendField o _ _ f = t at h
      cases t with
      | nil => exact absurd (cons.inj h).1 ho.delim.2.2
      | cons b t =>
        obtain ⟨rfl, hrest⟩ := cons.inj h
        obtain ⟨rfl, hplain⟩ := sendField_backslash ho hsend
        obtain ⟨hforced, -, -, hneeds⟩ := useQuote_false hplain
        have hbytes := needsQuote_false ho hneeds
        cases t with
        | nil =>
          -- the period is the delimiter, and the next field is not an empty text at the end
          obtain ⟨hdelim, rfl⟩ := cons.inj hrest
          rcases sendFields_head ho (decide ((some [backslash] :: f2 :: row).length = 1))
            o.forceQuoteFlags.tail f2 row with
            ⟨rfl, rfl⟩ | ⟨c, cs', hcs, hnl, hcr⟩
          · exact absurd ⟨hdelim, rfl, hforced⟩ hrow
          · exact ⟨c, cs', hcs, hcr, hnl⟩
        | cons b2 t =>
          obtain ⟨rfl, rfl⟩ := cons.inj hrest
          cases t with
          | nil => exact ⟨o.delim, _, rfl, ho.delim.2.1, ho.delim.1⟩
          | cons c t =>
            have hc := hbytes c (by simp)
            exact ⟨c, _, rfl, hc.2.2.2, hc.2.2.1⟩

section

variable {eolType : EolType} (heol : eolType = .unknown ∨ eolType = .nl)
include heol

/-- Apart from the marker the start of a line is read as any other part of it. -/
theorem scanLine_first {c : UInt8}
    (hcs : c = backslash → cs ≠ [])
    (hmarker : ∀ cs', c = backslash → cs = period :: cs' → cs'.headD 0 ≠ carriageReturn ∧
      cs'.headD 0 ≠ newline) :
    scanLine o eolType true false false (c :: cs) =
      scanLine o eolType false false false (c :: cs) := by
  by_cases hc : c = backslash
  · subst hc
    have hkeep : nextQuote o false false backslash = (false, false) := by
      rw [nextQuote_outside ho, decide_eq_false ho.quote.2.2.1.symm]
    have hcrnl : eolType ≠ .crnl := by
      rcases heol with rfl | rfl
      · decide
      · decide
    obtain ⟨c2, cs, rfl⟩ := exists_cons_of_ne_nil (hcs rfl)
    have hplain : scanLine o eolType false false false (backslash :: c2 :: cs) =
        prepend [backslash] 0 (scanLine o eolType false false false (c2 :: cs)) := by
      rw [scanLine_plain (by simp) (by simp) (by simp [ho.csvMode]), hkeep, embeddedEol_backslash]
    rw [scanLine_backslash hkeep (by simp), hplain]
    split
    · rename_i hperiod
      rw [scanMarker, if_neg hcrnl, scanMarkerEnd, if_pos (hmarker cs rfl (by rw [hperiod])),
        noEndScan, ho.csvMode]
      rfl
    · rw [if_neg (by simp [ho.csvMode])]
  · cases cs with
    | nil =>
      conv_lhs => rw [scanLine]
      conv_rhs => rw [scanLine]
      simp [hc]
    | cons c2 cs =>
      conv_lhs => rw [scanLine]
      conv_rhs => rw [scanLine]
      simp [hc]

/-- The line of a row that is not lost ends at its newline. -/
theorem scanLine_row (hfields : ∀ f ∈ row, FieldOk f)
    (hrow : ¬ Swallowed o row) (rest : List UInt8) :
    ∃ n, scanLine o eolType true false false (copyOneRowTo o row ++ rest) =
      .ok ⟨copyOneRowTo o row, rest, false, .nl, n⟩ := by
  have hnl : scanLine o eolType false false false (newline :: rest) =
      .ok { line := [newline], rest := rest, eof := false, eolType := .nl, embedded := 0 } := by
    have hout : nextQuote o false false newline = (false, false) := by
      rw [nextQuote_outside ho, decide_eq_false ho.quote.1.symm]
    rw [scanLine_nl (by rw [hout, Bool.not_false, Bool.or_true]), scanNl, if_neg]
    rcases heol with rfl | rfl
    · decide
    · decide
  obtain ⟨n, hn⟩ :=
    passed_sendFields ho hfields (row.length = 1) o.forceQuoteFlags eolType (newline :: rest)
  rw [hnl] at hn
  have hsplit : copyOneRowTo o row ++ rest =
      sendFields o (row.length = 1) o.forceQuoteFlags row ++ newline :: rest := by
    rw [copyOneRowTo, append_assoc, singleton_append]
  refine ⟨n, ?_⟩
  have hdone : scanLine o eolType false false false (copyOneRowTo o row ++ rest) =
      .ok ⟨copyOneRowTo o row, rest, false, .nl, n⟩ := by
    rw [hsplit, hn]
    rfl
  rw [← hdone, hsplit]
  cases hline : sendFields o (row.length = 1) o.forceQuoteFlags row with
  | nil =>
    -- an empty line: its newline is the first byte
    exact scanLine_first ho heol (fun hb => absurd hb (by decide)) fun _ hb => absurd hb (by decide)
  | cons c cs =>
    refine scanLine_first ho heol (fun _ => by simp) fun cs' hc hcs => ?_
    subst hc
    cases cs with
    | nil => exact absurd (cons.inj hcs).1 (by decide)
    | cons b cs =>
      obtain ⟨rfl, rfl⟩ := cons.inj hcs
      obtain ⟨c, cs', rfl, hcr, hcnl⟩ := sendFields_marker ho hrow hline
      exact ⟨hcr, hcnl⟩

end

/-! ## Fields -/

/-- Bytes in front of the first field of a text. -/
def CsvFields.prepend (value raw : List UInt8) (fields : CsvFields) : CsvFields :=
  ({ value := value ++ fields.1.value, sawQuote := fields.1.sawQuote, raw := raw ++ fields.1.raw },
    fields.2)

omit ho in
theorem scanCsvFields_plain {c : UInt8} (hdelim : c ≠ o.delim) (hquote : c ≠ o.quote)
    (cs : List UInt8) :
    scanCsvFields o false (c :: cs) = (scanCsvFields o false cs).map (CsvFields.put [c] c) := by
  conv_lhs => unfold scanCsvFields
  rw [if_neg hdelim, if_neg hquote]

omit ho in
/-- Text without special bytes in front of a text. -/
theorem scanCsvFields_plainText
    (hs : ∀ c ∈ s, c ≠ o.delim ∧ c ≠ o.quote ∧ c ≠ newline ∧ c ≠ carriageReturn) {tail : List UInt8}
    {fields : CsvFields} (htail : scanCsvFields o false tail = .ok fields) :
    scanCsvFields o false (s ++ tail) = .ok (fields.prepend s s) := by
  induction s with
  | nil => exact htail
  | cons c s ih =>
    obtain ⟨hdelim, hquote, -⟩ := hs c (mem_cons_self ..)
    rw [cons_append, scanCsvFields_plain hdelim hquote, ih (forall_mem_cons.1 hs).2]
    rfl

/-- The quoted text in front of its closing quote. -/
theorem scanCsvFields_outQuoted (s tail : List UInt8) {fields : CsvFields}
    (htail : scanCsvFields o true (o.quote :: tail) = .ok fields) :
    scanCsvFields o true (outQuoted o 0 s ++ o.quote :: tail) =
      .ok (fields.prepend s (outQuoted o 0 s)) := by
  induction s with
  | nil => exact htail
  | cons c s ih =>
    rw [outQuoted_cons ho, append_assoc]
    split
    · rename_i hc
      have hsecond : (decide (c = o.escape) || decide (c = o.quote)) = true := by
        rw [Bool.or_comm]
        exact hc
      rw [cons_append, singleton_append]
      conv_lhs => rw [scanCsvFields]
      rw [if_pos (by simp [hsecond]), ih]
      rfl
    · rename_i hc
      simp only [Bool.or_eq_true, decide_eq_true_eq, not_or] at hc
      rw [singleton_append]
      cases hmore : outQuoted o 0 s ++ o.quote :: tail with
      | nil => simp at hmore
      | cons c2 cs =>
        rw [hmore] at ih
        conv_lhs => rw [scanCsvFields]
        rw [if_neg (by simp [hc.2]), if_neg hc.1, ih]
        rfl

/-- A closing quote at the end of a field. -/
theorem scanCsvFields_close {tail : List UInt8} (hend : tail = [] ∨ ∃ t, tail = o.delim :: t) :
    scanCsvFields o true (o.quote :: tail) =
      (scanCsvFields o false tail).map (CsvFields.quote o.quote) := by
  rcases hend with rfl | ⟨t, rfl⟩
  · conv_lhs => rw [scanCsvFields]
    rw [if_pos rfl]
  · conv_lhs => rw [scanCsvFields]
    -- a doubled quote would need the delimiter to be a quote
    rw [if_neg, if_pos rfl]
    intro h
    simp only [Bool.and_eq_true, Bool.or_eq_true, decide_eq_true_eq] at h
    rcases h with ⟨hescape, hdelim | hdelim⟩
    · exact ho.distinct (hdelim.trans hescape.symm)
    · exact ho.distinct hdelim

/-- A field in front of a delimiter or the end is found with its value. -/
theorem scanCsvFields_sendField (single forced : Bool) (f : Field) {tail : List UInt8}
    (hend : tail = [] ∨ ∃ t, tail = o.delim :: t) {fields : List CsvField}
    (htail : scanCsvFields o false tail = .ok (noCsvFields.1, fields)) :
    ∃ g, scanCsvFields o false (sendField o single forced f ++ tail) = .ok (g, fields) ∧
      csvFieldValue o g = f := by
  cases f with
  | none =>
    rw [sendField, ho.nullPrint]
    refine ⟨noCsvFields.1, htail, ?_⟩
    rw [csvFieldValue, ho.nullPrint]
    rfl
  | some s =>
    rw [sendField, if_pos ho.csvMode, copyAttributeOutCSV]
    split
    · have hclose : scanCsvFields o true (o.quote :: tail) =
          .ok (CsvFields.quote o.quote (noCsvFields.1, fields)) := by
        rw [scanCsvFields_close ho hend, htail]
        rfl
      have hquoted := scanCsvFields_outQuoted ho s tail hclose
      refine ⟨⟨s, true, o.quote :: (outQuoted o 0 s ++ [o.quote])⟩, ?_, rfl⟩
      rw [cons_append, cons_append, append_assoc, singleton_append]
      conv_lhs => unfold scanCsvFields
      rw [if_neg ho.distinct.symm, if_pos rfl, hquoted]
      simp [Except.map, CsvFields.quote, CsvFields.prepend, noCsvFields]
    · rename_i h
      obtain ⟨-, hnull, -, hneeds⟩ := useQuote_false h
      refine ⟨⟨s, false, s⟩, ?_, ?_⟩
      · rw [scanCsvFields_plainText (needsQuote_false ho hneeds) htail]
        simp [CsvFields.prepend, noCsvFields]
      · rw [csvFieldValue, if_neg (by simp [hnull])]

/-- The line of a row splits into its fields. -/
theorem scanCsvFields_sendFields (single : Bool) (flags : List Bool) (f : Field)
    (row : List Field) :
    ∃ fields, scanCsvFields o false (sendFields o single flags (f :: row)) = .ok fields ∧
      (fields.1 :: fields.2).map (csvFieldValue o) = f :: row := by
  induction row generalizing f flags with
  | nil =>
    obtain ⟨g, hscan, hvalue⟩ :=
      scanCsvFields_sendField ho single (flags.headD false) f (Or.inl rfl) rfl
    rw [append_nil] at hscan
    exact ⟨(g, []), hscan, by rw [map_cons, hvalue]; rfl⟩
  | cons f2 row ih =>
    obtain ⟨fields, hfields, hvalues⟩ := ih flags.tail f2
    have hdelim : scanCsvFields o false (o.delim :: sendFields o single flags.tail (f2 :: row)) =
        .ok (noCsvFields.1, fields.1 :: fields.2) := by
      conv_lhs => unfold scanCsvFields
      rw [if_pos rfl, hfields]
      rfl
    obtain ⟨g, hscan, hvalue⟩ :=
      scanCsvFields_sendField ho single (flags.headD false) f (Or.inr ⟨_, rfl⟩) hdelim
    exact ⟨(g, fields.1 :: fields.2), hscan, by rw [map_cons, hvalue, hvalues]⟩

/-! ## Tables -/

theorem rowReads_csv (hlen : row.length = o.maxFields) (hmax : 0 < o.maxFields)
    (hfields : ∀ f ∈ row, FieldOk f) (hrow : ¬ Swallowed o row) : RowReads o row where
  line := fun _ heol rest => scanLine_row ho heol hfields hrow rest
  fields := by
    cases row with
    | nil =>
      rw [← hlen] at hmax
      exact absurd hmax (Nat.lt_irrefl 0)
    | cons f row =>
      obtain ⟨fields, hscan, hvalues⟩ :=
        scanCsvFields_sendFields ho ((f :: row).length = 1) o.forceQuoteFlags f row
      rw [copyReadAttributes, if_pos ho.csvMode, copyReadAttributesCSV,
        if_neg (Nat.not_le.mpr hmax), hscan]
      exact congrArg Except.ok hvalues

/-- The data ends at a lost row, whatever follows. -/
theorem endsHere_swallowed (hrow : Swallowed o row) (rest : List UInt8) :
    EndsHere o (copyOneRowTo o row ++ rest) := by
  obtain ⟨hdelim, rfl, hforced⟩ := hrow
  have hplain : useQuote o [backslash] false false = false := by
    have hbs :
        ¬ (decide (backslash = o.delim) || decide (backslash = o.quote) ||
          decide (backslash = newline) ||
        decide (backslash = carriageReturn)) = true := by
      simp [ho.delim.2.2.symm, ho.quote.2.2.1.symm]
    rw [useQuote, ho.nullPrint, needsQuote, if_neg hbs]
    simp [needsQuote]
  have hline : copyOneRowTo o [some [backslash], none] ++ rest =
      backslash :: period :: newline :: rest := by
    have hsingle : decide ([some [backslash], (none : Field)].length = 1) = false := rfl
    rw [copyOneRowTo, hsingle, sendFields, sendField, if_pos ho.csvMode, copyAttributeOutCSV,
      hforced, hplain, sendFields, sendField, ho.nullPrint, hdelim]
    rfl
  have hkeep : nextQuote o false false backslash = (false, false) := by
    rw [nextQuote_outside ho, decide_eq_false ho.quote.2.2.1.symm]
  intro eolType heol
  rw [hline, scanLine_backslash hkeep (by simp), if_pos rfl]
  rcases heol with rfl | rfl
  · exact ⟨_, rfl, rfl, rfl⟩
  · exact ⟨_, rfl, rfl, rfl⟩

/-- What is read is the table up to the first lost row. -/
theorem copyCsv_reads (hmax : 0 < o.maxFields) {rows : List (List Field)}
    (hrows : ∀ row ∈ rows, row.length = o.maxFields ∧ ∀ f ∈ row, FieldOk f)
    {source : List (List UInt8)} (hsource : source.flatten = copyTo o rows) {n : ℕ}
    (hn : rows.length < n) :
    copyFrom o n source = some (.ok (rows.takeWhile fun row => !decide (Swallowed o row))) := by
  have hlen := (takeWhile_sublist (l := rows) fun row => !decide (Swallowed o row)).length_le
  have hends : EndsHere o (copyTo o (rows.dropWhile fun row => !decide (Swallowed o row))) := by
    cases hdrop : rows.dropWhile fun row => !decide (Swallowed o row) with
    | nil => exact endsHere_nil o
    | cons row rest =>
      have hhead := head?_dropWhile_not (fun row => !decide (Swallowed o row)) rows
      rw [hdrop] at hhead
      exact endsHere_swallowed ho (by simpa using hhead) _
  refine copyFrom_rows ho.encoding
    (fun _ => ho.quote.2.2.1) ho.headerLine ?_ hends ?_ (Nat.lt_of_le_of_lt hlen hn)
  · intro row hrow
    obtain ⟨hlength, hfields⟩ := hrows row ((takeWhile_sublist _).subset hrow)
    have hkept := mem_takeWhile_imp hrow
    exact rowReads_csv ho hlength hmax hfields (by simpa using hkept)
  · rw [hsource, copyTo, copyTo, copyTo, ← flatMap_append, takeWhile_append_dropWhile]

end Csv

/-- A table is read back, for every way the stream is cut, exactly if none of its rows is lost. As
many calls as there are rows and one more are enough. -/
theorem copyCsv_roundtrip_iff {o : CopyOptions} (ho : CsvOptions o) (hmax : 0 < o.maxFields)
    {rows : List (List Field)}
    (hrows : ∀ row ∈ rows, row.length = o.maxFields ∧ ∀ f ∈ row, FieldOk f)
    {source : List (List UInt8)} (hsource : source.flatten = copyTo o rows) {n : ℕ}
    (hn : rows.length < n) :
    copyFrom o n source = some (.ok rows) ↔ ∀ row ∈ rows, ¬ Swallowed o row := by
  rw [copyCsv_reads ho hmax hrows hsource hn, Option.some.injEq, Except.ok.injEq,
    takeWhile_eq_self_iff]
  simp

/-- CSV with a period as delimiter and two columns. -/
def periodOptions : CopyOptions :=
  ⟨true, period, 0x22, 0x22, [], false, [false, false], 2, false, false, fun _ => 1, fun _ => true⟩

theorem csvOptions_period : CsvOptions periodOptions :=
  ⟨rfl, rfl, rfl, rfl, by decide, by decide, by decide, by decide⟩

/-- A quote, a newline, a backslash in front of a text, an empty text and NULL, in pieces of
different length. -/
theorem copyCsv_roundtrip_pieces :
    copyTo periodOptions [[some [0x22, 0x0A], none], [some [0x5C], some []]] =
        [0x22, 0x22, 0x22, 0x0A, 0x22, 0x2E, 0x0A, 0x5C, 0x2E, 0x22, 0x22, 0x0A] ∧
      copyFrom periodOptions 3
        [[0x22], [0x22, 0x22, 0x0A], [0x22, 0x2E, 0x0A, 0x5C], [0x2E, 0x22], [0x22, 0x0A]] =
        some (.ok [[some [0x22, 0x0A], none], [some [0x5C], some []]]) := by
  refine ⟨by decide, ?_⟩
  refine (copyCsv_roundtrip_iff csvOptions_period (by decide) ?_ (by decide) (by decide)).mpr
    (by decide)
  simp [periodOptions, FieldOk, NulFree]

/-- A table with a lost row: nothing is read, although there is another row behind it. -/
theorem copyCsv_backslash_lost :
    copyTo periodOptions [[some [0x5C], none], [some [0x61], some [0x62]]] =
      [0x5C, 0x2E, 0x0A, 0x61, 0x2E, 0x62, 0x0A] ∧
      copyFrom periodOptions 3 [[0x5C, 0x2E, 0x0A, 0x61, 0x2E, 0x62, 0x0A]] = some (.ok []) := by
  decide

end GreenPipeline.L4.Copy
