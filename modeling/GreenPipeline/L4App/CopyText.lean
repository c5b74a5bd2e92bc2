import GreenPipeline.L4App.CopyRows

/-!
# COPY in the text format

Backslashes, delimiters and some control characters are written behind a backslash, so a line
holds no line end and no end-of-copy marker, and a field holds no bare delimiter. No delimiter
`ProcessCopyOptions` accepts has a meaning behind a backslash.

Results:

* `scanLine_text`: the line of a row ends at its newline.
* `scanTextFields_sendFields`: it splits into the fields that were written.
* `copyText_roundtrip`: a table that is written is read back, however the stream is cut.
-/
namespace GreenPipeline.L4.Copy

open GreenPipeline.Core.Loop List

/-- The delimiters accepted in the text format with the default null marker. mirrors
src/backend/commands/copy.c:1244-1278, 1344-1348 -/
def delimAccepted (delim : UInt8) : Bool :=
  delim ≠ 0 && delim ≠ carriageReturn && delim ≠ newline &&
    !(delim = backslash || delim = period || 0x61 ≤ delim && delim ≤ 0x7A || 0x30 ≤
      delim && delim ≤ 0x39) &&
    delim ≠ 0x4E

/-- The text format with its defaults, in an encoding without ASCII bytes in multibyte
characters. -/
structure TextOptions (o : CopyOptions) : Prop where
  csvMode : o.csvMode = false
  headerLine : o.headerLine = false
  nullPrint : o.nullPrint = [backslash, 0x4E]
  delim : delimAccepted o.delim = true
  encoding : o.encodingEmbedsAscii = false

/-- A part of a line without line ends and end-of-copy markers. -/
inductive LineText : List UInt8 → Prop
  | nil : LineText []
  | plain (c : UInt8) (t : List UInt8) : c ≠ backslash → c ≠ newline → c ≠ carriageReturn →
      LineText t → LineText (c :: t)
  | escaped (c : UInt8) (t : List UInt8) : c ≠ period → LineText t → LineText (backslash :: c :: t)

theorem LineText.append {t u : List UInt8} (ht : LineText t) (hu : LineText u) :
    LineText (t ++ u) := by
  induction ht with
  | nil => exact hu
  | plain c t hbs hnl hcr _ ih => exact .plain c _ hbs hnl hcr ih
  | escaped c t hdot _ ih => exact .escaped c _ hdot ih

section Text

variable {o : CopyOptions} (ho : TextOptions o)

include ho

/-! ## Bytes that are written -/

theorem TextOptions.delim_ne : o.delim ≠ carriageReturn ∧ o.delim ≠ newline ∧ o.delim ≠ backslash ∧
    o.delim ≠ period ∧ o.delim ≠ 0x4E := by
  have h := ho.delim
  simp only [delimAccepted, Bool.and_eq_true, decide_eq_true_eq, Bool.not_eq_true',
    Bool.or_eq_false_iff, decide_eq_false_iff_not] at h
  exact ⟨h.1.1.1.2, h.1.1.2, h.1.2.1.1.1, h.1.2.1.1.2, h.2⟩

/-- The delimiter behind a backslash stands for itself. -/
theorem TextOptions.delim_escape :
    letterEscape o.delim = o.delim ∧ isOctal o.delim = false ∧ o.delim ≠ 0x78 := by
  have h := ho.delim
  simp only [delimAccepted, Bool.and_eq_true, Bool.not_eq_true', Bool.or_eq_false_iff] at h
  obtain ⟨⟨-, ⟨-, hletter⟩, hdigit⟩, -⟩ := h
  have hne : ∀ c : UInt8, (0x61 ≤ c && c ≤ 0x7A) = true → o.delim ≠ c := by
    intro c hc heq
    rw [heq, hc] at hletter
    cases hletter
  refine ⟨?_, ?_, hne _ (by decide)⟩
  · unfold letterEscape
    rw [if_neg (hne _ (by decide)), if_neg (hne _ (by decide)), if_neg (hne _ (by decide)),
      if_neg (hne _ (by decide)), if_neg (hne _ (by decide)), if_neg (hne _ (by decide))]
  · have hrange : isOctal o.delim = true → (0x30 ≤ o.delim && o.delim ≤ 0x39) = true := by
      unfold isOctal
      simp only [Bool.and_eq_true, decide_eq_true_eq]
      intro h
      exact ⟨h.1, UInt8.le_trans h.2 (by decide)⟩
    exact Bool.eq_false_iff.mpr fun hoct => Bool.eq_false_iff.mp hdigit (hrange hoct)

omit ho in
theorem controlLetter_spec {c letter : UInt8} (h : controlLetter c = some letter) :
    letterEscape letter = c ∧ isOctal letter = false ∧ letter ≠ 0x78 ∧ letter ≠ period ∧
    letter ≠ 0x4E := by
  unfold controlLetter at h
  repeat' split at h
  all_goals cases h
  all_goals
    subst_vars
    decide

/-- A byte is written as it is, or behind a backslash in a way that is read as the byte. -/
theorem escapeByte_cases (c : UInt8) :
    (escapeByte o c = [c] ∧ c ≠ backslash ∧ c ≠ o.delim ∧ c ≠ newline ∧ c ≠ carriageReturn) ∨
      ∃ c1, escapeByte o c = [backslash, c1] ∧ letterEscape c1 = c ∧ isOctal c1 = false ∧
        c1 ≠ 0x78 ∧ c1 ≠ period ∧ c1 ≠ 0x4E := by
  obtain ⟨hescape, hoctal, hx⟩ := ho.delim_escape
  obtain ⟨-, -, -, hdot, hN⟩ := ho.delim_ne
  unfold escapeByte
  by_cases hcontrol : c < 0x20
  · rw [if_pos hcontrol]
    cases hletter : controlLetter c with
    | some letter =>
      obtain ⟨h1, h2, h3, h4, h5⟩ := controlLetter_spec hletter
      exact Or.inr ⟨letter, rfl, h1, h2, h3, h4, h5⟩
    | none =>
      by_cases hdelim : c = o.delim
      · refine Or.inr ⟨c, if_pos hdelim, ?_⟩
        rw [hdelim]
        exact ⟨hescape, hoctal, hx, hdot, hN⟩
      · refine Or.inl ⟨if_neg hdelim, ?_, hdelim, ?_, ?_⟩
        · rintro rfl
          exact absurd hcontrol (by decide)
        · rintro rfl
          exact absurd hletter (by decide)
        · rintro rfl
          exact absurd hletter (by decide)
  · rw [if_neg hcontrol]
    by_cases hspecial : (c = backslash || c = o.delim) = true
    · refine Or.inr ⟨c, if_pos hspecial, ?_⟩
      simp only [Bool.or_eq_true, decide_eq_true_eq] at hspecial
      rcases hspecial with rfl | hdelim
      · decide
      · rw [hdelim]
        exact ⟨hescape, hoctal, hx, hdot, hN⟩
    · rw [if_neg hspecial]
      simp only [Bool.or_eq_true, decide_eq_true_eq, not_or] at hspecial
      refine Or.inl ⟨rfl, hspecial.1, hspecial.2, ?_, ?_⟩
      · rintro rfl
        exact hcontrol (by decide)
      · rintro rfl
        exact hcontrol (by decide)

theorem outText_cons (c : UInt8) (cs : List UInt8) :
    outText o 0 (c :: cs) = escapeByte o c ++ outText o 0 cs := by
  rw [outText, ho.encoding]
  rfl

/-! ## Lines -/

theorem lineText_escapeByte (c : UInt8) : LineText (escapeByte o c) := by
  rcases escapeByte_cases ho c with ⟨heq, hbs, -, hnl, hcr⟩ | ⟨c1, heq, -, -, -, hdot, -⟩
  · rw [heq]
    exact .plain c [] hbs hnl hcr .nil
  · rw [heq]
    exact .escaped c1 [] hdot .nil

theorem lineText_outText (s : List UInt8) : LineText (outText o 0 s) := by
  induction s with
  | nil => exact .nil
  | cons c s ih =>
    rw [outText_cons ho]
    exact (lineText_escapeByte ho c).append ih

theorem lineText_sendField (single forced : Bool) (f : Field) :
    LineText (sendField o single forced f) := by
  cases f with
  | none =>
    rw [sendField, ho.nullPrint]
    exact .escaped _ [] (by decide) .nil
  | some s =>
    rw [sendField, ho.csvMode]
    exact lineText_outText ho s

theorem lineText_sendFields (single : Bool) (flags : List Bool) (row : List Field) :
    LineText (sendFields o single flags row) := by
  obtain ⟨hcr, hnl, hbs, -, -⟩ := ho.delim_ne
  induction row generalizing flags with
  | nil => exact .nil
  | cons f row ih =>
    cases row with
    | nil => exact lineText_sendField ho _ _ f
    | cons f2 row =>
      exact (lineText_sendField ho _ _ f).append (.plain _ _ hbs hnl hcr (ih flags.tail))

/-- The line ends at the newline behind such a text. -/
theorem scanLine_text {eolType : EolType} (heol : eolType = .unknown ∨ eolType = .nl)
    {t : List UInt8} (ht : LineText t) (rest : List UInt8) (first inQuote lastWasEsc : Bool) :
    scanLine o eolType first inQuote lastWasEsc (t ++ newline :: rest) =
      .ok ⟨t ++ [newline], rest, false, .nl, 0⟩ := by
  have hkeep : ∀ c, nextQuote o inQuote lastWasEsc c = (inQuote, lastWasEsc) := by
    intro c
    rw [nextQuote, ho.csvMode]
    rfl
  have hzero : ∀ c, embeddedEol o eolType inQuote c = 0 := by
    intro c
    rw [embeddedEol, ho.csvMode]
    rfl
  induction ht generalizing first with
  | nil =>
    rw [nil_append, scanLine_nl (by rw [ho.csvMode]; rfl), scanNl, if_neg]
    · rfl
    · rcases heol with rfl | rfl
      · decide
      · decide
  | plain c t hbs hnl hcr _ ih =>
    rw [cons_append, scanLine_plain (by simp [hcr]) (by simp [hnl]) (by simp [hbs]),
      hkeep, hzero, ih]
    rfl
  | escaped c t hdot _ ih =>
    rw [cons_append, cons_append, scanLine_backslash (hkeep _) (by rw [ho.csvMode]; rfl),
      if_neg hdot, if_pos (by rw [ho.csvMode]; rfl), ih]
    rfl

/-! ## Fields -/

/-- A field as the scan finds it. -/
def textField (o : CopyOptions) : Field → ScannedField
  | none => { value := [0x4E], sawNonAscii := false, raw := [backslash, 0x4E] }
  | some s => { value := s, sawNonAscii := false, raw := outText o 0 s }

omit ho in
theorem scanTextFields_plain {delim c : UInt8} (hdelim : c ≠ delim) (hbs : c ≠ backslash)
    (cs : List UInt8) :
    scanTextFields delim (c :: cs) = (scanTextFields delim cs).put [c] c := by
  conv_lhs => unfold scanTextFields
  rw [if_neg hdelim, if_neg hbs]

omit ho in
theorem scanTextFields_escaped {delim c : UInt8} (hdelim : delim ≠ backslash)
    (hoctal : isOctal c = false) (hx : c ≠ 0x78) (cs : List UInt8) :
    scanTextFields delim (backslash :: c :: cs) =
      (scanTextFields delim cs).put [backslash, c] (letterEscape c) := by
  conv_lhs => unfold scanTextFields
  rw [if_neg hdelim.symm, if_pos rfl]
  dsimp only
  rw [if_neg (by rw [hoctal]; exact Bool.false_ne_true), if_neg hx]

/-- A field in front of a text belongs to the first field of the text. -/
def ScannedFields.prepend (f : ScannedField) (fields : ScannedFields) : ScannedFields :=
  (⟨f.value ++ fields.1.value, fields.1.sawNonAscii, f.raw ++ fields.1.raw⟩, fields.2)

omit ho in
theorem prepend_noFields (o : CopyOptions) (f : Field) (fields : List ScannedField) :
    ScannedFields.prepend (textField o f) (noFields.1, fields) = (textField o f, fields) := by
  cases f with
  | none => rfl
  | some s => simp [ScannedFields.prepend, noFields, textField]

theorem scanTextFields_outText (s tail : List UInt8) :
    scanTextFields o.delim (outText o 0 s ++ tail) =
      (scanTextFields o.delim tail).prepend (textField o (some s)) := by
  induction s with
  | nil => rfl
  | cons c s ih =>
    rw [outText_cons ho, append_assoc]
    rcases escapeByte_cases ho c with ⟨heq, hbs, hdelim, -⟩ | ⟨c1, heq, hvalue, hoctal, hx, -⟩
    · rw [heq, singleton_append, scanTextFields_plain hdelim hbs, ih]
      simp [ScannedFields.put, ScannedFields.prepend, textField, outText_cons ho, heq]
    · rw [heq, cons_append, singleton_append,
        scanTextFields_escaped ho.delim_ne.2.2.1 hoctal hx, ih, hvalue]
      simp [ScannedFields.put, ScannedFields.prepend, textField, outText_cons ho, heq]

theorem scanTextFields_sendField (single forced : Bool) (f : Field) (tail : List UInt8) :
    scanTextFields o.delim (sendField o single forced f ++ tail) =
      (scanTextFields o.delim tail).prepend (textField o f) := by
  cases f with
  | none =>
    rw [sendField, ho.nullPrint]
    exact scanTextFields_escaped ho.delim_ne.2.2.1 (by decide) (by decide) tail
  | some s =>
    rw [sendField, ho.csvMode]
    exact scanTextFields_outText ho s tail

/-- The line of a row splits into its fields. -/
theorem scanTextFields_sendFields (single : Bool) (flags : List Bool) (f : Field)
    (row : List Field) :
    scanTextFields o.delim (sendFields o single flags (f :: row)) =
      (textField o f, row.map (textField o)) := by
  induction row generalizing f flags with
  | nil =>
    have h := scanTextFields_sendField ho single (flags.headD false) f []
    rw [append_nil] at h
    rw [sendFields, h]
    exact prepend_noFields o f []
  | cons f2 row ih =>
    have hdelim : scanTextFields o.delim (o.delim :: sendFields o single flags.tail (f2 :: row)) =
        (noFields.1, textField o f2 :: row.map (textField o)) := by
      conv_lhs => unfold scanTextFields
      rw [if_pos rfl, ih]
    rw [sendFields, scanTextFields_sendField ho, hdelim]
    exact prepend_noFields o f _

/-- A field that is written is not the null marker. -/
theorem outText_ne_nullPrint (s : List UInt8) : outText o 0 s ≠ o.nullPrint := by
  rw [ho.nullPrint]
  cases s with
  | nil => exact fun h => (by cases h)
  | cons c s =>
    rw [outText_cons ho]
    rcases escapeByte_cases ho c with ⟨heq, hbs, -⟩ | ⟨c1, heq, -, -, -, -, hN⟩
    · rw [heq]
      intro h
      exact hbs (cons.inj h).1
    · rw [heq]
      intro h
      exact hN (cons.inj (cons.inj h).2).1

theorem textFieldValue_textField (f : Field) : textFieldValue o (textField o f) = .ok f := by
  cases f with
  | none => rw [textFieldValue, textField, if_pos ho.nullPrint.symm]
  | some s =>
    rw [textFieldValue, textField, if_neg (outText_ne_nullPrint ho s)]
    rfl

theorem rowReads_text {row : List Field} (hrow : row.length = o.maxFields) : RowReads o row where
  line := by
    intro eolType heol rest
    refine ⟨0, ?_⟩
    rw [copyOneRowTo, append_assoc, singleton_append]
    exact scanLine_text ho heol (lineText_sendFields ho _ _ row) rest true false false
  fields := by
    rw [copyReadAttributes, ho.csvMode, if_neg Bool.false_ne_true, copyReadAttributesText]
    cases row with
    | nil =>
      rw [← hrow]
      rfl
    | cons f row =>
      rw [if_neg (by rw [← hrow]; exact Nat.not_succ_le_zero _), scanTextFields_sendFields ho]
      have hvalues : (f :: row).mapM (textFieldValue o ∘ textField o) = .ok ((f :: row).map id) :=
        mapM_eq_pure_map fun f _ => textFieldValue_textField ho f
      rw [map_id] at hvalues
      exact (mapM_map (f := textField o) (l := f :: row)).trans hvalues

end Text

/-- A table written in the text format is read back, for every way the stream is cut. As many
calls as there are rows and one more are enough. -/
theorem copyText_roundtrip {o : CopyOptions} (ho : TextOptions o) {rows : List (List Field)}
    (hrows : ∀ row ∈ rows, row.length = o.maxFields) {source : List (List UInt8)}
    (hsource : source.flatten = copyTo o rows) {n : ℕ} (hn : rows.length < n) :
    copyFrom o n source = some (.ok rows) := by
  apply copyFrom_rows ho.encoding _ ho.headerLine _ (endsHere_nil o)
    (hsource.trans (append_nil _).symm) hn
  · intro hcsv
    rw [ho.csvMode] at hcsv
    cases hcsv
  · intro row hrow
    exact rowReads_text ho (hrows row hrow)

/-- Two rows with a tab, a newline, a marker and NULL, read byte by byte. -/
theorem copyText_roundtrip_bytewise :
    ∃ o : CopyOptions, TextOptions o ∧
      copyTo o [[some [0x61, 0x09, 0x0A], none], [some [0x5C, 0x2E], some []]] =
        [0x61, 0x5C, 0x74, 0x5C, 0x6E, 0x09, 0x5C, 0x4E, 0x0A, 0x5C, 0x5C, 0x2E, 0x09, 0x0A] ∧
      copyFrom o 3 [[0x61], [0x5C], [0x74], [0x5C], [0x6E], [0x09], [0x5C], [0x4E], [0x0A], [0x5C],
        [0x5C], [0x2E], [0x09], [0x0A]] =
        some (.ok [[some [0x61, 0x09, 0x0A], none], [some [0x5C, 0x2E], some []]]) := by
  refine ⟨⟨false, 0x09, 0x22, 0x22, [0x5C, 0x4E], false, [], 2, false, false, fun _ => 1,
    fun _ => true⟩, ⟨rfl, rfl, rfl, by decide, rfl⟩, by decide, ?_⟩
  exact copyText_roundtrip ⟨rfl, rfl, rfl, by decide, rfl⟩ (by decide) (by decide) (by decide)

end GreenPipeline.L4.Copy
