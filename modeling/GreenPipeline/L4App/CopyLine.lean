import GreenPipeline.L4App.CopyState
import Mathlib.Data.List.GetD

/-!
# Lines do not depend on the buffers

`scanLine` finds the next line in a stream of bytes. `CopyReadLineText` finds the same line
however the source cuts the stream: the bytes that are taken back when more data has to be loaded
are read again with the same quote state. This needs that the quote byte is not a backslash.

Results:

* `processByte_round`: what a round does with a byte, in terms of the stream.
* `copyReadLineText_ok`, `copyReadLineText_error`: the line reader finds the line `scanLine`
  finds, or reports the same error.
-/
namespace GreenPipeline.L4.Copy

open GreenPipeline.Core.Loop List

/-! ## The line at the front of a stream -/

/-- The line with its end, what follows it, whether the data ended, and the embedded line ends
counted. -/
structure LineScan where
  line : List UInt8
  rest : List UInt8
  eof : Bool
  eolType : EolType
  embedded : ℕ
  deriving DecidableEq, Repr

/-- What `\.` is: the end of the data, an error or data. -/
inductive MarkerScan
  | stop (rest : List UInt8)
  | fail (e : CopyError)
  | data
  deriving DecidableEq, Repr

def noEndScan (o : CopyOptions) (e : CopyError) : MarkerScan :=
  if !o.csvMode then .fail e else .data

def scanMarkerEnd (o : CopyOptions) (eolType : EolType) (cs : List UInt8) : MarkerScan :=
  let c2 := cs.headD 0
  if c2 ≠ carriageReturn ∧ c2 ≠ newline then noEndScan o .markerCorrupt
  else
    if eolType = .nl ∧ c2 ≠ newline ∨ eolType = .crnl ∧ c2 ≠ newline ∨ eolType = .cr ∧
    c2 ≠ carriageReturn then .fail .markerStyle
  else .stop cs.tail

/-- The bytes after `\.` decide. -/
def scanMarker (o : CopyOptions) (eolType : EolType) (cs : List UInt8) : MarkerScan :=
  if eolType = .crnl then
    if cs.headD 0 = newline then noEndScan o .markerStyle
    else if cs.headD 0 ≠ carriageReturn then noEndScan o .markerCorrupt
    else scanMarkerEnd o eolType cs.tail
  else scanMarkerEnd o eolType cs

def scanCr (o : CopyOptions) (eolType : EolType) (cs : List UInt8) : Except CopyError LineScan :=
  match eolType with
  | .unknown | .crnl =>
    if cs.headD 0 = newline then
      .ok {
        line := [carriageReturn, newline], rest := cs.tail, eof := false, eolType := .crnl,
        embedded := 0 }
    else if eolType = .crnl then .error (.carriageReturn o.csvMode)
    else .ok { line := [carriageReturn], rest := cs, eof := false, eolType := .cr, embedded := 0 }
  | .nl => .error (.carriageReturn o.csvMode)
  | .cr => .ok { line := [carriageReturn], rest := cs, eof := false, eolType := .cr, embedded := 0 }

def scanNl (o : CopyOptions) (eolType : EolType) (cs : List UInt8) : Except CopyError LineScan :=
  if eolType = .cr ∨ eolType = .crnl then .error (.newline o.csvMode)
  else .ok { line := [newline], rest := cs, eof := false, eolType := .nl, embedded := 0 }

/-- Bytes in front of a line, and the embedded line ends among them. -/
def prepend (bs : List UInt8) (n : ℕ) (scan : Except CopyError LineScan) :
    Except CopyError LineScan :=
  scan.map fun s => { s with line := bs ++ s.line, embedded := n + s.embedded }

/-- The line that starts with `\.`; `data` is the line if this is data. -/
def ofMarker (eolType : EolType) (data : Except CopyError LineScan) :
    MarkerScan → Except CopyError LineScan
  | .stop rest => .ok { line := [], rest := rest, eof := true, eolType := eolType, embedded := 0 }
  | .fail e => .error e
  | .data => data

/-- The line at the front of a stream. -/
def scanLine (o : CopyOptions) (eolType : EolType) (firstCharInLine inQuote lastWasEsc : Bool) :
    List UInt8 → Except CopyError LineScan
  | [] => .ok { line := [], rest := [], eof := true, eolType := eolType, embedded := 0 }
  | c :: cs =>
    let quoted := nextQuote o inQuote lastWasEsc c
    let n := embeddedEol o eolType quoted.1 c
    if c = carriageReturn && (!o.csvMode || !quoted.1) then scanCr o eolType cs
    else if c = newline && (!o.csvMode || !quoted.1) then scanNl o eolType cs
    else if c = backslash && (!o.csvMode || firstCharInLine) then
      match cs with
      | [] => .ok { line := [c], rest := [], eof := true, eolType := eolType, embedded := 0 }
      | c2 :: cs2 =>
        if c2 = period then
          ofMarker eolType (prepend [c] n (scanLine o eolType false quoted.1 quoted.2 (c2 :: cs2)))
          (scanMarker o eolType cs2)
        else if !o.csvMode then prepend [c, c2] n (scanLine o eolType false quoted.1 quoted.2 cs2)
        else prepend [c] n (scanLine o eolType false quoted.1 quoted.2 (c2 :: cs2))
    else prepend [c] n (scanLine o eolType false quoted.1 quoted.2 cs)

/-! ## Loading keeps the stream -/

theorem copyGetData_flatten (maxread : ℕ) (source : List (List UInt8)) :
    (copyGetData maxread source).1 ++ (copyGetData maxread source).2.flatten = source.flatten := by
  induction source with
  | nil => rfl
  | cons msg msgs ih =>
    cases msg with
    | nil => exact ih
    | cons b msg =>
      rw [copyGetData, flatten_cons, flatten_cons, ← append_assoc, take_append_drop]

theorem copyGetData_ne_nil {maxread : ℕ} (hmax : 0 < maxread) (source : List (List UInt8)) :
    (copyGetData maxread source).1 ≠ [] ↔ source.flatten ≠ [] := by
  induction source with
  | nil => simp [copyGetData]
  | cons msg msgs ih =>
    cases msg with
    | nil => exact ih
    | cons b msg =>
      obtain ⟨n, rfl⟩ : ∃ n, maxread = n + 1 := ⟨maxread - 1, by omega⟩
      simp [copyGetData]

/-! ## States of the reader and streams -/

abbrev Config := CopyState × LineVars

/-- The bytes not examined yet. -/
def streamOf (s : Config) : List UInt8 := s.1.rawBuf.drop s.2.rawBufPtr ++ s.1.source.flatten

/-- The part of the line between two places of the buffer. -/
def CopyState.approved (st : CopyState) (ptr : ℕ) : List UInt8 :=
  st.lineBuf ++ (st.rawBuf.drop st.rawBufIndex).take (ptr - st.rawBufIndex)

structure ReaderInv (s : Config) : Prop where
  index_le : s.1.rawBufIndex ≤ s.2.rawBufPtr
  ptr_le : s.2.rawBufPtr ≤ s.1.rawBuf.length
  atEof : s.2.hitEof = true → s.1.source.flatten = []
  -- not more than three bytes are taken back
  near : s.2.needData = true → s.1.rawBuf.length ≤ s.2.rawBufPtr + 3 ∧ s.2.hitEof = false
  -- nothing is quoted at the start of a line
  fresh : s.2.firstCharInLine = true → s.2.inQuote = false ∧ s.2.lastWasEsc = false

/-- Gets smaller with every round. -/
def measure (s : Config) : ℕ :=
  (streamOf s).length + s.1.source.flatten.length + (if s.2.hitEof then 0 else 1) +
    (if s.2.needData then 0 else 1)

/-- A result of the reader and a scan of the stream agree. -/
def Agrees (line : List UInt8) (lineno : ℕ) : Except CopyError LineScan → LineResult → Prop
  | .error e, r => r = .error e
  | .ok scan, r =>
    ∃ st ptr, r = .ok (scan.eof, st, ptr) ∧ st.rawBufIndex ≤ ptr ∧ ptr ≤ st.rawBuf.length ∧
      st.approved ptr = line ++ scan.line ∧ st.rawBuf.drop ptr ++ st.source.flatten = scan.rest ∧
      st.eolType = scan.eolType ∧ st.curLineno = lineno + scan.embedded

def scanOf (o : CopyOptions) (s : Config) : Except CopyError LineScan :=
  scanLine o s.1.eolType s.2.firstCharInLine s.2.inQuote s.2.lastWasEsc (streamOf s)

/-- What the rest of the loop must give. -/
def Post (o : CopyOptions) (s : Config) (r : LineResult) : Prop :=
  Agrees (s.1.approved s.2.rawBufPtr) s.1.curLineno (scanOf o s) r

/-- What a round may do. -/
def RoundOk (o : CopyOptions) (s : Config) (step : LineStep) : Prop :=
  (∃ s', step = .inl s' ∧ ReaderInv s' ∧ measure s' < measure s ∧ ∀ r, Post o s' r → Post o s r) ∨
    ∃ r, step = .inr r ∧ Post o s r

theorem Agrees.prepend {line bs : List UInt8} {lineno n : ℕ} {scan : Except CopyError LineScan}
    {r : LineResult} (h : Agrees (line ++ bs) (lineno + n) scan r) :
    Agrees line lineno (prepend bs n scan) r := by
  cases scan with
  | error e => exact h
  | ok scan =>
    obtain ⟨st, ptr, hr, hindex, hptr, hline, hrest, heol, hno⟩ := h
    exact ⟨st, ptr, hr, hindex, hptr, by rw [hline, append_assoc], hrest,
      heol, by rw [hno, Nat.add_assoc]⟩

variable {e : CopyError}

section Reader

variable {o : CopyOptions} {st : CopyState} {v : LineVars}

variable {i : ℕ}

/-- The byte at a place the reader may look at. -/
theorem rawAt_eq (hinv : ReaderInv (st, v)) (hload : needRefill st v (v.rawBufPtr + i) = false) :
    st.rawAt (v.rawBufPtr + i) = (streamOf (st, v)).getD i 0 := by
  unfold CopyState.rawAt streamOf
  dsimp only
  rcases Nat.lt_or_ge (v.rawBufPtr + i) st.rawBuf.length with hin | hout
  · rw [getD_append _ _ _ _ (by rw [length_drop]; omega), getD_eq_getElem?_getD,
      getD_eq_getElem?_getD, getElem?_drop]
  · have heof : v.hitEof = true := by
      unfold needRefill at hload
      simpa [hout] using hload
    have hsource := hinv.atEof heof
    rw [hsource, append_nil, getD_eq_default _ _ hout,
      getD_eq_default _ _ (by rw [length_drop]; omega)]

/-- The stream and the line behind the next bytes. -/
theorem stream_split (hinv : ReaderInv (st, v)) {bs rest : List UInt8}
    (hstream : streamOf (st, v) = bs ++ rest) (hptr : v.rawBufPtr + bs.length ≤ st.rawBuf.length) :
    st.rawBuf.drop (v.rawBufPtr + bs.length) ++ st.source.flatten = rest ∧
    st.approved (v.rawBufPtr + bs.length) = st.approved v.rawBufPtr ++ bs := by
  have hlen : bs.length ≤ (st.rawBuf.drop v.rawBufPtr).length := by
    rw [length_drop]
    exact Nat.le_sub_of_add_le' hptr
  have htake : (st.rawBuf.drop v.rawBufPtr).take bs.length = bs := by
    have h := congrArg (take bs.length) hstream
    rw [take_left, streamOf, take_append_of_le_length hlen] at h
    exact h
  constructor
  · have h := congrArg (drop bs.length) hstream
    rw [drop_left, streamOf, drop_append_of_le_length hlen, drop_drop] at h
    exact h
  · have hindex := hinv.index_le
    unfold CopyState.approved
    rw [append_assoc, Nat.sub_add_comm hindex, take_add, drop_drop,
      Nat.add_sub_cancel' hindex, htake]

/-- Bytes that belong to the line are passed. -/
theorem advance (hinv : ReaderInv (st, v)) (hneed : v.needData = false) (bs : List UInt8)
    {rest : List UInt8} (hstream : streamOf (st, v) = bs ++ rest)
    (hne : bs ≠ []) (hptr : v.rawBufPtr + bs.length ≤ st.rawBuf.length) {q : Bool × Bool}
    {n lineno : ℕ} (hno : lineno = st.curLineno + n)
    (hscan : scanOf o (st, v) = prepend bs n (scanLine o st.eolType false q.1 q.2 rest)) :
    RoundOk o (st, v) (.inl ({ st with curLineno := lineno },
      { v with
        rawBufPtr := v.rawBufPtr + bs.length
        firstCharInLine := false
        inQuote := q.1
        lastWasEsc := q.2 })) := by
  obtain ⟨hdrop, hline⟩ := stream_split hinv hstream hptr
  refine Or.inl ⟨_, rfl, ⟨?_, hptr, hinv.atEof, ?_, ?_⟩, ?_, ?_⟩
  · exact Nat.le_trans hinv.index_le (Nat.le_add_right _ _)
  · intro hn
    rw [hneed] at hn
    cases hn
  · intro hf
    cases hf
  · have hpos := length_pos_iff.mpr hne
    have hlen : (streamOf (st, v)).length = bs.length + rest.length := by
      rw [hstream, length_append]
    unfold measure
    rw [hlen]
    unfold streamOf
    dsimp only
    rw [hdrop]
    omega
  · intro r hr
    unfold Post
    rw [hscan]
    apply Agrees.prepend
    rw [← hno, ← hline]
    unfold Post scanOf streamOf at hr
    rw [hdrop] at hr
    exact hr

/-- The byte is taken back. -/
theorem undo (hinv : ReaderInv (st, v)) (hneed : v.needData = false) (hi : i ≤ 3)
    (hload : needRefill st v (v.rawBufPtr + i) = true) :
    RoundOk o (st, v) (undoFetch st v v.rawBufPtr) := by
  obtain ⟨hend, heof⟩ := Bool.and_eq_true_iff.mp hload
  have hend := of_decide_eq_true hend
  refine Or.inl ⟨_, rfl, ⟨hinv.index_le, hinv.ptr_le, hinv.atEof, ?_, hinv.fresh⟩, ?_, ?_⟩
  · intro _
    dsimp only
    exact ⟨by omega, (Bool.not_eq_true' _).mp heof⟩
  · unfold measure streamOf
    simp [hneed]
  · intro r hr
    exact hr

/-- The line ends behind the next bytes. -/
theorem finish (hinv : ReaderInv (st, v)) (bs rest : List UInt8)
    (hstream : streamOf (st, v) = bs ++ rest) (hptr : v.rawBufPtr + bs.length ≤ st.rawBuf.length)
    {eof : Bool} {eolType : EolType}
    (hscan : scanOf o (st, v) =
      .ok { line := bs, rest := rest, eof := eof, eolType := eolType, embedded := 0 }) :
    RoundOk o (st, v)
      (.inr (.ok (eof, { st with eolType := eolType }, v.rawBufPtr + bs.length))) := by
  obtain ⟨hdrop, hline⟩ := stream_split hinv hstream hptr
  refine Or.inr ⟨_, rfl, ?_⟩
  unfold Post
  rw [hscan]
  exact ⟨_, _, rfl, Nat.le_trans hinv.index_le (Nat.le_add_right _ _), hptr, hline, hdrop, rfl, rfl⟩

/-- The reader and the scan report the same error. -/
theorem report {s : Config} (hscan : scanOf o s = .error e) : RoundOk o s (.inr (.error e)) := by
  refine Or.inr ⟨_, rfl, ?_⟩
  unfold Post
  rw [hscan]
  rfl

theorem endRound_eq (hascii : o.encodingEmbedsAscii = false) (st : CopyState) (v : LineVars)
    (prev : ℕ) (c : UInt8) (ptr : ℕ) :
    endRound o st v prev c ptr =
      .inl (st, { v with rawBufPtr := ptr, firstCharInLine := false }) := by
  rw [endRound, hascii]
  rfl

/-- The reader looks ahead, or takes the byte back. -/
theorem look (hinv : ReaderInv (st, v)) (hneed : v.needData = false) (hi : i ≤ 3) {step : LineStep}
    (hstep : needRefill st v (v.rawBufPtr + i) = false → RoundOk o (st, v) step) :
    RoundOk o (st, v) (if needRefill st v (v.rawBufPtr + i) then
      undoFetch st v v.rawBufPtr else step) := by
  by_cases hload : needRefill st v (v.rawBufPtr + i) = true
  · rw [if_pos hload]
    exact undo hinv hneed hi hload
  · rw [if_neg hload]
    exact hstep (Bool.not_eq_true _ ▸ hload)

/-- A byte that is not zero is in the buffer. -/
theorem lt_of_rawAt {c : UInt8} (h : st.rawAt i = c) (hc : c ≠ 0) : i < st.rawBuf.length := by
  by_contra hge
  rw [CopyState.rawAt, getD_eq_default _ _ (Nat.not_lt.mp hge)] at h
  exact hc h.symm

/-! ## Line ends -/

theorem getD_one (c : UInt8) (cs : List UInt8) : (c :: cs).getD 1 0 = cs.headD 0 := by
  cases cs with
  | nil => rfl
  | cons _ _ => rfl

theorem processCr_round (hinv : ReaderInv (st, v)) (hneed : v.needData = false) {cs : List UInt8}
    (hstream : streamOf (st, v) = carriageReturn :: cs) (hptr : v.rawBufPtr < st.rawBuf.length)
    (hscan : scanOf o (st, v) = scanCr o st.eolType cs) :
    RoundOk o (st, v) (processCr o st v v.rawBufPtr) := by
  have hone := hstream
  have hnext : needRefill st v (v.rawBufPtr + 1) = false →
      st.rawAt (v.rawBufPtr + 1) = cs.headD 0 := by
    intro hload
    rw [rawAt_eq hinv hload, hstream, getD_one]
  -- the second byte of a line end
  have htwo : needRefill st v (v.rawBufPtr + 1) = false → st.rawAt (v.rawBufPtr + 1) = newline →
      scanOf o (st, v) =
      .ok {
        line := [carriageReturn, newline], rest := cs.tail, eof := false, eolType := .crnl,
        embedded := 0 } →
      RoundOk o (st, v) (.inr (.ok (false, { st with eolType := .crnl }, v.rawBufPtr + 2))) := by
    intro hload hnl hok
    have hlt := lt_of_rawAt hnl (by decide)
    have hcs : cs = newline :: cs.tail := by
      rw [hnext hload] at hnl
      cases cs with
      | nil => cases hnl
      | cons c cs =>
        rw [show c = newline from hnl]
        rfl
    exact finish hinv [carriageReturn, newline] _ (by rw [hstream, hcs]; rfl) hlt hok
  cases heol : st.eolType with
  | unknown =>
    simp only [processCr, heol]
    simp only [scanCr, heol] at hscan
    refine look hinv hneed (by decide) fun hload => ?_
    by_cases hnl : st.rawAt (v.rawBufPtr + 1) = newline
    · rw [if_pos hnl]
      rw [if_pos (hnext hload ▸ hnl)] at hscan
      exact htwo hload hnl hscan
    · rw [if_neg hnl, if_neg (by decide)]
      rw [if_neg (hnext hload ▸ hnl), if_neg (by decide)] at hscan
      exact finish hinv [carriageReturn] _ hone hptr hscan
  | crnl =>
    simp only [processCr, heol]
    simp only [scanCr, heol] at hscan
    refine look hinv hneed (by decide) fun hload => ?_
    by_cases hnl : st.rawAt (v.rawBufPtr + 1) = newline
    · rw [if_pos hnl]
      rw [if_pos (hnext hload ▸ hnl)] at hscan
      exact htwo hload hnl hscan
    · rw [if_neg hnl, if_pos trivial]
      rw [if_neg (hnext hload ▸ hnl), if_pos trivial] at hscan
      exact report hscan
  | nl =>
    simp only [processCr, heol]
    simp only [scanCr, heol] at hscan
    exact report hscan
  | cr =>
    simp only [processCr, heol]
    simp only [scanCr, heol] at hscan
    have hdone := finish hinv [carriageReturn] _ hone hptr hscan
    rwa [show ({ st with eolType := .cr } : CopyState) = st by rw [← heol]] at hdone

/-- The quote state is not used if the next byte is there. -/
theorem processCr_loaded {prev : ℕ} {q : Bool × Bool}
    (hload : ¬ needRefill st v (prev + 1) = true) :
    processCr o st (v.withQuote q) prev = processCr o st v prev := by
  have hload' : ¬ needRefill st (v.withQuote q) (prev + 1) = true := hload
  unfold processCr
  dsimp only
  rw [if_neg hload, if_neg hload']

theorem processNl_round (hinv : ReaderInv (st, v)) {cs : List UInt8}
    (hstream : streamOf (st, v) = newline :: cs) (hptr : v.rawBufPtr < st.rawBuf.length)
    (hscan : scanOf o (st, v) = scanNl o st.eolType cs) :
    RoundOk o (st, v) (processNl o st v.rawBufPtr) := by
  unfold processNl
  unfold scanNl at hscan
  split
  · rename_i heol
    rw [if_pos heol] at hscan
    exact report hscan
  · rename_i heol
    rw [if_neg heol] at hscan
    exact finish hinv [newline] _ hstream hptr hscan

/-! ## The end-of-copy marker -/

theorem refillLinebuf_lineBuf (hindex : st.rawBufIndex ≤ v.rawBufPtr) :
    (refillLinebuf st v.rawBufPtr).lineBuf = st.approved v.rawBufPtr := by
  unfold refillLinebuf CopyState.approved
  split
  · rfl
  · rw [show v.rawBufPtr - st.rawBufIndex = 0 by omega, take_zero, append_nil]

theorem refillLinebuf_fields (st : CopyState) (ptr : ℕ) :
    (refillLinebuf st ptr).rawBuf = st.rawBuf ∧ (refillLinebuf st ptr).source = st.source ∧
    (refillLinebuf st ptr).eolType = st.eolType ∧
    (refillLinebuf st ptr).curLineno = st.curLineno := by
  unfold refillLinebuf
  split
  · exact ⟨rfl, rfl, rfl, rfl⟩
  · exact ⟨rfl, rfl, rfl, rfl⟩

section Marker

variable (hinv : ReaderInv (st, v)) (hneed : v.needData = false)
  (hascii : o.encodingEmbedsAscii = false) {cs : List UInt8}
  (hstream : streamOf (st, v) = backslash :: cs) (hptr : v.rawBufPtr < st.rawBuf.length)
  {data : Except CopyError LineScan}
  (hdata : data = prepend [backslash] 0 (scanLine o st.eolType false v.inQuote v.lastWasEsc cs))

include hinv hneed hascii hstream hptr hdata

/-- The marker is data, so one byte is passed, or it is an error. -/
theorem noEndOfCopy_round (hscan : scanOf o (st, v) = ofMarker st.eolType data (noEndScan o e)) :
    RoundOk o (st, v) (noEndOfCopy o st v v.rawBufPtr e) := by
  unfold noEndOfCopy
  unfold noEndScan at hscan
  split
  · rename_i hcsv
    rw [if_pos hcsv] at hscan
    exact report hscan
  · rename_i hcsv
    rw [if_neg hcsv] at hscan
    rw [endRound_eq hascii]
    exact advance hinv hneed [backslash] hstream (cons_ne_nil _ _) hptr
      (q := (v.inQuote, v.lastWasEsc)) rfl (hscan.trans hdata)

theorem endOfMarker_round (hi : i ≤ 3) {tail : List UInt8}
    (htail : (streamOf (st, v)).drop i = tail)
    (hscan : scanOf o (st, v) = ofMarker st.eolType data (scanMarkerEnd o st.eolType tail)) :
    RoundOk o (st, v) (endOfMarker o st v v.rawBufPtr (v.rawBufPtr + i)) := by
  unfold endOfMarker
  refine look hinv hneed hi fun hload => ?_
  have hc2 : st.rawAt (v.rawBufPtr + i) = tail.headD 0 := by
    rw [rawAt_eq hinv hload, ← htail, getD_eq_getElem?_getD, headD_eq_head?_getD, head?_drop]
  unfold scanMarkerEnd at hscan
  dsimp only at hscan ⊢
  rw [hc2]
  split
  · rename_i hcorrupt
    rw [if_pos hcorrupt] at hscan
    exact noEndOfCopy_round hinv hneed hascii hstream hptr hdata hscan
  · rename_i hend
    rw [if_neg hend] at hscan
    split
    · rename_i hstyle
      rw [if_pos hstyle] at hscan
      exact report hscan
    · rename_i hstyle
      rw [if_neg hstyle] at hscan
      have hlt : v.rawBufPtr + i < st.rawBuf.length := by
        apply lt_of_rawAt hc2
        intro hzero
        rw [hzero] at hend
        exact hend (by decide)
      have hsplit : streamOf (st, v) = (streamOf (st, v)).take (i + 1) ++ tail.tail := by
        rw [← htail, tail_drop, take_append_drop]
      have hlen : ((streamOf (st, v)).take (i + 1)).length = i + 1 := by
        rw [length_take, streamOf, length_append, length_drop]
        dsimp only
        omega
      obtain ⟨hrest, -⟩ := stream_split hinv hsplit (by rw [hlen]; omega)
      rw [hlen] at hrest
      refine Or.inr ⟨_, rfl, ?_⟩
      unfold Post
      rw [hscan]
      obtain ⟨hraw, hsource, heol, hno⟩ := refillLinebuf_fields st v.rawBufPtr
      refine ⟨_, _, rfl, Nat.le_refl _, ?_, ?_, ?_, heol, hno⟩
      · rw [hraw]
        omega
      · unfold CopyState.approved
        dsimp only
        rw [Nat.sub_self, take_zero, refillLinebuf_lineBuf hinv.index_le]
        rfl
      · rw [hraw, hsource]
        exact hrest

theorem endOfCopy_round {tail : List UInt8} (htail : cs = period :: tail)
    (hscan : scanOf o (st, v) = ofMarker st.eolType data (scanMarker o st.eolType tail)) :
    RoundOk o (st, v) (endOfCopy o st v v.rawBufPtr) := by
  have htwo : (streamOf (st, v)).drop 2 = tail := by
    rw [hstream, htail]
    rfl
  unfold endOfCopy
  unfold scanMarker at hscan
  dsimp only
  split
  · rename_i heol
    rw [if_pos heol] at hscan
    refine look hinv hneed (by decide) fun hload => ?_
    have hc2 : st.rawAt (v.rawBufPtr + 2) = tail.headD 0 := by
      rw [rawAt_eq hinv hload, ← htwo, getD_eq_getElem?_getD, headD_eq_head?_getD, head?_drop]
    rw [hc2]
    split
    · rename_i hnl
      rw [if_pos hnl] at hscan
      exact noEndOfCopy_round hinv hneed hascii hstream hptr hdata hscan
    · rename_i hnl
      rw [if_neg hnl] at hscan
      split
      · rename_i hcr
        rw [if_pos hcr] at hscan
        exact noEndOfCopy_round hinv hneed hascii hstream hptr hdata hscan
      · rename_i hcr
        rw [if_neg hcr] at hscan
        refine endOfMarker_round hinv hneed hascii hstream hptr hdata (i := 3)
          (Nat.le_refl 3) ?_ hscan
        rw [← htwo, tail_drop]
  · rename_i heol
    rw [if_neg heol] at hscan
    exact endOfMarker_round hinv hneed hascii hstream hptr hdata (by decide) htwo hscan

end Marker

/-! ## A round -/

/-- A backslash that is looked at does not change the quote state. -/
theorem nextQuote_backslash (hquote : o.csvMode = true → o.quote ≠ backslash)
    {first inQuote lastWasEsc : Bool} (hfresh : first = true → inQuote = false ∧ lastWasEsc = false)
    (hseen : (!o.csvMode || first) = true) :
    nextQuote o inQuote lastWasEsc backslash = (inQuote, lastWasEsc) := by
  unfold nextQuote
  cases hcsv : o.csvMode with
  | false => rfl
  | true =>
    rw [hcsv] at hseen
    obtain ⟨rfl, rfl⟩ := hfresh hseen
    have hne : ¬ backslash = o.quote := fun h => hquote hcsv h.symm
    simp [quoteState, hne]

theorem embeddedEol_backslash (o : CopyOptions) (eolType : EolType) (inQuote : Bool) :
    embeddedEol o eolType inQuote backslash = 0 := by
  unfold embeddedEol
  split
  · simp
  · simp

theorem scanLine_backslash {eolType : EolType} {first inQuote lastWasEsc : Bool}
    (hquote : nextQuote o inQuote lastWasEsc backslash = (inQuote, lastWasEsc))
    (hseen : (!o.csvMode || first) = true) (c2 : UInt8) (cs : List UInt8) :
    scanLine o eolType first inQuote lastWasEsc (backslash :: c2 :: cs) =
      if c2 = period then
        ofMarker eolType (prepend [backslash] 0
          (scanLine o eolType false inQuote lastWasEsc (c2 :: cs))) (scanMarker o eolType cs)
      else if !o.csvMode then
        prepend [backslash, c2] 0 (scanLine o eolType false inQuote lastWasEsc cs)
      else prepend [backslash] 0 (scanLine o eolType false inQuote lastWasEsc (c2 :: cs)) := by
  rw [scanLine, hquote]
  rw [embeddedEol_backslash, if_neg (by simp), if_neg (by simp), if_pos (by simp [hseen])]

section Scan

variable {eolType : EolType} {first inQuote lastWasEsc : Bool} {c : UInt8} {cs : List UInt8}

theorem scanLine_cr
    (h : (!o.csvMode || !(nextQuote o inQuote lastWasEsc carriageReturn).1) = true) :
    scanLine o eolType first inQuote lastWasEsc (carriageReturn :: cs) = scanCr o eolType cs := by
  cases cs with
  | nil => rw [scanLine, if_pos (by simp [h])]
  | cons c2 cs => rw [scanLine, if_pos (by simp [h])]

theorem scanLine_nl (h : (!o.csvMode || !(nextQuote o inQuote lastWasEsc newline).1) = true) :
    scanLine o eolType first inQuote lastWasEsc (newline :: cs) = scanNl o eolType cs := by
  cases cs with
  | nil => rw [scanLine, if_neg (by simp), if_pos (by simp [h])]
  | cons c2 cs => rw [scanLine, if_neg (by simp), if_pos (by simp [h])]

/-- Any other byte is part of the line. -/
theorem scanLine_plain
    (hcr : ¬ (decide (c = carriageReturn) &&
      (!o.csvMode || !(nextQuote o inQuote lastWasEsc c).1)) = true)
    (hnl : ¬ (decide (c = newline) && (!o.csvMode || !(nextQuote o inQuote lastWasEsc c).1)) = true)
    (hbs : ¬ (decide (c = backslash) && (!o.csvMode || first)) = true) :
    scanLine o eolType first inQuote lastWasEsc (c :: cs) =
      prepend [c] (embeddedEol o eolType (nextQuote o inQuote lastWasEsc c).1 c)
        (scanLine o eolType false (nextQuote o inQuote lastWasEsc c).1
          (nextQuote o inQuote lastWasEsc c).2 cs) := by
  cases cs with
  | nil =>
    conv_lhs => rw [scanLine]
    rw [if_neg hcr, if_neg hnl, if_neg hbs]
  | cons c2 cs =>
    conv_lhs => rw [scanLine]
    rw [if_neg hcr, if_neg hnl, if_neg hbs]

end Scan

theorem processBackslash_round (hinv : ReaderInv (st, v)) (hneed : v.needData = false)
    (hascii : o.encodingEmbedsAscii = false) {cs : List UInt8}
    (hstream : streamOf (st, v) = backslash :: cs) (hptr : v.rawBufPtr < st.rawBuf.length)
    (hquote : nextQuote o v.inQuote v.lastWasEsc backslash = (v.inQuote, v.lastWasEsc))
    (hseen : (!o.csvMode || v.firstCharInLine) = true) :
    RoundOk o (st, v) (processBackslash o st v v.rawBufPtr) := by
  unfold processBackslash
  dsimp only
  refine look hinv hneed (by decide) fun hload => ?_
  have hnext : st.rawAt (v.rawBufPtr + 1) = cs.headD 0 := by
    rw [rawAt_eq hinv hload, hstream, getD_one]
  have hscan : scanOf o (st, v) =
      scanLine o st.eolType v.firstCharInLine v.inQuote v.lastWasEsc (backslash :: cs) := by
    rw [scanOf, hstream]
  by_cases hend : v.rawBufPtr + 1 ≥ st.rawBuf.length
  · -- the data ends with the backslash
    have heof : v.hitEof = true := by
      unfold needRefill at hload
      simpa [hend] using hload
    have hcs : cs = [] := by
      have hlen := congrArg length hstream
      rw [streamOf, hinv.atEof heof, append_nil, length_drop, length_cons] at hlen
      apply eq_nil_of_length_eq_zero
      dsimp only at hlen
      omega
    subst hcs
    rw [if_pos (by simp [hend, heof])]
    rw [scanLine, hquote] at hscan
    dsimp only at hscan
    rw [if_neg (by simp), if_neg (by simp), if_pos (by simp [hseen])] at hscan
    exact finish hinv [backslash] [] hstream hptr hscan
  · rw [if_neg (by simp [hend])]
    obtain ⟨c2, cs, rfl⟩ : ∃ c2 cs2, cs = c2 :: cs2 := by
      have hlen := congrArg length hstream
      rw [streamOf, length_append, length_drop, length_cons] at hlen
      cases cs with
      | nil =>
        rw [length_nil] at hlen
        dsimp only at hlen
        omega
      | cons c2 cs => exact ⟨c2, cs, rfl⟩
    replace hnext : st.rawAt (v.rawBufPtr + 1) = c2 := hnext
    rw [scanLine_backslash hquote hseen] at hscan
    rw [hnext]
    split
    · rename_i hdot
      rw [if_pos hdot] at hscan
      exact endOfCopy_round hinv hneed hascii hstream hptr rfl (by rw [hdot]) hscan
    · rename_i hdot
      rw [if_neg hdot] at hscan
      rw [endRound_eq hascii]
      split
      · rename_i hcsv
        rw [if_pos hcsv] at hscan
        exact advance hinv hneed [backslash, c2] hstream (cons_ne_nil _ _)
          (by simp only [length_cons, length_nil]; omega) (q := (v.inQuote, v.lastWasEsc)) rfl hscan
      · rename_i hcsv
        rw [if_neg hcsv] at hscan
        exact advance hinv hneed [backslash] hstream (cons_ne_nil _ _) hptr
          (q := (v.inQuote, v.lastWasEsc)) rfl hscan

/-- A byte that is processed, in terms of the stream. -/
theorem processByte_round (hascii : o.encodingEmbedsAscii = false)
    (hquote : o.csvMode = true → o.quote ≠ backslash)
    (hinv : ReaderInv (st, v)) (hneed : v.needData = false)
    (hptr : v.rawBufPtr < st.rawBuf.length) : RoundOk o (st, v) (processByte o st v) := by
  obtain ⟨c, cs, hstream⟩ : ∃ c cs, streamOf (st, v) = c :: cs := by
    cases hs : streamOf (st, v) with
    | nil =>
      have hlen := congrArg length hs
      rw [streamOf, length_append, length_drop, length_nil] at hlen
      dsimp only at hlen
      omega
    | cons c cs => exact ⟨c, cs, rfl⟩
  have hc : st.rawAt v.rawBufPtr = c := by
    have hload : needRefill st v (v.rawBufPtr + 0) = false := by
      unfold needRefill
      simp
      omega
    have h := rawAt_eq hinv hload
    rwa [hstream] at h
  have hscan : scanOf o (st, v) =
      scanLine o st.eolType v.firstCharInLine v.inQuote v.lastWasEsc (c :: cs) := by
    rw [scanOf, hstream]
  have hzero : ∀ {q : Bool}, (!o.csvMode || !q) = true → embeddedEol o st.eolType q c = 0 := by
    intro q hq
    unfold embeddedEol
    rw [if_neg]
    intro h
    simp only [Bool.and_eq_true] at h
    simp [h.1.1, h.1.2] at hq
  have hsame : ({ st with curLineno := st.curLineno + 0 } : CopyState) = st := rfl
  unfold processByte
  dsimp only
  rw [hc]
  by_cases hfirst :
      (o.csvMode && (c = backslash || c = carriageReturn) && needRefill st v (v.rawBufPtr + 1)) =
      true
  · rw [if_pos hfirst]
    exact undo hinv hneed (by decide) (Bool.and_eq_true_iff.mp hfirst).2
  · rw [if_neg hfirst]
    by_cases hcr :
        (decide (c = carriageReturn) && (!o.csvMode || !(nextQuote o v.inQuote v.lastWasEsc c).1)) =
        true
    · rw [if_pos hcr]
      obtain ⟨hceq, hunquoted⟩ := Bool.and_eq_true_iff.mp hcr
      obtain rfl := of_decide_eq_true hceq
      rw [hzero hunquoted, hsame]
      rw [scanLine_cr hunquoted] at hscan
      -- nothing is taken back in CSV mode, and the quote state is not used in text mode
      have hsteps : processCr o st (v.withQuote (nextQuote o v.inQuote v.lastWasEsc carriageReturn))
          v.rawBufPtr = processCr o st v v.rawBufPtr := by
        cases hcsv : o.csvMode with
        | false =>
          rw [nextQuote, hcsv]
          rfl
        | true =>
          have hloaded : ¬ needRefill st v (v.rawBufPtr + 1) = true := by simpa [hcsv] using hfirst
          exact processCr_loaded hloaded
      rw [hsteps]
      exact processCr_round hinv hneed hstream hptr hscan
    · rw [if_neg hcr]
      by_cases hnl :
          (decide (c = newline) && (!o.csvMode || !(nextQuote o v.inQuote v.lastWasEsc c).1)) = true
      · rw [if_pos hnl]
        obtain ⟨hceq, hunquoted⟩ := Bool.and_eq_true_iff.mp hnl
        obtain rfl := of_decide_eq_true hceq
        rw [hzero hunquoted, hsame]
        rw [scanLine_nl hunquoted] at hscan
        exact processNl_round hinv hstream hptr hscan
      · rw [if_neg hnl]
        change RoundOk o (st, v)
          (if (decide (c = backslash) && (!o.csvMode || v.firstCharInLine)) = true then _ else _)
        by_cases hbs : (decide (c = backslash) && (!o.csvMode || v.firstCharInLine)) = true
        · rw [if_pos hbs]
          obtain ⟨hceq, hseen⟩ := Bool.and_eq_true_iff.mp hbs
          obtain rfl := of_decide_eq_true hceq
          have hkeep := nextQuote_backslash hquote hinv.fresh hseen
          rw [hkeep, embeddedEol_backslash, hsame]
          exact processBackslash_round hinv hneed hascii hstream hptr hkeep hseen
        · rw [if_neg hbs, endRound_eq hascii]
          rw [scanLine_plain hcr hnl hbs] at hscan
          exact advance hinv hneed [c] hstream (cons_ne_nil _ _) hptr rfl hscan

/-! ## The loop -/

/-- Loading keeps the stream and the line. -/
theorem load_spec (hinv : ReaderInv (st, v))
    (hload : v.rawBufPtr ≥ st.rawBuf.length ∨ v.needData = true) :
    let loaded := copyLoadRawBuf (refillLinebuf st v.rawBufPtr)
    let s : Config :=
      (loaded.2, { v with hitEof := v.hitEof || !loaded.1, rawBufPtr := 0, needData := false })
    ReaderInv s ∧ streamOf s = streamOf (st, v) ∧ loaded.2.approved 0 = st.approved v.rawBufPtr ∧
    loaded.2.eolType = st.eolType ∧
      loaded.2.curLineno = st.curLineno ∧ (loaded.2.rawBuf = [] → streamOf (st, v) = []) ∧
      (v.hitEof = false → measure s ≤ measure (st, v)) := by
  obtain ⟨hraw, hsource, heol, hno⟩ := refillLinebuf_fields st v.rawBufPtr
  have hline := refillLinebuf_lineBuf hinv.index_le
  have hindex : (refillLinebuf st v.rawBufPtr).rawBufIndex = v.rawBufPtr := by
    have hle : st.rawBufIndex ≤ v.rawBufPtr := hinv.index_le
    unfold refillLinebuf
    split
    · rfl
    · omega
  have hkept : (st.rawBuf.drop v.rawBufPtr).length ≤ 3 := by
    rw [length_drop]
    rcases hload with hend | hneed
    · omega
    · have hnear : st.rawBuf.length ≤ v.rawBufPtr + 3 := (hinv.near hneed).1
      omega
  have hmax : 0 < RAW_BUF_SIZE - (st.rawBuf.drop v.rawBufPtr).length := by
    unfold RAW_BUF_SIZE
    omega
  have hflat := copyGetData_flatten (RAW_BUF_SIZE - (st.rawBuf.drop v.rawBufPtr).length) st.source
  have hsome := copyGetData_ne_nil hmax st.source
  unfold copyLoadRawBuf
  dsimp only
  rw [hraw, hsource, hindex]
  generalize copyGetData (RAW_BUF_SIZE - (st.rawBuf.drop v.rawBufPtr).length) st.source = data at *
  -- at the end of the data nothing comes
  have hends : (v.hitEof || !decide (data.1 ≠ [])) = true → st.source.flatten = [] := by
    intro h
    rcases Bool.or_eq_true_iff.mp h with h | h
    · exact hinv.atEof h
    · by_contra hne
      simp [hsome.mpr hne] at h
  have hnone : st.source.flatten = [] → data.1 = [] ∧ data.2.flatten = [] := by
    intro h
    rw [h] at hflat
    exact append_eq_nil_iff.mp hflat
  refine ⟨⟨Nat.le_refl 0, Nat.zero_le _, ?_, ?_, hinv.fresh⟩, ?_, ?_, heol, hno, ?_, ?_⟩
  · intro h
    exact (hnone (hends h)).2
  · intro h
    cases h
  · unfold streamOf
    dsimp only
    rw [drop_zero, append_assoc, hflat]
  · unfold CopyState.approved
    dsimp only
    rw [hline, Nat.sub_self, take_zero, append_nil]
    rfl
  · intro hempty
    obtain ⟨hkept0, hdata⟩ := append_eq_nil_iff.mp hempty
    have hsource0 : st.source.flatten = [] := by
      by_contra hne
      exact hsome.mpr hne hdata
    unfold streamOf
    dsimp only
    rw [hkept0, hsource0]
    rfl
  · intro hbefore
    have hstream :
        streamOf
        ({ refillLinebuf st v.rawBufPtr with
          source := data.2, rawBuf := st.rawBuf.drop v.rawBufPtr ++ data.1, rawBufIndex := 0 },
        { v with hitEof := v.hitEof || !decide (data.1 ≠ []), rawBufPtr := 0, needData := false }) =
        streamOf (st, v) := by
      unfold streamOf
      dsimp only
      rw [drop_zero, append_assoc, hflat]
    have hlen := congrArg length hflat
    rw [length_append] at hlen
    unfold measure
    rw [hstream]
    dsimp only
    rw [hbefore, Bool.false_or]
    by_cases hdata : data.1 = []
    · simp only [hdata, ne_eq, not_true_eq_false, decide_false, Bool.not_false, Bool.false_eq_true,
        if_true, if_false]
      omega
    · have hpos := length_pos_iff.mpr hdata
      simp only [ne_eq, hdata, not_false_eq_true, decide_true, Bool.not_true,
        Bool.false_eq_true, if_false]
      omega

/-- A round, in terms of the stream. -/
theorem lineStep_round (hascii : o.encodingEmbedsAscii = false)
    (hquote : o.csvMode = true → o.quote ≠ backslash) (s : Config) (hinv : ReaderInv s) :
    RoundOk o s (lineStep o s) := by
  obtain ⟨st, v⟩ := s
  unfold lineStep
  dsimp only
  by_cases hload : (decide (v.rawBufPtr ≥ st.rawBuf.length) || v.needData) = true
  · rw [if_pos hload]
    rw [Bool.or_eq_true_iff, decide_eq_true_eq] at hload
    obtain ⟨hinv', hstream, hline, heol, hno, hempty, hmeasure⟩ := load_spec hinv hload
    generalize copyLoadRawBuf (refillLinebuf st v.rawBufPtr) = loaded at *
    have hpost : ∀ r,
        Post o (loaded.2,
          { v with hitEof := v.hitEof || !loaded.1, rawBufPtr := 0, needData := false }) r →
          Post o (st, v) r := by
      intro r hr
      unfold Post scanOf at hr ⊢
      rw [hstream] at hr
      dsimp only at hr
      rw [hline, heol, hno] at hr
      exact hr
    split
    · -- there is nothing left
      rename_i hlen
      have hnil := eq_nil_of_length_eq_zero (Nat.le_zero.mp hlen)
      refine Or.inr ⟨_, rfl, ?_⟩
      unfold Post scanOf
      rw [hempty hnil]
      rw [hempty hnil] at hstream
      exact ⟨_, _, rfl, hinv'.index_le, Nat.zero_le _, by rw [hline, append_nil],
        hstream, heol, hno⟩
    · rename_i hsome
      rcases processByte_round hascii hquote hinv' rfl
        (Nat.pos_of_ne_zero fun h => hsome (Nat.le_of_eq h)) with
        ⟨s', hstep, hs', hlt, hnext⟩ | ⟨r, hstep, hr⟩
      · refine Or.inl ⟨s', hstep, hs', ?_, fun r hr => hpost r (hnext r hr)⟩
        have hmore : v.hitEof = false := by
          by_contra heof
          rw [Bool.not_eq_false] at heof
          -- then all bytes have been read, and none can have been loaded
          have hend : v.rawBufPtr ≥ st.rawBuf.length := by
            rcases hload with hend | hneed
            · exact hend
            · have hwait : v.hitEof = false := (hinv.near hneed).2
              rw [heof] at hwait
              cases hwait
          have hdone : streamOf (st, v) = [] := by
            unfold streamOf
            rw [hinv.atEof heof, append_nil]
            exact drop_eq_nil_of_le hend
          rw [hdone] at hstream
          have hraw : loaded.2.rawBuf = [] := (append_eq_nil_iff.mp hstream).1
          exact hsome (Nat.le_of_eq (by rw [hraw]; rfl))
        exact Nat.lt_of_lt_of_le hlt (hmeasure hmore)
      · exact Or.inr ⟨r, hstep, hpost r hr⟩
  · rw [if_neg hload]
    rw [Bool.or_eq_true_iff, decide_eq_true_eq, not_or] at hload
    exact processByte_round hascii hquote hinv (Bool.not_eq_true _ ▸ hload.2)
      (Nat.lt_of_not_le hload.1)

end Reader

/-! ## The line reader -/

/-- The bytes not read yet. -/
def CopyState.remaining (st : CopyState) : List UInt8 :=
  st.rawBuf.drop st.rawBufIndex ++ st.source.flatten

section LineReader

variable {o : CopyOptions} (hascii : o.encodingEmbedsAscii = false)
  (hquote : o.csvMode = true → o.quote ≠ backslash) {st : CopyState}
  (hindex : st.rawBufIndex ≤ st.rawBuf.length)

include hascii hquote hindex

/-- The rounds suffice, and the loop agrees with the scan of the stream. -/
theorem lineLoop_agrees :
    ∃ r, iterate (lineStep o) st.rounds (st,
      ⟨st.rawBufIndex, false, false, true, false, false⟩) = some r ∧
    Agrees st.lineBuf st.curLineno (scanLine o st.eolType true false false st.remaining) r := by
  have hinv : ReaderInv (st, ⟨st.rawBufIndex, false, false, true, false, false⟩) :=
    ⟨Nat.le_refl _, hindex, fun h => (by cases h), fun h => (by cases h), fun _ => ⟨rfl, rfl⟩⟩
  have hbound : measure (st, ⟨st.rawBufIndex, false, false, true, false, false⟩) < st.rounds := by
    unfold measure streamOf CopyState.rounds
    rw [length_append, length_drop]
    simp only [Bool.false_eq_true, if_false]
    omega
  obtain ⟨r, hrun, hr⟩ :=
    iterate_spec ReaderInv measure (Post o) (lineStep_round hascii hquote) hinv hbound
  refine ⟨r, hrun, ?_⟩
  have hline : st.approved st.rawBufIndex = st.lineBuf := by
    rw [CopyState.approved, Nat.sub_self, take_zero, append_nil]
  unfold Post scanOf at hr
  rw [hline] at hr
  exact hr

/-- The line reader finds the line the stream starts with, however the source cuts the stream. -/
theorem copyReadLineText_ok {scan : LineScan}
    (hscan : scanLine o st.eolType true false false st.remaining = .ok scan) :
    ∃ st', copyReadLineText o st = some (.ok (scan.eof, st')) ∧
      st'.rawBufIndex ≤ st'.rawBuf.length ∧ st'.lineBuf = st.lineBuf ++ scan.line ∧
      st'.remaining = scan.rest ∧ st'.eolType = scan.eolType ∧
      st'.curLineno = st.curLineno + scan.embedded := by
  obtain ⟨r, hrun, hr⟩ := lineLoop_agrees hascii hquote hindex
  rw [hscan] at hr
  obtain ⟨st', ptr, rfl, hle, hlen, hline, hrest, heol, hno⟩ := hr
  obtain ⟨hraw, hsource, heol', hno'⟩ := refillLinebuf_fields st' ptr
  have hptr : (refillLinebuf st' ptr).rawBufIndex = ptr := by
    unfold refillLinebuf
    split
    · rfl
    · omega
  refine ⟨refillLinebuf st' ptr, ?_, ?_, ?_, ?_, heol'.trans heol, hno'.trans hno⟩
  · unfold copyReadLineText
    dsimp only
    rw [hrun]
    rfl
  · rw [hptr, hraw]
    exact hlen
  · have h := refillLinebuf_lineBuf (v := ⟨ptr, false, false, true, false, false⟩) hle
    exact h.trans hline
  · unfold CopyState.remaining
    rw [hptr, hraw, hsource, hrest]

/-- So do its errors. -/
theorem copyReadLineText_error
    (hscan : scanLine o st.eolType true false false st.remaining = .error e) :
    copyReadLineText o st = some (.error e) := by
  obtain ⟨r, hrun, hr⟩ := lineLoop_agrees hascii hquote hindex
  rw [hscan] at hr
  obtain rfl : r = .error e := hr
  unfold copyReadLineText
  dsimp only
  rw [hrun]
  rfl

end LineReader

/-- After a line `0` the buffer ends inside the line `1\.`, and the source cuts its
`\.` CR LF between any two bytes; lines ended with LF so far. -/
def cutMarker : CopyState :=
  { source := [[period], [carriageReturn], [newline]], rawBuf := [48, newline, 49, backslash],
    rawBufIndex := 2, lineBuf := [], eolType := .nl, curLineno := 2 }

theorem copyReadLineText_cutMarker :
    copyReadLineText ⟨false, 9, 0, 0, [], false, [], 0, false, false, fun _ => 1,
      fun _ => true⟩ cutMarker =
      some (.error .markerStyle) :=
  copyReadLineText_error rfl (by decide) (by decide) rfl

end GreenPipeline.L4.Copy
