import Nxlog.L3Protocol.Strings

/-!
# Comma-separated values (`extension/csv/csv.c`)

The context has the list of fields of a line. The writer puts out their values in
that order with a delimiter between them, a string in quotes and with an escape
character in front of each quote, escape character and delimiter. The parser is an
automaton with three states that collects the current value in a buffer as long as
the line; the byte behind an escape character is handled first, in any state.

* `logdataToCsv`: the writer.
* `csvStep`, `csvFinish`, `csvParse`: the parser, for any record and setter.
* `cell`, `csvText`, `logdataToCsv_ok`, `logdataToCsv_cases`: the text of a list of strings, and
  that the writer puts out what the string limit leaves of it.

The round trip is in `CsvRoundtrip`.
-/
namespace Nxlog.L3
open L1 L2 Res List

/-- `nx_csv_quote_method_t` (extension/csv/csv.h:16-21). -/
inductive QuoteMethod where
  | string | all | none
  deriving DecidableEq

/-- `fields[i]` and `types[i]`; a type that is not given is 0. -/
structure CsvField where
  name : CStr
  type : ValueType
  deriving DecidableEq

/-- `nx_csv_ctx_t` (extension/csv/csv.h:23-34). -/
structure CsvCtx where
  delimiter : UInt8
  quotechar : UInt8
  escapechar : UInt8
  quote_method : QuoteMethod
  escape_control : CBool
  fields : List CsvField
  undefvalue : Option CStr
  deriving DecidableEq

/-- mirrors extension/csv/csv.c:50-60 (`nx_csv_ctx_init`). -/
def csvCtxInit : CsvCtx := ⟨44, 34, 92, .string, TRUE, [], none⟩

/-! ## The writer -/

variable (ctx : CsvCtx)

/-- The tests of `escape_string`. -/
def csvEscape (c : UInt8) : EscAct :=
  if 128 ≤ c then .keep
  else if c = ctx.escapechar ∨ (c = ctx.quotechar ∧ ctx.quotechar ≠ 0) ∨ c = ctx.delimiter then
    .pair ctx.escapechar c
  else if ctx.escape_control = TRUE then
    match controlLetter c with
    | some l => .pair ctx.escapechar l
    | none => .keep
  else .keep

/-- mirrors extension/csv/csv.c:464-547 (`escape_string`) on a string without spare
room. -/
def escapeString (str : Bytes) : Res Bytes :=
  if ctx.escapechar = 0 then .ok str
  else do
    let (buf, _) ← escapeLoop (csvEscape ctx) (str.length + 1) [] false str
    return buf

def appendQuote (quoted : Bool) (retval : Bytes) : Res Bytes :=
  if quoted then stringAppend retval [ctx.quotechar] 1 else .ok retval

def appendEscaped (quoted : Bool) (retval : Bytes) (tmp : Res NxString) : Res Bytes := do
  let retval ← appendQuote ctx quoted retval
  let tmp ← tmp
  let buf ← escapeString ctx tmp.buf
  let retval ← stringAppend retval (buf ++ [0]) (cInt buf.length)
  appendQuote ctx quoted retval

/-- extension/csv/csv.c:581-628: the value of a field. -/
def appendCsvValue (env : TextEnv) (ctx : CsvCtx) (retval : Bytes) (v : NxValue) : Res Bytes :=
  if v.defined = FALSE then .ok retval
  else
    match v.data with
    | .string none => Res.fault
    | .string (some s) =>
      if s.buf.length > 0 then
        appendEscaped ctx (ctx.quote_method ≠ .none) retval (stringClone 0 s)
      else .ok retval
    | _ => do
      let string ← valueToString env v
      match string with
      | some text =>
        appendEscaped ctx (ctx.quote_method = .all) retval (stringCreate 0 (text.1 ++ [0]) (-1))
      | none => return retval

def appendDelimiter (currfield : Nat) (retval : Bytes) : Res Bytes :=
  if currfield > 0 then stringAppend retval [ctx.delimiter] 1 else .ok retval

/-- One turn of the loop of `nx_logdata_to_csv`; the state is `currfield` and `retval`. -/
def appendCsvField (env : TextEnv) (ctx : CsvCtx) (ld : Logdata) (s : Nat × Bytes) (f : CsvField) :
    Res (Nat × Bytes) := do
  let retval ← appendDelimiter ctx s.1 s.2
  match getField ld f.name with
  | none => return (s.1 + 1, retval)
  | some field => do
    let retval ← appendCsvValue env ctx retval field.value
    return (s.1 + 1, retval)

/-- mirrors extension/csv/csv.c:551-649 (`nx_logdata_to_csv`). -/
def logdataToCsv (env : TextEnv) (ctx : CsvCtx) (ld : Logdata) : Res Bytes := do
  Res.assert (ctx.fields.length > 0) "ctx->num_field > 0"
  let s ← run (appendCsvField env ctx ld) (0, []) ctx.fields
  return s.2

/-! ## The parser -/

/-- `nx_csv_state_t`. -/
inductive CsvState where
  | start | insideField | quote
  deriving DecidableEq

/-- The variables of `parse_fields`; `dst` is the buffer up to `ptr`. -/
structure Csv (σ : Type) where
  record : σ
  state : CsvState
  dst : Bytes
  currfield : Nat
  unescape : Bool

/-- mirrors extension/csv/csv.c:173-219 (`unescape_string`): what is written. -/
def unescapeString (chr : UInt8) : Bytes :=
  match if ctx.escape_control = TRUE then letterControl chr else none with
  | some control => [control]
  | none => if chr = ctx.escapechar ∨ chr = ctx.quotechar then [chr] else [ctx.escapechar, chr]

/-- extension/csv/csv.c:150-153. -/
def CsvField.valueType (f : CsvField) : ValueType := if f.type.tag = 0 then .string else f.type

section Parser

variable {σ : Type} (env : ValueEnv) (set : Setter σ) (ctx : CsvCtx)

/-- mirrors extension/csv/csv.c:139-169 (`add_logdata_field`). -/
def addCsvField (record : σ) (f : CsvField) (strval : CStr) : Res σ :=
  if ctx.undefvalue = some strval then set record f.name ⟨FALSE, .zero f.valueType⟩
  else do
    let value ← valueFromString env strval f.valueType
    set record f.name value

def tooManyFields (src : Bytes) (currfield : Nat) : String :=
  "Too many fields in CSV input, expected " ++ toString ctx.fields.length ++ ", got " ++
    toString (currfield + 1) ++ " in input '" ++ cText src ++ "'"

variable (src : Bytes) (size : Nat)

variable (p : Csv σ)

/-- A field is complete; `size` is that of the buffer. -/
def storeField : Res (Csv σ) :=
  match ctx.fields[p.currfield]? with
  | none => Res.throw (tooManyFields ctx src p.currfield)
  | some f => do
    let dst ← put size p.dst [0]
    let record ← addCsvField env set ctx p.record f (cut dst)
    return { p with record, state := .start, dst := [], currfield := p.currfield + 1 }

def writeBytes (bs : Bytes) : Res (Csv σ) := do
  let dst ← put size p.dst bs
  return { p with dst }

variable (c : UInt8)

/-- extension/csv/csv.c:251-265. -/
def insideFieldByte : Res (Csv σ) :=
  if c = ctx.quotechar then .ok { p with state := .quote }
  else if c = ctx.escapechar then .ok { p with unescape := true }
  else writeBytes size p [c]

/-- extension/csv/csv.c:266-299. -/
def quoteByte : Res (Csv σ) :=
  if c = ctx.quotechar then writeBytes size { p with state := .insideField } [c]
  else if c = ctx.delimiter then storeField env set ctx src size p
  else if c = ctx.escapechar then .ok { p with unescape := true }
  else if c = 32 then .ok p
  else Res.throw ("Invalid CSV input: '" ++ cText src ++ "'")

/-- extension/csv/csv.c:300-353. A delimiter without data in front of it leaves the
field out. -/
def startByte : Res (Csv σ) :=
  if c = ctx.escapechar then .ok { p with unescape := true }
  else if p.dst = [] then
    if c = 32 then .ok p
    else if c = ctx.quotechar then .ok { p with state := .insideField }
    else if c = ctx.delimiter then
      if p.currfield ≥ ctx.fields.length then Res.throw (tooManyFields ctx src p.currfield)
      else .ok { p with currfield := p.currfield + 1 }
    else writeBytes size p [c]
  else if c = ctx.delimiter then storeField env set ctx src size p
  else writeBytes size p [c]

/-- One turn of the loop of `parse_fields`. -/
def csvStep : Res (Csv σ) :=
  if p.unescape then writeBytes size { p with unescape := false } (unescapeString ctx c)
  else
    match p.state with
    | .insideField => insideFieldByte ctx size p c
    | .quote => quoteByte env set ctx src size p c
    | .start => startByte env set ctx src size p c

/-- extension/csv/csv.c:359-397: the last field. -/
def csvLast : Res (Csv σ) :=
  match p.state with
  | .quote => storeField env set ctx src size p
  | .start => if p.dst = [] then .ok p else storeField env set ctx src size p
  | .insideField => Res.throw ("Invalid CSV input: '" ++ cText src ++ "'")

/-- extension/csv/csv.c:399-406: the last field may be missing. -/
def csvFinish : Res σ := do
  let p ← csvLast env set ctx src size p
  if p.currfield + 1 = ctx.fields.length then .ok p.record
  else if p.currfield ≠ ctx.fields.length then
    Res.throw ("Not enough fields in CSV input, expected " ++ toString ctx.fields.length ++
      ", got " ++ toString p.currfield ++ " in input '" ++ cText src ++ "'")
  else .ok p.record

def csvStart (record : σ) (currfield : Nat) : Csv σ := ⟨record, .start, [], currfield, false⟩

/-- The rest of `parse_fields`, in front of `text`. -/
def csvFrom (text : Bytes) : Res σ := do
  let p ← run (csvStep env set ctx src size) p text
  csvFinish env set ctx src size p

/-- mirrors extension/csv/csv.c:411-451 (`nx_csv_parse`) and 223-407 (`parse_fields`),
whose loop counts with an `int`. -/
def csvParse (record : σ) (src : Bytes) (len : Nat) : Res σ := do
  let len ← textLen src len
  if ctx.fields.length = 0 then
    Res.throw "Cannot parse CSV input, csv parser was not properly initialized (config error?)"
  else do
    let text ← rdBytes src 0 (cInt len).toNat
    csvFrom env set ctx src (len + 1) (csvStart record 0) text

end Parser

/-! ## What the writer puts out -/

def cell (ctx : CsvCtx) (v : Bytes) : Bytes := ctx.quotechar :: (escaped (csvEscape ctx) v ++ [ctx.quotechar])

def csvRest (ctx : CsvCtx) (vs : List Bytes) : Bytes := vs.flatMap fun v => ctx.delimiter :: cell ctx v

def csvText (ctx : CsvCtx) : List Bytes → Bytes
  | [] => []
  | v :: vs => cell ctx v ++ csvRest ctx vs

def csvString (ld : Logdata) (f : CsvField) : Option NxString := (getField ld f.name).bind fun g =>
    g.value.string?

def csvValue (ld : Logdata) (f : CsvField) : Bytes := ((csvString ld f).map NxString.buf).getD []

section Writer

variable {env : TextEnv} {ctx : CsvCtx} {ld : Logdata}

theorem escapeString_returns (v : Bytes) (he : ctx.escapechar ≠ 0) :
    ReturnsUnless (stringLimit < v.length + 2) (escaped (csvEscape ctx) v) (escapeString ctx v) := by
  have hloop := escapeLoop_eq (csvEscape ctx) v [] false
  rw [length_nil, Nat.zero_add] at hloop
  rw [escapeString, if_neg he, hloop]
  split
  · next ht => exact .inr ⟨ht.2, _, rfl⟩
  · exact .inl rfl

theorem length_cell (ctx : CsvCtx) (v : Bytes) :
    (cell ctx v).length = (escaped (csvEscape ctx) v).length + 2 := by
  simp [cell]

theorem csvRest_cons (ctx : CsvCtx) (v : Bytes) (vs : List Bytes) :
    csvRest ctx (v :: vs) = ctx.delimiter :: csvText ctx (v :: vs) := by
  simp [csvRest, csvText]

/-- A string in quotes is written in one append. -/
theorem appendEscaped_quoted {a : Nat} {v r : Bytes} (he : ctx.escapechar ≠ 0)
    (hv : v.length < stringLimit) : ReturnsUnless (stringLimit < v.length + 2)
    (appendCut r (cell ctx v)) (appendEscaped ctx true r (stringClone 0 ⟨a, v⟩)) := by
  have hl : stringLimit = 1048576 := rfl
  have hclone : stringClone 0 ⟨a, v⟩ = .ok ⟨0, v⟩ := stringClone_ok 0 hv
  have hbound : (escaped (csvEscape ctx) v).length < 2 ^ 31 := by
    have := length_escaped_le (csvEscape ctx) v
    omega
  rw [appendEscaped, appendQuote, if_pos rfl, stringAppend_byte, ok_bind, hclone, ok_bind]
  refine (escapeString_returns v he).bind (.inl ?_)
  rw [cInt_of_lt hbound, stringAppend_eq (by simp), take_left' rfl, ok_bind, appendQuote,
    if_pos rfl, stringAppend_byte,
    appendCut_appendCut, appendCut_appendCut]
  rfl

/-- The record gives the field a string that is not empty, has no NUL and is below the
limit. -/
def CsvGiven (ld : Logdata) (f : CsvField) : Prop :=
  ∃ s, csvString ld f = some s ∧ s.buf ≠ [] ∧ (0 : UInt8) ∉ s.buf ∧ s.buf.length < stringLimit

theorem CsvGiven.value {f : CsvField} (h : CsvGiven ld f) :
    csvValue ld f ≠ [] ∧ 0 ∉ csvValue ld f ∧ (csvValue ld f).length < stringLimit := by
  obtain ⟨s, hs, h1, h2, h3⟩ := h
  simp [csvValue, hs, h1, h2, h3]

variable {i : Nat} {r : Bytes}

theorem appendDelimiter_eq :
    appendDelimiter ctx i r = .ok (if i = 0 then r else appendCut r [ctx.delimiter]) := by
  unfold appendDelimiter
  by_cases h : i = 0
  · rw [if_neg (by omega), if_pos h]
  · rw [if_pos (by omega), if_neg h, stringAppend_byte]

/-- A field with its delimiter is written in one append. -/
theorem appendCsvField_string {f : CsvField} (hf : CsvGiven ld f) (he : ctx.escapechar ≠ 0)
    (hq : ctx.quote_method = .string) :
    ReturnsUnless (stringLimit < (csvValue ld f).length + 2)
    (i + 1, appendCut r (if i = 0 then cell ctx (csvValue ld f)
      else ctx.delimiter :: cell ctx (csvValue ld f))) (appendCsvField env ctx ld (i, r) f) := by
  obtain ⟨hne, -, hlen⟩ := hf.value
  obtain ⟨s, hs, -⟩ := hf
  have hval : csvValue ld f = s.buf := by simp [csvValue, hs]
  obtain ⟨g, hg, hgs⟩ := Option.bind_eq_some_iff.mp hs
  obtain ⟨hd, hdata⟩ := string?_some hgs
  have hdef : g.value.defined ≠ FALSE := by rw [hd]; decide
  rw [hval] at hne hlen ⊢
  have hvalue : appendCsvValue env ctx (if i = 0 then r else appendCut r [ctx.delimiter]) g.value =
      appendEscaped ctx true (if i = 0 then r else appendCut r [ctx.delimiter])
      (stringClone 0 ⟨s.addr, s.buf⟩) := by
    rw [appendCsvValue, if_neg hdef, hdata]
    dsimp only
    rw [if_pos (length_pos_iff.mpr hne), hq]
    rfl
  rw [appendCsvField, appendDelimiter_eq, ok_bind, hg]
  dsimp only
  rw [hvalue]
  refine (appendEscaped_quoted he hlen).bind (.inl ?_)
  by_cases hi : i = 0
  · rw [if_pos hi, if_pos hi]
    rfl
  · rw [if_neg hi, if_neg hi, appendCut_appendCut]
    rfl

def csvPart (ctx : CsvCtx) (i : Nat) (vs : List Bytes) : Bytes :=
  if i = 0 then csvText ctx vs else csvRest ctx vs

theorem csvPart_cons (ctx : CsvCtx) (i : Nat) (v : Bytes) (vs : List Bytes) : csvPart ctx i (v :: vs) =
    (if i = 0 then cell ctx v else ctx.delimiter :: cell ctx v) ++ csvPart ctx (i + 1) vs := by
  unfold csvPart
  by_cases hi : i = 0
  · simp [hi, csvText]
  · simp [hi, csvRest]

variable (he : ctx.escapechar ≠ 0)
include he

variable (hq : ctx.quote_method = .string)
include hq

variable {fs : List CsvField}

theorem appendCsvFields_returns (hgiven : ∀ f ∈ fs, CsvGiven ld f) :
    ReturnsUnless (∃ f ∈ fs, stringLimit < (csvValue ld f).length + 2)
      (i + fs.length, appendCut r (csvPart ctx i (fs.map (csvValue ld))))
      (run (appendCsvField env ctx ld) (i, r) fs) := by
  induction fs generalizing i r with
  | nil => exact .inl (by simp [csvPart, csvText, csvRest, appendCut])
  | cons f fs ih =>
    obtain ⟨hf, hfs⟩ := forall_mem_cons.mp hgiven
    rw [run_cons, map_cons, csvPart_cons, ← appendCut_appendCut, length_cons,
      Nat.add_comm fs.length, ← Nat.add_assoc]
    exact ((appendCsvField_string hf he hq).mono fun h => ⟨f, mem_cons_self, h⟩).bind
      ((ih hfs).mono fun h => h.imp fun _ hg => ⟨mem_cons_of_mem _ hg.1, hg.2⟩)

/-- What the string limit leaves of the text. -/
theorem logdataToCsv_returns (hne : ctx.fields ≠ []) (hgiven : ∀ f ∈ ctx.fields, CsvGiven ld f) :
    ReturnsUnless (∃ f ∈ ctx.fields, stringLimit < (csvValue ld f).length + 2)
      ((csvText ctx (ctx.fields.map (csvValue ld))).take (stringLimit - 1)) (logdataToCsv env ctx ld) := by
  rw [logdataToCsv, decide_eq_true (length_pos_iff.mpr hne), assert_true, ok_bind]
  exact (appendCsvFields_returns he hq hgiven).bind (.inl rfl)

end Writer

end Nxlog.L3
