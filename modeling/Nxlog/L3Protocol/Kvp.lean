import Mathlib.Data.List.Forall2
import Nxlog.L3Protocol.Strings

/-!
# Key-value pairs (`extension/kvp/kvp.c`)

The writer puts out `key=value;` for each field, with the characters of its
context or, where the context has none, with defaults of its own. The parser is an
automaton with eight states that reads one byte a step. A character the context
does not have is taken from the text: the first that can be a quote or a delimiter
is remembered in the context.

This module is the model. The round trips are in `KvpRoundtrip`.

* `logdataToKvp`: the writer.
* `kvpStep`, `kvpFinish`, `kvpParse`: the parser, for any record and setter.
* `kvpText`, `logdataToKvp_eq`: the text of a list of string fields, and that the
  writer puts out what the string limit leaves of it.
-/
namespace Nxlog.L3
open L1 L2 Res List

/-- `nx_kvp_ctx_t` (extension/kvp/kvp.h); 0 is a character that is not set. -/
structure KvpCtx where
  kvdelimiter : UInt8
  kvpdelimiter : UInt8
  keyquotechar : UInt8
  valquotechar : UInt8
  escapechar : UInt8
  escape_control : CBool
  deriving DecidableEq

/-- mirrors extension/kvp/kvp.c:28-38 (`nx_kvp_ctx_init`) in the zeroed memory of
`xm_kvp_config` (extension/kvp/xm_kvp.c:22): `escape_control` stays FALSE. -/
def kvpCtxInit : KvpCtx := ⟨0, 0, 0, 0, 0, FALSE⟩

/-! ## The writer -/

variable (ctx : KvpCtx)

/-- extension/kvp/kvp.c:497-504: a single quote unless set. -/
def KvpCtx.quote : UInt8 := if ctx.valquotechar ≠ 0 then ctx.valquotechar else 39

/-- extension/kvp/kvp.c:498-508: a backslash unless set. -/
def KvpCtx.escape : UInt8 := if ctx.escapechar ≠ 0 then ctx.escapechar else 92

/-- extension/kvp/kvp.c:626-629: an equals sign unless set. -/
def KvpCtx.kvdelim : UInt8 := if ctx.kvdelimiter ≠ 0 then ctx.kvdelimiter else 61

/-- extension/kvp/kvp.c:630-633: a semicolon unless set. -/
def KvpCtx.kvpdelim : UInt8 := if ctx.kvpdelimiter ≠ 0 then ctx.kvpdelimiter else 59

/-- The tests of `escape_value`. A control character is escaped with the context's
own escape character, also where that is not set. -/
def kvpEscape (c : UInt8) : EscAct :=
  if 128 ≤ c then .keep
  else if c = ctx.escape then .pair ctx.escape c
  else if c = ctx.quote then .pair ctx.escape ctx.quote
  else if c = 32 then .quote
  else if c = ctx.kvpdelimiter then .quote
  else if ctx.escape_control = TRUE then
    match controlLetter c with
    | some l => .pair ctx.escapechar l
    | none => .keep
  else .keep

/-- extension/kvp/kvp.c:604-608. -/
def addQuotes (quotechar : UInt8) (needquote : Bool) (buf : Bytes) : Res Bytes :=
  if needquote then do
    let buf ← stringPrepend buf [quotechar]
    stringAppend buf [quotechar] 1
  else .ok buf

/-- mirrors extension/kvp/kvp.c:494-609 (`escape_value`) on a fresh clone, whose
buffer has no spare room. -/
def escapeValue (str : Bytes) : Res Bytes := do
  let (buf, needquote) ← escapeLoop (kvpEscape ctx) (str.length + 1) [] false str
  addQuotes ctx.quote needquote buf

/-- extension/kvp/kvp.c:656-682: the value of a field. -/
def appendKvpValue (env : TextEnv) (ctx : KvpCtx) (retval : Bytes) (v : NxValue) : Res Bytes :=
  if v.defined = FALSE then .ok retval
  else
    match v.data with
    | .string none => Res.fault
    | .string (some s) =>
      if s.buf.length > 0 then do
        let tmp ← stringClone 0 s
        let buf ← escapeValue ctx tmp.buf
        stringAppend retval (buf ++ [0]) (cInt buf.length)
      else .ok retval
    | _ => do
      let string ← valueToString env v
      match string with
      | some text => stringAppend retval (text.1 ++ [0]) (-1)
      | none => return retval

/-- extension/kvp/kvp.c:643-651: `raw_event`, and names that start with a dot or an
underscore, are left out. -/
def written (f : Field) : Bool :=
  f.key ≠ rawEvent ∧ f.key.1.head? ≠ some 46 ∧ f.key.1.head? ≠ some 95

/-- One turn of the loop of `nx_logdata_to_kvp`. -/
def appendKvpField (env : TextEnv) (ctx : KvpCtx) (retval : Bytes) (f : Field) : Res Bytes :=
  if written f then do
    let retval ← stringAppend retval (f.key.1 ++ [0]) (-1)
    let retval ← stringAppend retval [ctx.kvdelim] 1
    let retval ← appendKvpValue env ctx retval f.value
    stringAppend retval [ctx.kvpdelim] 1
  else .ok retval

/-- mirrors extension/kvp/kvp.c:613-704 (`nx_logdata_to_kvp`). -/
def logdataToKvp (env : TextEnv) (ctx : KvpCtx) (ld : Logdata) : Res Bytes :=
  run (appendKvpField env ctx) [] ld.fields

/-! ## The parser -/

/-- `nx_kvp_state_t`. -/
inductive KvpState where
  | keyStart | key | keyEscape | kvDelimiter | valueStart | value | valueEscape | kvpDelimiter
  deriving DecidableEq

def KvpState.number : KvpState → Nat
  | .keyStart => 1
  | .key => 2
  | .keyEscape => 3
  | .kvDelimiter => 4
  | .valueStart => 5
  | .value => 6
  | .valueEscape => 7
  | .kvpDelimiter => 8

/-- The variables of `parse_kvp`; `key` is `keyname` up to `keylen`. -/
structure Kvp (σ : Type) where
  record : σ
  ctx : KvpCtx
  state : KvpState
  key : Bytes
  got_keyquote : Bool
  got_valquote : Bool
  valuestr : Option Bytes

def isQuoteChar (c : UInt8) : Bool := c = 39 ∨ c = 34

def isKvDelimiterChar (c : UInt8) : Bool := c = 58 ∨ c = 61

def isKvpDelimiterChar (c : UInt8) : Bool := c = 44 ∨ c = 59 ∨ c = 32

/-- `keyname[256]` takes 255 bytes; what does not fit is dropped. -/
def appendKey (key bs : Bytes) : Bytes := if key.length + bs.length ≤ 255 then key ++ bs else key

/-- mirrors extension/kvp/kvp.c:133-184 (`unescape_value`): what is appended. -/
def unescapeValue (ctx : KvpCtx) (c : UInt8) (quoted : Bool) : Bytes :=
  match if ctx.escape_control = TRUE then letterControl c else none with
  | some control => [control]
  | none =>
    if c = ctx.escapechar then [ctx.escapechar]
    else if c = ctx.valquotechar then [ctx.valquotechar]
    else if quoted = false ∧ c = ctx.kvpdelimiter then [ctx.kvpdelimiter]
    else [ctx.escapechar, c]

section Parser

variable {σ : Type} (set : Setter σ)

variable (p : Kvp σ)

/-- mirrors extension/kvp/kvp.c:105-129 (`add_logdata_field`). -/
def addKvpField : Res (Kvp σ) :=
  match p.valuestr with
  | none => .error (.assert "strval != NULL")
  | some w => do
    let key := if p.got_keyquote then p.key else (p.key.reverse.dropWhile (· = 32)).reverse
    let record ← set p.record (cut key) (strValue w)
    return { p with record, valuestr := none, state := .keyStart }

def appendValue (bs : Bytes) : Res (Kvp σ) :=
  match p.valuestr with
  | none => .error (.assert "dst != NULL")
  | some w => do
    let w ← stringAppend w bs bs.length
    return { p with valuestr := some w, state := .value }

variable (c : UInt8)

/-- extension/kvp/kvp.c:365-400. -/
def keyStartByte : Res (Kvp σ) :=
  let p := { p with key := [], got_keyquote := false }
  if c = 32 then .ok p
  else if p.ctx.keyquotechar = 0 ∧ isQuoteChar c then
    .ok { p with ctx.keyquotechar := c, got_keyquote := true, state := .key }
  else if c = p.ctx.keyquotechar then .ok { p with got_keyquote := true, state := .key }
  else if c = p.ctx.escapechar then .ok { p with state := .keyEscape }
  else if c = p.ctx.kvpdelimiter then .ok p
  else .ok { p with key := appendKey p.key [c], state := .key }

/-- extension/kvp/kvp.c:215-255. -/
def keyByte : Res (Kvp σ) :=
  if c = p.ctx.keyquotechar then
    if p.got_keyquote then .ok { p with state := .kvDelimiter }
    else Res.throw "invalid key quotation in key-value pair"
  else if p.ctx.kvdelimiter = 0 ∧ isKvDelimiterChar c then
    .ok { p with ctx.kvdelimiter := c, state := .valueStart }
  else if c = p.ctx.kvdelimiter then .ok { p with state := .valueStart }
  else if c = p.ctx.escapechar then .ok { p with state := .keyEscape }
  else .ok { p with key := appendKey p.key [c] }

/-- extension/kvp/kvp.c:401-423. -/
def keyEscapeByte : Res (Kvp σ) :=
  if c = p.ctx.escapechar ∨
  c = p.ctx.keyquotechar then .ok { p with key := appendKey p.key [c], state := .key }
  else .ok { p with key := appendKey p.key [p.ctx.escapechar, c], state := .key }

/-- extension/kvp/kvp.c:330-346. -/
def kvDelimiterByte : Res (Kvp σ) :=
  if c = 32 then .ok p
  else if p.ctx.kvdelimiter = 0 ∧ isKvDelimiterChar c then
    .ok { p with ctx.kvdelimiter := c, state := .valueStart }
  else if c = p.ctx.kvdelimiter then .ok { p with state := .valueStart }
  else .ok p

/-- extension/kvp/kvp.c:283-323. -/
def valueByte : Res (Kvp σ) :=
  if c = p.ctx.valquotechar then
    if p.got_valquote then .ok { p with state := .kvpDelimiter }
    else
      match p.valuestr with
      | none => Res.fault
      | some w =>
        if w.length > 0 then Res.throw ("invalid value quotation in key-value pair: " ++ cText w)
        else .ok { p with state := .kvpDelimiter }
  else if p.ctx.kvpdelimiter = 0 ∧ isKvpDelimiterChar c ∧ p.got_valquote = false then
    addKvpField set { p with ctx.kvpdelimiter := c }
  else if c = p.ctx.kvpdelimiter ∧ p.got_valquote = false then addKvpField set p
  else if c = p.ctx.escapechar then .ok { p with state := .valueEscape }
  else appendValue p [c]

/-- extension/kvp/kvp.c:257-281; a byte that is not a quote is stepped back over and
read again inside the value. -/
def valueStartByte : Res (Kvp σ) :=
  if c = 32 then .ok p
  else do
    Res.assert p.valuestr.isNone "valuestr == NULL"
    let p := { p with got_valquote := false, valuestr := some [], state := .value }
    if p.ctx.valquotechar = 0 ∧ isQuoteChar c then
      return { p with ctx.valquotechar := c, got_valquote := true }
    else if c = p.ctx.valquotechar then return { p with got_valquote := true }
    else valueByte set p c

/-- extension/kvp/kvp.c:348-363. -/
def kvpDelimiterByte : Res (Kvp σ) :=
  if p.ctx.kvpdelimiter = 0 ∧ isKvpDelimiterChar c then addKvpField set { p with ctx.kvpdelimiter := c }
  else if c = p.ctx.kvpdelimiter then addKvpField set p
  else .ok p

/-- One turn of the loop of `parse_kvp`. -/
def kvpStep : Res (Kvp σ) :=
  match p.state with
  | .keyStart => keyStartByte p c
  | .key => keyByte p c
  | .keyEscape => keyEscapeByte p c
  | .kvDelimiter => kvDelimiterByte p c
  | .valueStart => valueStartByte set p c
  | .value => valueByte set p c
  | .valueEscape => appendValue p (unescapeValue p.ctx c p.got_valquote)
  | .kvpDelimiter => kvpDelimiterByte set p c

/-- extension/kvp/kvp.c:438-460, at the end of the text `src`. -/
def kvpFinish (src : Bytes) (p : Kvp σ) : Res (Kvp σ) :=
  match p.state with
  | .value | .kvpDelimiter => addKvpField set p
  | .keyStart => do
    Res.assert p.valuestr.isNone "valuestr == NULL"
    return p
  | .kvDelimiter | .key | .keyEscape | .valueStart | .valueEscape =>
    Res.throw ("invalid KVP input: '" ++ cText src ++ "' [state: " ++ toString p.state.number ++ "]")

def kvpStart (record : σ) (ctx : KvpCtx) (key : Bytes) (keyquote valquote : Bool) : Kvp σ :=
  ⟨record, ctx, .keyStart, key, keyquote, valquote, none⟩

/-- mirrors extension/kvp/kvp.c:192-461 (`parse_kvp`). The loop counts with an `int`. -/
def parseKvp (record : σ) (ctx : KvpCtx) (src : Bytes) (len : Nat) : Res (σ × KvpCtx) := do
  let text ← rdBytes src 0 (cInt len).toNat
  let p ← run (kvpStep set) (kvpStart record ctx [] false false) text
  let p ← kvpFinish set src p
  return (p.record, p.ctx)

/-- mirrors extension/kvp/kvp.c:465-480 (`nx_kvp_parse`): the record, and the context
with what was detected. -/
def kvpParse (record : σ) (ctx : KvpCtx) (src : Bytes) (len : Nat) : Res (σ × KvpCtx) := do
  let len ← textLen src len
  parseKvp set record ctx src len

end Parser

/-! ## What the writer puts out -/

/-- What `escape_value` makes of a value when it returns. -/
def valueText (ctx : KvpCtx) (v : Bytes) : Bytes :=
  let e := escaped (kvpEscape ctx) v
  if v.any fun c => kvpEscape ctx c = .quote then
    appendCut (if e.length < stringLimit - 1 then ctx.quote :: e else e) [ctx.quote]
  else e

def pairText (ctx : KvpCtx) (p : CStr × Bytes) : Bytes :=
  p.1.1 ++ ctx.kvdelim :: (valueText ctx p.2 ++ [ctx.kvpdelim])

def kvpText (ctx : KvpCtx) (ps : List (CStr × Bytes)) : Bytes := ps.flatMap (pairText ctx)

def stringFields (ld : Logdata) : List (CStr × Bytes) :=
  (ld.fields.filter written).filterMap fun f => f.value.string?.map fun s => (f.key, s.buf)

def AllStrings (ld : Logdata) : Prop := ∀ f ∈ ld.fields, written f → f.value.string?.isSome

/-- The field `p` is written for `q`: a string that is not below the limit is cut. -/
def WrittenAs (p q : CStr × Bytes) : Prop :=
  p.1 = q.1 ∧ p.2 <+: q.2 ∧ (q.2.length < stringLimit → p.2 = q.2)

section Writer

variable {env : TextEnv} {ctx : KvpCtx}

theorem escapeValue_returns (ctx : KvpCtx) (v : Bytes) :
    ReturnsUnless (stringLimit < v.length + 2) (valueText ctx v) (escapeValue ctx v) := by
  have hloop := escapeLoop_eq (kvpEscape ctx) v [] false
  rw [length_nil, Nat.zero_add] at hloop
  rw [escapeValue, hloop]
  split
  · next ht => exact .inr ⟨ht.2, _, rfl⟩
  left
  rw [ok_bind, nil_append, Bool.false_or]
  unfold addQuotes valueText
  cases v.any fun c => kvpEscape ctx c = .quote with
  | false => rfl
  | true => simp [stringPrepend_byte, stringAppend_byte]

theorem length_valueText (ctx : KvpCtx) (v : Bytes) : (valueText ctx v).length ≤ 2 * v.length + 2 := by
  have hle := length_escaped_le (kvpEscape ctx) v
  unfold valueText
  dsimp only
  split
  · rw [appendCut, length_append, length_take, length_singleton]
    split
    · rw [length_cons]
      omega
    · omega
  · omega

@[simp] theorem valueText_nil : valueText ctx [] = [] := rfl

variable {f : Field} {s : NxString} {r : Bytes}

/-- A field is written in one append, of the string as it was cloned. Only a string that does not
fit the limit with quotes around it can fail. -/
theorem appendKvpField_string (env : TextEnv) (ctx : KvpCtx) (r : Bytes) (hw : written f)
    (hs : f.value.string? = some s) : ∃ v, WrittenAs (f.key, v) (f.key, s.buf) ∧
      ReturnsUnless (stringLimit < s.buf.length + 2) (appendCut r (pairText ctx (f.key, v)))
      (appendKvpField env ctx r f) := by
  obtain ⟨hd, hdata⟩ := string?_some hs
  have hdef : f.value.defined ≠ FALSE := by rw [hd]; decide
  rw [appendKvpField, if_pos hw, stringAppend_cstr, ok_bind, stringAppend_byte, ok_bind,
    appendKvpValue, if_neg hdef, hdata]
  dsimp only
  by_cases hne : s.buf = []
  · refine ⟨[], ⟨rfl, nil_prefix, fun _ => hne.symm⟩, .inl ?_⟩
    rw [if_neg (by simp [hne]), ok_bind, stringAppend_byte, appendCut_appendCut, appendCut_appendCut]
    simp [pairText]
  rw [if_pos (length_pos_iff.mpr hne)]
  cases hc : stringClone 0 s with
  | error e =>
    refine ⟨s.buf, ⟨rfl, prefix_refl _, fun _ => rfl⟩, .inr ⟨?_, e, rfl⟩⟩
    by_contra hlt
    rw [stringClone_ok 0 (by omega)] at hc
    cases hc
  | ok tmp =>
    obtain ⟨len, hlen, htmp⟩ := stringClone_eq hc
    have hpre : tmp.buf <+: s.buf := htmp ▸ take_prefix _ _
    have hlen : tmp.buf.length < stringLimit := by
      rw [htmp, length_take]
      omega
    refine ⟨tmp.buf, ⟨rfl, hpre, fun hlt => ?_⟩, ?_⟩
    · rw [stringClone_ok 0 hlt] at hc
      cases hc
      rfl
    have hbound : (valueText ctx tmp.buf).length < 2 ^ 31 := by
      have := length_valueText ctx tmp.buf
      have hl : stringLimit = 1048576 := rfl
      omega
    have hescape := (escapeValue_returns ctx tmp.buf).mono fun h =>
      Nat.lt_of_lt_of_le h (Nat.add_le_add_right hpre.length_le 2)
    rw [ok_bind, bind_assoc]
    refine hescape.bind (.inl ?_)
    rw [cInt_of_lt hbound, stringAppend_eq (by simp), take_left' rfl, ok_bind, stringAppend_byte,
      appendCut_appendCut,
      appendCut_appendCut, appendCut_appendCut, singleton_append]
    rfl

theorem stringFields_cons (f : Field) (fs : List Field) (raw : Option Nat) (det : List NxString) :
    stringFields ⟨raw, f :: fs, det⟩ =
      (if written f then (f.value.string?.map fun s => (f.key, s.buf)).toList else []) ++
        stringFields ⟨raw, fs, det⟩ := by
  unfold stringFields
  by_cases hw : written f
  · cases hs : f.value.string? with
    | none => simp [hw, hs]
    | some s => simp [hw, hs]
  · simp [hw]

variable {raw : Option Nat} {det : List NxString} {fs : List Field}

theorem appendFields_string (env : TextEnv) (ctx : KvpCtx) (r : Bytes)
    (hall : AllStrings ⟨raw, fs, det⟩) : ∃ ps, Forall₂ WrittenAs ps (stringFields ⟨raw, fs, det⟩) ∧
      ReturnsUnless (∃ p ∈ stringFields ⟨raw, fs, det⟩, stringLimit < p.2.length + 2)
      (appendCut r (kvpText ctx ps))
        (run (appendKvpField env ctx) r fs) := by
  induction fs generalizing r with
  | nil => exact ⟨[], .nil, .inl (by simp [kvpText, appendCut])⟩
  | cons f fs ih =>
    have hall' : AllStrings ⟨raw, fs, det⟩ := (forall_mem_cons.mp hall).2
    rw [stringFields_cons, run_cons]
    by_cases hw : written f
    · obtain ⟨s, hs⟩ := Option.isSome_iff_exists.mp (hall f mem_cons_self hw)
      obtain ⟨v, hv, hstep⟩ := appendKvpField_string env ctx r hw hs
      obtain ⟨ps, hps, hrun⟩ := ih (appendCut r (pairText ctx (f.key, v))) hall'
      rw [if_pos hw, hs]
      refine ⟨(f.key, v) :: ps, .cons hv hps, ?_⟩
      rw [kvpText, flatMap_cons, ← appendCut_appendCut]
      exact (hstep.mono fun hlong => ⟨_, mem_cons_self, hlong⟩).bind
        (hrun.mono fun h => h.imp fun _ hp => ⟨mem_cons_of_mem _ hp.1, hp.2⟩)
    · rw [if_neg hw, nil_append, appendKvpField, if_neg hw]
      exact ih r hall'

theorem writtenAs_eq {ps qs : List (CStr × Bytes)} (h : Forall₂ WrittenAs ps qs)
    (hlen : ∀ q ∈ qs, q.2.length + 2 ≤ stringLimit) : ps = qs := by
  induction h with
  | nil => rfl
  | cons hpq _ ih =>
    obtain ⟨hq, hqs⟩ := forall_mem_cons.mp hlen
    rw [ih hqs, Prod.ext hpq.1 (hpq.2.2 (by omega))]

/-- What the string limit leaves of the text. -/
theorem logdataToKvp_ok {ld : Logdata} (hall : AllStrings ld)
    (hlen : ∀ p ∈ stringFields ld, p.2.length + 2 ≤ stringLimit) :
    logdataToKvp env ctx ld = .ok ((kvpText ctx (stringFields ld)).take (stringLimit - 1)) := by
  obtain ⟨ps, hps, hrun⟩ := appendFields_string env ctx [] hall
  have hrun := hrun.eq_ok fun ⟨p, hp, hlong⟩ => Nat.not_le.mpr hlong (hlen p hp)
  rwa [writtenAs_eq hps hlen] at hrun

theorem logdataToKvp_cases {ld : Logdata} {text : Bytes} (hall : AllStrings ld)
    (h : logdataToKvp env ctx ld = .ok text) :
    ∃ ps, Forall₂ WrittenAs ps (stringFields ld) ∧ text = (kvpText ctx ps).take (stringLimit - 1) := by
  obtain ⟨ps, hps, hrun⟩ := appendFields_string env ctx [] hall
  exact ⟨ps, hps, hrun.inj h⟩

end Writer

end Nxlog.L3
