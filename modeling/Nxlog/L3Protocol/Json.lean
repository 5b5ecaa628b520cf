import Nxlog.L3Protocol.Date

/-!
# JSON (`modules/extension/json/json.c`)

`nx_json_parse` hands the text to yajl, which calls back for every value, key and bracket
(`Event`). The callbacks share two counters of open brackets, the key of the member that is
being read and the text of a nested value: a member of the object itself becomes a field, and
everything below it is written to `tmpstr` again and becomes a STRING at its last bracket.

The callbacks are modelled over any kind of record (`Setter`). `sscanf` is a parameter.

* `callback`: one callback; `jsonParse`: those of a text.
* `JVal`, `Members`: the values of JSON, with the callbacks they produce (`events`).
-/
namespace Nxlog.L3.Json
open L1 L2

/-! ## Callbacks -/

/-- A part of the text that yajl hands over. Its length is cast to `int` in places. -/
abbrev JText := { s : Bytes // s.length < 2 ^ 31 }

/-- The callbacks. A `double` is what `%f` prints and what it is cast to. -/
inductive Event where
  | null
  | boolean (boolval : Bool)
  | integer (integerval : Int64)
  | double (text : JText) (truncated : Int64)
  | number (s : JText)
  | string (s : JText)
  | startMap
  | mapKey (s : JText)
  | endMap
  | startArray
  | endArray

/-- What the callbacks need: the calendar, and `sscanf` with `%ld`. -/
structure JsonEnv where
  date : DateEnv
  scanLong : Bytes → Option Int64

/-- mirrors modules/extension/json/json.h:17-25 (`nx_json_parser_ctx_t`). -/
structure JsonCtx (σ : Type) where
  tmpstr : Option Bytes
  logdata : σ
  in_array : Int
  in_map : Int
  key : Option CStr

section Callbacks

variable {σ : Type} (set : Setter σ) (env : JsonEnv)

variable (s : JText) (ctx : JsonCtx σ)

/-- `nx_string_append` to `tmpstr`. -/
def tmpAppend (src : Bytes) : Res (JsonCtx σ) :=
  match ctx.tmpstr with
  | none => .error (.assert "dst != NULL")
  | some t => do
    let t ← stringAppend t src src.length
    .ok { ctx with tmpstr := some t }

/-- The value of the member that is being read; `none` for one that is left out. -/
def setMember (key : CStr) : Option NxValue → Res (JsonCtx σ)
  | none => .ok { ctx with key := none }
  | some v => do
    let ld ← set ctx.logdata key v
    .ok { ctx with logdata := ld, key := none }

/-- The callbacks of scalars: below the object itself they are written to `tmpstr`. -/
def scalarCb (texts : List Bytes) (value : CStr → Res (Option NxValue)) (ctx : JsonCtx σ) : Res (JsonCtx σ) :=
  if 0 < ctx.in_array ∨ 0 < ctx.in_map then run tmpAppend ctx texts
  else
    match ctx.key with
    | none => Res.throw "map key name not found"
    | some key => do
      let v ← value key
      setMember set ctx key v

/-- mirrors modules/extension/json/json.c:20-48 (`yajl_parse_null_cb`). -/
def nullCb : JsonCtx σ → Res (JsonCtx σ) :=
  scalarCb set [ascii "null,"] fun _ => .ok (some ⟨FALSE, .string none⟩)

/-- mirrors modules/extension/json/json.c:52-93 (`yajl_parse_boolean_cb`). The length that is given
for `TRUE,` includes the NUL. -/
def booleanCb (boolval : Bool) : JsonCtx σ → Res (JsonCtx σ) :=
  scalarCb set [if boolval then ascii "TRUE," ++ [0] else ascii "FALSE,"]
    fun _ => .ok (some ⟨TRUE, .boolean (if boolval then TRUE else FALSE)⟩)

/-- mirrors modules/extension/json/json.c:97-125 (`yajl_parse_integer_cb`). -/
def integerCb (integerval : Int64) : JsonCtx σ → Res (JsonCtx σ) :=
  scalarCb set [decimal integerval.toInt, ascii ","] fun _ => .ok (some ⟨TRUE, .integer integerval⟩)

/-- mirrors modules/extension/json/json.c:129-157 (`yajl_parse_double_cb`). -/
def doubleCb (text : JText) (truncated : Int64) : JsonCtx σ → Res (JsonCtx σ) :=
  scalarCb set [text.1, ascii ","] fun _ => .ok (some ⟨TRUE, .integer truncated⟩)

def textValue : Res (Option NxValue) := do
  let str ← stringCreate 0 s.1 s.1.length
  .ok (some ⟨TRUE, .string (some str)⟩)

/-- mirrors modules/extension/json/json.c:161-198 (`yajl_parse_number_cb`). -/
def numberCb : JsonCtx σ → Res (JsonCtx σ) :=
  scalarCb set [s.1, ascii ","] fun _ =>
    match env.scanLong s.1 with
    | none => textValue s
    | some intval => .ok (some ⟨TRUE, .integer intval⟩)

def startsWithYear (s : Bytes) : Bool :=
  (ch s 0 = 49 ∨ ch s 0 = 50) ∧ isDigit (ch s 1) ∧ isDigit (ch s 2) ∧ isDigit (ch s 3) ∧ ch s 4 = 45

/-- The date that the whole text is. Behind the text stands its quote or a NUL, where the parser of
dates stops. -/
def textDate (s : Bytes) : Res (Option Int64) :=
  if startsWithYear s then do
    let parsed ← dateParseIso env.date s none
    .ok (if parsed.dateend = some [] then parsed.time else none)
  else .ok none

/-- mirrors modules/extension/json/json.c:202-255 (`yajl_parse_string_cb`): "setting raw event would
cause a free() on our buffer being parsed, ignore it". -/
def stringCb : JsonCtx σ → Res (JsonCtx σ) :=
  scalarCb set [s.1, ascii ","] fun key =>
    if key = rawEvent then .ok none
    else do
      let date ← textDate env s.1
      match date with
      | some t => .ok (some ⟨TRUE, .datetime t⟩)
      | none => textValue s

/-- mirrors modules/extension/json/json.c:258-290 (`yajl_parse_map_key_cb`). -/
def mapKeyCb : Res (JsonCtx σ) :=
  if 0 < ctx.in_map then
    if ctx.tmpstr = none then Res.throw "tmpstr missing"
    else run tmpAppend ctx [ascii "\"", s.1, ascii "\":"]
  else if ctx.key ≠ none then Res.throw "already got map key"
  else .ok { ctx with key := some (cut s.1) }

/-- mirrors modules/extension/json/json.c:294-318 (`yajl_parse_start_map_cb`). -/
def startMapCb : Res (JsonCtx σ) :=
  if ctx.in_array ≠ 0 then Res.throw "unexpected in_array"
  else
    match ctx.key with
    | none => .ok ctx
    | some _ => tmpAppend { ctx with in_map := ctx.in_map + 1, tmpstr := some (ctx.tmpstr.getD []) }
      (ascii "\x7b")

/-- The closing bracket, in place of a trailing comma. -/
def closed (tmpstr : Option Bytes) (bracket : Bytes) : Res Bytes :=
  match tmpstr with
  | none => Res.throw "tmpstr missing"
  | some t => stringAppend (if 2 < t.length then t.dropLast else t) bracket bracket.length

/-- `nx_logdata_set_string` with the text of a nested value. -/
def setText (key : CStr) (text : Bytes) : Res (JsonCtx σ) := do
  let str ← stringCreate 0 (text ++ [0]) (-1)
  let ld ← set ctx.logdata key ⟨TRUE, .string (some str)⟩
  .ok { ctx with logdata := ld, tmpstr := none, key := none }

/-- mirrors modules/extension/json/json.c:322-364 (`yajl_parse_end_map_cb`). -/
def endMapCb : Res (JsonCtx σ) :=
  if ctx.in_array ≠ 0 then Res.throw "unexpected in_array"
  else
    match ctx.key with
    | none => .ok ctx
    | some key =>
      if ctx.in_map - 1 < 0 then Res.throw "in_map is negative"
      else do
        let t ← closed ctx.tmpstr (ascii "\x7d")
        if ctx.in_map - 1 = 0 then setText set { ctx with in_map := ctx.in_map - 1 } key t
        else .ok { ctx with in_map := ctx.in_map - 1, tmpstr := some t }

/-- mirrors modules/extension/json/json.c:366-387 (`yajl_parse_start_array_cb`). -/
def startArrayCb : Res (JsonCtx σ) :=
  match ctx.key with
  | none => Res.throw "map key name not found"
  | some _ => tmpAppend { ctx with in_array := ctx.in_array + 1, tmpstr := some (ctx.tmpstr.getD []) } (ascii "[")

/-- mirrors modules/extension/json/json.c:391-430 (`yajl_parse_end_array_cb`). -/
def endArrayCb : Res (JsonCtx σ) :=
  if ctx.in_array = 0 then Res.throw "in_array expected"
  else do
    let t ← closed ctx.tmpstr (ascii "]")
    if ctx.in_array - 1 = 0 then
      match ctx.key with
      | none => Res.throw "map key name not found"
      | some key => setText set { ctx with in_array := ctx.in_array - 1 } key t
    else .ok { ctx with in_array := ctx.in_array - 1, tmpstr := some t }

/-- mirrors modules/extension/json/json.c:434-446 (`callbacks`). -/
def callback : Event → Res (JsonCtx σ)
  | .null => nullCb set ctx
  | .boolean b => booleanCb set b ctx
  | .integer i => integerCb set i ctx
  | .double text truncated => doubleCb set text truncated ctx
  | .number s => numberCb set env s ctx
  | .string s => stringCb set env s ctx
  | .startMap => startMapCb ctx
  | .mapKey s => mapKeyCb s ctx
  | .endMap => endMapCb set ctx
  | .startArray => startArrayCb ctx
  | .endArray => endArrayCb set ctx

/-- mirrors modules/extension/json/json.c:450-473 (`nx_json_parse`), with the callbacks that yajl
makes for the text. The context is cleared by the caller. -/
def jsonParse (logdata : σ) (events : List Event) : Res (JsonCtx σ) :=
  run (callback set env) ⟨none, logdata, 0, 0, none⟩ events

end Callbacks

/-! ## Values -/

mutual

inductive JVal where
  | null
  | boolean (b : Bool)
  | number (s : JText)
  | string (s : JText)
  | array (vs : JVals)
  | object (ms : Members)

inductive JVals where
  | nil
  | cons (v : JVal) (vs : JVals)

inductive Members where
  | nil
  | cons (name : JText) (v : JVal) (ms : Members)

end

mutual

def JVal.events : JVal → List Event
  | .null => [.null]
  | .boolean b => [.boolean b]
  | .number s => [.number s]
  | .string s => [.string s]
  | .array vs => .startArray :: (vs.events ++ [.endArray])
  | .object ms => .startMap :: (ms.events ++ [.endMap])

def JVals.events : JVals → List Event
  | .nil => []
  | .cons v vs => v.events ++ vs.events

def Members.events : Members → List Event
  | .nil => []
  | .cons name v ms => .mapKey name :: (v.events ++ ms.events)

end

end Nxlog.L3.Json
