import Nxlog.L3Protocol.Strings

/-!
# Expressions (`common/expr.c`)

Expressions are built by the actions of the grammar, which check the types of the operands
as far as they are known: a field may hold any type, so its type is UNKNOWN. What is left
is checked by the operators when the expression is evaluated.

A value is a type, a flag and a payload that only a defined value has (`EVal`). Some
operators return an undefined value without setting its type, which is then what happened
to be in the memory of the caller (`undef none`); an operator that looks at it faults here.
The strings of a record carry the size of their buffers, since a substitution edits them in
place. PCRE, `sscanf` and the conversions of dates are parameters (`ExprEnv`).

The places in the configuration file that nodes carry, and the messages that are added to
an exception on its way out, are left out.

* `newBinop`, `newUnop`, …: the constructors, with the static types.
* `applyBinop`, `applyUnop`, `valueEq`: the operators.
* `evaluate`: expressions.
-/
namespace Nxlog.L4.Eval
open L1 L2 L3

/-! ## Values -/

/-- `nx_string_t` with the size of its buffer, which has room for the NUL behind the text. -/
structure Str where
  buf : Bytes
  bufsize : Nat
  fits : buf.length < bufsize
  deriving DecidableEq

/-- A compiled regular expression; `groups` is `PCRE_INFO_CAPTURECOUNT`. -/
structure Regexp where
  str : Bytes
  replacement : Option CStr
  global : Bool
  dotall : Bool
  multiline : Bool
  caseless : Bool
  groups : Nat
  deriving DecidableEq

/-- `nx_value_binary_t`: what its length, a `uint32_t`, covers. -/
abbrev Binary := { value : Bytes // value.length < 2 ^ 32 }

inductive Datum where
  | integer (i : Int64)
  | string (s : Str)
  | datetime (t : Int64)
  | regexp (r : Regexp)
  | boolean (b : CBool)
  | ip4addr (a : Octets 4)
  | ip6addr (a : Octets 16)
  | binary (value : Binary)
  deriving DecidableEq

def Datum.type : Datum → ValueType
  | .integer _ => .integer
  | .string _ => .string
  | .datetime _ => .datetime
  | .regexp _ => .regexp
  | .boolean _ => .boolean
  | .ip4addr _ => .ip4addr
  | .ip6addr _ => .ip6addr
  | .binary _ => .binary

/-- `nx_value_t`; an undefined value may have no type that was set. -/
inductive EVal where
  | defined (d : Datum)
  | undef (type : Option ValueType)
  deriving DecidableEq

def EVal.type : EVal → Res ValueType
  | .defined d => .ok d.type
  | .undef (some t) => .ok t
  | .undef none => Res.fault

/-- A payload as `nx_value_t` has it. -/
def Datum.data : Datum → Data
  | .integer i => .integer i
  | .string s => .string (some ⟨0, s.buf⟩)
  | .datetime t => .datetime t
  | .regexp r => .regexp (some r.str) 0
  | .boolean b => .boolean b
  | .ip4addr a => .ip4addr a
  | .ip6addr a => .ip6addr a
  | .binary value => .binary (some value.1) value.1.length.toUInt32

def truth (b : Bool) : EVal := .defined (.boolean (if b then TRUE else FALSE))

/-- A string in a buffer of its size. -/
def Str.exact (buf : Bytes) : Str := ⟨buf, buf.length + 1, Nat.lt_succ_self _⟩

/-- mirrors common/str.c:360-381 (`nx_string_clone`). -/
def cloneStr (s : Str) : Res Str := do
  let c ← stringClone 0 ⟨0, s.buf⟩
  .ok (.exact c.buf)

/-- mirrors common/value.c:104-170 (`nx_value_clone`). -/
def clone : EVal → Res EVal
  | .defined (.string s) => do
    let s ← cloneStr s
    .ok (.defined (.string s))
  | v => .ok v

/-- mirrors common/str.c:102-126 (`nx_string_create`). -/
def newStr (text : Bytes) : Res Str :=
  if stringLimit < text.length then Res.throw "oversized string, limit is 1048576 bytes"
  else .ok (.exact text)

/-! ## Expressions -/

inductive BinOp where
  | regmatch | notregmatch | equal | notequal | less | le | greater | ge | and | or | plus | minus | mul | div | mod
  deriving DecidableEq, Repr

inductive UnOp where
  | minus | not | defined
  deriving DecidableEq, Repr

mutual

/-- `nx_expr_t`; the static type is in the node where it does not follow from the kind of the
node. -/
inductive Expr where
  | value (v : EVal) (rettype : ValueType)
  | field (name : CStr)
  | captured (n : Int)
  | unop (op : UnOp) (e : Expr)
  | binop (op : BinOp) (left right : Expr) (rettype : ValueType)
  | inop (e : Expr) (es : Exprs)
  | function (fn : Nat) (args : Exprs) (rettype : ValueType)

inductive Exprs where
  | nil
  | cons (e : Expr) (es : Exprs)

end

def Expr.rettype : Expr → ValueType
  | .value _ t => t
  | .field _ => .unknown
  | .captured _ => .string
  | .unop _ _ => .boolean
  | .binop _ _ _ t => t
  | .inop _ _ => .boolean
  | .function _ _ t => t

def Expr.isField : Expr → Bool
  | .field _ => true
  | _ => false

/-- `expr->value.regexp.replacement != NULL`, of a node with the static type REGEXP. -/
def Expr.replaces : Expr → Bool
  | .value (.defined (.regexp r)) _ => r.replacement.isSome
  | _ => false

/-! ### Constructors -/

/-- What `pcre_exec` returns: an error, which may be one that the code panics on, or the offsets of
the match and of the groups. -/
inductive PcreResult where
  | error (fatal : Bool)
  | matched (ovector : List (Int × Int))

structure Ctx where
  logdata : Option (List (CStr × EVal))
  captured : List Bytes

/-- What is outside of `expr.c`: PCRE, `sscanf`, the conversions of texts, and the functions with
their declared types. -/
structure ExprEnv extends TextEnv where
  compile : CStr → Bool → Bool → Bool → Except (Nat × String) Nat
  exec : Regexp → Bytes → PcreResult
  scanInt : CStr → Option Int
  parseInt : CStr → Res Int64
  parseIso : CStr → Option Int64
  parseIp4 : CStr → Res (Octets 4)
  declared : Nat → ValueType
  call : Nat → List EVal → Ctx → Res (EVal × Ctx)

def maxCaptured : Nat := 100

/-- mirrors common/expr.c:2206-2227 (`nx_expr_new_string`). -/
def newString (str : Option CStr) : Res Expr :=
  match str with
  | none => .ok (.value (.defined (.string ⟨[], 128, by decide⟩)) .string)
  | some str => do
    let s ← newStr str.1
    .ok (.value (.defined (.string s)) .string)

/-- mirrors common/expr.c:2231-2244 (`nx_expr_new_undef`). -/
def newUndef : Expr := .value (.undef (some .unknown)) .unknown

def modifier (r : Regexp) (c : UInt8) : Res Regexp :=
  if c = 103 then .ok { r with global := true }
  else if c = 115 then .ok { r with dotall := true }
  else if c = 109 then .ok { r with multiline := true }
  else if c = 105 then .ok { r with caseless := true }
  else Res.throw ("regular expression modifier is invalid: " ++ String.singleton (Char.ofNat c.toNat))

variable (env : ExprEnv)

/-- mirrors common/expr.c:2248-2379 (`nx_expr_new_regexp`). -/
def newRegexp (str : CStr) (replacement : Option CStr) (modifiers : Bytes) : Res Expr := do
  let r ← run modifier ⟨str.1, replacement, false, false, false, false, 0⟩ modifiers
  match env.compile str r.dotall r.multiline r.caseless with
  | .error (offset, message) =>
    Res.throw ("failed to compile regular expression '" ++ cText str.1 ++ "', error at position " ++
      toString offset ++
      ": " ++ message)
  | .ok groups =>
    if maxCaptured ≤ groups then Res.throw "maximum number of captured substrings is limited to 100"
    else .ok (.value (.defined (.regexp { r with groups })) .regexp)

/-- mirrors common/expr.c:2383-2397 (`nx_expr_new_field`). -/
def newField (str : CStr) : Expr := .field str

/-- mirrors common/expr.c:2401-2422 (`nx_expr_new_captured`). -/
def newCaptured (str : CStr) : Res Expr :=
  match env.scanInt str with
  | none => Res.throw ("couldn't parse integer: " ++ cText str.1)
  | some val => .ok (.captured val)

/-- mirrors common/expr.c:2426-2440 (`nx_expr_new_boolean`). -/
def newBoolean (value : CBool) : Expr := .value (.defined (.boolean value)) .boolean

/-- mirrors common/expr.c:2444-2461 (`nx_expr_new_integer`). -/
def newInteger (str : CStr) : Res Expr := do
  let value ← env.parseInt str
  .ok (.value (.defined (.integer value)) .integer)

/-- mirrors common/expr.c:2465-2481 (`nx_expr_new_datetime`). -/
def newDatetime (str : CStr) : Res Expr :=
  match env.parseIso str with
  | none => Res.throw ("couldn't parse date: " ++ cText str.1)
  | some t => .ok (.value (.defined (.datetime t)) .datetime)

/-- mirrors common/expr.c:2485-2498 (`nx_expr_new_ip4addr`). -/
def newIp4addr (str : CStr) : Res Expr := do
  let a ← env.parseIp4 str
  .ok (.value (.defined (.ip4addr a)) .ip4addr)

def BinOp.symbol : BinOp → String
  | .regmatch => " =~ "
  | .notregmatch => " !~ "
  | .equal => " == "
  | .notequal => " != "
  | .less => " < "
  | .le => " <= "
  | .greater => " > "
  | .ge => " >= "
  | .and => " AND "
  | .or => " OR "
  | .plus => " + "
  | .minus => " - "
  | .mul => " * "
  | .div => " / "
  | .mod => " % "

/-- An operation on types that do not go together. -/
def invalid {α : Type} (what symbol : String) (left right : ValueType) : Res α := do
  let l ← valueTypeToString left
  let r ← valueTypeToString right
  Res.throw (what ++ l ++ symbol ++ r)

/-- A binary operator for operands of known types: the type of the result, if the types go
together. -/
def BinOp.typed : BinOp → ValueType → ValueType → Option ValueType
  | .regmatch, .regexp, .string => some .boolean
  | .regmatch, .string, .regexp => some .boolean
  | .regmatch, _, _ => none
  | .notregmatch, .regexp, .string => some .boolean
  | .notregmatch, .string, .regexp => some .boolean
  | .notregmatch, _, _ => none
  | .equal, l, r => if l = r then some .boolean else none
  | .notequal, l, r => if l = r then some .boolean else none
  | .less, .integer, .integer => some .boolean
  | .less, .datetime, .datetime => some .boolean
  | .less, _, _ => none
  | .le, .integer, .integer => some .boolean
  | .le, .datetime, .datetime => some .boolean
  | .le, _, _ => none
  | .greater, .integer, .integer => some .boolean
  | .greater, .datetime, .datetime => some .boolean
  | .greater, _, _ => none
  | .ge, .integer, .integer => some .boolean
  | .ge, .datetime, .datetime => some .boolean
  | .ge, _, _ => none
  | .and, .boolean, .boolean => some .boolean
  | .and, _, _ => none
  | .or, .boolean, .boolean => some .boolean
  | .or, _, _ => none
  | .plus, .integer, .integer => some .integer
  | .plus, .datetime, .integer => some .datetime
  | .plus, .datetime, .datetime => some .integer
  | .plus, .string, _ => some .string
  | .plus, _, .string => some .string
  | .plus, _, _ => none
  | .minus, .integer, .integer => some .integer
  | .minus, .datetime, .integer => some .datetime
  | .minus, .datetime, .datetime => some .integer
  | .minus, _, _ => none
  | .mul, .integer, .integer => some .integer
  | .mul, _, _ => none
  | .div, .integer, .integer => some .integer
  | .div, _, _ => none
  | .mod, .integer, .integer => some .integer
  | .mod, _, _ => none

/-- The type of the result where the type of an operand is not known. -/
def BinOp.untyped : BinOp → ValueType
  | .plus | .minus | .mul | .div | .mod => .unknown
  | _ => .boolean

/-- common/expr.c:1700-1710 and 1731-1741: a substitution edits the field on its left. -/
def substitutionOk (left right : Expr) : Res Unit :=
  if right.rettype = .regexp ∧ right.replaces ∧ ¬ left.isField then
    Res.throw "field required for left operand of regexp substitution"
  else if left.rettype = .regexp ∧ left.replaces then
    Res.throw "regexp substitution operand must be the right in regexp substitution"
  else .ok ()

/-- What is checked of the operands themselves. -/
def operandsOk (op : BinOp) (left right : Expr) : Res Unit :=
  if op = .regmatch ∨ op = .notregmatch then substitutionOk left right else .ok ()

def binopType (op : BinOp) (left right : ValueType) : Res ValueType :=
  if left = .unknown ∨ right = .unknown then .ok op.untyped
  else
    match op.typed left right with
    | some t => .ok t
    | none => invalid "invalid binary operation: " op.symbol left right

/-- mirrors common/expr.c:1659-2055 (`nx_expr_new_binop`). -/
def newBinop (op : BinOp) (left right : Expr) : Res Expr := do
  let rettype ← binopType op left.rettype right.rettype
  let _ ← operandsOk op left right
  .ok (.binop op left right rettype)

/-- mirrors common/expr.c:2142-2184 (`nx_expr_new_unop`). The result of a negation is a BOOLEAN here
as well. -/
def newUnop (op : UnOp) (e : Expr) : Res Expr :=
  if op = .defined ∨ e.rettype = .boolean ∨ e.rettype = .unknown then .ok (.unop op e)
  else do
    let t ← valueTypeToString e.rettype
    Res.throw ("invalid unary operation: " ++ (if op = .minus then "-" else "not ") ++ t)

/-- mirrors common/expr.c:2188-2202 (`nx_expr_new_inop`). -/
def newInop (e : Expr) (es : Exprs) : Expr := .inop e es

/-! ## Operators -/

/-- Two values of one type that can be compared. Strings are compared as C strings. -/
def sameDatum : Datum → Datum → Option Bool
  | .string a, .string b => some (decide (cut a.buf = cut b.buf))
  | .integer a, .integer b => some (decide (a = b))
  | .boolean a, .boolean b => some (decide (a = b))
  | .datetime a, .datetime b => some (decide (a = b))
  | .ip4addr a, .ip4addr b => some (decide (a = b))
  | _, _ => none

/-- mirrors common/expr.c:753-841 (`_equal`) and common/expr.c:845-935 (`_notequal`). -/
def equality (symbol : String) (same : Bool) : EVal → EVal → Res EVal
  | .undef _, .undef _ => .ok (truth same)
  | .undef _, .defined _ => .ok (.undef (some .boolean))
  | .defined _, .undef _ => .ok (.undef (some .boolean))
  | .defined a, .defined b =>
    if a.type ≠ b.type then invalid "invalid types in operation: " symbol a.type b.type
    else
      match sameDatum a b with
      | some eq => .ok (truth (eq == same))
      | none => invalid "invalid types in operation: " symbol a.type b.type

/-- mirrors common/expr.c:939-1203 (`_less`, `_le`, `_greater` and `_greater_equal`), for defined
operands. -/
def ordering (symbol : String) (cmp : Int64 → Int64 → Bool) : Datum → Datum → Res EVal
  | .integer a, .integer b => .ok (truth (cmp a b))
  | .datetime a, .datetime b => .ok (truth (cmp a b))
  | a, b => invalid "invalid types in operation: " symbol a.type b.type

def usecPerSec : Int64 := 1000000

/-- A text in front of another, in a string of its own (`nx_string_sprintf`). -/
def joined (l r : Bytes) : Res EVal :=
  if stringLimit < l.length + r.length + 1 then Res.throw "oversized string, limit is 1048576 bytes"
  else .ok (.defined (.string ⟨l ++ r, l.length + r.length + 1, by simp⟩))

/-- `nx_value_to_string` of an operand of `+`. -/
def textOf : Datum → Res Bytes
  | .string s => .ok (cut s.buf).1
  | d => do
    let text ← valueToString env.toTextEnv ⟨TRUE, d.data⟩
    .ok ((text.map Subtype.val).getD [])

def sum : Datum → Datum → Res EVal
  | .integer a, .integer b => .ok (.defined (.integer (a + b)))
  | .datetime a, .integer b => .ok (.defined (.datetime (a + b * usecPerSec)))
  | .integer a, .datetime b => .ok (.defined (.datetime (b + a * usecPerSec)))
  | a, b => invalid "invalid operation: " " + " a.type b.type

/-- mirrors common/expr.c:1317-1438 (`_plus`). -/
def plus : EVal → EVal → Res EVal
  | .defined (.string s), .undef _ => do
    let s ← newStr (cut s.buf).1
    .ok (.defined (.string s))
  | .undef _, .defined (.string s) => do
    let s ← newStr (cut s.buf).1
    .ok (.defined (.string s))
  | .defined a, .defined b =>
    if a.type = .string ∨ b.type = .string then do
      let r ← textOf env b
      let l ← textOf env a
      joined l r
    else sum a b
  | _, _ => .ok (.undef (some .unknown))

/-- mirrors common/expr.c:1442-1499 (`_minus`), for defined operands. -/
def minus : Datum → Datum → Res EVal
  | .integer a, .integer b => .ok (.defined (.integer (a - b)))
  | .datetime a, .datetime b => .ok (.defined (.integer (a - b)))
  | .datetime a, .integer b => .ok (.defined (.datetime (a - b * usecPerSec)))
  | a, b => invalid "invalid operation: " " - " a.type b.type

/-- mirrors common/expr.c:1503-1551 (`_mul`), for defined operands. -/
def mul : Datum → Datum → Res EVal
  | .integer a, .integer b => .ok (.defined (.integer (a * b)))
  | a, b => invalid "invalid operation: " " * " a.type b.type

/-- A division that the processor does: it traps on a quotient that does not exist or is no
`int64_t`. -/
def divides (f : Int64 → Int64 → Int64) (a b : Int64) : Res EVal :=
  if b = 0 ∨ (a = Int64.minValue ∧ b = -1) then Res.fault else .ok (.defined (.integer (f a b)))

/-- mirrors common/expr.c:1555-1603 (`_div`) and common/expr.c:1607-1655 (`_mod`), for defined
operands. -/
def quotient (symbol : String) (f : Int64 → Int64 → Int64) : Datum → Datum → Res EVal
  | .integer a, .integer b => divides f a b
  | a, b => invalid "invalid operation: " symbol a.type b.type

/-! ### Regular expressions -/

/-- `nx_string_create(subject + start, end - start)`. A length below 0 asks for the whole rest. -/
def capture (subject : Bytes) (group : Int × Int) : Res Bytes :=
  if group.1 = group.2 then .ok []
  else if group.1 < 0 ∨ subject.length < group.1 ∨ subject.length < group.2 then Res.fault
  else do
    let rest := subject.drop group.1.toNat
    let s ← newStr (if group.2 < group.1 then rest else rest.take (group.2 - group.1).toNat)
    .ok s.buf

/-- Captured strings, with the offsets of the match. -/
structure Match where
  captured : List Bytes
  start : Int
  stop : Int

def captures (subject : Bytes) : List (Int × Int) → Res (List Bytes)
  | [] => .ok []
  | group :: groups => do
    let c ← capture subject group
    let cs ← captures subject groups
    .ok (c :: cs)

/-- common/expr.c:629-697: `pcre_exec`, and the captured strings. -/
def execMatch (r : Regexp) (subject : Bytes) : Res (Bool × Option Match) :=
  match env.exec r (cut subject).1 with
  | .error fatal => if fatal then .error (.assert "pcre_exec") else .ok (false, none)
  | .matched [] => .ok (true, none)
  | .matched (whole :: groups) => do
    let _ ← Res.assert (decide (groups.length + 1 < maxCaptured)) "result < NX_EXPR_MAX_CAPTURED_FIELDS"
    let cs ← captures (cut subject).1 (whole :: groups)
    .ok (true, some ⟨cs, whole.1, whole.2⟩)

/-- mirrors common/str.c:171-216 (`nx_string_ensure_size`): the size of the buffer. -/
def ensureSize (s : Str) (len : Nat) : Res { n : Nat // len < n } :=
  if len = 0 then .error (.assert "len > 0")
  else if h : len < s.bufsize then .ok ⟨s.bufsize, h⟩
  else if stringLimit < len then Res.throw "string limit (1048576 bytes) reached"
  else .ok ⟨s.bufsize + len, Nat.lt_add_of_pos_left (Nat.zero_lt_of_lt s.fits)⟩

/-- A text with the part from `start` to `stop` replaced is no longer than both together. -/
theorem replaced_length {buf replacement : Bytes} {start stop : Int} (h : start ≤ stop) :
    (buf.take start.toNat ++ replacement ++ buf.drop stop.toNat).length ≤ buf.length + replacement.length := by
  simp only [List.length_append, List.length_take, List.length_drop]
  omega

/-- common/expr.c:699-715: the match is replaced in place. -/
def replaceIn (s : Str) (replacement : Bytes) (start stop : Int) : Res Str :=
  if h : start ≤ stop then do
    let bufsize ← ensureSize s (s.buf.length + (stop - start).toNat + replacement.length)
    if start < 0 ∨ s.buf.length < stop then Res.fault
    else .ok ⟨s.buf.take start.toNat ++ replacement ++ s.buf.drop stop.toNat, bufsize.1,
      Nat.lt_of_le_of_lt (Nat.le_trans (replaced_length h) (by omega)) bufsize.2⟩
  else .error (.assert "ovector[1] >= ovector[0]")

/-- Replacements after which the code takes the loop to be endless. -/
def maxReplacements : Nat := 10001

/-- common/expr.c:628-731, the loop of a substitution: whether anything matched, what was captured
last, and the string. -/
def substitute (env : ExprEnv) (r : Regexp) (replacement : Bytes) :
    Nat → Bool → List Bytes → Str → Res (Bool × List Bytes × Str)
  | 0, _, _, _ => Res.throw "likely infinite loop detected in regexp substitution"
  | n + 1, found, captured, s => do
    let (b, m) ← execMatch env r s.buf
    match m with
    | none => .ok (found || b, captured, s)
    | some m => do
      let s ← replaceIn s replacement m.start m.stop
      if r.global then substitute env r replacement n true m.captured s else .ok (true, m.captured, s)

def missingLogdata : String :=
  "missing logdata, no field available in this context. operation possibly after drop()"

def getFieldValue (fields : List (CStr × EVal)) (name : CStr) : EVal :=
  match fields.find? fun f => decide (strcasecmp f.1 name) with
  | some f => f.2
  | none => .undef (some .unknown)

def putFieldValue (fields : List (CStr × EVal)) (name : CStr) (v : EVal) : List (CStr × EVal) :=
  updateFirst (fun f => decide (strcasecmp f.1 name)) (fun f => (f.1, v)) fields

/-- The name of a field node; `left->field` of any other node is another member of the union. -/
def Expr.fieldName : Expr → Res CStr
  | .field name => .ok name
  | _ => .error (.assert "left->type == NX_EXPR_TYPE_FIELD")

/-- common/expr.c:607-623: the field that a substitution edits. -/
def substituted (left right : Expr) (ctx : Ctx) : Res (List (CStr × EVal) × CStr × Str) := do
  let _ ← Res.assert (decide (right.rettype = .regexp)) "right->rettype == NX_VALUE_TYPE_REGEXP"
  let name ← left.fieldName
  match ctx.logdata with
  | none => Res.throw missingLogdata
  | some fields =>
    match getFieldValue fields name with
    | .defined (.string s) => .ok (fields, name, s)
    | .undef (some .string) => .error (.assert "fieldval.defined == TRUE")
    | _ => .error (.assert "fieldval.type == NX_VALUE_TYPE_STRING")

def matchString (left right : Expr) (s : Str) (r : Regexp) (ctx : Ctx) : Res (EVal × Ctx) :=
  match r.replacement with
  | none => do
    let (b, m) ← execMatch env r s.buf
    .ok (truth b, { ctx with captured := (m.map Match.captured).getD ctx.captured })
  | some replacement => do
    let (fields, name, s) ← substituted left right ctx
    let (b, captured, s) ← substitute env r replacement.1 maxReplacements false ctx.captured s
    .ok (truth b, ⟨some (putFieldValue fields name (.defined (.string s))), captured⟩)

/-- mirrors common/expr.c:519-735 (`_regmatch`), for defined operands. -/
def regmatch (left right : Expr) : Datum → Datum → Ctx → Res (EVal × Ctx)
  | .string s, .regexp r, ctx => matchString env left right s r ctx
  | .string _, _, _ => .error (.assert "rval.type == NX_VALUE_TYPE_REGEXP")
  | .regexp r, .string s, ctx => matchString env left right s r ctx
  | _, .string _, _ => .error (.assert "lval.type == NX_VALUE_TYPE_REGEXP")
  | a, b, _ => invalid "invalid types in operation: " " =~ " a.type b.type

def negated : EVal → EVal
  | .defined (.boolean b) => truth (decide (b = FALSE))
  | v => v

/-! ### Operands -/

abbrev Operand := Ctx → Res (EVal × Ctx)

def both (left right : Operand) (f : EVal → EVal → Res EVal) : Operand := fun ctx => do
  let (l, ctx) ← left ctx
  let (r, ctx) ← right ctx
  let v ← f l r
  .ok (v, ctx)

/-- An undefined operand makes the result undefined, with the type that was set until then. -/
def strict (type : Option ValueType) (left right : Operand)
    (f : Datum → Datum → Ctx → Res (EVal × Ctx)) : Operand :=
  fun ctx => do
    let (l, ctx) ← left ctx
    match l with
    | .undef _ => .ok (.undef type, ctx)
    | .defined a => do
      let (r, ctx) ← right ctx
      match r with
      | .undef _ => .ok (.undef type, ctx)
      | .defined b => f a b ctx

def pureOp (f : Datum → Datum → Res EVal) (a b : Datum) (ctx : Ctx) : Res (EVal × Ctx) := do
  let v ← f a b
  .ok (v, ctx)

def andRight (a : Datum) : EVal → Res EVal
  | .undef _ => .ok (.undef (some .boolean))
  | .defined b =>
    match a, b with
    | .boolean x, .boolean y => .ok (truth (decide (x ≠ 0 ∧ y ≠ 0)))
    | a, b => invalid "invalid types in operation: " " and " a.type b.type

/-- mirrors common/expr.c:1207-1257 (`_and`). -/
def andOp (left right : Operand) : Operand := fun ctx => do
  let (l, ctx) ← left ctx
  match l with
  | .undef _ => .ok (.undef (some .boolean), ctx)
  | .defined a =>
    if a = .boolean FALSE then .ok (truth false, ctx)
    else do
      let (r, ctx) ← right ctx
      let v ← andRight a r
      .ok (v, ctx)

/-- The first operand of `or`: whether it decides. Its type is looked at first. -/
def orLeft (l : EVal) : Res Bool := do
  let t ← l.type
  if t ≠ .boolean then do
    let text ← valueTypeToString t
    Res.throw ("boolean type expected for left value in and operation, found " ++ text)
  else .ok (decide (l = .defined (.boolean TRUE)))

def orRight (r : EVal) : Res EVal := do
  let t ← r.type
  if t ≠ .boolean then invalid "invalid types in operation: " " or " .boolean t
  else
    match r with
    | .undef _ => .ok (.undef (some .boolean))
    | .defined _ => .ok r

/-- mirrors common/expr.c:1261-1313 (`_or`). -/
def orOp (left right : Operand) : Operand := fun ctx => do
  let (l, ctx) ← left ctx
  let decides ← orLeft l
  if decides then .ok (truth true, ctx)
  else do
    let (r, ctx) ← right ctx
    let v ← orRight r
    .ok (v, ctx)

/-- `binop.cb`. A match forgets what was captured before. -/
def applyBinop (op : BinOp) (left right : Expr) (l r : Operand) : Operand :=
  match op with
  | .regmatch => fun ctx => strict (some .boolean) l r (regmatch env left right) { ctx with captured := [] }
  | .notregmatch => fun ctx => do
    let (v, ctx) ← strict (some .boolean) l r (regmatch env left right) { ctx with captured := [] }
    .ok (negated v, ctx)
  | .equal => both l r (equality " == " true)
  | .notequal => both l r (equality " != " false)
  | .less => strict (some .boolean) l r (pureOp (ordering " < " fun a b => decide (a < b)))
  | .le => strict (some .boolean) l r (pureOp (ordering " <= " fun a b => decide (a ≤ b)))
  | .greater => strict (some .boolean) l r (pureOp (ordering " > " fun a b => decide (b < a)))
  | .ge => strict (some .boolean) l r (pureOp (ordering " >= " fun a b => decide (b ≤ a)))
  | .and => andOp l r
  | .or => orOp l r
  | .plus => both l r (plus env)
  | .minus => strict none l r (pureOp minus)
  | .mul => strict none l r (pureOp mul)
  | .div => strict none l r (pureOp (quotient " / " (· / ·)))
  | .mod => strict none l r (pureOp (quotient " % " (· % ·)))

/-- mirrors common/expr.c:2059-2087 (`_neg`). It returns the operand, and looks at its type
first. -/
def neg (v : EVal) : Res EVal := do
  let t ← v.type
  if t ≠ .integer then do
    let text ← valueTypeToString t
    Res.throw ("integer type expected for unary negation operation, found " ++ text)
  else
    match v with
    | .undef _ => .ok (.undef (some .integer))
    | .defined _ => .ok v

/-- `unop.cb`, with common/expr.c:2091-2138 (`_not` and `_defined`). -/
def applyUnop : UnOp → EVal → Res EVal
  | .minus, v => neg v
  | .not, .undef _ => .ok (.undef (some .boolean))
  | .not, .defined (.boolean b) => .ok (truth (decide (b = FALSE)))
  | .not, .defined _ => Res.throw "boolean value required for 'not'"
  | .defined, .undef _ => .ok (truth false)
  | .defined, .defined _ => .ok (truth true)

/-- mirrors common/value.c:832-909 (`nx_value_eq`), for a defined first value
(`valueEq_data`). -/
def valueEq : Datum → EVal → Bool
  | _, .undef _ => false
  | .regexp a, .defined (.regexp b) => decide (cut a.str = cut b.str)
  | .ip6addr a, .defined (.ip6addr b) => decide (a = b)
  | .binary a, .defined (.binary b) => decide (a = b)
  | a, .defined b => (sameDatum a b).getD false

/-! ## Evaluation -/

def captured (n : Int) (ctx : Ctx) : Res EVal := do
  let _ ← Res.assert (decide (0 ≤ n)) "expr->captured >= 0"
  match ctx.captured[n.toNat]? with
  | none => .ok (.undef (some .string))
  | some text => do
    let s ← cloneStr (.exact text)
    .ok (.defined (.string s))

def fieldValue (name : CStr) (ctx : Ctx) : Res EVal :=
  match ctx.logdata with
  | none => Res.throw missingLogdata
  | some fields => clone (getFieldValue fields name)

mutual

/-- mirrors common/expr.c:408-515 (`nx_expr_evaluate`). -/
def evaluate (env : ExprEnv) : Expr → Ctx → Res (EVal × Ctx)
  | .value v _, ctx => do
    let v ← clone v
    .ok (v, ctx)
  | .field name, ctx => do
    let v ← fieldValue name ctx
    .ok (v, ctx)
  | .captured n, ctx => do
    let v ← captured n ctx
    .ok (v, ctx)
  | .unop op e, ctx => do
    let (v, ctx) ← evaluate env e ctx
    let v ← applyUnop op v
    .ok (v, ctx)
  | .binop op left right _, ctx => applyBinop env op left right (evaluate env left) (evaluate env right) ctx
  | .inop e es, ctx => do
    let (v, ctx) ← evaluate env e ctx
    match v with
    | .undef _ => .ok (.undef (some .boolean), ctx)
    | .defined d => do
      let (b, ctx) ← evaluateIn env d es ctx
      .ok (truth b, ctx)
  | .function fn args _, ctx => do
    let (values, ctx) ← evaluateArgs env args ctx
    env.call fn values ctx

/-- mirrors common/expr.c:329-404 (`_inop`): the elements up to the first that is equal. -/
def evaluateIn (env : ExprEnv) (d : Datum) : Exprs → Ctx → Res (Bool × Ctx)
  | .nil, ctx => .ok (false, ctx)
  | .cons e es, ctx => do
    let (v, ctx) ← evaluate env e ctx
    if valueEq d v then .ok (true, ctx) else evaluateIn env d es ctx

/-- The arguments of a function (common/expr.c:237-290, `nx_expr_eval_func`). -/
def evaluateArgs (env : ExprEnv) : Exprs → Ctx → Res (List EVal × Ctx)
  | .nil, ctx => .ok ([], ctx)
  | .cons e es, ctx => do
    let (v, ctx) ← evaluate env e ctx
    let (vs, ctx) ← evaluateArgs env es ctx
    .ok (v :: vs, ctx)

end

/-- Literals are read as decimal numbers, no pattern compiles, and there are no functions. -/
def decimalEnv : ExprEnv where
  dateToIso _ := Res.throw "no date"
  ip6ToText _ := Res.throw "no address"
  compile _ _ _ _ := .error (0, "no pattern")
  exec _ _ := .error false
  scanInt str := some (str.1.foldl (fun n c => 10 * n + (c.toNat - 48)) 0)
  parseInt str := .ok (Int64.ofInt (str.1.foldl (fun n c => 10 * n + (c.toNat - 48)) 0))
  parseIso _ := none
  parseIp4 _ := Res.throw "no address"
  declared _ := .unknown
  call _ _ _ := Res.throw "no function"

end Nxlog.L4.Eval
