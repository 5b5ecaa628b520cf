import Nxlog.L3Protocol.Date

/-!
# Syslog (`modules/extension/syslog/syslog.c`)

The two formats of syslog, RFC 3164 and RFC 5424: the writers, which build the text
in the string of `raw_event` from the other fields of the record, and the parsers,
which set fields while they read.

A pointer into the text is the list of the bytes from it to the end, as for dates. A
parser runs over any kind of record (`Access`): besides setting fields it looks one
up, for the name of a host it was not given.

* `parseSyslogPriority`, `syslogParseRfc3164`, `syslogParseRfc5424`: the parsers.
* `syslogParseSdParams`, `syslogParseStructuredData`: structured data. The loops end
  at the NUL, so as many rounds as there are bytes are enough.
* `logdataToSyslogRfc3164`, `logdataToSyslogRfc5424`: the writers.
-/
namespace Nxlog.L3
open L1 L2

/-! ## Names of facilities, severities and log levels -/

/-- `syslog_facilities` (syslog.c:16-43). -/
def syslogFacilities : List (Nat × String) :=
  [(1, "USER"), (5, "SYSLOG"), (3, "DAEMON"), (0, "KERN"), (2, "MAIL"), (4, "AUTH"), (6, "LPR"),
   (7, "NEWS"), (8, "UCP"), (9, "CRON"), (10, "AUTHPRIV"), (11, "FTP"), (12, "NTP"), (13, "AUDIT"),
   (14, "FACALERT"), (15, "CRON2"), (16, "LOCAL0"), (17, "LOCAL1"), (18, "LOCAL2"), (19, "LOCAL3"),
   (20, "LOCAL4"), (21, "LOCAL5"),
   (22, "LOCAL6"), (23, "LOCAL7")]

/-- `syslog_severities` (syslog.c:47-64). -/
def syslogSeverities : List (Nat × String) :=
  [(6, "INFO"), (3, "ERR"), (3, "ERROR"), (5, "NOTICE"), (1, "ALERT"), (2, "CRIT"), (2, "CRITICAL"),
    (7, "DEBUG"),
   (0, "EMERG"), (0, "EMERGENT"), (0, "PANIC"), (8, "NONE"), (4, "WARNING"), (4, "WARN")]

/-- `nx_loglevel_t`. -/
inductive Loglevel where
  | debug | info | warning | error | critical
  deriving DecidableEq

def Loglevel.value : Loglevel → Nat
  | .debug => 1
  | .info => 2
  | .warning => 3
  | .error => 4
  | .critical => 5

/-- mirrors common/error_debug.c:78-97 (`nx_loglevel_to_string`). -/
def loglevelToString : Loglevel → String
  | .debug => "DEBUG"
  | .info => "INFO"
  | .warning => "WARNING"
  | .error => "ERROR"
  | .critical => "CRITICAL"

/-- `loglevels` (common/error_debug.c:30-38). -/
def loglevels : List (Nat × String) :=
  [Loglevel.debug, .info, .warning, .error, .critical].map fun l => (l.value, loglevelToString l)

/-- The first value with the name, or 0 (`nx_syslog_facility_from_string`,
`nx_syslog_severity_from_string`, `nx_loglevel_from_string`). -/
def fromString (table : List (Nat × String)) (str : CStr) : Nat :=
  ((table.find? fun e => strcasecmp (lit e.2) str).map Prod.fst).getD 0

/-- The first name of the value, or `NULL` (`nx_syslog_facility_to_string`,
`nx_syslog_severity_to_string`). -/
def toName (table : List (Nat × String)) (value : Nat) : Option String :=
  (table.find? fun e => e.1 = value).map Prod.snd

/-! ## Setting fields -/

structure Access (σ : Type) where
  set : Setter σ
  get : σ → CStr → Option NxValue

/-- What the functions depend on besides the record. -/
structure SyslogEnv where
  date : DateEnv
  hostname : Bytes
  text : TextEnv

def intValue (n : Nat) : NxValue := ⟨TRUE, .integer (Int64.ofNat n)⟩

def dateValue (t : Int64) : NxValue := ⟨TRUE, .datetime t⟩

/-- mirrors common/value.c:189-202 (`nx_value_new_string`). -/
def newString : Option String → Res NxValue
  | none => .error (.assert "str != NULL")
  | some str => .ok (strValue (ascii str))

/-- The bytes from one pointer to another, if both are there and there are any. -/
def slice (start stop : Option Bytes) : Option Bytes :=
  match start, stop with
  | some p, some q => if q.length < p.length then some (p.take (p.length - q.length)) else none
  | _, _ => none

section Parser

variable {σ : Type} (acc : Access σ) (env : SyslogEnv)

variable (s : σ)

def setText (key : CStr) (text : Bytes) : Res σ := do
  let str ← stringCreate 0 (text ++ [0]) (cInt text.length)
  acc.set s key ⟨TRUE, .string (some str)⟩

/-- `set_syslog_appname`, `set_syslog_procid` and `set_syslog_msgid` differ in the name. -/
def setSlice (key : CStr) (s : σ) (start stop : Option Bytes) : Res σ :=
  match slice start stop with
  | none => .ok s
  | some text => setText acc s key text

/-- mirrors syslog.c:301-318. -/
def setSyslogAppname : σ → Option Bytes → Option Bytes → Res σ := setSlice acc (lit "SourceName")

/-- mirrors syslog.c:337-354. -/
def setSyslogProcid : σ → Option Bytes → Option Bytes → Res σ := setSlice acc (lit "ProcessID")

/-- mirrors syslog.c:358-375. -/
def setSyslogMsgid : σ → Option Bytes → Option Bytes → Res σ := setSlice acc (lit "MessageID")

/-- mirrors syslog.c:132-170 (`set_syslog_hostname`). -/
def setSyslogHostname (start stop : Option Bytes) : Res σ :=
  match slice start stop with
  | some text => setText acc s (lit "Hostname") text
  | none =>
    match acc.get s (lit "MessageSourceAddress") with
    | none => do
      let str ← stringClone 0 ⟨0, env.hostname⟩
      acc.set s (lit "Hostname") ⟨TRUE, .string (some str)⟩
    | some recv_from => do
      let v ← valueClone 0 recv_from
      acc.set s (lit "Hostname") v

/-- mirrors syslog.c:322-333 (`set_syslog_timestamp`); `nx_logdata_set_datetime` does the
same. -/
def setSyslogTimestamp (date : Int64) : Res σ := acc.set s (lit "EventTime") (dateValue date)

/-- mirrors syslog.c:379-404 (`set_syslog_message`). -/
def setSyslogMessage (start stop : Option Bytes) : Res σ :=
  match slice start stop with
  | none => .ok s
  | some text =>
    if text.getLast? = some 10 then
      if text.length = 1 then .ok s else setText acc s (lit "Message") text.dropLast
    else setText acc s (lit "Message") text

/-! ## The priority -/

/-- The digits of a priority; `n` bytes stand in front of them. Too many are an error. -/
def priorityDigits (n priority : Nat) : Bytes → Option (Nat × Bytes)
  | [] => some (priority, [])
  | c :: p =>
    if isDigit c then
      if 6 < n then none else priorityDigits (n + 1) (priority * 10 + (c.toNat - 48)) p
    else some (priority, c :: p)

/-- Facility and severity, what `*retval` is set to, and the pointer returned. -/
structure Pri where
  fac : Nat
  sev : Nat
  retval : Bool
  ptr : Bytes

variable (string : Bytes)

/-- syslog.c:189-240: a number that is no priority is read over, all the same. -/
def readPriority : Pri :=
  if ch string 0 = 60 then
    match priorityDigits 1 0 string.tail with
    | none => ⟨1, 5, false, string⟩
    | some (priority, p) =>
      if ch p 0 = 62 then
        let p := if ch p 1 = 32 then p.drop 2 else p.tail
        if 23 < priority / 8 then ⟨1, 5, true, p⟩ else ⟨priority / 8, priority % 8, true, p⟩
      else ⟨1, 5, true, p⟩
  else ⟨1, 5, false, string⟩

/-- syslog.c:259-291. -/
def normalizeSeverity : Nat → Loglevel
  | 6 => .info
  | 3 => .error
  | 5 => .info
  | 1 => .warning
  | 2 => .critical
  | 7 => .debug
  | 0 => .error
  | 8 => .info
  | 4 => .warning
  | _ => .info

/-- mirrors syslog.c:174-297 (`parse_syslog_priority`). -/
def parseSyslogPriority : Res (σ × Pri) := do
  let pri := readPriority string
  let s ← acc.set s (lit "SyslogFacilityValue") (intValue pri.fac)
  let facility ← newString (toName syslogFacilities pri.fac)
  let s ← acc.set s (lit "SyslogFacility") facility
  let s ← acc.set s (lit "SyslogSeverityValue") (intValue pri.sev)
  let severity ← newString (toName syslogSeverities pri.sev)
  let s ← acc.set s (lit "SyslogSeverity") severity
  let loglevel := normalizeSeverity pri.sev
  let s ← acc.set s (lit "SeverityValue") (intValue loglevel.value)
  let s ← acc.set s (lit "Severity") (strValue (ascii (loglevelToString loglevel)))
  return (s, pri)

/-! ## RFC 3164 -/

/-- `IS_HOSTCHAR` and `IS_TAGCHAR`, which are the same. -/
def isHostchar (c : UInt8) : Bool :=
  isDigit c ∨ isLower c ∨ isUpper c ∨ c = 46 ∨ c = 95 ∨ c = 45 ∨ c = 47

def skipSpace (p : Bytes) : Bytes := p.dropWhile (decide <| · = 32)

def skipOneSpace (p : Bytes) : Bytes := if ch p 0 = 32 then p.tail else p

/-- The pointers of `nx_syslog_parse_rfc3164`; `none` is `NULL`. -/
structure Bsd where
  ptr : Bytes
  hoststart : Option Bytes
  hostend : Option Bytes
  appstart : Option Bytes
  append : Option Bytes
  pidstart : Option Bytes
  pidend : Option Bytes
  msgstart : Option Bytes

/-- syslog.c:441-445: no date. -/
def bsdUndated (msgstart ptr : Bytes) : Bsd :=
  let q := ptr.dropWhile isHostchar
  ⟨q, none, none, some ptr, some q, none, none, some msgstart⟩

/-- syslog.c:447-490: the host and the tag behind a date. -/
def bsdHost (ptr : Bytes) : Bsd :=
  let p := skipSpace ptr
  let q := p.dropWhile isHostchar
  if isHostchar (ch p 0) = false then ⟨q, none, none, none, none, none, none, some p⟩
  else if ch q 0 = 0 then ⟨q, some p, some q, none, none, none, none, none⟩
  else if ch q 0 = 91 then ⟨q, none, none, some p, none, none, none, some p⟩
  else if ch q 0 ≠ 32 ∧ ch q 0 ≠ 58 then ⟨q, none, none, none, none, none, none, some p⟩
  else if ch q 0 = 58 then ⟨q, none, none, some p, some q, none, none, some q⟩
  else
    let app := skipSpace q
    let r := app.dropWhile isHostchar
    ⟨r, some p, some q, some app, none, none, none, some r⟩

/-- syslog.c:502-544: a process ID behind the tag `app`. -/
def bsdPid (b : Bsd) (app : Bytes) : Bsd :=
  let pid := b.ptr.tail
  let q := pid.dropWhile fun c => c ≠ 0 ∧ c ≠ 93 ∧ c ≠ 32
  let r := if ch q 0 = 93 then q.tail else q
  let closed := ch q 0 = 93 ∧ ch r 0 = 58
  let r := skipOneSpace (if ch r 0 = 58 then r.tail else r)
  if closed then
    { b with ptr := r, append := some b.ptr, pidstart := some pid, pidend := some q, msgstart := some r }
  else
    { b with ptr := r, appstart := none, append := none, pidstart := some pid, pidend := none, msgstart := some app }

/-- syslog.c:492-571. The condition in front of it sets `got_pri`, so it is true. -/
def bsdTag (b : Bsd) : Bsd :=
  match b.appstart with
  | none => b
  | some app =>
    if ch app 0 = 91 then { b with appstart := none }
    else if ch b.ptr 0 = 91 then bsdPid b app
    else if ch b.ptr 0 = 58 then
      let q := skipOneSpace b.ptr.tail
      { b with ptr := q, append := some b.ptr, msgstart := some q }
    else { b with msgstart := some app, appstart := none }

def bsdTimestamp : Option Int64 → Res σ
  | none => .ok s
  | some date => do
    let date ← dateFixYear env.date date
    setSyslogTimestamp acc s date

/-- syslog.c:573-583: the fields behind the priority. -/
def bsdFields (b : Bsd) (date : Option Int64) (msgend : Bytes) : Res σ := do
  let s ← setSyslogHostname acc env s b.hoststart b.hostend
  let s ← bsdTimestamp acc env s date
  let s ← setSyslogAppname acc s b.appstart b.append
  let s ← setSyslogProcid acc s b.pidstart b.pidend
  setSyslogMessage acc s b.msgstart (some msgend)

def endOf (stringlen : Nat) : Res Bytes := do
  let len ← textLen (string ++ [0]) stringlen
  match advance string len with
  | none => Res.fault
  | some msgend => .ok msgend

/-- mirrors syslog.c:412-584 (`nx_syslog_parse_rfc3164`). -/
def syslogParseRfc3164 (stringlen : Nat) : Res (σ × Bool) := do
  let msgend ← endOf string stringlen
  let (s, pri) ← parseSyslogPriority acc s string
  let parsed ← dateParse env.date pri.ptr (some pri.ptr)
  match parsed.time, parsed.dateend with
  | _, none => Res.fault
  | none, some ptr => do
    let s ← setSyslogTimestamp acc s env.date.now
    let s ← bsdFields acc env s (bsdTag (bsdUndated pri.ptr ptr)) none msgend
    return (s, pri.retval)
  | some date, some ptr => do
    let s ← bsdFields acc env s (bsdTag (bsdHost ptr)) (some date) msgend
    return (s, pri.retval)

/-! ## Structured data -/

/-- The name of a parameter, from place `i` of the buffer on, and the text behind it. -/
def paramName (i : Nat) : Bytes → Bytes × Bytes
  | [] => ([], [])
  | c :: p =>
    if 79 ≤ i ∨ c = 0 ∨ c = 61 ∨ c = 32 ∨ c = 34 ∨ c = 93 then ([], c :: p)
    else
      let (name, rest) := paramName (i + 1) p
      ((if isHostchar c then c else 95) :: name, rest)

/-- The value of a parameter and the text from the closing quote on; `none` without one, and
for a value of 64K. -/
def paramValue (value : Bytes) : Bytes → Option (Bytes × Bytes)
  | [] => none
  | [c] => if c = 34 then some (value, [34]) else none
  | c :: d :: p =>
    if c = 0 then none
    else if c = 92 then
      -- a backslash in front of anything else is dropped
      if d = 92 ∨ d = 34 ∨ d = 93 then
        if 65536 ≤ (value ++ [d]).length then none else paramValue (value ++ [d]) p
      else if 65536 ≤ value.length then none else paramValue value (d :: p)
    else if c = 34 then some (value, c :: d :: p)
    else if 65536 ≤ (value ++ [c]).length then none else paramValue (value ++ [c]) (d :: p)

/-- mirrors syslog.c:787-890 (`syslog_parse_sd_params`); `sd` is what the names start
with, and the pointer returned is `none` for `NULL`. -/
def syslogParseSdParams (sd : Bytes) : Nat → σ → Bytes → Res (σ × Option Bytes)
  | 0, _, _ => Res.hang
  | fuel + 1, s, ptr =>
    if ch ptr 0 = 0 then .ok (s, some ptr)
    else
      let p := skipSpace ptr
      if ch p 0 = 93 then .ok (s, some p)
      else
        let (name, p) := paramName sd.length p
        if ch p 0 = 61 ∧ ch p 1 = 34 then
          match paramValue [] (p.drop 2) with
          | none => .ok (s, none)
          | some (value, p) => do
            let s ← acc.set s (cut (sd ++ name)) (strValue value)
            syslogParseSdParams sd fuel s p.tail
        else .ok (s, none)

/-- The name of an element: what is in the buffer, the length taken from it, and the text
behind it. An at mark ends the length and is a NUL in the buffer. -/
def sdName (buf : Bytes) (len : Nat) : Bytes → Bytes × Nat × Bytes
  | [] => (buf, len, [])
  | c :: p =>
    if 39 ≤ buf.length ∨ c = 0 then (buf, len, c :: p)
    else if c = 61 ∨ c = 32 ∨ c = 34 ∨ c = 93 then (buf, if len = 0 then buf.length else len, c :: p)
    else if c = 64 then sdName (buf ++ [0]) buf.length p
    else sdName (buf ++ [if isHostchar c then c else 95]) len p

/-- mirrors syslog.c:894-966 (`syslog_parse_structured_data`). -/
def syslogParseStructuredData (string : Bytes) : Nat → σ → Bytes → Res (σ × Bytes)
  | 0, _, _ => Res.hang
  | fuel + 1, s, ptr =>
    if ch ptr 0 = 0 then .ok (s, ptr)
    else
      let p := skipSpace ptr
      if ch p 0 ≠ 91 then .ok (s, p)
      else
        let (buf, len, p) := sdName [] 0 (skipSpace p.tail)
        if ch p 0 = 0 then .ok (s, string)
        else
          let sd := if cut buf = lit "NXLOG" ∨ len = 0 then [] else buf.take len ++ [46]
          do
            let (s, q) ← syslogParseSdParams acc sd (p.length + 1) s p.tail
            match q with
            | none => .ok (s, string)
            | some q =>
              let q := skipSpace q
              if ch q 0 = 93 then syslogParseStructuredData string fuel s q.tail else .ok (s, string)

/-! ## RFC 5424 -/

def isNilvalue (p : Bytes) : Prop := ch p 0 = 45 ∧ (ch p 1 = 32 ∨ ch p 1 = 0)

instance (p : Bytes) : Decidable (isNilvalue p) := inferInstanceAs (Decidable (_ ∧ _))

def afterWord (p : Bytes) : Bytes := p.dropWhile fun c => c ≠ 32 ∧ c ≠ 0

/-- A field of the header and the spaces behind it. -/
def headerField (nil : σ → Res σ) (set : σ → Option Bytes → Option Bytes → Res σ) (s : σ)
    (ptr : Bytes) : Res (σ × Bytes) :=
  if isNilvalue ptr then do
    let s ← nil s
    return (s, skipSpace ptr.tail)
  else do
    let s ← set s (some ptr) (some (afterWord ptr))
    return (s, skipSpace (afterWord ptr))

/-- syslog.c:1081-1089: the structured data. -/
def ietfSd (ptr : Bytes) : Res (σ × Bytes) :=
  if isNilvalue ptr then .ok (s, ptr.tail) else syslogParseStructuredData acc ptr (ptr.length + 1) s ptr

def hasBom (ptr : Bytes) : Prop := ch ptr 0 = 0xEF ∧ ch ptr 1 = 0xBB ∧ ch ptr 2 = 0xBF

instance (ptr : Bytes) : Decidable (hasBom ptr) := inferInstanceAs (Decidable (_ ∧ _))

/-- syslog.c:1094-1097: the byte order mark. -/
def skipBom (ptr : Bytes) : Bytes := if hasBom ptr then ptr.drop 3 else ptr

/-- syslog.c:1081-1099: the structured data and the message. -/
def ietfBody (ptr msgend : Bytes) : Res σ := do
  let (s, ptr) ← ietfSd acc s ptr
  setSyslogMessage acc s (some (skipBom (skipOneSpace ptr))) (some msgend)

/-- syslog.c:1024-1099: what follows the time. -/
def ietfFields (ptr msgend : Bytes) : Res σ := do
  let (s, ptr) ← headerField (fun s => setSyslogHostname acc env s none none) (setSyslogHostname acc env) s ptr
  let (s, ptr) ← headerField .ok (setSyslogAppname acc) s ptr
  let (s, ptr) ← headerField .ok (setSyslogProcid acc) s ptr
  let (s, ptr) ← headerField .ok (setSyslogMsgid acc) s ptr
  ietfBody acc s ptr msgend

/-- mirrors syslog.c:973-1102 (`nx_syslog_parse_rfc5424`). -/
def syslogParseRfc5424 (stringlen : Nat) : Res (σ × Bool) := do
  let msgend ← endOf string stringlen
  let (s, pri) ← parseSyslogPriority acc s string
  if ch pri.ptr 0 = 49 ∧ ch pri.ptr 1 = 32 then
    let ptr := pri.ptr.drop 2
    if isNilvalue ptr then do
      let s ← setSyslogTimestamp acc s env.date.now
      let s ← ietfFields acc env s (skipSpace ptr.tail) msgend
      return (s, pri.retval)
    else do
      let parsed ← dateParseIso env.date ptr (some ptr)
      match parsed.time, parsed.dateend with
      | some date, some p => do
        let s ← setSyslogTimestamp acc s date
        let s ← ietfFields acc env s (skipSpace p) msgend
        return (s, pri.retval)
      | some _, none => Res.fault
      | none, _ => do
        let s ← setSyslogTimestamp acc s env.date.now
        let s ← setSyslogHostname acc env s none none
        let s ← setSyslogMessage acc s (some ptr) (some msgend)
        return (s, false)
  else syslogParseRfc3164 acc env s string stringlen

end Parser

/-! ## The writers -/

variable (env : SyslogEnv) (ld : Logdata)

def strField (key : CStr) : Res (Option Bytes) :=
  match view ld key with
  | some ⟨defined, .string str⟩ =>
    if defined = TRUE then
      match str with
      | none => Res.fault
      | some str => .ok (some str.buf)
    else .ok none
  | _ => .ok none

def intField : NxValue → Option Int64
  | ⟨defined, .integer i⟩ => if defined = TRUE then some i else none
  | _ => none

/-- The value of the table with the name in a defined STRING; 0 stands for no value. -/
def namedValue (table : List (Nat × String)) (fallback : Nat) : NxValue → Res Nat
  | ⟨defined, .string str⟩ =>
    if defined = TRUE then
      match str with
      | none => Res.fault
      | some str =>
        let n := fromString table (cut str.buf)
        .ok (if n = 0 then fallback else n)
    else .ok fallback
  | _ => .ok fallback

/-- syslog.c:597-613. -/
def getFacility : Res Int64 :=
  match view ld (lit "SyslogFacilityValue") with
  | some v => .ok ((intField v).getD 1)
  | none =>
    match view ld (lit "SyslogFacility") with
    | some v => do
      let fac ← namedValue syslogFacilities 1 v
      return Int64.ofNat fac
    | none => .ok 1

/-- syslog.c:646-669. -/
def severityOfLoglevel (loglevel : Int64) : Nat :=
  if loglevel = 1 then 7
  else if loglevel = 2 then 6
  else if loglevel = 3 then 4
  else if loglevel = 4 then 3
  else if loglevel = 5 then 2
  else 5

/-- syslog.c:636-645: the log level in a field, an `int` if it is an INTEGER. -/
def getLoglevel (v : NxValue) : Res Int64 :=
  match intField v with
  | some i => .ok i.toInt32.toInt64
  | none => do
    let level ← namedValue loglevels 2 v
    return Int64.ofNat level

/-- syslog.c:615-670. -/
def getSeverity : Res Int64 :=
  match view ld (lit "SyslogSeverityValue") with
  | some v => .ok ((intField v).getD 5)
  | none =>
    match view ld (lit "SyslogSeverity") with
    | some v => do
      let sev ← namedValue syslogSeverities 5 v
      return Int64.ofNat sev
    | none =>
      match (view ld (lit "SeverityValue")).or (view ld (lit "Severity")) with
      | some v => do
        let level ← getLoglevel v
        return Int64.ofNat (severityOfLoglevel level)
      | none => .ok 5

/-- mirrors syslog.c:588-675 (`nx_syslog_get_priority`). -/
def syslogGetPriority : Res Int32 := do
  let fac ← getFacility ld
  let sev ← getSeverity ld
  return (fac.toInt32 <<< 3) + sev.toInt32

/-- Change the string `raw_event` points to. -/
def onRaw (f : Bytes → Res Bytes) (ld : Logdata) : Res Logdata :=
  match ld.raw_event with
  | none => .error (.assert "logdata->raw_event != NULL")
  | some addr =>
    match deref ld addr with
    | none => Res.fault
    | some s => do
      let buf ← f s.buf
      return setString ld addr buf

variable (dst : Bytes)

/-- `nx_string_append` of a string with its length. -/
def appendString (buf : Bytes) : Res Bytes := stringAppend dst (buf ++ [0]) (cInt buf.length)

/-- Append, and replace some bytes of what was appended. -/
def appendReplaced (replace : UInt8 → UInt8) (dst buf : Bytes) : Res Bytes := do
  let out ← appendString dst buf
  return out.take dst.length ++ (out.drop dst.length).map replace

def underscore (c : UInt8) : UInt8 := if c = 32 ∨ c = 9 then 95 else c

def unbreak (c : UInt8) : UInt8 := if c = 10 ∨ c = 13 then 32 else c

/-- The message: the field, or else what `raw_event` was. -/
def messageText : Res Bytes := do
  let msg ← strField ld (lit "Message")
  match msg with
  | some buf => .ok buf
  | none =>
    match ld.raw_event with
    | none => .error (.assert "logdata->raw_event != NULL")
    | some addr =>
      match deref ld addr with
      | none => Res.fault
      | some s => do
        let t ← stringClone s.addr s
        return t.buf

def eventTime : Int64 :=
  match view ld (lit "EventTime") with
  | some ⟨defined, .datetime t⟩ => if defined = TRUE then t else env.date.now
  | _ => env.date.now

def appendHostname : Res Bytes := do
  let hostname ← strField ld (lit "Hostname")
  appendString dst (hostname.getD env.hostname)

def appendMessage (msg dst : Bytes) : Res Bytes := do
  let dst ← stringAppend dst [32] 1
  appendReplaced unbreak dst msg

/-- syslog.c:758-761: the process ID in brackets; the buffer of an INTEGER has 20 bytes. -/
def appendPid : Res Bytes :=
  match view ld (lit "ProcessID") with
  | none => .ok dst
  | some v =>
    if v.defined = TRUE then
      match v.data with
      | .integer i => stringAppend dst ((91 :: (decimal i.toInt ++ [93])).take 19 ++ [0])
          ((91 :: (decimal i.toInt ++ [93])).take 19).length
      | .string none => Res.fault
      | .string (some str) => do
        let dst ← stringAppend dst [91] 1
        let dst ← appendString dst str.buf
        stringAppend dst [93] 1
      | _ => .ok dst
    else .ok dst

/-- syslog.c:735-766: the tag. -/
def appendTag : Res Bytes := do
  let application ← strField ld (lit "SourceName")
  match application with
  | none => .ok dst
  | some [] => .ok dst
  | some buf => do
    let dst ← stringAppend dst [32] 1
    let dst ← appendReplaced underscore dst buf
    let dst ← appendPid ld dst
    stringAppend dst [58] 1

/-- `"<%d>%s "` and `"<%d>1 %s "`. -/
def priText (pri : Int32) (version date : Bytes) : Bytes :=
  60 :: (decimal pri.toInt ++ 62 :: (version ++ (date ++ [32])))

/-- A date that could not be converted was not written to the buffer. -/
def writtenDate : Option Bytes → Res Bytes
  | none => Res.fault
  | some date => .ok date

/-- mirrors syslog.c:679-783 (`nx_logdata_to_syslog_rfc3164`). A string of another field
than `raw_event` stays as it is while the text is built, so the message may be read at
the start. -/
def logdataToSyslogRfc3164 : Res Logdata := do
  let msg ← messageText ld
  let pri ← syslogGetPriority ld
  let date ← dateToRfc3164 env.date (eventTime env ld)
  let date ← writtenDate date
  let ld ← onRaw (fun _ => .ok (priText pri [] date)) ld
  let ld ← onRaw (appendHostname env ld) ld
  let ld ← onRaw (appendTag ld) ld
  onRaw (appendMessage msg) ld

def ignorelist : List CStr :=
  ["raw_event", "EventTime", "Hostname", "SourceName", "Message", "MessageID", "ProcessID", "Severity",
   "SeverityValue", "SyslogSeverity", "SyslogSeverityValue", "SyslogFacility", "SyslogFacilityValue"].map lit

def inSd (f : Field) : Bool := (∀ k ∈ ignorelist, ¬ strcasecmp f.key k) ∧ f.value.defined = TRUE

def sdKeyByte (c : UInt8) : UInt8 := if c = 32 ∨ c = 93 ∨ c = 34 then 95 else c

/-- The backslash in front of a byte of a value. -/
def sdBackslash (sd : Bytes) (c : UInt8) : Res Bytes :=
  if c = 92 ∨ c = 34 ∨ c = 93 then stringAppend sd [92] 1 else .ok sd

def appendSdByte (sd : Bytes) (c : UInt8) : Res Bytes := do
  let sd ← sdBackslash sd c
  stringAppend sd [c] 1

def appendSdValue (sd : Bytes) (v : NxValue) : Res Bytes :=
  match v.data with
  | .string none => Res.fault
  | .string (some str) => run appendSdByte sd (str.buf.take (cInt str.buf.length).toNat)
  | _ => do
    let text ← valueToString env.text v
    match text with
    | none => Res.fault
    | some text => stringAppend sd (text.1 ++ [0]) (-1)

def appendSdKey (sd : Bytes) (key : CStr) : Res Bytes := do
  let out ← stringAppend sd (key.1 ++ [0]) (-1)
  return out.take sd.length ++ (out.drop sd.length).map sdKeyByte

def sdSeparator (sd : Bytes) (cnt : Nat) : Res Bytes := if cnt = 0 then .ok sd else stringAppend sd [32] 1

/-- The loop over the fields; `sd.2` of them were written. -/
def appendSdField (sd : Bytes × Nat) (f : Field) : Res (Bytes × Nat) :=
  if inSd f then do
    let out ← sdSeparator sd.1 sd.2
    let out ← appendSdKey out f.key
    let out ← stringAppend out [61, 34] 2
    let out ← appendSdValue env out f.value
    let out ← stringAppend out [34] 1
    return (out, sd.2 + 1)
  else .ok sd

/-- mirrors syslog.c:1106-1207 (`nx_syslog_add_structured_data`). -/
def syslogAddStructuredData : Res Bytes := do
  let sd ← stringAppend [] (ascii "[NXLOG@14506 " ++ [0]) (-1)
  let (sd, cnt) ← run (appendSdField env) (sd, 0) ld.fields
  let sd ← stringAppend sd [93] 1
  if cnt = 0 then stringAppend dst [45] 1 else appendString dst sd

/-- syslog.c:1265-1283. -/
def appendAppname : Res Bytes := do
  let application ← strField ld (lit "SourceName")
  match application with
  | none => stringAppend dst [45] 1
  | some [] => stringAppend dst [45] 1
  | some buf => appendReplaced underscore dst buf

/-- syslog.c:1286-1307. -/
def appendProcid : Res Bytes :=
  match view ld (lit "ProcessID") with
  | none => stringAppend dst [45] 1
  | some v =>
    if v.defined = TRUE then
      match v.data with
      | .integer i => stringAppend dst (decimal i.toInt ++ [0]) (decimal i.toInt).length
      | .string none => Res.fault
      | .string (some str) => if str.buf = [] then stringAppend dst [45] 1 else appendString dst str.buf
      | _ => stringAppend dst [45] 1
    else stringAppend dst [45] 1

/-- syslog.c:1310-1318. -/
def appendMsgid : Res Bytes := do
  let messageid ← strField ld (lit "MessageID")
  match messageid with
  | none => stringAppend dst [45] 1
  | some buf => appendString dst buf

def thenSpace (f : Bytes → Res Bytes) (dst : Bytes) : Res Bytes := do
  let dst ← f dst
  stringAppend dst [32] 1

/-- mirrors syslog.c:1211-1339 (`nx_logdata_to_syslog_rfc5424`). -/
def logdataToSyslogRfc5424 (gmt : Bool) (ld : Logdata) : Res Logdata := do
  let msg ← messageText ld
  let pri ← syslogGetPriority ld
  let date ← writtenDate (dateToRfc5424 env.date gmt (eventTime env ld))
  let ld ← onRaw (fun _ => .ok (priText pri [49, 32] date)) ld
  let ld ← onRaw (thenSpace (appendHostname env ld)) ld
  let ld ← onRaw (thenSpace (appendAppname ld)) ld
  let ld ← onRaw (thenSpace (appendProcid ld)) ld
  let ld ← onRaw (thenSpace (appendMsgid ld)) ld
  let ld ← onRaw (syslogAddStructuredData env ld) ld
  onRaw (appendMessage msg) ld

end Nxlog.L3
