import Nxlog.L3Protocol.StructuredData

/-!
# RFC 5424 there and back

* `syslogParseRfc5424_header`: priority, time and header, whatever follows them.
* `ietfBody_nil`, `ietfBody_sd`: the structured data and the message.
* `sdOf_eq`: the structured data that the writer writes.
* `rfc5424_roundtrip`: the fields of the record come back. Four names that the writer
  leaves out of the structured data on purpose are not among them: the parser derives
  `Severity`, `SeverityValue`, `SyslogSeverity` and `SyslogFacility` from the priority
  (`rfc5424_severity_lost`).
-/
namespace Nxlog.L3
open L1 L2 Res List

variable {word : Bytes} {p : CStr × Bytes} {c : UInt8}

/-! ## Structured data -/

def sdText (ps : List (CStr × Bytes)) : Bytes := ascii "[NXLOG@14506" ++ (paramsText ps ++ [93])

def sdAssignments (ps : List (CStr × Bytes)) : List (CStr × NxValue) := ps.map fun p => (p.1, strValue p.2)

section Params

variable {σ : Type} (acc : Access σ)

variable {ps : List (CStr × Bytes)}

/-- The element is read over, and then what follows it. -/
theorem syslogParseStructuredData_text (string rest : Bytes) (hne : ps ≠ [])
    (hps : ∀ p ∈ ps, SdPair p) (fuel : Nat) (s : σ) :
    syslogParseStructuredData acc string (fuel + 1) s (sdText ps ++ rest) =
      setAll acc.set s (sdAssignments ps) >>= fun s => syslogParseStructuredData acc string fuel s rest := by
  have hid : SdElement.Ok ⟨ascii "NXLOG", some (ascii "14506"), []⟩ :=
    ⟨by decide, by decide +kernel, by decide, by simp⟩
  have he : SdElement.Ok ⟨ascii "NXLOG", some (ascii "14506"), ps⟩ :=
    ⟨hid.nonempty, hid.chars, hid.short, fun p hp =>
      ⟨hps p hp, by simpa [SdElement.lead] using (hps p hp).short⟩⟩
  have hset : SdElement.assignments ⟨ascii "NXLOG", some (ascii "14506"), ps⟩ = sdAssignments ps :=
    map_congr_left fun p _ => congrArg (·, strValue p.2) (cut_cstr p.1)
  rw [← hset]
  exact syslogParseStructuredData_element acc string he hne rest fuel s

/-! ## The header -/

structure HeaderWord (word : Bytes) : Prop where
  nonempty : word ≠ []
  chars : ∀ c ∈ word, c ≠ 32 ∧ c ≠ 0

theorem HeaderWord.isNilvalue_iff (h : HeaderWord word) (rest : Bytes) :
    isNilvalue (word ++ 32 :: rest) ↔ word = [45] := by
  obtain ⟨c, w, rfl⟩ := exists_cons_of_ne_nil h.nonempty
  cases w with
  | nil => simp [isNilvalue]
  | cons d w =>
    obtain ⟨h32, h0⟩ := h.chars d (by simp)
    simp [isNilvalue, h32, h0]

theorem HeaderWord.afterWord (h : HeaderWord word) (rest : Bytes) : afterWord (word ++ 32 :: rest) =
    32 :: rest :=
  dropWhile_word (fun c hc => by simpa using h.chars c hc) (.inl (by simp))

theorem HeaderWord.skipSpace (h : HeaderWord word) (rest : Bytes) :
    skipSpace (32 :: (word ++ rest)) = word ++ rest := by
  obtain ⟨c, w, rfl⟩ := exists_cons_of_ne_nil h.nonempty
  rw [skipSpace_space]
  exact skipSpace_of_ne (h.chars c mem_cons_self).1

/-- A word is set, unless it is the nil value, and the spaces behind it are skipped. -/
theorem headerField_word (h : HeaderWord word) (nil : σ → Res σ)
    (set : σ → Option Bytes → Option Bytes → Res σ) (s : σ) (rest : Bytes) :
    headerField nil set s (word ++ 32 :: rest) =
      (if word = [45] then nil s else set s (some (word ++ 32 :: rest)) (some (32 :: rest))) >>= fun s =>
        .ok (s, skipSpace (32 :: rest)) := by
  rw [headerField]
  by_cases hnil : word = [45]
  · rw [if_pos ((h.isNilvalue_iff rest).mpr hnil), if_pos hnil, hnil]
    rfl
  · rw [if_neg fun hc => hnil ((h.isNilvalue_iff rest).mp hc), if_neg hnil, h.afterWord]
    rfl

structure Header where
  host : Bytes
  app : Bytes
  procid : Bytes
  msgid : Bytes

structure Header.Ok (h : Header) : Prop where
  host : HeaderWord h.host
  app : HeaderWord h.app
  procid : HeaderWord h.procid
  msgid : HeaderWord h.msgid

def Header.text (h : Header) : Bytes :=
  h.host ++ 32 :: (h.app ++ 32 :: (h.procid ++ 32 :: (h.msgid ++ [32])))

def setWord (key : CStr) (word : Bytes) (s : σ) : Res σ :=
  if word = [45] then .ok s else acc.set s key (strValue word)

def setHost (env : SyslogEnv) (host : Bytes) (s : σ) : Res σ :=
  if host = [45] then setSyslogHostname acc env s none none else acc.set s (lit "Hostname") (strValue host)

def setHeader (env : SyslogEnv) (h : Header) (s : σ) : Res σ := do
  let s ← setHost acc env h.host s
  let s ← setWord acc (lit "SourceName") h.app s
  let s ← setWord acc (lit "ProcessID") h.procid s
  setWord acc (lit "MessageID") h.msgid s

variable {h : Header} {body : Bytes}

theorem ietfFields_header (env : SyslogEnv) (hok : h.Ok) (hlen : h.text.length < stringLimit)
    (s : σ) (hbody : ch body 0 ≠ 32) (msgend : Bytes) :
    ietfFields acc env s (h.text ++ body) msgend = setHeader acc env h s >>= fun s =>
    ietfBody acc s body msgend := by
  have hlen' := hlen
  simp only [Header.text, length_append, length_cons] at hlen'
  have htext : h.text ++ body =
      h.host ++ 32 :: (h.app ++ 32 :: (h.procid ++ 32 :: (h.msgid ++ 32 :: body))) := by
    simp [Header.text]
  have hskip : skipSpace (32 :: body) = body := by rw [skipSpace_space, skipSpace_of_ne hbody]
  rw [htext, ietfFields, headerField_word hok.host,
    setSyslogHostname_word acc s env hok.host.nonempty (by omega),
    hok.app.skipSpace]
  simp only [headerField_word hok.app, headerField_word hok.procid, headerField_word hok.msgid,
    hok.procid.skipSpace,
    hok.msgid.skipSpace, hskip, setSyslogAppname, setSyslogProcid, setSyslogMsgid,
    setSlice_word acc _ _ hok.app.nonempty (show h.app.length ≤ stringLimit by omega),
    setSlice_word acc _ _ hok.procid.nonempty (show h.procid.length ≤ stringLimit by omega),
    setSlice_word acc _ _ hok.msgid.nonempty (show h.msgid.length ≤ stringLimit by omega),
    setHeader, setHost, setWord, bind_assoc, ok_bind]

def ietfText (pri : Int) (date : Bytes) (h : Header) (body : Bytes) : Bytes :=
  60 :: (decimal pri ++ 62 :: 49 :: 32 :: (date ++ 32 :: (h.text ++ body)))

/-- Priority, time and header, if the time can be read. -/
theorem syslogParseRfc5424_header (env : SyslogEnv) {pri : Int} {fac sev : Nat} {date : Bytes}
    {time : Int64} (hok : h.Ok) (hlen : h.text.length < stringLimit) (hbody : ch body 0 ≠ 32)
    (hpri : readPriority (ietfText pri date h body) = ⟨fac, sev, true,
      49 :: 32 :: (date ++ 32 :: (h.text ++ body))⟩)
    (hnil : ch date 0 ≠ 45) (hdate : date ≠ [])
    (hparse : ∀ rest dateend,
      dateParseIso env.date (date ++ rest) dateend = .ok ⟨some time, some rest⟩) (s : σ) :
    syslogParseRfc5424 acc env s (ietfText pri date h body) (ietfText pri date h body).length =
      setAll acc.set s (priorityFields fac sev ++ [(lit "EventTime", dateValue time)]) >>= fun s =>
        setHeader acc env h s >>= fun s => ietfBody acc s body [] >>= fun s => .ok (s, true) := by
  have hnilv : ¬ isNilvalue (date ++ 32 :: (h.text ++ body)) := by
    obtain ⟨c, d, rfl⟩ := exists_cons_of_ne_nil hdate
    exact fun hc => hnil hc.1
  have hhost : ch (h.text ++ body) 0 ≠ 32 := by
    obtain ⟨c, w, hc⟩ := exists_cons_of_ne_nil hok.host.nonempty
    rw [Header.text, hc]
    exact (hok.host.chars c (by rw [hc]; exact mem_cons_self)).1
  rw [syslogParseRfc5424, endOf_length, ok_bind, parseSyslogPriority_eq, hpri, setAll_append,
    bind_assoc, bind_assoc]
  dsimp only
  congr 1; funext s
  rw [ok_bind]
  rw [if_pos ⟨rfl, rfl⟩, drop_succ_cons, drop_succ_cons, drop_zero, if_neg hnilv, hparse, ok_bind]
  dsimp only
  rw [skipSpace_space, skipSpace_of_ne hhost]
  simp only [ietfFields_header acc env hok hlen _ hbody, setSyslogTimestamp, setAll_cons,
    setAll_nil, bind_assoc,
    ok_bind, pure_eq]

theorem ietfBody_nil (s : σ) {msg : Bytes} (hbom : ¬ hasBom msg) (msgend : Bytes) :
    ietfBody acc s (45 :: 32 :: msg) msgend = setSyslogMessage acc s (some msg) (some msgend) := by
  rw [ietfBody, ietfSd, if_pos ⟨rfl, .inl rfl⟩, ok_bind]
  dsimp only
  rw [show skipOneSpace (45 :: 32 :: msg).tail = msg from rfl, skipBom, if_neg hbom]

theorem not_isNilvalue_sdText (ps : List (CStr × Bytes)) (rest : Bytes) :
    ¬ isNilvalue (sdText ps ++ rest) := by
  have hascii : ascii "[NXLOG@14506" = 91 :: ascii "NXLOG@14506" := by decide
  rintro ⟨h, -⟩
  rw [sdText, hascii] at h
  exact absurd (show (91 : UInt8) = 45 from h) (by decide)

/-- Structured data, and a message that is no further element. -/
theorem ietfBody_sd (hne : ps ≠ []) (hps : ∀ p ∈ ps, SdPair p) (s : σ) {msg : Bytes}
    (h32 : ch msg 0 ≠ 32) (h91 : ch msg 0 ≠ 91) (hbom : ¬ hasBom msg) (msgend : Bytes) :
    ietfBody acc s (sdText ps ++ 32 :: msg) msgend = setAll acc.set s (sdAssignments ps) >>= fun s =>
      setSyslogMessage acc s (some msg) (some msgend) := by
  have hmsg : ∀ string fuel (s : σ), 0 < fuel →
      syslogParseStructuredData acc string fuel s (32 :: msg) = .ok (s, msg) := by
    intro string fuel s hfuel
    obtain ⟨fuel, rfl⟩ : ∃ n, fuel = n + 1 := ⟨fuel - 1, by omega⟩
    rw [syslogParseStructuredData, ch_zero, if_neg (by decide), skipSpace_space, skipSpace_of_ne h32]
    rw [if_pos h91]
  rw [ietfBody, ietfSd, if_neg (not_isNilvalue_sdText ps _),
    syslogParseStructuredData_text acc _ _ hne hps, bind_assoc]
  congr 1; funext s
  rw [hmsg _ _ _ (by rw [length_append, length_cons]; omega), ok_bind]
  dsimp only
  rw [skipOneSpace, if_neg h32, skipBom, if_neg hbom]

end Params

/-! ## What the writer writes -/

theorem run_appendSdByte (sd : Bytes) (v done : Bytes) :
    run appendSdByte (appendCut sd done) v = .ok (appendCut sd (done ++ escaped sdEscape v)) := by
  induction v generalizing done with
  | nil => simp
  | cons c v ih =>
    rw [run_cons, appendSdByte, sdBackslash, escaped_cons, ← append_assoc]
    by_cases hsp : c = 92 ∨ c = 34 ∨ c = 93
    · rw [if_pos hsp, stringAppend_byte, ok_bind, stringAppend_byte, ok_bind, appendCut_appendCut,
        appendCut_appendCut, ih, sdEscape_pair hsp, append_assoc done]
      simp
    · rw [if_neg hsp, ok_bind, stringAppend_byte, ok_bind, appendCut_appendCut, ih, sdEscape_keep hsp]

theorem appendSdKey_eq (sd : Bytes) (key : CStr) :
    appendSdKey sd key = .ok (appendCut sd (key.1.map sdKeyByte)) := by
  rw [appendSdKey, stringAppend_cstr, ok_bind]
  simp [appendCut, map_take]

theorem sdKeyByte_hostchar (h : isHostchar c = true) : sdKeyByte c = c := by
  rw [sdKeyByte, if_neg]
  rintro (rfl | rfl | rfl) <;> exact absurd h (by decide)

/-- A field that goes to the structured data, as a name and a string. -/
def sdPair (f : Field) : Option (CStr × Bytes) := if inSd f then f.value.string?.map fun t =>
    (f.key, t.buf) else none

def sdPairs (fs : List Field) : List (CStr × Bytes) := fs.filterMap sdPair

def SdStrings (fs : List Field) : Prop := ∀ f ∈ fs, inSd f = true → f.value.string?.isSome = true

theorem appendSdField_eq (env : SyslogEnv) {f : Field} (hf : inSd f = true) {t : NxString}
    (ht : f.value.string? = some t)
    (hkey : ∀ c ∈ f.key.1, isHostchar c = true) (hlen : t.buf.length < 2 ^ 31) (sd : Bytes)
    (cnt : Nat) : appendSdField env (sd, cnt) f =
      .ok (appendCut sd ((32 :: paramText (f.key, t.buf)).drop (if cnt = 0 then 1 else 0)), cnt + 1) := by
  obtain ⟨hd, hdata⟩ := string?_some ht
  have hsep : sdSeparator sd cnt = .ok (appendCut sd (if cnt = 0 then [] else [32])) := by
    rw [sdSeparator]
    by_cases h : cnt = 0
    · rw [if_pos h, if_pos h]
      simp [appendCut]
    · rw [if_neg h, if_neg h, stringAppend_byte]
  have hvalue : ∀ out, appendSdValue env out f.value = .ok (appendCut out (escaped sdEscape t.buf)) := by
    intro out
    have hrun := run_appendSdByte out t.buf []
    rw [show appendCut out [] = out by simp [appendCut], nil_append] at hrun
    rw [appendSdValue, hdata]
    dsimp only
    rw [cInt_of_lt hlen, Int.toNat_natCast, take_length, hrun]
  have heq : ∀ out, stringAppend out [61, 34] 2 = .ok (appendCut out [61, 34]) := by
    intro out
    exact stringAppend_eq (n := 2) (Nat.le_refl 2)
  rw [appendSdField, if_pos hf, hsep, ok_bind, appendSdKey_eq, ok_bind, heq, ok_bind, hvalue,
    ok_bind, stringAppend_byte, ok_bind, map_eq_self fun c hc => sdKeyByte_hostchar (hkey c hc)]
  simp only [appendCut_appendCut, pure_eq]
  congr 3
  by_cases h : cnt = 0 <;> simp [h, paramText]

theorem run_appendSdField (env : SyslogEnv) : ∀ (fs : List Field), SdStrings fs →
    (∀ p ∈ sdPairs fs, SdPair p) → ∀ (sd : Bytes) (cnt : Nat), run (appendSdField env)
      (sd, cnt) fs = .ok (appendCut sd ((paramsText (sdPairs fs)).drop (if cnt = 0 then 1 else 0)),
        cnt + (sdPairs fs).length) := by
  intro fs
  induction fs with
  | nil => intro _ _ sd cnt; simp [sdPairs, paramsText, appendCut]
  | cons f fs ih =>
    intro hstr hpairs sd cnt
    have hstr' : SdStrings fs := (forall_mem_cons.mp hstr).2
    by_cases hf : inSd f = true
    · obtain ⟨t, ht⟩ := Option.isSome_iff_exists.mp (hstr f mem_cons_self hf)
      have hp : sdPairs (f :: fs) = (f.key, t.buf) :: sdPairs fs := by simp [sdPairs, sdPair, hf, ht]
      have hpair := hpairs (f.key, t.buf) (by rw [hp]; exact mem_cons_self)
      have hshort := hpair.value
      rw [run_cons, appendSdField_eq env hf ht hpair.chars (hshort.trans (by decide)), ok_bind,
        ih hstr' fun q hq => hpairs q (by rw [hp]; exact mem_cons_of_mem _ hq), hp, appendCut_appendCut]
      have htext : (32 :: paramText (f.key, t.buf)).drop (if cnt = 0 then 1 else 0) ++
          (paramsText (sdPairs fs)).drop (if cnt + 1 = 0 then 1 else 0) =
          (paramsText ((f.key, t.buf) :: sdPairs fs)).drop (if cnt = 0 then 1 else 0) := by
        by_cases h : cnt = 0 <;> simp [h, paramsText]
      rw [htext, length_cons, Nat.add_assoc, Nat.add_comm 1]
    · have hp : sdPairs (f :: fs) = sdPairs fs := by simp [sdPairs, sdPair, hf]
      rw [run_cons, appendSdField, if_neg hf, ok_bind, ih hstr' fun q hq =>
        hpairs q (by rw [hp]; exact hq), hp]

/-- The structured data of a record whose other fields are strings. -/
theorem sdOf_eq (env : SyslogEnv) {ld : Logdata} (hstr : SdStrings ld.fields)
    (hpairs : ∀ p ∈ sdPairs ld.fields, SdPair p)
    (hlen : (sdText (sdPairs ld.fields)).length < stringLimit) :
    sdOf env ld = .ok (if sdPairs ld.fields = [] then [45] else sdText (sdPairs ld.fields)) := by
  have hlim : stringLimit = 1048576 := rfl
  have hstart : stringAppend [] (ascii "[NXLOG@14506 " ++ [0]) (-1) =
    .ok (appendCut [] (ascii "[NXLOG@14506 ")) :=
    stringAppend_cstr [] (lit "[NXLOG@14506 ")
  rw [sdOf, hstart, ok_bind, run_appendSdField env _ hstr hpairs, ok_bind]
  dsimp only
  rw [stringAppend_byte, ok_bind, if_pos rfl, appendCut_appendCut, appendCut_appendCut, Nat.zero_add, pure_eq]
  by_cases hnil : sdPairs ld.fields = []
  · simp [hnil]
  have htext : ascii "[NXLOG@14506 " ++ ((paramsText (sdPairs ld.fields)).drop 1 ++ [93]) =
      sdText (sdPairs ld.fields) := by
    obtain ⟨p, ps, hp⟩ := exists_cons_of_ne_nil hnil
    have hascii : ascii "[NXLOG@14506 " = ascii "[NXLOG@14506" ++ [32] := by decide
    simp [hp, sdText, paramsText, hascii]
  rw [if_neg hnil, if_neg (by simpa using hnil), htext, appendCut_of_lt (by simpa using hlen),
    nil_append, appended_of_lt (by omega)]

/-! ## The round trip -/

structure IetfWord (word : Bytes) : Prop where
  nonempty : word ≠ []
  nil : word ≠ [45]
  chars : ∀ c ∈ word, c ≠ 32 ∧ c ≠ 9 ∧ c ≠ 0

theorem IetfWord.header (h : IetfWord word) : HeaderWord word :=
  ⟨h.nonempty, fun c hc => ⟨(h.chars c hc).1, (h.chars c hc).2.2⟩⟩

structure IetfFields where
  fac : Nat
  sev : Nat
  time : Int64
  host : Bytes
  app : Bytes
  procid : Bytes
  msgid : Bytes
  others : List (CStr × Bytes)
  msg : Bytes

structure IetfFields.Valid (r : IetfFields) : Prop where
  fac : r.fac ≤ 23
  sev : r.sev ≤ 7
  host : IetfWord r.host
  app : IetfWord r.app
  procid : IetfWord r.procid
  msgid : IetfWord r.msgid
  others : ∀ p ∈ r.others, SdPair p
  msg : r.msg ≠ []
  clean : ∀ c ∈ r.msg, c ≠ 0 ∧ c ≠ 10 ∧ c ≠ 13
  start : ch r.msg 0 ≠ 32 ∧ ch r.msg 0 ≠ 91 ∧ ¬ hasBom r.msg

def IetfFields.header (r : IetfFields) : Header := ⟨r.host, r.app, r.procid, r.msgid⟩

variable {r : IetfFields}

theorem IetfFields.Valid.header (hr : r.Valid) : r.header.Ok :=
  ⟨hr.host.header, hr.app.header, hr.procid.header, hr.msgid.header⟩

def sdPart (ps : List (CStr × Bytes)) : Bytes := if ps = [] then [45] else sdText ps

def IetfFields.text (r : IetfFields) (date : Bytes) : Bytes :=
  ietfText (r.fac * 8 + r.sev : Nat) date r.header (sdPart r.others ++ 32 :: r.msg)

def IetfFields.assignments (r : IetfFields) : List (CStr × NxValue) :=
  priorityFields r.fac r.sev ++
    ([(lit "EventTime", dateValue r.time), (lit "Hostname", strValue r.host),
      (lit "SourceName", strValue r.app),
      (lit "ProcessID", strValue r.procid), (lit "MessageID", strValue r.msgid)] ++
      (sdAssignments r.others ++ [(lit "Message", strValue r.msg)]))

/-- The time is within the years that are written with four digits, and the conversions
to and from GMT agree about it. -/
structure GmtTime (env : DateEnv) (time : Int64) (e : TimeExp) : Prop where
  gmt : env.expGmt time = some e
  range : e.InRange
  year : e.FourDigitYear
  get : env.expGmtGet { e with tm_gmtoff := 0 } = some time

section Parser

variable {σ : Type} (acc : Access σ)

theorem ietfBody_text (hr : r.Valid) (hlen : r.msg.length ≤ stringLimit) (s : σ) :
    ietfBody acc s (sdPart r.others ++ 32 :: r.msg) [] =
      setAll acc.set s (sdAssignments r.others ++ [(lit "Message", strValue r.msg)]) := by
  have hlf : 10 ∉ r.msg := fun h => (hr.clean 10 h).2.1 rfl
  have hmsg : ∀ s : σ, setSyslogMessage acc s (some r.msg) (some []) =
      setAll acc.set s [(lit "Message", strValue r.msg)] := by
    intro s
    rw [setSyslogMessage_eq acc s hr.msg hlf hlen]
    simp [bind_ok]
  by_cases hnil : r.others = []
  · rw [sdPart, if_pos hnil, hnil, singleton_append, ietfBody_nil acc s hr.start.2.2, hmsg]
    rfl
  · rw [sdPart, if_neg hnil, ietfBody_sd acc hnil hr.others s hr.start.1 hr.start.2.1 hr.start.2.2,
      setAll_append]
    simp only [hmsg]

/-- What the parser sets, and in which order. -/
theorem syslogParseRfc5424_text (env : SyslogEnv) (hr : r.Valid) {e : TimeExp}
    (he : GmtTime env.date r.time e) (hlen : (r.text (ietfDate e)).length < stringLimit) (s : σ) :
    syslogParseRfc5424 acc env s (r.text (ietfDate e)) (r.text (ietfDate e)).length =
      setAll acc.set s r.assignments >>= fun s => .ok (s, true) := by
  simp only [IetfFields.text, ietfText, length_cons, length_append] at hlen
  have hbody : ch (sdPart r.others ++ 32 :: r.msg) 0 ≠ 32 := by
    by_cases hnil : r.others = []
    · rw [sdPart, if_pos hnil]
      exact (by decide : (45 : UInt8) ≠ 32)
    · rw [sdPart, if_neg hnil]
      exact (by decide : (91 : UInt8) ≠ 32)
  obtain ⟨d, date, hd, hdigit⟩ : ∃ d date, ietfDate e = d :: date ∧ isDigit d = true :=
    ⟨_, _, rfl, isDigit_digit _⟩
  have hdate : ch (ietfDate e) 0 ≠ 45 := by
    rw [hd, ch_zero]
    rintro rfl
    exact absurd hdigit (by decide)
  have hpri : readPriority (ietfText (r.fac * 8 + r.sev : Nat) (ietfDate e) r.header
    (sdPart r.others ++ 32 :: r.msg)) =
      ⟨r.fac, r.sev, true, 49 :: 32 ::
        (ietfDate e ++ 32 :: (r.header.text ++ (sdPart r.others ++ 32 :: r.msg)))⟩ :=
    readPriority_decimal (by have := hr.fac; omega) (by have := hr.sev; omega) (by simp)
  rw [IetfFields.text, syslogParseRfc5424_header acc env hr.header (by omega) hbody hpri hdate
    (by simp [hd]) (dateParseIso_ietfDate he.range he.year he.get), IetfFields.assignments,
      setAll_append, setAll_append, bind_assoc, bind_assoc]
  congr 1; funext s
  simp only [setHeader, setHost, setWord, IetfFields.header, hr.host.nil, hr.app.nil, hr.procid.nil,
    hr.msgid.nil,
    if_false, ietfBody_text acc hr (show r.msg.length ≤ stringLimit by omega), setAll_append,
    setAll_cons, setAll_nil,
    bind_assoc, ok_bind]

end Parser

structure IetfRecord (ld : Logdata) (r : IetfFields) : Prop where
  fac : view ld (lit "SyslogFacilityValue") = some (intValue r.fac)
  sev : view ld (lit "SyslogSeverityValue") = some (intValue r.sev)
  time : view ld (lit "EventTime") = some (dateValue r.time)
  host : strOf ld (lit "Hostname") = some r.host
  app : strOf ld (lit "SourceName") = some r.app
  procid : strOf ld (lit "ProcessID") = some r.procid
  msgid : strOf ld (lit "MessageID") = some r.msgid
  strings : SdStrings ld.fields
  others : sdPairs ld.fields = r.others
  msg : strOf ld (lit "Message") = some r.msg

/-- The writer writes the text of the fields. -/
theorem logdataToSyslogRfc5424_text {env : SyslogEnv} {s : Store} (hs : Good s) {addr : Nat}
    (hraw : s.ld.raw_event = some addr) (hr : r.Valid) (hrec : IetfRecord s.ld r) {e : TimeExp}
    (he : GmtTime env.date r.time e) (hlen : (r.text (ietfDate e)).length < stringLimit) :
    logdataToSyslogRfc5424 env true s.ld = .ok (setString s.ld addr (r.text (ietfDate e))) := by
  have hlim : stringLimit = 1048576 := rfl
  have hlen' := hlen
  simp only [IetfFields.text, ietfText, IetfFields.header, Header.text, length_cons, length_append] at hlen'
  have hmsg : messageText s.ld = .ok r.msg := by
    rw [messageText, strField_eq hs, hrec.msg, ok_bind]
  have htime : eventTime env s.ld = r.time := by
    rw [eventTime, hrec.time, dateValue]
    exact if_pos rfl
  have hhost : hostText env s.ld = r.host := by
    rw [hostText, hrec.host, Option.getD_some, appended_of_lt (by omega)]
  have happ : appText s.ld = r.app := by
    obtain ⟨c, w, hcons⟩ := exists_cons_of_ne_nil hr.app.nonempty
    rw [appText, hrec.app, hcons]
    dsimp only
    rw [← hcons, appended_of_lt (by omega), map_eq_self]
    intro c hc
    obtain ⟨h32, h9, -⟩ := hr.app.chars c hc
    simp [underscore, h32, h9]
  have hprocid : procidText s.ld = r.procid := by
    obtain ⟨a, ha⟩ := view_of_strOf hrec.procid
    rw [procidText, ha]
    dsimp only
    rw [if_pos rfl, if_neg hr.procid.nonempty, appended_of_lt (by omega)]
  have hmsgid : msgidText s.ld = r.msgid := by
    rw [msgidText, hrec.msgid]
    dsimp only
    rw [appended_of_lt (by omega)]
  have hsd : sdOf env s.ld = .ok (sdPart r.others) := by
    have hfit : (sdText (sdPairs s.ld.fields)).length < stringLimit := by
      rw [hrec.others]
      by_cases hnil : r.others = []
      · rw [hnil]
        decide
      · rw [sdPart, if_neg hnil] at hlen'
        omega
    rw [sdOf_eq env hrec.strings (by rw [hrec.others]; exact hr.others) hfit, hrec.others, sdPart]
  have hbreak : (appended r.msg).map unbreak = r.msg := by
    rw [appended_of_lt (by omega)]
    exact map_eq_self fun c hc => unbreak_clean (hr.clean c hc).2.1 (hr.clean c hc).2.2
  rw [logdataToSyslogRfc5424_eq hs hraw, hmsg, ok_bind, syslogGetPriority_eq hrec.fac hrec.sev,
    ok_bind, htime, dateToRfc5424_eq he.gmt he.range he.year, writtenDate, ok_bind, hsd, ok_bind,
    hbreak, priText, priority_toInt _ (by have := hr.fac; omega) _ (by have := hr.sev; omega),
    ietfHeader, hhost, happ, hprocid, hmsgid]
  have htext : (60 :: (decimal (r.fac * 8 + r.sev : Nat) ++ 62 :: ([49, 32] ++ (ietfDate e ++ [32])))) ++
      (r.host ++ 32 :: (r.app ++ 32 :: (r.procid ++ 32 :: (r.msgid ++ [32]))) ++
        (sdPart r.others ++ 32 :: r.msg)) =
      r.text (ietfDate e) := by
    simp [IetfFields.text, ietfText, IetfFields.header, Header.text]
  rw [appendCut_of_lt (by rw [← length_append, htext]; exact hlen), htext]

variable {fs : List Field}

/-- The names that go to the structured data are none of those left out of it. -/
theorem mem_sdPairs (h : p ∈ sdPairs fs) : ∀ k ∈ ignorelist, ¬ strcasecmp p.1 k := by
  obtain ⟨f, -, hf⟩ := mem_filterMap.mp h
  rw [sdPair] at hf
  split at hf
  · rename_i hin
    obtain ⟨t, -, rfl⟩ := Option.map_eq_some_iff.mp hf
    exact (of_decide_eq_true hin).1
  · cases hf

theorem sdPairs_distinct (h : fs.Pairwise Apart) : (sdPairs fs).Pairwise fun p q => ¬ strcasecmp p.1 q.1 := by
  have hkey : ∀ {f p}, sdPair f = some p → p.1 = f.key := by
    intro f p hf
    rw [sdPair] at hf
    split at hf
    · obtain ⟨t, -, rfl⟩ := Option.map_eq_some_iff.mp hf
      rfl
    · cases hf
  apply pairwise_filterMap.mpr
  apply h.imp
  intro f g hfg p hp q hq
  rw [hkey hp, hkey hq]
  exact hfg.1

/-- The names set besides those of the structured data. -/
theorem IetfFields.fixed_keys (r : IetfFields) :
    (priorityFields r.fac r.sev ++ [(lit "EventTime", dateValue r.time), (lit "Hostname",
      strValue r.host), (lit "SourceName", strValue r.app), (lit "ProcessID", strValue r.procid),
      (lit "MessageID", strValue r.msgid)]).map
        Prod.fst = ["SyslogFacilityValue", "SyslogFacility", "SyslogSeverityValue",
          "SyslogSeverity", "SeverityValue",
      "Severity", "EventTime", "Hostname", "SourceName", "ProcessID", "MessageID"].map lit := rfl

theorem IetfFields.assignments_distinct (hothers : r.others.Pairwise fun p q => ¬ strcasecmp p.1 q.1)
    (hignored : ∀ p ∈ r.others, ∀ k ∈ ignorelist, ¬ strcasecmp p.1 k) :
    r.assignments.Pairwise fun a b => ¬ strcasecmp a.1 b.1 := by
  have hkeys : (r.assignments.map Prod.fst).Pairwise fun a b => ¬ strcasecmp a b := by
    have hsd : (sdAssignments r.others).map Prod.fst = r.others.map Prod.fst := by simp [sdAssignments]
    rw [assignments, ← append_assoc, map_append, fixed_keys, map_append, hsd]
    refine pairwise_append.mpr ⟨by decide, pairwise_append.mpr ⟨pairwise_map.mpr hothers, by simp, ?_⟩, ?_⟩
    · intro a ha b hb
      obtain ⟨p, hp, rfl⟩ := mem_map.mp ha
      rw [mem_singleton.mp hb]
      exact hignored p hp (lit "Message") (by decide)
    · intro a ha b hb
      rcases mem_append.mp hb with hb | hb
      · obtain ⟨p, hp, rfl⟩ := mem_map.mp hb
        have hign : a ∈ ignorelist := by
          revert a
          decide
        exact fun hc => hignored p hp a hign (strcasecmp_comm.mp hc)
      · rw [mem_singleton.mp hb]
        dsimp only
        revert a
        decide
  exact pairwise_map.mp hkeys

theorem IetfFields.assignments_ok (hignored : ∀ p ∈ r.others, ∀ k ∈ ignorelist,
    ¬ strcasecmp p.1 k) : ∀ a ∈ r.assignments, a.1 ≠ rawEvent ∧ valueFree a.2 = .ok () := by
  intro a ha
  simp only [assignments, mem_append] at ha
  rcases ha with ha | ha | ha | ha
  · revert a
    simp [priorityFields]
    decide
  · revert a
    simp
    decide
  · obtain ⟨p, hp, rfl⟩ := mem_map.mp ha
    refine ⟨?_, valueFree_strValue p.2⟩
    rintro (hc : p.1 = rawEvent)
    exact hignored p hp rawEvent (by decide) (by rw [hc]; exact strcasecmp_refl _)
  · rw [mem_singleton.mp ha]
    exact ⟨(by decide : lit "Message" ≠ rawEvent), valueFree_strValue r.msg⟩

/-- The parser returns TRUE and sets the priority, the time, the words of the header, the
parameters and the message, each to what it was. In a record with different names each
of these fields ends up so, and the others stay as they are. -/
theorem rfc5424_roundtrip (env : SyslogEnv) (s : Store) (hs : Good s) (r : IetfFields)
    (hr : r.Valid) (hrec : IetfRecord s.ld r) (e : TimeExp) (he : GmtTime env.date r.time e)
    (hlen : (r.text (ietfDate e)).length < stringLimit) :
    ∃ ld text, logdataToSyslogRfc5424 env true s.ld = .ok ld ∧ rawText ld = some text ∧
      (∀ (σ : Type) (acc : Access σ) (t : σ), syslogParseRfc5424 acc env t text text.length =
        setAll acc.set t r.assignments >>= fun t' => .ok (t', true)) ∧
      ∀ t : Store, Usable t.ld → ∃ t', syslogParseRfc5424 storeAccess env t text text.length =
        .ok (t', true) ∧ Assigned t.ld r.assignments t'.ld := by
  obtain ⟨addr, hraw⟩ : ∃ addr, s.ld.raw_event = some addr := by
    obtain ⟨-, f, t, -, -, h⟩ := hs
    exact ⟨_, h⟩
  have hparse : ∀ (σ : Type) (acc : Access σ) (t : σ),
      syslogParseRfc5424 acc env t (r.text (ietfDate e)) (r.text (ietfDate e)).length =
        setAll acc.set t r.assignments >>= fun t' => .ok (t', true) :=
    fun σ acc t => syslogParseRfc5424_text acc env hr he hlen t
  have hignored : ∀ p ∈ r.others, ∀ k ∈ ignorelist, ¬ strcasecmp p.1 k := by
    rw [← hrec.others]
    exact fun p hp => mem_sdPairs hp
  have hdistinct : r.others.Pairwise fun p q => ¬ strcasecmp p.1 q.1 := by
    rw [← hrec.others]
    exact sdPairs_distinct hs.1.apart
  refine ⟨_, r.text (ietfDate e), logdataToSyslogRfc5424_text hs hraw hr hrec he hlen,
    rawText_setString hs hraw _, hparse, ?_⟩
  intro t ht
  obtain ⟨t', hset, hassigned⟩ := setAll_store ht
    (IetfFields.assignments_distinct hdistinct hignored) (IetfFields.assignments_ok hignored)
  refine ⟨t', ?_, hassigned⟩
  rw [hparse]
  show setAll storeSet t _ >>= _ = _
  rw [hset, ok_bind]

def ietfSample : IetfFields :=
  ⟨23, 7, 1320569377000000, ascii "a", ascii "b-", ascii "1[", ascii "]",
    [(lit "k.1", ascii "x\"]y\\")], ascii "m [x y=\"z\"]"⟩

def ietfSampleFields : List (CStr × NxValue) :=
  [(lit "SyslogFacilityValue", intValue 23), (lit "SyslogSeverityValue", intValue 7),
   (lit "EventTime", dateValue 1320569377000000), (lit "Hostname", strValue (ascii "a")),
   (lit "SourceName", strValue (ascii "b-")),
   (lit "ProcessID", strValue (ascii "1[")), (lit "MessageID", strValue (ascii "]")),
   (lit "k.1", strValue (ascii "x\"]y\\")), (lit "Message", strValue (ascii "m [x y=\"z\"]"))]

theorem ietfSample_valid : ietfSample.Valid := by
  have hwords : ∀ w ∈ [ascii "a", ascii "b-", ascii "1[", ascii "]"],
      w ≠ [] ∧ w ≠ [45] ∧ ∀ c ∈ w, c ≠ 32 ∧ c ≠ 9 ∧ c ≠ 0 := by decide +kernel
  have hword : ∀ w ∈ [ascii "a", ascii "b-", ascii "1[", ascii "]"], IetfWord w :=
    fun w hw => ⟨(hwords w hw).1, (hwords w hw).2.1, (hwords w hw).2.2⟩
  refine ⟨by decide, by decide, hword _ (by decide), hword _ (by decide),
    hword _ (by decide), hword _ (by decide), ?_,
    by decide, by decide +kernel, by decide⟩
  intro p hp
  rw [mem_singleton.mp hp]
  constructor <;> decide +kernel

theorem rfc5424_roundtrip_escapes :
    Good (filled ietfSampleFields) ∧ ietfSample.Valid ∧
    IetfRecord (filled ietfSampleFields).ld ietfSample ∧ ∃ ld text,
    logdataToSyslogRfc5424 sampleEnv true (filled ietfSampleFields).ld = .ok ld ∧
      rawText ld = some text ∧ syslogParseRfc5424 ⟨expect, fun _ _ =>
        none⟩ sampleEnv ietfSample.assignments text text.length = .ok ([], true) := by
  have hgood : Good (filled ietfSampleFields) := filled_good (by decide)
  have hrec : IetfRecord (filled ietfSampleFields).ld ietfSample := by
    constructor
    case strings => unfold SdStrings; decide
    all_goals decide
  have hrange : TimeExp.InRange ⟨0, 37, 49, 8, 6, 10, 111, 0⟩ := by constructor <;> decide
  have hyear : TimeExp.FourDigitYear ⟨0, 37, 49, 8, 6, 10, 111, 0⟩ := by constructor <;> decide
  obtain ⟨ld, text, hwrite, hraw, hparse, -⟩ :=
    rfc5424_roundtrip sampleEnv _ hgood ietfSample ietfSample_valid hrec
    ⟨0, 37, 49, 8, 6, 10, 111, 0⟩ ⟨rfl, hrange, hyear, rfl⟩ (by decide)
  refine ⟨hgood, ietfSample_valid, hrec, ld, text, hwrite, hraw, ?_⟩
  rw [hparse]
  show setAll expect _ _ >>= _ = _
  rw [setAll_expect]
  rfl

/-- The record is written, and the text read into another one. -/
def throughRfc5424 (env : SyslogEnv) (s t : Store) : Res (Store × Bool) := do
  let ld ← logdataToSyslogRfc5424 env true s.ld
  match rawText ld with
  | none => Res.fault
  | some text => syslogParseRfc5424 storeAccess env t text text.length

def loudFields : List (CStr × NxValue) := (lit "Severity", strValue (ascii "LOUD")) :: ietfSampleFields

/-- The field called `Severity` does not come back: the writer leaves it out, and the
parser sets it from the priority. -/
theorem rfc5424_severity_lost :
    Good (filled loudFields) ∧ ietfSample.Valid ∧ IetfRecord (filled loudFields).ld ietfSample ∧
      SdPair (lit "Severity", ascii "LOUD") ∧ strOf (filled loudFields).ld (lit "Severity") =
      some (ascii "LOUD") ∧
      (throughRfc5424 sampleEnv (filled loudFields) ⟨logdataNew, 1⟩).map
        (fun r => (strOf r.1.ld (lit "Severity"), r.2)) = .ok (some (ascii "DEBUG"), true) := by
  have hgood : Good (filled loudFields) := filled_good (by decide)
  have hrec : IetfRecord (filled loudFields).ld ietfSample := by
    constructor
    case strings => unfold SdStrings; decide
    all_goals decide
  have hpair : SdPair (lit "Severity", ascii "LOUD") := by constructor <;> decide +kernel
  exact ⟨hgood, ietfSample_valid, hrec, hpair, by decide, by decide⟩

end Nxlog.L3
