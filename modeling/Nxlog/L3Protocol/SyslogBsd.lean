import Nxlog.L3Protocol.SyslogText

/-!
# RFC 3164 there and back

* `readPriority_priText`: the priority is read back.
* `syslogParseRfc3164_text`: what the parser sets, and in which order, on the text of a
  record.
* `rfc3164_roundtrip`: the fields of the record come back.
-/
namespace Nxlog.L3
open L1 L2 Res List

/-! ## The priority -/

theorem priority_toInt : ∀ fac < 24, ∀ sev < 8,
    (((Int64.ofNat fac).toInt32 <<< 3) + (Int64.ofNat sev).toInt32).toInt = ((fac * 8 + sev : Nat) : Int) := by
  decide

theorem syslogGetPriority_eq {ld : Logdata} {fac sev : Nat}
    (hfac : view ld (lit "SyslogFacilityValue") = some (intValue fac))
    (hsev : view ld (lit "SyslogSeverityValue") = some (intValue sev)) :
    syslogGetPriority ld = .ok (((Int64.ofNat fac).toInt32 <<< 3) + (Int64.ofNat sev).toInt32) := by
  rw [syslogGetPriority, getFacility, hfac]
  rw [ok_bind, getSeverity, hsev]
  rfl

/-- The digits of a number that are within the places allowed. -/
theorem priorityDigits_digits (w n i acc : Nat) (rest : Bytes) (h : i + w ≤ 7) :
    priorityDigits i acc (digits w n ++ rest) = priorityDigits (i + w) (acc * 10 ^ w + n % 10 ^ w) rest := by
  induction w generalizing n i acc rest with
  | zero => simp [digits, Nat.mod_one]
  | succ w ih =>
    have hpow : 10 ^ (w + 1) = 10 * 10 ^ w := by rw [Nat.pow_succ, Nat.mul_comm]
    have hmod : n % 10 ^ (w + 1) = n / 10 % 10 ^ w * 10 + n % 10 := by
      rw [hpow, Nat.mod_mul]
      omega
    have hacc : (acc * 10 ^ w + n / 10 % 10 ^ w) * 10 + n % 10 = acc * 10 ^ (w + 1) + n % 10 ^ (w + 1) := by
      rw [hmod, hpow, Nat.add_mul, Nat.mul_assoc, Nat.mul_comm (10 ^ w) 10, Nat.add_assoc]
    rw [digits, append_assoc, ih _ _ _ _ (by omega), singleton_append, priorityDigits,
      if_pos (isDigit_digit n),
      if_neg (by omega), digit_toNat, Nat.add_sub_cancel_left, hacc, Nat.add_assoc]

theorem priorityDigits_decimal {n : Nat} (h : n < 1000) (rest : Bytes) :
    priorityDigits 1 0 (decimal n ++ 62 :: rest) = some (n, 62 :: rest) := by
  have hstop : ∀ i acc, priorityDigits i acc (62 :: rest) = some (acc, 62 :: rest) := by
    intro i acc
    have h62 : isDigit 62 = false := by decide
    simp [priorityDigits, h62]
  -- one, two or three digits
  obtain ⟨w, hw, hdec, hlt⟩ : ∃ w, w ≤ 2 ∧ decimal n = digits (w + 1) n ∧ n < 10 ^ (w + 1) := by
    by_cases h1 : n < 10
    · exact ⟨0, by omega, by rw [decimal_of_lt h1]; rfl, by omega⟩
    by_cases h2 : n < 100
    · exact ⟨1, by omega, decimal_eq_digits (by omega) (by omega), by omega⟩
    · exact ⟨2, by omega, decimal_eq_digits (by omega) (by omega), by omega⟩
  rw [hdec, priorityDigits_digits _ _ _ _ _ (by omega), hstop, Nat.zero_mul, Nat.zero_add,
    Nat.mod_eq_of_lt hlt]

/-- The priority in front of anything but a space. -/
theorem readPriority_decimal {fac sev : Nat} (hfac : fac < 24) (hsev : sev < 8) {rest : Bytes}
    (hrest : ch rest 0 ≠ 32) :
    readPriority (60 :: (decimal (fac * 8 + sev : Nat) ++ 62 :: rest)) = ⟨fac, sev, true, rest⟩ := by
  have hdiv : (fac * 8 + sev) / 8 = fac := by omega
  have hmod : (fac * 8 + sev) % 8 = sev := by omega
  rw [readPriority, ch_zero, if_pos rfl, tail_cons, priorityDigits_decimal (by omega)]
  dsimp only
  rw [ch_zero, if_pos rfl, ch_succ, if_neg hrest, hdiv, hmod, if_neg (by omega)]
  rfl

theorem readPriority_bounds (string : Bytes) : (readPriority string).fac < 24 ∧
    (readPriority string).sev < 8 := by
  rw [readPriority]
  split
  · split
    · simp
    split
    · dsimp only
      split
      · simp
      · exact ⟨by dsimp only; omega, by dsimp only; omega⟩
    · simp
  · simp

def priorityFields (fac sev : Nat) : List (CStr × NxValue) :=
  [(lit "SyslogFacilityValue", intValue fac),
   (lit "SyslogFacility", strValue (ascii ((toName syslogFacilities fac).getD ""))),
   (lit "SyslogSeverityValue", intValue sev),
   (lit "SyslogSeverity", strValue (ascii ((toName syslogSeverities sev).getD ""))),
   (lit "SeverityValue", intValue (normalizeSeverity sev).value),
   (lit "Severity", strValue (ascii (loglevelToString (normalizeSeverity sev))))]

theorem toName_facility : ∀ fac < 24, (toName syslogFacilities fac).isSome = true := by decide

theorem toName_severity : ∀ sev < 8, (toName syslogSeverities sev).isSome = true := by decide

variable {r : BsdFields}

section Parser

variable {σ : Type} (acc : Access σ) (s : σ)

theorem newString_getD {name : Option String} (h : name.isSome = true) :
    newString name = .ok (strValue (ascii (name.getD ""))) := by
  obtain ⟨str, rfl⟩ := Option.isSome_iff_exists.mp h
  rfl

theorem parseSyslogPriority_eq (string : Bytes) : parseSyslogPriority acc s string =
    setAll acc.set s (priorityFields (readPriority string).fac (readPriority string).sev) >>= fun s =>
      .ok (s, readPriority string) := by
  obtain ⟨hfac, hsev⟩ := readPriority_bounds string
  simp only [parseSyslogPriority, newString_getD (toName_facility _ hfac),
    newString_getD (toName_severity _ hsev),
    priorityFields, setAll_cons, setAll_nil, bind_assoc, ok_bind, pure_eq]

/-! ## Parts of the text -/

theorem dropWhile_word {p : UInt8 → Bool} {word rest : Bytes} (hw : ∀ c ∈ word, p c = true)
    (hr : p (ch rest 0) = false ∨ rest = []) : (word ++ rest).dropWhile p = rest := by
  rw [dropWhile_append_of_pos hw]
  rcases hr with hr | rfl
  · cases rest with
    | nil => rfl
    | cons c rest => rw [dropWhile_cons_of_neg (by simpa using hr)]
  · rfl

variable {word : Bytes}

theorem slice_word (h : word ≠ []) (rest : Bytes) : slice (some (word ++ rest)) (some rest) = some word := by
  have : 0 < word.length := length_pos_iff.mpr h
  rw [slice, if_pos (by simp; omega)]
  simp

theorem setText_eq (key : CStr) {text : Bytes} (h : text.length ≤ stringLimit) :
    setText acc s key text = acc.set s key (strValue text) := by
  have hlim : stringLimit = 1048576 := rfl
  rw [setText, cInt_of_lt (by omega), stringCreate_ok h (by simp), ok_bind, take_left' rfl]
  rfl

theorem setSlice_word (key : CStr) (h : word ≠ []) (hlen : word.length ≤ stringLimit) (rest : Bytes) :
    setSlice acc key s (some (word ++ rest)) (some rest) = acc.set s key (strValue word) := by
  rw [setSlice, slice_word h]
  exact setText_eq acc s key hlen

theorem setSlice_none (key : CStr) (start : Option Bytes) : setSlice acc key s start none = .ok s := by
  cases start <;> rfl

theorem setSyslogHostname_word (env : SyslogEnv) (h : word ≠ []) (hlen : word.length ≤ stringLimit)
    (rest : Bytes) :
    setSyslogHostname acc env s (some (word ++ rest)) (some rest) = acc.set s (lit "Hostname")
    (strValue word) := by
  rw [setSyslogHostname, slice_word h]
  exact setText_eq acc s _ hlen

/-- A message without a line feed at its end. -/
theorem setSyslogMessage_eq {msg : Bytes} (h : msg ≠ []) (hlf : 10 ∉ msg) (hlen : msg.length ≤ stringLimit) :
    setSyslogMessage acc s (some msg) (some []) = acc.set s (lit "Message") (strValue msg) := by
  have hslice : slice (some msg) (some []) = some msg := by simpa using slice_word h []
  have hlast : msg.getLast? ≠ some 10 := fun hl => hlf (mem_of_getLast? hl)
  rw [setSyslogMessage, hslice]
  dsimp only
  rw [if_neg hlast, setText_eq acc s _ hlen]

theorem endOf_length (text : Bytes) : endOf text text.length = .ok [] := by
  rw [endOf, textLen_length, ok_bind, advance, if_pos (Nat.le_refl _), drop_length]

/-! ## The text of a record -/

/-- A word of letters, digits, dots, underscores, hyphens and slashes. -/
structure HostWord (word : Bytes) : Prop where
  nonempty : word ≠ []
  chars : ∀ c ∈ word, isHostchar c = true

structure PidWord (word : Bytes) : Prop where
  nonempty : word ≠ []
  chars : ∀ c ∈ word, c ≠ 0 ∧ c ≠ 93 ∧ c ≠ 32

structure BsdFields where
  fac : Nat
  sev : Nat
  time : Int64
  host : Bytes
  app : Bytes
  pid : Option Bytes
  msg : Bytes

structure BsdFields.Valid (r : BsdFields) : Prop where
  fac : r.fac ≤ 23
  sev : r.sev ≤ 7
  host : HostWord r.host
  app : HostWord r.app
  pid : ∀ pid, r.pid = some pid → PidWord pid
  msg : r.msg ≠ []
  clean : ∀ c ∈ r.msg, c ≠ 0 ∧ c ≠ 10 ∧ c ≠ 13

def pidPart : Option Bytes → Bytes
  | none => []
  | some pid => 91 :: (pid ++ [93])

def BsdFields.rest (r : BsdFields) : Bytes :=
  32 :: (r.host ++ 32 :: (r.app ++ (pidPart r.pid ++ 58 :: 32 :: r.msg)))

def BsdFields.text (r : BsdFields) (date : Bytes) : Bytes :=
  60 :: (decimal (r.fac * 8 + r.sev : Nat) ++ 62 :: (date ++ r.rest))

def BsdFields.assignments (r : BsdFields) (date : Int64) : List (CStr × NxValue) :=
  priorityFields r.fac r.sev ++
    ([(lit "Hostname", strValue r.host), (lit "EventTime", dateValue date),
      (lit "SourceName", strValue r.app)] ++
      (r.pid.toList.map (lit "ProcessID", strValue ·) ++ [(lit "Message", strValue r.msg)]))

theorem skipSpace_word (h : HostWord word) (rest : Bytes) : skipSpace (32 :: (word ++ rest)) =
    word ++ rest := by
  obtain ⟨c, w, rfl⟩ := exists_cons_of_ne_nil h.nonempty
  have hc : c ≠ 32 := by
    rintro rfl
    exact absurd (h.chars 32 mem_cons_self) (by decide)
  simp [skipSpace, hc]

theorem ch_word (h : HostWord word) (rest : Bytes) : isHostchar (ch (word ++ rest) 0) = true := by
  obtain ⟨c, w, rfl⟩ := exists_cons_of_ne_nil h.nonempty
  exact h.chars c mem_cons_self

/-- Host and tag, in front of a byte that is in neither. -/
theorem bsdHost_words {host app rest : Bytes} (hh : HostWord host) (ha : HostWord app)
    (hr : isHostchar (ch rest 0) = false) :
    bsdHost (32 :: (host ++ 32 :: (app ++ rest))) =
      ⟨rest, some (host ++ 32 :: (app ++ rest)), some (32 :: (app ++ rest)), some (app ++ rest),
        none, none, none,
        some rest⟩ := by
  have h1 : (host ++ 32 :: (app ++ rest)).dropWhile isHostchar = 32 :: (app ++ rest) :=
    dropWhile_word hh.chars (.inl (by rw [ch_zero]; decide))
  have h2 : (app ++ rest).dropWhile isHostchar = rest := dropWhile_word ha.chars (.inl hr)
  rw [bsdHost, skipSpace_word hh]
  dsimp only
  rw [ch_word hh, h1, ch_zero, skipSpace_word ha, h2]
  simp

theorem not_bracket_of_hostWord (h : HostWord word) (rest : Bytes) : ch (word ++ rest) 0 ≠ 91 := by
  intro h91
  have := ch_word h rest
  rw [h91] at this
  exact absurd this (by decide)

theorem bsdTag_colon {app msg : Bytes} (ha : HostWord app) (h e : Option Bytes) (m : Option Bytes) :
    bsdTag ⟨58 :: 32 :: msg, h, e, some (app ++ 58 :: 32 :: msg), none, none, none, m⟩ =
      ⟨msg, h, e, some (app ++ 58 :: 32 :: msg), some (58 :: 32 :: msg), none, none, some msg⟩ := by
  rw [bsdTag]
  dsimp only
  rw [if_neg (not_bracket_of_hostWord ha _), ch_zero, if_neg (by decide), if_pos rfl, tail_cons,
    skipOneSpace, ch_zero, if_pos rfl, tail_cons]

theorem bsdTag_pid {app pid msg : Bytes} (ha : HostWord app) (hp : PidWord pid) (h e : Option Bytes)
    (m : Option Bytes) :
    bsdTag ⟨91 :: (pid ++ 93 :: 58 :: 32 :: msg), h, e,
      some (app ++ 91 :: (pid ++ 93 :: 58 :: 32 :: msg)), none, none,
        none, m⟩ =
      ⟨msg, h, e, some (app ++ 91 :: (pid ++ 93 :: 58 :: 32 :: msg)),
        some (91 :: (pid ++ 93 :: 58 :: 32 :: msg)),
        some (pid ++ 93 :: 58 :: 32 :: msg), some (93 :: 58 :: 32 :: msg), some msg⟩ := by
  have hq : (pid ++ 93 :: 58 :: 32 :: msg).dropWhile (fun c => decide (c ≠ 0 ∧ c ≠ 93 ∧ c ≠ 32)) =
      93 :: 58 :: 32 :: msg :=
    dropWhile_word (fun c hc => by simpa using hp.chars c hc) (.inl (by simp))
  rw [bsdTag]
  dsimp only
  rw [if_neg (not_bracket_of_hostWord ha _), ch_zero, if_pos rfl, bsdPid]
  rw [tail_cons, hq]
  simp [skipOneSpace]

theorem bsdFields_eq (env : SyslogEnv) (hr : r.Valid) (hlen : r.rest.length < stringLimit)
    {time date : Int64} (hfix : dateFixYear env.date time = .ok date) :
    bsdFields acc env s (bsdTag (bsdHost r.rest)) (some time) [] =
      setAll acc.set s ([(lit "Hostname", strValue r.host), (lit "EventTime", dateValue date),
        (lit "SourceName", strValue r.app)] ++
        (r.pid.toList.map (lit "ProcessID", strValue ·) ++ [(lit "Message", strValue r.msg)])) := by
  obtain ⟨-, -, hhost, happ, hpid, hmsg, hclean⟩ := hr
  have hlf : 10 ∉ r.msg := fun h => (hclean 10 h).2.1 rfl
  simp only [BsdFields.rest, length_cons, length_append] at hlen
  have hset := fun s => setSyslogHostname_word acc s env hhost.nonempty (by omega)
  cases hp : r.pid with
  | none =>
    rw [BsdFields.rest, hp, pidPart, nil_append, bsdHost_words hhost happ (by rw [ch_zero]; decide),
      bsdTag_colon happ, bsdFields]
    simp only [hset, bsdTimestamp, hfix, ok_bind, setSyslogTimestamp, setSyslogAppname, setSyslogProcid,
      setSlice_word acc _ _ happ.nonempty (show r.app.length ≤ stringLimit by omega), setSlice_none,
      setSyslogMessage_eq acc _ hmsg hlf (show r.msg.length ≤ stringLimit by omega)]
    simp [bind_ok]
  | some pid =>
    have hword := hpid pid hp
    rw [hp, pidPart, length_cons, length_append] at hlen
    rw [BsdFields.rest, hp, pidPart, cons_append, append_assoc, singleton_append,
      bsdHost_words hhost happ (by rw [ch_zero]; decide), bsdTag_pid happ hword, bsdFields]
    simp only [hset, bsdTimestamp, hfix, ok_bind, setSyslogTimestamp, setSyslogAppname, setSyslogProcid,
      setSlice_word acc _ _ happ.nonempty (show r.app.length ≤ stringLimit by omega),
      setSlice_word acc _ _ hword.nonempty (show pid.length ≤ stringLimit by omega),
      setSyslogMessage_eq acc _ hmsg hlf (show r.msg.length ≤ stringLimit by omega)]
    simp [bind_ok]

/-- What the parser sets, and in which order. -/
theorem syslogParseRfc3164_text (env : SyslogEnv) (hr : r.Valid) {e now : TimeExp} (he : e.InRange)
    (hnow : env.date.expGmt env.date.now = some now) {tval date : Int64}
    (hmk : env.date.mktime { e with tm_usec := 0, tm_year := now.tm_year, tm_gmtoff := 0 } = some tval)
    (hfix : dateFixYear env.date (tval * 1000000) = .ok date)
    (hlen : (r.text (bsdDate e)).length < stringLimit) :
    syslogParseRfc3164 acc env s (r.text (bsdDate e)) (r.text (bsdDate e)).length =
      setAll acc.set s (r.assignments date) >>= fun s => .ok (s, true) := by
  have hdate : ch (bsdDate e ++ r.rest) 0 ≠ 32 := by
    obtain ⟨a, b, c, hm, ha, -⟩ := month_spec e.tm_mon.toNat (by have := he.mon; omega)
    have htext : ch (bsdDate e ++ r.rest) 0 = a := by simp [bsdDate, hm]
    rw [htext]
    rintro rfl
    exact absurd ha (by decide)
  have hpri : readPriority (r.text (bsdDate e)) = ⟨r.fac, r.sev, true, bsdDate e ++ r.rest⟩ :=
    readPriority_decimal (by have := hr.fac; omega) (by have := hr.sev; omega) hdate
  have hrest : r.rest.length < stringLimit := by
    simp only [BsdFields.text, length_cons, length_append] at hlen
    omega
  have hparse : ∀ dateend, dateParse env.date (bsdDate e ++ r.rest) dateend =
      .ok ⟨some (tval * 1000000), some r.rest⟩ :=
    dateParse_bsdDate he hnow hmk (.inr rfl)
  rw [syslogParseRfc3164, endOf_length, ok_bind, parseSyslogPriority_eq, hpri,
    BsdFields.assignments, setAll_append, bind_assoc, bind_assoc]
  dsimp only
  congr 1; funext s
  rw [ok_bind]
  rw [hparse, ok_bind]
  dsimp only
  rw [bsdFields_eq acc s env hr hrest hfix]
  rfl

end Parser

/-! ## The round trip -/

structure BsdRecord (ld : Logdata) (r : BsdFields) : Prop where
  fac : view ld (lit "SyslogFacilityValue") = some (intValue r.fac)
  sev : view ld (lit "SyslogSeverityValue") = some (intValue r.sev)
  time : view ld (lit "EventTime") = some (dateValue r.time)
  host : strOf ld (lit "Hostname") = some r.host
  app : strOf ld (lit "SourceName") = some r.app
  nopid : r.pid = none → view ld (lit "ProcessID") = none
  pid : ∀ pid, r.pid = some pid → strOf ld (lit "ProcessID") = some pid
  msg : strOf ld (lit "Message") = some r.msg

/-- The conversions of local time succeed: of the time of the record, of the date that
is read back in the current year, and of that time again. -/
structure LocalTime (env : DateEnv) (time : Int64) (e now : TimeExp) (tval : Int64) : Prop where
  lt : env.expLt time = some e
  range : e.InRange
  year : env.expGmt env.now = some now
  mktime : env.mktime { e with tm_usec := 0, tm_year := now.tm_year, tm_gmtoff := 0 } = some tval
  again : (env.expLt (tval * 1000000)).isSome

theorem dateFixYear_returns {env : DateEnv} {t : Int64} (h : (env.expLt t).isSome) : ∃ date,
    dateFixYear env t = .ok date := by
  obtain ⟨e, he⟩ := Option.isSome_iff_exists.mp h
  unfold dateFixYear
  split
  · exact ⟨_, rfl⟩
  split
  · split
    · exact ⟨_, rfl⟩
    have hiso : dateToIso env t = some ((isoText 32 e).take 19) := by rw [dateToIso, he]; rfl
    rw [hiso]
    dsimp only
    obtain ⟨r, hr⟩ := dateParseIso_returns env _ none
    rw [hr, ok_bind]
    exact ⟨_, rfl⟩
  · exact ⟨_, rfl⟩

theorem view_of_strOf {ld : Logdata} {k : CStr} {buf : Bytes} (h : strOf ld k = some buf) :
    ∃ addr, view ld k = some ⟨TRUE, .string (some ⟨addr, buf⟩)⟩ := by
  obtain ⟨str, hstr, rfl⟩ := Option.map_eq_some_iff.mp h
  obtain ⟨v, hv, hs⟩ := Option.bind_eq_some_iff.mp hstr
  obtain ⟨d, data⟩ := v
  obtain ⟨hd, hdata⟩ := string?_some hs
  dsimp only at hd hdata
  rw [hd, hdata] at hv
  exact ⟨str.addr, hv⟩

theorem map_eq_self {f : UInt8 → UInt8} {bs : Bytes} (h : ∀ c ∈ bs, f c = c) : bs.map f = bs :=
  (map_congr_left h).trans (map_id' bs)

theorem underscore_hostchar {c : UInt8} (h : isHostchar c = true) : underscore c = c := by
  rw [underscore, if_neg]
  rintro (rfl | rfl) <;> exact absurd h (by decide)

theorem unbreak_clean {c : UInt8} (h10 : c ≠ 10) (h13 : c ≠ 13) : unbreak c = c := by
  simp [unbreak, h10, h13]

def rawText (ld : Logdata) : Option Bytes := ld.raw_event.bind fun addr => (deref ld addr).map NxString.buf

theorem rawText_setString {s : Store} (hs : Good s) {addr : Nat} (hraw : s.ld.raw_event = some addr)
    (buf : Bytes) :
    rawText (setString s.ld addr buf) = some buf := by
  obtain ⟨t, ht, rfl⟩ := deref_raw hs hraw buf
  have hptr : (setString s.ld addr t.buf).raw_event = some addr := hraw
  rw [rawText, hptr, Option.bind_some, ht, Option.map_some]

/-- The writer writes the text of the fields. -/
theorem logdataToSyslogRfc3164_text {env : SyslogEnv} {s : Store} (hs : Good s) {addr : Nat}
    (hraw : s.ld.raw_event = some addr) (hr : r.Valid) (hrec : BsdRecord s.ld r) {e : TimeExp}
    (he : env.date.expLt r.time = some e) (hrange : e.InRange)
    (hlen : (r.text (bsdDate e)).length < stringLimit) :
    logdataToSyslogRfc3164 env s.ld = .ok (setString s.ld addr (r.text (bsdDate e))) := by
  have hlim : stringLimit = 1048576 := rfl
  have hlen' := hlen
  simp only [BsdFields.text, BsdFields.rest, length_cons, length_append] at hlen'
  have hmsg : messageText s.ld = .ok r.msg := by
    rw [messageText, strField_eq hs, hrec.msg, ok_bind]
  have htime : eventTime env s.ld = r.time := by
    rw [eventTime, hrec.time, dateValue]
    exact if_pos rfl
  have hhost : hostText env s.ld = r.host := by
    rw [hostText, hrec.host, Option.getD_some, appended_of_lt (by omega)]
  have hpid : pidText s.ld = pidPart r.pid := by
    cases hp : r.pid with
    | none => rw [pidText, hrec.nopid hp, pidPart]
    | some pid =>
      rw [hp, pidPart, length_cons, length_append] at hlen'
      obtain ⟨a, ha⟩ := view_of_strOf (hrec.pid pid hp)
      rw [pidText, ha]
      dsimp only
      rw [if_pos rfl, appended_of_lt (by omega), pidPart]
  have htag : tagText s.ld = 32 :: (r.app ++ (pidPart r.pid ++ [58])) := by
    obtain ⟨c, w, hcons⟩ := exists_cons_of_ne_nil hr.app.nonempty
    have happ := hrec.app
    rw [tagText, happ, hcons]
    dsimp only
    rw [← hcons, appended_of_lt (by omega), map_eq_self fun c hc =>
      underscore_hostchar (hr.app.chars c hc), hpid]
  have hbreak : (appended r.msg).map unbreak = r.msg := by
    rw [appended_of_lt (by omega)]
    exact map_eq_self fun c hc => unbreak_clean (hr.clean c hc).2.1 (hr.clean c hc).2.2
  rw [logdataToSyslogRfc3164_eq hs hraw, hmsg, ok_bind, syslogGetPriority_eq hrec.fac hrec.sev,
    ok_bind, htime, dateToRfc3164_eq he hrange, ok_bind, writtenDate, ok_bind, hhost, htag, hbreak,
    priText, priority_toInt _ (by have := hr.fac; omega) _ (by have := hr.sev; omega)]
  have htext : (60 :: (decimal (r.fac * 8 + r.sev : Nat) ++ 62 :: ([] ++ (bsdDate e ++ [32])))) ++
      (r.host ++ (32 :: (r.app ++ (pidPart r.pid ++ [58])) ++ 32 :: r.msg)) = r.text (bsdDate e) := by
    simp [BsdFields.text, BsdFields.rest]
  rw [appendCut_of_lt (by rw [← length_append, htext]; exact hlen), htext]

@[simp] theorem valueFree_strValue (buf : Bytes) : valueFree (strValue buf) = .ok () := rfl

@[simp] theorem valueFree_intValue (n : Nat) : valueFree (intValue n) = .ok () := rfl

@[simp] theorem valueFree_dateValue (t : Int64) : valueFree (dateValue t) = .ok () := rfl

theorem BsdFields.assignments_keys (r : BsdFields) (date : Int64) :
    (r.assignments date).map Prod.fst = ["SyslogFacilityValue", "SyslogFacility",
      "SyslogSeverityValue", "SyslogSeverity", "SeverityValue", "Severity",
      "Hostname", "EventTime", "SourceName"].map lit ++
      ((if r.pid.isSome then ["ProcessID", "Message"] else ["Message"]).map lit) := by
  cases hp : r.pid <;> simp [assignments, hp, priorityFields]

theorem BsdFields.assignments_distinct (r : BsdFields) (date : Int64) :
    (r.assignments date).Pairwise fun a b => ¬ strcasecmp a.1 b.1 := by
  have hkeys : ((r.assignments date).map Prod.fst).Pairwise fun a b => ¬ strcasecmp a b := by
    rw [assignments_keys]
    cases r.pid.isSome <;> decide
  exact pairwise_map.mp hkeys

theorem BsdFields.assignments_ok (r : BsdFields) (date : Int64) :
    ∀ a ∈ r.assignments date, a.1 ≠ rawEvent ∧ valueFree a.2 = .ok () := by
  have hkeys : ∀ k ∈ (r.assignments date).map Prod.fst, k ≠ rawEvent := by
    rw [assignments_keys]
    cases r.pid.isSome <;> decide
  have hvalues : ∀ a ∈ r.assignments date, valueFree a.2 = .ok () := by
    cases hp : r.pid <;> simp [assignments, hp, priorityFields]
  exact fun a ha => ⟨hkeys a.1 (mem_map_of_mem ha), hvalues a ha⟩

def storeAccess : Access Store := ⟨storeSet, fun s k => view s.ld k⟩

/-- The parser returns TRUE and sets the priority, the host, the time in the current year,
the tag, the process ID if there was one, and the message, each to what it was. In a
record with different names each of these fields ends up so, and the others stay as they
are. -/
theorem rfc3164_roundtrip (env : SyslogEnv) (s : Store) (hs : Good s) (r : BsdFields) (hr : r.Valid)
    (hrec : BsdRecord s.ld r) (e now : TimeExp) (tval : Int64) (hlocal : LocalTime env.date r.time e now tval)
    (hlen : (r.text (bsdDate e)).length < stringLimit) :
    ∃ ld text date, logdataToSyslogRfc3164 env s.ld = .ok ld ∧ rawText ld = some text ∧
      (∀ (σ : Type) (acc : Access σ) (t : σ), syslogParseRfc3164 acc env t text text.length =
        setAll acc.set t (r.assignments date) >>= fun t' => .ok (t', true)) ∧
      ∀ t : Store, Usable t.ld → ∃ t', syslogParseRfc3164 storeAccess env t text text.length =
        .ok (t', true) ∧ Assigned t.ld (r.assignments date) t'.ld := by
  obtain ⟨hlt, hrange, hyear, hmk, hagain⟩ := hlocal
  obtain ⟨date, hfix⟩ := dateFixYear_returns hagain
  obtain ⟨addr, hraw⟩ : ∃ addr, s.ld.raw_event = some addr := by
    obtain ⟨-, f, t, -, -, h⟩ := hs
    exact ⟨_, h⟩
  have hparse : ∀ (σ : Type) (acc : Access σ) (t : σ),
      syslogParseRfc3164 acc env t (r.text (bsdDate e)) (r.text (bsdDate e)).length =
        setAll acc.set t (r.assignments date) >>= fun t' => .ok (t', true) :=
    fun σ acc t => syslogParseRfc3164_text acc t env hr hrange hyear hmk hfix hlen
  refine ⟨_, r.text (bsdDate e), date, logdataToSyslogRfc3164_text hs hraw hr hrec hlt hrange hlen,
    rawText_setString hs hraw _, hparse, ?_⟩
  intro t ht
  obtain ⟨t', hset, hassigned⟩ := setAll_store ht (r.assignments_distinct date) (r.assignments_ok date)
  refine ⟨t', ?_, hassigned⟩
  rw [hparse]
  show setAll storeSet t _ >>= _ = _
  rw [hset, ok_bind]

/-- A clock that stands at 2011-11-06 08:49:37 in the zone UTC. No other time is converted. -/
def stoppedClock : DateEnv :=
  let now : Int64 := 1320569377000000
  let e : TimeExp := ⟨0, 37, 49, 8, 6, 10, 111, 0⟩
  let exp := fun t => if t = now then some e else none
  ⟨now, exp, exp, fun x => if x = e then some now else none,
    fun x => if x = e then some 1320569377 else none⟩

def sampleEnv : SyslogEnv := ⟨stoppedClock, ascii "localhost", ⟨fun _ => Res.fault, fun _ => Res.fault⟩⟩

/-- A process ID with a bracket, and a message that starts with a space and another tag. -/
def bsdSample : BsdFields :=
  ⟨23, 7, 1320569377000000, ascii "a.b", ascii "su", some (ascii "1["), ascii " x[2]: y"⟩

def bsdSampleFields : List (CStr × NxValue) :=
  [(lit "SyslogFacilityValue", intValue 23), (lit "SyslogSeverityValue", intValue 7),
   (lit "EventTime", dateValue 1320569377000000), (lit "Hostname", strValue (ascii "a.b")),
   (lit "SourceName", strValue (ascii "su")),
   (lit "ProcessID", strValue (ascii "1[")), (lit "Message", strValue (ascii " x[2]: y"))]

theorem rfc3164_roundtrip_tag :
    Good (filled bsdSampleFields) ∧ bsdSample.Valid ∧
    BsdRecord (filled bsdSampleFields).ld bsdSample ∧ ∃ ld text date,
    logdataToSyslogRfc3164 sampleEnv (filled bsdSampleFields).ld = .ok ld ∧ rawText ld = some text ∧
      syslogParseRfc3164 ⟨expect, fun _ _ => none⟩ sampleEnv
        (bsdSample.assignments date) text text.length = .ok ([], true) := by
  have hgood : Good (filled bsdSampleFields) := filled_good (by decide)
  have hvalid : bsdSample.Valid := by
    refine ⟨by decide, by decide, ⟨by decide, by decide +kernel⟩,
      ⟨by decide, by decide +kernel⟩, ?_, by decide, by decide +kernel⟩
    intro pid hpid
    cases hpid
    exact ⟨by decide, by decide +kernel⟩
  have hrec : BsdRecord (filled bsdSampleFields).ld bsdSample :=
    ⟨by decide, by decide, by decide, by decide, by decide, by decide, by simp [bsdSample]; decide, by decide⟩
  have hrange : TimeExp.InRange ⟨0, 37, 49, 8, 6, 10, 111, 0⟩ := by constructor <;> decide
  obtain ⟨ld, text, date, hwrite, hraw, hparse, -⟩ := rfc3164_roundtrip sampleEnv _ hgood bsdSample hvalid hrec
    ⟨0, 37, 49, 8, 6, 10, 111, 0⟩ ⟨0, 37, 49, 8, 6, 10, 111, 0⟩ 1320569377
    ⟨rfl, hrange, rfl, rfl, rfl⟩ (by decide)
  refine ⟨hgood, hvalid, hrec, ld, text, date, hwrite, hraw, ?_⟩
  rw [hparse]
  show setAll expect _ _ >>= _ = _
  rw [setAll_expect]
  rfl

end Nxlog.L3
