import Nxlog.L3Protocol.Strings

/-!
# Dates (`common/date.c`)

The writers fill in a broken-down time; the parsers compare the text with masks and
pick the digits out of fixed places. The conversions between times and broken-down
times are those of APR and of the C library, so they are parameters (`DateEnv`).

A pointer into a string is the list of the bytes from it to the end; what is read
at the end is the terminating NUL (`ch`). A parser gets the pointer `dateend` of its
caller and returns it as it leaves it, also where it fails. Some formats may end at the
NUL but leave `dateend` one byte behind it, where nothing may be read (`none`).

* `dateToRfc3164`, `dateToRfc5424`, `dateToIso`: the writers.
* `dateParse`: the formats in the order in which they are tried.
* `padded_eq_digits`, `decimal_eq_digits`: the digits of a number, whichever way it is
  written.
* `dateParse_bsdDate`, `dateParseIso_ietfDate`: the parsers read back what the writers
  wrote, with any text behind it.
* `iso_roundtrip_iff`: which times are read back as they were, in any zone.
* `timestamp_exact_iff`: a timestamp may be empty, and it wraps around.
-/
namespace Nxlog.L3
open L1 L2 Res List

/-- `apr_time_exp_t`, as far as it is used; `struct tm` has the same members without
`tm_usec`. -/
structure TimeExp where
  tm_usec : Int
  tm_sec : Int
  tm_min : Int
  tm_hour : Int
  tm_mday : Int
  tm_mon : Int
  tm_year : Int
  tm_gmtoff : Int
  deriving DecidableEq

/-- The clock, `apr_time_exp_gmt`, `apr_time_exp_lt`, `apr_time_exp_gmt_get` and
`mktime`; `none` is a failure. -/
structure DateEnv where
  now : Int64
  expGmt : Int64 → Option TimeExp
  expLt : Int64 → Option TimeExp
  expGmtGet : TimeExp → Option Int64
  mktime : TimeExp → Option Int64

variable (p : Bytes)

/-- `p[i]`. -/
def ch (i : Nat) : UInt8 := p.getD i 0

@[simp] theorem ch_nil (i : Nat) : ch [] i = 0 := rfl

@[simp] theorem ch_zero (c : UInt8) (p : Bytes) : ch (c :: p) 0 = c := rfl

@[simp] theorem ch_succ (c : UInt8) (p : Bytes) (i : Nat) : ch (c :: p) (i + 1) = ch p i := rfl

/-- `p + n`; `none` if that is behind the terminating NUL. -/
def advance (n : Nat) : Option Bytes := if n ≤ p.length then some (p.drop n) else none

/-- `p[i] - '0'`. -/
def digitAt (i : Nat) : Int := ((ch p i).toNat : Int) - 48

def twoAt (i : Nat) : Int := digitAt p i * 10 + digitAt p (i + 1)

def fourAt (i : Nat) : Int :=
  digitAt p i * 1000 + digitAt p (i + 1) * 100 + digitAt p (i + 2) * 10 + digitAt p (i + 3)

def isDigit (c : UInt8) : Bool := 48 ≤ c ∧ c ≤ 57

def isUpper (c : UInt8) : Bool := 65 ≤ c ∧ c ≤ 90

def isLower (c : UInt8) : Bool := 97 ≤ c ∧ c ≤ 122

def isXdigit (c : UInt8) : Bool := isDigit c ∨ (65 ≤ c ∧ c ≤ 70) ∨ (97 ≤ c ∧ c ≤ 102)

def isSpace (c : UInt8) : Bool := c = 32 ∨ (9 ≤ c ∧ c ≤ 13)

/-! ## The writers -/

/-- `%0<width>d`. -/
def padded (width : Nat) (n : Int) : Bytes :=
  let digits := decimal n.natAbs
  let sign : Bytes := if n < 0 then [45] else []
  sign ++ List.replicate (width - digits.length - sign.length) 48 ++ digits

def months : List Bytes :=
  ["Jan", "Feb", "Mar", "Apr", "May", "Jun", "Jul", "Aug", "Sep", "Oct", "Nov", "Dec"].map ascii

/-- `(char) (n + '0')`. -/
def digitByte (n : Int) : UInt8 := UInt8.ofNat ((n + 48) % 256).toNat

def twoDigits (n : Int) : Bytes := [digitByte (n.tdiv 10), digitByte (n.tmod 10)]

variable (env : DateEnv)

/-- mirrors common/date.c:1670-1730 (`nx_date_to_rfc3164`); `none` if the time cannot be
converted, which leaves the buffer of the caller as it was. -/
def dateToRfc3164 (timeval : Int64) : Res (Option Bytes) :=
  match env.expLt timeval with
  | none => .ok none
  | some ds =>
    if 12 ≤ ds.tm_mon then .error (.assert "ds.tm_mon < 12")
    else if ds.tm_mon < 0 then Res.fault
    else
      match months[ds.tm_mon.toNat]? with
      | none => Res.fault
      | some mon =>
        let day := if 10 ≤ ds.tm_mday then twoDigits ds.tm_mday else [32, digitByte ds.tm_mday]
        .ok (some (mon ++ 32 :: (day ++ 32 :: (twoDigits ds.tm_hour ++ 58 :: (twoDigits ds.tm_min ++ 58 ::
          twoDigits ds.tm_sec)))))

/-- A year that APR counts from 1900. -/
def fullYear (tm_year : Int) : Int := if tm_year < 1900 then tm_year + 1900 else tm_year

def isoText (sep : UInt8) (exp : TimeExp) : Bytes :=
  decimal (fullYear exp.tm_year) ++ 45 :: (padded 2 (exp.tm_mon + 1) ++ 45 :: (padded 2 exp.tm_mday ++ sep ::
    (padded 2 exp.tm_hour ++ 58 :: (padded 2 exp.tm_min ++ 58 :: padded 2 exp.tm_sec))))

/-- mirrors common/date.c:1837-1859 (`nx_date_to_iso`). -/
def dateToIso (t : Int64) : Option Bytes :=
  (env.expLt t).map fun exp => (isoText 32 exp).take 19

/-- `%+03d`. -/
def signed (n : Int) : Bytes := if n < 0 then padded 3 n else 43 :: padded 2 n

/-- mirrors common/date.c:1867-1911 (`nx_date_to_rfc5424`). -/
def dateToRfc5424 (gmt : Bool) (t : Int64) : Option Bytes :=
  if gmt then
    (env.expGmt t).map fun exp => (isoText 84 exp ++ 46 :: (padded 6 exp.tm_usec ++ [90])).take 29
  else
    (env.expLt t).map fun exp =>
      (isoText 84 exp ++ 46 :: (padded 6 exp.tm_usec ++ signed (exp.tm_gmtoff.tdiv 3600) ++ 58 ::
        padded 2 (exp.tm_gmtoff.natAbs / 60 % 60 : Nat))).take 32

/-! ## The parsers -/

/-- mirrors common/date.c:150-214 (`_date_checkmask`). -/
def dateCheckmask : Bytes → Bytes → Bool
  | data, [] => ch data 0 = 0
  | data, m :: mask =>
    let d := ch data 0
    if m = 42 then true                                                -- *
    else if m = 64 then isUpper d && dateCheckmask data.tail mask      -- @
    else if m = 36 then isLower d && dateCheckmask data.tail mask      -- $
    else if m = 35 then isDigit d && dateCheckmask data.tail mask      -- #
    else if m = 38 then isXdigit d && dateCheckmask data.tail mask     -- &
    else if m = 126 then (d = 32 || isDigit d) && dateCheckmask data.tail mask   -- ~
    else if m = 37 then                                                -- %
      if d = 0 then true else d = 32 && dateCheckmask data.tail mask
    else m = d && dateCheckmask data.tail mask

/-- The status of a parser and what it leaves in `*dateend`. -/
structure Parsed where
  time : Option Int64
  dateend : Option Bytes

variable (date : Bytes) (dateend : Option Bytes)

def badDate : Res Parsed := .ok ⟨none, dateend⟩

/-- mirrors common/date.c:243-250 (`_get_curr_year`). -/
def getCurrYear : Res Int :=
  match env.expGmt env.now with
  | none => .error (.assert "apr_time_exp_gmt(&exp, apr_time_now()) == APR_SUCCESS")
  | some exp => .ok exp.tm_year

def monthAt : Option Nat := months.findIdx? (decide <| · = [ch p 0, ch p 1, ch p 2])

def dateChecks (ds : TimeExp) : Bool :=
  0 < ds.tm_mday ∧ ds.tm_mday ≤ 31 ∧ ds.tm_hour ≤ 23 ∧ ds.tm_min ≤ 59 ∧ ds.tm_sec ≤ 61 ∧
    ¬ (ds.tm_mday = 31 ∧ (ds.tm_mon = 3 ∨ ds.tm_mon = 5 ∨ ds.tm_mon = 8 ∨ ds.tm_mon = 10))

/-- `mktime` and `apr_time_ansi_put`; the end is `dateend'` if the time can be converted. -/
def localTime (ds : TimeExp) (usec : Int) (dateend dateend' : Option Bytes) : Res Parsed :=
  match env.mktime ds with
  | none => badDate dateend
  | some tval => .ok ⟨some (tval * 1000000 + Int64.ofInt usec), dateend'⟩

def skipWhite : Bytes := if isDigit (ch date 0) then date else date.dropWhile isSpace

/-- The places of `"@$$ ## ##:##:##%*"` and its variants: the day and the offset of the
time. -/
def rfc3164Places : Option (Int × Nat) :=
  if dateCheckmask date (ascii "@$$ ## ##:##:##%*") then some (twoAt date 4, 7)
  else if dateCheckmask date (ascii "@$$  # ##:##:##%*") then some (digitAt date 5, 7)
  else if dateCheckmask date (ascii "@$$ # ##:##:##%*") then some (digitAt date 4, 6)
  else none

/-- mirrors common/date.c:262-390 (`nx_date_parse_rfc3164`). The end is taken to be 15
bytes on, whatever the format. -/
def dateParseRfc3164 : Res Parsed :=
  let date := skipWhite date
  if ch date 0 = 0 ∨ ch date 1 = 0 ∨ ch date 2 = 0 then badDate dateend
  else
    match monthAt date with
    | none => badDate dateend
    | some mon =>
      match rfc3164Places date with
      | none => badDate dateend
      | some (mday, tim) =>
        let ds : TimeExp := ⟨0, twoAt date (tim + 6), twoAt date (tim + 3), twoAt date tim, mday, mon, 0, 0⟩
        if dateChecks ds then do
          let year ← getCurrYear env
          localTime env { ds with tm_year := year } 0 dateend (advance date 15)
        else badDate dateend

/-- The offsets of the named zones, in minutes. -/
def zoneOffsets : List (Bytes × Int) :=
  [("UTC", 0), ("GMT", 0), ("MET", 60), ("CET", 60), ("EET", 120), ("WST", 480), ("JST", 540),
   ("NZT", 720), ("AST", -240), ("ADT", -180), ("EST", -300), ("EDT", -240), ("CST", -360), ("CDT",
   -300), ("MST", -420), ("MDT", -360), ("PST", -480), ("PDT", -420)].map fun z => (ascii z.1, z.2)

/-- mirrors common/date.c:58-134 (`get_tz_offset`): the length and the offset in minutes. -/
def getTzOffset (zone : Bytes) : Option (Nat × Int) :=
  if ch zone 0 = 43 ∨ ch zone 0 = 45 then
    if isDigit (ch zone 1) ∧ isDigit (ch zone 2) then
      let i := if ch zone 3 = 58 then 4 else 3
      if isDigit (ch zone i) ∧ isDigit (ch zone (i + 1)) then
        let offset := twoAt zone 1 * 60 + twoAt zone i
        some (i + 2, if ch zone 0 = 45 then -offset else offset)
      else none
    else none
  else
    (zoneOffsets.find? fun z => (zone.take 3).map toLower = z.1.map toLower).map fun z => (3, z.2)

/-- What a mask of `nx_date_parse_rfc1123` says: the year (`none` if it is before 1900),
the day, the place of the month, the time of day, the place of the zone and the end. -/
structure Rfc1123 where
  year : Option Int
  mday : Int
  mon : Nat
  hour : Int
  min : Int
  sec : Int
  tz : Option Nat
  dateend : Option Nat

/-- Four digits of a year from 1900 on, as `tm_year`. -/
def year4 (i : Nat) : Option Int :=
  let century := (twoAt p i - 19) * 100
  if century < 0 then none else some (century + twoAt p (i + 2))

/-- Two digits of a year from 1970 to 2069, as `tm_year`. -/
def year2 (i : Nat) : Option Int := some (if twoAt p i < 70 then twoAt p i + 100 else twoAt p i)

/-- common/date.c:463-719: the formats of `nx_date_parse_rfc1123`. -/
def rfc1123Places : Option Rfc1123 :=
  let std (tim : Nat) (year : Option Int) (mday : Int) (mon : Nat) (tz dateend : Option Nat) : Rfc1123 :=
    ⟨year, mday, mon, twoAt date tim, twoAt date (tim + 3), twoAt date (tim + 6), tz, dateend⟩
  let is (mask : String) : Bool := dateCheckmask date (ascii mask)
  if is "## @$$ #### ##:##:## *" then some (std 12 (year4 date 7) (twoAt date 0) 3 (some 21) none)
  else if is "##-@$$-## ##:##:## *" then some (std 10 (year2 date 7) (twoAt date 0) 3 (some 19) none)
  else if is "@$$ ~# ##:##:## ####%*" then
    let tens := if ch date 4 = 32 then 0 else digitAt date 4 * 10
    some (std 7 (year4 date 16) (tens + digitAt date 5) 0 none (some 20))
  else if is "# @$$ #### ##:##:## *" then some (std 11 (year4 date 6) (digitAt date 0) 2 (some 20) none)
  else if is "## @$$ ## ##:##:## *" then some (std 10 (year2 date 7) (twoAt date 0) 3 (some 19) none)
  else if is " # @$$ ## ##:##:## *" then some (std 10 (year2 date 7) (digitAt date 1) 3 (some 19) none)
  else if is "# @$$ ## ##:##:## *" then some (std 9 (year2 date 6) (digitAt date 0) 2 (some 18) none)
  else if is "## @$$ ## ##:##%*" then
    some ⟨year2 date 7, twoAt date 0, 3, twoAt date 10, twoAt date 13, 0, none, some 16⟩
  else if is "# @$$ ## ##:##%*" then
    some ⟨year2 date 6, digitAt date 0, 2, twoAt date 9, twoAt date 12, 0, none, some 15⟩
  else if is "## @$$ ## #:##:## *" then
    some ⟨year2 date 7, twoAt date 0, 3, digitAt date 10, twoAt date 12, twoAt date 15, some 18, none⟩
  else if is "# @$$ ## #:##:## *" then
    some ⟨year2 date 6, digitAt date 0, 2, digitAt date 9, twoAt date 11, twoAt date 14, some 17, none⟩
  else if is " # @$$ #### ##:##:## *" then some (std 12 (year4 date 7) (digitAt date 1) 3 (some 21) none)
  else if is "##-@$$-#### ##:##:## *" then some (std 12 (year4 date 7) (twoAt date 0) 3 (some 21) none)
  else none

/-- common/date.c:754-765: February 29 of a year that is not a leap year. -/
def badFebruary (tm_year mday : Int) : Bool :=
  29 < mday ∨ (mday = 29 ∧ (tm_year % 4 ≠ 0 ∨ (tm_year % 100 = 0 ∧ tm_year % 400 ≠ 100)))

def afterWeekday : Option Bytes :=
  if isDigit (ch date 0) then some date
  else
    match (date.dropWhile isSpace).dropWhile fun c => c ≠ 32 ∧ c ≠ 0 with
    | 32 :: rest => some rest
    | _ => none

/-- mirrors common/date.c:415-819 (`nx_date_parse_rfc1123`). A zone is added to the
`dateend` of the caller, which most formats do not set. -/
def dateParseRfc1123 : Res Parsed :=
  match afterWeekday date with
  | none => badDate dateend
  | some date =>
    match rfc1123Places date with
    | none => badDate dateend
    | some p =>
      match p.year with
      | none => badDate dateend
      | some year =>
        let dateend := match p.dateend with
          | some n => advance date n
          | none => dateend
        let ds : TimeExp := ⟨0, p.sec, p.min, p.hour, p.mday, 0, year, 0⟩
        -- without the check of the 31st, which needs the month
        if ¬ dateChecks ds then badDate dateend
        else
          match monthAt (date.drop p.mon) with
          | none => badDate dateend
          | some mon =>
            if ¬ dateChecks { ds with tm_mon := mon } ∨
              (mon = 1 ∧ badFebruary year p.mday) then badDate dateend
            else
              let zone := p.tz.bind fun i => getTzOffset (date.drop i)
              let dateend := match zone with
                | some (len, _) => dateend.bind (advance · len)
                | none => dateend
              let gmtoff := match zone with
                | some (_, offset) => offset * 60
                | none => 0
              localTime env { ds with tm_mon := mon, tm_gmtoff := gmtoff * 60 } 0 dateend dateend

/-- mirrors common/date.c:828-942 (`nx_date_parse_apache`). The end is as many bytes on
as the zone is long. -/
def dateParseApache : Res Parsed :=
  if dateCheckmask date (ascii "##/@$$/####:##:##:## *") then
    match monthAt (date.drop 3) with
    | none => badDate dateend
    | some mon =>
      let zone := getTzOffset (date.drop 21)
      let ds : TimeExp := ⟨0, twoAt date 18, twoAt date 15, twoAt date 12, twoAt date 0, mon,
        fourAt date 7 - 1900,
        ((zone.map Prod.snd).getD 0) * 60⟩
      if dateChecks ds ∧ 1970 ≤ fourAt date 7 then
        localTime env ds 0 dateend (advance date ((zone.map Prod.fst).getD 0))
      else badDate dateend
  else badDate dateend

/-- The digits of a fraction of a second in microseconds, and the text behind them;
`none` if there are more than six. -/
def fractionDigits (usec mul : Int) : Nat → Bytes → Option (Int × Bytes)
  | _, [] => some (usec, [])
  | i, c :: p =>
    if isDigit c then
      if 6 ≤ i then none else fractionDigits (usec + ((c.toNat : Int) - 48) * mul) (mul / 10) (i + 1) p
    else some (usec, c :: p)

def fractionAt (seps : List UInt8) (p : Bytes) : Option (Int × Bytes) :=
  if ch p 0 ∈ seps then fractionDigits 0 100000 0 p.tail else some (0, p)

/-- common/date.c:1008-1018: a zone; a sign without a zone behind it is left unread. -/
def isoZone : Option Int × Bytes :=
  if ch p 0 = 43 ∨ ch p 0 = 45 then
    match getTzOffset p with
    | some (len, offset) => (some offset, p.drop len)
    | none => (some 0, p)
  else if ch p 0 = 90 then (some 0, p.tail)
  else (none, p)

/-- One or two digits; two are required unless `next` follows the first. -/
def digits12 (next : UInt8 → Bool) (p : Bytes) : Option (Int × Bytes) :=
  if isDigit (ch p 0) ∧ isDigit (ch p 1) then some (twoAt p 0, p.drop 2)
  else if isDigit (ch p 0) ∧ next (ch p 1) then some (digitAt p 0, p.drop 1)
  else none

def digitsThen (c : UInt8) (p : Bytes) : Option (Int × Bytes) := do
  let (n, p) ← digits12 (decide <| · = c) p
  if ch p 0 = c then some (n, p.tail) else none

/-- common/date.c:1022-1115: month, day and time of day with one or two digits. -/
def isoShort : Option (TimeExp × Bytes) := do
  -- the month: `date[5]` is a digit
  let (mon, p) ← digitsThen 45 (date.drop 5)
  let (mday, p) ← digitsThen 32 p
  let (hour, p) ← digitsThen 58 p
  let (min, p) ← digitsThen 58 p
  let (sec, p) ← digits12 (fun _ => true) p
  return (⟨0, sec, min, hour, mday, mon - 1, fourAt date 0, 0⟩, p)

def isoPlaces : Option (TimeExp × Bytes) :=
  if dateCheckmask date (ascii "####-##-## ##:##:##*") ∨ dateCheckmask date (ascii "####-##-##T##:##:##*") then
    some (⟨0, twoAt date 17, twoAt date 14, twoAt date 11, twoAt date 8, twoAt date 5 - 1,
      fourAt date 0, 0⟩, date.drop 19)
  else if dateCheckmask date (ascii "####-#*") then isoShort date
  else none

/-- mirrors common/date.c:959-1225 (`nx_date_parse_iso`). -/
def dateParseIso : Res Parsed :=
  match isoPlaces date with
  | none => badDate dateend
  | some (ds, p) =>
    match fractionAt [46, 44] p with
    | none => badDate dateend
    | some (usec, p) =>
      let (zone, p) := isoZone p
      if dateChecks ds ∧ 1970 ≤ ds.tm_year then
        let ds := { ds with tm_year := ds.tm_year - 1900 }
        match zone with
        | some gmtoff =>
          match env.expGmtGet { ds with tm_usec := usec, tm_gmtoff := gmtoff * 60 } with
          | none => badDate dateend
          | some t => .ok ⟨some t, some p⟩
        | none => localTime env ds usec dateend (some p)
      else badDate dateend

theorem dateParseIso_returns :
    ∃ r, dateParseIso env date dateend = .ok r := by
  have hlocal : ∀ ds usec d d', ∃ r, localTime env ds usec d d' = .ok r := by
    intro ds usec d d'
    unfold localTime
    split
    · exact ⟨_, rfl⟩
    · exact ⟨_, rfl⟩
  unfold dateParseIso
  split
  · exact ⟨_, rfl⟩
  split
  · exact ⟨_, rfl⟩
  dsimp only
  split
  · split
    · split
      · exact ⟨_, rfl⟩
      · exact ⟨_, rfl⟩
    · exact hlocal _ _ _ _
  · exact ⟨_, rfl⟩

/-- common/date.c:1266-1287: the day and the text behind it and a space. -/
def ciscoDay : Int × Bytes :=
  let p := (date.drop 4).dropWhile (decide <| · = 32)
  if ch p 1 = 32 then (digitAt p 0, p.drop 2) else (twoAt p 0, p.drop 3)

/-- mirrors common/date.c:1237-1431 (`nx_date_parse_cisco`). -/
def dateParseCisco : Res Parsed :=
  let is (mask : String) : Bool := dateCheckmask date (ascii mask)
  let finish (year : Int) (mon : Nat) (mday : Int) (tim : Bytes) : Res Parsed :=
    match fractionAt [46] (tim.drop 8) with
    | none => badDate dateend
    | some (usec, p) =>
      let ds : TimeExp := ⟨0, twoAt tim 6, twoAt tim 3, twoAt tim 0, mday, mon, year, 0⟩
      if dateChecks ds then
        if year = 0 then do
          let year ← getCurrYear env
          localTime env { ds with tm_year := year } usec dateend (some p)
        else localTime env ds usec dateend (some p)
      else badDate dateend
  if is "@$$ # ##:##:##*" ∨ is "@$$  # ##:##:##*" ∨ is "@$$ ## ##:##:##*" then
    match monthAt date with
    | none => badDate dateend
    | some mon =>
      let (mday, tim) := ciscoDay date
      -- the fraction is read before the current year
      if (fractionAt [46] (tim.drop 8)).isNone then badDate dateend
      else do
        let year ← getCurrYear env
        finish year mon mday tim
  else if is "@$$ # #### ##:##:##*" ∨ is "@$$  # #### ##:##:##*" ∨ is "@$$ ## #### ##:##:##*" then
    match monthAt date with
    | none => badDate dateend
    | some mon =>
      let (mday, p) := ciscoDay date
      match year4 p 0 with
      | none => badDate dateend
      | some year => finish year mon mday (p.drop 5)
  else badDate dateend

/-- common/date.c:1486-1500: three digits of minutes behind a sign. -/
def winZone : Int × Bytes :=
  let p := if ch p 0 = 43 then p.tail else p
  let neg := ch p 0 = 45
  let p := if neg then p.tail else p
  let gmtoff := digitAt p 0 * 100 + digitAt p 1 * 10 + digitAt p 2
  (if neg then -gmtoff else gmtoff, p)

/-- mirrors common/date.c:1435-1554 (`nx_date_parse_win`). The end is in front of the
minutes of the zone. -/
def dateParseWin : Res Parsed :=
  if dateCheckmask date (ascii "##############.######-###") ∨
      dateCheckmask date (ascii "##############.#########") then
    match fractionAt [46] (date.drop 14) with
    | none => badDate dateend
    | some (usec, p) =>
      let (gmtoff, p) := winZone p
      let ds : TimeExp := ⟨0, twoAt date 12, twoAt date 10, twoAt date 8, twoAt date 6,
        twoAt date 4 - 1, fourAt date 0 - 1900, gmtoff * 60⟩
      if dateChecks ds ∧ 1970 ≤ fourAt date 0 then localTime env ds usec dateend (some p) else badDate dateend
  else badDate dateend

/-- The digits of `sec`, an `int64_t`. -/
def secDigits (sec : Int64) : Bytes → Int64 × Bytes
  | [] => (sec, [])
  | c :: p => if isDigit c then secDigits (sec * 10 + Int64.ofInt ((c.toNat : Int) - 48)) p else (sec, c :: p)

/-- mirrors common/date.c:1566-1619 (`nx_date_parse_timestamp`). -/
def dateParseTimestamp : Res Parsed :=
  let (sec, p) := secDigits 0 date
  if ch p 0 = 46 then
    match fractionAt [46] p with
    | none => badDate dateend
    | some (usec, p) => .ok ⟨some (sec * 1000000 + Int64.ofInt usec), some p⟩
  else if ch p 0 = 0 ∨ ch p 0 = 32 ∨ ch p 0 = 9 then .ok ⟨some (sec * 1000000), some p⟩
  else badDate dateend

/-- The next format, if this one did not match. -/
def orElse (r : Parsed) (next : Option Bytes → Res Parsed) : Res Parsed :=
  match r.time with
  | some _ => .ok r
  | none => next r.dateend

/-- mirrors common/date.c:1623-1663 (`nx_date_parse`). -/
def dateParse : Res Parsed := do
  let r ← dateParseRfc3164 env date dateend
  let r ← orElse r (dateParseRfc1123 env date)
  let r ← orElse r (dateParseIso env date)
  let r ← orElse r (dateParseApache env date)
  let r ← orElse r (dateParseCisco env date)
  let r ← orElse r (dateParseWin env date)
  orElse r (dateParseTimestamp date)

/-- mirrors common/date.c:1915-1946 (`nx_date_fix_year`): the time it leaves. A year up
to 1970 is replaced in the text of the local time. -/
def dateFixYear (t : Int64) : Res Int64 :=
  match env.expGmt t with
  | none => .ok t
  | some exp =>
    if exp.tm_year ≤ 70 then
      match env.expGmt env.now with
      | none => .ok t
      | some exp2 =>
        -- a failure of `nx_date_to_iso` is not looked at
        match dateToIso env t with
        | none => Res.fault
        | some text => do
          let year := [50, digitByte ((exp2.tm_year - 100).tdiv 100),
            digitByte ((exp2.tm_year - 100).tdiv 10), digitByte (exp2.tm_year.tmod 10)]
          let r ← dateParseIso env (year ++ text.drop 4) none
          return r.time.getD t
    else .ok t

/-! ## Digits -/

def digit (n : Nat) : UInt8 := UInt8.ofNat (48 + n % 10)

def digits : Nat → Nat → Bytes
  | 0, _ => []
  | w + 1, n => digits w (n / 10) ++ [digit n]

@[simp] theorem digit_toNat (n : Nat) : (digit n).toNat = 48 + n % 10 := by
  rw [digit, UInt8.toNat_ofNat']
  omega

@[simp] theorem isDigit_digit (n : Nat) : isDigit (digit n) = true := by
  simp only [isDigit, UInt8.le_iff_toNat_le, digit_toNat]
  simp
  omega

theorem digitByte_eq_digit {n : Int} (h0 : 0 ≤ n) (h9 : n < 10) : digitByte n = digit n.toNat := by
  rw [digitByte, digit]
  congr 1
  omega

@[simp] theorem digits_length (w n : Nat) : (digits w n).length = w := by
  induction w generalizing n with
  | zero => rfl
  | succ w ih => simp [digits, ih]

variable {n : Nat}

theorem digitChar_byte (h : n < 10) : UInt8.ofNat n.digitChar.toNat = digit n := by
  rw [Nat.toNat_digitChar_of_lt_ten h, digit, Nat.mod_eq_of_lt h]

theorem decimal_of_lt (h : n < 10) : decimal n = [digit n] := by
  have e : toString (n : Int) = n.repr := rfl
  rw [decimal, ascii, e, Nat.repr_of_lt h, String.toList_singleton, map_singleton, digitChar_byte h]

theorem decimal_of_ge (h : 10 ≤ n) : decimal n = decimal (n / 10 : Nat) ++ [digit n] := by
  have e : ∀ m : Nat, toString (m : Int) = m.repr := fun _ => rfl
  have hd : digit (n % 10) = digit n := by rw [digit, digit, Nat.mod_mod]
  rw [decimal, decimal, ascii, ascii, e, e, Nat.repr_of_ge h, String.toList_append, map_append,
    String.toList_singleton, map_singleton, digitChar_byte (Nat.mod_lt _ (by decide)), hd]

theorem decimal_eq_digits : ∀ {w n : Nat}, 10 ^ w ≤ n → n < 10 ^ (w + 1) → decimal n = digits (w + 1) n := by
  intro w
  induction w with
  | zero =>
    intro n _ h
    rw [decimal_of_lt (by simpa using h)]
    rfl
  | succ w ih =>
    intro n h1 h2
    rw [decimal_of_ge (by omega), ih (by omega) (by omega)]
    rfl

theorem padded_nat (w n : Nat) : padded w n = replicate (w - (decimal n).length) 48 ++ decimal n := by
  have : ¬ (n : Int) < 0 := by omega
  simp [padded, this]

theorem padded_eq_digits {w n : Nat} (h : n < 10 ^ (w + 1)) : padded (w + 1) n = digits (w + 1) n := by
  induction w generalizing n with
  | zero =>
    rw [padded_nat, decimal_of_lt (by simpa using h)]
    rfl
  | succ w ih =>
    rw [digits, ← ih (by omega), padded_nat, padded_nat]
    by_cases hn : n < 10
    · rw [decimal_of_lt hn, Nat.div_eq_of_lt hn, decimal_of_lt (by decide)]
      simp [replicate_succ', digit]
    · rw [decimal_of_ge (by omega)]
      simp

theorem twoDigits_eq (h : n < 100) : twoDigits n = digits 2 n := by
  have h1 : (n : Int).tdiv 10 = ((n / 10 : Nat) : Int) := by
    rw [Int.tdiv_eq_ediv_of_nonneg (by omega)]
    rfl
  have h2 : (n : Int).tmod 10 = ((n % 10 : Nat) : Int) := by
    rw [Int.tmod_eq_emod_of_nonneg (by omega)]
    rfl
  rw [twoDigits, h1, h2, digitByte_eq_digit (by omega) (by omega), digitByte_eq_digit (by omega) (by omega)]
  simp only [digits, digit, Int.toNat_natCast, Nat.mod_mod, nil_append, cons_append]

/-! ## Dates of RFC 3164 -/

/-- The times APR and the C library break down to. -/
structure TimeExp.InRange (e : TimeExp) : Prop where
  usec : 0 ≤ e.tm_usec ∧ e.tm_usec < 1000000
  sec : 0 ≤ e.tm_sec ∧ e.tm_sec ≤ 61
  min : 0 ≤ e.tm_min ∧ e.tm_min ≤ 59
  hour : 0 ≤ e.tm_hour ∧ e.tm_hour ≤ 23
  mday : 1 ≤ e.tm_mday ∧ e.tm_mday ≤ 31
  mon : 0 ≤ e.tm_mon ∧ e.tm_mon ≤ 11
  short : ¬ (e.tm_mday = 31 ∧ (e.tm_mon = 3 ∨ e.tm_mon = 5 ∨ e.tm_mon = 8 ∨ e.tm_mon = 10))

variable {e : TimeExp}

theorem TimeExp.InRange.checks (h : e.InRange) : dateChecks e = true := by
  obtain ⟨-, hsec, hmin, hhour, hmday, -, hshort⟩ := h
  rw [dateChecks, decide_eq_true_eq]
  exact ⟨by omega, hmday.2, hhour.2, hmin.2, hsec.2, hshort⟩

/-- An abbreviation is a capital and two small letters, and its month is found again. -/
theorem month_spec : ∀ i < 12, ∃ a b c, months[i]? = some [a, b, c] ∧ isUpper a = true ∧
    isLower b = true ∧ isLower c = true ∧ ∀ p, monthAt (a :: b :: c :: p) = some i := by
  have h : ∀ i < 12, ∀ m ∈ months[i]?, m = [ch m 0, ch m 1, ch m 2] ∧ isUpper (ch m 0) = true ∧
      isLower (ch m 1) = true ∧ isLower (ch m 2) = true ∧ monthAt m = some i := by decide
  intro i hi
  obtain ⟨m, hm⟩ : ∃ m, months[i]? = some m := ⟨_, getElem?_eq_getElem hi⟩
  obtain ⟨hcons, ha, hb, hc, hidx⟩ := h i hi m hm
  refine ⟨_, _, _, hcons ▸ hm, ha, hb, hc, fun p => ?_⟩
  rw [← hidx]
  rfl

theorem isUpper_spec {c : UInt8} (h : isUpper c = true) : isDigit c = false ∧ isSpace c = false ∧ c ≠ 0 := by
  have hr : 65 ≤ c.toNat ∧ c.toNat ≤ 90 := by simpa [isUpper, UInt8.le_iff_toNat_le] using h
  refine ⟨?_, ?_, ?_⟩
  · simp [isDigit, UInt8.le_iff_toNat_le]
    omega
  · simp [isSpace, UInt8.le_iff_toNat_le, ← UInt8.toNat_inj]
    omega
  · rintro rfl
    simp at hr

theorem isLower_ne_zero {c : UInt8} (h : isLower c = true) : c ≠ 0 := by
  rintro rfl
  cases h

def bsdDate (e : TimeExp) : Bytes :=
  (months[e.tm_mon.toNat]?).getD [] ++ 32 ::
    ((if 10 ≤ e.tm_mday then digits 2 e.tm_mday.toNat else [32, digit e.tm_mday.toNat]) ++ 32 ::
      (digits 2 e.tm_hour.toNat ++ 58 :: (digits 2 e.tm_min.toNat ++ 58 :: digits 2 e.tm_sec.toNat)))

variable {env : DateEnv} {t : Int64}

theorem dateToRfc3164_eq (h : env.expLt t = some e) (he : e.InRange) :
    dateToRfc3164 env t = .ok (some (bsdDate e)) := by
  obtain ⟨-, hsec, hmin, hhour, hmday, hmon, -⟩ := he
  obtain ⟨a, b, c, hm, -⟩ := month_spec e.tm_mon.toNat (by omega)
  have hdigits : ∀ n : Int, 0 ≤ n → n < 100 → twoDigits n = digits 2 n.toNat := by
    intro n h0 h1
    rw [← twoDigits_eq (by omega), Int.toNat_of_nonneg h0]
  rw [dateToRfc3164, h]
  dsimp only
  rw [if_neg (by omega), if_neg (by omega), hm]
  rw [bsdDate, hm, Option.getD_some, hdigits _ hhour.1 (by omega), hdigits _ hmin.1 (by omega),
    hdigits _ hsec.1 (by omega), hdigits _ (by omega) (by omega)]
  by_cases h10 : 10 ≤ e.tm_mday
  · rw [if_pos h10, if_pos h10]
  · rw [if_neg h10, if_neg h10, digitByte_eq_digit (by omega) (by omega)]

section BsdDate

variable {a b c : UInt8} (ha : isUpper a = true) (hb : isLower b = true) (hc : isLower c = true)
  (d h m s : Nat)
  {rest : Bytes} (hrest : ch rest 0 = 0 ∨ ch rest 0 = 32)
include ha hb hc hrest

theorem rfc3164Places_two : rfc3164Places (a :: b :: c :: 32 :: (digits 2 d ++ 32 :: (digits 2 h ++ 58 ::
    (digits 2 m ++ 58 :: (digits 2 s ++ rest))))) = some (((d % 100 : Nat) : Int), 7) := by
  have hmask : ascii "@$$ ## ##:##:##%*" = [64, 36, 36, 32, 35, 35, 32, 35, 35, 58, 35, 35, 58, 35,
    35, 37, 42] := by
    decide
  rw [rfc3164Places, hmask,
    if_pos (by rcases hrest with hr | hr <;> simp [dateCheckmask, digits, ha, hb, hc, hr])]
  simp [digits, twoAt, digitAt]
  omega

theorem rfc3164Places_one : rfc3164Places (a :: b :: c :: 32 :: 32 :: digit d :: 32 :: (digits 2 h ++ 58 ::
    (digits 2 m ++ 58 :: (digits 2 s ++ rest)))) = some (((d % 10 : Nat) : Int), 7) := by
  have hmask : ascii "@$$ ## ##:##:##%*" = [64, 36, 36, 32, 35, 35, 32, 35, 35, 58, 35, 35, 58, 35,
    35, 37, 42] := by
    decide
  have hmask' : ascii "@$$  # ##:##:##%*" = [64, 36, 36, 32, 32, 35, 32, 35, 35, 58, 35, 35, 58, 35,
    35, 37, 42] := by
    decide
  have h32 : isDigit 32 = false := by decide
  rw [rfc3164Places, hmask, hmask', if_neg (by simp [dateCheckmask, h32]),
    if_pos (by rcases hrest with hr | hr <;> simp [dateCheckmask, digits, ha, hb, hc, hr])]
  have hd : 48 + (d : Int) % 10 - 48 = d % 10 := by omega
  simp [digitAt, hd]

end BsdDate

/-- The places of the time do not depend on the day. -/
theorem bsdDate_time (a b c d1 d0 : UInt8) (h m s : Nat) (rest : Bytes) :
    let date := a :: b :: c :: 32 :: d1 :: d0 :: 32 ::
    (digits 2 h ++ 58 :: (digits 2 m ++ 58 :: (digits 2 s ++ rest)))
    twoAt date 7 = (h % 100 : Nat) ∧ twoAt date 10 = (m % 100 : Nat) ∧
      twoAt date 13 = (s % 100 : Nat) ∧ advance date 15 = some rest := by
  simp [digits, twoAt, digitAt, advance]
  omega

/-- What was written is read back, in the current year. -/
theorem dateParse_bsdDate {e now : TimeExp} (he : e.InRange) (hnow : env.expGmt env.now = some now)
    {tval : Int64} (hmk : env.mktime { e with tm_usec := 0, tm_year := now.tm_year, tm_gmtoff := 0 }
      = some tval)
    {rest : Bytes} (hrest : ch rest 0 = 0 ∨ ch rest 0 = 32) (dateend : Option Bytes) :
    dateParse env (bsdDate e ++ rest) dateend = .ok ⟨some (tval * 1000000), some rest⟩ := by
  have hchecks := he.checks
  obtain ⟨-, hsec, hmin, hhour, hmday, hmon, -⟩ := he
  obtain ⟨a, b, c, hm, ha, hb, hc, hidx⟩ := month_spec e.tm_mon.toNat (by omega)
  obtain ⟨hdig, hsp, h0⟩ := isUpper_spec ha
  -- both forms of the day take two bytes
  obtain ⟨d1, d0, hday, hplaces⟩ : ∃ d1 d0,
      (if 10 ≤ e.tm_mday then digits 2 e.tm_mday.toNat else [32, digit e.tm_mday.toNat]) = [d1,
      d0] ∧ rfc3164Places (a :: b :: c :: 32 :: d1 :: d0 :: 32 :: (digits 2 e.tm_hour.toNat ++ 58 ::
        (digits 2 e.tm_min.toNat ++ 58 :: (digits 2 e.tm_sec.toNat ++ rest)))) = some (e.tm_mday, 7) := by
    by_cases h10 : 10 ≤ e.tm_mday
    · refine ⟨_, _, by rw [if_pos h10]; rfl, ?_⟩
      have h := rfc3164Places_two ha hb hc e.tm_mday.toNat e.tm_hour.toNat e.tm_min.toNat e.tm_sec.toNat hrest
      rw [show ((e.tm_mday.toNat % 100 : Nat) : Int) = e.tm_mday by omega] at h
      exact h
    · refine ⟨_, _, by rw [if_neg h10], ?_⟩
      have h := rfc3164Places_one ha hb hc e.tm_mday.toNat e.tm_hour.toNat e.tm_min.toNat e.tm_sec.toNat hrest
      rw [show ((e.tm_mday.toNat % 10 : Nat) : Int) = e.tm_mday by omega] at h
      exact h
  have htext : bsdDate e ++ rest = a :: b :: c :: 32 :: d1 :: d0 :: 32 :: (digits 2 e.tm_hour.toNat ++ 58 ::
      (digits 2 e.tm_min.toNat ++ 58 :: (digits 2 e.tm_sec.toNat ++ rest))) := by
    simp [bsdDate, hm, hday]
  obtain ⟨t7, t10, t13, hadv⟩ := bsdDate_time a b c d1 d0 e.tm_hour.toNat e.tm_min.toNat e.tm_sec.toNat rest
  have hskip : skipWhite (bsdDate e ++ rest) = bsdDate e ++ rest := by
    rw [htext, skipWhite, ch_zero, hdig, dropWhile_cons_of_neg (by simp [hsp])]
    rfl
  have hmon' : monthAt (bsdDate e ++ rest) = some e.tm_mon.toNat := by rw [htext, hidx]
  have h7 : twoAt (bsdDate e ++ rest) 7 = e.tm_hour := by rw [htext, t7]; omega
  have h10 : twoAt (bsdDate e ++ rest) (7 + 3) = e.tm_min := by rw [htext, t10]; omega
  have h13 : twoAt (bsdDate e ++ rest) (7 + 6) = e.tm_sec := by rw [htext, t13]; omega
  have hchecks' : dateChecks ⟨0, e.tm_sec, e.tm_min, e.tm_hour, e.tm_mday, e.tm_mon, 0, 0⟩ = true := hchecks
  have hnul : ¬ (ch (bsdDate e ++ rest) 0 = 0 ∨ ch (bsdDate e ++ rest) 1 = 0 ∨
    ch (bsdDate e ++ rest) 2 = 0) := by
    simp [htext, h0, isLower_ne_zero hb, isLower_ne_zero hc]
  have hparse : dateParseRfc3164 env (bsdDate e ++ rest) dateend = .ok ⟨some (tval * 1000000), some rest⟩ := by
    rw [dateParseRfc3164, hskip]
    rw [if_neg hnul, hmon', htext, hplaces, ← htext]
    dsimp only
    rw [h7, h10, h13, Int.toNat_of_nonneg hmon.1, if_pos hchecks', getCurrYear, hnow]
    rw [ok_bind, localTime, hmk, htext, hadv]
    simp
  rw [dateParse, hparse, ok_bind]
  rfl

/-! ## Dates of RFC 5424 -/

def ietfDate (e : TimeExp) : Bytes :=
  digits 4 (e.tm_year + 1900).toNat ++
  45 :: (digits 2 (e.tm_mon + 1).toNat ++ 45 :: (digits 2 e.tm_mday.toNat ++ 84 ::
    (digits 2 e.tm_hour.toNat ++ 58 :: (digits 2 e.tm_min.toNat ++ 58 ::
      (digits 2 e.tm_sec.toNat ++ 46 :: (digits 6 e.tm_usec.toNat ++ [90]))))))

/-- The years whose text has four digits, as `nx_date_to_rfc5424` writes them. -/
def TimeExp.FourDigitYear (e : TimeExp) : Prop := 70 ≤ e.tm_year ∧ e.tm_year < 1900

theorem padded_toNat {w : Nat} {n : Int} (h0 : 0 ≤ n) (h : n < 10 ^ (w + 1)) :
    padded (w + 1) n = digits (w + 1) n.toNat := by
  obtain ⟨m, rfl⟩ := Int.eq_ofNat_of_zero_le h0
  exact padded_eq_digits (by exact_mod_cast h)

/-- The text of a date and time in the year `y`, with a zone. -/
def isoDate (y : Nat) (e : TimeExp) (zone : Bytes) : Bytes :=
  digits 4 y ++ 45 :: (digits 2 (e.tm_mon + 1).toNat ++ 45 :: (digits 2 e.tm_mday.toNat ++ 84 ::
    (digits 2 e.tm_hour.toNat ++ 58 :: (digits 2 e.tm_min.toNat ++ 58 ::
      (digits 2 e.tm_sec.toNat ++ 46 :: (digits 6 e.tm_usec.toNat ++ zone))))))

section IsoDate

variable {y : Nat} {zone : Bytes}

theorem isoText_eq (he : e.InRange) (hy : fullYear e.tm_year = y) (h4 : 1000 ≤ y ∧ y < 10000) :
    isoText 84 e ++ 46 :: (padded 6 e.tm_usec ++ zone) = isoDate y e zone := by
  obtain ⟨husec, hsec, hmin, hhour, hmday, hmon, -⟩ := he
  rw [isoText, hy, decimal_eq_digits (w := 3) h4.1 h4.2, padded_toNat (by omega) (by omega),
    padded_toNat (by omega) (by omega), padded_toNat hhour.1 (by omega),
    padded_toNat hmin.1 (by omega), padded_toNat hsec.1 (by omega), padded_toNat husec.1 (by omega)]
  simp [isoDate]

theorem dateToRfc5424_eq (h : env.expGmt t = some e) (he : e.InRange)
    (hy : e.FourDigitYear) : dateToRfc5424 env true t = some (ietfDate e) := by
  obtain ⟨hy1, hy2⟩ := hy
  have htext : isoText 84 e ++ 46 :: (padded 6 e.tm_usec ++ [90]) = ietfDate e :=
    isoText_eq he (by rw [fullYear, if_pos hy2, Int.toNat_of_nonneg (by omega)]) (by omega)
  rw [dateToRfc5424, if_pos rfl, h, Option.map_some, htext, take_of_length_le (by simp [ietfDate])]

/-- Six digits of a fraction are microseconds. -/
theorem fractionAt_digits (n : Nat) {rest : Bytes} (hrest : isDigit (ch rest 0) = false) :
    fractionAt [46, 44] (46 :: (digits 6 n ++ rest)) = some (((n % 1000000 : Nat) : Int), rest) := by
  have hstop : ∀ usec mul i, fractionDigits usec mul i rest = some (usec, rest) := by
    intro usec mul i
    cases rest with
    | nil => rfl
    | cons c p =>
      rw [ch_zero] at hrest
      simp [fractionDigits, hrest]
  simp [fractionAt, digits, fractionDigits, hstop]
  omega

theorem isoPlaces_digits (y mon d h m s : Nat) (rest : Bytes) :
    isoPlaces (digits 4 y ++ 45 ::
      (digits 2 mon ++ 45 :: (digits 2 d ++ 84 :: (digits 2 h ++ 58 :: (digits 2 m ++ 58 ::
      (digits 2 s ++ rest)))))) =
      some (⟨0, (s % 100 : Nat), (m % 100 : Nat), (h % 100 : Nat), (d % 100 : Nat),
        (mon % 100 : Nat) - 1, (y % 10000 : Nat), 0⟩, rest) := by
  have hspace : ascii "####-##-## ##:##:##*" = [35, 35, 35, 35, 45, 35, 35, 45, 35, 35, 32, 35, 35,
    58, 35, 35, 58, 35,
    35, 42] := by decide
  have hT : ascii "####-##-##T##:##:##*" = [35, 35, 35, 35, 45, 35, 35, 45, 35, 35, 84, 35, 35, 58,
    35, 35, 58, 35,
    35, 42] := by decide
  rw [isoPlaces, hspace, hT, if_pos (by right; simp [dateCheckmask, digits])]
  simp [digits, twoAt, fourAt, digitAt]
  omega

variable (env) in
/-- What is made of the text. -/
theorem dateParseIso_isoDate (he : e.InRange) (hy : y < 10000) {rest : Bytes} {offset : Int}
    (hdigit : isDigit (ch (zone ++ rest) 0) = false)
    (hzone : isoZone (zone ++ rest) = (some offset, rest)) (dateend : Option Bytes) :
    dateParseIso env (isoDate y e zone ++ rest) dateend =
      if 1970 ≤ y then
        match env.expGmtGet { e with tm_year := y - 1900, tm_gmtoff := offset * 60 } with
        | none => badDate dateend
        | some t => .ok ⟨some t, some rest⟩
      else badDate dateend := by
  have hchecks : dateChecks ⟨0, e.tm_sec, e.tm_min, e.tm_hour, e.tm_mday, e.tm_mon, y, 0⟩ = true := he.checks
  obtain ⟨husec, hsec, hmin, hhour, hmday, hmon, -⟩ := he
  have hplaces : isoPlaces (isoDate y e zone ++ rest) =
      some (⟨0, e.tm_sec, e.tm_min, e.tm_hour, e.tm_mday, e.tm_mon, y, 0⟩,
        46 :: (digits 6 e.tm_usec.toNat ++ (zone ++ rest))) := by
    simp only [isoDate, append_assoc, cons_append]
    rw [isoPlaces_digits]
    congr 3 <;> omega
  have hfrac := fractionAt_digits e.tm_usec.toNat hdigit
  rw [show ((e.tm_usec.toNat % 1000000 : Nat) : Int) = e.tm_usec by omega] at hfrac
  rw [dateParseIso, hplaces]
  dsimp only
  rw [hfrac]
  dsimp only
  rw [hzone]
  dsimp only
  by_cases h1970 : 1970 ≤ y
  · rw [if_pos ⟨hchecks, by omega⟩, if_pos h1970]
  · rw [if_neg (by omega), if_neg h1970]

/-- What was written is read back. -/
theorem dateParseIso_ietfDate (he : e.InRange) (hy : e.FourDigitYear)
    (hget : env.expGmtGet { e with tm_gmtoff := 0 } = some t) (rest : Bytes) (dateend : Option Bytes) :
    dateParseIso env (ietfDate e ++ rest) dateend = .ok ⟨some t, some rest⟩ := by
  obtain ⟨hy1, hy2⟩ := hy
  have hyear : (((e.tm_year + 1900).toNat : Nat) : Int) - 1900 = e.tm_year := by omega
  have hzone : isoZone ([90] ++ rest) = (some 0, rest) := by simp [isoZone]
  have hparse := dateParseIso_isoDate env he (y := (e.tm_year + 1900).toNat) (by omega) rfl hzone dateend
  rw [if_pos (by omega), hyear, Int.zero_mul, hget] at hparse
  exact hparse

end IsoDate

/-- The zone that is written for an offset of `m` minutes: the sign is that of the hours. -/
def zoneText (m : Int) : Bytes :=
  signed ((60 * m).tdiv 3600) ++ 58 :: padded 2 ((60 * m).natAbs / 60 % 60 : Nat)

def zoneRead (m : Int) : Int := if -60 < m ∧ m < 0 then -m else m

theorem signed_hours {m : Int} (h : -1440 < m ∧ m < 1440) :
    signed ((60 * m).tdiv 3600) = (if m ≤ -60 then 45 else 43) :: digits 2 (m.natAbs / 60) := by
  have hdiv : ∀ k : Nat, (60 * (k : Int)).tdiv 3600 = (k / 60 : Nat) := fun k => by
    rw [Int.tdiv_eq_ediv_of_nonneg (by omega)]
    omega
  obtain ⟨k, rfl | rfl⟩ := m.eq_nat_or_neg
  · rw [hdiv, signed, if_neg (by omega), if_neg (by omega), padded_eq_digits (by omega)]
    rfl
  have hpadded : ∀ n : Nat, 0 < n → padded 3 (-(n : Int)) = 45 :: padded 2 n := fun n hn => by
    rw [padded_nat, show 2 - (decimal n).length = 3 - (decimal n).length - 1 by omega]
    simp [padded, hn]
  rw [Int.mul_neg, Int.neg_tdiv, hdiv, signed, Int.natAbs_neg, Int.natAbs_natCast]
  by_cases hk : k < 60
  · rw [Nat.div_eq_of_lt hk, if_neg (by omega), if_neg (by omega)]
    rfl
  · rw [if_pos (by omega), if_pos (by omega), hpadded _ (by omega), padded_eq_digits (by omega)]

theorem isoZone_zoneText {m : Int} (h : -1440 < m ∧ m < 1440) (rest : Bytes) :
    isoZone (zoneText m ++ rest) = (some (zoneRead m), rest) ∧ isDigit (ch (zoneText m ++ rest) 0) =
    false := by
  have hmin : padded 2 ((60 * m).natAbs / 60 % 60 : Nat) = digits 2 (m.natAbs % 60) := by
    rw [padded_eq_digits (by omega)]
    congr 1
    omega
  rw [zoneText, hmin, signed_hours h, zoneRead]
  generalize hn : m.natAbs = n
  by_cases hneg : m ≤ -60
  · rw [if_pos hneg, if_neg (by omega)]
    simp [isoZone, getTzOffset, digits, twoAt, digitAt]
    refine ⟨?_, by decide⟩
    omega
  · rw [if_neg hneg]
    simp [isoZone, getTzOffset, digits, twoAt, digitAt]
    refine ⟨?_, by decide⟩
    split <;> omega

/-- A time in the years 1970 to 9999 that is broken down to `e`, with an offset of `m` minutes, as a
correct calendar does it: `e` is converted back, and with another year or another offset it would be
another time. -/
structure IsoTime (env : DateEnv) (gmt : Bool) (t : Int64) (e : TimeExp) (m : Int) : Prop where
  exp : (if gmt then env.expGmt t else env.expLt t) = some e
  range : e.InRange
  year : 70 ≤ e.tm_year ∧ e.tm_year ≤ 8099
  gmtoff : e.tm_gmtoff = 60 * m
  offset : -1440 < m ∧ m < 1440
  utc : gmt = true → m = 0
  get : env.expGmtGet e = some t
  distinct : ∀ year m', -1440 < m' ∧ m' < 1440 →
    env.expGmtGet { e with tm_year := year, tm_gmtoff := m' * 60 } = some t → year = e.tm_year ∧ m' = m

section Iso

variable {gmt : Bool} {m : Int}

/-- The text has the year that is written, and a zone that is read as `zoneRead m`. -/
theorem dateToRfc5424_isoTime (h : IsoTime env gmt t e m) {y : Nat} (hy : fullYear e.tm_year = y)
    (h4 : 1000 ≤ y ∧ y < 10000) : ∃ zone, dateToRfc5424 env gmt t = some (isoDate y e zone) ∧
      isoZone (zone ++ []) = (some (zoneRead m), []) ∧ isDigit (ch (zone ++ []) 0) = false := by
  cases gmt with
  | true =>
    have hexp : env.expGmt t = some e := h.exp
    refine ⟨[90], ?_, by rw [h.utc rfl]; rfl, rfl⟩
    rw [dateToRfc5424, if_pos rfl, hexp, Option.map_some, isoText_eq h.range hy h4,
      take_of_length_le (by simp [isoDate])]
  | false =>
    have hexp : env.expLt t = some e := h.exp
    have hlen : (isoDate y e (zoneText m)).length ≤ 32 := by
      rw [zoneText, signed_hours h.offset, padded_eq_digits (by omega)]
      simp [isoDate]
    refine ⟨zoneText m, ?_, isoZone_zoneText h.offset []⟩
    rw [dateToRfc5424, if_neg (by decide), hexp, Option.map_some, append_assoc, h.gmtoff,
      isoText_eq h.range hy h4]
    exact congrArg some (take_of_length_le hlen)

/-- The years from 3800 on are written without the 1900 years that APR leaves out, and an offset
between -60 and 0 minutes without its sign. -/
theorem iso_roundtrip_iff (h : IsoTime env gmt t e m) (dateend : Option Bytes) :
    (∃ text r, dateToRfc5424 env gmt t = some text ∧ dateParseIso env text dateend = .ok r ∧
      r.time = some t) ↔ e.tm_year < 1900 ∧ ¬ (-60 < m ∧ m < 0) := by
  obtain ⟨hy1, hy2⟩ := h.year
  have hoffset := h.offset
  obtain ⟨y, hy⟩ : ∃ y : Nat, fullYear e.tm_year = y :=
    ⟨(fullYear e.tm_year).toNat, by unfold fullYear; split <;> omega⟩
  have h4 : 1000 ≤ y ∧ y < 10000 := by
    unfold fullYear at hy
    split at hy <;> omega
  obtain ⟨zone, htext, hzone, hdigit⟩ := dateToRfc5424_isoTime h hy h4
  have hparse := dateParseIso_isoDate env h.range h4.2 hdigit hzone dateend
  rw [append_nil] at hparse
  unfold fullYear at hy
  unfold zoneRead at hparse
  constructor
  · rintro ⟨text, r, hw, hr, htime⟩
    cases htext.symm.trans hw
    rw [hparse] at hr
    split at hr
    · split at hr
      · cases hr
        cases htime
      · next t' hget =>
        cases hr
        cases htime
        obtain ⟨hyear, hm⟩ := h.distinct _ _ (by split <;> omega) hget
        split at hy <;> split at hm <;> omega
    · cases hr
      cases htime
  · rintro ⟨hyear, hm⟩
    rw [if_pos hyear] at hy
    rw [if_neg hm, if_pos (by omega), ← hy, show e.tm_year + 1900 - 1900 = e.tm_year by
      omega, Int.mul_comm, ← h.gmtoff, h.get] at hparse
    exact ⟨_, _, htext, hparse, rfl⟩

end Iso

/-- A clock that knows one time. -/
def oneTime (t : Int64) (e : TimeExp) : DateEnv :=
  ⟨t, fun _ => some e, fun _ => some e, fun e' => if e' = e then some t else none, fun _ => none⟩

theorem oneTime_isoTime (t : Int64) {e : TimeExp} (hrange : e.InRange)
    (hyear : 70 ≤ e.tm_year ∧ e.tm_year ≤ 8099)
    (hgmtoff : e.tm_gmtoff = 0) : IsoTime (oneTime t e) true t e 0 := by
  refine ⟨rfl, hrange, hyear, hgmtoff, by decide, fun _ => rfl, if_pos rfl, fun year m' _ h => ?_⟩
  simp only [oneTime] at h
  split at h
  · next heq =>
    have hy := congrArg TimeExp.tm_year heq
    have hm := congrArg TimeExp.tm_gmtoff heq
    simp only at hy hm
    omega
  · cases h

theorem iso_roundtrip_2009 : ∃ text r,
    dateToRfc5424 (oneTime 1258531221650359 ⟨650359, 21, 0, 8, 18, 10, 109, 0⟩) true
      1258531221650359 = some text ∧
    dateParseIso (oneTime 1258531221650359 ⟨650359, 21, 0, 8, 18, 10, 109, 0⟩) text none = .ok r ∧
    r.time = some 1258531221650359 :=
  (iso_roundtrip_iff (oneTime_isoTime _ (by constructor <;> decide) (by decide) rfl) none).mpr (by decide)

/-- The first second of the year 3800 is written as one of the year 1900, which is not read. -/
theorem iso_year_3800 : IsoTime (oneTime 57749241600000000 ⟨0, 0, 0, 0, 1, 0, 1900, 0⟩) true 57749241600000000
      ⟨0, 0, 0, 0, 1, 0, 1900, 0⟩ 0 ∧
    dateToRfc5424 (oneTime 57749241600000000 ⟨0, 0, 0, 0, 1, 0, 1900, 0⟩) true 57749241600000000 =
      some (ascii "1900-01-01T00:00:00.000000Z") ∧
    (dateParseIso (oneTime 57749241600000000 ⟨0, 0, 0, 0, 1, 0, 1900, 0⟩)
      (ascii "1900-01-01T00:00:00.000000Z") none).map
      Parsed.time = .ok none :=
  ⟨oneTime_isoTime _ (by constructor <;> decide) (by decide) rfl, rfl, rfl⟩

/-! ## Numbers of seconds -/

/-- The number that digits stand for, behind those of `n`. -/
def decValue (n : Nat) (digits : Bytes) : Nat := digits.foldl (fun n c => n * 10 + (c.toNat - 48)) n

/-- The microseconds that a text stands for: seconds, and up to six digits behind a dot. -/
def timestamp : Option Nat :=
  let sec := decValue 0 (date.takeWhile isDigit)
  let rest := date.dropWhile isDigit
  let fraction := rest.tail.takeWhile isDigit
  if ch rest 0 = 46 then
    if fraction.length ≤ 6 then some
      (sec * 1000000 + decValue 0 fraction * 10 ^ (6 - fraction.length)) else none
  else if ch rest 0 = 0 ∨ ch rest 0 = 32 ∨ ch rest 0 = 9 then some (sec * 1000000)
  else none

theorem digitValue {c : UInt8} (h : isDigit c = true) : (c.toNat : Int) - 48 = (c.toNat - 48 : Nat) := by
  simp only [isDigit, UInt8.le_iff_toNat_le, decide_eq_true_eq] at h
  exact (Int.natCast_sub h.1).symm

theorem secDigits_eq (n : Nat) (p : Bytes) :
    secDigits (Int64.ofInt n) p = (Int64.ofInt (decValue n (p.takeWhile isDigit)), p.dropWhile isDigit) := by
  induction p generalizing n with
  | nil => rfl
  | cons c p ih =>
    by_cases hc : isDigit c = true
    · have hstep : Int64.ofInt n * 10 + Int64.ofInt (c.toNat - 48 : Nat) =
        Int64.ofInt (n * 10 + (c.toNat - 48) : Nat) := by
        rw [Int.natCast_add, Int.natCast_mul, Int64.ofInt_add, Int64.ofInt_mul]
        rfl
      rw [secDigits, if_pos hc, digitValue hc, hstep, ih, takeWhile_cons_of_pos hc, dropWhile_cons_of_pos hc]
      rfl
    · simp [secDigits, hc, decValue]

/-- Behind `i` digits of a fraction there is room for `j` more. -/
theorem fractionDigits_eq {i j : Nat} (h : i + j = 6) (n : Nat) :
    (fractionDigits (n * 10 ^ j : Nat) (10 ^ j / 10 : Nat) i p).map Prod.fst =
      if (p.takeWhile isDigit).length ≤ j then
        some ((decValue n (p.takeWhile isDigit) * 10 ^ (j - (p.takeWhile isDigit).length) : Nat) :
          Int) else none := by
  induction p generalizing i j n with
  | nil => simp [fractionDigits, decValue]
  | cons c p ih =>
    by_cases hc : isDigit c = true
    · rw [takeWhile_cons_of_pos hc, length_cons, fractionDigits, if_pos hc]
      cases j with
      | zero => rw [if_pos (by omega), if_neg (by omega), Option.map_none]
      | succ j =>
        have hmul : 10 ^ (j + 1) / 10 = 10 ^ j := by rw [Nat.pow_succ, Nat.mul_div_cancel _ (by decide)]
        have hadd : ((n * 10 ^ (j + 1) : Nat) : Int) + ((c.toNat - 48 : Nat) : Int) *
            (10 ^ j : Nat) = ((n * 10 + (c.toNat - 48)) * 10 ^ j : Nat) := by
          rw [← Int.natCast_mul, ← Int.natCast_add, Nat.pow_succ, Nat.add_mul, Nat.mul_assoc, Nat.mul_comm 10]
        rw [if_neg (by omega), digitValue hc, hmul, hadd]
        exact (ih (by omega) _).trans (by simp only [Nat.add_le_add_iff_right, Nat.add_sub_add_right]; rfl)
    · simp [fractionDigits, hc, decValue]

/-- What the parser makes of a text that stands for a number. -/
theorem dateParseTimestamp_eq :
    (dateParseTimestamp date dateend).map Parsed.time = .ok ((timestamp date).map fun n : Nat =>
      Int64.ofInt n) := by
  have hsec : secDigits 0 date = _ := secDigits_eq 0 date
  rw [dateParseTimestamp, hsec, timestamp]
  dsimp only
  generalize decValue 0 (date.takeWhile isDigit) = sec, date.dropWhile isDigit = rest
  by_cases hdot : ch rest 0 = 46
  · have hfrac : (fractionDigits 0 100000 0 rest.tail).map Prod.fst = _ :=
      fractionDigits_eq rest.tail (j := 6) rfl 0
    rw [if_pos hdot, if_pos hdot, fractionAt, if_pos (by simp [hdot])]
    by_cases hshort : (rest.tail.takeWhile isDigit).length ≤ 6
    · rw [if_pos hshort] at hfrac
      obtain ⟨r, hr, hfst⟩ := Option.map_eq_some_iff.mp hfrac
      rw [hr, if_pos hshort, Option.map_some, Int.natCast_add, ← hfst, Int.natCast_mul,
        Int64.ofInt_add, Int64.ofInt_mul]
      rfl
    · rw [if_neg hshort, Option.map_eq_none_iff] at hfrac
      rw [hfrac, if_neg hshort]
      rfl
  · rw [if_neg hdot, if_neg hdot]
    by_cases hend : ch rest 0 = 0 ∨ ch rest 0 = 32 ∨ ch rest 0 = 9
    · rw [if_pos hend, if_pos hend, Option.map_some, Int.natCast_mul, Int64.ofInt_mul]
      rfl
    · rw [if_neg hend, if_neg hend]
      rfl

/-- A timestamp is exact if the texts that are accepted start with a digit and are times. -/
theorem timestamp_exact_iff (date : Bytes) (dateend : Option Bytes) :
    (∀ t dateend', dateParseTimestamp date dateend = .ok ⟨some t, dateend'⟩ →
      isDigit (ch date 0) = true ∧ (timestamp date).map Nat.cast = some t.toInt) ↔
    ∀ n, timestamp date = some n → isDigit (ch date 0) = true ∧ n < 2 ^ 63 := by
  have heq := dateParseTimestamp_eq date dateend
  constructor
  · intro h n hn
    rw [hn] at heq
    obtain ⟨⟨time, dateend'⟩, hr, htime⟩ := map_eq_ok heq
    cases htime
    obtain ⟨hdigit, hexact⟩ := h (Int64.ofInt n) dateend' hr
    have hlt := Int64.toInt_lt (Int64.ofInt n)
    rw [hn, Option.map_some, Option.some.injEq] at hexact
    exact ⟨hdigit, by omega⟩
  · intro h t dateend' hr
    rw [hr] at heq
    cases hn : timestamp date with
    | none =>
      rw [hn] at heq
      cases heq
    | some n =>
      obtain ⟨hdigit, hlt⟩ := h n hn
      rw [hn] at heq
      cases heq
      exact ⟨hdigit, by rw [Int64.toInt_ofInt_of_le (by omega) (by omega)]; rfl⟩

/-- An empty text is accepted as the time 0. -/
theorem timestamp_empty : ¬ ∀ t dateend', dateParseTimestamp [] none = .ok ⟨some t, dateend'⟩ →
    isDigit (ch [] 0) = true ∧ (timestamp []).map Nat.cast = some t.toInt := by
  intro h
  cases (h 0 (some []) rfl).1

end Nxlog.L3
