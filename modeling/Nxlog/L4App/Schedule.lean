import Nxlog.Core.Calendar
import Nxlog.L4App.Conf

/-!
# Schedules (`common/schedule.c`)

A crontab entry is five tables of the values that are enabled. Its next run is found by
trying every minute from the next one on, for less than 365 days; if there is none, the
process panics.

What `apr_time_exp_lt` makes of a time is a parameter (`localtime`), so the results are
for every time zone; `utc` is one of them, with the Gregorian calendar. An `apr_time_t` has 64
bits; times are taken to stay a year below 2^63 microseconds.

* `parseCrontab`: the tables from the text.
* `scan_spec`: the minutes that are tried.
* `next_run_iff`: there is a next run exactly if it is less than 365 days ahead.
* `next_run_earliest`: it is the first minute after the present one that the entry enables.
-/
namespace Nxlog.L4.Schedule
open L1 L3 Res
open L4.Conf (shown caseEq)

/-! ## Crontab entries -/

/-- The tables of `nx_schedule_entry_t`; the last one has Sunday twice. -/
structure Crontab where
  min : Vector Bool 60
  hour : Vector Bool 24
  day : Vector Bool 31
  month : Vector Bool 12
  wday : Vector Bool 8
  deriving DecidableEq

def Crontab.zero : Crontab :=
  ⟨.replicate 60 false, .replicate 24 false, .replicate 31 false, .replicate 12 false, .replicate 8 false⟩

def intMax : Nat := 2147483647

/-- The loop of `parse_int`; a sum that is no `int` is undefined behaviour. -/
def intDigits : Nat → Bytes → Res (Nat × Bytes)
  | n, [] => .ok (n, [])
  | n, c :: ptr =>
    if isDigit c then
      if 10 * n + (c.toNat - 48) ≤ intMax then intDigits (10 * n + (c.toNat - 48)) ptr else Res.fault
    else .ok (n, c :: ptr)

/-- mirrors common/schedule.c:18-35 (`parse_int`). -/
def parseInt (ptr : Bytes) : Res (Nat × Bytes) :=
  if (ptr.head?.any isDigit) then intDigits 0 ptr else Res.throw ("integer expected, found [" ++
    shown ptr ++ "]")

section Field

variable {n : Nat}

def enable (dst : Vector Bool n) (i : Nat) : Res (Vector Bool n) :=
  if h : i < n then .ok (dst.set i true h) else Res.fault

/-- One round of a loop over every `z`-th value. -/
def enableNth (first z : Nat) (dst : Vector Bool n) (i : Nat) : Res (Vector Bool n) :=
  if z = 0 then Res.fault else if (i + first) % z = 0 then enable dst i else .ok dst

def indices (i count : Nat) : List Nat := List.range' i count

def outOfRange (fieldname : String) (num : Nat) : String :=
  "invalid crontab format, value out of range for " ++ fieldname ++ ": " ++ toString num

/-- common/schedule.c:83-112: what may follow a value `num1` that is already enabled: `-Y` or
`-Y/Z`. The loop of the latter stops in front of `Y`. -/
def parseRange (fieldname : String) (first last num1 : Nat) (dst : Vector Bool n) (ptr : Bytes) :
    Res (Vector Bool n × Bytes) :=
  if ptr.head? = some 45 then do
    let (num2, ptr) ← parseInt ptr.tail
    if last < num2 ∨ num2 < first then Res.throw (outOfRange fieldname num2)
    else if ptr.head? = some 47 then do
      let (num3, ptr) ← parseInt ptr.tail
      let dst ← run (enableNth first num3) dst (indices num1 (num2 - first - num1))
      .ok (dst, ptr)
    else do
      let dst ← run enable dst (indices num1 (num2 - first + 1 - num1))
      .ok (dst, ptr)
  else .ok (dst, ptr)

/-- common/schedule.c:73-117: a value of a list, and the comma behind it. -/
def parseValue (fieldname : String) (first last : Nat) (dst : Vector Bool n) (ptr : Bytes) :
    Res (Vector Bool n × Bytes) := do
  let (num1, ptr) ← parseInt ptr
  if last < num1 ∨ num1 < first then Res.throw (outOfRange fieldname num1)
  else do
    let _ ← Res.assert (decide (num1 - first < n)) "num1 < dstsize"
    let dst ← enable dst (num1 - first)
    let (dst, ptr) ← parseRange fieldname first last (num1 - first) dst ptr
    .ok (dst, if ptr.head? = some 44 then ptr.tail else ptr)

/-- The loop over the values; each takes a digit of the text. -/
def parseList (fieldname : String) (first last : Nat) : Nat → Vector Bool n → Bytes →
    Res (Vector Bool n × Bytes)
  | 0, _, _ => Res.hang
  | fuel + 1, dst, ptr =>
    if ptr = [] ∨ ptr.head?.any isSpace then .ok (dst, ptr)
    else do
      let (dst, ptr) ← parseValue fieldname first last dst ptr
      parseList fieldname first last fuel dst ptr

/-- mirrors common/schedule.c:39-129 (`parse_field`). -/
def parseField (fieldname : String) (first last : Nat) (dst : Vector Bool n) (ptr : Bytes) :
    Res (Vector Bool n × Bytes) :=
  if ptr.head? = some 42 then
    let ptr := ptr.tail
    if ptr.head? = some 47 then do
      let (num2, ptr) ← parseInt ptr.tail
      let dst ← run (enableNth first num2) dst (indices 0 n)
      .ok (dst, ptr)
    else do
      let dst ← run enable dst (indices 0 n)
      .ok (dst, ptr)
  else if ptr.head?.any isDigit then parseList fieldname first last (ptr.length + 1) dst ptr
  else Res.throw ("invalid crontab format, char not valid in field " ++ fieldname ++ ": [" ++ shown ptr ++ "]")

def all (n : Nat) : Vector Bool n := .replicate n true

def enableFirst (dst : Vector Bool n) : Vector Bool n := dst.setIfInBounds 0 true

end Field

/-- mirrors common/schedule.c:133-221 (`parse_macro`). -/
def parseMacro (entry : Crontab) (str : Bytes) : Res Crontab :=
  if caseEq (ascii "reboot") str then Res.throw "@reboot not supported"
  else if caseEq (ascii "yearly") str ∨ caseEq (ascii "annually") str then
    .ok ⟨enableFirst entry.min, enableFirst entry.hour, enableFirst entry.day, enableFirst entry.month, all 8⟩
  else if caseEq (ascii "monthly") str then
    .ok ⟨enableFirst entry.min, enableFirst entry.hour, enableFirst entry.day, all 12, all 8⟩
  else if caseEq (ascii "weekly") str then
    .ok ⟨enableFirst entry.min, enableFirst entry.hour, all 31, all 12, enableFirst entry.wday⟩
  else if caseEq (ascii "daily") str ∨ caseEq (ascii "midnight") str then
    .ok ⟨enableFirst entry.min, enableFirst entry.hour, all 31, all 12, all 8⟩
  else if caseEq (ascii "hourly") str then .ok ⟨enableFirst entry.min, all 24, all 31, all 12, all 8⟩
  else Res.throw ("invalid crontab macro: @" ++ shown str)

def skipSpace (ptr : Bytes) : Bytes := ptr.dropWhile fun c => c = 32 ∨ c = 9

/-- common/schedule.c:262-265: Sunday is 0 or 7. -/
def sunday (wday : Vector Bool 8) : Vector Bool 8 := if wday[7] then enableFirst wday else wday

/-- mirrors common/schedule.c:225-266 (`nx_schedule_entry_parse_crontab`). -/
def parseCrontab (entry : Crontab) (str : Bytes) : Res Crontab :=
  if str.head? = some 64 then parseMacro entry str.tail
  else do
    let (min, ptr) ← parseField "minute" 0 59 entry.min (skipSpace str)
    let (hour, ptr) ← parseField "hour" 0 23 entry.hour (skipSpace ptr)
    let (day, ptr) ← parseField "day" 1 31 entry.day (skipSpace ptr)
    let (month, ptr) ← parseField "month" 1 12 entry.month (skipSpace ptr)
    let (wday, _) ← parseField "weekday" 0 7 entry.wday (skipSpace ptr)
    .ok ⟨min, hour, day, month, sunday wday⟩

/-! ## The next run -/

/-- What `check_timeval` asserts of `apr_time_exp_t`; `tm_mday` is counted from 0 on. -/
structure Exp where
  tm_min : Fin 60
  tm_hour : Fin 24
  tm_mday : Fin 31
  tm_mon : Fin 12
  tm_wday : Fin 7

/-- mirrors common/schedule.c:316-339 (`check_timeval`). -/
def checkTimeval (localtime : Int → Exp) (entry : Crontab) (t : Int) : Bool :=
  let exp := localtime t
  entry.min.get exp.tm_min && entry.hour.get exp.tm_hour && entry.day.get exp.tm_mday &&
    entry.month.get exp.tm_mon &&
    entry.wday.get exp.tm_wday.castSucc

def usecPerSec : Int := 1000000

/-- A minute, and the 365 days that are searched, in microseconds. -/
def minuteUsec : Int := usecPerSec * 60

def searchUsec : Int := usecPerSec * 60 * 60 * 24 * 365

def firstMinute (now : Int) : Int := (now.tdiv minuteUsec + 1) * minuteUsec

def scan (localtime : Int → Exp) (entry : Crontab) (stop : Int) : Nat → Int → Res Int
  | 0, _ => Res.hang
  | fuel + 1, tmpval =>
    if tmpval < stop then
      if checkTimeval localtime entry tmpval then .ok tmpval
      else scan localtime entry stop fuel (tmpval + minuteUsec)
    else .error (.assert "should not reach")

/-- `nx_schedule_entry_t`: an interval in seconds with the time of the first run, or a crontab
entry. -/
inductive Entry where
  | every (every first : Int)
  | crontab (entry : Crontab)

def advance (step now : Int) : Nat → Int → Res Int
  | 0, _ => Res.hang
  | fuel + 1, first => if first ≤ now then advance step now fuel (first + step) else .ok first

/-- Rounds of the loop over the minutes that are enough. -/
def scanRounds : Nat := 60 * 24 * 365 + 1

/-- mirrors common/schedule.c:343-388 (`nx_schedule_entry_next_run`): the time, and the entry as it
is left. -/
def nextRun (localtime : Int → Exp) (now : Int) : Entry → Res (Int × Entry)
  | .every every first => do
    let _ ← Res.assert (decide (0 < every)) "entry->every > 0"
    if first ≠ 0 then do
      let first ← advance (every * usecPerSec) now ((now - first).toNat + 2) first
      .ok (first, .every every first)
    else .ok (now, .every every now)
  | .crontab entry => do
    let t ← scan localtime entry (now + searchUsec) scanRounds (firstMinute now)
    .ok (t, .crontab entry)

theorem minuteUsec_eq : minuteUsec = 60000000 := rfl

/-- The search tries the minute `m`. -/
def Tried (t stop m : Int) : Prop := minuteUsec ∣ m - t ∧ t ≤ m ∧ m < stop

theorem Tried.step {t stop m : Int} : Tried t stop m ↔ m = t ∧ t < stop ∨ Tried (t + minuteUsec) stop m := by
  rw [Tried, Tried, minuteUsec_eq]
  omega

/-- The first minute that matches is found; if there is none, the process panics. -/
theorem scan_spec (localtime : Int → Exp) (entry : Crontab) {stop : Int} {fuel : Nat} {t : Int}
    (hfuel : stop < t + fuel * minuteUsec) :
    (∃ r, scan localtime entry stop (fuel + 1) t = .ok r ∧ Tried t stop r ∧
      checkTimeval localtime entry r = true ∧
      ∀ m, Tried t r m → checkTimeval localtime entry m = false) ∨
    scan localtime entry stop (fuel + 1) t = .error (.assert "should not reach") ∧
      ∀ m, Tried t stop m → checkTimeval localtime entry m = false := by
  have hend : ∀ {t stop m}, stop ≤ t → ¬ Tried t stop m := fun hle hm => by
    have := hm.2
    omega
  rw [minuteUsec_eq] at hfuel
  induction fuel generalizing t with
  | zero => exact .inr ⟨if_neg (by omega), fun m hm => absurd hm (hend (by omega))⟩
  | succ fuel ih =>
    rw [scan]
    split
    · next hstop =>
      split
      · next hcheck =>
        exact .inl ⟨t, rfl, Tried.step.mpr (.inl ⟨rfl, hstop⟩), hcheck,
          fun m hm => absurd hm (hend (Int.le_refl t))⟩
      · next hno =>
        have hlater : ∀ {stop m}, (Tried (t + minuteUsec) stop m → checkTimeval localtime entry m = false) →
            Tried t stop m → checkTimeval localtime entry m = false := by
          intro stop m hm h
          rcases Tried.step.mp h with ⟨rfl, -⟩ | h
          · simpa using hno
          · exact hm h
        rcases ih (t := t + minuteUsec) (by rw [minuteUsec_eq]; omega) with
          ⟨r, hr, htried, hcheck, hfirst⟩ | ⟨hr, hnone⟩
        · exact .inl ⟨r, hr, Tried.step.mpr (.inr htried), hcheck, fun m => hlater (hfirst m)⟩
        · exact .inr ⟨hr, fun m => hlater (hnone m)⟩
    · next hstop => exact .inr ⟨rfl, fun m hm => absurd hm (hend (by omega))⟩

/-- The division rounds towards 0: before 1970, the first minute may be the second one behind
`now`. -/
theorem firstMinute_bounds (now : Int) : now < firstMinute now ∧ firstMinute now ≤ now + 2 * minuteUsec := by
  rw [firstMinute]
  simp only [minuteUsec, usecPerSec]
  rcases Int.le_total 0 now with hpos | hneg
  · rw [Int.tdiv_eq_ediv_of_nonneg hpos]
    omega
  · have hflip : now.tdiv (1000000 * 60) = -((-now) / (1000000 * 60)) := by
      rw [← Int.tdiv_eq_ediv_of_nonneg (by omega), Int.neg_tdiv, Int.neg_neg]
    rw [hflip]
    omega

theorem scanRounds_enough (now : Int) :
    now + searchUsec < firstMinute now + ((60 * 24 * 365 : Nat) : Int) * minuteUsec := by
  have hbounds := firstMinute_bounds now
  simp only [minuteUsec, searchUsec, usecPerSec] at hbounds ⊢
  omega

/-- An entry has a next run exactly if it matches a minute that is less than 365 days ahead. -/
theorem next_run_iff (localtime : Int → Exp) (entry : Crontab) (now : Int) :
    (∃ r, nextRun localtime now (.crontab entry) = .ok r) ↔
      ∃ t, minuteUsec ∣ t ∧ firstMinute now ≤ t ∧ t < now + searchUsec ∧
      checkTimeval localtime entry t = true := by
  have hminute : minuteUsec ∣ firstMinute now := Int.dvd_mul_left _ _
  have htried (t : Int) : Tried (firstMinute now) (now + searchUsec) t ↔
      minuteUsec ∣ t ∧ firstMinute now ≤ t ∧ t < now + searchUsec := by
    rw [minuteUsec_eq] at hminute
    rw [Tried, minuteUsec_eq]
    omega
  rcases scan_spec localtime entry (scanRounds_enough now) with ⟨r, hr, hin, hcheck, -⟩ | ⟨hr, hnone⟩
  · obtain ⟨hdvd, hle, hlt⟩ := (htried r).mp hin
    exact iff_of_true ⟨(r, .crontab entry), by rw [nextRun, scanRounds, hr]; rfl⟩ ⟨r, hdvd, hle, hlt, hcheck⟩
  refine iff_of_false ?_ ?_
  · intro ⟨r, hrun⟩
    rw [nextRun, scanRounds, hr] at hrun
    cases hrun
  · intro ⟨t, hdvd, hle, hlt, hcheck⟩
    rw [hnone t ((htried t).mpr ⟨hdvd, hle, hlt⟩)] at hcheck
    cases hcheck

/-! The search is a day short of a leap year: an entry that runs once a year is not found from its
run in such a year, nor from the minute of its run in any year. -/

/-- Days from 1 January of the year 1 to 1 January 1970, a Thursday. -/
def epochDay : Int := 719162

/-- `apr_time_exp_lt` where the local time is UTC. -/
def utc (t : Int) : Exp where
  tm_min := ⟨(t / usecPerSec / 60 % 60).toNat, by omega⟩
  tm_hour := ⟨(t / usecPerSec / 3600 % 24).toNat, by omega⟩
  tm_mday := (monthOfDay (t / usecPerSec / 86400 + epochDay)).2
  tm_mon := (monthOfDay (t / usecPerSec / 86400 + epochDay)).1
  tm_wday := ⟨((t / usecPerSec / 86400 + 4) % 7).toNat, by omega⟩

def yearly : Crontab :=
  ⟨enableFirst (.replicate 60 false), enableFirst (.replicate 24 false),
    enableFirst (.replicate 31 false), enableFirst (.replicate 12 false), all 8⟩

theorem enableFirst_get {n : Nat} {i : Fin (n + 1)}
    (h : (enableFirst (.replicate (n + 1) false)).get i = true) :
    i = 0 := by
  change ((Vector.replicate (n + 1) false).setIfInBounds 0 true)[i.1] = true at h
  rw [Vector.getElem_setIfInBounds] at h
  split at h
  · next hi => exact Fin.ext hi.symm
  · simp at h

/-- It runs at midnight only, on 1 January. -/
theorem yearly_utc {t : Int} (hminute : minuteUsec ∣ t) (h : checkTimeval utc yearly t = true) :
    t / usecPerSec % 86400 = 0 ∧ monthOfDay (t / usecPerSec / 86400 + epochDay) = (0, 0) := by
  simp only [checkTimeval, yearly, Bool.and_eq_true] at h
  obtain ⟨⟨⟨⟨hmin, hhour⟩, hday⟩, hmonth⟩, -⟩ := h
  have hmin : (t / usecPerSec / 60 % 60).toNat = 0 := congrArg Fin.val (enableFirst_get hmin)
  have hhour : (t / usecPerSec / 3600 % 24).toNat = 0 := congrArg Fin.val (enableFirst_get hhour)
  refine ⟨?_, Prod.ext (enableFirst_get hmonth) (enableFirst_get hday)⟩
  obtain ⟨k, rfl⟩ := hminute
  simp only [minuteUsec, usecPerSec] at hmin hhour ⊢
  omega

/-- No day of the rest of 2024 is 1 January. -/
theorem rest_of_leap_year : ∀ k < 364, monthOfDay (19724 + (k : Nat) + epochDay) ≠ (0, 0) := by decide +kernel

/-- From 1 January 2024, 0:00, the next run of `@yearly` is 366 days ahead. -/
theorem yearly_leap_year : parseCrontab Crontab.zero (ascii "@yearly") = .ok yearly ∧
    checkTimeval utc yearly (1735689600 * usecPerSec) = true ∧
    nextRun utc (1704067200 * usecPerSec) (.crontab yearly) = .error (.assert "should not reach") := by
  refine ⟨by decide +kernel, by decide +kernel, ?_⟩
  rcases scan_spec utc yearly (scanRounds_enough (1704067200 * usecPerSec)) with
    ⟨r, -, hin, hcheck, -⟩ | ⟨hscan, -⟩
  · have hfirst : firstMinute (1704067200 * usecPerSec) = 1704067260 * usecPerSec := by decide
    obtain ⟨hdvd, hle, hlt⟩ := hin
    rw [hfirst, usecPerSec] at hdvd hle
    obtain ⟨hmidnight, hday⟩ := yearly_utc (show minuteUsec ∣ r by rw [minuteUsec_eq] at hdvd ⊢; omega) hcheck
    -- a midnight after 1 January and before 31 December
    generalize hd : r / usecPerSec / 86400 = d at hday
    have hrange : 19724 ≤ d ∧ d < 19724 + 364 := by
      simp only [searchUsec, usecPerSec] at hlt hmidnight hd
      omega
    obtain ⟨j, rfl⟩ : ∃ j : Nat, d = 19724 + j := ⟨(d - 19724).toNat, by omega⟩
    exact absurd hday (rest_of_leap_year j (by omega))
  · rw [nextRun, scanRounds, hscan]
    rfl

/-! ## The earliest run -/

/-- The local time of `t` is enabled in all tables; Sunday is 0 or 7. -/
def Enabled (localtime : Int → Exp) (entry : Crontab) (t : Int) : Prop :=
  entry.min.get (localtime t).tm_min = true ∧ entry.hour.get (localtime t).tm_hour = true ∧
  entry.day.get (localtime t).tm_mday = true ∧ entry.month.get (localtime t).tm_mon = true ∧
  (entry.wday.get (localtime t).tm_wday.castSucc = true ∨ (localtime t).tm_wday = 0 ∧ entry.wday[7] = true)

theorem sunday_spec (wday : Vector Bool 8) (h : (sunday wday)[7] = true) : (sunday wday)[0] = true := by
  unfold sunday enableFirst at *
  split at h <;> simp_all

variable {entry entry' : Crontab}

theorem parseMacro_sunday {str : Bytes} (h : parseMacro entry str = .ok entry')
    (h7 : entry'.wday[7] = true) : entry'.wday[0] = true := by
  unfold parseMacro at h
  repeat' split at h
  all_goals cases h
  all_goals simp [all, enableFirst]

/-- However the entry was filled, Sunday is enabled as 0 if it is as 7. -/
theorem parseCrontab_sunday {str : Bytes} (h : parseCrontab entry str = .ok entry')
    (h7 : entry'.wday[7] = true) : entry'.wday[0] = true := by
  unfold parseCrontab at h
  split at h
  · exact parseMacro_sunday h h7
  obtain ⟨_, -, h⟩ := bind_eq_ok.mp h
  obtain ⟨_, -, h⟩ := bind_eq_ok.mp h
  obtain ⟨_, -, h⟩ := bind_eq_ok.mp h
  obtain ⟨_, -, h⟩ := bind_eq_ok.mp h
  obtain ⟨_, -, h⟩ := bind_eq_ok.mp h
  cases h
  exact sunday_spec _ h7

variable {localtime : Int → Exp} {entry : Crontab}

theorem checkTimeval_iff (h : entry.wday[7] = true → entry.wday[0] = true)
    (t : Int) : checkTimeval localtime entry t = true ↔ Enabled localtime entry t := by
  have hsun : (localtime t).tm_wday = 0 ∧ entry.wday[7] = true →
      entry.wday.get (localtime t).tm_wday.castSucc = true := by
    rintro ⟨h0, h7⟩
    rw [h0]
    exact h h7
  simp only [checkTimeval, Enabled, Bool.and_eq_true, and_assoc, or_iff_left_of_imp hsun]

/-- The next run is a whole minute after `now` that is enabled, and no minute in between is. -/
theorem next_run_earliest (localtime : Int → Exp) (entry₀ entry : Crontab) (str : Bytes)
    (now r : Int) (e : Entry)
    (hparse : parseCrontab entry₀ str = .ok entry) (hnow : 0 ≤ now)
    (h : nextRun localtime now (.crontab entry) = .ok (r, e)) :
    minuteUsec ∣ r ∧ now < r ∧ Enabled localtime entry r ∧
      ∀ t, minuteUsec ∣ t → now < t → t < r → ¬ Enabled localtime entry t := by
  obtain ⟨r, hr, h⟩ := bind_eq_ok.mp h
  cases h
  have hcheck (t : Int) : checkTimeval localtime entry t = true ↔ Enabled localtime entry t :=
    checkTimeval_iff (parseCrontab_sunday hparse) t
  have hminute : minuteUsec ∣ firstMinute now := Int.dvd_mul_left _ _
  have hfirst : firstMinute now ≤ now + minuteUsec ∧ now < firstMinute now := by
    rw [firstMinute, Int.tdiv_eq_ediv_of_nonneg hnow]
    simp only [minuteUsec, usecPerSec]
    omega
  rw [minuteUsec_eq] at hminute hfirst ⊢
  rcases scan_spec localtime entry (scanRounds_enough now) with
    ⟨r', hr', ⟨hdvd, hle, -⟩, hmatch, hbefore⟩ | ⟨hr', -⟩
  · rw [scanRounds, hr'] at hr
    cases hr
    rw [minuteUsec_eq] at hdvd
    refine ⟨by omega, by omega, (hcheck r).mp hmatch, fun t ht hnt htr hen => ?_⟩
    have hno := hbefore t ⟨by rw [minuteUsec_eq]; omega, by omega, htr⟩
    rw [(hcheck t).mpr hen] at hno
    cases hno
  · rw [scanRounds, hr'] at hr
    cases hr

def quarters : Crontab := ⟨.ofFn fun i => i.1 % 15 == 0, all 24, all 31, all 12, all 8⟩

/-- From 00:16 on, `*/15` runs at 00:30. -/
theorem next_run_earliest_quarter :
    Enabled utc quarters (30 * minuteUsec) ∧
      ∀ t, minuteUsec ∣ t → 16 * minuteUsec < t → t < 30 * minuteUsec → ¬ Enabled utc quarters t :=
  (next_run_earliest utc .zero quarters (ascii "*/15 * * * *") (16 * minuteUsec) (30 * minuteUsec)
    (.crontab quarters) (by decide +kernel) (by decide) rfl).2.2

end Nxlog.L4.Schedule
