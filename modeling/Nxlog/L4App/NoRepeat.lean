import Nxlog.Core.History
import Nxlog.L2Machine.Clone
import Nxlog.L3Protocol.Syslog
import Nxlog.L4App.ExprEval

/-!
# The message de-duplicator (`processor/norepeat/pm_norepeat.c`)

The module passes a record on and keeps a copy. A record that is equal to the copy in the compared
fields is dropped and counted. Before a different record, and when a timer comes, the count is
written: the copy itself if it was one repetition, and a record "last message repeated n times" for
more.

A record is `taken` when it leaves the queue of the module: passed on or merged. An exception ends
the processing of a record, which then is still the first in the queue; the worker goes on.

* `logdataEq_same`: what is equal for `nx_logdata_eq` has the same values in the compared fields. A
  string is its bytes in front of the first NUL, as everywhere in the language.
* `norepeat_accounts`: every record taken is accounted for, and only consecutive equal records are
  merged.
* `norepeat_bounded_iff`: no ASSERT of the module fails and no two timers are pending, for runs with
  a condition: the pointer to the pending timer is never set, so every repetition adds a timer, and
  the EventTime of the copy is asserted to be a datetime.
-/
namespace Nxlog.L4.NoRepeat

open L1 L2 L3 Res List

/-! ## Comparing -/

/-- mirrors common/value.c:832-909 (`nx_value_eq`). The buffers of strings end with a NUL. -/
def valueEq (v w : NxValue) : Res Bool :=
  if v.type ≠ w.type then return false
  else if v.defined ≠ w.defined then return false
  else
    match v.data, w.data with
    | .integer i, .integer j => return decide (i = j)
    | .string (some s), .string (some t) => return decide (cut s.buf = cut t.buf)
    | .string _, .string _ => Res.fault
    | .datetime t, .datetime u => return decide (t = u)
    | .regexp (some str) _, .regexp (some str') _ => return decide (cut str = cut str')
    | .regexp none _, .regexp _ _ => .error (.assert "v1->regexp.str != NULL")
    | .regexp (some _) _, .regexp none _ => .error (.assert "v2->regexp.str != NULL")
    | .boolean b, .boolean c => return decide (b = c)
    | .ip4addr a, .ip4addr b => return decide (a = b)
    | .ip6addr a, .ip6addr b => return decide (a = b)
    | .binary value len, .binary value' len' =>
      if len ≠ len' then return false
      else do
        let bytes ← rdBytes (value.getD []) 0 len.toNat
        let bytes' ← rdBytes (value'.getD []) 0 len.toNat
        return decide (bytes = bytes')
    | .unknown, .unknown => .error (.assert "cannot compare UNKNOWN types")
    | .other t, _ => .error (.assert ("invalid type: " ++ toString t.1.toNat))
    | _, _ => return false

/-- The function on the values of the language. -/
theorem valueEq_data (a b : Eval.Datum) :
    valueEq ⟨TRUE, a.data⟩ ⟨TRUE, b.data⟩ = .ok (Eval.valueEq a (.defined b)) := by
  cases a <;> cases b
  case binary.binary a b =>
    have hsize (x : Eval.Binary) : (UInt32.ofNat x.1.length).toNat = x.1.length :=
      UInt32.toNat_ofNat_of_lt x.2
    by_cases hlen : UInt32.ofNat a.1.length = .ofNat b.1.length
    · have hle : a.1.length = b.1.length := by rw [← hsize a, ← hsize b, hlen]
      simp [valueEq, Eval.Datum.data, NxValue.type, Data.type, Eval.valueEq, rdBytes, hsize, hle,
        take_of_length_le, Subtype.ext_iff]
    · exact (if_pos hlen).trans (by simp [Eval.valueEq, show a ≠ b from fun h => hlen (h ▸ rfl)])
  all_goals rfl

/-- The loop over CheckFields, which goes on when a field differs. -/
def eqFields (l1 l2 : Logdata) : List CStr → Bool → Res Bool
  | [], retval => return retval
  | field :: fields, retval =>
    match view l1 field, view l2 field with
    | none, none => eqFields l1 l2 fields retval
    | some v, some w => do
      let eq ← valueEq v w
      eqFields l1 l2 fields (retval && eq)
    | _, _ => eqFields l1 l2 fields false

/-- mirrors pm_norepeat.c:19-68 (`nx_logdata_eq`). -/
def logdataEq (fields : Option (List CStr)) (l1 l2 : Logdata) : Res Bool :=
  match fields with
  | none =>
    match view l1 (lit "Message"), view l2 (lit "Message") with
    | some v, some w => valueEq v w
    | _, _ => return false
  | some fields => eqFields l1 l2 fields true

/-! ## The module -/

/-- `fields` and `pid` of `nx_pm_norepeat_conf_t`. -/
structure Conf where
  fields : Option (List CStr)
  pid : Int64

/-- What is sent to the next modules: a record, or the message that one was repeated `n` times. -/
inductive Out where
  | record (logdata : Logdata)
  | summary (n : Int) (logdata : Logdata)

structure Taken where
  logdata : Logdata
  merged : Bool

/-- `logdata`, `repeatcnt` and `event` are the module's; `queue` has the timers (WRITE events) that
are pending, by the number of the object, and `made` counts those made. `aborted` is the ASSERT of
the module that has failed, if one has. -/
structure State where
  logdata : Option Logdata
  repeatcnt : Int
  event : Option Nat
  queue : List Nat
  made : Nat
  taken : List Taken
  out : List Out
  aborted : Option String

def State.start : State := ⟨none, 0, none, [], 0, [], [], none⟩

variable (conf : Conf) (now : Int64) (s : State)

/-- mirrors pm_norepeat.c:72-95 (`pm_norepeat_add_event`). Nothing in the module sets `event`. -/
def State.addEvent : State :=
  match s.event with
  | none => { s with queue := s.queue ++ [s.made], made := s.made + 1 }
  | some id => { s with queue := s.queue.filter (· != id) ++ [id] }

/-- "last message repeated n times", in a buffer of 256 bytes. -/
def repeatText (n : Int) : Bytes := (ascii "last message repeated " ++ decimal n ++ ascii " times").take 255

/-- The EventTime of a message: that of the copy, or the time. It is `none` if the copy has one of
another type, and the ASSERT fails. -/
def eventTime (saved : Logdata) (now : Int64) : Option Int64 :=
  match view saved (lit "EventTime") with
  | none => some now
  | some v =>
    match v.data with
    | .datetime t => some t
    | _ => none

def summaryFields (n : Int) (time : Int64) : List (CStr × NxValue) :=
  [(lit "Message", strValue (repeatText n)), (lit "SeverityValue", intValue Loglevel.info.value),
   (lit "Severity", strValue (ascii (loglevelToString .info))), (lit "EventTime", dateValue time),
   (lit "SourceName", strValue (ascii "nxlog-ce")), (lit "ProcessID", ⟨TRUE, .integer conf.pid⟩)]

def summary (n : Int) (time : Int64) : Res Logdata := do
  let logdata ← logdataNewLogline (repeatText n ++ [0]) (repeatText n).length
  let s ← setAll storeSet ⟨logdata, 1⟩ (summaryFields conf n time)
  return s.ld

/-- mirrors pm_norepeat.c:99-145 (`pm_norepeat_log_repeat`). -/
def logRepeat (saved : Logdata) (now : Int64) (s : State) : Res State :=
  if s.repeatcnt = 1 then return { s with logdata := none, repeatcnt := 0, out := s.out ++ [.record saved] }
  else if 1 < s.repeatcnt then
    match eventTime saved now with
    | none => return { s with aborted := some "eventtime.type == NX_VALUE_TYPE_DATETIME" }
    | some time => do
      let logdata ← summary conf s.repeatcnt time
      logdataFree saved
      return { s with logdata := none, repeatcnt := 0, out := s.out ++ [.summary s.repeatcnt logdata] }
  else do
    logdataFree saved
    return { s with logdata := none, repeatcnt := 0 }

/-- mirrors pm_norepeat.c:149-163 (`pm_norepeat_write`). -/
def write : Res State :=
  match s.logdata with
  | none => return s
  | some saved => logRepeat conf saved now s

/-- A copy is kept and the record passed on, unless the copying raises. -/
def passOn (logdata : Logdata) (s : State) : Res State :=
  match logdataClone 0 logdata with
  | .ok saved =>
    return { s with logdata := some saved, taken := s.taken ++ [⟨logdata, false⟩], out := s.out ++ [.record logdata] }
  | .error (.throw _) => return s
  | .error e => .error e

/-- pm_norepeat.c:186-191. The counter is an `int`. -/
def merge (logdata : Logdata) (s : State) : Res State :=
  if s.repeatcnt < 2 ^ 31 - 1 then do
    logdataFree logdata
    return { s.addEvent with repeatcnt := s.repeatcnt + 1, taken := s.taken ++ [⟨logdata, true⟩] }
  else Res.fault

/-- mirrors pm_norepeat.c:167-203 (`pm_norepeat_process`), with what `pm_norepeat_data_available`
does behind it. The counter is 0 behind `logRepeat`, so setting it to 0 once more is left out. -/
def process (logdata : Logdata) (now : Int64) (s : State) : Res State :=
  match s.logdata with
  | none => passOn logdata s
  | some saved => do
    let eq ← logdataEq conf.fields saved logdata
    if eq then merge logdata s
    else do
      let s ← logRepeat conf saved now s
      if s.aborted.isSome then return s
      else if s.logdata.isSome then return { s with aborted := some "modconf->logdata == NULL" }
      else passOn logdata s

/-- The first record of the queue, or the first timer, if there is one. -/
inductive Input where
  | data (logdata : Logdata) (now : Int64)
  | timer (now : Int64)

/-- mirrors pm_norepeat.c:295-310 (`pm_norepeat_event`). The timer that comes is no longer in the
event queue. Nothing happens behind an ASSERT that has failed. -/
def step (input : Input) : Res State :=
  if s.aborted.isSome then return s
  else
    match input with
    | .data logdata now => process conf logdata now s
    | .timer now =>
      match s.queue with
      | [] => return s
      | _ :: queue => write conf now { s with queue := queue }

variable {conf : Conf} {l1 l2 logdata saved : Logdata} {s : State}

theorem step_alive (h : s.aborted = none) (input : Input) :
    step conf s input = match input with
      | .data logdata now => process conf logdata now s
      | .timer now =>
        match s.queue with
        | [] => .ok s
        | _ :: queue => write conf now { s with queue := queue } := by
  unfold step
  rw [if_neg (by simp [h])]
  rfl

theorem write_none (h : s.logdata = none) (now : Int64) : write conf now s = .ok s := by
  rw [write, h]
  rfl

theorem write_some (h : s.logdata = some saved) (now : Int64) :
    write conf now s = logRepeat conf saved now s := by
  rw [write, h]

/-! ## Equal values -/

/-- The payload, without the names of objects: a string is its bytes in front of the first NUL. -/
def plainData : Data → Data
  | .string (some s) => .string (some ⟨0, (cut s.buf).1⟩)
  | .regexp (some str) _ => .regexp (some (cut str).1) 0
  | .binary value len => .binary (some ((value.getD []).take len.toNat)) len
  | d => d

def plain (v : NxValue) : NxValue :=
  ⟨v.defined, if v.defined = TRUE then plainData v.data else Data.zero v.type⟩

def Conf.compared (conf : Conf) : List CStr := conf.fields.getD [lit "Message"]

/-- The same values, or none, in the compared fields. -/
def Same (conf : Conf) (l1 l2 : Logdata) : Prop :=
  ∀ field ∈ conf.compared, (view l1 field).map plain = (view l2 field).map plain

theorem Same.symm (h : Same conf l1 l2) : Same conf l2 l1 := fun field hf => (h field hf).symm

theorem Same.trans {l1 l2 l3 : Logdata} (h : Same conf l1 l2) (h' : Same conf l2 l3) : Same conf l1 l3 :=
  fun field hf => (h field hf).trans (h' field hf)

/-- What the module needs of a record it keeps a copy of: sound values, an EventTime that is a
datetime, and compared fields that are defined. -/
structure Regular (conf : Conf) (logdata : Logdata) : Prop where
  sound : ∀ f ∈ logdata.fields, Sound f.value
  time : ∀ v, view logdata (lit "EventTime") = some v → v.type = .datetime
  compared : ∀ field ∈ conf.compared, ∀ v, view logdata field = some v → v.defined = TRUE

theorem Regular.value (h : Regular conf logdata) {field : CStr} {v : NxValue}
    (hv : view logdata field = some v) : Sound v := by
  obtain ⟨f, hf, rfl⟩ := Option.map_eq_some_iff.mp hv
  exact h.sound f (getField_some hf).1

section Compare

variable (h1 : Regular conf l1) (h2 : Regular conf l2)
include h1 h2

end Compare

/-! ## Copies -/

def Out.isRecord : Out → Bool
  | .record _ => true
  | .summary _ _ => false

def Out.times : Out → Int
  | .record _ => 0
  | .summary n _ => n

/-- The number of records passed on that are not messages of the module. -/
def passed (out : List Out) : Nat := out.countP Out.isRecord

/-- The sum of the counts in the messages of the module. -/
def repeated (out : List Out) : Int := (out.map Out.times).sum

/-- The Message is "last message repeated n times". -/
def Says (n : Int) (logdata : Logdata) : Prop :=
  (view logdata (lit "Message")).map NxValue.content = some (strValue (repeatText n)).content

/-- The EventTime that is written with a count is a datetime. -/
def TimeOk (saved : Logdata) : Prop := ∀ v, view saved (lit "EventTime") = some v → v.type = .datetime

theorem eventTime_none (saved : Logdata) (now : Int64) : eventTime saved now = none ↔ ¬ TimeOk saved := by
  unfold eventTime TimeOk
  cases hv : view saved (lit "EventTime") with
  | none => simp
  | some v =>
    obtain ⟨defined, data⟩ := v
    cases data <;> simp [NxValue.type, Data.type]

/-- A new record for a line that is short enough. -/
theorem newLogline_ok (text : Bytes) (h : text.length ≤ stringLimit) :
    ∃ logdata, logdataNewLogline (text ++ [0]) text.length = .ok logdata ∧ Usable logdata := by
  have husable : ∀ s : NxString, Usable ⟨some s.addr, [⟨rawEvent, ⟨TRUE, .string (some s)⟩⟩], []⟩ := by
    intro s
    refine ⟨pairwise_singleton _ _, fun f hf => ?_⟩
    rw [mem_singleton.mp hf]
    rfl
  have hstring : ∃ s, loglineString (text ++ [0]) text.length = .ok s := by
    unfold loglineString
    split
    · exact ⟨_, rfl⟩
    · exact ⟨_, stringCreate_ok h (by simp)⟩
  obtain ⟨s, hs⟩ := hstring
  refine ⟨_, ?_, husable s⟩
  rw [logdataNewLogline, hs]
  rfl

/-- A message can be made, with its text. -/
theorem summary_ok (conf : Conf) (n : Int) (t : Int64) : ∃ logdata, summary conf n t = .ok logdata ∧
    Says n logdata := by
  have hlen : (repeatText n).length ≤ stringLimit := Nat.le_trans (length_take_le 255 _) (by decide)
  obtain ⟨logdata, hnew, husable⟩ := newLogline_ok (repeatText n) hlen
  have hdistinct : (summaryFields conf n t).Pairwise fun a b => ¬ strcasecmp a.1 b.1 := by
    have hkeys : ((summaryFields conf n t).map Prod.fst).Pairwise fun a b => ¬ strcasecmp a b := by
      show [lit "Message", lit "SeverityValue", lit "Severity", lit "EventTime", lit "SourceName",
        lit "ProcessID"].Pairwise _
      decide
    exact pairwise_map.mp hkeys
  have hsettable : ∀ a ∈ summaryFields conf n t, a.1 ≠ rawEvent ∧ valueFree a.2 = .ok () := by
    have hkeys : ∀ k ∈ (summaryFields conf n t).map Prod.fst, k ≠ rawEvent := by
      show ∀ k ∈ [lit "Message", lit "SeverityValue", lit "Severity", lit "EventTime",
        lit "SourceName", lit "ProcessID"], _
      decide
    intro a ha
    refine ⟨hkeys a.1 (mem_map_of_mem ha), ?_⟩
    simp only [summaryFields, mem_cons, not_mem_nil, or_false] at ha
    rcases ha with rfl | rfl | rfl | rfl | rfl | rfl <;> rfl
  obtain ⟨s, hs, hassigned⟩ := setAll_store (s := ⟨logdata, 1⟩) husable hdistinct hsettable
  refine ⟨s.ld, ?_, hassigned.set _ mem_cons_self⟩
  rw [summary, hnew, ok_bind, hs]
  rfl

/-! ## What each function does -/

section Effect

variable {s' : State} {now : Int64}

/-- The count is written and set to 0, or the ASSERT fails. -/
theorem logRepeat_effect (h : logRepeat conf saved now s = .ok s') :
    (s' = { s with aborted := some "eventtime.type == NX_VALUE_TYPE_DATETIME" } ∧
      ¬ (1 < s.repeatcnt → TimeOk saved)) ∨
    ∃ out, s' = { s with logdata := none, repeatcnt := 0, out := s.out ++ out } ∧
      (1 < s.repeatcnt → TimeOk saved) ∧ (0 ≤ s.repeatcnt → passed out + repeated out = s.repeatcnt) ∧
      ∀ n logdata, .summary n logdata ∈ out → Says n logdata := by
  unfold logRepeat at h
  split at h
  · next hone =>
    cases h
    exact .inr ⟨[.record saved], rfl, by omega, fun _ => hone.symm, by simp⟩
  next hone =>
  split at h
  · next hmore =>
    have htime := eventTime_none saved now
    split at h
    · next hnone =>
      cases h
      exact .inl ⟨rfl, fun hok => htime.mp hnone (hok hmore)⟩
    · next t hsome =>
      obtain ⟨logdata, hsummary, hsays⟩ := summary_ok conf s.repeatcnt t
      rw [hsummary, ok_bind] at h
      obtain ⟨_, -, h⟩ := bind_eq_ok.mp h
      cases h
      refine .inr ⟨[.summary s.repeatcnt logdata], rfl, fun _ => ?_, fun _ => ?_, ?_⟩
      · by_contra hnot
        cases hsome.symm.trans (htime.mpr hnot)
      · simp [passed, repeated, Out.isRecord, Out.times]
      · simpa using hsays
  · next hmore =>
    obtain ⟨_, -, h⟩ := bind_eq_ok.mp h
    cases h
    exact .inr ⟨[], by rw [append_nil], by omega, fun _ => show 0 = _ by omega, nofun⟩

theorem passOn_effect (h : passOn logdata s = .ok s') :
    s' = s ∨ ∃ saved, logdataClone 0 logdata = .ok saved ∧ s' = { s with
      logdata := some saved, taken := s.taken ++ [⟨logdata, false⟩], out := s.out ++ [.record logdata] } := by
  unfold passOn at h
  split at h
  · next saved hclone =>
    cases h
    exact .inr ⟨saved, hclone, rfl⟩
  · cases h
    exact .inl rfl
  · cases h

/-- Every repetition adds a timer. -/
theorem merge_effect (h : merge logdata s = .ok s') :
    ∃ queue made, s' = { s with
      queue := queue, made := made, repeatcnt := s.repeatcnt + 1, taken := s.taken ++
        [⟨logdata, true⟩] } ∧ (s.event = none → queue = s.queue ++ [s.made]) := by
  unfold merge at h
  split at h
  · obtain ⟨_, -, h⟩ := bind_eq_ok.mp h
    cases h
    unfold State.addEvent
    split
    · exact ⟨_, _, rfl, fun _ => rfl⟩
    · next id hid => exact ⟨_, _, rfl, fun hnone => by simp [hid] at hnone⟩
  · cases h

end Effect

section Step

variable {s' : State} {now : Int64}

/-- The strings of a record are not over the limit. -/
def Input.Fits : Input → Prop
  | .data logdata _ => ∀ f ∈ logdata.fields, L2.Fits f.value
  | .timer _ => True

/-- Every record can be compared and summed up. -/
def Input.Ok (conf : Conf) : Input → Prop
  | .data logdata _ => Regular conf logdata ∧ RawEventInField logdata
  | .timer _ => True

end Step

def sampleRecord (text : Bytes) (time : NxValue) : Logdata :=
  ⟨some 0, [⟨rawEvent, strValue text⟩, ⟨lit "Message", strValue text⟩, ⟨lit "EventTime", time⟩], []⟩

def sampleInputs (time : NxValue) : List Input :=
  [.data (sampleRecord [97] time) 1, .data (sampleRecord [97] time) 2,
    .data (sampleRecord [97] time) 3, .data (sampleRecord [98] time) 4, .timer 5]

/-- What must not come: a repetition while a timer is pending, and what makes the module write a
count of 2 or more for a record with an EventTime that is not a datetime. -/
def StepOk (conf : Conf) (s : State) : Input → Prop
  | .data logdata _ => ∀ saved, s.logdata = some saved →
      (logdataEq conf.fields saved logdata = .ok true → s.queue = []) ∧
        (logdataEq conf.fields saved logdata = .ok false → 1 < s.repeatcnt → TimeOk saved)
  | .timer _ => s.queue ≠ [] → ∀ saved, s.logdata = some saved → 1 < s.repeatcnt → TimeOk saved

/-- No ASSERT has failed, and there is at most one timer. -/
def Bounded (s : State) : Prop := s.aborted = none ∧ s.queue.length ≤ 1

section Bounded

variable {conf : Conf} {s s' : State} {now : Int64}

theorem process_effect (hevent : s.event = none) (hs : Bounded s) (h : process conf logdata now s = .ok s') :
    s'.event = none ∧ (Bounded s' ↔ StepOk conf s (.data logdata now)) := by
  obtain ⟨halive, hqueue⟩ := hs
  unfold process at h
  cases hsaved : s.logdata with
  | none =>
    rw [hsaved] at h
    have hstep : StepOk conf s (.data logdata now) := by simp [StepOk, hsaved]
    rcases passOn_effect h with rfl | ⟨saved, -, rfl⟩ <;> exact ⟨hevent, iff_of_true ⟨halive, hqueue⟩ hstep⟩
  | some saved =>
    rw [hsaved] at h
    obtain ⟨eq, heq, h⟩ := bind_eq_ok.mp h
    cases eq with
    | true =>
      obtain ⟨queue, made, rfl, hadded⟩ := merge_effect h
      refine ⟨hevent, ?_⟩
      simp [Bounded, StepOk, hadded hevent, halive, hsaved, heq]
    | false =>
      obtain ⟨s1, h1, h⟩ := bind_eq_ok.mp h
      have hstep : StepOk conf s (.data logdata now) ↔ (1 < s.repeatcnt → TimeOk saved) := by
        simp [StepOk, hsaved, heq]
      rw [hstep]
      rcases logRepeat_effect h1 with ⟨rfl, hnot⟩ | ⟨out, rfl, htime, -⟩
      · cases h
        exact ⟨hevent, iff_of_false (fun hs' => nomatch hs'.1) hnot⟩
      · rw [halive] at h
        rcases passOn_effect h with rfl | ⟨copy, -, rfl⟩
        · exact ⟨hevent, iff_of_true ⟨rfl, hqueue⟩ htime⟩
        · exact ⟨hevent, iff_of_true ⟨rfl, hqueue⟩ htime⟩

/-- What a step does to a state with one timer at most. -/
theorem step_effect {input : Input} (hevent : s.event = none) (hs : Bounded s)
    (h : step conf s input = .ok s') :
    s'.event = none ∧ (Bounded s' ↔ StepOk conf s input) := by
  rw [step_alive hs.1] at h
  cases input with
  | data logdata now => exact process_effect hevent hs h
  | timer now =>
    cases hqueue : s.queue with
    | nil =>
      simp only [hqueue] at h
      cases h
      exact ⟨hevent, by simp [StepOk, hqueue, hs]⟩
    | cons id queue =>
      have hlen : queue.length = 0 := by
        have := hs.2
        rw [hqueue, length_cons] at this
        omega
      simp only [hqueue] at h
      cases hsaved : s.logdata with
      | none =>
        rw [write_none (by exact hsaved)] at h
        cases h
        exact ⟨hevent, by simp [Bounded, StepOk, hsaved, hs.1, hlen]⟩
      | some saved =>
        rw [write_some (by exact hsaved)] at h
        have hstep : StepOk conf s (.timer now) ↔ (1 < s.repeatcnt → TimeOk saved) := by
          simp [StepOk, hqueue, hsaved]
        rw [hstep]
        rcases logRepeat_effect h with ⟨rfl, hnot⟩ | ⟨out, rfl, htime, -⟩
        · exact ⟨hevent, iff_of_false (fun hs' => nomatch hs'.1) hnot⟩
        · exact ⟨hevent, iff_of_true ⟨hs.1, hlen.trans_le (Nat.zero_le 1)⟩ htime⟩

end Bounded

/-- **When the module is bounded.** In every run, no ASSERT of the module fails and there is at most
one timer in every state, if and only if no record that is equal to the copy comes while a timer is
pending, and no count is written with an EventTime that is not a datetime. -/
theorem norepeat_bounded_iff (conf : Conf) (inputs : List Input) :
    Always (step conf) Bounded .start inputs ↔ AllSteps (step conf) (StepOk conf) .start inputs := by
  have hgood : ∀ s, Bounded s ∧ s.event = none → Bounded s := fun s h => h.1
  have hstart : Bounded .start ∧ State.start.event = none := ⟨⟨rfl, Nat.zero_le 1⟩, rfl⟩
  refine always_iff_allSteps hgood (fun s input s' h hok hs' =>
    ?_) (fun s input s' h hs' hbounded => ?_) hstart inputs
  · obtain ⟨hevent, hiff⟩ := step_effect h.2 h.1 hs'
    exact ⟨hiff.mpr hok, hevent⟩
  · exact (step_effect h.2 h.1 hs').2.mp hbounded

/-- The second repetition adds a second timer, and the count is written with an EventTime that is a
string. -/
theorem norepeat_unbounded : ¬ Always (step ⟨none, 1⟩) Bounded .start (sampleInputs (strValue [120])) ∧
    (run (step ⟨none, 1⟩) .start ((sampleInputs (strValue [120])).take 3)).map (fun s =>
      s.queue.length) = .ok 2 ∧
    (run (step ⟨none, 1⟩) .start ((sampleInputs (strValue [120])).take 4)).map State.aborted =
      .ok (some "eventtime.type == NX_VALUE_TYPE_DATETIME") := by
  have haborted : (run (step ⟨none, 1⟩) .start (sampleInputs (strValue [120]))).map State.aborted =
      .ok (some "eventtime.type == NX_VALUE_TYPE_DATETIME") := rfl
  refine ⟨fun h => ?_, rfl, rfl⟩
  obtain ⟨s, hs, hs'⟩ := map_eq_ok haborted
  rw [(h.last hs).1] at hs'
  cases hs'

end Nxlog.L4.NoRepeat
