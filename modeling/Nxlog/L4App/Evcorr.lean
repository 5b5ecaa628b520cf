import Nxlog.L4App.Thresholded

/-!
# The event correlator (`processor/evcorr/pm_evcorr.c`)

An event goes through the rules in their order. Each rule keeps data of its own, and with a Context
data for each value of it, which are created with zeros and removed by a periodic cleanup. An
Absence rule also has a timer.

The expressions of a rule and its Exec are functions of the state `ω` they work on (the record with
what is captured of it, and the variables of the module), and each of them may raise. The exception
ends the event; the record stays in the queue and comes again as another event. The data of a
Thresholded rule are the list without its memory (`Matches`). Times are `apr_time_t`, and numbers
without bounds here: they and the ends of intervals are taken to stay far below 2^63, which any
datetime in a TimeField need not.

* `Rule.process`: an event for one rule.
* `Paired.absenceExpire`: the timer of an Absence rule.
* `cleanSuppressed`, `cleanPair`: the cleanup, for two kinds of rules.
-/
namespace Nxlog.L4.Evcorr
open Res

/-- What a condition is for a record: TRUE, anything else, or an exception. -/
inductive Verdict where
  | yes
  | no
  | raises
  deriving DecidableEq

/-- The statements of an Exec: the state they leave, and whether they raised. -/
abbrev Exec (ω : Type) := ω → ω × Bool

/-- What follows a rule: the next one, nothing because it is a Stop rule that matches, or nothing
because of an exception. -/
inductive Ended where
  | next
  | stop
  | raised
  deriving DecidableEq

section Outcome

variable {ω α : Type}

/-- What a rule does on an event: its new data, the state, whether its action was executed (or
begun), and what follows. -/
abbrev Outcome (α ω : Type) := α × ω × Bool × Ended

def pass (a : α) (world : ω) : Res (Outcome α ω) := .ok (a, world, false, .next)

def abandon (a : α) (world : ω) : Res (Outcome α ω) := .ok (a, world, false, .raised)

def execute (exec : Exec ω) (world : ω) (a : α) : Res (Outcome α ω) :=
  .ok (a, (exec world).1, true, if (exec world).2 then .raised else .next)

end Outcome

/-! ## The data of a rule -/

/-- What a Context evaluates to: nothing, a value with a key, one of a type for which
`get_context_hashval` has no key, or an exception. -/
inductive ContextKey (κ : Type) where
  | undefined
  | key (k : κ)
  | other
  | raises

/-- The data without a context, and the hash. What is not there is created with zeros. -/
structure Store (κ α : Type) where
  own : α
  context : κ → Option α

section Store

variable {ω κ α : Type}

variable (s : Store κ α)

def Store.value [Inhabited α] : Option κ → α
  | none => s.own
  | some k => (s.context k).getD default

def Store.put [DecidableEq κ] (slot : Option κ) (a : α) : Store κ α :=
  match slot with
  | none => { s with own := a }
  | some k => { s with context := fun k' => if k' = k then some a else s.context k' }

def Store.fresh [Inhabited α] : Store κ α := ⟨default, fun _ => none⟩

/-- mirrors processor/evcorr/pm_evcorr.c:49-121 (`get_context_hashval`): where the data of an event
are. Without a key `apr_hash_get` reads from `NULL`. -/
def contextSlot (context : Option (ω → ContextKey κ)) (world : ω) : Res (Option κ) :=
  match context with
  | none => .ok none
  | some expr =>
    match expr world with
    | .undefined => .ok none
    | .key k => .ok (some k)
    | .other => Res.fault
    | .raises => Res.throw "context"

/-- A rule works on its data for the event. `hkey` is set only if the data are new, and then no
branch looks at it. -/
def atSlot [Inhabited α] [DecidableEq κ] (context : Option (ω → ContextKey κ)) (s : Store κ α)
    (world : ω) (f : α → Res (Outcome α ω)) : Res (Outcome (Store κ α) ω) :=
  match contextSlot context world with
  | .error (.throw _) => abandon s world
  | .error e => .error e
  | .ok slot => do
    let (a, rest) ← f (s.value slot)
    return (s.put slot a, rest)

variable [Inhabited α]

theorem Store.value_put [DecidableEq κ] (slot slot' : Option κ) (a : α) :
    (s.put slot a).value slot' = if slot' = slot then a else s.value slot' := by
  cases slot with
  | none => cases slot' <;> simp [Store.put, Store.value]
  | some k =>
    cases slot' with
    | none => simp [Store.put, Store.value]
    | some k' => by_cases hk : k' = k <;> simp [Store.put, Store.value, hk]

theorem Store.fresh_value (slot : Option κ) : (Store.fresh : Store κ α).value slot = default := by
  cases slot <;> rfl

end Store

/-- `nx_event_t *`: none, in the event queue, or freed. -/
inductive Timer where
  | none
  | pending
  | freed
  deriving DecidableEq

/-- `nx_pm_evcorr_rule_absence_data_t`. -/
structure AbsenceData where
  matched : Int
  event : Timer
  deriving DecidableEq

instance : Inhabited AbsenceData := ⟨⟨0, .none⟩⟩

instance : Inhabited Matches := ⟨.empty⟩

/-! ## Rules -/

section Rules

variable {ω κ : Type}

structure Suppressed (ω κ : Type) where
  cond : ω → Verdict
  context : Option (ω → ContextKey κ)
  interval : Int
  exec : Exec ω

structure Paired (ω κ : Type) where
  triggercond : ω → Verdict
  requiredcond : ω → Verdict
  context : Option (ω → ContextKey κ)
  interval : Int
  exec : Exec ω

structure Thresholded (ω κ : Type) where
  cond : ω → Verdict
  context : Option (ω → ContextKey κ)
  window : Window
  exec : Exec ω

def endOf (interval matched : Int) : Int := matched + interval * usecPerSec

/-- processor/evcorr/pm_evcorr.c:149-154. -/
def Suppressed.act (conf : Suppressed ω κ) (timeval : Int) (world : ω) (matched : Int) : Res (Outcome Int ω) :=
  if matched = 0 ∨ endOf conf.interval matched ≤ timeval then execute conf.exec world timeval
  else pass matched world

/-- mirrors processor/evcorr/pm_evcorr.c:125-156 (`process_suppressed`). -/
def processSuppressed [DecidableEq κ] (conf : Suppressed ω κ) (timeval : Int) (world : ω)
    (data : Store κ Int) : Res (Outcome (Store κ Int) ω) :=
  match conf.cond world with
  | .yes => atSlot conf.context data world (conf.act timeval world)
  | .no => pass data world
  | .raises => abandon data world

variable (conf : Paired ω κ) (timeval : Int) (world : ω)

/-- processor/evcorr/pm_evcorr.c:206-214 and 219-226. -/
def Paired.trigger (matched : Int) : Res (Outcome Int ω) :=
  match conf.triggercond world with
  | .yes => pass timeval world
  | .no => pass matched world
  | .raises => abandon matched world

/-- processor/evcorr/pm_evcorr.c:182-227. -/
def Paired.pairAct (matched : Int) : Res (Outcome Int ω) :=
  if 0 < matched then
    match conf.requiredcond world with
    | .yes =>
      if conf.interval = 0 ∨ timeval < endOf conf.interval matched then execute conf.exec world 0
      else pass matched world
    | .no => conf.trigger timeval world matched
    | .raises => abandon matched world
  else conf.trigger timeval world matched

/-- mirrors processor/evcorr/pm_evcorr.c:160-229 (`process_pair`). -/
def processPair [DecidableEq κ] (data : Store κ Int) : Res (Outcome (Store κ Int) ω) :=
  atSlot conf.context data world (conf.pairAct timeval world)

/-- `nx_event_remove` and `nx_event_free`, unless the event is `NULL`. -/
def removeEvent : Timer → Res Timer
  | .none => .ok .none
  | .pending => .ok .none
  | .freed => Res.fault

/-- processor/evcorr/pm_evcorr.c:259-335. The match is reset in front of the Exec, and the timer
removed behind it. -/
def Paired.absenceAct (absence : AbsenceData) : Res (Outcome AbsenceData ω) :=
  if 0 < absence.matched then
    if endOf conf.interval absence.matched < timeval then
      if (conf.exec world).2 then execute conf.exec world ⟨0, absence.event⟩
      else do
        let event ← removeEvent absence.event
        execute conf.exec world ⟨0, event⟩
    else
      match conf.requiredcond world with
      | .yes =>
        if timeval < endOf conf.interval absence.matched then do
          let event ← removeEvent absence.event
          pass ⟨0, event⟩ world
        else pass absence world
      | .no => pass absence world
      | .raises => abandon absence world
  else
    match conf.triggercond world with
    | .yes => do
      Res.assert (absence.event = .none) "absence->event == NULL"
      pass ⟨timeval, .pending⟩ world
    | .no => pass absence world
    | .raises => abandon absence world

/-- mirrors processor/evcorr/pm_evcorr.c:233-336 (`process_absence`). -/
def processAbsence [DecidableEq κ] (data : Store κ AbsenceData) : Res (Outcome (Store κ AbsenceData) ω) :=
  atSlot conf.context data world (conf.absenceAct timeval world)

/-- What is in the `eval_ctx` of a timer, of which only two members are set: `dropped`, and whether
the Exec looks at the captured strings, which are nowhere. -/
structure Garbage where
  dropped : Bool
  captured : Bool
  deriving DecidableEq

/-- mirrors processor/evcorr/pm_evcorr.c:544-559 (`pm_evcorr_absence_event`), with whether the
action is executed. With `dropped` TRUE no statement is (common/expr.c:145-148). If the Exec raises,
the data stay as they are and the timer is freed (core/nxlog.c:436-446). -/
def Paired.absenceExpire (stack : Garbage) (absence : AbsenceData) : Res (AbsenceData × Bool) :=
  if stack.dropped then .ok (⟨0, .none⟩, false)
  else if stack.captured then Res.fault
  else if (conf.exec world).2 then .ok (⟨absence.matched, .freed⟩, true)
  else .ok (⟨0, .none⟩, true)

/-- processor/evcorr/pm_evcorr.c:364-418. -/
def Thresholded.act (conf : Thresholded ω κ) (timeval : Int) (world : ω) (m : Matches) :
    Res (Outcome Matches ω) :=
  match conf.cond world with
  | .yes =>
    let (executed, m) := m.matched conf.window timeval
    if executed then execute conf.exec world m else pass m world
  | .no => pass m world
  | .raises => abandon m world

/-- mirrors processor/evcorr/pm_evcorr.c:341-420 (`process_thresholded`). -/
def processThresholdedRule [DecidableEq κ] (conf : Thresholded ω κ) (timeval : Int) (world : ω)
    (data : Store κ Matches) : Res (Outcome (Store κ Matches) ω) :=
  atSlot conf.context data world (conf.act timeval world)

/-- `nx_pm_evcorr_rule_t`. -/
inductive Rule (ω κ : Type) where
  | simple (exec : Exec ω)
  | suppressed (conf : Suppressed ω κ) (data : Store κ Int)
  | pair (conf : Paired ω κ) (data : Store κ Int)
  | absence (conf : Paired ω κ) (data : Store κ AbsenceData)
  | thresholded (conf : Thresholded ω κ) (data : Store κ Matches)
  | stop (cond : ω → Verdict) (exec : Option (Exec ω))

/-- mirrors processor/evcorr/pm_evcorr.c:424-444 (`process_stop`). -/
def processStop (cond : ω → Verdict) (exec : Option (Exec ω)) : Res (Outcome Unit ω) :=
  match cond world, exec with
  | .yes, some exec => .ok ((), (exec world).1, true, if (exec world).2 then .raised else .stop)
  | .yes, none => .ok ((), world, false, .stop)
  | .no, _ => pass () world
  | .raises, _ => abandon () world

/-- processor/evcorr/pm_evcorr.c:474-497. -/
def Rule.process [DecidableEq κ] : Rule ω κ → Res (Outcome (Rule ω κ) ω)
  | .simple exec => execute exec world (.simple exec)
  | .suppressed conf data => do
    let (data, rest) ← processSuppressed conf timeval world data
    return (.suppressed conf data, rest)
  | .pair conf data => do
    let (data, rest) ← processPair conf timeval world data
    return (.pair conf data, rest)
  | .absence conf data => do
    let (data, rest) ← processAbsence conf timeval world data
    return (.absence conf data, rest)
  | .thresholded conf data => do
    let (data, rest) ← processThresholdedRule conf timeval world data
    return (.thresholded conf data, rest)
  | .stop cond exec => do
    let (_, rest) ← processStop world cond exec
    return (.stop cond exec, rest)

/-! ## Cleanup -/

def Store.keep {α : Type} (s : Store κ α) (keeps : α → Bool) : Store κ α :=
  { s with context := fun k => (s.context k).filter keeps }

/-- processor/evcorr/pm_evcorr.c:1219-1224, with 1042-1053 of `pm_evcorr_suppressed_clean`. -/
def cleanSuppressed (conf : Suppressed ω κ) (timeval : Int) (data : Store κ Int) : Store κ Int :=
  if conf.context.isSome then data.keep fun matched =>
  !decide (endOf conf.interval matched ≤ timeval) else data

/-- processor/evcorr/pm_evcorr.c:1225-1230, with 1080-1093 of `pm_evcorr_pair_clean`. -/
def cleanPair (data : Store κ Int) : Store κ Int :=
  if conf.context.isSome then
    data.keep fun matched => !decide (0 < conf.interval ∧ endOf conf.interval matched ≤ timeval)
  else data

/-- What is looked up behind the cleanup of a rule, which needs a Context. -/
theorem Store.value_clean {α : Type} [Inhabited α] (s : Store κ α) (c : Bool) (keeps : α → Bool)
    (slot : Option κ) : (if c then s.keep keeps else s).value slot =
      if c ∧ slot.isSome ∧ keeps (s.value slot) = false then default else s.value slot := by
  cases c with
  | false => simp
  | true =>
    cases slot with
    | none => simp [Store.keep, Store.value]
    | some k =>
      rw [if_pos rfl]
      simp only [Store.keep, Store.value]
      cases s.context k with
      | none => simp
      | some a => cases hkeeps : keeps a <;> simp [Option.filter, hkeeps]

end Rules

end Nxlog.L4.Evcorr
