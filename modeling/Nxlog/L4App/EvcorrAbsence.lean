import Nxlog.L4App.EvcorrHistory

/-!
# An Absence rule with its timer

The rule without a Context, with the event queue as far as its own timers are in it, and the clock.
An event arms the rule and adds a timer for the end of the interval; a required event in time, or a
later event, disarms it and takes the timer back; otherwise the timer comes and executes the action.

`pm_evcorr_absence_event` resets the rule only behind the Exec, and `process_absence` takes the
timer back only behind it, so an Exec that raises leaves an armed rule without a timer, or a timer
without an armed rule. And the timer's `eval_ctx` is set in part only: what happens to be in
`dropped` may keep the Exec from being executed.

* `absence_exactly_once`: if no Exec raises and the stack is clean, every arming is followed by a
  required event within the interval or by one execution behind it, and never by both; and there is
  one timer while the rule is armed and none otherwise.
-/
namespace Nxlog.L4.Evcorr
open Res

/-! ## The rule, its timers and its history -/

/-- What followed the arming of the rule at `armed`, until the next arming: the times of the events
that match the RequiredCondition and of the executions of the action. -/
structure Round where
  armed : Int
  required : List Int
  executed : List Int
  deriving DecidableEq

/-- The data of the rule, and the times of the timers that are pending, of which the last is the one
that the data point to. The rounds are noted: the current one, those in front of it, and executions
in none. -/
structure Armed where
  data : AbsenceData
  queue : List Int
  now : Int
  past : List Round
  current : Option Round
  stray : List Int
  deriving DecidableEq

namespace Armed

def start : Armed := ⟨default, [], 0, [], none, []⟩

def noteRequired (s : Armed) (t : Int) : Armed :=
  { s with current := s.current.map fun r => { r with required := r.required ++ [t] } }

def noteExecuted (s : Armed) (t : Int) : Armed :=
  match s.current with
  | some r => { s with current := some { r with executed := r.executed ++ [t] } }
  | none => { s with stray := s.stray ++ [t] }

/-- The current round ends with the arming of the next. -/
def noteArmed (s : Armed) (t : Int) : Armed :=
  { s with past := s.past ++ s.current.toList, current := some ⟨t, [], []⟩ }

/-- What `nx_event_add` and `nx_event_remove` do to the queue, by what becomes of the pointer. -/
def requeue (time : Int) (queue : List Int) : Timer → Timer → List Int
  | .none, .pending => queue ++ [time]
  | .pending, .none => queue.dropLast
  | _, _ => queue

section Rule

variable {ω κ : Type} (conf : Paired ω κ)

/-- An event at the time of the clock. -/
def process (s : Armed) (world : ω) : Res Armed := do
  let (data, _, executed, _) ← conf.absenceAct s.now world s.data
  let noted := if executed then s.noteExecuted s.now else s
  let noted := if s.data.event = .none ∧ data.event = .pending then noted.noteArmed s.now else noted
  return { noted with
    data := data, queue := requeue (endOf conf.interval s.now) s.queue s.data.event data.event }

/-- The first timer, if its time has come. The dispatcher has taken it from the queue. -/
def expire (stack : Garbage) (s : Armed) (world : ω) : Res Armed :=
  match s.queue with
  | [] => return s
  | time :: queue =>
    if time ≤ s.now then do
      let (data, executed) ← conf.absenceExpire world stack s.data
      return { (if executed then s.noteExecuted s.now else s) with data := data, queue := queue }
    else return s

/-- An event for the rule, or the chance of a timer to come, at a time. -/
inductive Tick (ω : Type) where
  | log (time : Int) (world : ω)
  | timer (time : Int) (stack : Garbage) (world : ω)

def Tick.time : Tick ω → Int
  | .log time _ => time
  | .timer time _ _ => time

/-- A required event belongs to the round before it, so it is noted first. -/
def step (s : Armed) : Tick ω → Res Armed
  | .log time world =>
    let s := { s with now := time }
    process conf (if conf.requiredcond world = .yes then s.noteRequired time else s) world
  | .timer time stack world => expire conf stack { s with now := time } world

end Rule

end Armed

/-! ## What should hold -/

variable {s : Armed} {r : Round} {t : Int}

section Spec

variable (interval : Int)

/-- Nothing has happened in the round that could end it. -/
def Round.Open (r : Round) : Prop := r.executed = [] ∧ ∀ t ∈ r.required, endOf interval r.armed ≤ t

def Round.Answered (r : Round) : Prop := r.executed = [] ∧ ∃ t ∈ r.required, t < endOf interval r.armed

/-- One execution, not before the end of the interval, and no required event within it. -/
def Round.Fired (r : Round) : Prop :=
  ∃ t, r.executed = [t] ∧ endOf interval r.armed ≤ t ∧ ∀ t ∈ r.required, endOf interval r.armed ≤ t

/-- Every round but the current one has ended in one of the two ways, and the current one has unless
the rule is armed. The rule has one timer if it is armed and none otherwise. -/
structure ExactlyOnce (s : Armed) : Prop where
  past : ∀ r ∈ s.past, r.Answered interval ∨ r.Fired interval
  idle : s.data.matched ≤ 0 → (∀ r ∈ s.current, r.Answered interval ∨ r.Fired interval) ∧ s.queue = []
  armed : 0 < s.data.matched → (∃ r, s.current = some r ∧ r.Open interval) ∧ s.queue.length = 1
  stray : s.stray = []

structure Armed.Idle (s : Armed) : Prop where
  matched : s.data.matched ≤ 0
  event : s.data.event = .none
  queue : s.queue = []
  current : ∀ r ∈ s.current, r.Answered interval ∨ (r.Fired interval ∧ endOf interval r.armed ≤ s.now)

structure Armed.Waiting (s : Armed) (r : Round) : Prop where
  data : s.data = ⟨r.armed, .pending⟩
  matched : 0 < r.armed
  queue : s.queue = [endOf interval r.armed]
  current : s.current = some r
  isOpen : r.Open interval

structure AbsenceInv (s : Armed) : Prop where
  past : ∀ r ∈ s.past, r.Answered interval ∨ r.Fired interval
  stray : s.stray = []
  phase : s.Idle interval ∨ ∃ r, s.Waiting interval r

variable {interval}

theorem absenceInv_start : AbsenceInv interval .start := ⟨nofun, rfl, .inl ⟨Int.le_refl 0, rfl, rfl, nofun⟩⟩

theorem Armed.Idle.settled (h : s.Idle interval) :
    ∀ r ∈ s.current, r.Answered interval ∨ r.Fired interval := fun r hr => (h.current r hr).imp id And.left

theorem AbsenceInv.exactlyOnce (h : AbsenceInv interval s) : ExactlyOnce interval s := by
  refine ⟨h.past, fun hidle => ?_, fun harmed => ?_, h.stray⟩
  · rcases h.phase with hphase | ⟨r, hphase⟩
    · exact ⟨hphase.settled, hphase.queue⟩
    · rw [hphase.data] at hidle
      exact absurd hphase.matched (Int.not_lt.mpr hidle)
  · rcases h.phase with hphase | ⟨r, hphase⟩
    · exact absurd harmed (Int.not_lt.mpr hphase.matched)
    · refine ⟨⟨r, hphase.current, hphase.isOpen⟩, ?_⟩
      rw [hphase.queue]
      rfl

/-- One more required event, behind the end of the interval. -/
theorem Round.Open.required (h : r.Open interval) (ht : endOf interval r.armed ≤ t) :
    Round.Open interval ⟨r.armed, r.required ++ [t], r.executed⟩ :=
  ⟨h.1, List.forall_mem_append.mpr ⟨h.2, List.forall_mem_singleton.mpr ht⟩⟩

theorem Round.Open.not_ended (h : r.Open interval) : ¬ (r.Answered interval ∨ r.Fired interval) := by
  rintro (⟨-, t, ht, hlt⟩ | ⟨t, hex, -⟩)
  · exact absurd hlt (Int.not_lt.mpr (h.2 t ht))
  · rw [h.1] at hex
    cases hex

theorem Round.Open.fired (h : r.Open interval) (ht : endOf interval r.armed ≤ t) :
    Round.Fired interval ⟨r.armed, r.required, r.executed ++ [t]⟩ := ⟨t, by rw [h.1]; rfl, ht, h.2⟩

/-- A required event behind a round that has ended. -/
theorem Armed.Idle.required (h : s.Idle interval) : (s.noteRequired s.now).Idle interval := by
  refine ⟨h.matched, h.event, h.queue, fun r hr => ?_⟩
  obtain ⟨r', hr', rfl⟩ := Option.map_eq_some_iff.mp (Option.mem_def.mp hr)
  rcases h.current r' hr' with hanswered | ⟨⟨t, hex, hend, hreq⟩, hover⟩
  · obtain ⟨hex, t, ht, hlt⟩ := hanswered
    exact .inl ⟨hex, t, List.mem_append_left _ ht, hlt⟩
  · exact .inr ⟨⟨t, hex, hend, List.forall_mem_append.mpr
      ⟨hreq, List.forall_mem_singleton.mpr hover⟩⟩, hover⟩

end Spec

section Steps

variable {ω κ : Type} {conf : Paired ω κ}

/-- A late event executes the action and does not raise, nor does the action of a timer whose time
has come, which also finds a clean stack. -/
def Armed.Returns (conf : Paired ω κ) (s : Armed) : Armed.Tick ω → Prop
  | .log time world =>
    0 < s.data.matched → endOf conf.interval s.data.matched < time → (conf.exec world).2 = false
  | .timer time stack world =>
    (∃ due ∈ s.queue.head?, due ≤ time) → stack = ⟨false, false⟩ ∧ (conf.exec world).2 = false

theorem AbsenceInv.wait {interval : Int} (h : AbsenceInv interval s) (ht : s.now ≤ t) :
    AbsenceInv interval { s with now := t } := by
  refine ⟨h.past, h.stray, h.phase.imp (fun hidle => ?_) ?_⟩
  · exact ⟨hidle.matched, hidle.event, hidle.queue, fun r hr =>
      (hidle.current r hr).imp id fun hfired => ⟨hfired.1, Int.le_trans hfired.2 ht⟩⟩
  · rintro ⟨r, hw⟩
    exact ⟨r, hw.data, hw.matched, hw.queue, hw.current, hw.isOpen⟩

/-- The rule is disarmed, and its round has ended. -/
theorem AbsenceInv.disarm {interval : Int} (h : AbsenceInv interval s)
    (hr : r.Answered interval ∨ (r.Fired interval ∧ endOf interval r.armed ≤ s.now)) :
    AbsenceInv interval { s with data := ⟨0, .none⟩, queue := [], current := some r } :=
  ⟨h.past, h.stray, .inl ⟨Int.le_refl 0, rfl, rfl, fun r' hr' => by cases hr'; exact hr⟩⟩

theorem expire_step (h : AbsenceInv conf.interval s) (stack : Garbage) (world : ω) :
    (s.Returns conf (.timer s.now stack world) →
      ∃ s', Armed.expire conf stack s world = .ok s' ∧ s'.now = s.now ∧ AbsenceInv conf.interval s') ∧
    ∀ s', Armed.expire conf stack s world = .ok s' → ExactlyOnce conf.interval s' →
      s.Returns conf (.timer s.now stack world) := by
  rcases h.phase with hidle | ⟨r, hw⟩
  · refine ⟨fun _ => ⟨s, by rw [Armed.expire, hidle.queue]; rfl, rfl, h⟩, fun _ _ _ => ?_⟩
    rintro ⟨due, hdue, -⟩
    rw [hidle.queue] at hdue
    cases hdue
  by_cases hdue : endOf conf.interval r.armed ≤ s.now
  · have hnow : ∃ due ∈ s.queue.head?, due ≤ s.now := ⟨_, by rw [hw.queue]; rfl, hdue⟩
    simp only [Armed.expire, hw.queue, if_pos hdue]
    constructor
    · intro hreturns
      obtain ⟨rfl, hexec⟩ := hreturns hnow
      refine ⟨_, by simp only [Paired.absenceExpire, hexec]; rfl, ?_, ?_⟩
      · simp [Armed.noteExecuted, hw.current]
      · simpa [Armed.noteExecuted, hw.current] using h.disarm (.inr ⟨hw.isOpen.fired hdue, hdue⟩)
    · -- what else is in the `eval_ctx`, or an exception, leaves the round open or the rule without a timer
      intro s' hs' honce _
      obtain ⟨dropped, captured⟩ := stack
      simp only [Paired.absenceExpire] at hs'
      cases dropped with
      | true =>
        cases hs'
        exact absurd ((honce.idle (Int.le_refl 0)).1 r hw.current) hw.isOpen.not_ended
      | false =>
        cases captured with
        | true => cases hs'
        | false =>
          refine ⟨rfl, Bool.eq_false_iff.mpr fun hexec => ?_⟩
          simp only [hexec, if_true, Bool.false_eq_true, if_false] at hs'
          cases hs'
          have hmatched : 0 < s.data.matched := hw.data ▸ hw.matched
          cases (honce.armed hmatched).2
  · refine ⟨fun _ => ⟨s, by simp [Armed.expire, hw.queue, hdue, pure_eq], rfl, h⟩, fun _ _ _ => ?_⟩
    rintro ⟨due, hhead, hle⟩
    rw [hw.queue] at hhead
    cases hhead
    exact absurd hle hdue

/-- An event while the rule is not armed: it may arm it. -/
theorem process_idle (h : AbsenceInv conf.interval s) (hidle : s.Idle conf.interval)
    (hnow : 0 < s.now) (world : ω) :
    ∃ s', Armed.process conf s world = .ok s' ∧ s'.now = s.now ∧ AbsenceInv conf.interval s' := by
  simp only [Armed.process, Paired.absenceAct, if_neg (Int.not_lt.mpr hidle.matched)]
  cases conf.triggercond world with
  | yes =>
    simp only [hidle.event, hidle.queue]
    refine ⟨_, rfl, rfl, List.forall_mem_append.mpr ⟨h.past, fun r hr => ?_⟩, h.stray,
      .inr ⟨⟨s.now, [], []⟩, rfl, hnow, rfl, rfl, rfl, nofun⟩⟩
    exact hidle.settled r (Option.mem_toList.mp hr)
  | no | raises =>
    refine ⟨s, ?_, rfl, h⟩
    simp [pass, abandon, Armed.requeue, hidle.event, pure_eq]

/-- An event while the rule waits, which the round has noted if it is a required one. -/
theorem process_waiting (h : AbsenceInv conf.interval s) (hw : s.Waiting conf.interval r)
    (world : ω) (required : List Int)
    (hrequired : required = if conf.requiredcond world = .yes then r.required ++ [s.now] else r.required) :
    (s.Returns conf (.log s.now world) → ∃ s',
      Armed.process conf { s with current := some ⟨r.armed, required, r.executed⟩ } world = .ok s' ∧
        s'.now = s.now ∧ AbsenceInv conf.interval s') ∧
    ∀ s', Armed.process conf { s with current := some ⟨r.armed, required, r.executed⟩ } world =
      .ok s' → ExactlyOnce conf.interval s' → s.Returns conf (.log s.now world) := by
  have hopen : endOf conf.interval r.armed ≤ s.now →
    Round.Open conf.interval ⟨r.armed, required, r.executed⟩ := by
    intro hle
    rw [hrequired]
    split
    · exact hw.isOpen.required hle
    · exact hw.isOpen
  simp only [Armed.Returns, Armed.process, Paired.absenceAct, hw.data, hw.queue, if_pos hw.matched]
  by_cases hlate : endOf conf.interval r.armed < s.now
  · -- a late event executes the action, and takes the timer back
    simp only [if_pos hlate]
    constructor
    · intro hreturns
      simp only [hreturns hw.matched hlate]
      refine ⟨_, rfl, rfl, h.disarm (.inr ⟨?_, Int.le_of_lt hlate⟩)⟩
      exact (hopen (Int.le_of_lt hlate)).fired (Int.le_of_lt hlate)
    · intro s' hs' honce _ _
      refine Bool.eq_false_iff.mpr fun hexec => ?_
      simp only [hexec, if_true] at hs'
      cases hs'
      cases (honce.idle (Int.le_refl 0)).2
  · simp only [if_neg hlate]
    refine ⟨fun _ => ?_, fun _ _ _ _ hl => absurd hl hlate⟩
    have hwaiting : Round.Open conf.interval ⟨r.armed, required, r.executed⟩ →
      AbsenceInv conf.interval { s with
        data := ⟨r.armed, .pending⟩
        queue := [endOf conf.interval r.armed]
        current := some ⟨r.armed, required, r.executed⟩ } := fun hround =>
      ⟨h.past, h.stray, .inr ⟨⟨r.armed, required, r.executed⟩, rfl, hw.matched, rfl, rfl, hround⟩⟩
    cases hreq : conf.requiredcond world with
    | yes =>
      rw [hreq, if_pos rfl] at hrequired
      by_cases hin : s.now < endOf conf.interval r.armed
      · -- the required event is in time
        simp only [if_pos hin]
        refine ⟨_, rfl, rfl, h.disarm (.inl ⟨hw.isOpen.1, s.now, ?_, hin⟩)⟩
        rw [hrequired]
        exact List.mem_append_right _ (List.mem_singleton_self _)
      · simp only [if_neg hin]
        exact ⟨_, rfl, rfl, hwaiting (hopen (Int.not_lt.mp hin))⟩
    | no | raises =>
      rw [hreq, if_neg nofun] at hrequired
      exact ⟨_, rfl, rfl, hwaiting (hrequired ▸ hw.isOpen)⟩

theorem absence_step (h : AbsenceInv conf.interval s) (tick : Armed.Tick ω) (hpos : 0 < tick.time)
    (horder : s.now ≤ tick.time) :
    (s.Returns conf tick → ∃ s', Armed.step conf s tick = .ok s' ∧ s'.now = tick.time ∧
      AbsenceInv conf.interval s') ∧
    ∀ s', Armed.step conf s tick = .ok s' → ExactlyOnce conf.interval s' → s.Returns conf tick := by
  cases tick with
  | timer t stack world => exact expire_step (h.wait horder) stack world
  | log t world =>
    have hwait : AbsenceInv conf.interval { s with now := t } := h.wait horder
    rcases hwait.phase with hidle | ⟨r, hw⟩
    · have hnoted : AbsenceInv conf.interval (Armed.noteRequired { s with now := t } t) :=
        ⟨hwait.past, hwait.stray, .inl hidle.required⟩
      refine ⟨fun _ => ?_, fun _ _ _ harmed => absurd harmed (Int.not_lt.mpr hidle.matched)⟩
      rw [Armed.step]
      split
      · exact process_idle hnoted hidle.required hpos world
      · exact process_idle hwait hidle hpos world
    · have hround : Armed.step conf s (.log t world) = Armed.process conf { s with
          now := t
          current := some ⟨r.armed, if conf.requiredcond world = .yes then r.required ++ [t] else r.required,
            r.executed⟩ } world := by
        have hcurrent : s.current = some r := hw.current
        rw [Armed.step]
        congr 1
        split
        · simp [Armed.noteRequired, hcurrent]
        · simp [← hcurrent]
      rw [hround]
      exact process_waiting hwait hw world _ rfl

/-- **Absence, exactly once.** For every rule without a Context and every sequence of events and
timers with the times of the clock, every step returns, every arming is followed by a required event
within the interval or by one execution not before its end, and never by both, and one timer is
pending while the rule is armed and none otherwise, exactly if no Exec that is executed raises, and
no timer finds `dropped` TRUE in its `eval_ctx` or looks for captured strings there. -/
theorem absence_exactly_once (conf : Paired ω κ) (ticks : List (Armed.Tick ω))
    (hpos : ∀ tick ∈ ticks, 0 < tick.time) (horder : (ticks.map Armed.Tick.time).Pairwise (· ≤ ·)) :
    Completes (Armed.step conf) (ExactlyOnce conf.interval) .start ticks ↔
      Meets (Armed.step conf) (Armed.Returns conf) .start ticks := by
  have htimes : ticks.filterMap (fun tick => some tick.time) = ticks.map Armed.Tick.time :=
    congrFun List.filterMap_eq_map' ticks
  refine completes_in_order (fun tick => some tick.time) Armed.now (G := AbsenceInv conf.interval)
    (A := fun tick => 0 < tick.time) (fun s => AbsenceInv.exactlyOnce) ?_ absenceInv_start hpos ?_
      (htimes ▸ horder)
  · intro s tick hinv hpos horder
    exact absence_step hinv tick hpos (horder _ rfl)
  · intro t ht
    obtain ⟨tick, htick, rfl⟩ := List.mem_map.mp (htimes ▸ ht)
    exact Int.le_of_lt (hpos tick htick)

/-- A rule for events that are numbers: 1 triggers, 2 is required, within a second, and the Exec
raises for 0. -/
def sampleAbsence : Paired Nat Bytes :=
  ⟨fun w => if w = 1 then .yes else .no, fun w => if w = 2 then .yes else .no, none, 1, fun w => (w, w == 0)⟩

/-- A trigger that is answered, and one after which the timer comes. -/
theorem absence_exactly_once_sample :
    Completes (Armed.step sampleAbsence) (ExactlyOnce 1) .start
      [.log 5 1, .log 6 2, .log 7 1, .timer 1000007 ⟨false, false⟩ 3] :=
  (absence_exactly_once sampleAbsence [.log 5 1, .log 6 2, .log 7 1,
    .timer 1000007 ⟨false, false⟩ 3] (by simp [Armed.Tick.time]) (by simp [Armed.Tick.time])).mpr
    ⟨fun _ _ => rfl, fun _ _ => ⟨fun _ _ => rfl, fun _ _ => ⟨fun _ _ => rfl, fun _ _ =>
      ⟨fun _ => ⟨rfl, rfl⟩, fun _ _ => trivial⟩⟩⟩⟩

/-- If the Exec raises when the timer comes, the rule stays armed and has no timer, and a later
event executes the action again, and frees the timer once more. If `dropped` happens to be TRUE, it
is not executed at all. -/
theorem raise_executes_again :
    ((run (Armed.step sampleAbsence) .start [.log 5 1, .timer 1000005 ⟨false, false⟩ 0]).map fun s =>
        (decide (0 < s.data.matched), s.queue, s.current)) = .ok (true, [], some ⟨5, [], [1000005]⟩) ∧
      ((run (Armed.step sampleAbsence) .start [.log 5 1, .timer 1000005 ⟨false, false⟩ 0,
        .log 1000006 0]).map fun s => s.current) = .ok (some ⟨5, [], [1000005, 1000006]⟩) ∧
      run (Armed.step sampleAbsence) .start
        [.log 5 1, .timer 1000005 ⟨false, false⟩ 0, .log 1000006 3] = Res.fault ∧
      ((run (Armed.step sampleAbsence) .start [.log 5 1, .timer 1000005 ⟨true, false⟩ 3]).map fun s =>
        (s.data, s.queue, s.current)) = .ok (⟨0, .none⟩, [], some ⟨5, [], []⟩) :=
  ⟨rfl, rfl, rfl, rfl⟩

end Steps

end Nxlog.L4.Evcorr
