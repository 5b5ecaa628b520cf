import Nxlog.L4App.Jobs
import Nxlog.L4App.Routing

/-!
# What the deduplication of events keeps (`common/event.c`, `common/module.c`)

`_event_dedupe` looks at the end of a queue. It drops the last event if the one before it is the
same, and the last two if they repeat the two before them in one of seven patterns, and goes on
with what is left. The handlers of the events it drops may change the status of the module, so
the dropped events have to have no effect behind those that stay.

* `dedupeJob`: the function, with the counter of the queue.
* `handle`: what `nx_module_start_self` and its siblings do to the status.
* `handle_twice`, `handle_alternation`: why a dropped event does not matter.
* `dedupe_preserves`: queues that are filled with `nx_event_to_jobqueue`.
-/
namespace Nxlog.L4

variable {status : ModuleStatus}

/-! ## The status of a module -/

namespace ModuleStatus

/-- The status after common/module.c:1074-1116 (`nx_module_start_self`). A paused module is not
started: it is sent another event. -/
def startSelf : ModuleStatus → ModuleStatus
  | .running => .running
  | .uninitialized => .stopped
  | .paused => .paused
  | .stopped => .running

/-- The status after common/module.c:1137-1168 (`nx_module_stop_self`). -/
def stopSelf : ModuleStatus → ModuleStatus
  | .stopped => .stopped
  | .uninitialized => .uninitialized
  | _ => .stopped

/-- The status after common/module.c:1189-1221 (`nx_module_pause_self`). -/
def pauseSelf : ModuleStatus → ModuleStatus
  | .stopped => .stopped
  | .uninitialized => .uninitialized
  | .paused => .paused
  | .running => .paused

/-- The status after common/module.c:1242-1281 (`nx_module_resume_self`). -/
def resumeSelf : ModuleStatus → ModuleStatus
  | .running => .running
  | .uninitialized => .uninitialized
  | .stopped => .stopped
  | .paused => .running

end ModuleStatus

end Nxlog.L4

namespace Nxlog.L4.Jobs
open L1

/-- The part of common/event.c:419-430 that changes the status. -/
def handle (status : ModuleStatus) : EventType → ModuleStatus
  | .moduleStart => status.startSelf
  | .moduleStop => status.stopSelf
  | .modulePause => status.pauseSelf
  | .moduleResume => status.resumeSelf
  | _ => status

def handleAll (status : ModuleStatus) (events : List Event) : ModuleStatus :=
  events.foldl (fun status e => handle status e.type) status

def handleBack (status : ModuleStatus) (queue : List Event) : ModuleStatus :=
  queue.foldr (fun e status => handle status e.type) status

theorem handleAll_reverse (status : ModuleStatus) (queue : List Event) :
    handleAll status queue.reverse = handleBack status queue :=
  List.foldl_reverse

theorem handle_initialized (h : status ≠ .uninitialized) (t : EventType) :
    handle status t ≠ .uninitialized := by
  cases status with
  | uninitialized => exact absurd rfl h
  | stopped | paused | running => cases t <;> simp [handle, ModuleStatus.startSelf,
      ModuleStatus.stopSelf, ModuleStatus.pauseSelf, ModuleStatus.resumeSelf]

theorem handleBack_initialized (h : status ≠ .uninitialized) (queue : List Event) :
    handleBack status queue ≠ .uninitialized := by
  induction queue with
  | nil => exact h
  | cons e queue ih => exact handle_initialized ih e.type

/-- Every handler does nothing the second time. Only a module that is not initialized needs two
starts. -/
theorem handle_twice (h : status ≠ .uninitialized) (t : EventType) : handle (handle status t) t =
    handle status t := by
  cases status with
  | uninitialized => exact absurd rfl h
  | stopped | paused | running => cases t <;> rfl

/-- An alternation leads to the same status as its first half. -/
theorem handle_alternation {t t' : EventType} (h : (t, t') ∈ alternations) :
    handle (handle (handle (handle status t) t') t) t' = handle (handle status t) t' := by
  simp only [alternations, List.mem_cons, Prod.mk.injEq, List.not_mem_nil, or_false] at h
  rcases h with h | h | h | h | h | h | h
  all_goals
    obtain ⟨rfl, rfl⟩ := h
    cases status <;> rfl

/-! ## The loop -/

/-- mirrors common/event.c:133-288 (`_event_dedupe`), on the queue from its end, with
`event_cnt`. -/
def dedupeLoop : List Event → UInt32 → Res (List Event × UInt32)
  | e4 :: e3 :: rest, event_cnt =>
    if e4.module ≠ e3.module then .error (.assert "e4->module == e3->module")
    else if e4.type = e3.type ∧ e4.data = e3.data ∧ e4.priority = e3.priority then
      dedupeLoop (e3 :: rest) (event_cnt - 1)
    else
      match rest with
      | e2 :: e1 :: rest =>
        if alternates e1 e2 e3 e4 then dedupeLoop (e2 :: e1 :: rest) (event_cnt - 2)
        else .ok (e4 :: e3 :: e2 :: e1 :: rest, event_cnt)
      | _ => .ok (e4 :: e3 :: rest, event_cnt)
  | queue, event_cnt => .ok (queue, event_cnt)

def dedupeJob (job : Job) : Res Job := do
  let (queue, event_cnt) ← dedupeLoop job.events.reverse job.event_cnt
  return { job with events := queue.reverse, event_cnt }

structure Deduped (queue queue' : List Event) (event_cnt event_cnt' : UInt32) : Prop where
  removed : ∃ removed, queue = removed ++ queue' ∧ event_cnt' = event_cnt - UInt32.ofNat removed.length
  types : ∀ e ∈ queue, ∃ e' ∈ queue', e'.type = e.type
  status : ∀ status, status ≠ .uninitialized → handleBack status queue' = handleBack status queue

namespace Deduped

variable {queue queue' : List Event} {event_cnt event_cnt' : UInt32}

theorem refl (queue : List Event) (event_cnt : UInt32) : Deduped queue queue event_cnt event_cnt :=
  ⟨⟨[], rfl, by simp⟩, fun e he => ⟨e, he, rfl⟩, fun _ _ => rfl⟩

variable {rest : List Event}

/-- The last event was dropped before. -/
theorem drop_one {e4 e3 : Event} (htype : e4.type = e3.type)
    (h : Deduped (e3 :: rest) queue' (event_cnt - 1) event_cnt') :
    Deduped (e4 :: e3 :: rest) queue' event_cnt event_cnt' := by
  obtain ⟨⟨removed, hq, hcnt⟩, htypes, hstatus⟩ := h
  refine ⟨⟨e4 :: removed, by simp [hq], ?_⟩, ?_, ?_⟩
  · have hlen : UInt32.ofNat (e4 :: removed).length = UInt32.ofNat removed.length + 1 := UInt32.ofNat_add _ _
    grind
  · intro e he
    rcases List.mem_cons.mp he with rfl | he
    · rw [htype]
      exact htypes e3 List.mem_cons_self
    · exact htypes e he
  · intro status hs
    rw [hstatus status hs]
    simp only [handleBack, List.foldr_cons, htype]
    exact (handle_twice (handleBack_initialized hs rest) e3.type).symm

/-- The last two were. -/
theorem drop_two {e4 e3 e2 e1 : Event} (halt : alternates e1 e2 e3 e4)
    (h : Deduped (e2 :: e1 :: rest) queue' (event_cnt - 2) event_cnt') :
    Deduped (e4 :: e3 :: e2 :: e1 :: rest) queue' event_cnt event_cnt' := by
  obtain ⟨⟨removed, hq, hcnt⟩, htypes, hstatus⟩ := h
  have hparts : (e3.type, e4.type) ∈ alternations ∧ e2.type = e4.type ∧ e1.type = e3.type := by
    simpa [alternates] using halt
  obtain ⟨hmem, h24, h13⟩ := hparts
  refine ⟨⟨e4 :: e3 :: removed, by simp [hq], ?_⟩, ?_, ?_⟩
  · have hlen : UInt32.ofNat (e4 :: e3 :: removed).length = UInt32.ofNat removed.length + 2 :=
      UInt32.ofNat_add removed.length 2
    grind
  · intro e he
    rcases List.mem_cons.mp he with rfl | he
    · rw [← h24]
      exact htypes e2 List.mem_cons_self
    rcases List.mem_cons.mp he with rfl | he
    · rw [← h13]
      exact htypes e1 (List.mem_cons_of_mem _ List.mem_cons_self)
    · exact htypes e he
  · intro status hs
    rw [hstatus status hs]
    simp only [handleBack, List.foldr_cons, h24, h13]
    exact (handle_alternation hmem).symm

end Deduped

variable {module : Nat}

/-- The loop returns on the queue of one module. -/
theorem dedupeLoop_spec {queue : List Event} (event_cnt : UInt32)
    (h : ∀ e ∈ queue, e.module = module) : ∃ queue' event_cnt', dedupeLoop queue event_cnt =
      .ok (queue', event_cnt') ∧ Deduped queue queue' event_cnt event_cnt' := by
  fun_induction dedupeLoop queue event_cnt with
  | case1 e4 e3 rest cnt hne =>
    simp only [List.mem_cons, forall_eq_or_imp] at h
    exact absurd (h.1.trans h.2.1.symm) hne
  | case2 e4 e3 rest cnt _ hsame ih =>
    obtain ⟨q, c, hq, hd⟩ := ih (List.forall_mem_cons.mp h).2
    exact ⟨q, c, hq, hd.drop_one hsame.1⟩
  | case3 e4 e3 cnt _ _ e2 e1 rest halt ih =>
    obtain ⟨q, c, hq, hd⟩ := ih fun e he => h e (List.mem_cons_of_mem _ (List.mem_cons_of_mem _ he))
    exact ⟨q, c, hq, hd.drop_two halt⟩
  | case4 | case5 | case6 => exact ⟨_, _, rfl, .refl _ _⟩

/-! ## Queues -/

/-- The loop without the counter. -/
theorem eventDedupe_of_loop {queue queue' : List Event} {event_cnt event_cnt' : UInt32}
    (h : dedupeLoop queue event_cnt = .ok (queue', event_cnt')) : eventDedupe queue = .ok queue' := by
  fun_induction dedupeLoop queue event_cnt with
  | case1 => cases h
  | case2 e4 e3 rest cnt hm hsame ih =>
    -- the equations of the loop look at two more events
    rcases rest with _ | ⟨e2, _ | ⟨e1, rest⟩⟩ <;> rw [eventDedupe, if_neg hm, if_pos hsame, ih h] <;> simp
  | case3 e4 e3 cnt hm hsame e2 e1 rest halt ih => rw [eventDedupe, if_neg hm, if_neg hsame, if_pos halt, ih h]
  | case4 e4 e3 cnt hm hsame e2 e1 rest halt =>
    cases h
    rw [eventDedupe, if_neg hm, if_neg hsame, if_neg halt]
  | case5 e4 e3 rest cnt hm hsame hshort =>
    cases h
    rw [eventDedupe, if_neg hm, if_neg hsame]
    exact hshort
  | case6 queue cnt hshort =>
    cases h
    rw [eventDedupe]
    exact hshort

def idleJob (module : Nat) : Job := ⟨module, FALSE, [], 0⟩

/-- More events behind those of the queue, not yet deduplicated. -/
def Job.extend (job : Job) (more : List Event) : Job :=
  { job with events := job.events ++ more, event_cnt := job.event_cnt + UInt32.ofNat more.length }

variable {job : Job}

/-- `nx_event_to_jobqueue` appends the event and then deduplicates. -/
theorem Job.insert_eq {event : Event} (h : ∀ e ∈ job.events ++ [event], e.module = job.module) :
    job.insert event = dedupeJob (job.extend [event]) := by
  obtain ⟨queue, cnt, hloop, ⟨removed, hq, hcnt⟩, -, -⟩ :=
    dedupeLoop_spec (job.event_cnt + 1) fun e he => h e (List.mem_reverse.mp he)
  have hloop' : dedupeLoop (job.extend [event]).events.reverse (job.extend [event]).event_cnt =
    .ok (queue, cnt) := hloop
  have hlen : (job.events ++ [event]).length - queue.reverse.length = removed.length := by
    have := congrArg List.length hq
    simp only [List.length_reverse, List.length_append] at this ⊢
    omega
  simp only [Job.insert, dedupeJob, eventDedupe_of_loop hloop, hloop', Res.ok_bind, Job.keep, hlen, hcnt]
  rfl

/-- Every queue of one module is deduplicated. -/
theorem dedupeJob_spec (h : ∀ e ∈ job.events, e.module = job.module) :
    ∃ job', dedupeJob job = .ok job' ∧ job'.module = job.module ∧
      Deduped job.events.reverse job'.events.reverse job.event_cnt job'.event_cnt := by
  obtain ⟨queue, cnt, hloop, hd⟩ := dedupeLoop_spec job.event_cnt fun e he => h e (List.mem_reverse.mp he)
  refine ⟨{ job with events := queue.reverse, event_cnt := cnt }, ?_, rfl, ?_⟩
  · simp [dedupeJob, hloop]
  · simpa using hd

/-- The events of one module, counted. -/
structure Filled (m : Nat) (job : Job) : Prop where
  module : job.module = m
  events : ∀ e ∈ job.events, e.module = m
  count : job.event_cnt = UInt32.ofNat job.events.length

theorem Filled.extend (h : Filled module job) {more : List Event}
    (hmore : ∀ e ∈ more, e.module = module) : Filled module (job.extend more) := by
  refine ⟨h.module, ?_, ?_⟩
  · exact List.forall_mem_append.mpr ⟨h.events, hmore⟩
  · simp [Job.extend, h.count]

theorem Filled.dedupe {job job' : Job} (h : Filled module job) (hm : job'.module = job.module)
    (hd : Deduped job.events.reverse job'.events.reverse job.event_cnt job'.event_cnt) :
    Filled module job' := by
  obtain ⟨removed, hq, hcnt⟩ := hd.removed
  have hlen : job.events.length = removed.length + job'.events.length := by simpa using congrArg List.length hq
  refine ⟨hm.trans h.module, ?_, ?_⟩
  · intro e he
    have : e ∈ job.events.reverse := by
      rw [hq]
      simp [he]
    exact h.events e (List.mem_reverse.mp this)
  · rw [hcnt, h.count, hlen, UInt32.ofNat_add]
    grind

theorem Filled.insert (h : Filled module job) {event : Event} (he : event.module = module) :
    ∃ job', job.insert event = .ok job' ∧ Filled module job' := by
  have hmore : ∀ e ∈ [event], e.module = module := by simpa using he
  have hext := h.extend hmore
  have hall : ∀ e ∈ (job.extend [event]).events, e.module = (job.extend [event]).module := by
    intro e he
    rw [hext.events e he, hext.module]
  obtain ⟨job', hdedupe, hm, hd⟩ := dedupeJob_spec hall
  exact ⟨job', (Job.insert_eq hall).trans hdedupe, hext.dedupe hm hd⟩

/-- A queue that is filled by `nx_event_to_jobqueue` is deduplicated; so is the queue with more
events behind it, in particular with the one that `nx_event_to_jobqueue` has just appended. Events
are dropped from the end, and the counter goes down by their number and still counts the queue; of
every type there is still an event; and the handlers take a module from any status but the
uninitialized one to the same status as before. -/
theorem dedupe_preserves {module : Nat} {events : List Event} (h : ∀ e ∈ events,
    e.module = module) : ∃ job, run Job.insert (idleJob module) events = .ok job ∧
      ∀ more, (∀ e ∈ more, e.module = module) → ∃ job', dedupeJob (job.extend more) = .ok job' ∧
        (∃ removed, (job.extend more).events = job'.events ++ removed ∧
          job'.event_cnt = (job.extend more).event_cnt - UInt32.ofNat removed.length ∧
          job'.event_cnt = UInt32.ofNat job'.events.length) ∧
        (∀ e ∈ (job.extend more).events, ∃ e' ∈ job'.events, e'.type = e.type) ∧
        ∀ status, status ≠ .uninitialized →
          handleAll status job'.events = handleAll status (job.extend more).events := by
  have hidle : Filled module (idleJob module) := ⟨rfl, by simp [idleJob], rfl⟩
  obtain ⟨job, hrun, hjob⟩ := run_of_step (fun job e hjob he => hjob.insert he) hidle h
  refine ⟨job, hrun, fun more hmore => ?_⟩
  have hext := hjob.extend hmore
  obtain ⟨job', hdedupe, hm, hd⟩ := dedupeJob_spec fun e he => (hext.events e he).trans hext.module.symm
  obtain ⟨removed, hq, hcnt⟩ := hd.removed
  refine ⟨job', hdedupe, ⟨removed.reverse, ?_, ?_, (hext.dedupe hm hd).count⟩, ?_, ?_⟩
  · simpa using congrArg List.reverse hq
  · simpa using hcnt
  · intro e he
    simpa using hd.types e (List.mem_reverse.mpr he)
  · intro status hs
    have := hd.status status hs
    rwa [← handleAll_reverse, ← handleAll_reverse, List.reverse_reverse, List.reverse_reverse] at this

def eventsOf (types : List EventType) : List Event := types.map fun t => ⟨1, t, 0, 1, 0⟩

/-- Four pauses and resumes, to which a poll was added between the last two. -/
theorem dedupe_pauses :
    (∀ e ∈ eventsOf [.modulePause, .moduleResume, .modulePause, .moduleResume, .poll,
      .moduleResume], e.module = 1) ∧
    ∃ job, run Job.insert (idleJob 1)
      (eventsOf [.modulePause, .moduleResume, .modulePause, .moduleResume, .poll, .moduleResume]) =
      .ok job ∧ ∃ job', dedupeJob (job.extend []) = .ok job' ∧
        handleAll .running job'.events = handleAll .running (job.extend []).events := by
  have h : ∀ e ∈ eventsOf [.modulePause, .moduleResume, .modulePause, .moduleResume, .poll,
      .moduleResume], e.module = 1 := by simp [eventsOf]
  obtain ⟨job, hrun, hmore⟩ := dedupe_preserves h
  obtain ⟨job', hdedupe, -, -, hstatus⟩ := hmore [] (by simp)
  exact ⟨h, job, hrun, job', hdedupe, hstatus .running (by simp)⟩

end Nxlog.L4.Jobs
