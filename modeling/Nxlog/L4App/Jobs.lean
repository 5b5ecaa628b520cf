import Mathlib.Data.List.Forall2
import Nxlog.Core.Ring
import Nxlog.Core.Run
import Nxlog.L1Encoding.Value

/-!
# Jobs and their events (`core/ctx.c`, `common/event.c`)

Every module has a job, a queue of events. Jobs of modules with the same priority are in
one group; the groups are in a list. A worker thread takes its next event with
`nx_ctx_next_job` while it holds the lock, so the calls and the changes of the queues
come one after the other, in any order.

* `initJobs`, `nextJob`, `hasJobs`: the functions of `core/ctx.c`.
* `eventToJobqueue`, `eventDedupe`: how an event gets into a queue.
* `Ok`: what holds of the groups from `initJobs` on (`initJobs_ok`, `step_ok`).
* `nextJob_spec`: which event a call takes.
* `reachingCalls_le`: a job that waits is nearer to its turn after every call that gets
  to its group.
* `job_selection`: the three together.
-/
namespace Nxlog.L4.Jobs
open L1 Res List

/-! ## Events -/

/-- `nx_event_type_t`. -/
inductive EventType where
  | none | poll | accept | read | write | reconnect | disconnect | dataAvailable | timeout | schedule | varExpiry
  | statExpiry | moduleSpecific | moduleStart | moduleStop | modulePause | moduleResume | moduleShutdown
  deriving DecidableEq, Repr

/-- `nx_event_t`, as far as the queues look at it. `arrived` is not in the source: it
numbers the events in the order in which they are put into queues. -/
structure Event where
  module : Nat
  type : EventType
  data : Nat
  priority : Int
  arrived : Nat
  deriving DecidableEq, Repr

/-- `nx_job_t`. `module` is the module whose `job` this is. -/
structure Job where
  module : Nat
  busy : CBool
  events : List Event
  event_cnt : UInt32
  deriving DecidableEq, Repr

/-- `nx_jobgroup_t`; `last` is the place of a job in `jobs`. -/
structure Jobgroup where
  last : Option Nat
  priority : Int
  jobs : List Job
  deriving DecidableEq, Repr

/-- The alternations that are cut short: the types of the last but one and of the last
event of a queue, if the two events before them have the same types. -/
def alternations : List (EventType × EventType) :=
  [(.modulePause, .moduleResume), (.moduleResume, .modulePause), (.dataAvailable, .moduleResume),
   (.moduleResume, .poll), (.poll, .moduleResume), (.dataAvailable, .poll), (.poll, .dataAvailable)]

def alternates (e1 e2 e3 e4 : Event) : Bool :=
  (e3.type, e4.type) ∈ alternations ∧ e2.type = e4.type ∧ e1.type = e3.type

/-- mirrors common/event.c:133-288 (`_event_dedupe`), on the queue from its end. -/
def eventDedupe : List Event → Res (List Event)
  | e4 :: e3 :: rest =>
    if e4.module ≠ e3.module then .error (.assert "e4->module == e3->module")
    else if e4.type = e3.type ∧ e4.data = e3.data ∧ e4.priority = e3.priority then eventDedupe (e3 :: rest)
    else
      match rest with
      | e2 :: e1 :: rest =>
        if alternates e1 e2 e3 e4 then eventDedupe (e2 :: e1 :: rest) else .ok (e4 :: e3 :: e2 :: e1 :: rest)
      | _ => .ok (e4 :: e3 :: rest)
  | queue => .ok queue

def Job.keep (job : Job) (events : List Event) : Job :=
  { job with events, event_cnt := job.event_cnt - UInt32.ofNat (job.events.length - events.length) }

/-- The part of common/event.c:306-340 (`nx_event_to_jobqueue`) that changes the queue. -/
def Job.insert (job : Job) (event : Event) : Res Job := do
  let job := { job with events := job.events ++ [event], event_cnt := job.event_cnt + 1 }
  let events ← eventDedupe job.events.reverse
  return job.keep events.reverse

/-! ## Groups -/

/-- The first half of core/ctx.c:286-322 (`nx_ctx_get_jobgroup`): the groups with a new one of this
priority, in front of the first that is not before it. -/
def insertJobgroup (priority : Int) : List Jobgroup → List Jobgroup
  | [] => [⟨none, priority, []⟩]
  | g :: gs => if g.priority < priority then g :: insertJobgroup priority gs else ⟨none, priority,
    []⟩ :: g :: gs

/-- mirrors core/ctx.c:286-322 (`nx_ctx_get_jobgroup`): the groups, in which there now is one of
this priority. -/
def getJobgroup (jobgroups : List Jobgroup) (priority : Int) : Res (List Jobgroup) :=
  if 0 < priority then
    .ok (if jobgroups.any (·.priority = priority) then jobgroups else insertJobgroup priority jobgroups)
  else .error (.assert "priority > 0")

def addJob (priority : Int) (module : Nat) (jobgroups : List Jobgroup) : List Jobgroup :=
  jobgroups.map fun g => if g.priority =
  priority then { g with jobs := g.jobs ++ [⟨module, FALSE, [], 0⟩] } else g

def initJob (jobgroups : List Jobgroup) (m : Int × Nat) : Res (List Jobgroup) := do
  let jobgroups ← getJobgroup jobgroups m.1
  return addJob m.1 m.2 jobgroups

/-- mirrors core/ctx.c:327-351 (`nx_ctx_init_jobs`), for the priorities of the modules. The job of
the core module goes to the group of the last one. -/
def initJobs (priorities : List Int) : Res (List Jobgroup) := do
  let jobgroups ← run initJob [] priorities.zipIdx
  match priorities.getLast? with
  | none => .ok jobgroups
  | some priority => .ok (addJob priority priorities.length jobgroups)

def Job.ready (job : Job) : Bool := job.busy ≠ TRUE ∧ job.events ≠ []

def Jobgroup.readyAt (g : Jobgroup) (i : Nat) : Bool := (g.jobs[i]?).any Job.ready

/-- mirrors core/ctx.c:419-441 (`nx_ctx_has_jobs`). -/
def hasJobs (jobgroups : List Jobgroup) : Bool := jobgroups.any fun g => g.jobs.any Job.ready

def Jobgroup.first (g : Jobgroup) : Res Nat :=
  if g.jobs = [] then .error (.assert "job != NULL")
  else
    match g.last with
    | none => .ok 0
    | some last => .ok (ringNext g.jobs.length last)

def Job.pop (job : Job) : Job := { job with events := job.events.tail, event_cnt := job.event_cnt - 1 }

/-- What a call gives to its caller: a job, by its group and its place there, and its event. -/
structure Picked where
  group : Nat
  job : Nat
  event : Event
  deriving DecidableEq, Repr

/-- mirrors core/ctx.c:355-415 (`nx_ctx_next_job`); `none` is FALSE. -/
def nextJob : List Jobgroup → Res (List Jobgroup × Option Picked)
  | [] => .ok ([], none)
  | g :: gs => do
    let start ← g.first
    let g := { g with last := some start }
    let found ← ringScan g.readyAt g.jobs.length start g.jobs.length start
    match found with
    | none => do
      let (gs, r) ← nextJob gs
      return (g :: gs, r.map fun r => { r with group := r.group + 1 })
    | some i =>
      match (g.jobs[i]?).bind fun job => job.events.head? with
      | none => Res.fault
      | some event => return ({ g with jobs := g.jobs.modify i Job.pop } :: gs, some ⟨0, i, event⟩)

/-! ## The machine -/

structure Sched where
  jobgroups : List Jobgroup
  arrivals : Nat

/-- What can happen: an event is put into the queue of its module, some events of a module
are taken out (`nx_event_remove`, `nx_module_remove_events`), a worker is done or has
started with a job, or one asks for its next event. -/
inductive SchedOp where
  | toJobqueue (event : Event)
  | remove (module : Nat) (keep : Event → Bool)
  | setBusy (module : Nat) (busy : CBool)
  | nextJob

def onJob (module : Nat) (f : Job → Res Job) : List Jobgroup → Res (List Jobgroup) :=
  List.mapM fun g => do
    let jobs ← g.jobs.mapM fun job => if job.module = module then f job else .ok job
    return { g with jobs }

def Sched.step (s : Sched) : SchedOp → Res Sched
  | .toJobqueue event => do
    let jobgroups ← onJob event.module (fun job => job.insert { event with arrived := s.arrivals }) s.jobgroups
    return ⟨jobgroups, s.arrivals + 1⟩
  | .remove module keep => do
    let jobgroups ← onJob module (fun job => .ok (job.keep (job.events.filter keep))) s.jobgroups
    return { s with jobgroups }
  | .setBusy module busy => do
    let jobgroups ← onJob module (fun job => .ok { job with busy }) s.jobgroups
    return { s with jobgroups }
  | .nextJob => do
    let (jobgroups, _) ← Jobs.nextJob s.jobgroups
    return { s with jobgroups }

/-! ## What the functions keep -/

/-- Queues are in the order of arrival, they hold the events of one module and are counted. -/
structure Job.Ok (arrivals : Nat) (job : Job) : Prop where
  order : job.events.Pairwise fun a b => a.arrived < b.arrived
  past : ∀ e ∈ job.events, e.arrived < arrivals
  module : ∀ e ∈ job.events, e.module = job.module
  count : job.event_cnt = UInt32.ofNat job.events.length

structure Jobgroup.Ok (arrivals : Nat) (g : Jobgroup) : Prop where
  nonempty : g.jobs ≠ []
  last : ∀ i, g.last = some i → i < g.jobs.length
  jobs : ∀ job ∈ g.jobs, job.Ok arrivals

structure Sched.Ok (s : Sched) : Prop where
  order : s.jobgroups.Pairwise fun g h => g.priority < h.priority
  groups : ∀ g ∈ s.jobgroups, g.Ok s.arrivals

/-! ### Queues -/

variable {arrivals i : Nat} {gs gs' : List Jobgroup} {g : Jobgroup} {r : Option Picked}
  {priority : Int} {job : Job}
  {s : Sched}

/-- The queue of one module is deduplicated; only later events are dropped. -/
theorem eventDedupe_spec {module : Nat} {queue : List Event} (h : ∀ e ∈ queue, e.module = module) :
    ∃ queue', eventDedupe queue = .ok queue' ∧ queue'.Sublist queue := by
  fun_induction eventDedupe queue with
  | case1 e4 e3 rest hne =>
    simp only [mem_cons, forall_eq_or_imp] at h
    exact absurd (h.1.trans h.2.1.symm) hne
  | case2 e4 e3 rest _ _ ih =>
    obtain ⟨q, hq, hsub⟩ := ih (forall_mem_cons.mp h).2
    exact ⟨q, hq, hsub.cons e4⟩
  | case3 e4 e3 _ _ e2 e1 rest _ ih =>
    obtain ⟨q, hq, hsub⟩ := ih fun e he => h e (mem_cons_of_mem _ (mem_cons_of_mem _ he))
    exact ⟨q, hq, (hsub.cons e3).cons e4⟩
  | case4 | case5 | case6 => exact ⟨_, rfl, .refl _⟩

theorem Job.Ok.keep (h : job.Ok arrivals) {events : List Event}
    (hsub : events.Sublist job.events) : (job.keep events).Ok arrivals := by
  refine ⟨h.order.sublist hsub, fun e he => h.past e (hsub.subset he), fun e he =>
    h.module e (hsub.subset he), ?_⟩
  have hle := hsub.length_le
  show job.event_cnt - _ = UInt32.ofNat events.length
  rw [h.count, ← UInt32.ofNat_sub (by omega)]
  congr 1
  omega

theorem Job.Ok.mono {a b : Nat} (h : job.Ok a) (hab : a ≤ b) : job.Ok b :=
  ⟨h.order, fun e he => Nat.lt_of_lt_of_le (h.past e he) hab, h.module, h.count⟩

/-- The new event goes behind the others, and what is dropped is dropped from the end. -/
theorem Job.Ok.insert (h : job.Ok arrivals) {event : Event} (hm : event.module = job.module)
    (ha : event.arrived = arrivals) : ∃ job', job.insert event = .ok job' ∧ job'.Ok (arrivals + 1) := by
  have hmod : ∀ e ∈ job.events ++ [event], e.module = job.module :=
    forall_mem_append.mpr ⟨h.module, forall_mem_singleton.mpr hm⟩
  obtain ⟨q, hq, hrev⟩ := eventDedupe_spec fun e he => hmod e (mem_reverse.mp he)
  have hsub : q.reverse.Sublist (job.events ++ [event]) := by
    simpa using hrev.reverse
  have hfull : Job.Ok (arrivals + 1)
    { job with events := job.events ++ [event], event_cnt := job.event_cnt + 1 } := by
    refine ⟨?_, ?_, hmod, ?_⟩
    · refine pairwise_append.mpr ⟨h.order, by simp, ?_⟩
      intro a hae b hb
      rw [mem_singleton.mp hb, ha]
      exact h.past a hae
    · refine forall_mem_append.mpr ⟨fun e he => Nat.lt_succ_of_lt (h.past e he), ?_⟩
      exact forall_mem_singleton.mpr (ha ▸ Nat.lt_succ_self _)
    · simp [h.count]
  refine ⟨_, ?_, hfull.keep hsub⟩
  unfold Job.insert
  dsimp only
  rw [hq]
  rfl

theorem Job.Ok.pop (h : job.Ok arrivals) (hne : job.events ≠ []) : job.pop.Ok arrivals := by
  obtain ⟨e, es, hes⟩ := exists_cons_of_ne_nil hne
  have hsub : es.Sublist job.events := by rw [hes]; exact sublist_cons_self e es
  have heq : job.pop = job.keep es := by simp [Job.pop, Job.keep, hes]
  rw [heq]
  exact h.keep hsub

/-! ### Changes of a queue -/

/-- The same group after its queues changed: the places of its jobs and `last` stay. -/
structure SameJobs (g g' : Jobgroup) : Prop where
  last : g'.last = g.last
  priority : g'.priority = g.priority
  length : g'.jobs.length = g.jobs.length

/-- What every call of `f` does to its element, the loop does to the list. -/
theorem mapM_ok {α β : Type} {f : α → Res β} {R : α → β → Prop} {as : List α}
    (h : ∀ a ∈ as, ∃ b, f a = .ok b ∧ R a b) : ∃ bs, as.mapM f = .ok bs ∧ Forall₂ R as bs := by
  induction as with
  | nil => exact ⟨[], rfl, .nil⟩
  | cons a as ih =>
    obtain ⟨b, hb, hR⟩ := h a mem_cons_self
    obtain ⟨bs, hbs, hrest⟩ := ih (forall_mem_cons.mp h).2
    exact ⟨b :: bs, by rw [mapM_cons, hb, ok_bind, hbs]; rfl, .cons hR hrest⟩

theorem forall₂_right {α β : Type} {p : β → Prop} {as : List α} {bs : List β}
    (h : Forall₂ (fun _ b => p b) as bs) : ∀ b ∈ bs, p b :=
  ((forall₂_and_left _ _).mp (h.flip.imp fun _ _ hp => ⟨hp, trivial⟩)).1

/-- `f` is applied to one job and returns. -/
theorem onJob_spec {a b module : Nat} {f : Job → Res Job} (hab : a ≤ b)
    (hf : ∀ job, job.Ok a → job.module = module → ∃ job', f job = .ok job' ∧ job'.Ok b)
    (hgs : ∀ g ∈ gs, g.Ok a) :
    ∃ gs', onJob module f gs = .ok gs' ∧ (∀ g ∈ gs', g.Ok b) ∧ Forall₂ SameJobs gs gs' := by
  have hjob : ∀ job : Job, job.Ok a →
      ∃ job', (if job.module = module then f job else .ok job) = .ok job' ∧ job'.Ok b := by
    intro job hjob
    by_cases hm : job.module = module
    · simpa [hm] using hf job hjob hm
    · exact ⟨job, by simp [hm], hjob.mono hab⟩
  have hgroup : ∀ g ∈ gs, ∃ g', (g.jobs.mapM (fun job => if job.module = module then f job else .ok job) >>=
      fun jobs => .ok { g with jobs }) = .ok g' ∧ g'.Ok b ∧ SameJobs g g' := by
    intro g hg
    have hok := hgs g hg
    obtain ⟨jobs', hmap, hall⟩ := mapM_ok fun job hj => hjob job (hok.jobs job hj)
    have hlen := hall.length_eq
    refine ⟨{ g with jobs := jobs' }, by rw [hmap]; rfl, ⟨?_, ?_, forall₂_right hall⟩, rfl, rfl, hlen.symm⟩
    · rw [← length_pos_iff, ← hlen, length_pos_iff]
      exact hok.nonempty
    · intro i hi
      exact hlen ▸ hok.last i hi
  obtain ⟨gs', hmap, hall⟩ := mapM_ok hgroup
  exact ⟨gs', hmap, forall₂_right (hall.imp fun _ _ h => h.1), hall.imp fun _ _ h => h.2⟩

/-! ### The next job -/

def Jobgroup.idle (g : Jobgroup) : Bool := !g.jobs.any Job.ready

theorem Jobgroup.readyAt_eq_true : g.readyAt i = true ↔ ∃ job, g.jobs[i]? = some job ∧ job.ready = true := by
  simp [readyAt, Option.any_eq_true]

theorem Jobgroup.idle_iff : g.idle = true ↔ ∀ i < g.jobs.length, g.readyAt i = false := by
  simp only [idle, Bool.not_eq_true', any_eq_false]
  constructor
  · intro h i hi
    have := h g.jobs[i] (getElem_mem hi)
    simpa [readyAt, hi] using this
  · intro h job hjob
    obtain ⟨i, hi, rfl⟩ := getElem_of_mem hjob
    simpa [readyAt, hi] using h i hi

theorem Jobgroup.readyAt_lt (h : g.readyAt i = true) : i < g.jobs.length := by
  obtain ⟨job, hjob, -⟩ := readyAt_eq_true.mp h
  exact (List.getElem?_eq_some_iff.mp hjob).1

theorem Jobgroup.idle_false (h : g.readyAt i = true) : g.idle = false := by
  rw [Bool.eq_false_iff]
  intro hidle
  rw [idle_iff.mp hidle i (readyAt_lt h)] at h
  cases h

/-- The place where the next scan of a group starts. -/
def Jobgroup.start (g : Jobgroup) : Nat :=
  match g.last with
  | none => 0
  | some last => ringNext g.jobs.length last

variable (h : g.Ok arrivals)
include h

theorem Jobgroup.Ok.start_lt : g.start < g.jobs.length := by
  unfold start
  cases hl : g.last with
  | none => exact length_pos_iff.mpr h.nonempty
  | some last => exact ringNext_lt (h.last last hl)

theorem Jobgroup.Ok.first : g.first = .ok g.start := by
  unfold Jobgroup.first start
  rw [if_neg h.nonempty]
  cases g.last <;> rfl

def Jobgroup.scanned (g : Jobgroup) : Jobgroup := { g with last := some g.start }

/-- A group after a scan that found the job at place `i`. -/
def Jobgroup.served (g : Jobgroup) (i : Nat) : Jobgroup := { g.scanned with jobs := g.jobs.modify i Job.pop }

structure Found (g : Jobgroup) (i : Nat) (event : Event) : Prop where
  job : ∃ job es, g.jobs[i]? = some job ∧ job.busy ≠ TRUE ∧ job.events = event :: es
  nearest : ∀ j < g.jobs.length, ringDist g.jobs.length g.start j <
    ringDist g.jobs.length g.start i → g.readyAt j = false

/-- What a call does to the groups and what it returns. -/
inductive Outcome : List Jobgroup → List Jobgroup → Option Picked → Prop where
  | nothing {gs : List Jobgroup} (idle : ∀ g ∈ gs, g.idle = true) : Outcome gs (gs.map Jobgroup.scanned) none
  | event (pre post : List Jobgroup) {g : Jobgroup} {i : Nat} {e : Event} (idle : ∀ h ∈ pre,
      h.idle = true) (busy : g.idle = false) (found : Found g i e) :
      Outcome (pre ++ g :: post) (pre.map Jobgroup.scanned ++ g.served i :: post) (some ⟨pre.length, i, e⟩)

omit h in
/-- The first group that is not idle gives the event. -/
theorem nextJob_outcome {gs : List Jobgroup} (hok : ∀ g ∈ gs, g.Ok arrivals) :
    ∃ gs' r, nextJob gs = .ok (gs', r) ∧ Outcome gs gs' r := by
  induction gs with
  | nil => exact ⟨[], none, rfl, .nothing (by simp)⟩
  | cons g gs ih =>
    have hg := hok g mem_cons_self
    obtain ⟨found, hr, hnone, hsome⟩ := ringScan_spec g.readyAt hg.start_lt
    have hscan : ringScan (Jobgroup.readyAt { g with last := some g.start }) g.jobs.length g.start
      g.jobs.length g.start =
        .ok found := hr
    rw [nextJob, hg.first, ok_bind]
    dsimp only
    rw [hscan, ok_bind]
    cases found with
    | none =>
      have hidle := Jobgroup.idle_iff.mpr (hnone rfl)
      obtain ⟨gs', r, hnext, hout⟩ := ih (forall_mem_cons.mp hok).2
      rw [hnext]
      refine ⟨_, _, rfl, ?_⟩
      cases hout with
      | nothing hall => exact .nothing (by simpa using ⟨hidle, hall⟩)
      | event pre post hpre hbusy hfound =>
        exact .event (g :: pre) post (by simpa using ⟨hidle, hpre⟩) hbusy hfound
    | some i =>
      obtain ⟨-, hp, hnear⟩ := hsome i rfl
      obtain ⟨job, hjob, hready⟩ := Jobgroup.readyAt_eq_true.mp hp
      obtain ⟨hbusy, hne⟩ : job.busy ≠ TRUE ∧ job.events ≠ [] := by simpa [Job.ready] using hready
      obtain ⟨e, es, hes⟩ := exists_cons_of_ne_nil hne
      dsimp only
      rw [hjob, Option.bind_some, hes]
      exact ⟨_, _, rfl, .event [] gs (by simp) (Jobgroup.idle_false hp) ⟨⟨job, es, hjob, hbusy, hes⟩, hnear⟩⟩

theorem Jobgroup.Ok.scanned : g.scanned.Ok arrivals := by
  refine ⟨h.nonempty, ?_, h.jobs⟩
  intro i hi
  cases hi
  exact h.start_lt

theorem Jobgroup.Ok.served {e : Event} (hf : Found g i e) : (g.served i).Ok arrivals := by
  obtain ⟨job, es, hjob, -, hes⟩ := hf.job
  obtain ⟨hi, rfl⟩ := List.getElem?_eq_some_iff.mp hjob
  refine ⟨?_, ?_, ?_⟩
  · simpa [Jobgroup.served, ← List.length_pos_iff] using h.nonempty
  · intro k hk
    show k < (g.jobs.modify i Job.pop).length
    rw [List.length_modify]
    exact h.scanned.last k hk
  · intro job hmem
    obtain ⟨k, hk, rfl⟩ := List.getElem_of_mem hmem
    have hk' : k < g.jobs.length := by simpa [Jobgroup.served] using hk
    have hget : (g.served i).jobs[k] = if i = k then g.jobs[k].pop else g.jobs[k] := by
      simp [Jobgroup.served, List.getElem_modify]
    have hok := h.jobs g.jobs[k] (List.getElem_mem hk')
    rw [hget]
    split
    · rename_i heq
      subst heq
      exact hok.pop (by rw [hes]; simp)
    · exact hok

omit h

theorem Outcome.ok (h : Outcome gs gs' r) (hok : ∀ g ∈ gs, g.Ok arrivals) : ∀ g ∈ gs', g.Ok arrivals := by
  cases h with
  | nothing _ =>
    intro g hg
    obtain ⟨h, hh, rfl⟩ := mem_map.mp hg
    exact (hok h hh).scanned
  | @event pre post g i e _ _ hfound =>
    simp only [mem_append, mem_cons, mem_map] at hok ⊢
    intro k hk
    obtain ⟨h, hh, rfl⟩ | rfl | hk := hk
    · exact (hok h (.inl hh)).scanned
    · exact (hok g (.inr (.inl rfl))).served hfound
    · exact hok k (.inr (.inr hk))

theorem Outcome.priorities (h : Outcome gs gs' r) : gs'.map Jobgroup.priority = gs.map Jobgroup.priority := by
  cases h <;> simp [Jobgroup.scanned, Jobgroup.served]

/-- A call returns an event exactly if there is one for it. -/
theorem Outcome.isSome (h : Outcome gs gs' r) : r.isSome = hasJobs gs := by
  cases h with
  | nothing hidle =>
    simp only [Jobgroup.idle, Bool.not_eq_true'] at hidle
    simp [hasJobs]
    simpa using hidle
  | event _ _ _ hbusy _ =>
    simp only [Jobgroup.idle, Bool.not_eq_false'] at hbusy
    simp [hasJobs]
    exact .inr (.inl (by simpa using hbusy))

/-! ### The start -/

theorem mem_insertJobgroup : g ∈ insertJobgroup priority gs ↔ g = ⟨none, priority, []⟩ ∨ g ∈ gs := by
  induction gs with
  | nil => simp [insertJobgroup]
  | cons h gs ih =>
    rw [insertJobgroup]
    split
    · rw [mem_cons, ih, mem_cons]
      exact or_left_comm
    · simp

theorem insertJobgroup_sorted (hgs : gs.Pairwise fun g h => g.priority < h.priority)
    (hnew : ∀ g ∈ gs, g.priority ≠ priority) :
    (insertJobgroup priority gs).Pairwise fun g h => g.priority < h.priority := by
  induction gs with
  | nil => simp [insertJobgroup]
  | cons g gs ih =>
    obtain ⟨hg, hrest⟩ := pairwise_cons.mp hgs
    have hne := hnew g mem_cons_self
    rw [insertJobgroup]
    split
    · rename_i hlt
      refine pairwise_cons.mpr ⟨?_, ih hrest (forall_mem_cons.mp hnew).2⟩
      intro h hh
      rcases mem_insertJobgroup.mp hh with rfl | hh
      · exact hlt
      · exact hg h hh
    · rename_i hge
      refine pairwise_cons.mpr ⟨?_, hgs⟩
      intro h hh
      show priority < h.priority
      rcases mem_cons.mp hh with rfl | hh
      · omega
      · have := hg h hh
        omega

theorem getJobgroup_spec (h : getJobgroup gs priority = .ok gs') (hs : gs.Pairwise fun g h =>
    g.priority < h.priority) :
    gs'.Pairwise (fun g h => g.priority < h.priority) ∧ ∀ g ∈ gs', g = ⟨none, priority, []⟩ ∨ g ∈ gs := by
  unfold getJobgroup at h
  split at h
  · cases h
    split
    · exact ⟨hs, fun g hg => .inr hg⟩
    · rename_i hany
      exact ⟨insertJobgroup_sorted hs (by simpa using hany), fun g hg => mem_insertJobgroup.mp hg⟩
  · cases h

theorem newJob_ok (module : Nat) : Job.Ok 0 ⟨module, FALSE, [], 0⟩ := by
  constructor <;> simp

theorem addJob_spec (module : Nat) (hs : gs.Pairwise fun g h => g.priority < h.priority)
    (hgs : ∀ g ∈ gs, g = ⟨none, priority, []⟩ ∨ g.Ok 0) : (Sched.mk (addJob priority module gs) 0).Ok := by
  refine ⟨?_, ?_⟩
  · refine pairwise_map.mpr (hs.imp ?_)
    intro g h hgh
    split <;> split <;> exact hgh
  · intro g hg
    obtain ⟨h, hh, rfl⟩ := mem_map.mp hg
    obtain rfl | hok := hgs h hh
    · rw [if_pos rfl]
      exact ⟨by simp, by simp, by simpa using newJob_ok module⟩
    split
    · refine ⟨by simp, ?_, ?_⟩
      · intro i hi
        have := hok.last i hi
        simp
        omega
      · exact forall_mem_append.mpr ⟨hok.jobs, forall_mem_singleton.mpr (newJob_ok module)⟩
    · exact hok

theorem initJob_spec (m : Int × Nat) (hgs : (Sched.mk gs 0).Ok) (hm : 0 < m.1) :
    ∃ gs', initJob gs m = .ok gs' ∧ (Sched.mk gs' 0).Ok := by
  obtain ⟨gs1, h1⟩ : ∃ gs1, getJobgroup gs m.1 = .ok gs1 := ⟨_, if_pos hm⟩
  obtain ⟨hs1, hmem⟩ := getJobgroup_spec h1 hgs.order
  have hgroups : ∀ g ∈ gs1, g = ⟨none, m.1, []⟩ ∨ g.Ok 0 := fun g hg => (hmem g hg).imp_right (hgs.groups g)
  exact ⟨addJob m.1 m.2 gs1, by rw [initJob, h1]; rfl, addJob_spec m.2 hs1 hgroups⟩

theorem initJobs_ok {priorities : List Int} (h : ∀ p ∈ priorities, 0 < p) :
    ∃ gs, initJobs priorities = .ok gs ∧ (Sched.mk gs 0).Ok := by
  have hnil : (Sched.mk [] 0).Ok := ⟨List.Pairwise.nil, by simp⟩
  have hpos : ∀ m ∈ priorities.zipIdx, 0 < m.1 := by
    intro m hm
    exact h m.1 (fst_mem_of_mem_zipIdx hm)
  obtain ⟨gs, hrun, hgs⟩ := run_of_step (fun _ m => initJob_spec m) hnil hpos
  unfold initJobs
  rw [hrun, ok_bind]
  cases priorities.getLast? with
  | none => exact ⟨gs, rfl, hgs⟩
  | some p =>
    exact ⟨_, rfl, addJob_spec _ hgs.order fun g hg => .inr (hgs.groups g hg)⟩

/-! ## Every run -/

theorem priorities_of_sameJobs (h : Forall₂ SameJobs gs gs') :
    gs'.map Jobgroup.priority = gs.map Jobgroup.priority := by
  induction h with
  | nil => rfl
  | cons hg _ ih => simp [hg.priority, ih]

theorem sorted_of_priorities (h : gs'.map Jobgroup.priority = gs.map Jobgroup.priority)
    (hs : gs.Pairwise fun g h => g.priority < h.priority) : gs'.Pairwise fun g h =>
    g.priority < h.priority := by
  have hmap := pairwise_map.mpr hs
  rw [← h] at hmap
  exact pairwise_map.mp hmap

/-- Everything a step can do: a change of the queues, or a call. -/
inductive Moves (s : Sched) : SchedOp → Sched → Prop where
  | queue {op : SchedOp} {s' : Sched} (other : op ≠ .nextJob)
    (same : List.Forall₂ SameJobs s.jobgroups s'.jobgroups) :
      Moves s op s'
  | call {gs : List Jobgroup} {r : Option Picked} (next : nextJob s.jobgroups = .ok (gs, r))
      (out : Outcome s.jobgroups gs r) : Moves s .nextJob { s with jobgroups := gs }

theorem queue_step (hs : s.Ok) {arrivals module : Nat} (hle : s.arrivals ≤ arrivals)
    {f : Job → Res Job} (hf : ∀ job, job.Ok s.arrivals → job.module = module → ∃ job',
    f job = .ok job' ∧ job'.Ok arrivals) : ∃ gs, onJob module f s.jobgroups = .ok gs ∧
    (Sched.mk gs arrivals).Ok ∧ Forall₂ SameJobs s.jobgroups gs := by
  obtain ⟨gs, hon, hok, hsame⟩ := onJob_spec hle hf hs.groups
  exact ⟨gs, hon, ⟨sorted_of_priorities (priorities_of_sameJobs hsame) hs.order, hok⟩, hsame⟩

theorem step_moves (hs : s.Ok) (op : SchedOp) : ∃ s', s.step op = .ok s' ∧ s'.Ok ∧ Moves s op s' := by
  cases op with
  | toJobqueue event =>
    have hinsert : ∀ job : Job, job.Ok s.arrivals → job.module = event.module →
        ∃ job', job.insert { event with arrived := s.arrivals } = .ok job' ∧ job'.Ok (s.arrivals + 1) :=
      fun job hjob hm => hjob.insert hm.symm rfl
    obtain ⟨gs, hon, hok, hsame⟩ := queue_step hs (Nat.le_succ _) hinsert
    exact ⟨⟨gs, s.arrivals + 1⟩, by rw [Sched.step, hon]; rfl, hok, .queue (by simp) hsame⟩
  | remove module keep =>
    have hkeep : ∀ job : Job, job.Ok s.arrivals → job.module = module →
        ∃ job', Except.ok (job.keep (job.events.filter keep)) = (.ok job' : Res Job) ∧ job'.Ok s.arrivals :=
      fun job hjob _ => ⟨_, rfl, hjob.keep filter_sublist⟩
    obtain ⟨gs, hon, hok, hsame⟩ := queue_step hs (Nat.le_refl _) hkeep
    exact ⟨⟨gs, s.arrivals⟩, by rw [Sched.step, hon]; rfl, hok, .queue (by simp) hsame⟩
  | setBusy module busy =>
    have hbusy : ∀ job : Job, job.Ok s.arrivals → job.module = module →
        ∃ job', Except.ok { job with busy } = (.ok job' : Res Job) ∧ job'.Ok s.arrivals :=
      fun job hjob _ => ⟨_, rfl, hjob.order, hjob.past, hjob.module, hjob.count⟩
    obtain ⟨gs, hon, hok, hsame⟩ := queue_step hs (Nat.le_refl _) hbusy
    exact ⟨⟨gs, s.arrivals⟩, by rw [Sched.step, hon]; rfl, hok, .queue (by simp) hsame⟩
  | nextJob =>
    obtain ⟨gs, r, hnext, hout⟩ := nextJob_outcome hs.groups
    exact ⟨⟨gs, s.arrivals⟩, by rw [Sched.step, hnext]; rfl,
      ⟨sorted_of_priorities hout.priorities hs.order, hout.ok hs.groups⟩, .call hnext hout⟩

theorem run_ok (hs : s.Ok) (ops : List SchedOp) : ∃ s', run Sched.step s ops = .ok s' ∧ s'.Ok := by
  have hstep : ∀ (s : Sched) (op : SchedOp), s.Ok → True → ∃ s', s.step op = .ok s' ∧ s'.Ok := by
    intro s op hs _
    obtain ⟨s', h, hok, -⟩ := step_moves hs op
    exact ⟨s', h, hok⟩
  exact run_of_step hstep hs fun _ _ => trivial

/-! ## Fairness -/

/-- The groups in front of a group have nothing to do, so a call gets to it. -/
def reached (group : Nat) (gs : List Jobgroup) : Bool := (gs.take group).all Jobgroup.idle

def callReaches (group : Nat) (s : Sched) : SchedOp → Nat
  | .nextJob => if reached group s.jobgroups then 1 else 0
  | _ => 0

def reachingCalls (group : Nat) : Sched → List SchedOp → Nat
  | _, [] => 0
  | s, op :: ops => callReaches group s op + match s.step op with
    | .ok s' => reachingCalls group s' ops
    | .error _ => 0

/-- The operation is a call that takes an event of the job. -/
def Selects (group job : Nat) (s : Sched) (op : SchedOp) : Prop :=
  op = .nextJob ∧ ∃ gs event, nextJob s.jobgroups = .ok (gs, some ⟨group, job, event⟩)

def SelectedIn (group job : Nat) : Sched → List SchedOp → Prop
  | _, [] => False
  | s, op :: ops => Selects group job s op ∨ ∃ s', s.step op = .ok s' ∧ SelectedIn group job s' ops

/-- Up to the call that takes one of its events, the job is not busy and has events. -/
def StaysReady (group job : Nat) : Sched → List SchedOp → Prop
  | _, [] => True
  | s, op :: ops => (∃ g, s.jobgroups[group]? = some g ∧ g.readyAt job = true) ∧
    (¬ Selects group job s op → ∀ s', s.step op = .ok s' → StaysReady group job s' ops)

/-- A scan that starts with a job that is ready takes its event. -/
theorem Found.start {e : Event} (hf : Found g i e) (hg : g.Ok arrivals)
    (h : g.readyAt g.start = true) : i = g.start := by
  by_contra hne
  have hlt : 0 < ringDist g.jobs.length g.start i := by
    unfold ringDist
    have := hg.start_lt
    split <;> omega
  have := hf.nearest g.start hg.start_lt (by simpa using hlt)
  rw [h] at this
  cases this

/-- A call gets to the groups up to the first that is not idle. -/
theorem reached_iff {pre post : List Jobgroup} (hidle : ∀ h ∈ pre, h.idle = true) (hbusy : g.idle = false)
    {group : Nat} : reached group (pre ++ g :: post) = true ↔ group ≤ pre.length := by
  rw [reached, all_eq_true]
  constructor
  · intro hall
    by_contra hgt
    obtain ⟨m, hm⟩ : ∃ m, group - pre.length = m + 1 := ⟨group - pre.length - 1, by omega⟩
    have := hall g (by simp [take_append, hm])
    rw [hbusy] at this
    cases this
  · intro hle h hh
    rw [take_append_of_le_length hle] at hh
    exact hidle h (mem_of_mem_take hh)

/-- What a call does to a group that it gets to, and to one that it does not. -/
theorem Outcome.group (h : Outcome gs gs' r) {group : Nat}
    (hg : gs[group]? = some g) : ∃ g', gs'[group]? = some g' ∧ g'.jobs.length = g.jobs.length ∧
      g'.last = (if reached group gs then some g.start else g.last) := by
  cases h with
  | nothing hidle =>
    have hreach : reached group gs = true := by
      simp only [reached, all_eq_true]
      exact fun h hh => hidle h (mem_of_mem_take hh)
    exact ⟨g.scanned, by simp [hg], rfl, by simp [hreach, Jobgroup.scanned]⟩
  | @event pre post k i e hidle hbusy hfound =>
    have hreach : reached group (pre ++ k :: post) = true ↔ group ≤ pre.length := reached_iff hidle hbusy
    rcases Nat.lt_trichotomy group pre.length with hlt | rfl | hgt
    · rw [getElem?_append_left hlt] at hg
      refine ⟨g.scanned, ?_, rfl, by simp [hreach.mpr (Nat.le_of_lt hlt), Jobgroup.scanned]⟩
      rw [getElem?_append_left (by simpa using hlt)]
      simp [hg]
    · have hk : k = g := by simpa using hg
      subst hk
      refine ⟨k.served i, ?_, by simp [Jobgroup.served],
        by simp [hreach.mpr (Nat.le_refl _), Jobgroup.served, Jobgroup.scanned]⟩
      simp
    · refine ⟨g, ?_, rfl, by rw [if_neg (by rw [hreach]; omega)]⟩
      rw [getElem?_append_right (by omega)] at hg
      rw [getElem?_append_right (by simp; omega)]
      obtain ⟨m, hm⟩ : ∃ m, group - pre.length = m + 1 := ⟨group - pre.length - 1, by omega⟩
      simpa [hm] using hg

/-- A call that gets to the group of a job whose turn it is takes its event. -/
theorem Outcome.selects (h : Outcome gs gs' r) {arrivals group : Nat} (hok : g.Ok arrivals)
    (hg : gs[group]? = some g) (hreach : reached group gs = true)
    (hready : g.readyAt g.start = true) : ∃ e, r = some ⟨group, g.start, e⟩ := by
  cases h with
  | nothing hidle =>
    have := hidle g (mem_of_getElem? hg)
    rw [Jobgroup.idle_false hready] at this
    cases this
  | @event pre post k i e hidle hbusy hfound =>
    rcases Nat.lt_or_eq_of_le ((reached_iff hidle hbusy).mp hreach) with hlt | rfl
    · rw [getElem?_append_left hlt] at hg
      have := hidle g (mem_of_getElem? hg)
      rw [Jobgroup.idle_false hready] at this
      cases this
    · have hk : k = g := by simpa using hg
      subst hk
      exact ⟨e, by rw [hfound.start hok hready]⟩

/-- A job that waits is not passed over more often than there are jobs in front of it. -/
theorem reachingCalls_le (group job : Nat) (ops : List SchedOp) {s : Sched} {g : Jobgroup}
    (hs : s.Ok) (hg : s.jobgroups[group]? = some g) (hstay : StaysReady group job s ops)
    (hnot : ¬ SelectedIn group job s ops) :
    reachingCalls group s ops ≤ ringDist g.jobs.length g.start job := by
  induction ops generalizing s g with
  | nil => exact Nat.zero_le _
  | cons op ops ih =>
    obtain ⟨⟨g0, hg0, hready⟩, hrest⟩ := hstay
    cases hg.symm.trans hg0
    have hgok := hs.groups g (List.mem_of_getElem? hg)
    have hlt := Jobgroup.readyAt_lt hready
    have hsel : ¬ Selects group job s op := fun h => hnot (.inl h)
    obtain ⟨s', hstep, hok', hmoves⟩ := step_moves hs op
    have hnot' : ¬ SelectedIn group job s' ops := fun h => hnot (.inr ⟨s', hstep, h⟩)
    have hle : ∀ g', s'.jobgroups[group]? = some g' →
        reachingCalls group s' ops ≤ ringDist g'.jobs.length g'.start job :=
      fun g' hg' => ih hok' hg' (hrest hsel s' hstep) hnot'
    have hcount : reachingCalls group s (op :: ops) = callReaches group s op + reachingCalls group s' ops := by
      rw [reachingCalls, hstep]
    rw [hcount]
    cases hmoves with
    | queue hother hsame =>
      have hzero : callReaches group s op = 0 := by
        cases op <;> first | rfl | exact absurd rfl hother
      obtain ⟨g', hg', hlast, -, hlen⟩ : ∃ g', s'.jobgroups[group]? = some g' ∧ SameJobs g g' := by
        obtain ⟨hi, rfl⟩ := List.getElem?_eq_some_iff.mp hg
        have hi' : group < s'.jobgroups.length := hsame.length_eq ▸ hi
        exact ⟨_, List.getElem?_eq_getElem hi', hsame.get hi hi'⟩
      have hstart : g'.start = g.start := by simp [Jobgroup.start, hlast, hlen]
      have := hle g' hg'
      rw [hlen, hstart] at this
      omega
    | @call gs r hnext hout =>
      obtain ⟨g', hg', hlen, hlast⟩ := hout.group hg
      have hbound := hle g' hg'
      rw [hlen] at hbound
      by_cases hreach : reached group s.jobgroups = true
      · -- it was not the turn of the job, so its turn is one nearer
        have hne : g.start ≠ job := by
          rintro rfl
          obtain ⟨e, rfl⟩ := hout.selects hgok hg hreach hready
          exact hsel ⟨rfl, gs, e, hnext⟩
        have hstart : g'.start = ringNext g.jobs.length g.start := by
          rw [if_pos hreach] at hlast
          simp [Jobgroup.start, hlast, hlen]
        have hnear := ringDist_next hgok.start_lt hlt hne
        rw [hstart] at hbound
        simp only [callReaches, hreach, if_true]
        omega
      · have hstart : g'.start = g.start := by
          rw [if_neg hreach] at hlast
          simp [Jobgroup.start, hlast, hlen]
        rw [hstart] at hbound
        simp only [callReaches, hreach]
        simpa using hbound

/-! ## The result -/

/-- A call takes the oldest event of a job that is not busy, in the first group that has such a
job. -/
structure Takes (gs gs' : List Jobgroup) (p : Picked) : Prop where
  first : ∃ pre g post job es, gs = pre ++ g :: post ∧ pre.length = p.group ∧
    (∀ h ∈ pre, ∀ job ∈ h.jobs, job.ready = false) ∧
    g.jobs[p.job]? = some job ∧ job.busy ≠ TRUE ∧ job.events = p.event :: es ∧
    (∀ e ∈ es, p.event.arrived < e.arrived) ∧
    gs' = pre.map Jobgroup.scanned ++ { g.scanned with jobs := g.jobs.set p.job job.pop } :: post

theorem Outcome.takes {p : Picked} (h : Outcome gs gs' (some p)) (hok : ∀ g ∈ gs, g.Ok arrivals) :
    Takes gs gs' p := by
  cases h with
  | @event pre post g i e hidle hbusy hfound =>
    obtain ⟨job, es, hjob, hnot, hes⟩ := hfound.job
    have hg := hok g (by simp)
    have horder := (hg.jobs job (mem_of_getElem? hjob)).order
    rw [hes] at horder
    refine ⟨pre, g, post, job, es, rfl, rfl, ?_, hjob, hnot, hes, (pairwise_cons.mp horder).1, ?_⟩
    · intro h hh j hj
      have := hidle h hh
      simp only [Jobgroup.idle, Bool.not_eq_true', any_eq_false] at this
      simpa using this j hj
    · have hset : g.jobs.modify i Job.pop = g.jobs.set i job.pop := by
        rw [modify_eq_set_getElem?, hjob]
        rfl
      rw [Jobgroup.served, hset]

/-- Groups are in the order of their priorities. Whatever happens to the queues, a call
returns an event exactly if `nx_ctx_has_jobs` says so, and it takes the oldest event of the
first group that has one for it. A job that stays ready is served within as many calls that
get to its group as there are jobs in the group. -/
theorem job_selection (priorities : List Int) (hpos : ∀ p ∈ priorities, 0 < p) :
    ∃ gs, initJobs priorities = .ok gs ∧ gs.Pairwise (fun g h => g.priority < h.priority) ∧
      ∀ ops, ∃ s, run Sched.step ⟨gs, 0⟩ ops = .ok s ∧
        (∃ gs' r, nextJob s.jobgroups = .ok (gs', r) ∧ r.isSome = hasJobs s.jobgroups ∧
          ∀ p, r = some p → Takes s.jobgroups gs' p) ∧
        ∀ group job g, s.jobgroups[group]? = some g → ∀ ops', job < g.jobs.length →
        StaysReady group job s ops' →
          g.jobs.length ≤ reachingCalls group s ops' → SelectedIn group job s ops' := by
  obtain ⟨gs, hinit, hgs⟩ := initJobs_ok hpos
  refine ⟨gs, hinit, hgs.order, ?_⟩
  intro ops
  obtain ⟨s, hrun, hs⟩ := run_ok hgs ops
  obtain ⟨gs', r, hnext, hout⟩ := nextJob_outcome hs.groups
  refine ⟨s, hrun, ⟨gs', r, hnext, hout.isSome, ?_⟩, ?_⟩
  · rintro p rfl
    exact hout.takes hs.groups
  · intro group job g hg ops' hjob hstay hcalls
    by_contra hnot
    have hle := reachingCalls_le group job ops' hs hg hstay hnot
    have hlt := ringDist_lt (hs.groups g (mem_of_getElem? hg)).start_lt hjob
    omega

/-- Three modules, two of them in one group. -/
theorem job_selection_three : (∀ p ∈ ([12, 11, 12] : List Int), 0 < p) ∧
    ∃ gs, initJobs [12, 11, 12] = .ok gs ∧ gs.Pairwise (fun g h => g.priority < h.priority) := by
  have hpos : ∀ p ∈ ([12, 11, 12] : List Int), 0 < p := by simp
  obtain ⟨gs, hinit, horder, -⟩ := job_selection [12, 11, 12] hpos
  exact ⟨hpos, gs, hinit, horder⟩

end Nxlog.L4.Jobs
