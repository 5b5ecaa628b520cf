import Nxlog.L4App.EventDedupe

/-!
# Events and their lists (`common/event.c`, `common/module.c`)

An event is linked in the queue of a job, or in `ctx->events` until its time comes. Its pointer
`job` says in which: `nx_event_to_jobqueue` sets it where it links the event, and only new events
get into `ctx->events`.

* `eventAdd`: the function `nx_event_add`.
* `added_event_linked`: when the event is still in a list after it.
* `Sched.call`: the functions that change a queue, each with what it does to the counter.
* `event_counters_exact`: the counters along every run.
-/
namespace Nxlog.L4.Jobs
open L1 Res List

/-! ## Adding an event -/

/-- mirrors common/event.c:303-338 (`nx_event_to_jobqueue`), for the job of the module. -/
def eventToJobqueue (terminating : CBool) (event : Event) (job : Option Job) : Res (Option Job) := do
  Res.assert (event.priority ≠ 0) "event->priority != 0"
  match job with
  | none =>
    Res.assert (terminating = TRUE) "nxlog->terminating == TRUE"
    return none
  | some job =>
    let job ← dedupeJob (job.extend [event])
    return some job

/-- mirrors common/event.c:343-375 (`nx_event_add`); `events` is `ctx->events`. -/
def eventAdd (terminating delayed : CBool) (event : Event) (job : Option Job)
    (events : List Event) : Res (Option Job × List Event) := do
  Res.assert (event.type ≠ .none) "event->type != 0"
  if delayed = FALSE then
    let job ← eventToJobqueue terminating event job
    return (job, events)
  else return (job, events ++ [event])

/-- The event is the same as the last one of the queue, or ends an alternation. -/
def dropped (event : Event) : List Event → Bool
  | [] => false
  | e3 :: rest => decide (event.type = e3.type ∧ event.data = e3.data ∧
    event.priority = e3.priority) || match rest with
    | e2 :: e1 :: _ => alternates e1 e2 e3 event
    | _ => false

variable {queue queue' : List Event} {cnt cnt' : UInt32} {event : Event} {job : Job}

theorem dedupeLoop_subset (h : dedupeLoop queue cnt = .ok (queue', cnt')) : queue' ⊆ queue := by
  fun_induction dedupeLoop queue cnt with
  | case1 => cases h
  | case2 e4 e3 rest cnt _ _ ih => exact subset_cons_of_subset e4 (ih h)
  | case3 e4 e3 cnt _ _ e2 e1 rest _ ih => exact subset_cons_of_subset e4 (subset_cons_of_subset e3 (ih h))
  | case4 | case5 | case6 => cases h; exact Subset.refl _

/-- A new event is freed in the first turn of the loop or not at all. -/
theorem dedupeLoop_new (hnew : event ∉ queue) (h : dedupeLoop (event :: queue) cnt = .ok (queue', cnt')) :
    queue'.count event = 1 ↔ dropped event queue = false := by
  have hgone : ∀ {q c}, q ⊆ queue → dedupeLoop q c = .ok (queue', cnt') → queue'.count event ≠ 1 := by
    intro q c hq hloop
    rw [count_eq_zero.mpr fun hmem => hnew (hq (dedupeLoop_subset hloop hmem))]
    exact Nat.zero_ne_one
  have hstays : (event :: queue).count event = 1 := by
    rw [count_cons_self, count_eq_zero.mpr hnew]
  cases queue with
  | nil =>
    cases h
    exact iff_of_true hstays rfl
  | cons e3 rest =>
    unfold dedupeLoop at h
    split at h
    · cases h
    split at h
    · next hsame => exact iff_of_false (hgone (Subset.refl _) h) (by simp [dropped, hsame])
    next hsame =>
    split at h
    · next e2 e1 rest =>
      split at h
      · next halt => exact iff_of_false (hgone (subset_cons_self e3 _) h) (by simp [dropped, halt])
      · next halt =>
        cases h
        exact iff_of_true hstays (by simpa [dropped, halt] using hsame)
    · next hshort =>
      cases h
      exact iff_of_true hstays (by simpa [dropped, hshort] using hsame)

/-- A new event is in one list when `nx_event_add` returns exactly if it is delayed, or there is a
job and the event neither repeats the last one of its queue nor ends an alternation. -/
theorem added_event_linked {terminating delayed : CBool} {event : Event} {job job' : Option Job}
    {events events' : List Event} (hnew : event ∉ events ∧ ∀ j ∈ job, event ∉ j.events)
    (h : eventAdd terminating delayed event job events = .ok (job', events')) :
    (events' ++ job'.elim [] Job.events).count event = 1 ↔
      delayed ≠ FALSE ∨ ∃ j, job = some j ∧ dropped event j.events.reverse = false := by
  obtain ⟨hevents, hjob⟩ := hnew
  obtain ⟨_, -, h⟩ := bind_eq_ok.mp h
  have hzero := count_eq_zero.mpr hevents
  by_cases hd : delayed = FALSE
  · rw [if_pos hd] at h
    obtain ⟨job1, hqueue, h⟩ := bind_eq_ok.mp h
    cases h
    obtain ⟨_, -, hqueue⟩ := bind_eq_ok.mp hqueue
    cases job with
    | none =>
      obtain ⟨_, -, hqueue⟩ := bind_eq_ok.mp hqueue
      cases hqueue
      simp [hd, hzero]
    | some j =>
      obtain ⟨j', hdedupe, hqueue⟩ := bind_eq_ok.mp hqueue
      cases hqueue
      obtain ⟨⟨queue, cnt⟩, hloop, hdedupe⟩ := bind_eq_ok.mp hdedupe
      cases hdedupe
      have hlast : (j.extend [event]).events.reverse = event :: j.events.reverse := by simp [Job.extend]
      rw [hlast] at hloop
      have hiff := dedupeLoop_new (by simpa using hjob j rfl) hloop
      simpa [hd, hzero] using hiff
  · rw [if_neg hd] at h
    cases h
    refine iff_of_true ?_ (.inl hd)
    cases job with
    | none => simp [hzero]
    | some j =>
      have hqueue := count_eq_zero.mpr (hjob j rfl)
      simp [hzero, hqueue]

def readEvent (arrived : Nat) : Event := ⟨1, .read, 0, 1, arrived⟩

def writeEvent : Event := ⟨1, .write, 0, 1, 0⟩

/-- Behind a read and a write. -/
theorem added_event_linked_third :
    ∃ job', eventAdd FALSE FALSE (readEvent 1) (some ⟨1, FALSE, [readEvent 0, writeEvent], 2⟩) [] =
        .ok (job', []) ∧ ([] ++ job'.elim [] Job.events).count (readEvent 1) = 1 := by
  have hadd : eventAdd FALSE FALSE (readEvent 1) (some ⟨1, FALSE, [readEvent 0, writeEvent], 2⟩)
      [] = .ok (some ⟨1, FALSE, [readEvent 0, writeEvent, readEvent 1], 3⟩, []) := rfl
  exact ⟨_, hadd, (added_event_linked (by decide) hadd).mpr (.inr ⟨_, rfl, rfl⟩)⟩

/-- The poll event of `im_file` behind another one: `poll_event` is then set to an event that is
gone. -/
theorem added_event_freed : ∃ job', eventAdd FALSE FALSE (readEvent 1) (some ⟨1, FALSE, [readEvent 0], 1⟩) [] =
      .ok (job', []) ∧ ([] ++ job'.elim [] Job.events).count (readEvent 1) = 0 :=
  ⟨some ⟨1, FALSE, [readEvent 0], 1⟩, rfl, rfl⟩

/-! ## The counters -/

/-- The loop over a queue in common/module.c:142-159. -/
def unlinkLoop (p : Event → Bool) : List Event → UInt32 → List Event × UInt32
  | [], event_cnt => ([], event_cnt)
  | e :: es, event_cnt =>
    if p e then unlinkLoop p es (event_cnt - 1)
    else
      let (es, event_cnt) := unlinkLoop p es event_cnt
      (e :: es, event_cnt)

def Job.unlink (p : Event → Bool) (job : Job) : Job :=
  let (events, event_cnt) := unlinkLoop p job.events job.event_cnt
  { job with events, event_cnt }

/-- The branch of common/event.c:379-402 (`nx_event_remove`) for an event with a job. -/
def Job.remove (event : Event) (job : Job) : Job :=
  if event ∈ job.events then { job with events := job.events.erase event, event_cnt := job.event_cnt - 1 } else job

/-- The calls that change a queue (common/event.c:133-402, common/module.c:116-295,
core/ctx.c:355-415). `nx_module_remove_scheduled_events` looks at `ctx->events` only. -/
inductive QueueOp where
  | toJobqueue (event : Event)
  | remove (event : Event)
  | removeEvents (module : Nat)
  | removeEventsByData (module data : Nat)
  | removeEventsByType (module : Nat) (type : EventType)
  | dedupe (module : Nat)
  | setBusy (module : Nat) (busy : CBool)
  | nextJob

def Sched.linked (s : Sched) (event : Event) : Bool := s.jobgroups.any fun g => g.jobs.any (event ∈ ·.events)

/-- `nx_event_remove` is for linked events. -/
def QueueOp.allowed (s : Sched) : QueueOp → Bool
  | .remove event => s.linked event
  | _ => true

def Sched.onQueue (s : Sched) (module : Nat) (f : Job → Res Job) : Res Sched := do
  let jobgroups ← onJob module f s.jobgroups
  return ⟨jobgroups, s.arrivals + 1⟩

def Sched.call (s : Sched) : QueueOp → Res Sched
  | .toJobqueue event => s.onQueue event.module fun job =>
    dedupeJob (job.extend [{ event with arrived := s.arrivals }])
  | .remove event =>
    if s.linked event then s.onQueue event.module fun job => .ok (job.remove event) else Res.fault
  | .removeEvents module => s.onQueue module fun job => .ok (job.unlink (·.module = module))
  | .removeEventsByData module data => s.onQueue module fun job => .ok (job.unlink (·.data = data))
  | .removeEventsByType module type => s.onQueue module fun job => .ok (job.unlink (·.type = type))
  | .dedupe module => s.onQueue module dedupeJob
  | .setBusy module busy => s.step (.setBusy module busy)
  | .nextJob => s.step .nextJob

theorem unlinkLoop_eq (p : Event → Bool) (es : List Event) (cnt : UInt32) : unlinkLoop p es cnt =
    (es.filter fun e => !p e, cnt - UInt32.ofNat (es.length - (es.filter fun e => !p e).length)) := by
  fun_induction unlinkLoop p es cnt with
  | case1 => simp
  | case2 e es cnt hp ih =>
    have hle := length_filter_le (fun e => !p e) es
    rw [ih, filter_cons_of_neg (by simp [hp]), length_cons, Nat.succ_sub hle, Nat.succ_eq_add_one,
      UInt32.ofNat_add]
    refine congrArg (Prod.mk _) ?_
    grind
  | case3 e es cnt hp es' cnt' hrest ih =>
    rw [hrest] at ih
    cases ih
    simp [hp]

theorem Job.unlink_eq (p : Event → Bool) (job : Job) :
    job.unlink p = job.keep (job.events.filter fun e => !p e) := by
  rw [Job.unlink, unlinkLoop_eq]
  rfl

theorem Job.remove_eq (event : Event) (job : Job) : job.remove event = job.keep (job.events.erase event) := by
  unfold Job.remove Job.keep
  split
  · next he =>
    rw [length_erase_of_mem he, Nat.sub_sub_self (length_pos_of_mem he)]
    rfl
  · next he => simp [erase_of_not_mem he]

theorem dedupeJob_keep (h : ∀ e ∈ job.events, e.module = job.module) :
    ∃ events, events.Sublist job.events ∧ dedupeJob job = .ok (job.keep events) := by
  obtain ⟨queue, cnt, hloop, ⟨removed, hq, hcnt⟩, -, -⟩ :=
    dedupeLoop_spec job.event_cnt fun e he => h e (mem_reverse.mp he)
  have hlen : job.events.length - queue.reverse.length = removed.length := by
    have := congrArg length hq
    simp only [length_reverse, length_append] at this ⊢
    omega
  refine ⟨queue.reverse, ?_, ?_⟩
  · rw [← reverse_sublist, reverse_reverse, hq]
    exact sublist_append_right removed queue
  · rw [dedupeJob, hloop, Job.keep, hlen, hcnt]
    rfl

variable {s : Sched} {module : Nat}

theorem Sched.Ok.onQueue (hs : s.Ok) {f : Job → Res Job} (hf : ∀ job, job.Ok s.arrivals → job.module = module →
    ∃ job', f job = .ok job' ∧ job'.Ok (s.arrivals + 1)) : ∃ s', s.onQueue module f = .ok s' ∧ s'.Ok := by
  obtain ⟨gs, hon, hok, -⟩ := queue_step hs (Nat.le_succ _) hf
  exact ⟨⟨gs, s.arrivals + 1⟩, by rw [Sched.onQueue, hon]; rfl, hok⟩

theorem Sched.Ok.keep (hs : s.Ok) {f : Job → Job} {events : Job → List Event}
    (hf : ∀ job, f job = job.keep (events job))
    (hsub : ∀ job, (events job).Sublist job.events) : ∃ s', s.onQueue module (fun job =>
      .ok (f job)) = .ok s' ∧ s'.Ok := by
  refine hs.onQueue fun job hjob _ => ⟨_, rfl, ?_⟩
  rw [hf]
  exact (hjob.keep (hsub job)).mono (Nat.le_succ _)

theorem Sched.Ok.call (hs : s.Ok) (op : QueueOp) (hop : op.allowed s = true) : ∃ s',
    s.call op = .ok s' ∧ s'.Ok := by
  cases op with
  | toJobqueue event =>
    refine hs.onQueue fun job hjob hm => ?_
    have hall : ∀ e ∈ job.events ++ [{ event with arrived := s.arrivals }], e.module = job.module := by
      simpa [or_imp, forall_and, hm] using hjob.module
    rw [← Job.insert_eq hall]
    exact hjob.insert hm.symm rfl
  | remove event =>
    rw [Sched.call, if_pos (show s.linked event = true from hop)]
    exact hs.keep (Job.remove_eq event) fun job => erase_sublist
  | removeEvents | removeEventsByData | removeEventsByType =>
    exact hs.keep (Job.unlink_eq _) fun job => filter_sublist
  | dedupe =>
    refine hs.onQueue fun job hjob _ => ?_
    obtain ⟨events, hsub, hdedupe⟩ := dedupeJob_keep hjob.module
    exact ⟨_, hdedupe, (hjob.keep hsub).mono (Nat.le_succ _)⟩
  | setBusy module busy =>
    obtain ⟨s', h, hok, -⟩ := step_moves hs (.setBusy module busy)
    exact ⟨s', h, hok⟩
  | nextJob =>
    obtain ⟨s', h, hok, -⟩ := step_moves hs .nextJob
    exact ⟨s', h, hok⟩

/-- Along every run in which only linked events are removed, the counter of every job counts its
events. -/
theorem event_counters_exact {priorities : List Int} (hpos : ∀ p ∈ priorities, 0 < p) :
    ∃ gs, initJobs priorities = .ok gs ∧ ∀ ops,
      Meets Sched.call (fun s op => op.allowed s = true) ⟨gs, 0⟩ ops → Completes Sched.call
        (fun s => ∀ g ∈ s.jobgroups, ∀ job ∈ g.jobs, job.event_cnt = UInt32.ofNat job.events.length)
        ⟨gs, 0⟩ ops := by
  obtain ⟨gs, hinit, hgs⟩ := initJobs_ok hpos
  refine ⟨gs, hinit, fun ops hops => ?_⟩
  refine (completes_of_step (fun s op hs hop => hs.call op hop) hgs hops).mono ?_
  exact fun s hs g hg job hj => ((hs.groups g hg).jobs job hj).count

theorem event_counters_exact_three : ∃ gs, initJobs [12] = .ok gs ∧
    Completes Sched.call (fun s =>
      ∀ g ∈ s.jobgroups, ∀ job ∈ g.jobs, job.event_cnt = UInt32.ofNat job.events.length)
      ⟨gs, 0⟩ [.toJobqueue (readEvent 0), .remove (readEvent 0), .nextJob] := by
  have hpos : ∀ p ∈ ([12] : List Int), 0 < p := by simp
  obtain ⟨gs, hinit, hrun⟩ := event_counters_exact hpos
  refine ⟨gs, hinit, hrun _ ?_⟩
  cases hinit
  decide

end Nxlog.L4.Jobs
