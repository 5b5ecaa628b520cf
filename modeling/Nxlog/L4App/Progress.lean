import Mathlib.Data.List.Basic
import Nxlog.L4App.CanSend
import Nxlog.L4App.PmBuffer

/-!
# Along a route (`common/module.c`)

A processor gives a record to the module behind it, or to all modules behind it if that is not a
processor. A module that takes a record from its queue resumes the processor in front of it, or all
modules in front of it if that is not a processor. Both find the others by their place in the
array of the route and assert their types as they go.

`resume_senders` is only called by `nx_module_logqueue_peek`, for modules with a queue.

* `progressLogdata`, `resumeSenders`: the functions.
* `progress_conservation_iff`: what the modules behind a processor get.
* `InOrder`: inputs, then processors, then outputs. If there is no processor, then what follows does
  no harm unless it is an output that was not there before.
* `runs_iff`: the modules of a route run without a failed `ASSERT` exactly if the route is in order.
-/
namespace Nxlog.L4
open L1 L2 Res List

/-! ## Forwards -/

/-- common/module.c:699-725 and 741-767: one queue gets the record, or not. -/
def progressTo (conf : Conf) (self curr : Nat) (tmp : Logdata) (w : World) : Res (World × Bool) :=
  let queue := w.queues curr
  if (conf self).flowcontrol = false then
    if queue.limit ≤ queue.size then do
      logdataFree tmp
      return ((w.free tmp).post [.dataAvailable curr], false)
    else do
      let (queue, _) ← queue.push tmp
      return ((w.setQueue curr queue).post [.dataAvailable curr], true)
  else do
    let (queue, size) ← queue.push tmp
    let w := w.setQueue curr queue
    return (w.post (if queue.limit ≤ size then [.pause self] else [.dataAvailable curr]), true)

/-- A copy, or for the last module of the route the record itself. -/
def progressTmp (logdata : Logdata) (rest : List Nat) (next : Nat) : Res Logdata :=
  if rest = [] then .ok logdata else logdataClone next logdata

/-- The loop over the outputs behind a processor. -/
def progressOutputs (conf : Conf) (self : Nat) (logdata : Logdata) :
    List Nat → Nat → World → Bool → Res (World × Bool)
  | [], _, w, sent => .ok (w, sent)
  | curr :: rest, next, w, sent => do
    Res.assert ((conf curr).type = .output) "curr->type == NX_MODULE_TYPE_OUTPUT"
    let tmp ← progressTmp logdata rest next
    let (w, s) ← progressTo conf self curr tmp w
    progressOutputs conf self logdata rest (next + logdata.fields.length) w (sent || s)

/-- common/module.c:681-684. -/
def popFromQueue (self : Nat) (w : World) (logdata : Logdata) : Res World :=
  if (w.queues self).needpop then do
    let (queue, _) ← (w.queues self).pop logdata
    return w.setQueue self queue
  else return w

/-- common/module.c:686-769. -/
def progressRoute (conf : Conf) (self next : Nat) (w : World) (logdata : Logdata) : Res (World × Bool) :=
  match (conf self).routes with
  | [] => Res.fault
  | route :: _ =>
    match findNext self none route with
    | (none, _) => Res.fault
    | (some curr, rest) =>
      if (conf curr).type = .processor then progressTo conf self curr logdata w
      else progressOutputs conf self logdata rest next w false

/-- mirrors common/module.c:663-777 (`nx_module_progress_logdata`). -/
def progressLogdata (conf : Conf) (self next : Nat) (w : World) (logdata : Logdata) : Res World := do
  Res.assert ((conf self).type = .processor) "module->type == NX_MODULE_TYPE_PROCESSOR"
  let w ← popFromQueue self w logdata
  let (w, sent) ← progressRoute conf self next w logdata
  return if sent then w.countFwd self else w

/-- The same for one target in the walk of `giveEach`, in which a record is gone once it was handed
over. -/
def giveNext (conf : Conf) (self curr : Nat) : Round → Res Round :=
  give conf self curr fun w size =>
  if (w.queues curr).limit ≤ size then [.pause self] else [.dataAvailable curr]

/-! ## Backwards -/

/-- The double nearest to 0.7. -/
def sevenTenths : ℚ := 3152519739159347 / 4503599627370496

inductive Signal where
  | resume (m : Nat)
  | dataAvailable (m : Nat)
  deriving DecidableEq

section Backwards

variable (round : ℚ → ℚ) (conf : Conf) (w : World)

def resumeInputs : List Nat → Res (List Signal)
  | [] => .ok []
  | curr :: earlier => do
    Res.assert ((conf curr).type = .input) "curr->type == NX_MODULE_TYPE_INPUT"
    let send ← canSend round sevenTenths conf w curr
    let signals ← resumeInputs earlier
    return (if send then [.resume curr] else []) ++ signals

/-- common/module.c:861-885, on the modules from `j` down. Where a route starts with outputs, `j`
has gone below zero. -/
def resumePreceding : List Nat → Res (List Signal)
  | [] => Res.fault
  | curr :: earlier =>
    if (conf curr).type = .processor then do
      let send ← canSend round sevenTenths conf w curr
      return if send then .resume curr ::
        (if (conf curr).status = .running then [.dataAvailable curr] else []) else []
    else resumeInputs round conf w (curr :: earlier)

/-- The modules from `j` down, once `self` is found behind `before`. -/
def preceding (self : Nat) (before : List Nat) : List Nat :=
  if (conf self).type = .processor then before.reverse
  else (self :: before.reverse).dropWhile fun m => (conf m).type = .output

def resumeRoute (self : Nat) (route : List Nat) : Res (List Signal) :=
  if self ∈ route then do
    let before := route.takeWhile (· ≠ self)
    Res.assert (0 < before.length) "j > 0"
    resumePreceding round conf w (preceding conf self before)
  else .ok []

def resumeRoutes (self : Nat) : List (List Nat) → Res (List Signal)
  | [] => .ok []
  | route :: routes => do
    let signals ← resumeRoute round conf w self route
    let more ← resumeRoutes self routes
    return signals ++ more

/-- mirrors common/module.c:832-890 (`resume_senders`): the events it sends. -/
def resumeSenders (self : Nat) : Res (List Signal) := resumeRoutes round conf w self (conf self).routes

end Backwards

/-! ## What is to happen -/

/-- The queue after its first record was taken, if `peek` had given it out. -/
def afterPop (queue : Logqueue) : Logqueue := if queue.needpop then queue.tail queue.list.tail else queue

def World.popped (w : World) (m : Nat) : World := w.setQueue m (afterPop (w.queues m))

/-- `logdata` is the record that the module is working on. -/
structure Ready (w : World) (m : Nat) (logdata : Logdata) : Prop where
  queues : ∀ n, (w.queues n).Wf
  peeked : (w.queues m).needpop = true → ∃ rest, (w.queues m).list = logdata :: rest

def Progresses (conf : Conf) (logdata : Logdata) (self : Nat) : Prop :=
  ∀ next w, Ready w self logdata →
    ∃ w', progressLogdata conf self next w logdata = .ok w' ∧ w'.queues self = afterPop (w.queues self)

/-- A module with a queue does what it has to with this route. -/
structure RunsIn (round : ℚ → ℚ) (conf : Conf) (logdata : Logdata) (route : List Nat) (m : Nat) : Prop where
  progresses : (conf m).type = .processor → Progresses conf logdata m
  resumes : ∀ w, ∃ signals, resumeRoute round conf w m route = .ok signals

/-- The parts of a route in order. The record matters if a processor has to copy it. -/
structure Parts (type : Nat → ModuleType) (logdata : Logdata) (inputs processors outputs rest :
    List Nat) : Prop where
  inputs_ne : inputs ≠ []
  outputs_ne : outputs ≠ []
  inputs_type : ∀ m ∈ inputs, type m = .input
  processors_type : ∀ m ∈ processors, type m = .processor
  outputs_type : ∀ m ∈ outputs, type m = .output
  rest_type : ∀ m ∈ rest, type m ≠ .processor ∧ (type m = .output → m ∈ outputs)
  last : processors = [] ∨ (rest = [] ∧ (RawEventInField logdata ∨ outputs.length = 1))

def InOrder (type : Nat → ModuleType) (logdata : Logdata) (route : List Nat) : Prop :=
  ∃ inputs processors outputs rest, route = inputs ++ (processors ++ (outputs ++ rest)) ∧
    Parts type logdata inputs processors outputs rest

/-- Behind `x` there is a processor, or there are only outputs. -/
def Leads (conf : Conf) (route : List Nat) (x : Nat) : Prop :=
  ∃ a b, route = a ++ x :: b ∧ x ∉ a ∧
    ((conf (b.head?.getD x)).type = .processor ∨ ∀ y ∈ b, (conf y).type = .output)

/-- On the way back from `m` there are only inputs, or first a processor that leads on. -/
def Reaches (conf : Conf) (route : List Nat) (m : Nat) : Prop :=
  ∃ a b, route = a ++ m :: b ∧ m ∉ a ∧ a ≠ [] ∧ ∃ x back, preceding conf m a = x :: back ∧
    ((∀ y ∈ x :: back, (conf y).type = .input) ∨ (conf x).type = .processor ∧ Leads conf route x)

/-- Every processor of the route is there once, and belongs to no other. -/
def Own (conf : Conf) (route : List Nat) : Prop :=
  ∀ m ∈ route, (conf m).type = .processor → (conf m).routes = [route] ∧ route.count m = 1

variable {a b : List Nat} {m : Nat}

section Lemmas

variable {round : ℚ → ℚ} {conf : Conf} {w : World} {self : Nat} {logdata : Logdata}

/-! ## Forwards, step by step -/

theorem findNext_ne {a : List Nat} (ha : self ∉ a) {curr : Option Nat} (hcurr : curr ≠ some self)
    (b : List Nat) :
    findNext self curr (a ++ self :: b) = findNext self (some self) b := by
  induction a generalizing curr with
  | nil => rw [nil_append, findNext, if_neg hcurr]
  | cons m a ih =>
    rw [cons_append, findNext, if_neg hcurr]
    apply ih
    · exact fun h => ha (mem_cons_of_mem _ h)
    · intro h
      exact ha (Option.some.inj h ▸ mem_cons_self)

/-- The module behind `self`, or `self` if there is none. -/
theorem findNext_split (ha : self ∉ a) : findNext self none (a ++ self :: b) =
    (some (b.head?.getD self), b) := by
  rw [findNext_ne ha (by simp)]
  cases b with
  | nil => rfl
  | cons m b => simp [findNext]

variable {queue : Logqueue}

theorem World.setQueue_of_ne {m n : Nat} (h : n ≠ m) :
    (w.setQueue m queue).queues n = w.queues n := Function.update_of_ne h ..

theorem World.setQueue_self : (w.setQueue m queue).queues m = queue :=
  Function.update_self ..

/-- What `give` does with the record is `progressTo`. -/
theorem giveNext_eq (s : Round) (curr : Nat) :
    giveNext conf self curr s = s.tmp >>= fun t => progressTo conf self curr t.1 t.2.world >>= fun r =>
      .ok { t.2 with world := r.1, cnt := t.2.cnt - 1, sent := t.2.sent || r.2 } := by
  rw [giveNext, give]
  cases s.tmp with
  | error e => rfl
  | ok t =>
    simp only [ok_bind, progressTo]
    split
    · split
      · cases logdataFree t.1 with
        | error e => rfl
        | ok u => simp [ok_bind, pure_eq]
      · cases (t.2.world.queues curr).push t.1 with
        | error e => rfl
        | ok r => simp [ok_bind, pure_eq]
    · cases (t.2.world.queues curr).push t.1 with
      | error e => rfl
      | ok r => simp [ok_bind, pure_eq, World.setQueue_self]

variable {outputs : List Nat}

/-- The walk over `ts`, as long as `logdata` is there. -/
def handOver (conf : Conf) (self : Nat) (logdata : Logdata) (ts : List Nat) (next : Nat) (w : World)
    (sent : Bool) :
    Res Round :=
  giveEach (giveNext conf self) ts ⟨w, some logdata, ts.length, sent, next⟩

theorem handOver_one (curr next : Nat) (w : World) (sent : Bool) :
    handOver conf self logdata [curr] next w sent >>= (fun s => .ok (s.world, s.sent)) =
      progressTo conf self curr logdata w >>= fun r => .ok (r.1, sent || r.2) := by
  rw [handOver, giveEach, giveNext_eq]
  have htmp : (⟨w, some logdata, [curr].length, sent, next⟩ : Round).tmp =
      .ok (logdata, ⟨w, none, [curr].length, sent, next⟩) := rfl
  rw [htmp, ok_bind]
  cases progressTo conf self curr logdata w with
  | error e => rfl
  | ok r => rfl

theorem progressOutputs_eq (h : ∀ m ∈ outputs, (conf m).type = .output) (next : Nat) (w : World)
    (sent : Bool) : progressOutputs conf self logdata outputs next w sent =
      handOver conf self logdata outputs next w sent >>= fun s => .ok (s.world, s.sent) := by
  induction outputs generalizing next w sent with
  | nil => rfl
  | cons curr rest ih =>
    have hrest := ih (forall_mem_cons.mp h).2
    simp only [progressOutputs, progressTmp, h curr mem_cons_self, decide_true, assert_true, ok_bind]
    cases rest with
    | nil =>
      rw [handOver_one, if_pos rfl, ok_bind]
      rfl
    | cons n rest =>
      rw [handOver, giveEach, giveNext_eq, Round.tmp, if_neg (by simp)]
      simp only [length_cons]
      rw [if_pos (by omega)]
      cases logdataClone next logdata with
      | error e => rfl
      | ok tmp =>
        simp only [ok_bind, pure_eq]
        cases progressTo conf self curr tmp w with
        | error e => rfl
        | ok r =>
          simp only [ok_bind]
          rw [hrest, handOver]
          simp

theorem progressOutputs_types {r : World × Bool} {next : Nat} {sent : Bool}
    (h : progressOutputs conf self logdata outputs next w sent = .ok r) : ∀ m ∈ outputs,
    (conf m).type = .output := by
  induction outputs generalizing next w sent with
  | nil => simp
  | cons curr rest ih =>
    rw [progressOutputs] at h
    by_cases hcurr : (conf curr).type = .output
    · simp only [hcurr, decide_true, assert_true, ok_bind] at h
      obtain ⟨tmp, -, h⟩ := bind_eq_ok.mp h
      obtain ⟨r1, -, h⟩ := bind_eq_ok.mp h
      exact forall_mem_cons.mpr ⟨hcurr, ih h⟩
    · rw [decide_eq_false hcurr, assert_false, error_bind] at h
      cases h

theorem Ready.popped (h : Ready w self logdata) :
    popFromQueue self w logdata = .ok (w.popped self) ∧ ∀ m, ((w.popped self).queues m).Wf := by
  unfold popFromQueue World.popped afterPop
  by_cases hn : (w.queues self).needpop = true
  · obtain ⟨rest, hl⟩ := h.peeked hn
    have hpop := (h.queues self).pop hn hl
    rw [if_pos hn, if_pos hn, hpop, ok_bind, hl]
    refine ⟨rfl, fun m => ?_⟩
    by_cases hm : m = self
    · rw [hm, World.setQueue_self]
      exact (h.queues self).tail hl
    · rw [World.setQueue_of_ne hm]
      exact h.queues m
  · rw [if_neg hn, if_neg hn, World.setQueue, Function.update_eq_self]
    exact ⟨rfl, h.queues⟩

theorem idleWorld_ready (self : Nat) (logdata : Logdata) : Ready idleWorld self logdata :=
  ⟨fun _ => rfl, fun h => Bool.noConfusion h⟩

theorem progressRoute_split {more : List (List Nat)} (ha : self ∉ a)
    (hroutes : (conf self).routes = (a ++ self :: b) :: more) (next : Nat) :
    progressRoute conf self next w logdata =
      if (conf (b.head?.getD self)).type = .processor then progressTo conf self
      (b.head?.getD self) logdata w else progressOutputs conf self logdata b next w false := by
  rw [progressRoute, hroutes]
  dsimp only
  rw [findNext_split ha]

/-- `ts` are the modules that get the record, if `b` are those behind `self`. -/
def Behind (conf : Conf) (self : Nat) (b ts : List Nat) : Prop :=
  (conf (b.head?.getD self)).type = .processor ∧ ts = [b.head?.getD self] ∨
    b ≠ [] ∧ (∀ m ∈ b, (conf m).type = .output) ∧ ts = b

variable {ts : List Nat}

theorem Behind.ne_nil (h : Behind conf self b ts) : ts ≠ [] := by
  rcases h with ⟨-, rfl⟩ | ⟨hne, -, rfl⟩
  · simp
  · exact hne

theorem progressLogdata_eq (hready : Ready w self logdata) (htype : (conf self).type = .processor)
    (ha : self ∉ a)
    {more : List (List Nat)} (hroutes : (conf self).routes = (a ++ self :: b) :: more)
    (hts : Behind conf self b ts)
    (next : Nat) : progressLogdata conf self next w logdata =
      handOver conf self logdata ts next (w.popped self) false >>= fun s =>
        .ok (if s.sent then s.world.countFwd self else s.world) := by
  have hroute : progressRoute conf self next (w.popped self) logdata =
      handOver conf self logdata ts next (w.popped self) false >>= fun s => .ok (s.world, s.sent) := by
    rw [progressRoute_split ha hroutes]
    rcases hts with ⟨hn, rfl⟩ | ⟨hne, hout, rfl⟩
    · rw [if_pos hn, handOver_one]
      cases progressTo conf self (b.head?.getD self) logdata (w.popped self) with
      | error e => rfl
      | ok r => rfl
    · obtain ⟨n, rest, rfl⟩ := exists_cons_of_ne_nil hne
      rw [head?_cons, Option.getD_some, if_neg (by simp [hout n mem_cons_self]), progressOutputs_eq hout]
  simp only [progressLogdata, htype, decide_true, assert_true, ok_bind, hready.popped.1, hroute, bind_assoc]
  rfl

theorem handOver_spec (conf : Conf) (self : Nat) (hsound : ∀ f ∈ logdata.fields, Sound f.value)
    (hready : Ready w self logdata)
    (hne : ts ≠ []) (next : Nat) :
    (ts.length = 1 ∨ RawEventInField logdata → GaveAll (conf self).flowcontrol ts logdata
      ⟨w.popped self, some logdata, ts.length, false, next⟩
      (handOver conf self logdata ts next (w.popped self) false)) ∧
    ((∃ s, handOver conf self logdata ts next (w.popped self) false = .ok s) → ts.length = 1 ∨
      RawEventInField logdata) :=
  giveEach_spec (fun _ => ⟨_, rfl⟩) hsound hne rfl rfl hready.popped.2

/-- A processor does its work exactly if a processor follows, or only outputs. -/
theorem progresses_iff (hsound : ∀ f ∈ logdata.fields, Sound f.value) (ha : self ∉ a) (hb : self ∉ b)
    (hroutes : (conf self).routes = [a ++ self :: b]) (htype : (conf self).type = .processor) :
    Progresses conf logdata self ↔ b ≠ [] ∧ ((conf (b.head?.getD self)).type = .processor ∨
      ((∀ m ∈ b, (conf m).type = .output) ∧ (RawEventInField logdata ∨ b.length ≤ 1))) := by
  constructor
  · intro h
    have hidle := idleWorld_ready self logdata
    obtain ⟨w', hok, hsame⟩ := h 0 idleWorld hidle
    cases b with
    | nil =>
      -- nothing keeps a processor from pushing to itself, except that another module follows
      obtain ⟨copies, s, hs, -, -, hgave⟩ := (handOver_spec conf self hsound hidle
        (cons_ne_nil self []) 0).1 (.inl rfl)
      rw [progressLogdata_eq hidle htype ha hroutes (.inl ⟨htype, rfl⟩), head?_nil,
        Option.getD_none, hs] at hok
      obtain rfl : copies = [] := by simpa using hgave.count
      have hlist : (s.shares.queues self).list = [logdata] := by
        rw [hgave.shares]
        simp [Round.shares, Shares.offer, Shares.put, World.popped, World.setQueue, afterPop, idleWorld]
      have hw : (s.world.queues self).list = (w'.queues self).list := by
        rw [← Except.ok.inj hok]
        split
        · rfl
        · rfl
      have hnil : (s.world.queues self).list = [] := hw.trans (congrArg Logqueue.list hsame)
      cases hlist.symm.trans hnil
    | cons n rest =>
      refine ⟨by simp, ?_⟩
      simp only [progressLogdata, htype, decide_true, assert_true, ok_bind, hidle.popped.1,
        progressRoute_split ha hroutes] at hok
      rw [head?_cons, Option.getD_some] at hok ⊢
      by_cases hn : (conf n).type = .processor
      · exact .inl hn
      rw [if_neg hn] at hok
      obtain ⟨r, hout, -⟩ := bind_eq_ok.mp hok
      have htypes := progressOutputs_types hout
      rw [progressOutputs_eq htypes] at hout
      obtain ⟨s, hs, -⟩ := bind_eq_ok.mp hout
      have hone := (handOver_spec conf self hsound hidle (cons_ne_nil n rest) 0).2 ⟨s, hs⟩
      exact .inr ⟨htypes, hone.symm.imp_right Nat.le_of_eq⟩
  · rintro ⟨hne, hnext⟩ next w hready
    obtain ⟨n, rest, rfl⟩ := exists_cons_of_ne_nil hne
    obtain ⟨ts, hts, hnot, hone⟩ : ∃ ts, Behind conf self (n :: rest) ts ∧ self ∉ ts ∧
        (ts.length = 1 ∨ RawEventInField logdata) := by
      rcases hnext with hn | ⟨hout, hraw⟩
      · exact ⟨[n], .inl ⟨hn, rfl⟩, fun h => hb (mem_singleton.mp h ▸ mem_cons_self), .inl rfl⟩
      · exact ⟨n :: rest, .inr ⟨hne, hout, rfl⟩, hb, hraw.symm.imp_left fun h => by simpa using h⟩
    obtain ⟨copies, s, hs, -, -, hgave⟩ := (handOver_spec conf self hsound hready hts.ne_nil next).1 hone
    have hself : s.world.queues self = afterPop (w.queues self) := (hgave.other hnot).trans World.setQueue_self
    rw [progressLogdata_eq hready htype ha hroutes hts, hs, ok_bind]
    refine ⟨_, rfl, ?_⟩
    split
    · exact hself
    · exact hself

/-- What `pm_buffer` sees of it: its own queue. -/
theorem Progresses.progress {s : Pm} (h : Progresses conf logdata self)
    (hready : Ready w self logdata) (hqueue : s.queue = w.queues self) (next : Nat) :
    ∃ w', progressLogdata conf self next w logdata = .ok w' ∧
      L4.progress s logdata = .ok { s.setQueue (w'.queues self) with passed := s.passed ++ [logdata] } := by
  obtain ⟨w', hw', hself⟩ := h next w hready
  refine ⟨w', hw', ?_⟩
  rw [hself, L4.progress, popIfNeeded, hqueue, afterPop]
  by_cases hn : (w.queues self).needpop = true
  · obtain ⟨rest, hl⟩ := hready.peeked hn
    rw [if_pos hn, if_pos hn, popQueue, hqueue, (hready.queues self).pop hn hl, hl]
    rfl
  · rw [if_neg hn, if_neg hn, ← hqueue]
    rfl

/-- Whom a processor of `route` gives its record: the next processor, or all outputs. -/
def nextTargets (conf : Conf) (self : Nat) (route : List Nat) : List Nat :=
  routeTargets conf (route.dropWhile fun m => m ≠ self).tail

/-- The record was taken from the queue if `needpop` was set, each of `ts` got its share, and
`evt_fwd` counts if any queue got one. No step of the walk uses a record that was handed over or
freed. -/
def HandedOver (conf : Conf) (self next : Nat) (w : World) (logdata : Logdata) (ts : List Nat) : Prop :=
  progressLogdata conf self next w logdata =
  (handOver conf self logdata ts next (w.popped self) false >>= fun s =>
    .ok (if s.sent then s.world.countFwd self else s.world)) ∧
  GaveAll (conf self).flowcontrol ts logdata ⟨w.popped self, some logdata, ts.length, false, next⟩
    (handOver conf self logdata ts next (w.popped self) false)

/-- A processor gives its record to the modules behind it exactly if there is only one of them or a
field of the record holds `raw_event`. -/
theorem progress_conservation_iff (conf : Conf) (self next : Nat) (w : World) (logdata : Logdata)
    (route : List Nat)
    (more : List (List Nat)) (hroutes : (conf self).routes = route :: more)
    (hordered : Ordered conf route) (houtput : ∃ m ∈ route, (conf m).type = .output)
    (hself : self ∈ route) (htype : (conf self).type = .processor)
    (hready : Ready w self logdata) (hsound : ∀ f ∈ logdata.fields, Sound f.value) :
    HandedOver conf self next w logdata (nextTargets conf self route) ↔
      (nextTargets conf self route).length = 1 ∨ RawEventInField logdata := by
  obtain ⟨inputs, processors, outputs, rfl, hi, hp, ho⟩ := hordered
  have hne : outputs ≠ [] := by
    rintro rfl
    obtain ⟨m, hm, hout⟩ := houtput
    simp only [append_nil, mem_append] at hm
    rcases hm with hm | hm
    · simp [hi m hm] at hout
    · simp [hp m hm] at hout
  have hmem : self ∈ processors := by
    simp only [mem_append] at hself
    rcases hself with hm | hm | hm
    · simp [hi self hm] at htype
    · exact hm
    · simp [ho self hm] at htype
  have hnot : self ∉ inputs := fun hm => by simp [hi self hm] at htype
  obtain ⟨p1, p2, rfl, hfirst⟩ := eq_append_cons_of_mem hmem
  have hsplit : inputs ++ (p1 ++ self :: p2 ++ outputs) = (inputs ++ p1) ++ self :: (p2 ++ outputs) := by simp
  have hbefore : self ∉ inputs ++ p1 := by simp [hnot, hfirst]
  have htargets : nextTargets conf self (inputs ++ p1 ++ self :: (p2 ++ outputs)) =
    routeTargets conf (p2 ++ outputs) := by
    rw [nextTargets, dropWhile_append_of_pos]
    · simp
    · intro m hm
      simpa using fun h : m = self => hbefore (h ▸ hm)
  have hbehind : Behind conf self (p2 ++ outputs) (routeTargets conf (p2 ++ outputs)) := by
    cases p2 with
    | nil => exact .inr ⟨hne, ho, routeTargets_outputs ho⟩
    | cons n p2 =>
      have hn := hp n (by simp)
      exact .inl ⟨hn, by simp [routeTargets, hn]⟩
  rw [hsplit] at hroutes ⊢
  rw [htargets]
  obtain ⟨hok, honly⟩ := handOver_spec conf self hsound hready hbehind.ne_nil next
  constructor
  · rintro ⟨-, copies, s, hs, -⟩
    exact honly ⟨s, hs⟩
  · intro hone
    exact ⟨progressLogdata_eq hready htype hbefore hroutes hbehind next, hok hone⟩

def processorTwoOutputs : Conf := fun m =>
  ⟨lit "p", lit "pm", if m = 0 then .input else if m = 1 then .processor else .output, .running,
    true, [[0, 1, 2, 3]], none⟩

/-- A new record goes to both outputs. -/
theorem progress_conservation_two_outputs : HandedOver processorTwoOutputs 1 1 idleWorld logdataNew
    [2, 3] := by
  exact (progress_conservation_iff processorTwoOutputs 1 1 idleWorld logdataNew [0, 1, 2, 3] [] rfl
    ⟨[0], [1], [2, 3], rfl, by decide, by decide, by decide⟩ ⟨2, by simp, rfl⟩ (by simp) rfl
    (idleWorld_ready 1 logdataNew) logdataNew_sound).mpr (.inr ⟨_, mem_cons_self, _, rfl, rfl⟩)

/-- A record without fields has a `raw_event` that no field holds, and giving it to two outputs
panics. -/
theorem progress_panics_without_raw_event : ∃ ld, logdataFromMembuf [0, 0] 2 = .ok (ld, 2) ∧
    progressLogdata processorTwoOutputs 1 1 (idleWorld.setQueue 1 ⟨[ld], 1, 100, "q", "d", true⟩) ld =
      .error (.assert "new->raw_event != NULL") :=
  ⟨⟨some 0, [], [⟨0, []⟩]⟩, rfl, rfl⟩

/-! ## Backwards, step by step -/

theorem sevenTenths_pos : 0 < sevenTenths := by norm_num [sevenTenths]

theorem resumeInputs_iff (modules : List Nat) :
    (∃ signals, resumeInputs round conf w modules = .ok signals) ↔ ∀ m ∈ modules, (conf m).type = .input := by
  induction modules with
  | nil => simp [resumeInputs]
  | cons m earlier ih =>
    by_cases hm : (conf m).type = .input
    · simp only [resumeInputs, hm, decide_true, assert_true, ok_bind, canSend_input hm sevenTenths_pos]
      simp only [mem_cons, forall_eq_or_imp, hm, true_and, ← ih]
      exact returns_bind_ok
    · simp [resumeInputs, hm, assert_false, error_bind]

theorem outputsRoom_ok (h : ∀ m ∈ outputs, (conf m).type = .output) (multiplier : ℚ) :
    ∃ room, outputsRoom round multiplier conf w outputs = .ok room := by
  induction outputs with
  | nil => exact ⟨true, rfl⟩
  | cons m rest ih =>
    obtain ⟨room, hroom⟩ := ih (forall_mem_cons.mp h).2
    simp only [outputsRoom, h m mem_cons_self, decide_true, assert_true, ok_bind]
    split
    · exact ⟨false, rfl⟩
    · exact ⟨room, hroom⟩

/-- If no queue is full, then the types of all modules are looked at. -/
theorem outputsRoom_idle (hround : 0 < round (100 * sevenTenths)) {room : Bool}
    (h : outputsRoom round sevenTenths conf idleWorld outputs = .ok room) : ∀ m ∈ outputs,
    (conf m).type = .output := by
  induction outputs with
  | nil => simp
  | cons m rest ih =>
    have hroom : full round sevenTenths idleWorld m = false := by
      simpa [full, idleWorld] using hround
    by_cases hm : (conf m).type = .output
    · simp only [outputsRoom, hm, decide_true, assert_true, ok_bind, hroom] at h
      exact forall_mem_cons.mpr ⟨hm, ih h⟩
    · simp [outputsRoom, hm, assert_false, error_bind] at h

/-- What `nx_module_can_send` needs of the modules behind a processor. -/
theorem canSend_processor_iff (hround : 0 < round (100 * sevenTenths)) (ha : self ∉ a)
    (hroutes : (conf self).routes = [a ++ self :: b]) (htype : (conf self).type = .processor) :
    (∀ w, ∃ room, canSend round sevenTenths conf w self = .ok room) ↔
      (conf (b.head?.getD self)).type = .processor ∨ ∀ m ∈ b, (conf m).type = .output := by
  have hsend : ∀ w, canSend round sevenTenths conf w self =
      if (conf (b.head?.getD self)).type = .processor then .ok (!full round sevenTenths w (b.head?.getD self))
      else outputsRoom round sevenTenths conf w b := by
    intro w
    simp only [canSend, sevenTenths_pos, decide_true, assert_true, ok_bind, htype, hroutes,
      findNext_split ha]
    rfl
  by_cases hn : (conf (b.head?.getD self)).type = .processor
  · simp only [hsend, hn, if_true, true_or, iff_true]
    exact fun w => ⟨_, rfl⟩
  simp only [hsend, hn, if_false, false_or]
  constructor
  · intro h
    obtain ⟨room, hroom⟩ := h idleWorld
    exact outputsRoom_idle hround hroom
  · exact fun h w => outputsRoom_ok h sevenTenths

/-- A route in which `self` is not the first module is followed back from there. -/
theorem resumeRoute_split {a : List Nat} (ha : self ∉ a) (b : List Nat) :
    (∃ signals, resumeRoute round conf w self (a ++ self :: b) = .ok signals) ↔
      a ≠ [] ∧ ∃ signals, resumePreceding round conf w (preceding conf self a) = .ok signals := by
  have hbefore : (a ++ self :: b).takeWhile (· ≠ self) = a := by
    rw [takeWhile_append_of_pos]
    · simp
    · intro m hm
      simpa using fun h : m = self => ha (h ▸ hm)
  rw [resumeRoute, if_pos (by simp), hbefore]
  cases a with
  | nil => simp [assert_false, error_bind]
  | cons m a => simp [assert_true, ok_bind]

/-- The way back from an output over the outputs in front of it. -/
theorem preceding_append (hself : queued conf self = true) {a outputs : List Nat}
    (hm : (conf m).type ≠ .output) (houtputs : ∀ x ∈ outputs, (conf x).type = .output)
    (hout : (conf self).type = .processor → outputs = []) :
    preceding conf self (a ++ [m] ++ outputs) = m :: a.reverse := by
  unfold preceding
  split
  · next htype => simp [hout htype]
  next htype =>
  have htype : (conf self).type = .output := by simpa [queued, htype] using hself
  have hdrop : (outputs.reverse ++ m :: a.reverse).dropWhile
      (fun x => decide ((conf x).type = .output)) = m :: a.reverse := by
    rw [dropWhile_append_of_pos (by simpa using houtputs)]
    simp [hm]
  simpa [htype] using hdrop

end Lemmas

/-! ## The whole route -/

section Whole

variable {round : ℚ → ℚ} {conf : Conf} {logdata : Logdata} {route : List Nat}

theorem first_where {p : Nat → Bool} {l : List Nat} (h : ∃ m ∈ l, p m = true) :
    ∃ a m b, l = a ++ m :: b ∧ p m = true ∧ ∀ x ∈ a, p x = false := by
  obtain ⟨m, hm⟩ := Option.isSome_iff_exists.mp (find?_isSome.mpr h)
  obtain ⟨hp, a, b, hl, ha⟩ := find?_eq_some_iff_append.mp hm
  exact ⟨a, m, b, hl, hp, by simpa using ha⟩

theorem notMem_of_count (h : (a ++ m :: b).count m = 1) : m ∉ a ∧ m ∉ b := by
  rw [count_append, count_cons_self] at h
  exact ⟨count_eq_zero.mp (by omega), count_eq_zero.mp (by omega)⟩

theorem mem_of_preceding {a back : List Nat} (h : preceding conf m a = x :: back) : x ∈ a ++ [m] := by
  have hx : x ∈ preceding conf m a := h ▸ mem_cons_self
  unfold preceding at hx
  split at hx
  · simp [mem_reverse.mp hx]
  · simpa [or_comm] using (dropWhile_sublist _).subset hx

theorem reaches_congr {conf' : Conf} (h : ∀ m, (conf' m).type = (conf m).type) (m : Nat) :
    Reaches conf' route m ↔ Reaches conf route m := by
  simp only [Reaches, Leads, preceding, h]

theorem resumeRoutes_iff {w : World} (routes : List (List Nat)) :
    (∃ signals, resumeRoutes round conf w m routes = .ok signals) ↔
      ∀ route ∈ routes, ∃ signals, resumeRoute round conf w m route = .ok signals := by
  induction routes with
  | nil => simp [resumeRoutes]
  | cons route routes ih =>
    rw [forall_mem_cons, ← ih, resumeRoutes]
    constructor
    · rintro ⟨signals, h⟩
      obtain ⟨s1, h1, h⟩ := bind_eq_ok.mp h
      obtain ⟨s2, h2, -⟩ := bind_eq_ok.mp h
      exact ⟨⟨s1, h1⟩, s2, h2⟩
    · rintro ⟨⟨s1, h1⟩, s2, h2⟩
      rw [h1, h2]
      exact ⟨_, rfl⟩

variable (hround : 0 < round (100 * sevenTenths)) (hown : Own conf route)
include hround hown

/-- A processor of the route can send if it leads on. -/
theorem canSend_iff_leads (hm : m ∈ route) (htype : (conf m).type = .processor) :
    (∀ w, ∃ room, canSend round sevenTenths conf w m = .ok room) ↔ Leads conf route m := by
  have hroutes := (hown m hm htype).1
  constructor
  · intro h
    obtain ⟨a, b, hsame, hnot⟩ := eq_append_cons_of_mem hm
    exact ⟨a, b, hsame, hnot, (canSend_processor_iff hround hnot (hsame ▸ hroutes) htype).mp h⟩
  · rintro ⟨a, b, hsame, hnot, hnext⟩
    exact (canSend_processor_iff hround hnot (hsame ▸ hroutes) htype).mpr hnext

/-- What `resume_senders` needs of the modules in front of `m`. -/
theorem resumes_iff (hroute : route = a ++ m :: b) (hm : m ∉ a) :
    (∀ w, ∃ signals, resumeRoute round conf w m route = .ok signals) ↔
      a ≠ [] ∧ ∃ x back, preceding conf m a = x :: back ∧
        ((∀ y ∈ x :: back, (conf y).type = .input) ∨ (conf x).type = .processor ∧ Leads conf route x) := by
  have hsplit : (∀ w, ∃ signals, resumeRoute round conf w m route = .ok signals) ↔
      a ≠ [] ∧ ∀ w, ∃ signals, resumePreceding round conf w (preceding conf m a) = .ok signals := by
    have : Nonempty World := ⟨idleWorld⟩
    rw [hroute]
    simp only [resumeRoute_split hm, forall_and, forall_const]
  rw [hsplit]
  refine and_congr_right fun _ => ?_
  cases hback : preceding conf m a with
  | nil =>
    refine iff_of_false (fun h => ?_) (by simp)
    obtain ⟨signals, hok⟩ := h idleWorld
    cases hok
  | cons x back =>
    have hmem : x ∈ route := by
      have := mem_of_preceding hback
      simp only [mem_append, mem_singleton] at this
      simp only [hroute, mem_append, mem_cons]
      tauto
    by_cases hx : (conf x).type = .processor
    · have hsend : (∀ w, ∃ signals, resumePreceding round conf w (x :: back) = .ok signals) ↔
        Leads conf route x := by
        rw [← canSend_iff_leads hround hown hmem hx]
        refine forall_congr' fun w => ?_
        rw [resumePreceding, if_pos hx]
        exact returns_bind_ok
      simp [hsend, hx]
    · have hin : (∀ w, ∃ signals, resumePreceding round conf w (x :: back) = .ok signals) ↔
          ∀ y ∈ x :: back, (conf y).type = .input := by
        have : Nonempty World := ⟨idleWorld⟩
        simp only [resumePreceding, if_neg hx, resumeInputs_iff, forall_const]
      rw [hin]
      simp [hx]

theorem resumeRoute_iff (hm : m ∈ route) :
    (∀ w, ∃ signals, resumeRoute round conf w m route = .ok signals) ↔ Reaches conf route m := by
  constructor
  · intro h
    obtain ⟨a, b, hroute, hnot⟩ := eq_append_cons_of_mem hm
    exact ⟨a, b, hroute, hnot, (resumes_iff hround hown hroute hnot).mp h⟩
  · rintro ⟨a, b, hroute, hnot, h⟩
    exact (resumes_iff hround hown hroute hnot).mpr h

/-- In front of the first module with a queue there are inputs, and at least one. -/
theorem inputs_of_runs (hroute : route = a ++ m :: b) (hm : queued conf m = true)
    (ha : ∀ x ∈ a, queued conf x = false) (hruns : RunsIn round conf logdata route m) :
    a ≠ [] ∧ ∀ x ∈ a, (conf x).type = .input := by
  have hnot : m ∉ a := fun h => by simp [ha m h] at hm
  obtain ⟨hne, x, back, hpre, hx⟩ := (resumes_iff hround hown hroute hnot).mp hruns.resumes
  obtain ⟨a', p, rfl⟩ := (eq_nil_or_concat' a).resolve_left hne
  have hp : (conf p).type ≠ .processor ∧ (conf p).type ≠ .output := by simpa [queued] using ha p (by simp)
  have hback : preceding conf m (a' ++ [p] ++ []) = p :: a'.reverse :=
    preceding_append hm hp.2 (by simp) (by simp)
  rw [append_nil, hpre] at hback
  cases hback
  have hin := hx.resolve_right fun h => hp.1 h.1
  refine ⟨hne, fun x hx => hin x ?_⟩
  simpa [or_comm] using hx

section Behind

variable {q : Nat} (hroute : route = a ++ q :: b) (hne : a ≠ []) (ha : ∀ x ∈ a, (conf x).type = .input)
  (hruns : ∀ m ∈ route, queued conf m = true → RunsIn round conf logdata route m)
include hroute hne ha hruns

omit hround in
/-- Behind the inputs there are processors and then outputs, if a processor is the first of them. -/
theorem parts_of_processor (hsound : ∀ f ∈ logdata.fields, Sound f.value)
    (hq : (conf q).type = .processor) : InOrder (fun m => (conf m).type) logdata route := by
  let p : Nat → Bool := fun m => (conf m).type = .processor
  have hps : ∀ m ∈ (q :: b).takeWhile p, (conf m).type = .processor := fun m hm => by
    simpa [p] using mem_takeWhile_imp hm
  have hsplit : (q :: b).takeWhile p ++ (q :: b).dropWhile p = q :: b := takeWhile_append_dropWhile
  have hfirst : (q :: b).takeWhile p ≠ [] := by simp [p, hq]
  obtain ⟨ps, last, hlast⟩ := (eq_nil_or_concat' _).resolve_left hfirst
  -- the last processor in front of something else
  generalize hout : (q :: b).dropWhile p = outputs at hsplit
  rw [hlast] at hsplit hps
  have hR : route = (a ++ ps) ++ last :: outputs := by
    rw [hroute, ← hsplit]
    simp
  have hmem : last ∈ route := by simp [hR]
  have htype := hps last (by simp)
  obtain ⟨hroutes, hcount⟩ := hown last hmem htype
  have hnot := notMem_of_count (hR ▸ hcount)
  have hprog := (hruns last hmem (by simp [queued, htype])).progresses htype
  obtain ⟨houtne, hnext⟩ := (progresses_iff hsound hnot.1 hnot.2 (hR ▸ hroutes) htype).mp hprog
  have hhead : (conf (outputs.head?.getD last)).type ≠ .processor := by
    obtain ⟨n, rest, rfl⟩ := exists_cons_of_ne_nil houtne
    have := head?_dropWhile_not p (q :: b)
    simpa [hout, p] using this
  obtain ⟨houttype, hraw⟩ := hnext.resolve_left hhead
  refine ⟨a, ps ++ [last], outputs, [], by simp [hR], hne, houtne, ha, hps, houttype, by simp, .inr ⟨rfl, ?_⟩⟩
  have := length_pos_iff.mpr houtne
  exact hraw.imp_right fun h => by omega

/-- Behind inputs and outputs no processor follows and no other output. -/
theorem parts_of_output (hq : (conf q).type = .output) : InOrder (fun m => (conf m).type) logdata route := by
  let p : Nat → Bool := fun m => (conf m).type = .output
  have houttype : ∀ m ∈ (q :: b).takeWhile p, (conf m).type = .output := fun m hm => by
    simpa [p] using mem_takeWhile_imp hm
  have hsplit : (q :: b).takeWhile p ++ (q :: b).dropWhile p = q :: b := takeWhile_append_dropWhile
  have hqmem : q ∈ (q :: b).takeWhile p := by simp [p, hq]
  have hhead := head?_dropWhile_not p (q :: b)
  generalize hrest : (q :: b).dropWhile p = rest at hsplit hhead
  generalize (q :: b).takeWhile p = outputs at hsplit houttype hqmem
  refine ⟨a, [], outputs, rest,
    by simp [hroute, hsplit], hne, ne_nil_of_mem hqmem, ha, by simp, houttype, ?_, .inl rfl⟩
  -- the first module of the rest that should not be there
  by_contra hcon
  have hbad : ∃ m ∈ rest, decide ((conf m).type = .processor ∨ (conf m).type = .output ∧
    m ∉ outputs) = true := by
    simpa [not_and_or, or_iff_not_imp_left] using hcon
  obtain ⟨front, m, behind, rfl, hm, hfront⟩ := first_where hbad
  have hm : (conf m).type = .processor ∨ (conf m).type = .output ∧ m ∉ outputs := by simpa using hm
  have hmq : queued conf m = true := by
    rcases hm with hm | hm
    · simp [queued, hm]
    · simp [queued, hm.1]
  have hR : route = (a ++ outputs ++ front) ++ m :: behind := by
    rw [hroute, ← hsplit]
    simp
  have hfront : ∀ x ∈ front,
    ¬ ((conf x).type = .processor ∨ (conf x).type = .output ∧ x ∉ outputs) := fun x hx =>
    decide_eq_false_iff_not.mp (hfront x hx)
  have hnot : m ∉ a ++ outputs ++ front := by
    intro h
    rcases mem_append.mp h with h | h
    · rcases mem_append.mp h with h | h
      · simp [ha m h] at hm
      · simp [houttype m h, h] at hm
    · exact hfront m h hm
  have hrunsm := hruns m (by simp [hR]) hmq
  have hproc : ∀ x ∈ a ++ outputs ++ front, (conf x).type ≠ .processor := by
    intro x hx hxp
    rcases mem_append.mp hx with hx | hx
    · rcases mem_append.mp hx with hx | hx
      · simp [ha x hx] at hxp
      · simp [houttype x hx] at hxp
    · exact hfront x hx (.inl hxp)
  obtain ⟨-, x, back, hpre, hx⟩ := (resumes_iff hround hown hR hnot).mp hrunsm.resumes
  -- in both cases the output `q` would have to be an input
  rcases hm with hm | ⟨hm, hnew⟩
  · rw [preceding, if_pos hm] at hpre
    have hmem : ∀ y, y ∈ x :: back ↔ y ∈ a ++ outputs ++ front := fun y => by rw [← hpre, mem_reverse]
    have hin := hx.resolve_right fun h => hproc x ((hmem x).mp mem_cons_self) h.1
    simp [hin q ((hmem q).mpr (by simp [hqmem]))] at hq
  · have hstop : ∃ x ∈ front.reverse, decide ((conf x).type ≠ .output) = true := by
      cases front with
      | nil => simp [p, hm] at hhead
      | cons f front => exact ⟨f, by simp, by simpa [p] using hhead⟩
    obtain ⟨f2, y, f1, hrev, hy, hf2⟩ := first_where hstop
    have hfr : front = f1.reverse ++ [y] ++ f2.reverse := by
      rw [← reverse_reverse front, hrev]
      simp
    have hback : preceding conf m (a ++ outputs ++ f1.reverse ++ [y] ++ f2.reverse) =
        y :: (a ++ outputs ++ f1.reverse).reverse := by
      apply preceding_append hmq
      · simpa using hy
      · simpa using hf2
      · simp [hm]
    have hsame : a ++ outputs ++ f1.reverse ++ [y] ++ f2.reverse = a ++ outputs ++ front := by simp [hfr]
    rw [hsame, hpre] at hback
    cases hback
    have hin := hx.resolve_right fun h => hproc x (by simp [hfr]) h.1
    simp [hin q (by simp [hqmem])] at hq

end Behind

section Ordered

variable {inputs processors outputs rest : List Nat}

/-- A module behind inputs, processors and outputs can resume what is in front, if the processors
lead on. -/
theorem resumes_behind (hroute : route = inputs ++ processors ++ outputs ++ m :: b)
    (hm : m ∉ inputs ++ processors ++ outputs)
    (hq : queued conf m = true) (hne : inputs ≠ []) (hin : ∀ x ∈ inputs, (conf x).type = .input)
    (hproc : ∀ x ∈ processors, (conf x).type = .processor) (hout : ∀ x ∈ outputs,
    (conf x).type = .output) (hnext : (conf m).type = .processor ∧ outputs = [] ∨
      (conf m).type = .output ∧ (processors ≠ [] → ∀ x ∈ b, (conf x).type = .output)) :
    ∀ w, ∃ signals, resumeRoute round conf w m route = .ok signals := by
  have hnil : (conf m).type = .processor → outputs = [] := fun htype =>
    (hnext.resolve_right fun h => by simp [htype] at h).2
  refine (resumes_iff hround hown hroute hm).mpr ⟨by simp [hne], ?_⟩
  rcases eq_nil_or_concat' processors with rfl | ⟨ps, x, rfl⟩
  · obtain ⟨ins, x, rfl⟩ := (eq_nil_or_concat' inputs).resolve_left hne
    have hx := hin x (by simp)
    refine ⟨x, ins.reverse, by simpa using preceding_append hq (by simp [hx]) hout hnil, .inl fun y hy => ?_⟩
    exact hin y (by simpa [or_comm] using hy)
  · have hx := hproc x (by simp)
    have hRx : route = (inputs ++ ps) ++ x :: (outputs ++ m :: b) := by simp [hroute]
    have hback := preceding_append (a := inputs ++ ps) (m := x) hq (by simp [hx]) hout hnil
    refine ⟨x, _, by simpa using hback, .inr ⟨hx, _, _, hRx, ?_, ?_⟩⟩
    · exact (notMem_of_count (hRx ▸ (hown x (by simp [hRx]) hx).2)).1
    rcases hnext with ⟨htype, rfl⟩ | ⟨htype, hb⟩
    · exact .inl htype
    exact .inr (forall_mem_append.mpr ⟨hout, forall_mem_cons.mpr ⟨htype, hb (by simp)⟩⟩)

variable (h : Parts (fun m => (conf m).type) logdata inputs processors outputs rest)
  (hroute : route = inputs ++ (processors ++ (outputs ++ rest)))
include h hroute

theorem Parts.runs_processor (hsound : ∀ f ∈ logdata.fields, Sound f.value) (hm : m ∈ processors) :
    RunsIn round conf logdata route m := by
  obtain ⟨hrest, hraw⟩ := h.last.resolve_left (ne_nil_of_mem hm)
  subst hrest
  have htype := h.processors_type m hm
  obtain ⟨ps1, ps2, rfl⟩ := append_of_mem hm
  have hR : route = (inputs ++ ps1) ++ m :: (ps2 ++ outputs) := by simp [hroute]
  obtain ⟨hroutes, hcount⟩ := hown m (by simp [hR]) htype
  have hnot := notMem_of_count (hR ▸ hcount)
  refine ⟨fun _ => ?_, ?_⟩
  · refine (progresses_iff hsound hnot.1 hnot.2 (hR ▸ hroutes) htype).mpr ⟨by simp [h.outputs_ne], ?_⟩
    cases ps2 with
    | nil => exact .inr ⟨h.outputs_type, hraw.imp_right Nat.le_of_eq⟩
    | cons n ps2 => exact .inl (h.processors_type n (by simp))
  · have hR0 : route = inputs ++ ps1 ++ [] ++ m :: (ps2 ++ outputs) := by simpa using hR
    exact resumes_behind hround hown hR0 (by simpa using hnot.1) (by simp [queued, htype])
      h.inputs_ne h.inputs_type (fun x hx => h.processors_type x (by simp [hx])) (by simp) (.inl ⟨htype, rfl⟩)

theorem Parts.runs_output (hm : m ∈ outputs) : RunsIn round conf logdata route m := by
  have htype := h.outputs_type m hm
  obtain ⟨o1, o2, hout, hfirst⟩ := eq_append_cons_of_mem hm
  have hR : route = (inputs ++ processors ++ o1) ++ m :: (o2 ++ rest) := by simp [hroute, hout]
  have hnot : m ∉ inputs ++ processors ++ o1 := by
    intro hmem
    rcases mem_append.mp hmem with hmem | hmem
    · rcases mem_append.mp hmem with hmem | hmem
      · simp [h.inputs_type m hmem] at htype
      · simp [h.processors_type m hmem] at htype
    · exact hfirst hmem
  refine ⟨fun hproc => by simp [hproc] at htype, ?_⟩
  refine resumes_behind hround hown hR hnot (by simp [queued, htype]) h.inputs_ne h.inputs_type
    h.processors_type
    (fun x hx => h.outputs_type x (by simp [hout, hx])) (.inr ⟨htype, fun hne x hx => h.outputs_type x ?_⟩)
  rw [(h.last.resolve_left hne).1, append_nil] at hx
  simp [hout, hx]

end Ordered

/-- The modules of a route work without a failed `ASSERT` exactly if none of them has a queue or
they are in order. -/
theorem runs_iff (hsound : ∀ f ∈ logdata.fields, Sound f.value) :
    (∀ m ∈ route, queued conf m = true → RunsIn round conf logdata route m) ↔
      (∀ m ∈ route, queued conf m = false) ∨ InOrder (fun m => (conf m).type) logdata route := by
  constructor
  · intro hruns
    by_cases hq : ∃ m ∈ route, queued conf m = true
    · right
      obtain ⟨a, q, b, hroute, hq, ha⟩ := first_where hq
      obtain ⟨hne, hin⟩ := inputs_of_runs hround hown hroute hq ha (hruns q (by simp [hroute]) hq)
      have htype : (conf q).type = .processor ∨ (conf q).type = .output := by simpa [queued] using hq
      rcases htype with htype | htype
      · exact parts_of_processor hown hroute hne hin hruns hsound htype
      · exact parts_of_output hround hown hroute hne hin hruns htype
    · left
      simpa using hq
  · rintro (hnone | ⟨inputs, processors, outputs, rest, hroute, h⟩) m hm hq
    · simp [hnone m hm] at hq
    have htype : (conf m).type = .processor ∨ (conf m).type = .output := by simpa [queued] using hq
    rw [hroute] at hm
    simp only [mem_append] at hm
    rcases hm with hm | hm | hm | hm
    · simp [h.inputs_type m hm] at htype
    · exact h.runs_processor hround hown hroute hsound hm
    · exact h.runs_output hround hown hroute hm
    · obtain ⟨hnot, hout⟩ := h.rest_type m hm
      exact h.runs_output hround hown hroute (hout (htype.resolve_left hnot))

end Whole

end Nxlog.L4
