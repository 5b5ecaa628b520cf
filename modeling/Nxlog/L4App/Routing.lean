import Mathlib.Logic.Function.Basic
import Nxlog.L2Machine.Clone
import Nxlog.L2Machine.Logqueue

/-!
# Routing from inputs (`common/module.c`)

`nx_module_add_logdata_input` completes a received record with the fields that
name its source, lets the module's `Exec` work on it and gives it to the modules
behind the input: in every route the first processor, or all outputs if there is
none. It walks the routes twice. The first walk counts the targets; the second
gives each of them a copy, and the last one the record itself.

A record that has been handed over or freed is gone from `Round.logdata`, so that
any later use is a fault. `Shares.offer` says what one target is to get.

* `visits_eq_routeTargets`: on routes in order, both walks visit the targets.
* `giveEach_spec`: the second walk.
* `routing_conservation`: every target gets its share exactly if there is only
  one, or `raw_event` is the string of a field of the record: otherwise making
  the first copy panics.
-/
namespace Nxlog.L4
open L1 L2 Res List

/-! ## Modules -/

/-- `nx_module_type_t`. -/
inductive ModuleType where
  | input
  | processor
  | output
  | extension
  deriving DecidableEq

/-- `nx_module_status_t`. -/
inductive ModuleStatus where
  | uninitialized
  | stopped
  | paused
  | running
  deriving DecidableEq

/-- What a call reads of a module and does not change. A route is the list of its
modules by number. `exec` is the effect of the `Exec` statements on a record, an
exception caught, and whether the record is kept; whatever else they do has
happened to the `World` before the record is routed. -/
structure Module where
  name : CStr
  dsoname : CStr
  type : ModuleType
  status : ModuleStatus
  flowcontrol : Bool
  routes : List (List Nat)
  exec : Option (Logdata → Logdata × Bool)

abbrev Conf := Nat → Module

inductive Event where
  | dataAvailable (m : Nat)
  | pause (m : Nat)
  deriving DecidableEq

/-- The queues and counters of the modules, the records freed and the events sent. -/
structure World where
  queues : Nat → Logqueue
  freed : List Logdata
  events : List Event
  evt_recvd : Nat → UInt64
  evt_fwd : Nat → UInt64

variable (conf : Conf) (self : Nat) (w : World)

def World.setQueue (m : Nat) (queue : Logqueue) : World :=
  { w with queues := Function.update w.queues m queue }

variable (ld : Logdata)

def World.free : World := { w with freed := w.freed ++ [ld] }

def World.countRecvd (m : Nat) : World :=
  { w with evt_recvd := Function.update w.evt_recvd m (w.evt_recvd m + 1) }

def World.countFwd (m : Nat) : World :=
  { w with evt_fwd := Function.update w.evt_fwd m (w.evt_fwd m + 1) }

def World.post (events : List Event) : World := { w with events := w.events ++ events }

/-! ## The record -/

def eventReceivedTime : CStr := lit "EventReceivedTime"

def sourceModuleName : CStr := lit "SourceModuleName"

def sourceModuleType : CStr := lit "SourceModuleType"

/-- `nx_value_new_string`. -/
def newString (addr : Nat) (str : CStr) : Res NxValue := do
  let s ← stringCreate addr (str.1 ++ [0]) (-1)
  return ⟨TRUE, .string (some s)⟩

def setMissing (key : CStr) (value : Res NxValue) (ld : Logdata) : Res Logdata :=
  match getField ld key with
  | some _ => .ok ld
  | none => do
    let value ← value
    setFieldValue ld key value

/-- common/module.c:499-510: the fields that every received record has. -/
def addSource (m : Module) (now : Int64) (next : Nat) (ld : Logdata) : Res Logdata := do
  let ld ← setMissing eventReceivedTime (.ok ⟨TRUE, .datetime now⟩) ld
  let ld ← setMissing sourceModuleName (newString next m.name) ld
  setMissing sourceModuleType (newString (next + 1) m.dsoname) ld

/-- The record to be routed, and whether it is kept. -/
def received (m : Module) (now : Int64) (next : Nat) (ld : Logdata) : Res (Logdata × Bool) := do
  let ld ← addSource m now next ld
  return match m.exec with
    | none => (ld, true)
    | some exec => exec ld

/-! ## The two walks -/

/-- The loop over the modules of a route that counts the targets. -/
def countRoute (conf : Conf) : List Nat → Int
  | [] => 0
  | curr :: rest =>
    match (conf curr).type with
    | .processor => 1
    | .output => 1 + countRoute conf rest
    | _ => countRoute conf rest

def countRoutes (conf : Conf) : List (List Nat) → Int
  | [] => 0
  | route :: routes => countRoute conf route + countRoutes conf routes

/-- The variables of the second walk; `logdata` until it is handed over or freed. -/
structure Round where
  world : World
  logdata : Option Logdata
  cnt : Int
  sent : Bool
  next : Nat

/-- `tmp = (cnt > 1) ? nx_logdata_clone(logdata) : logdata` -/
def Round.tmp (s : Round) : Res (Logdata × Round) :=
  match s.logdata with
  | none => Res.fault
  | some logdata =>
    if 1 < s.cnt then do
      let copy ← logdataClone s.next logdata
      return (copy, { s with next := s.next + logdata.fields.length })
    else return (logdata, { s with logdata := none })

/-- common/module.c:571-608 and 614-648, which differ in the events they send when
flow control is on. -/
def give (curr : Nat) (signal : World → Int → List Event) (s : Round) : Res Round := do
  let (tmp, s) ← s.tmp
  let queue := s.world.queues curr
  if (conf self).flowcontrol = false then
    if queue.limit ≤ queue.size then do
      logdataFree tmp
      return { s with world := (s.world.free tmp).post [.dataAvailable curr], cnt := s.cnt - 1 }
    else do
      let (queue, _) ← queue.push tmp
      let world := s.world.setQueue curr queue
      return { s with world := world.post [.dataAvailable curr], cnt := s.cnt - 1, sent := true }
  else do
    let (queue, size) ← queue.push tmp
    let world := s.world.setQueue curr queue
    return { s with world := world.post (signal world size), cnt := s.cnt - 1, sent := true }

def pauses (curr : Nat) (w : World) (size : Int) : Prop :=
  (w.queues curr).limit ≤ size ∧ (conf self).status = .running

instance (conf : Conf) (self curr : Nat) (w : World) (size : Int) :
    Decidable (pauses conf self curr w size) := by
  unfold pauses; infer_instance

def giveProcessor (curr : Nat) : Round → Res Round :=
  give conf self curr fun w size =>
    if pauses conf self curr w size then [.pause self] else [.dataAvailable curr]

/-- mirrors common/module.c:354-434 (`nx_module_can_send`) for an output, with the
multiplier 1. -/
def canSendOutput (m : Nat) : Bool := !decide ((w.queues m).limit ≤ (w.queues m).size)

def giveOutput (curr : Nat) : Round → Res Round :=
  give conf self curr fun w size =>
    (if pauses conf self curr w size then [.pause self] else []) ++
      (if canSendOutput w curr then [.dataAvailable curr] else [])

/-- The loop over the modules of a route that gives them the record. -/
def addToRoute (conf : Conf) (self : Nat) : List Nat → Round → Res Round
  | [], s => .ok s
  | curr :: rest, s =>
    match (conf curr).type with
    | .processor => giveProcessor conf self curr s
    | .output => do
      let s ← giveOutput conf self curr s
      addToRoute conf self rest s
    | _ => addToRoute conf self rest s

def addToRoutes (conf : Conf) (self : Nat) : List (List Nat) → Round → Res Round
  | [], s => .ok s
  | route :: routes, s => do
    let s ← addToRoute conf self route s
    addToRoutes conf self routes s

/-- mirrors common/module.c:485-659 (`nx_module_add_logdata_input`): the world
afterwards, and the record if nobody has taken it (a route without targets). -/
def addLogdataInput (now : Int64) (next : Nat) (w : World) (logdata : Logdata) :
    Res (World × Option Logdata) := do
  Res.assert ((conf self).type = .input) "module->type == NX_MODULE_TYPE_INPUT"
  let (logdata, kept) ← received (conf self) now next logdata
  let w := w.countRecvd self
  if kept = false then do
    logdataFree logdata
    return (w.free logdata, none)
  else if countRoutes conf (conf self).routes = 0 then return (w, some logdata)
  else do
    let s ← addToRoutes conf self (conf self).routes
      ⟨w, some logdata, countRoutes conf (conf self).routes, false, next + 2⟩
    return (if s.sent then s.world.countFwd self else s.world, s.logdata)

/-! ## What is to happen -/

def Ordered (route : List Nat) : Prop :=
  ∃ inputs processors outputs, route = inputs ++ (processors ++ outputs) ∧
    (∀ m ∈ inputs, (conf m).type = .input) ∧ (∀ m ∈ processors, (conf m).type = .processor) ∧
    (∀ m ∈ outputs, (conf m).type = .output)

/-- The first processor of a route, or all its outputs. -/
def routeTargets (route : List Nat) : List Nat :=
  match route.find? (fun m => decide ((conf m).type = .processor)) with
  | some m => [m]
  | none => route.filter fun m => decide ((conf m).type = .output)

def targets : List Nat := (conf self).routes.flatMap (routeTargets conf)

/-- Who has what: the queues, the freed records, and whether any queue got one. -/
structure Shares where
  queues : Nat → Logqueue
  freed : List Logdata
  sent : Bool

def Shares.put (s : Shares) (m : Nat) (ld : Logdata) : Shares :=
  let queue := s.queues m
  { s with
    queues := Function.update s.queues m { queue with list := queue.list ++ [ld], size := queue.size + 1 }
    sent := true }

/-- A target gets one record, unless flow control is off and its queue is at its
limit; then the record is freed. -/
def Shares.offer (flowcontrol : Bool) (s : Shares) (share : Nat × Logdata) : Shares :=
  if flowcontrol = false ∧ (s.queues share.1).limit ≤ (s.queues share.1).size then
    { s with freed := s.freed ++ [share.2] }
  else s.put share.1 share.2

/-- `w'` is `w` after every target got its share of `logdata`: a copy, and the
last one `logdata` itself. -/
structure Distribution (conf : Conf) (self : Nat) (w w' : World) (logdata : Logdata)
    (copies : List Logdata) : Prop where
  count : copies.length + 1 = (targets conf self).length
  same : ∀ copy ∈ copies, copy.content = logdata.content
  shares : ∃ sent, (⟨w'.queues, w'.freed, sent⟩ : Shares) =
      ((targets conf self).zip (copies ++ [logdata])).foldl (Shares.offer (conf self).flowcontrol)
        ⟨w.queues, w.freed, false⟩ ∧
    w'.evt_fwd self = w.evt_fwd self + (if sent then 1 else 0)
  each : (conf self).flowcontrol = true → w'.freed = w.freed ∧
    ∀ m, (w'.queues m).list.map Logdata.content = (w.queues m).list.map Logdata.content ++
      List.replicate ((targets conf self).count m) logdata.content

/-- A call returned after it had distributed `logdata`. -/
def Distributed (logdata : Logdata)
    (r : Res (World × Option Logdata)) : Prop :=
  ∃ w' copies, r = .ok (w', none) ∧ Distribution conf self w w' logdata copies

/-! ## Both walks visit the targets -/

/-- The modules at which the walks stop. -/
def visits (conf : Conf) : List Nat → List Nat
  | [] => []
  | curr :: rest =>
    match (conf curr).type with
    | .processor => [curr]
    | .output => curr :: visits conf rest
    | _ => visits conf rest

def giveTo (curr : Nat) : Round → Res Round :=
  match (conf curr).type with
  | .processor => giveProcessor conf self curr
  | _ => giveOutput conf self curr

def giveAll (conf : Conf) (self : Nat) : List Nat → Round → Res Round
  | [], s => .ok s
  | curr :: rest, s => do
    let s ← giveTo conf self curr s
    giveAll conf self rest s

/-- The same walk, with any `step` for one target. -/
def giveEach (step : Nat → Round → Res Round) : List Nat → Round → Res Round
  | [], s => .ok s
  | curr :: rest, s => do
    let s ← step curr s
    giveEach step rest s

section Walks

variable {conf : Conf} {self : Nat}

theorem giveAll_eq (ts : List Nat) (s : Round) :
    giveAll conf self ts s = giveEach (giveTo conf self) ts s := by
  induction ts generalizing s with
  | nil => rfl
  | cons t ts ih => simp only [giveAll, giveEach, ih]

theorem routeTargets_outputs {outputs : List Nat} (ho : ∀ m ∈ outputs, (conf m).type = .output) :
    routeTargets conf outputs = outputs := by
  have hnone : outputs.find? (fun m => decide ((conf m).type = .processor)) = none := by
    rw [find?_eq_none]
    intro m hm
    simp [ho m hm]
  rw [routeTargets, hnone]
  dsimp only
  rw [filter_eq_self]
  intro m hm
  simp [ho m hm]

theorem visits_eq_routeTargets {route : List Nat} (h : Ordered conf route) :
    visits conf route = routeTargets conf route := by
  obtain ⟨inputs, processors, outputs, rfl, hi, hp, ho⟩ := h
  induction inputs with
  | cons m inputs ih =>
    have hm := hi m mem_cons_self
    have hrest := ih (forall_mem_cons.mp hi).2
    have hskip : routeTargets conf (m :: (inputs ++ (processors ++ outputs))) =
        routeTargets conf (inputs ++ (processors ++ outputs)) := by
      simp [routeTargets, hm]
    rw [cons_append, visits, hm, hskip]
    exact hrest
  | nil =>
    rw [nil_append]
    cases processors with
    | cons m processors =>
      have hm := hp m mem_cons_self
      rw [cons_append, visits, hm, routeTargets, find?_cons]
      simp [hm]
    | nil =>
      rw [nil_append]
      rw [routeTargets_outputs ho]
      clear hp hi
      induction outputs with
      | nil => rfl
      | cons m outputs ih =>
        rw [visits, ho m mem_cons_self]
        rw [ih (forall_mem_cons.mp ho).2]

theorem countRoute_eq (route : List Nat) : countRoute conf route = (visits conf route).length := by
  induction route with
  | nil => rfl
  | cons m route ih =>
    rw [countRoute, visits]
    cases (conf m).type with
    | processor => rfl
    | output =>
      dsimp only
      rw [ih, length_cons]
      omega
    | input | extension => exact ih

theorem countRoutes_eq (routes : List (List Nat)) :
    countRoutes conf routes = (routes.flatMap (visits conf)).length := by
  induction routes with
  | nil => rfl
  | cons route routes ih =>
    rw [countRoutes, countRoute_eq, ih, flatMap_cons, length_append]
    omega

theorem giveAll_append (a b : List Nat) (s : Round) :
    giveAll conf self (a ++ b) s = giveAll conf self a s >>= giveAll conf self b := by
  induction a generalizing s with
  | nil => rfl
  | cons m a ih =>
    rw [cons_append, giveAll, giveAll]
    cases giveTo conf self m s with
    | error e => rfl
    | ok s => exact ih s

theorem addToRoute_eq (route : List Nat) (s : Round) :
    addToRoute conf self route s = giveAll conf self (visits conf route) s := by
  induction route generalizing s with
  | nil => rfl
  | cons m route ih =>
    rw [addToRoute, visits]
    cases hm : (conf m).type with
    | processor =>
      rw [giveAll, giveTo, hm]
      dsimp only
      cases giveProcessor conf self m s with
      | error e => rfl
      | ok s => rfl
    | output =>
      rw [giveAll, giveTo, hm]
      dsimp only
      cases giveOutput conf self m s with
      | error e => rfl
      | ok s => exact ih s
    | input | extension => exact ih s

theorem addToRoutes_eq (routes : List (List Nat)) (s : Round) :
    addToRoutes conf self routes s = giveAll conf self (routes.flatMap (visits conf)) s := by
  induction routes generalizing s with
  | nil => rfl
  | cons route routes ih =>
    rw [addToRoutes, addToRoute_eq, flatMap_cons, giveAll_append]
    cases giveAll conf self (visits conf route) s with
    | error e => rfl
    | ok s => exact ih s

theorem visits_eq_targets (h : ∀ route ∈ (conf self).routes, Ordered conf route) :
    (conf self).routes.flatMap (visits conf) = targets conf self := by
  have hmap : (conf self).routes.map (visits conf) = (conf self).routes.map (routeTargets conf) := by
    apply map_congr_left
    intro route hr
    exact visits_eq_routeTargets (h route hr)
  rw [targets, flatMap_def, flatMap_def, hmap]

end Walks

/-! ## The second walk -/

def Round.shares (s : Round) : Shares := ⟨s.world.queues, s.world.freed, s.sent⟩

def Shares.Wf (s : Shares) : Prop := ∀ m, 0 ≤ (s.queues m).size

theorem Shares.put_queues_self (s : Shares) (m : Nat) (ld : Logdata) :
    (s.put m ld).queues m = { s.queues m with
      list := (s.queues m).list ++ [ld], size := (s.queues m).size + 1 } := Function.update_self ..

theorem Shares.put_queues_of_ne {s : Shares} {m n : Nat} {ld : Logdata} (h : n ≠ m) :
    (s.put m ld).queues n = s.queues n := Function.update_of_ne h ..

theorem Shares.Wf.offer {s : Shares} (h : s.Wf) (flowcontrol : Bool) (share : Nat × Logdata) :
    (s.offer flowcontrol share).Wf := by
  unfold Shares.offer
  split
  · exact h
  intro m
  have hm := h share.1
  by_cases heq : m = share.1
  · rw [heq, Shares.put_queues_self]
    show 0 ≤ (s.queues share.1).size + 1
    omega
  · rw [Shares.put_queues_of_ne heq]
    exact h m

/-- Every target has got its share of `ld`: a copy, and the last one `ld` itself. -/
structure Gave (flowcontrol : Bool) (ts : List Nat) (ld : Logdata) (copies : List Logdata)
    (s s' : Shares) : Prop where
  count : copies.length + 1 = ts.length
  same : ∀ copy ∈ copies, copy.content = ld.content
  shares : s' = (ts.zip (copies ++ [ld])).foldl (Shares.offer flowcontrol) s

/-- The walk has given each of `ts` its share, and keeps nothing. -/
def GaveAll (flowcontrol : Bool) (ts : List Nat) (ld : Logdata) (s : Round) (r : Res Round) : Prop :=
  ∃ copies s', r = .ok s' ∧ s'.logdata = none ∧ s'.world.evt_fwd = s.world.evt_fwd ∧
    Gave flowcontrol ts ld copies s.shares s'.shares

section Giving

variable {conf : Conf} {self : Nat}

theorem giveTo_eq (conf : Conf) (self curr : Nat) : ∃ signal,
    giveTo conf self curr = give conf self curr signal := by
  unfold giveTo
  cases (conf curr).type with
  | processor => exact ⟨_, rfl⟩
  | _ => exact ⟨_, rfl⟩

variable {step : Nat → Round → Res Round} (hstep : ∀ curr, ∃ signal, step curr = give conf self curr signal)
include hstep

/-- A target gets its share of what `tmp` returns. -/
theorem give_spec (curr : Nat) {s s1 : Round} {tmp : Logdata} (htmp : s.tmp = .ok (tmp, s1))
    (hshares : s1.shares = s.shares) (hwf : s.shares.Wf) (hsound : ∀ f ∈ tmp.fields,
    Sound f.value) : ∃ s', step curr s = .ok s' ∧ s'.logdata = s1.logdata ∧ s'.cnt = s1.cnt - 1 ∧
      s'.shares = s.shares.offer (conf self).flowcontrol (curr, tmp) ∧
      s'.world.evt_fwd = s1.world.evt_fwd := by
  obtain ⟨signal, hgive⟩ := hstep curr
  have h0 : 0 ≤ (s1.world.queues curr).size := by
    have := hwf curr
    rw [← hshares] at this
    exact this
  have hpush : (s1.world.queues curr).push tmp = .ok ({ s1.world.queues curr with
      list := (s1.world.queues curr).list ++ [tmp], size := (s1.world.queues curr).size + 1 },
      (s1.world.queues curr).size + 1) := by
    simp [Logqueue.push, h0]
  rw [hgive, give, htmp, ok_bind, ← hshares]
  dsimp only
  by_cases hfc : (conf self).flowcontrol = false
  · rw [if_pos hfc]
    by_cases hfull : (s1.world.queues curr).limit ≤ (s1.world.queues curr).size
    · rw [if_pos hfull, logdataFree_ok hsound, ok_bind]
      refine ⟨_, rfl, rfl, rfl, ?_, rfl⟩
      exact (if_pos ⟨hfc, hfull⟩).symm
    · rw [if_neg hfull, hpush, ok_bind]
      refine ⟨_, rfl, rfl, rfl, ?_, rfl⟩
      exact (if_neg fun h => hfull h.2).symm
  · rw [if_neg hfc, hpush, ok_bind]
    refine ⟨_, rfl, rfl, rfl, ?_, rfl⟩
    exact (if_neg fun h => hfc h.1).symm

/-- The walk gives every target its share, copies first and the record last. -/
theorem giveEach_ok {ld : Logdata} (hsound : ∀ f ∈ ld.fields, Sound f.value) :
    ∀ (ts : List Nat) (s : Round), ts ≠ [] → s.cnt = ts.length → s.logdata = some ld → s.shares.Wf →
    (ts.length = 1 ∨ RawEventInField ld) →
    GaveAll (conf self).flowcontrol ts ld s (giveEach step ts s) := by
  intro ts
  induction ts with
  | nil => intro s hne; exact absurd rfl hne
  | cons t ts ih =>
    intro s _ hcnt hld hwf hone
    rw [length_cons] at hcnt hone
    cases ts with
    | nil =>
      -- the last target: the record itself
      have htmp : s.tmp = .ok (ld, { s with logdata := none }) := by
        rw [Round.tmp, hld]
        exact if_neg (by rw [hcnt]; simp)
      obtain ⟨s', hgive, hnone, -, hshares, hfwd⟩ :=
        give_spec hstep t htmp rfl hwf hsound
      refine ⟨[], s', ?_, hnone, hfwd, rfl, by simp, hshares⟩
      rw [giveEach, hgive]
      rfl
    | cons t' ts =>
      rw [length_cons] at hcnt hone
      have hraw : RawEventInField ld := hone.resolve_left (by omega)
      obtain ⟨copy, hclone, hcontent, hcsound⟩ := logdataClone_ok hsound hraw s.next
      have htmp : s.tmp = .ok (copy, { s with next := s.next + ld.fields.length }) := by
        rw [Round.tmp, hld]
        dsimp only
        rw [if_pos (by omega), hclone]
        rfl
      obtain ⟨s1, hgive, hld1, hcnt1, hshares1, hfwd1⟩ :=
        give_spec hstep t htmp rfl hwf hcsound
      have hcnt1' : s1.cnt = (t' :: ts).length := by
        rw [hcnt1, length_cons]
        show s.cnt - 1 = _
        omega
      obtain ⟨copies, s', hall, hnone, hfwd, hlen, hsame, hshares⟩ := ih s1 (by simp) hcnt1'
        (by rw [hld1]; exact hld) (by rw [hshares1]; exact hwf.offer _ _) (.inr hraw)
      refine ⟨copy :: copies, s', ?_, hnone, hfwd.trans hfwd1, ?_, ?_, ?_⟩
      · rw [giveEach, hgive]
        exact hall
      · rw [length_cons, length_cons, hlen]
      · exact forall_mem_cons.mpr ⟨hcontent, hsame⟩
      · rw [hshares, hshares1]
        rfl

/-- Every target gets its share exactly if there is only one or a field holds `raw_event`: otherwise
the first copy panics. -/
theorem giveEach_spec {ld : Logdata} (hsound : ∀ f ∈ ld.fields, Sound f.value) {ts : List Nat}
    {s : Round} (hts : ts ≠ []) (hcnt : s.cnt = ts.length) (hld : s.logdata = some ld)
    (hqueues : ∀ m, (s.world.queues m).Wf) :
    (ts.length = 1 ∨ RawEventInField ld → GaveAll (conf self).flowcontrol ts ld s (giveEach step ts s)) ∧
    ((∃ s', giveEach step ts s = .ok s') → ts.length = 1 ∨ RawEventInField ld) := by
  constructor
  · refine giveEach_ok hstep hsound ts s hts hcnt hld ?_
    intro m
    show 0 ≤ (s.world.queues m).size
    rw [hqueues m]
    omega
  · rintro ⟨s', hok⟩
    by_contra hnot
    obtain ⟨hone, hraw⟩ := not_or.mp hnot
    obtain ⟨t, ts, rfl⟩ := exists_cons_of_ne_nil hts
    obtain ⟨signal, hgive⟩ := hstep t
    have htmp : s.tmp = .error (.assert "new->raw_event != NULL") := by
      rw [length_cons] at hone hcnt
      rw [Round.tmp, hld]
      dsimp only
      rw [if_pos (by omega), logdataClone_panics hsound hraw]
      rfl
    rw [giveEach, hgive, give, htmp] at hok
    cases hok

end Giving

/-- With flow control every target gets its records. -/
theorem foldl_offer_flowcontrol {c : List (CStr × NxValue)} (ts : List Nat) (records : List Logdata)
    (s : Shares) (hlen : ts.length = records.length) (hc : ∀ r ∈ records, r.content = c) :
    ((ts.zip records).foldl (Shares.offer true) s).freed = s.freed ∧ ∀ m,
      (((ts.zip records).foldl (Shares.offer true) s).queues m).list.map Logdata.content =
      (s.queues m).list.map Logdata.content ++ replicate (ts.count m) c := by
  induction ts generalizing records s with
  | nil => simp
  | cons t ts ih =>
    cases records with
    | nil => simp at hlen
    | cons r records =>
      obtain ⟨hfreed, hqueues⟩ := ih records (s.offer true (t, r)) (by simpa using hlen)
        (forall_mem_cons.mp hc).2
      have hoffer : s.offer true (t, r) = s.put t r := by
        rw [Shares.offer, if_neg (by simp)]
      rw [zip_cons_cons, foldl_cons]
      refine ⟨by rw [hfreed, hoffer]; rfl, ?_⟩
      intro m
      rw [hqueues m, hoffer]
      by_cases hm : m = t
      · rw [hm, Shares.put_queues_self, count_cons_self]
        simp [hc r mem_cons_self, replicate_succ]
      · rw [Shares.put_queues_of_ne hm, count_cons_of_ne (Ne.symm hm)]

section Gave

variable {ts : List Nat} {ld : Logdata} {copies : List Logdata} {s s' : Shares}

theorem Gave.each (h : Gave true ts ld copies s s') : s'.freed = s.freed ∧ ∀ m,
    (s'.queues m).list.map Logdata.content =
      (s.queues m).list.map Logdata.content ++ replicate (ts.count m) ld.content := by
  have hrecords : ∀ r ∈ copies ++ [ld], r.content = ld.content :=
    forall_mem_append.mpr ⟨h.same, forall_mem_singleton.mpr rfl⟩
  rw [h.shares]
  exact foldl_offer_flowcontrol ts (copies ++ [ld]) s (by simp [← h.count]) hrecords

/-- Nobody else's queue changes. -/
theorem Gave.other {flowcontrol : Bool} (h : Gave flowcontrol ts ld copies s s') {m : Nat}
    (hm : m ∉ ts) : s'.queues m = s.queues m := by
  have hshares : ∀ share ∈ ts.zip (copies ++ [ld]), m ≠ share.1 := by
    rintro share hshare rfl
    exact hm (of_mem_zip hshare).1
  rw [h.shares]
  generalize ts.zip (copies ++ [ld]) = shares at hshares
  clear h
  induction shares generalizing s with
  | nil => rfl
  | cons share shares ih =>
    rw [foldl_cons, ih (forall_mem_cons.mp hshares).2, Shares.offer]
    split
    · rfl
    · exact Shares.put_queues_of_ne (hshares share mem_cons_self)

end Gave

/-- An input gives a record that `Exec` has not dropped to its targets: each gets
one, or, without flow control, none exactly if its queue is at its limit. This
holds exactly if there is only one target or a field of the record holds
`raw_event`. -/
theorem routing_conservation (conf : Conf) (self : Nat) (now : Int64) (next : Nat) (w : World)
    (ld ld' : Logdata)
    (htype : (conf self).type = .input) (hroutes : ∀ route ∈ (conf self).routes, Ordered conf route)
    (htargets : targets conf self ≠ []) (hqueues : ∀ m, (w.queues m).Wf)
    (hreceived : received (conf self) now next ld = .ok (ld', true))
    (hsound : ∀ f ∈ ld'.fields, Sound f.value) :
    Distributed conf self w ld' (addLogdataInput conf self now next w ld) ↔
      (targets conf self).length = 1 ∨ RawEventInField ld' := by
  have hpos : 0 < (targets conf self).length := length_pos_iff.mpr htargets
  have hvisits := visits_eq_targets hroutes
  have hcount : countRoutes conf (conf self).routes = (targets conf self).length := by
    rw [countRoutes_eq, hvisits]
  have hcall : addLogdataInput conf self now next w ld =
      giveEach (giveTo conf self) (targets conf self)
        ⟨w.countRecvd self, some ld', (targets conf self).length, false, next + 2⟩ >>= fun s =>
          .ok (if s.sent then s.world.countFwd self else s.world, s.logdata) := by
    rw [addLogdataInput, htype]
    simp only [decide_true, assert_true, ok_bind, hreceived, Bool.true_eq_false, if_false]
    rw [hcount, if_neg (by omega), addToRoutes_eq, hvisits, giveAll_eq]
    rfl
  have hspec := giveEach_spec (giveTo_eq conf self) hsound
    (s := ⟨w.countRecvd self, some ld', (targets conf self).length, false, next + 2⟩) htargets rfl rfl hqueues
  constructor
  · rintro ⟨w', copies, hok, -⟩
    obtain ⟨s', hs, -⟩ := bind_eq_ok.mp (hcall ▸ hok)
    exact hspec.2 ⟨s', hs⟩
  · intro hone
    obtain ⟨copies, s', hall, hnone, hfwd, hgave⟩ := hspec.1 hone
    have hkeep : (if s'.sent then s'.world.countFwd self else s'.world).queues = s'.shares.queues ∧
        (if s'.sent then s'.world.countFwd self else s'.world).freed = s'.shares.freed := by
      split
      · exact ⟨rfl, rfl⟩
      · exact ⟨rfl, rfl⟩
    rw [hall, ok_bind, hnone] at hcall
    refine ⟨_, copies, hcall, hgave.count, hgave.same, ⟨s'.sent, ?_, ?_⟩, ?_⟩
    · rw [hkeep.1, hkeep.2]
      exact hgave.shares
    · cases s'.sent with
      | true =>
        show Function.update s'.world.evt_fwd self (s'.world.evt_fwd self + 1) self = _
        rw [Function.update_self, hfwd]
        rfl
      | false =>
        show s'.world.evt_fwd self = _
        rw [hfwd]
        exact (UInt64.add_zero _).symm
    · intro hfc
      rw [hfc] at hgave
      rw [hkeep.1, hkeep.2]
      exact hgave.each

def twoOutputs : Conf := fun m =>
  ⟨lit "i", lit "im", if m = 0 then .input else .output, .running, true,
    if m = 0 then [[0, 1, 2]] else [], none⟩

def idleWorld : World := ⟨fun _ => ⟨[], 0, 100, "q", "d", false⟩, [], [], fun _ => 0, fun _ => 0⟩

def newWithSource : Logdata :=
  ⟨some 0, [⟨rawEvent, ⟨TRUE, .string (some ⟨0, []⟩)⟩⟩, ⟨eventReceivedTime, ⟨TRUE, .datetime 7⟩⟩,
    ⟨sourceModuleName, ⟨TRUE, .string (some ⟨1, ascii "i"⟩)⟩⟩,
    ⟨sourceModuleType, ⟨TRUE, .string (some ⟨2, ascii "im"⟩)⟩⟩], []⟩

/-- A new record goes to both outputs. -/
theorem routing_conservation_two_outputs :
    Distributed twoOutputs 0 idleWorld newWithSource
    (addLogdataInput twoOutputs 0 7 1 idleWorld logdataNew) := by
  refine (routing_conservation twoOutputs 0 7 1 idleWorld logdataNew newWithSource rfl ?_
    (by decide) (fun _ => rfl) rfl ?_).mpr (.inr ⟨_, mem_cons_self, _, rfl, rfl⟩)
  · exact forall_mem_singleton.mpr ⟨[0], [], [1, 2], rfl, by decide, by decide, by decide⟩
  · simp only [newWithSource, forall_mem_cons]
    exact ⟨fun _ => by decide, fun _ => trivial, fun _ => by decide, fun _ => by decide, by simp⟩

/-- A received binary record without fields has a `raw_event` that no field holds,
and routing it to two outputs panics. -/
theorem routing_panics_without_raw_event :
    ∃ ld, logdataFromMembuf [0, 0] 2 = .ok (ld, 2) ∧
      addLogdataInput twoOutputs 0 7 1 idleWorld ld = .error (.assert "new->raw_event != NULL") :=
  ⟨⟨some 0, [], [⟨0, []⟩]⟩, rfl, rfl⟩

end Nxlog.L4
