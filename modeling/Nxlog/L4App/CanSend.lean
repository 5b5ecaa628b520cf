import Mathlib.Algebra.Order.Ring.Rat
import Mathlib.Tactic.NormNum
import Mathlib.Tactic.Tauto
import Nxlog.L4App.Routing

/-!
# Flow control (`common/module.c`)

`nx_module_can_send` tells whether a module may go on: an output looks at its own queue, a
processor at the queues of the module or modules behind it, an input at queues of all its routes.
An input gives a record to the first processor of a route and to nothing behind it. The loop
that asks for the room means to stop there as well, but goes on with `continue`.

The multiplier is a double, so the threshold is the product after rounding; `round` is any
function, and a product that overflows is any number above the size of a queue.

* `canSend`: the function, for all types of modules.
* `pushedTo`: the queues that `nx_module_add_logdata_input` puts a record into, see
  `addToRoutes_eq`.
* `canSend_input`: what an input looks at.
* `can_send_iff`: the two agree exactly if nothing behind a processor is full on its own.
-/
namespace Nxlog.L4
open L1 L2

def HasRoom (round : ℚ → ℚ) (multiplier : ℚ) (queue : Logqueue) : Prop :=
  (queue.size : ℚ) < round (queue.limit * multiplier)

instance (round : ℚ → ℚ) (multiplier : ℚ) (queue : Logqueue) : Decidable (HasRoom round multiplier queue) := by
  unfold HasRoom; infer_instance

section Loops

variable (round : ℚ → ℚ) (multiplier : ℚ) (conf : Conf) (w : World)

/-- `nx_logqueue_size(curr->queue) >= curr->queue->limit * multiplier` -/
def full (curr : Nat) : Bool :=
  decide (round ((w.queues curr).limit * multiplier) ≤ (w.queues curr).size)

/-- The loop that finds the module behind `self`: `curr`, and the modules from `i` on. -/
def findNext (self : Nat) : Option Nat → List Nat → Option Nat × List Nat
  | curr, [] => (curr, [])
  | curr, m :: rest => if curr = some self then (some m, m :: rest) else findNext self (some m) rest

def outputsRoom : List Nat → Res Bool
  | [] => .ok true
  | curr :: rest => do
    Res.assert ((conf curr).type = .output) "curr->type == NX_MODULE_TYPE_OUTPUT"
    if full round multiplier w curr then return false else outputsRoom rest

/-- The loop over the modules of one route of an input. -/
def routeRoom : List Nat → Bool
  | [] => true
  | curr :: rest =>
    match (conf curr).type with
    | .output => if full round multiplier w curr then false else routeRoom rest
    | .processor => if full round multiplier w curr then false else routeRoom rest
    | _ => routeRoom rest

def routesRoom : List (List Nat) → Bool
  | [] => true
  | route :: routes => if routeRoom round multiplier conf w route then routesRoom routes else false

/-- mirrors common/module.c:354-434 (`nx_module_can_send`). -/
def canSend (self : Nat) : Res Bool := do
  Res.assert (0 < multiplier) "multiplier > 0"
  match (conf self).type with
  | .output => return !full round multiplier w self
  | .processor =>
    match (conf self).routes with
    | [] => Res.fault
    | route :: _ =>
      match findNext self none route with
      | (none, _) => Res.fault
      | (some curr, rest) =>
        if (conf curr).type = .processor then return !full round multiplier w curr
        else outputsRoom round multiplier conf w rest
  | .input => return routesRoom round multiplier conf w (conf self).routes
  | .extension => .error (.assert "invalid type: 4")

end Loops

section Input

variable {round : ℚ → ℚ} {multiplier : ℚ} {conf : Conf} {w : World} {self : Nat}

@[simp] theorem full_iff (m : Nat) : full round multiplier w m = true ↔
    ¬ HasRoom round multiplier (w.queues m) := by
  simp [full, HasRoom]

def queued (conf : Conf) (m : Nat) : Bool := (conf m).type = .processor ∨ (conf m).type = .output

/-- The modules with a queue behind the first processor of a route. -/
def behindProcessor (conf : Conf) : List Nat → List Nat
  | [] => []
  | m :: rest => if (conf m).type = .processor then rest.filter (queued conf) else behindProcessor conf rest

/-- The modules that `nx_module_add_logdata_input` pushes to. -/
def pushedTo (conf : Conf) (self : Nat) : List Nat := (conf self).routes.flatMap (visits conf)

/-- The modules behind the processors that it pushes to. -/
def notPushedTo (conf : Conf) (self : Nat) : List Nat := (conf self).routes.flatMap (behindProcessor conf)

theorem routeRoom_eq (route : List Nat) :
    routeRoom round multiplier conf w route = true ↔
      ∀ m ∈ route.filter (queued conf), HasRoom round multiplier (w.queues m) := by
  induction route with
  | nil => simp [routeRoom]
  | cons m route ih => cases htype : (conf m).type <;> simp [routeRoom, htype, queued, ih]

/-- The walk of the input sees what gets a record and what is behind it. -/
theorem filter_queued (route : List Nat) :
    route.filter (queued conf) = visits conf route ++ behindProcessor conf route := by
  induction route with
  | nil => rfl
  | cons m route ih => cases htype : (conf m).type <;> simp [visits, behindProcessor, htype, queued, ih]

theorem routesRoom_eq (routes : List (List Nat)) :
    routesRoom round multiplier conf w routes = true ↔
      ∀ m ∈ routes.flatMap (visits conf) ++ routes.flatMap (behindProcessor conf),
        HasRoom round multiplier (w.queues m) := by
  induction routes with
  | nil => simp [routesRoom]
  | cons route routes ih =>
    have hroute : routeRoom round multiplier conf w route = true ↔ _ := routeRoom_eq route
    rw [filter_queued] at hroute
    simp only [List.mem_append, or_imp, forall_and] at hroute ih
    simp only [routesRoom, List.flatMap_cons, List.mem_append, or_imp, forall_and]
    split
    · next h =>
      tauto
    · next h =>
      rw [hroute] at h
      simp only [Bool.false_eq_true, false_iff]
      tauto

/-- An input has to find room also in the queues that it does not push to. -/
theorem canSend_input (htype : (conf self).type = .input) (hpos : 0 < multiplier) :
    canSend round multiplier conf w self = .ok (decide (∀ m ∈ pushedTo conf self ++ notPushedTo conf self,
      HasRoom round multiplier (w.queues m))) := by
  simp only [canSend, hpos, decide_true, Res.assert_true, Res.ok_bind, htype]
  refine congrArg Except.ok ?_
  rw [Bool.eq_iff_iff, routesRoom_eq, decide_eq_true_iff]
  rfl

end Input

/-- For an input, `nx_module_can_send` tells whether all queues that get a record have room, exactly
if the multiplier is positive, as the `ASSERT` says, and one of those queues is full or none that is
behind a processor. -/
theorem can_send_iff (round : ℚ → ℚ) (multiplier : ℚ) (conf : Conf) (w : World) (self : Nat)
    (htype : (conf self).type = .input) :
    canSend round multiplier conf w self =
        .ok (decide (∀ m ∈ pushedTo conf self, HasRoom round multiplier (w.queues m))) ↔
      0 < multiplier ∧ ((∃ m ∈ pushedTo conf self, ¬ HasRoom round multiplier (w.queues m)) ∨
        ∀ m ∈ notPushedTo conf self, HasRoom round multiplier (w.queues m)) := by
  by_cases hpos : 0 < multiplier
  · rw [canSend_input htype hpos]
    simp only [Except.ok.injEq, decide_eq_decide, List.mem_append, or_imp, forall_and, hpos, true_and]
    constructor
    · intro h
      by_cases hroom : ∀ m ∈ pushedTo conf self, HasRoom round multiplier (w.queues m)
      · exact .inr (h.mpr hroom).2
      · exact .inl (by simpa using hroom)
    · rintro (⟨m, hm, hfull⟩ | hroom)
      · exact ⟨fun h => h.1, fun h => absurd (h m hm) hfull⟩
      · exact ⟨fun h => h.1, fun h => ⟨h, hroom⟩⟩
  · simp [canSend, hpos, Res.assert_false, Res.error_bind]

def oneProcessor : Conf := fun m =>
  ⟨lit "i", lit "im",
    if m = 0 then .input else if m = 1 then .processor else .output, .running, true,
    if m ≤ 2 then [[0, 1, 2]] else [], none⟩

def nearlyFull : World :=
  { idleWorld with queues := fun _ => ⟨List.replicate 99 logdataNew, 99, 100, "q", "d", false⟩ }

/-- There is room for one record. -/
theorem can_send_near_limit :
    (oneProcessor 0).type = .input ∧
    canSend id 1 oneProcessor nearlyFull 0 =
      .ok (decide (∀ m ∈ pushedTo oneProcessor 0, HasRoom id 1 (nearlyFull.queues m))) := by
  refine ⟨rfl, (can_send_iff id 1 oneProcessor nearlyFull 0 rfl).mpr ⟨by simp, .inr ?_⟩⟩
  intro m _
  norm_num [HasRoom, nearlyFull]

def fullOutput : World :=
  idleWorld.setQueue 2 ⟨List.replicate 100 logdataNew, 100, 100, "q", "d", false⟩

/-- The input would only push to the processor, and is told that it cannot send. -/
theorem can_send_too_strict :
    pushedTo oneProcessor 0 = [1] ∧ HasRoom id 1 (fullOutput.queues 1) ∧
      canSend id 1 oneProcessor fullOutput 0 = .ok false := by
  refine ⟨rfl, ?_, ?_⟩
  · norm_num [HasRoom, fullOutput, idleWorld, World.setQueue]
  · norm_num [canSend, oneProcessor, routesRoom, routeRoom, full, fullOutput, idleWorld,
      World.setQueue, Res.assert_true, Res.pure_eq]

end Nxlog.L4
