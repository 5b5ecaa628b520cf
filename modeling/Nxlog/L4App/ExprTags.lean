import Nxlog.L4App.CoreFuncs
import Nxlog.L4App.ExprSafe

/-!
# The type of a result

Operators set the type of their result at different points. Most do so first; `-`, `*`, `/` and `%`
do it behind the tests of their operands, so the type of an undefined result is what was in the
memory. Of the functions, `host_ip` returns early and `get_var` returns what is in a variable; the
others set the type of their result (`evaluated_type_set_iff`).
-/
namespace Nxlog.L4.Eval
open L1 L2 L3 Res

variable {env : ExprEnv} {v : EVal} {left right : Expr} {ctx : Ctx} {op : BinOp} {l r : Operand}

inductive Callee where
  | hostIp
  | getVar
  | other

/-- What the functions work on: the addresses of the host and the variables of the module. -/
structure Host where
  callee : Nat → Callee
  addresses : Res (List (Octets 4))
  vars : Bytes → Option EVal

/-- `host_ip` and `get_var` are the functions of the program, and the others set the type of what
they return. -/
def ExprEnv.Calls (env : ExprEnv) (host : Host) : Prop :=
  ∀ fn vs ctx,
    match host.callee fn with
    | .hostIp => env.call fn vs ctx = hostIp host.addresses vs >>= fun v => .ok (v, ctx)
    | .getVar => env.call fn vs ctx = getVar host.vars vs >>= fun v => .ok (v, ctx)
    | .other => Post (fun p => p.1.Typed) (env.call fn vs ctx)

/-- An undefined number of an address, or a variable that holds a value whose type was never set. -/
def Host.Untagged (host : Host) (fn : Nat) (vs : List EVal) : Prop :=
  match host.callee fn with
  | .hostIp => vs = [.undef (some .integer)]
  | .getVar => ∃ name v, vs = [.defined (.string name)] ∧ host.vars name.buf = some v ∧ ¬ v.Typed
  | .other => False

/-- A difference, product, quotient or remainder of an undefined operand; a field that holds such a
value; or a call that returns one. -/
def Untagged (env : ExprEnv) (host : Host) : Expr → Ctx → Prop
  | .field name, ctx => ∃ fields, ctx.logdata = some fields ∧ ¬ (getFieldValue fields name).Typed
  | .binop op left right _, ctx =>
    op.arithmetic ∧ UndefOperand (evaluate env left) (evaluate env right) ctx
  | .function fn args _, ctx =>
    ∃ vs ctx', evaluateArgs env args ctx = .ok (vs, ctx') ∧ host.Untagged fn vs
  | _, _ => False

theorem nthAddress_typed (addresses : Res (List (Octets 4))) (nth : Int64) :
    Post EVal.Typed (nthAddress addresses nth) := by
  refine Post.any fun addresses => ?_
  split <;> exact .ok trivial

theorem hostIp_typed (addresses : Res (List (Octets 4))) (vs : List EVal) :
    Post (fun v => v.Typed ↔ vs ≠ [.undef (some .integer)]) (hostIp addresses vs) := by
  rcases vs with _ | ⟨v, _ | ⟨w, vs⟩⟩
  · exact (nthAddress_typed addresses 1).mono fun v hv => iff_of_true hv nofun
  · rcases v with d | t
    · cases d with
      | integer nth =>
        apply Post.ite
        · exact fun _ => .error _
        · exact fun _ => (nthAddress_typed addresses _).mono fun v hv => iff_of_true hv nofun
      | _ => exact Post.any fun _ => Post.any fun _ => .error _
    · rcases t with _ | t
      · exact Post.any fun _ => Post.any fun _ => .error _
      · cases t with
        | integer => exact .ok (iff_of_false id fun h => h rfl)
        | _ => exact Post.any fun _ => Post.any fun _ => .error _
  · exact .error _

theorem getVar_typed (vars : Bytes → Option EVal) (vs : List EVal) :
    Post (fun v => v.Typed ↔
      ¬ ∃ name w, vs = [.defined (.string name)] ∧ vars name.buf = some w ∧ ¬ w.Typed)
      (getVar vars vs) := by
  unfold getVar
  split
  · next name =>
    split
    · next hnone => exact .ok (iff_of_true trivial (by simp [hnone]))
    · next w hw => exact (clone_post (t := .unknown) w).mono fun v hv => hv.1.trans (by simp [hw])
  · exact .error _
  · exact Post.any fun _ => Post.any fun _ => .error _
  · exact .error _

theorem ExprEnv.Calls.typed {host : Host} (h : env.Calls host) (fn : Nat) (vs : List EVal)
    (ctx : Ctx) : Post (fun p => p.1.Typed ↔ ¬ host.Untagged fn vs) (env.call fn vs ctx) := by
  have hcall := h fn vs ctx
  unfold Host.Untagged
  cases hfn : host.callee fn with
  | hostIp =>
    rw [hfn] at hcall
    rw [hcall]
    exact (hostIp_typed host.addresses vs).bind fun v hv => .ok hv
  | getVar =>
    rw [hfn] at hcall
    rw [hcall]
    exact (getVar_typed host.vars vs).bind fun v hv => .ok hv
  | other =>
    rw [hfn] at hcall
    exact hcall.mono fun p hp => iff_of_true hp id

variable {host : Host}

theorem applyBinop_typed : Post (fun p => p.1.Typed ↔ ¬ (op.arithmetic ∧ UndefOperand l r ctx))
    (applyBinop env op left right l r ctx) := by
  rcases op.kinds with hop | rfl | hop
  · have hno : ¬ op.arithmetic := by
      rintro (rfl | rfl | rfl | rfl)
      all_goals cases hop
    exact (applyBinop_boolean hop).mono fun p hp => iff_of_true hp.2 fun h => hno h.1
  · refine Post.any fun _ => Post.any fun _ => (plus_typed _ _).bind fun v hv => .ok (iff_of_true hv ?_)
    simp [BinOp.arithmetic]
  · refine (applyBinop_arithmetic hop).mono fun p hp => ?_
    rcases hp with ⟨hundef, hp⟩ | ⟨a, b, c, c', ha, hb, d, hp, -⟩
    · simp [hp, hop, hundef, EVal.Typed]
    · have hdefined : ¬ UndefOperand l r ctx := by simp [UndefOperand, ha, hb]
      simp [hp, hdefined, EVal.Typed]

theorem fieldValue_typed (name : CStr) :
    Post (fun v => v.Typed ↔ ¬ Untagged env host (.field name) ctx) (fieldValue name ctx) := by
  unfold fieldValue
  split
  · exact .error _
  · next fields hfields =>
    refine (clone_post (t := .unknown) _).mono fun v hv => hv.1.trans ?_
    simp [Untagged, hfields]

/-- A value in an accepted expression is a literal, or `undef`. -/
theorem Accepted.value_typed {t : ValueType} (h : Accepted env (.value v t)) : v.Typed := by
  have hlit : Literal (.value v t) → v.Typed := by
    rintro ⟨d, hd⟩
    cases hd
    trivial
  generalize he : Expr.value v t = e at h
  cases h with
  | string h => exact hlit (he ▸ newString_ok h)
  | regexp h => exact hlit (he ▸ newRegexp_ok h)
  | integer h => exact hlit (he ▸ newInteger_ok h)
  | datetime h => exact hlit (he ▸ newDatetime_ok h)
  | ip4addr h => exact hlit (he ▸ newIp4addr_ok h)
  | undef | boolean => cases he; trivial
  | captured h =>
    obtain ⟨n, rfl⟩ := newCaptured_ok h
    cases he
  | unop ho h =>
    rw [newUnop_ok h] at he
    cases he
  | binop hl hr h =>
    obtain ⟨_, _, rfl⟩ := newBinop_ok h
    cases he
  | field | inop | function => cases he

/-- What `nx_expr_evaluate` returns has a type that was set, unless the expression is a difference,
product, quotient or remainder of an undefined operand, a field or a variable that holds such a
value, or `host_ip` of an undefined number. -/
theorem evaluated_type_set_iff (env : ExprEnv) (host : Host) (hcall : env.Calls host) (e : Expr)
    (he : Accepted env e) (ctx ctx' : Ctx) (v : EVal) (h : evaluate env e ctx = .ok (v, ctx')) :
    v.Typed ↔ ¬ Untagged env host e ctx := by
  suffices hpost : Post (fun p => p.1.Typed ↔ ¬ Untagged env host e ctx) (evaluate env e ctx) from
    hpost _ h
  cases e with
  | value v t =>
    refine (clone_post (t := t) v).bind fun w hw => .ok ?_
    simpa [Untagged, he.value_typed] using hw.1
  | field name =>
    exact (fieldValue_typed name).bind fun w hw => .ok hw
  | captured n =>
    exact (captured_is n).bind fun w hw => .ok (iff_of_true hw.2 id)
  | unop op e =>
    exact Post.any fun p => (applyUnop_post op p.1).bind fun w hw => .ok (iff_of_true hw.1 id)
  | binop op left right t =>
    exact applyBinop_typed
  | inop e es => exact inop_is.mono fun p hp => iff_of_true hp.2 id
  | function fn args t =>
    rw [evaluate]
    cases hargs : evaluateArgs env args ctx with
    | error e => exact .error e
    | ok q =>
      obtain ⟨vs, c⟩ := q
      refine (hcall.typed fn vs c).mono fun p hp => hp.trans (not_congr ?_)
      simp [Untagged, hargs]

/-- The function 0 is `host_ip` and 1 is `get_var`; the variable `x` is 5. -/
def sampleHost : Host :=
  ⟨fun fn => if fn = 0 then .hostIp else .getVar, .ok [],
    fun name => if name = ascii "x" then some (.defined (.integer 5)) else none⟩

def sampleCalls : ExprEnv where
  __ := decimalEnv
  call fn vs ctx := do
    let v ← if fn = 0 then hostIp sampleHost.addresses vs else getVar sampleHost.vars vs
    .ok (v, ctx)

/-- `get_var("x") - 2`. -/
theorem evaluated_type_set_difference :
    let name : Expr := .value (.defined (.string (.exact (ascii "x")))) .string
    let var : Expr := .function 1 (.cons name .nil) .unknown
    let two : Expr := .value (.defined (.integer 2)) .integer
    let e : Expr := .binop .minus var two .unknown
    evaluate sampleCalls e ⟨some [], []⟩ = .ok (.defined (.integer 3), ⟨some [], []⟩) ∧
      (EVal.Typed (.defined (.integer 3)) ↔ ¬ Untagged sampleCalls sampleHost e ⟨some [], []⟩) := by
  intro name var two e
  have hname : Accepted sampleCalls name :=
    .string (show newString (some (cut (ascii "x"))) = .ok name from rfl)
  have hvar : Accepted sampleCalls var := .function 1 (.cons hname .nil)
  have htwo : Accepted sampleCalls two :=
    .integer (show newInteger sampleCalls (cut (ascii "2")) = .ok two from rfl)
  have he : Accepted sampleCalls e := .binop hvar htwo (show newBinop .minus var two = .ok e from rfl)
  have hcall : sampleCalls.Calls sampleHost := by
    intro fn vs ctx
    by_cases h0 : fn = 0 <;> simp [sampleHost, sampleCalls, h0]
  have hvalue : evaluate sampleCalls e ⟨some [], []⟩ = .ok (.defined (.integer 3), ⟨some [], []⟩) := rfl
  exact ⟨hvalue, evaluated_type_set_iff sampleCalls sampleHost hcall e he _ _ _ hvalue⟩

/-- `undef - undef` is undefined, and its type is what was in the memory; so is what `host_ip`
returns for an undefined number. -/
theorem difference_type_not_set :
    (∃ e, newBinop .minus newUndef newUndef = .ok e ∧
      ∀ env ctx, evaluate env e ctx = .ok (.undef none, ctx)) ∧
    ∀ addresses, hostIp addresses [.undef (some .integer)] = .ok (.undef none) :=
  ⟨⟨_, rfl, fun _ _ => rfl⟩, fun _ => rfl⟩

end Nxlog.L4.Eval
