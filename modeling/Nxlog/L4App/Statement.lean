import Nxlog.L4App.ExprEval

/-!
# Statements (`common/expr.c`)

`execute` keeps a record of what is done, also where a statement throws: the expressions that are
evaluated, the procedures that are called and the fields that are set. Procedures other than
`drop()` are a parameter; none of them writes `eval_ctx->dropped`, which is looked at in front of
every statement.

* `drop_final`: what is done by a statement list ends with `drop()` if it was called.
-/
namespace Nxlog.L4.Eval
open L1 L2 L3 Res List

mutual

/-- `nx_expr_statement_t`; `block.statements` that is NULL is `nil`. -/
inductive Stmt where
  | procedure (proc : Nat) (args : Exprs)
  | drop (args : Exprs)
  | ifelse (cond : Expr) (cond_true cond_false : Branch)
  | assignment (lval rval : Expr)
  | block (statements : Stmts)
  | regexpreplace (lval rval : Expr)
  | regexp (lval rval : Expr)

inductive Branch where
  | null
  | stmt (s : Stmt)

inductive Stmts where
  | nil
  | cons (s : Stmt) (ss : Stmts)

end

/-- `nx_expr_eval_ctx_t`. -/
structure EvalCtx where
  ctx : Ctx
  dropped : Bool

inductive Event where
  | evaluates (e : Expr)
  | calls (proc : Nat)
  | drops
  | sets (name : CStr)

structure Outcome where
  trace : List Event
  result : Res EvalCtx

def Outcome.andThen (o : Outcome) (next : EvalCtx → Outcome) : Outcome :=
  match o.result with
  | .ok s => ⟨o.trace ++ (next s).trace, (next s).result⟩
  | .error e => ⟨o.trace, .error e⟩

/-- mirrors common/logdata.c:156-198 (`nx_logdata_set_field_value`). -/
def setFieldValue (fields : List (CStr × EVal)) (key : CStr) (value : EVal) : Res (List (CStr × EVal)) :=
  if fields.any fun f => decide (strcasecmp f.1 key) then
    if key = rawEvent then
      match value with
      | .defined (.string _) => .ok (putFieldValue fields key value)
      | _ => do
        let type ← value.type
        if type ≠ .string then do
          let text ← valueTypeToString type
          Res.throw ("'raw_event' cannot be set to " ++ text ++ " type.")
        else Res.throw "'raw_event' cannot be set to an undefined value."
    else .ok (putFieldValue fields key value)
  else .ok (fields ++ [(key, value)])

section Execute

variable (env : ExprEnv) (proc : Nat → Exprs → Ctx → Res Ctx)

/-- mirrors common/expr.c:68-94 (`nx_expr_statement_assignment_execute`). -/
def assignmentExecute (lval rval : Expr) (s : EvalCtx) : Outcome :=
  match lval.fieldName, s.ctx.logdata with
  | .error e, _ => ⟨[], .error e⟩
  | .ok _, none => ⟨[], Res.throw "missing logdata, assignment possibly after drop()"⟩
  | .ok name, some _ =>
    match evaluate env rval s.ctx with
    | .error e => ⟨[.evaluates rval], .error e⟩
    | .ok (_, ⟨none, _⟩) => ⟨[.evaluates rval], .error (.assert "logdata != NULL")⟩
    | .ok (value, ⟨some fields, captured⟩) => ⟨[.evaluates rval, .sets name], do
      let fields ← setFieldValue fields name value
      .ok ⟨⟨some fields, captured⟩, s.dropped⟩⟩

/-- mirrors common/expr-core-funcproc-cb.c:1047-1058 (`nx_expr_proc__drop`). -/
def dropExecute (s : EvalCtx) : Outcome :=
  match s.ctx.logdata with
  | none => ⟨[], Res.throw "no logdata available to drop(), already dropped?"⟩
  | some _ => ⟨[.drops], .ok ⟨⟨none, s.ctx.captured⟩, true⟩⟩

/-- A call of `_regmatch` for its effects. -/
def regmatchExecute (lval rval : Expr) (s : EvalCtx) : Outcome :=
  ⟨[.evaluates (.binop .regmatch lval rval .boolean)], do
    let r ← applyBinop env .regmatch lval rval (evaluate env lval) (evaluate env rval) s.ctx
    .ok ⟨r.2, s.dropped⟩⟩

/-- The condition of common/expr.c:112-126 holds. -/
def holds : EVal → Bool
  | .undef _ => false
  | .defined (.boolean b) => decide (b ≠ FALSE)
  | .defined (.integer i) => decide (i ≠ 0)
  | .defined _ => true

mutual

/-- mirrors common/expr.c:136-233 (`nx_expr_statement_execute`). -/
def execute (s : EvalCtx) : Stmt → Outcome
  | .procedure p args =>
    if s.dropped then ⟨[], .ok s⟩
    else ⟨[.calls p], do
      let ctx ← proc p args s.ctx
      .ok ⟨ctx, s.dropped⟩⟩
  | .drop _ => if s.dropped then ⟨[], .ok s⟩ else dropExecute s
  | .ifelse cond cond_true cond_false =>
    if s.dropped then ⟨[], .ok s⟩
    else
      match evaluate env cond s.ctx with
      | .error e => ⟨[.evaluates cond], .error e⟩
      | .ok (value, ctx) =>
        .andThen ⟨[.evaluates cond], .ok ⟨ctx, s.dropped⟩⟩ fun s =>
          if holds value then executeBranch s cond_true else executeBranch s cond_false
  | .assignment lval rval => if s.dropped then ⟨[], .ok s⟩ else assignmentExecute env lval rval s
  | .block statements => if s.dropped then ⟨[], .ok s⟩ else executeList s statements
  | .regexpreplace lval rval => if s.dropped then ⟨[], .ok s⟩ else regmatchExecute env lval rval s
  | .regexp lval rval => if s.dropped then ⟨[], .ok s⟩ else regmatchExecute env lval rval s

def executeBranch (s : EvalCtx) : Branch → Outcome
  | .null => ⟨[], .ok s⟩
  | .stmt stmnt => execute s stmnt

/-- mirrors common/expr.c:48-64 (`nx_expr_statement_list_execute`). -/
def executeList (s : EvalCtx) : Stmts → Outcome
  | .nil => ⟨[], .ok s⟩
  | .cons stmnt stmnts => (execute s stmnt).andThen fun s => executeList s stmnts

end

variable {env proc} {s : EvalCtx} {o : Outcome}

def Final (o : Outcome) : Prop :=
  ∀ pre post, o.trace = pre ++ .drops :: post →
    post = [] ∧ ∃ s, o.result = .ok s ∧ s.dropped = true ∧ s.ctx.logdata = none

theorem final_of_not_mem (h : .drops ∉ o.trace) : Final o := by
  intro pre post ht
  simp [ht] at h

/-- A statement that does nothing once the record was dropped. -/
theorem Final.andThen {next : EvalCtx → Outcome} (ho : Final o) (hnext : ∀ s, Final (next s))
    (hidle : ∀ s, s.dropped = true → next s = ⟨[], .ok s⟩) : Final (o.andThen next) := by
  intro pre post h
  unfold Outcome.andThen at h ⊢
  cases hr : o.result with
  | error e =>
    obtain ⟨_, s, hs, _⟩ := ho pre post (by simpa [hr] using h)
    cases hr.symm.trans hs
  | ok s =>
    simp only [hr] at h ⊢
    rcases append_eq_append_iff.mp h with ⟨as, -, hin⟩ | ⟨bs, hpre, hin⟩
    · exact hnext s as post hin
    cases bs with
    | nil => exact hnext s [] post hin.symm
    | cons e bs =>
      -- it was dropped before
      obtain ⟨rfl, hpost⟩ := cons_eq_cons.mp hin
      obtain ⟨rfl, s', hs, hdropped, hnone⟩ := ho pre bs hpre
      cases hr.symm.trans hs
      simp [hidle s hdropped, hpost, hdropped, hnone]

theorem execute_dropped (h : s.dropped = true) (stmnt : Stmt) : execute env proc s stmnt = ⟨[], .ok s⟩ := by
  cases stmnt <;> simp [execute, h]

theorem executeList_dropped (h : s.dropped = true) : ∀ stmnts, executeList env proc s stmnts = ⟨[], .ok s⟩
  | .nil => rfl
  | .cons stmnt stmnts => by
    simp [executeList, execute_dropped h, Outcome.andThen, executeList_dropped h stmnts]

theorem executeBranch_dropped (h : s.dropped = true) (b : Branch) : executeBranch env proc s b =
    ⟨[], .ok s⟩ := by
  cases b <;> simp [executeBranch, execute_dropped h]

theorem assignmentExecute_final (lval rval : Expr) (s : EvalCtx) :
    Final (assignmentExecute env lval rval s) := by
  apply final_of_not_mem
  unfold assignmentExecute
  repeat' split
  all_goals simp

theorem dropExecute_final (s : EvalCtx) : Final (dropExecute s) := by
  unfold dropExecute
  split
  · exact final_of_not_mem (by simp)
  · intro pre post h
    cases pre with
    | nil => simp_all
    | cons e pre => simp at h

mutual

/-- By induction on the statement. -/
theorem execute_final (s : EvalCtx) : ∀ stmnt, Final (execute env proc s stmnt)
  | .procedure p args => by
    rw [execute]
    split <;> exact final_of_not_mem (by simp)
  | .drop args => by
    rw [execute]
    split
    · exact final_of_not_mem (by simp)
    · exact dropExecute_final s
  | .ifelse cond cond_true cond_false => by
    rw [execute]
    split
    · exact final_of_not_mem (by simp)
    split
    · exact final_of_not_mem (by simp)
    · refine Final.andThen (final_of_not_mem (by simp)) (fun s => ?_) fun s h => ?_
      · split
        · exact executeBranch_final s cond_true
        · exact executeBranch_final s cond_false
      · split <;> exact executeBranch_dropped h _
  | .assignment lval rval => by
    rw [execute]
    split
    · exact final_of_not_mem (by simp)
    · exact assignmentExecute_final lval rval s
  | .block statements => by
    rw [execute]
    split
    · exact final_of_not_mem (by simp)
    · exact executeList_final s statements
  | .regexpreplace lval rval | .regexp lval rval => by
    rw [execute]
    split <;> exact final_of_not_mem (by simp [regmatchExecute])

theorem executeBranch_final (s : EvalCtx) : ∀ b, Final (executeBranch env proc s b)
  | .null => final_of_not_mem (by simp [executeBranch])
  | .stmt stmnt => by
    rw [executeBranch]
    exact execute_final s stmnt

theorem executeList_final (s : EvalCtx) : ∀ stmnts, Final (executeList env proc s stmnts)
  | .nil => final_of_not_mem (by simp [executeList])
  | .cons stmnt stmnts => by
    rw [executeList]
    exact (execute_final s stmnt).andThen (fun s => executeList_final s stmnts) fun s h =>
      executeList_dropped h stmnts

end

end Execute

/-- Once a `drop()` in a statement list was executed, at whatever depth, nothing else is evaluated,
called or set, and the list returns. -/
theorem drop_final (env : ExprEnv) (proc : Nat → Exprs → Ctx → Res Ctx) (stmnts : Stmts)
    (s : EvalCtx) (pre post : List Event)
    (h : (executeList env proc s stmnts).trace = pre ++ .drops :: post) : post = [] ∧ ∃ s',
    (executeList env proc s stmnts).result = .ok s' ∧ s'.dropped = true ∧ s'.ctx.logdata = none :=
  executeList_final s stmnts pre post h

/-- `{ drop(); } $a = undef;`. -/
theorem drop_final_block :
    ([] : List Event) = [] ∧ ∃ s', (executeList decimalEnv (fun _ _ ctx => .ok ctx) ⟨⟨some [], []⟩, false⟩
        (.cons (.block (.cons (.drop .nil) .nil))
          (.cons (.assignment (.field (cut (ascii "a"))) newUndef) .nil))).result =
      .ok s' ∧ s'.dropped = true ∧ s'.ctx.logdata = none :=
  drop_final _ _ _ _ [] [] rfl

end Nxlog.L4.Eval
