import Nxlog.L3Protocol.Strings

/-!
# Resolving calls (`common/expr.c`)

A call of a function or a procedure is resolved when the configuration is parsed: the
first registered declaration of that name that the caller can see and whose argument types
agree with those of the given arguments is taken. Functions and procedures are in two
lists and resolved by the same code, twice.

The loop that compares the types (`nx_expr_list_elem_match`) runs over the given
arguments, and ends when they do. It does not see that a declaration has more.

* `resolve`, with `newFunction` and `newProcedure`: the source.
* `listElemMatch_fits`: what the comparison leaves open is whether enough arguments are given.
* `resolve_eq`: the declaration taken is the first that matches in the order `searched`.
* `call_matches_iff`: when a call can only get a declaration that fits.
-/
namespace Nxlog.L4.Expr
open L1 L3 Res List

inductive ArgType where
  | value (t : ValueType)
  | varargs
  deriving DecidableEq, Repr

/-- `nx_expr_funcproc_type_t`. -/
inductive FuncprocType where
  | global | private_ | public_
  deriving DecidableEq, Repr

/-- `nx_expr_func_t` and `nx_expr_proc_t`, as they are registered: only the global ones are
of no module. A procedure has no `rettype`. -/
structure Decl where
  module : Option Nat
  name : Bytes
  type : FuncprocType
  rettype : Option ValueType
  arg_types : List ArgType
  owned : type ≠ .global → module.isSome
  deriving DecidableEq

/-- The loop of common/expr.c:2502-2546; the declared types start with that of the next argument. -/
def elemMatch : List ValueType → List ArgType → Bool
  | [], _ => true
  | _ :: _, [] => false
  | _ :: _, [.varargs] => true
  | arg :: args, t :: ts =>
    if arg ≠ .unknown ∧ t ≠ .value arg ∧ t ≠ .value .unknown then false else elemMatch args ts

variable (modules : List Bytes) (namespc : Option Nat) (decls : List Decl) (caller : Option Nat)
  (fname : Bytes) (args : List ValueType)

/-- mirrors common/expr.c:2502-2546 (`nx_expr_list_elem_match`), for the static types of the
arguments. -/
def listElemMatch (arg_types : List ArgType) : Bool :=
  if args = [] then decide (arg_types = []) else elemMatch args arg_types

/-! ## The search -/

/-- `strstr(fname, "->")`: what is in front of the arrow and what is behind it. -/
def splitArrow : Bytes → Option (Bytes × Bytes)
  | [] => none
  | c :: p =>
    if c = 45 ∧ p.head? = some 62 then some ([], p.tail)
    else (splitArrow p).map fun s => (c :: s.1, s.2)

def shown (name : Bytes) : String := String.ofList (name.map fun c => Char.ofNat c.toNat)

/-- The module in front of the arrow, if there is one, and the name. A module is its place
in the list; its name is cut to the 255 bytes that fit `modname`. -/
def callee : Res (Option Nat × Bytes) :=
  match splitArrow fname with
  | none => .ok (none, fname)
  | some (modname, name) =>
    match modules.findIdx? (decide <| · = modname.take 255) with
    | none => Res.throw ("module " ++ shown (modname.take 255) ++ " not found")
    | some i => .ok (some i, name)

/-- The private declarations of the caller, which need no namespace. -/
def findPrivate (caller : Option Nat) (name : Bytes) (args : List ValueType) : List Decl → Res (Option Decl)
  | [] => .ok none
  | d :: ds =>
    if d.type = .private_ ∧ caller = d.module ∧ d.name = name ∧ listElemMatch args d.arg_types then
      if d.module = none then .error (.assert "func->module != NULL") else .ok (some d)
    else findPrivate caller name args ds

/-- The `switch` over the type of a declaration: whether it is visible from a namespace. -/
def visible (d : Decl) : Res Bool :=
  match d.type with
  | .global => .ok (namespc = none)
  | .public_ =>
    if d.module = none then .error (.assert "func->module != NULL") else .ok
      (namespc ≠ none ∧ d.module = namespc)
  | .private_ =>
    if d.module = none then .error (.assert "func->module != NULL") else .ok (d.module = namespc)

def findVisible (namespc : Option Nat) (name : Bytes) (args : List ValueType) : List Decl → Res (Option Decl)
  | [] => .ok none
  | d :: ds =>
    if d.name = name ∧ listElemMatch args d.arg_types then do
      let found ← visible namespc d
      if found then .ok (some d) else findVisible namespc name args ds
    else findVisible namespc name args ds

/-- Without a namespace, the private ones come first. -/
def findOwn (name : Bytes) (args : List ValueType) (decls : List Decl) :
    Res (Option Decl) :=
  if namespc = none then findPrivate caller name args decls else .ok none

def resolve (what : String) (modules : List Bytes) (decls : List Decl) (caller : Option Nat)
    (fname : Bytes) (args : List ValueType) : Res Decl := do
  let (namespc, name) ← callee modules fname
  let own ← findOwn namespc caller name args decls
  match own with
  | some d => .ok d
  | none => do
    let d ← findVisible namespc name args decls
    match d with
    | some d => .ok d
    | none => Res.throw (what ++ " '" ++ shown name ++ "()' does not exist or takes different arguments")

/-- mirrors common/expr.c:2550-2694 (`nx_expr_new_function`). -/
def newFunction : List Bytes → List Decl → Option Nat → Bytes → List ValueType → Res Decl := resolve "function"

/-- mirrors common/expr.c:2926-3074 (`nx_expr_statement_new_procedure`). -/
def newProcedure : List Bytes → List Decl → Option Nat → Bytes → List ValueType → Res Decl :=
  resolve "procedure"

/-! ## What a declaration asks for -/

def fixedTypes (ts : List ArgType) : List ArgType := if ts.getLast? = some .varargs then ts.dropLast else ts

def Agrees (a : ValueType) (t : ArgType) : Prop := a = .unknown ∨ t = .value .unknown ∨ t = .value a

/-- The given arguments are what a declaration takes. -/
structure Fits (ts : List ArgType) (args : List ValueType) : Prop where
  arity : if ts.getLast? = some .varargs then (fixedTypes ts).length ≤ args.length else args.length = ts.length
  types : ∀ (i : Nat) a t, args[i]? = some a → (fixedTypes ts)[i]? = some t → Agrees a t

theorem fixedTypes_cons {t t' : ArgType} {ts : List ArgType} : fixedTypes (t :: t' :: ts) =
    t :: fixedTypes (t' :: ts) := by
  unfold fixedTypes
  rw [getLast?_cons_cons]
  split <;> rfl

/-- A match leaves open only whether all fixed arguments are given. -/
theorem elemMatch_spec (ts : List ArgType) (h : elemMatch args ts = true) :
    (∀ (i : Nat) a t, args[i]? = some a → (fixedTypes ts)[i]? = some t → Agrees a t) ∧
      (ts.getLast? ≠ some .varargs → args.length ≤ ts.length) := by
  fun_induction elemMatch args ts with
  | case1 ts => simp
  | case2 => cases h
  | case3 a args => simp [fixedTypes]
  | case4 => cases h
  | case5 a args t ts hv hok ih =>
    obtain ⟨htypes, hlen⟩ := ih h
    have hhead : Agrees a t := by
      by_contra hc
      simp only [Agrees, not_or] at hc
      exact hok ⟨hc.1, hc.2.2, hc.2.1⟩
    cases ts with
    | nil =>
      have hne : t ≠ .varargs := fun hv' => hv hv' rfl
      have hnil : args = [] := by
        have := hlen (by simp)
        simpa using this
      subst hnil
      have hfix : fixedTypes [t] = [t] := by simp [fixedTypes, hne]
      refine ⟨?_, by simp⟩
      intro i b u hb hu
      rw [hfix] at hu
      cases i with
      | zero =>
        cases hb
        cases hu
        exact hhead
      | succ i => simp at hb
    | cons t' ts =>
      refine ⟨?_, ?_⟩
      · intro i b u hb hu
        rw [fixedTypes_cons] at hu
        cases i with
        | zero =>
          cases hb
          cases hu
          exact hhead
        | succ i => exact htypes i b u hb hu
      · intro hl
        rw [getLast?_cons_cons] at hl
        have := hlen hl
        simp only [length_cons] at this ⊢
        omega

theorem listElemMatch_fits {args : List ValueType} {ts : List ArgType}
    (h : listElemMatch args ts = true) : Fits ts args ↔ (fixedTypes ts).length ≤ args.length := by
  unfold listElemMatch at h
  split at h
  · rename_i hnil
    have hts : ts = [] := by simpa using h
    subst hnil hts
    exact ⟨fun _ => by simp [fixedTypes], fun _ => ⟨by simp, by simp⟩⟩
  · obtain ⟨htypes, hlen⟩ := elemMatch_spec args ts h
    constructor
    · intro hf
      have harity := hf.arity
      split at harity
      · exact harity
      · rename_i hv
        simp only [fixedTypes, if_neg hv]
        omega
    · intro hle
      refine ⟨?_, htypes⟩
      split
      · exact hle
      · rename_i hv
        have := hlen hv
        simp only [fixedTypes, if_neg hv] at hle
        omega

/-! ## Which declaration is taken -/

/-- A declaration is visible from a namespace, or without one. -/
def isVisible (d : Decl) : Bool :=
  match d.type with
  | .global => namespc = none
  | _ => namespc ≠ none ∧ d.module = namespc

/-- The declarations of a name that a call may get, in the order in which they are tried. -/
def searched (name : Bytes) (decls : List Decl) : List Decl :=
  (if namespc = none then decls.filter fun d =>
    d.type = .private_ ∧ caller = d.module else []).filter (·.name = name) ++
    (decls.filter (isVisible namespc)).filter (·.name = name)

theorem visible_eq (d : Decl) : visible namespc d = .ok (isVisible namespc d) := by
  have howned := d.owned
  unfold visible isVisible
  cases ht : d.type with
  | global => rfl
  | public_ =>
    rw [ht] at howned
    obtain ⟨m, hm⟩ := Option.isSome_iff_exists.mp (howned (by simp))
    simp [hm]
  | private_ =>
    rw [ht] at howned
    obtain ⟨m, hm⟩ := Option.isSome_iff_exists.mp (howned (by simp))
    cases namespc <;> simp [hm]

section Search

variable (namespc caller : Option Nat) (name : Bytes) (args : List ValueType)

theorem findPrivate_eq : findPrivate caller name args decls =
    .ok (((decls.filter fun d => d.type = .private_ ∧ caller = d.module).filter (·.name = name)).find?
      fun d => listElemMatch args d.arg_types) := by
  induction decls with
  | nil => rfl
  | cons d ds ih =>
    rw [findPrivate]
    by_cases hp : d.type = .private_ ∧ caller = d.module
    · have hm : d.module ≠ none := by
        have := d.owned (by rw [hp.1]; simp)
        intro hnone
        simp [hnone] at this
      rw [filter_cons_of_pos (by simpa using hp)]
      by_cases hn : d.name = name
      · rw [filter_cons_of_pos (by simpa using hn), find?_cons]
        cases hmatch : listElemMatch args d.arg_types with
        | true => rw [if_pos ⟨hp.1, hp.2, hn, rfl⟩, if_neg hm]
        | false => simp [ih]
      · rw [filter_cons_of_neg (by simpa using hn), if_neg (by tauto), ih]
    · rw [filter_cons_of_neg (by simpa using hp), if_neg (by tauto), ih]

theorem findVisible_eq : findVisible namespc name args decls =
    .ok (((decls.filter (isVisible namespc)).filter (·.name = name)).find? fun d =>
      listElemMatch args d.arg_types) := by
  induction decls with
  | nil => rfl
  | cons d ds ih =>
    rw [findVisible, visible_eq, ok_bind]
    cases hv : isVisible namespc d with
    | false =>
      rw [filter_cons_of_neg (by simp [hv]), ← ih]
      simp
    | true =>
      rw [filter_cons_of_pos hv]
      by_cases hn : d.name = name
      · rw [filter_cons_of_pos (by simpa using hn), find?_cons]
        cases hmatch : listElemMatch args d.arg_types <;> simp [hn, ih]
      · rw [filter_cons_of_neg (by simpa using hn), ← ih]
        simp [hn]

/-- The call gets the first declaration that matches. -/
theorem resolve_eq (what : String) (modules : List Bytes) (decls : List Decl) (fname : Bytes) :
    resolve what modules decls caller fname args = callee modules fname >>= fun c =>
      match (searched c.1 caller c.2 decls).find? fun d => listElemMatch args d.arg_types with
      | some d => .ok d
      | none => Res.throw (what ++ " '" ++ shown c.2 ++
        "()' does not exist or takes different arguments") := by
  unfold resolve
  congr 1
  funext c
  obtain ⟨ns, n⟩ := c
  have hown : findOwn ns caller n args decls =
      .ok (((if ns = none then decls.filter fun d => d.type = .private_ ∧ caller = d.module else []).filter
        (·.name = n)).find? fun d => listElemMatch args d.arg_types) := by
    unfold findOwn
    by_cases hns : ns = none
    · rw [if_pos hns, if_pos hns, findPrivate_eq]
    · rw [if_neg hns, if_neg hns]
      rfl
  dsimp only
  rw [hown, ok_bind, searched, find?_append]
  cases find? _ (filter _ (if ns = none then _ else _)) with
  | some d => rfl
  | none =>
    rw [findVisible_eq, ok_bind, Option.none_or]

end Search

/-! ## The result -/

/-- The first declaration in the order of the search whose types agree with the given
arguments, as far as there are any, has no further fixed arguments. -/
def Covered : Prop :=
  ∀ namespc name pre d post, callee modules fname = .ok (namespc, name) →
    searched namespc caller name decls = pre ++ d :: post →
    (∀ e ∈ pre, listElemMatch args e.arg_types = false) →
    listElemMatch args d.arg_types = true → (fixedTypes d.arg_types).length ≤ args.length

theorem resolve_fits_iff (what : String) (modules : List Bytes) (decls : List Decl)
    (caller : Option Nat) (fname : Bytes)
    (args : List ValueType) :
    (∀ d, resolve what modules decls caller fname args = .ok d → Fits d.arg_types args) ↔
      Covered modules decls caller fname args := by
  rw [resolve_eq]
  constructor
  · intro h namespc name pre d post hcallee hsearched hpre hmatch
    have hfind : (searched namespc caller name decls).find? (fun d =>
      listElemMatch args d.arg_types) = some d := by
      rw [hsearched, find?_append, find?_eq_none.mpr (by simpa using hpre), Option.none_or,
        find?_cons, hmatch]
    have hfits := h d (by rw [hcallee, ok_bind]; dsimp only; rw [hfind])
    exact (listElemMatch_fits hmatch).mp hfits
  · intro h d hd
    obtain ⟨⟨namespc, name⟩, hcallee, hres⟩ := bind_eq_ok.mp hd
    split at hres
    · rename_i e hfind
      cases hres
      obtain ⟨hmatch, pre, post, hsearched, hpre⟩ := find?_eq_some_iff_append.mp hfind
      exact (listElemMatch_fits hmatch).mpr
        (h namespc name pre d post hcallee hsearched (by simpa using hpre) hmatch)
    · cases hres

/-- A call of a function or of a procedure can only get a declaration that fits exactly if
enough arguments are given for the first one that is not refused. The count that is then
passed to the callback is the declared one, for a declaration without varargs. -/
theorem call_matches_iff (modules : List Bytes) (funcs procs : List Decl) (caller : Option Nat)
    (fname : Bytes) (args : List ValueType) :
    ((∀ d, newFunction modules funcs caller fname args = .ok d → Fits d.arg_types args) ↔
      Covered modules funcs caller fname args) ∧
    ((∀ d, newProcedure modules procs caller fname args = .ok d → Fits d.arg_types args) ↔
      Covered modules procs caller fname args) :=
  ⟨resolve_fits_iff _ modules funcs caller fname args, resolve_fits_iff _ modules procs caller fname args⟩

/-- The two declarations of `substr` (common/expr-core-funcproc.c:543-564). -/
def substrDecls : List Decl :=
  [⟨none, ascii "substr", .global, some .string, [.value .string, .value .integer], by simp⟩,
   ⟨none, ascii "substr", .global, some .string, [.value .string, .value .integer, .value .integer], by simp⟩]

/-- `substr("x")` is accepted. -/
theorem substr_one_argument : ∃ d, newFunction [] substrDecls none (ascii "substr") [.string] =
    .ok d ∧ d.arg_types = [.value .string, .value .integer] ∧ ¬ Fits d.arg_types [.string] := by
  refine ⟨_, rfl, rfl, ?_⟩
  intro h
  have := h.arity
  simp at this

end Nxlog.L4.Expr
