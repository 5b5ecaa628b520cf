import Nxlog.L4App.ExprEval

/-!
# Static types

The constructors give every expression a type, `rettype`, from the types of its operands;
UNKNOWN is the type of what depends on a field. `Accepted env e` says that `e` was built by
the constructors. The value of an accepted expression has the static type, with one
exception: the constructor of unary operators leaves BOOLEAN for the unary minus as well,
which returns an INTEGER.

* `EVal.Has`: the value has that type, if it is defined. `EVal.Typed`: it has one that was set.
* `plus_has`, `minus_yields`, …: the operators on values against the table of types.
* `applyBinop_has`: binary operators. Where arithmetic takes an operand of a known type,
  that type is not BOOLEAN, so the operand is no unary minus.
* `evaluate_has`: expressions.
-/
namespace Nxlog.L4.Eval
open L1 L2 L3 Res

variable {e left right : Expr} {ctx ctx' : Ctx} {op : BinOp} {a b : Datum} {str : CStr} {symbol : String}

/-! ## Accepted expressions -/

mutual

/-- Built by the constructors, which the actions of the grammar call. -/
inductive Accepted (env : ExprEnv) : Expr → Prop where
  | string {str : Option CStr} {e : Expr} (h : newString str = .ok e) : Accepted env e
  | undef : Accepted env newUndef
  | regexp {str : CStr} {replacement : Option CStr} {modifiers : Bytes} {e : Expr}
      (h : newRegexp env str replacement modifiers = .ok e) : Accepted env e
  | field (name : CStr) : Accepted env (newField name)
  | captured {str : CStr} {e : Expr} (h : newCaptured env str = .ok e) : Accepted env e
  | boolean (b : CBool) : Accepted env (newBoolean b)
  | integer {str : CStr} {e : Expr} (h : newInteger env str = .ok e) : Accepted env e
  | datetime {str : CStr} {e : Expr} (h : newDatetime env str = .ok e) : Accepted env e
  | ip4addr {str : CStr} {e : Expr} (h : newIp4addr env str = .ok e) : Accepted env e
  | unop {op : UnOp} {operand e : Expr} (ho : Accepted env operand)
    (h : newUnop op operand = .ok e) : Accepted env e
  | binop {op : BinOp} {left right e : Expr} (hl : Accepted env left) (hr : Accepted env right)
      (h : newBinop op left right = .ok e) : Accepted env e
  | inop {e : Expr} {es : Exprs} (he : Accepted env e) (hes : AcceptedAll env es) : Accepted env (newInop e es)
  | function (fn : Nat) {args : Exprs} (h : AcceptedAll env args) :
    Accepted env (.function fn args (env.declared fn))

inductive AcceptedAll (env : ExprEnv) : Exprs → Prop where
  | nil : AcceptedAll env .nil
  | cons {e : Expr} {es : Exprs} (he : Accepted env e) (hes : AcceptedAll env es) :
    AcceptedAll env (.cons e es)

end

def ExprEnv.Typed (env : ExprEnv) : Prop :=
  ∀ fn vs ctx d ctx', env.call fn vs ctx = .ok (.defined d, ctx') → env.declared fn ≠ .unknown →
  d.type = env.declared fn

/-- The expression is a unary minus, and its operand is an integer. -/
def NegatesInteger (env : ExprEnv) : Expr → Ctx → Prop
  | .unop .minus e, ctx => ∃ i ctx', evaluate env e ctx = .ok (.defined (.integer i), ctx')
  | _, _ => False

/-! ## Values -/

def EVal.Has (t : ValueType) (v : EVal) : Prop := ∀ d, v = .defined d → d.type = t

def EVal.Typed : EVal → Prop
  | .defined _ => True
  | .undef none => False
  | .undef (some (.other _)) => False
  | .undef (some _) => True

def EVal.Is (t : ValueType) (v : EVal) : Prop := v.Has t ∧ v.Typed

variable {env : ExprEnv} {t tl tr : ValueType} {v : EVal}

@[simp] theorem has_undef (u : Option ValueType) : (EVal.undef u).Has t := by simp [EVal.Has]

@[simp] theorem has_defined (d : Datum) : (EVal.defined d).Has t ↔ d.type = t := by simp [EVal.Has]

theorem is_undef : (EVal.undef (some .boolean)).Is t := ⟨has_undef _, trivial⟩

theorem is_truth (b : Bool) : (truth b).Is .boolean := ⟨by simp [truth, Datum.type], trivial⟩

variable {α : Type}

/-- An operation on types that do not go together does not return. -/
theorem invalid_ne_ok {what symbol : String} {a b : ValueType} {x : α} : invalid what symbol a b ≠ .ok x := by
  intro h
  obtain ⟨_, _, h⟩ := bind_eq_ok.mp h
  obtain ⟨_, _, h⟩ := bind_eq_ok.mp h
  cases h

variable {Q : α → Prop}

theorem post_invalid {what symbol : String} {a b : ValueType} :
    Post Q (invalid what symbol a b) := fun _ h => absurd h invalid_ne_ok

/-- The types of payloads have names. -/
theorem graceful_invalid (what symbol : String) (a b : Datum) :
    Graceful (invalid what symbol a.type b.type : Res α) := by
  cases a <;> cases b <;> simp [invalid, Datum.type, valueTypeToString]

theorem invalid_yields (what symbol : String) (a b : Datum) :
    Yields Q (invalid what symbol a.type b.type) := ⟨graceful_invalid .., post_invalid⟩

theorem clone_post (v : EVal) : Post (fun w => (w.Typed ↔ v.Typed) ∧ (v.Has t → w.Has t)) (clone v) := by
  unfold clone
  split
  · exact Post.any fun s => .ok ⟨Iff.rfl, fun h => by simpa [Datum.type] using h⟩
  · exact .ok ⟨Iff.rfl, id⟩

theorem equality_yields (symbol : String) (same : Bool) (a b : EVal) :
    Yields (EVal.Is .boolean) (equality symbol same a b) := by
  unfold equality
  split
  · exact .ok (is_truth _)
  · exact .ok is_undef
  · exact .ok is_undef
  · split
    · exact invalid_yields ..
    · split
      · exact .ok (is_truth _)
      · exact invalid_yields ..

theorem ordering_yields (symbol : String) (cmp : Int64 → Int64 → Bool) (a b : Datum) :
    Yields (EVal.Is .boolean) (ordering symbol cmp a b) := by
  unfold ordering
  split
  · exact .ok (is_truth _)
  · exact .ok (is_truth _)
  · exact invalid_yields ..

theorem andRight_yields (a : Datum) (v : EVal) : Yields (EVal.Is .boolean) (andRight a v) := by
  unfold andRight
  split
  · exact .ok is_undef
  · split
    · exact .ok (is_truth _)
    · exact invalid_yields ..

theorem orRight_is (v : EVal) : Post (EVal.Is .boolean) (orRight v) := by
  refine Post.self.bind fun t ht => Post.ite (fun _ => post_invalid) fun hb => ?_
  cases v with
  | undef u => exact .ok is_undef
  | defined d =>
    cases ht
    exact .ok ⟨(has_defined d).mpr (not_not.mp hb), trivial⟩

theorem regmatch_is (a b : Datum) (c : Ctx) :
    Post (fun p => p.1.Is .boolean) (regmatch env left right a b c) := by
  have hstring : ∀ s r, Post (fun p => p.1.Is .boolean) (matchString env left right s r c) := by
    intro s r
    unfold matchString
    split
    · exact Post.any fun _ => .ok (is_truth _)
    · exact Post.any fun _ => Post.any fun _ => .ok (is_truth _)
  unfold regmatch
  split
  · exact hstring _ _
  · exact .error _
  · exact hstring _ _
  · exact .error _
  · exact post_invalid

theorem negated_is (h : v.Is .boolean) : (negated v).Is .boolean := by
  unfold negated
  split
  · exact is_truth _
  · exact h

/-! ### Arithmetic -/

/-- Where the table has an entry, the result is a value of that type. -/
def InTable (op : BinOp) (a b : Datum) (v : EVal) : Prop :=
  ∃ d, v = .defined d ∧ ∀ t, op.typed a.type b.type = some t → d.type = t

theorem inTable_defined {d : Datum} (h : ∀ t, op.typed a.type b.type = some t → d.type = t) :
    InTable op a b (.defined d) := ⟨d, rfl, h⟩

theorem sum_yields (a b : Datum) : Yields (InTable .plus a b) (sum a b) := by
  unfold sum
  split
  · exact .ok (inTable_defined fun _ => Option.some.inj)
  · exact .ok (inTable_defined fun _ => Option.some.inj)
  · exact .ok (inTable_defined nofun)
  · exact invalid_yields ..

theorem minus_yields (a b : Datum) : Yields (InTable .minus a b) (minus a b) := by
  unfold minus
  split
  · exact .ok (inTable_defined fun _ => Option.some.inj)
  · exact .ok (inTable_defined fun _ => Option.some.inj)
  · exact .ok (inTable_defined fun _ => Option.some.inj)
  · exact invalid_yields ..

theorem mul_yields (a b : Datum) : Yields (InTable .mul a b) (mul a b) := by
  unfold mul
  split
  · exact .ok (inTable_defined fun _ => Option.some.inj)
  · exact invalid_yields ..

theorem quotient_post {f : Int64 → Int64 → Int64} (hop : op = .div ∨ op = .mod) (a b : Datum) :
    Post (InTable op a b) (quotient symbol f a b) := by
  unfold quotient
  split
  · refine Post.ite (fun _ => .error _) fun _ => .ok (inTable_defined ?_)
    rcases hop with rfl | rfl
    · exact fun _ => Option.some.inj
    · exact fun _ => Option.some.inj
  · exact post_invalid

/-- A BOOLEAN can be added to a string only, and a sum with a string is a string. -/
theorem plus_table (h : BinOp.plus.typed tl tr = some t) : (tl = .boolean → tr = .string) ∧
    (tr = .boolean → tl = .string) ∧ (tl = .string ∨ tr = .string → t = .string) := by
  cases tl <;> cases tr <;> cases h <;> simp

theorem plus_typed (a b : EVal) : Post EVal.Typed (plus env a b) := by
  unfold plus
  split
  · exact Post.any fun _ => .ok trivial
  · exact Post.any fun _ => .ok trivial
  · refine Post.ite (fun _ => Post.any fun _ => Post.any fun _ => ?_) fun _ => ?_
    · exact Post.ite (fun _ => .error _) fun _ => .ok trivial
    · refine (sum_yields ..).2.mono fun v hv => ?_
      obtain ⟨d, rfl, -⟩ := hv
      trivial
  · exact .ok trivial

theorem plus_has {a b : EVal} (ht : BinOp.plus.typed tl tr = some t) (ha : tl ≠ .boolean → a.Has tl)
    (hb : tr ≠ .boolean → b.Has tr) : Post (EVal.Has t) (plus env a b) := by
  obtain ⟨hl, hr, hstring⟩ := plus_table ht
  have hleft : ∀ x, a = .defined x → x.type = tl ∨ tl = .boolean := fun x hx =>
    or_iff_not_imp_right.mpr fun h => ha h x hx
  have hright : ∀ y, b = .defined y → y.type = tr ∨ tr = .boolean := fun y hy =>
    or_iff_not_imp_right.mpr fun h => hb h y hy
  have hx : ∀ x, a = .defined x → x.type = .string → t = .string := fun x hx hs =>
    hstring ((hleft x hx).imp (fun h => h.symm.trans hs) hl)
  have hy : ∀ y, b = .defined y → y.type = .string → t = .string := fun y hy hs =>
    hstring ((hright y hy).elim (fun h => .inr (h.symm.trans hs)) fun h => .inl (hr h))
  unfold plus
  split
  · rw [hx _ rfl rfl]
    exact Post.any fun _ => .ok (by simp [Datum.type])
  · rw [hy _ rfl rfl]
    exact Post.any fun _ => .ok (by simp [Datum.type])
  · next x y =>
    refine Post.ite (fun hs => Post.any fun _ => Post.any fun _ => ?_) fun hs => ?_
    · rw [hs.elim (hx x rfl) (hy y rfl)]
      exact Post.ite (fun _ => .error _) fun _ => .ok (by simp [Datum.type])
    obtain ⟨hsx, hsy⟩ := not_or.mp hs
    refine (sum_yields x y).2.mono fun v hv => ?_
    obtain ⟨d, rfl, hd⟩ := hv
    refine (has_defined d).mpr (hd t ?_)
    -- neither is a BOOLEAN, since the other one is no string
    rcases hleft x rfl with rfl | h
    · rcases hright y rfl with rfl | h
      · exact ht
      · exact absurd (hr h) hsx
    · have hty := (hright y rfl).resolve_right (by simp [hl h])
      exact absurd (hty.trans (hl h)) hsy
  · exact .ok (has_undef _)

/-! ## Operands -/

section Operands

variable {l r : Operand} {ctx : Ctx}

/-- The first operand is undefined, or the second is, which is evaluated behind it. -/
def UndefOperand (l r : Operand) (ctx : Ctx) : Prop :=
  ∃ v c, l ctx = .ok (v, c) ∧ ((∃ u, v = .undef u) ∨ ∃ u c', r c = .ok (.undef u, c'))

def BinOp.arithmetic (op : BinOp) : Prop := op = .minus ∨ op = .mul ∨ op = .div ∨ op = .mod

theorem BinOp.kinds (op : BinOp) : op.untyped = .boolean ∨ op = .plus ∨ op.arithmetic := by
  cases op <;> simp [BinOp.untyped, BinOp.arithmetic]

variable {f : Datum → Datum → Ctx → Res (EVal × Ctx)}

/-- An undefined operand leaves the type that was set before. -/
theorem strict_post {u : Option ValueType} {Q : EVal × Ctx → Prop}
    (hundef : ∀ c, UndefOperand l r ctx → Q (.undef u, c))
    (hf : ∀ a b c c', l ctx = .ok (.defined a, c) → r c = .ok (.defined b, c') →
    Post Q (f a b c')) : Post Q (strict u l r f ctx) := by
  refine Post.self.bind fun ⟨x, c⟩ hx => ?_
  cases x with
  | undef w => exact .ok (hundef c ⟨_, c, hx, .inl ⟨w, rfl⟩⟩)
  | defined a =>
    refine Post.self.bind fun ⟨y, c'⟩ hy => ?_
    cases y with
    | undef w => exact .ok (hundef c' ⟨_, c, hx, .inr ⟨w, c', hy⟩⟩)
    | defined b => exact hf a b c c' hx hy

theorem strict_is
    (hf : ∀ a b c, Post (fun p => p.1.Is .boolean) (f a b c)) :
    Post (fun p => p.1.Is .boolean) (strict (some .boolean) l r f ctx) :=
  strict_post (fun _ _ => is_undef) fun a b _ c' _ _ => hf a b c'

theorem andOp_is : Post (fun p => p.1.Is .boolean) (andOp l r ctx) := by
  refine Post.any fun ⟨x, c⟩ => ?_
  cases x with
  | undef _ => exact .ok is_undef
  | defined a =>
    refine Post.ite (fun _ => .ok (is_truth _)) fun _ => Post.any fun ⟨y, c'⟩ => ?_
    exact (andRight_yields a y).2.bind fun _ hv => .ok hv

theorem orOp_is : Post (fun p => p.1.Is .boolean) (orOp l r ctx) := by
  refine Post.any fun ⟨x, c⟩ => Post.any fun decides => Post.ite (fun _ => .ok (is_truth _)) fun _ => ?_
  exact Post.any fun ⟨y, c'⟩ => (orRight_is y).bind fun _ hv => .ok hv

theorem applyBinop_boolean (hop : op.untyped = .boolean) :
    Post (fun p => p.1.Is .boolean) (applyBinop env op left right l r ctx) := by
  cases op with
  | regmatch => exact strict_is regmatch_is
  | notregmatch => exact (strict_is regmatch_is).bind fun _ hp => .ok (negated_is hp)
  | equal | notequal =>
    exact Post.any fun _ => Post.any fun _ => (equality_yields ..).2.bind fun _ hv => .ok hv
  | less | le | greater | ge => exact strict_is fun a b _ => (ordering_yields ..).2.bind fun _ hv => .ok hv
  | and => exact andOp_is
  | or => exact orOp_is
  | plus | minus | mul | div | mod => cases hop

/-- The type of the result is left open, or it is the one of the table. -/
theorem applyBinop_arithmetic (hop : op.arithmetic) :
    Post (fun p => UndefOperand l r ctx ∧ p.1 = .undef none ∨ ∃ a b c c', l ctx = .ok (.defined a, c) ∧
      r c = .ok (.defined b, c') ∧ InTable op a b p.1) (applyBinop env op left right l r ctx) := by
  have hstrict : ∀ f : Datum → Datum → Res EVal, (∀ a b, Post (InTable op a b) (f a b)) →
      Post (fun p => UndefOperand l r ctx ∧ p.1 = .undef none ∨ ∃ a b c c', l ctx = .ok (.defined a, c) ∧
        r c = .ok (.defined b, c') ∧ InTable op a b p.1) (strict none l r (pureOp f) ctx) := fun f hf =>
    strict_post (fun c h => .inl ⟨h, rfl⟩) fun a b c c' ha hb =>
      (hf a b).bind fun v hv => .ok (.inr ⟨a, b, c, c', ha, hb, hv⟩)
  rcases hop with rfl | rfl | rfl | rfl
  · exact hstrict _ fun a b => (minus_yields a b).2
  · exact hstrict _ fun a b => (mul_yields a b).2
  · exact hstrict _ (quotient_post (.inl rfl))
  · exact hstrict _ (quotient_post (.inr rfl))

/-- The rows of the table for the operators that are no arithmetic. -/
theorem typed_boolean (hop : op.untyped = .boolean) (h : op.typed tl tr = some t) : t = .boolean := by
  unfold BinOp.typed at h
  split at h
  all_goals first
    | (cases h; rfl)
    | (cases h; done)
    | (split at h <;> cases h; rfl)
    | exact absurd hop (by simp [BinOp.untyped])

theorem typed_arithmetic (hop : op.arithmetic) (h : op.typed tl tr = some t) : tl ≠ .boolean ∧
    tr ≠ .boolean := by
  rcases hop with rfl | rfl | rfl | rfl
  all_goals
    constructor
    · rintro rfl
      cases h
    · rintro rfl
      cases tl <;> cases h

/-- The operators that are no arithmetic have the type BOOLEAN. -/
theorem binopType_boolean (hop : op.untyped = .boolean) (h : binopType op tl tr = .ok t) : t = .boolean := by
  unfold binopType at h
  split at h
  · exact (Except.ok.inj h).symm.trans hop
  · split at h
    · next ht =>
      cases h
      exact typed_boolean hop ht
    · exact absurd h invalid_ne_ok

/-- The type of a result that is known is the one of the table. -/
theorem binopType_arithmetic (hop : op.untyped = .unknown) (h : binopType op tl tr = .ok t)
    (ht : t ≠ .unknown) : tl ≠ .unknown ∧ tr ≠ .unknown ∧ op.typed tl tr = some t := by
  unfold binopType at h
  split at h
  · exact absurd ((Except.ok.inj h).symm.trans hop) ht
  next hknown =>
  obtain ⟨hl, hr⟩ := not_or.mp hknown
  split at h
  · next ht' =>
    cases h
    exact ⟨hl, hr, ht'⟩
  · exact absurd h invalid_ne_ok

/-- The operands have their static types, where these are known and not BOOLEAN. -/
theorem applyBinop_has (ht : binopType op tl tr = .ok t) (hne : t ≠ .unknown)
    (hl : tl ≠ .unknown → tl ≠ .boolean → ∀ c, Post (fun p => p.1.Has tl) (l c))
    (hr : tr ≠ .unknown → tr ≠ .boolean → ∀ c, Post (fun p => p.1.Has tr) (r c)) :
    Post (fun p => p.1.Has t) (applyBinop env op left right l r ctx) := by
  rcases op.kinds with hop | rfl | hop
  · rw [binopType_boolean hop ht]
    exact (applyBinop_boolean hop).mono fun p hp => hp.1
  · obtain ⟨hlu, hru, htyped⟩ := binopType_arithmetic rfl ht hne
    refine Post.self.bind fun a ha => Post.self.bind fun b hb => ?_
    exact (plus_has htyped (fun h => hl hlu h _ a ha) fun h => hr hru h _ b hb).bind fun v hv => .ok hv
  · have huntyped : op.untyped = .unknown := by rcases hop with rfl | rfl | rfl | rfl <;> rfl
    obtain ⟨hlu, hru, htyped⟩ := binopType_arithmetic huntyped ht hne
    obtain ⟨hlb, hrb⟩ := typed_arithmetic hop htyped
    refine (applyBinop_arithmetic hop).mono fun p hp => ?_
    rcases hp with ⟨-, hp⟩ | ⟨a, b, c, c', ha, hb, d, hp, hd⟩
    · rw [hp]
      exact has_undef _
    · rw [hp, has_defined]
      refine hd t ?_
      rw [hl hlu hlb _ _ ha a rfl, hr hru hrb _ _ hb b rfl, htyped]

end Operands

/-! ## Expressions -/

theorem captured_is (n : Int) : Post (EVal.Is .string) (captured n ctx) := by
  refine Post.any fun _ => ?_
  split
  · exact .ok ⟨has_undef _, trivial⟩
  · exact Post.any fun _ => .ok ⟨by simp [Datum.type], trivial⟩

theorem inop_is {es : Exprs} : Post (fun p => p.1.Is .boolean) (evaluate env (.inop e es) ctx) := by
  rw [evaluate]
  refine Post.any fun ⟨x, c⟩ => ?_
  cases x with
  | undef u => exact .ok is_undef
  | defined d => exact Post.any fun q => .ok (is_truth _)

/-- The unary operators; the unary minus returns integers. -/
theorem applyUnop_post (op : UnOp) (v : EVal) :
    Post (fun w => w.Typed ∧ (op ≠ .minus ∨ (∀ i, v ≠ .defined (.integer i)) → w.Has .boolean))
    (applyUnop op v) := by
  cases op with
  | minus =>
    refine Post.self.bind fun u hu => Post.ite (fun _ => Post.any fun _ => .error _) fun hint => ?_
    cases v with
    | undef _ => exact .ok ⟨trivial, fun _ => has_undef _⟩
    | defined d =>
      cases hu
      cases d with
      | integer i => exact .ok ⟨trivial, by simp⟩
      | _ => exact absurd (by simp [Datum.type]) hint
  | not =>
    cases v with
    | undef _ => exact .ok ⟨trivial, fun _ => has_undef _⟩
    | defined d =>
      cases d with
      | boolean b => exact .ok ⟨trivial, fun _ => (is_truth _).1⟩
      | _ => exact .error _
  | defined => cases v <;> exact .ok ⟨trivial, fun _ => (is_truth _).1⟩

theorem unop_has {op : UnOp} (hneg : ¬ NegatesInteger env (.unop op e) ctx) :
    Post (fun p => p.1.Has .boolean) (evaluate env (.unop op e) ctx) := by
  rw [evaluate]
  refine Post.self.bind fun p hp => (applyUnop_post op p.1).bind fun w hw => .ok (hw.2 ?_)
  refine or_iff_not_imp_left.mpr fun hop i hi => hneg ?_
  rw [not_not.mp hop]
  exact ⟨i, p.2, hi ▸ hp⟩

theorem newBinop_ok {left right e : Expr} (h : newBinop op left right = .ok e) :
    ∃ t, binopType op left.rettype right.rettype = .ok t ∧ e = .binop op left right t := by
  obtain ⟨t, ht, h⟩ := bind_eq_ok.mp h
  obtain ⟨_, _, h⟩ := bind_eq_ok.mp h
  exact ⟨t, ht, (Except.ok.inj h).symm⟩

theorem newUnop_ok {op : UnOp} {operand e : Expr} (h : newUnop op operand = .ok e) : e = .unop op operand := by
  unfold newUnop at h
  split at h
  · exact (Except.ok.inj h).symm
  · obtain ⟨_, _, h⟩ := bind_eq_ok.mp h
    cases h

/-- Only a unary operation can be a unary minus, and its static type is BOOLEAN. -/
theorem not_negatesInteger (h : e.rettype ≠ .boolean) (ctx : Ctx) : ¬ NegatesInteger env e ctx := by
  cases e with
  | unop op e => exact absurd rfl h
  | _ => exact id

/-- The constructors of literals give them the type of their value. -/
def Literal (e : Expr) : Prop := ∃ d : Datum, e = .value (.defined d) d.type

theorem newString_ok {str : Option CStr} (h : newString str = .ok e) : Literal e := by
  cases str with
  | none => exact ⟨_, (Except.ok.inj h).symm⟩
  | some str =>
    obtain ⟨s, _, h⟩ := bind_eq_ok.mp h
    exact ⟨.string s, (Except.ok.inj h).symm⟩

theorem newRegexp_ok {replacement : Option CStr} {modifiers : Bytes}
    (h : newRegexp env str replacement modifiers = .ok e) : Literal e := by
  obtain ⟨r, _, h⟩ := bind_eq_ok.mp h
  split at h
  · cases h
  · split at h
    · cases h
    · exact ⟨.regexp _, (Except.ok.inj h).symm⟩

theorem newInteger_ok (h : newInteger env str = .ok e) : Literal e := by
  obtain ⟨i, _, h⟩ := bind_eq_ok.mp h
  exact ⟨.integer i, (Except.ok.inj h).symm⟩

theorem newDatetime_ok (h : newDatetime env str = .ok e) : Literal e := by
  unfold newDatetime at h
  split at h
  · cases h
  · exact ⟨.datetime _, (Except.ok.inj h).symm⟩

theorem newIp4addr_ok (h : newIp4addr env str = .ok e) : Literal e := by
  obtain ⟨a, _, h⟩ := bind_eq_ok.mp h
  exact ⟨.ip4addr a, (Except.ok.inj h).symm⟩

theorem newCaptured_ok (h : newCaptured env str = .ok e) : ∃ n, e = .captured n := by
  unfold newCaptured at h
  split at h
  · cases h
  · exact ⟨_, (Except.ok.inj h).symm⟩

theorem Literal.evaluate_has (he : Literal e) : Post (fun p => p.1.Has e.rettype) (evaluate env e ctx) := by
  obtain ⟨d, rfl⟩ := he
  rw [evaluate]
  exact (clone_post _).bind fun w hw => .ok (hw.2 ((has_defined d).mpr rfl))

/-- By induction on how the expression was built. -/
theorem accepted_has (hcall : env.Typed) : ∀ {e : Expr}, Accepted env e → e.rettype ≠ .unknown →
    ∀ {ctx : Ctx}, ¬ NegatesInteger env e ctx → Post (fun p => p.1.Has e.rettype) (evaluate env e ctx)
  | _, .string hs, _, _, _ => (newString_ok hs).evaluate_has
  | _, .undef, hne, _, _ => absurd rfl hne
  | _, .regexp hs, _, _, _ => (newRegexp_ok hs).evaluate_has
  | _, .field _, hne, _, _ => absurd rfl hne
  | _, .captured hs, _, _, _ => by
    obtain ⟨n, rfl⟩ := newCaptured_ok hs
    rw [evaluate]
    exact (captured_is n).bind fun w hw => .ok hw.1
  | _, .boolean b, _, _, _ => Literal.evaluate_has ⟨.boolean b, rfl⟩
  | _, .integer hs, _, _, _ => (newInteger_ok hs).evaluate_has
  | _, .datetime hs, _, _, _ => (newDatetime_ok hs).evaluate_has
  | _, .ip4addr hs, _, _, _ => (newIp4addr_ok hs).evaluate_has
  | _, .unop _ hs, _, _, hneg => by
    obtain rfl := newUnop_ok hs
    exact unop_has hneg
  | _, .binop hl hr hs, hne, _, _ => by
    obtain ⟨t, ht, rfl⟩ := newBinop_ok hs
    rw [evaluate]
    exact applyBinop_has ht hne (fun hlu hlb c => accepted_has hcall hl hlu (not_negatesInteger hlb c))
      fun hru hrb c => accepted_has hcall hr hru (not_negatesInteger hrb c)
  | _, .inop _ _, _, _, _ => inop_is.mono fun _ hp => hp.1
  | _, .function fn _, hne, _, _ => by
    rw [evaluate]
    exact Post.any fun q p hp d hd => hcall fn q.1 q.2 d p.2 (hd ▸ hp) hne

/-- The value of an accepted expression has the static type, exactly if the expression is not the
unary minus of an integer. -/
theorem static_typing_iff (env : ExprEnv) (hcall : env.Typed) (e : Expr) (he : Accepted env e)
    (ctx : Ctx) : (e.rettype ≠ .unknown → ∀ d ctx', evaluate env e ctx = .ok (.defined d, ctx') →
      d.type = e.rettype) ↔ ¬ NegatesInteger env e ctx := by
  constructor
  · intro h hneg
    cases e with
    | unop op e =>
      cases op with
      | minus =>
        -- the integer is returned as it is
        obtain ⟨i, ctx', hi⟩ := hneg
        have hval : evaluate env (.unop .minus e) ctx = .ok (.defined (.integer i), ctx') := by
          rw [evaluate, hi]
          rfl
        exact absurd (h (by simp [Expr.rettype]) _ _ hval) (by simp [Datum.type, Expr.rettype])
      | _ => exact hneg
    | _ => exact hneg
  · intro hneg hne d ctx' h
    exact (has_defined d).mp (accepted_has hcall he hne hneg _ h)

/-- `1 + 2`. -/
theorem sum_typed :
    let literal (i : Int64) : Expr := .value (.defined (.integer i)) .integer
    let three : Expr := .binop .plus (literal 1) (literal 2) .integer
    three.rettype ≠ .unknown → ∀ d ctx', evaluate decimalEnv three ⟨none, []⟩ =
      .ok (.defined d, ctx') → d.type = three.rettype := by
  intro literal three
  have hone : Accepted decimalEnv (literal 1) :=
    .integer (show newInteger decimalEnv (cut (ascii "1")) = .ok _ from rfl)
  have htwo : Accepted decimalEnv (literal 2) :=
    .integer (show newInteger decimalEnv (cut (ascii "2")) = .ok _ from rfl)
  have hthree : Accepted decimalEnv three :=
    .binop hone htwo (show newBinop .plus (literal 1) (literal 2) = .ok three from rfl)
  exact (static_typing_iff decimalEnv (fun _ _ _ _ _ h => by cases h) three hthree ⟨none, []⟩).mpr id

/-- `-$a` has the static type BOOLEAN, and is 1 if `$a` is 1. -/
theorem negation_untyped :
    ∃ e, newUnop .minus (newField (cut (ascii "a"))) = .ok e ∧ e.rettype = .boolean ∧
      ∀ env, evaluate env e ⟨some [(cut (ascii "a"), .defined (.integer 1))], []⟩ =
        .ok (.defined (.integer 1), ⟨some [(cut (ascii "a"), .defined (.integer 1))], []⟩) :=
  ⟨_, rfl, rfl, fun _ => rfl⟩

end Nxlog.L4.Eval
