import Nxlog.L4App.ExprTypes

/-!
# When the evaluation of an expression crashes

The operators check the types of their operands when they are applied, and throw. They do
not check everything that they rely on: a division traps, `=~` asserts the types that the
constructors could not know, a substitution asserts what it takes PCRE to return, and `or`
and the unary minus look at the type of an undefined value that has none.

`Safe env e ctx` says of every operator that the evaluation reaches that its operands are
not of that kind. It is the exact condition, for every tree, the accepted ones among them.

* `Sound`: PCRE and the conversions of dates and addresses, which are not part of this
  code, keep to their documentation.
* `graceful_strict`, `graceful_both`: the two ways in which operators take their operands.
* `graceful_evaluate`: an evaluation returns or throws exactly if it is `Safe`.
-/
namespace Nxlog.L4.Eval
open L1 L2 L3 Res

/-! ## What the operators rely on -/

variable (env : ExprEnv)

/-- `pcre_exec` on compiled code, with its offsets inside of the subject; an unset group has the
offsets -1. The start of a match may be behind its end (`\K`). -/
structure ExprEnv.Sound : Prop where
  exec_error : ∀ r s, env.exec r s ≠ .error true
  exec_groups : ∀ r s ovector, env.exec r s = .matched ovector → ∀ g ∈ ovector,
    g = (-1, -1) ∨ (0 ≤ g.1 ∧ g.1 ≤ s.length ∧ 0 ≤ g.2 ∧ g.2 ≤ s.length)
  exec_whole : ∀ r s g groups, env.exec r s = .matched (g :: groups) → 0 ≤ g.1
  dateToIso : ∀ t, Graceful (env.dateToIso t)
  ip6ToText : ∀ a, Graceful (env.ip6ToText a)

/-- The quotient exists and is an `int64_t`. -/
def Divides : Datum → Datum → Prop
  | .integer a, .integer b => b ≠ 0 ∧ ¬ (a = Int64.minValue ∧ b = -1)
  | _, _ => True

/-- A match has fewer groups than there is room for. -/
def FewGroups (r : Regexp) (subject : Bytes) : Prop :=
  ∀ ovector, env.exec r (cut subject).1 = .matched ovector → ovector.length < maxCaptured

/-- Every match of a substitution starts before it ends, and not all of string, match and
replacement are empty. -/
def Substitutes (env : ExprEnv) (r : Regexp) (replacement : Bytes) : Nat → Str → Prop
  | 0, _ => True
  | n + 1, s => FewGroups env r s.buf ∧ ∀ b m, execMatch env r s.buf = .ok (b, some m) →
    m.start ≤ m.stop ∧ (s.buf ≠ [] ∨ replacement ≠ []) ∧
    ∀ s', replaceIn s replacement m.start m.stop = .ok s' → r.global → Substitutes env r replacement n s'

variable (left right : Expr) (s : Str)

/-- A match of a string. A substitution needs a literal on the right, and a field that still holds a
string. -/
def Matches (r : Regexp) (ctx : Ctx) : Prop :=
  match r.replacement with
  | none => FewGroups env r s.buf
  | some replacement => right.rettype = .regexp ∧ ∃ name, left = .field name ∧
    ∀ fields, ctx.logdata = some fields →
      ∃ s', getFieldValue fields name = .defined (.string s') ∧
        Substitutes env r replacement.1 maxReplacements s'

/-- A string goes with a regular expression only. -/
def RegMatches : Datum → Datum → Ctx → Prop
  | .string s, .regexp r, ctx => Matches env left right s r ctx
  | .string _, _, _ => False
  | .regexp r, .string s, ctx => Matches env left right s r ctx
  | _, .string _, _ => False
  | _, _, _ => True

/-! ## Operands -/

def BothSafe (l r : Operand) (sl sr : Ctx → Prop) (P : EVal → EVal → Prop) (ctx : Ctx) : Prop :=
  sl ctx ∧ ∀ a c, l ctx = .ok (a, c) → sr c ∧ ∀ b c', r c = .ok (b, c') → P a b

/-- The second operand is evaluated if the first one is defined. -/
def StrictSafe (l r : Operand) (sl sr : Ctx → Prop) (P : Datum → Datum → Ctx → Prop) (ctx : Ctx) : Prop :=
  sl ctx ∧ ∀ a c, l ctx = .ok (.defined a, c) → sr c ∧ ∀ b c', r c = .ok (.defined b, c') → P a b c'

/-- The second operand of `and` is evaluated if the first one is defined and not FALSE. -/
def AndSafe (l : Operand) (sl sr : Ctx → Prop) (ctx : Ctx) : Prop :=
  sl ctx ∧ ∀ a c, l ctx = .ok (.defined a, c) → a ≠ .boolean FALSE → sr c

/-- `or` looks at the types of its operands first. -/
def OrSafe (l r : Operand) (sl sr : Ctx → Prop) (ctx : Ctx) : Prop :=
  sl ctx ∧ ∀ a c, l ctx = .ok (a, c) → a.Typed ∧ (a.type = .ok .boolean →
    a ≠ .defined (.boolean TRUE) → sr c ∧ ∀ b c', r c = .ok (b, c') → b.Typed)

def BinopSafe (op : BinOp) (left right : Expr) (l r : Operand) (sl sr : Ctx → Prop) (ctx : Ctx) : Prop :=
  match op with
  | .regmatch | .notregmatch => StrictSafe l r sl sr (RegMatches env left right) { ctx with captured := [] }
  | .equal | .notequal | .plus => BothSafe l r sl sr (fun _ _ => True) ctx
  | .less | .le | .greater | .ge | .minus | .mul => StrictSafe l r sl sr (fun _ _ _ => True) ctx
  | .and => AndSafe l sl sr ctx
  | .or => OrSafe l r sl sr ctx
  | .div | .mod => StrictSafe l r sl sr (fun a b _ => Divides a b) ctx

mutual

/-- Every operator that the evaluation reaches finds operands that it can work with. -/
def Safe (env : ExprEnv) : Expr → Ctx → Prop
  | .value _ _, _ => True
  | .field _, _ => True
  | .captured n, _ => 0 ≤ n
  | .unop op e, ctx => Safe env e ctx ∧ ∀ v c, evaluate env e ctx = .ok (v, c) → op = .minus → v.Typed
  | .binop op left right _, ctx =>
    BinopSafe env op left right (evaluate env left) (evaluate env right) (Safe env left) (Safe env right) ctx
  | .inop e es, ctx => Safe env e ctx ∧ ∀ d c, evaluate env e ctx = .ok (.defined d, c) → SafeIn env d es c
  | .function fn args _, ctx => SafeArgs env args ctx ∧
    ∀ vs c, evaluateArgs env args ctx = .ok (vs, c) → Graceful (env.call fn vs c)

/-- The elements of a list, up to the first that is equal. -/
def SafeIn (env : ExprEnv) (d : Datum) : Exprs → Ctx → Prop
  | .nil, _ => True
  | .cons e es, ctx => Safe env e ctx ∧ ∀ v c, evaluate env e ctx = .ok (v, c) →
    valueEq d v = false → SafeIn env d es c

def SafeArgs (env : ExprEnv) : Exprs → Ctx → Prop
  | .nil, _ => True
  | .cons e es, ctx => Safe env e ctx ∧ ∀ v c, evaluate env e ctx = .ok (v, c) → SafeArgs env es c

end

/-! ## Operators on values -/

variable {env : ExprEnv} {l r : Operand} {sl sr : Ctx → Prop}

theorem graceful_newStr (text : Bytes) : Graceful (newStr text) := by
  exact graceful_ite (graceful_throw _) (graceful_ok _)

theorem graceful_cloneStr : Graceful (cloneStr s) := by
  refine graceful_bind_ok.mpr ?_
  exact graceful_ite (graceful_throw _) (graceful_ok _)

variable (v : EVal)

theorem graceful_clone : Graceful (clone v) := by
  unfold clone
  split
  · exact graceful_bind_ok.mpr (graceful_cloneStr _)
  · simp

theorem graceful_quotient (symbol : String) (f : Int64 → Int64 → Int64) (a b : Datum) :
    Graceful (quotient symbol f a b) ↔ Divides a b := by
  unfold quotient
  split
  · rename_i a b
    unfold divides Divides
    split
    · rename_i h
      refine iff_of_false not_graceful_fault ?_
      intro hsafe
      exact hsafe.2 (h.resolve_left hsafe.1)
    · rename_i h
      exact iff_of_true (graceful_ok _) (not_or.mp h)
  · rename_i h
    refine iff_of_true (graceful_invalid ..) ?_
    cases a <;> cases b <;> first | trivial | exact absurd rfl (h _ _ rfl)

/-! ### Texts -/

theorem hexDigits_ok (b : UInt8) : ∃ ds, hexDigits b = .ok ds := by
  have hex : (ascii "0123456789abcdef").length = 16 := rfl
  have hb : b.toNat < 256 := b.toNat_lt
  simp only [hexDigits]
  rw [rd_ok (by omega), rd_ok (by omega)]
  exact ⟨_, rfl⟩

theorem graceful_bin2ascii (src : Bytes) : Graceful (bin2ascii src) := by
  induction src with
  | nil => simp [bin2ascii]
  | cons b src ih =>
    obtain ⟨ds, hds⟩ := hexDigits_ok b
    rw [bin2ascii, hds, ok_bind]
    exact graceful_bind_ok.mpr ih

theorem graceful_textOf (henv : env.Sound) (d : Datum) : Graceful (textOf env d) := by
  cases d with
  | string | integer | regexp | boolean | ip4addr => exact graceful_ok _
  | datetime t => exact graceful_bind_ok.mpr (graceful_bind_ok.mpr (henv.dateToIso t))
  | ip6addr a => exact graceful_bind_ok.mpr (graceful_bind_ok.mpr (henv.ip6ToText a))
  | binary value =>
    have hlen : value.1.length.toUInt32.toNat = value.1.length := by
      rw [Nat.toUInt32_eq, UInt32.toNat_ofNat']
      exact Nat.mod_eq_of_lt value.2
    have htext : valueToString env.toTextEnv ⟨TRUE, (Datum.binary value).data⟩ =
        (bin2ascii value.1 >>= fun text => .ok (some (cut text))) := by
      rw [valueToString, if_neg (show ¬ TRUE = FALSE by decide)]
      simp [Datum.data, hlen, rdBytes_ok]
    refine graceful_bind_ok.mpr ?_
    rw [htext]
    exact (graceful_bind_of fun _ => graceful_ok _).mpr (graceful_bin2ascii _)

theorem graceful_plus (henv : env.Sound) (a b : EVal) : Graceful (plus env a b) := by
  unfold plus
  split
  · exact graceful_bind_ok.mpr (graceful_newStr _)
  · exact graceful_bind_ok.mpr (graceful_newStr _)
  · rename_i a b
    have hrest : ∀ r, Graceful (textOf env a >>= fun l => joined l r) := fun r =>
      (graceful_bind_of fun _ => graceful_ite (graceful_throw _) (graceful_ok _)).mpr (graceful_textOf henv a)
    exact graceful_ite ((graceful_bind_of hrest).mpr (graceful_textOf henv b)) (sum_yields a b).1
  · exact graceful_ok _

/-! ### Regular expressions -/

variable {subject : Bytes}

theorem graceful_capture {g : Int × Int}
    (h : g = (-1, -1) ∨ (0 ≤ g.1 ∧ g.1 ≤ subject.length ∧ 0 ≤ g.2 ∧ g.2 ≤ subject.length)) :
    Graceful (capture subject g) := by
  unfold capture
  split
  · exact graceful_ok _
  · rename_i hne
    rcases h with rfl | ⟨h0, h1, _, h2⟩
    · exact absurd rfl hne
    · rw [if_neg (by omega)]
      exact graceful_bind_ok.mpr (graceful_newStr _)

theorem graceful_captures {groups : List (Int × Int)}
    (h : ∀ g ∈ groups, g = (-1, -1) ∨ (0 ≤ g.1 ∧ g.1 ≤ subject.length ∧ 0 ≤ g.2 ∧
    g.2 ≤ subject.length)) : Graceful (captures subject groups) := by
  induction groups with
  | nil => exact graceful_ok _
  | cons g groups ih =>
    obtain ⟨hg, hgroups⟩ := List.forall_mem_cons.mp h
    refine graceful_bind.mpr ⟨graceful_capture hg, fun c _ => ?_⟩
    exact graceful_bind_ok.mpr (ih hgroups)

theorem graceful_execMatch (henv : env.Sound) (r : Regexp) (subject : Bytes) :
    Graceful (execMatch env r subject) ↔ FewGroups env r subject := by
  unfold execMatch FewGroups
  cases hexec : env.exec r (cut subject).1 with
  | error fatal =>
    cases fatal with
    | true => exact absurd hexec (henv.exec_error _ _)
    | false => simp
  | matched ovector =>
    simp only [PcreResult.matched.injEq, forall_eq']
    cases ovector with
    | nil => simp [maxCaptured]
    | cons whole groups =>
      simp only [Res.assert, List.length_cons]
      split
      · rename_i hfew
        rw [ok_bind, graceful_bind_of fun _ => graceful_ok _]
        exact iff_of_true (graceful_captures (henv.exec_groups _ _ _ hexec)) (of_decide_eq_true hfew)
      · rename_i hfew
        exact iff_of_false (not_graceful_assert _) fun h => hfew (decide_eq_true h)

/-- The offsets of a match are inside of the string. -/
theorem execMatch_inside (henv : env.Sound) {r : Regexp} {b : Bool} {m : Match}
    (h : execMatch env r subject = .ok (b, some m)) : 0 ≤ m.start ∧ m.stop ≤ subject.length := by
  have hcut : (cut subject).1.length ≤ subject.length := (List.takeWhile_sublist _).length_le
  unfold execMatch at h
  cases hexec : env.exec r (cut subject).1 with
  | error fatal => rw [hexec] at h; cases fatal <;> cases h
  | matched ovector =>
    rw [hexec] at h
    cases ovector with
    | nil => cases h
    | cons whole groups =>
      obtain ⟨-, -, h⟩ := bind_eq_ok.mp h
      obtain ⟨cs, -, h⟩ := bind_eq_ok.mp h
      cases h
      have hstart := henv.exec_whole _ _ _ _ hexec
      rcases henv.exec_groups _ _ _ hexec whole (by simp) with rfl | ⟨-, -, -, hstop⟩
      · exact absurd hstart (by decide)
      · exact ⟨hstart, by simp only; omega⟩

theorem graceful_ensureSize (len : Nat) : Graceful (ensureSize s len) ↔ len ≠ 0 := by
  unfold ensureSize
  split
  · rename_i h
    exact iff_of_false (not_graceful_assert _) (not_not.mpr h)
  · rename_i h
    refine iff_of_true ?_ h
    split
    · exact graceful_ok _
    · exact graceful_ite (graceful_throw _) (graceful_ok _)

theorem graceful_replaceIn {s : Str} {replacement : Bytes} {start stop : Int} (h0 : 0 ≤ start)
    (h1 : stop ≤ s.buf.length) :
    Graceful (replaceIn s replacement start stop) ↔ start ≤ stop ∧ (s.buf ≠ [] ∨ replacement ≠ []) := by
  unfold replaceIn
  split
  · rename_i h
    have hfault : ¬ (start < 0 ∨ (s.buf.length : Int) < stop) := by omega
    simp only [if_neg hfault]
    rw [graceful_bind_of fun _ => graceful_ok _, graceful_ensureSize, and_iff_right h]
    simp only [ne_eq, ← List.length_eq_zero_iff]
    omega
  · rename_i h
    exact iff_of_false (not_graceful_assert _) fun hsafe => h hsafe.1

theorem graceful_substitute (henv : env.Sound) (r : Regexp) (replacement : Bytes) (n : Nat)
    (found : Bool) (captured : List Bytes) (s : Str) :
    Graceful (substitute env r replacement n found captured s) ↔ Substitutes env r replacement n s := by
  induction n generalizing found captured s with
  | zero => exact iff_of_true (graceful_throw _) trivial
  | succ n ih =>
    rw [substitute, Substitutes, graceful_bind, graceful_execMatch henv]
    refine and_congr_right fun _ => ?_
    constructor
    · intro h b m hm
      have hstep := h _ hm
      obtain ⟨h0, h1⟩ := execMatch_inside henv hm
      obtain ⟨hrep, hrest⟩ := graceful_bind.mp hstep
      obtain ⟨hle, hne⟩ := (graceful_replaceIn h0 h1).mp hrep
      refine ⟨hle, hne, fun s' hs' hglobal => ?_⟩
      have hs := hrest s' hs'
      rw [if_pos hglobal] at hs
      exact (ih _ _ _).mp hs
    · rintro h ⟨b, m⟩ hm
      cases m with
      | none => exact graceful_ok _
      | some m =>
        obtain ⟨hle, hne, hrest⟩ := h b m hm
        obtain ⟨h0, h1⟩ := execMatch_inside henv hm
        refine graceful_bind.mpr ⟨(graceful_replaceIn h0 h1).mpr ⟨hle, hne⟩, fun s' hs' => ?_⟩
        split
        · rename_i hglobal
          exact (ih _ _ _).mpr (hrest s' hs' hglobal)
        · exact graceful_ok _

/-- What is needed to find the field that a substitution edits. -/
theorem graceful_substituted (ctx : Ctx) :
    Graceful (substituted left right ctx) ↔ right.rettype = .regexp ∧ ∃ name, left = .field name ∧
      ∀ fields, ctx.logdata = some fields → ∃ s, getFieldValue fields name = .defined (.string s) := by
  unfold substituted
  by_cases hright : right.rettype = .regexp
  · simp only [hright, decide_true, assert_true, ok_bind, true_and]
    cases left with
    | field name =>
      simp only [Expr.fieldName, ok_bind, Expr.field.injEq, exists_eq_left']
      cases ctx.logdata with
      | none => simp
      | some fields =>
        simp only [Option.some.injEq, forall_eq']
        split
        · rename_i s h
          exact iff_of_true (graceful_ok _) ⟨s, h⟩
        · rename_i h
          exact iff_of_false (not_graceful_assert _) (by simp [h])
        · rename_i hstr _
          exact iff_of_false (not_graceful_assert _) fun ⟨s, h⟩ => hstr s h
    | _ => simp [Expr.fieldName]
  · simp [hright]

/-- A field that is found is the one of that name, and holds a string. -/
theorem substituted_ok {left right : Expr} {ctx : Ctx} {fields : List (CStr × EVal)} {name : CStr}
    {s : Str} (h : substituted left right ctx = .ok (fields, name, s)) :
    left = .field name ∧ ctx.logdata = some fields ∧ getFieldValue fields name = .defined (.string s) := by
  obtain ⟨_, -, h'⟩ := bind_eq_ok.mp h
  obtain ⟨name', hname, hval⟩ := bind_eq_ok.mp h'
  cases left with
  | field n =>
    cases hname
    cases hlog : ctx.logdata with
    | none => simp only [hlog] at hval; cases hval
    | some fields' =>
      simp only [hlog] at hval
      split at hval
      · rename_i heq
        cases hval
        exact ⟨rfl, rfl, heq⟩
      · cases hval
      · cases hval
  | _ => cases hname

theorem graceful_matchString (henv : env.Sound) (left right : Expr) (s : Str) (r : Regexp) (ctx : Ctx) :
    Graceful (matchString env left right s r ctx) ↔ Matches env left right s r ctx := by
  unfold matchString Matches
  cases r.replacement with
  | none => exact graceful_bind_ok.trans (graceful_execMatch henv r s.buf)
  | some replacement =>
    have hloop := graceful_substitute henv r replacement.1 maxReplacements false ctx.captured
    constructor
    · intro h
      obtain ⟨hsub, hrest⟩ := graceful_bind.mp h
      obtain ⟨hright, name, rfl, hfield⟩ := (graceful_substituted ..).mp hsub
      refine ⟨hright, name, rfl, fun fields hfields => ?_⟩
      obtain ⟨s', hs'⟩ := hfield fields hfields
      have hok : substituted (.field name) right ctx = .ok (fields, name, s') := by
        simp [substituted, hright, Expr.fieldName, hfields, hs']
      exact ⟨s', hs', (hloop s').mp (graceful_bind_ok.mp (hrest _ hok))⟩
    · rintro ⟨hright, name, rfl, hfield⟩
      have hsub : Graceful (substituted (.field name) right ctx) :=
        (graceful_substituted ..).mpr ⟨hright, name, rfl, fun fields hfields =>
          (hfield fields hfields).imp fun _ hs' => hs'.1⟩
      refine graceful_bind.mpr ⟨hsub, fun p hp => ?_⟩
      obtain ⟨fields, name', s'⟩ := p
      obtain ⟨hname, hfields, hs'⟩ := substituted_ok hp
      cases hname
      obtain ⟨s'', hs'', hsafe⟩ := hfield fields hfields
      obtain rfl : s' = s'' := by simpa [hs'] using hs''
      exact graceful_bind_ok.mpr ((hloop s').mpr hsafe)

theorem graceful_regmatch (henv : env.Sound) (left right : Expr) (a b : Datum) (ctx : Ctx) :
    Graceful (regmatch env left right a b ctx) ↔ RegMatches env left right a b ctx := by
  cases a with
  | string s =>
    cases b with
    | regexp r => exact graceful_matchString henv left right s r ctx
    | _ => exact iff_of_false (not_graceful_assert _) id
  | regexp r =>
    cases b with
    | string s => exact graceful_matchString henv left right s r ctx
    | _ => exact iff_of_true (graceful_invalid ..) trivial
  | _ =>
    cases b with
    | string s => exact iff_of_false (not_graceful_assert _) id
    | _ => exact iff_of_true (graceful_invalid ..) trivial

/-! ### Types of operands -/

theorem graceful_type {α : Type} (f : ValueType → Res α)
    (hf : ∀ t : ValueType, (∀ n, t ≠ .other n) → Graceful (f t))
    (hf' : ∀ n, ¬ Graceful (f (.other n))) : Graceful (v.type >>= f) ↔ v.Typed := by
  cases v with
  | defined d =>
    refine iff_of_true (hf _ ?_) trivial
    cases d <;> simp [Datum.type]
  | undef t =>
    cases t with
    | none => exact iff_of_false not_graceful_fault id
    | some t =>
      cases t with
      | other n => exact iff_of_false (hf' n) id
      | _ => exact iff_of_true (hf _ (by simp)) trivial

theorem graceful_orLeft : Graceful (orLeft v) ↔ v.Typed := by
  refine graceful_type v _ (fun t ht => ?_) fun n => ?_
  · cases t <;> simp_all [valueTypeToString]
  · simp [valueTypeToString]

/-- The first operand of `or` is a BOOLEAN if there is a second. -/
theorem orLeft_eq_ok {v : EVal} {b : Bool} :
    orLeft v = .ok b ↔ v.type = .ok .boolean ∧ b = decide (v = .defined (.boolean TRUE)) := by
  rw [orLeft, bind_eq_ok]
  constructor
  · rintro ⟨t, ht, h⟩
    split at h
    · obtain ⟨_, _, h'⟩ := bind_eq_ok.mp h
      cases h'
    · rename_i hb
      rw [ht, not_not.mp hb]
      exact ⟨rfl, (Except.ok.inj h).symm⟩
  · rintro ⟨ht, rfl⟩
    exact ⟨.boolean, ht, by simp⟩

theorem graceful_orRight : Graceful (orRight v) ↔ v.Typed := by
  refine graceful_type v _ (fun t ht => ?_) fun n => ?_
  · cases t <;> cases v <;> simp_all [invalid, valueTypeToString]
  · simp [invalid, valueTypeToString]

theorem graceful_neg : Graceful (neg v) ↔ v.Typed := by
  refine graceful_type v _ (fun t ht => ?_) fun n => ?_
  · cases t <;> cases v <;> simp_all [valueTypeToString]
  · simp [valueTypeToString]

theorem graceful_applyUnop (op : UnOp) (v : EVal) : Graceful (applyUnop op v) ↔ (op = .minus → v.Typed) := by
  cases op with
  | minus => simpa [applyUnop] using graceful_neg v
  | not =>
    refine iff_of_true ?_ (by simp)
    unfold applyUnop
    split <;> simp_all
  | defined => cases v <;> simp [applyUnop]

/-! ## Operators on operands -/

/-- What is done with an operand only if it is defined. -/
theorem graceful_defined {β : Type} {x : Res (EVal × Ctx)} {sx : Prop} {f : EVal × Ctx → Res β}
    {P : Datum → Ctx → Prop}
    (hx : Graceful x ↔ sx) (hundef : ∀ t c, Graceful (f (.undef t, c)))
    (hf : ∀ a c, Graceful (f (.defined a, c)) ↔ P a c) :
    Graceful (x >>= f) ↔ sx ∧ ∀ a c, x = .ok (.defined a, c) → P a c := by
  rw [graceful_bind, hx]
  refine and_congr_right fun _ => ?_
  constructor
  · intro h a c hac
    exact (hf a c).mp (h _ hac)
  · rintro h ⟨v, c⟩ hv
    cases v with
    | undef t => exact hundef t c
    | defined a => exact (hf a c).mpr (h a c hv)

section Operands

variable (hl : ∀ c, Graceful (l c) ↔ sl c) (hr : ∀ c, Graceful (r c) ↔ sr c)

include hl hr

theorem graceful_both {f : EVal → EVal → Res EVal} {P : EVal → EVal → Prop}
    (hf : ∀ a b, Graceful (f a b) ↔ P a b)
    (ctx : Ctx) : Graceful (both l r f ctx) ↔ BothSafe l r sl sr P ctx := by
  refine graceful_bind_iff (hl ctx) fun a c => ?_
  refine graceful_bind_iff (hr c) fun b c' => ?_
  exact graceful_bind_ok.trans (hf a b)

variable {t : Option ValueType}

theorem graceful_strict {f : Datum → Datum → Ctx → Res (EVal × Ctx)}
    {P : Datum → Datum → Ctx → Prop} (hf : ∀ a b c, Graceful (f a b c) ↔ P a b c) (ctx : Ctx) :
    Graceful (strict t l r f ctx) ↔ StrictSafe l r sl sr P ctx := by
  refine graceful_defined (hl ctx) (fun _ _ => graceful_ok _) fun a c => ?_
  exact graceful_defined (hr c) (fun _ _ => graceful_ok _) fun b c' => hf a b c'

theorem graceful_pureOp {f : Datum → Datum → Res EVal} {P : Datum → Datum → Prop}
    (hf : ∀ a b, Graceful (f a b) ↔ P a b) (ctx : Ctx) :
    Graceful (strict t l r (pureOp f) ctx) ↔ StrictSafe l r sl sr (fun a b _ => P a b) ctx :=
  graceful_strict hl hr (fun a b _ => graceful_bind_ok.trans (hf a b)) ctx

theorem graceful_andOp (ctx : Ctx) : Graceful (andOp l r ctx) ↔ AndSafe l sl sr ctx := by
  have hrest : ∀ a c, Graceful (r c >>= fun x => andRight a x.1 >>= fun v => .ok (v, x.2)) ↔ sr c := fun a c =>
    (graceful_bind_of fun x => graceful_bind_ok.mpr (andRight_yields a x.1).1).trans (hr c)
  refine graceful_defined (hl ctx) (fun _ _ => graceful_ok _) fun a c => ?_
  by_cases ha : a = .boolean FALSE
  · simp [ha]
  · simpa [ha] using hrest a c

theorem graceful_orOp (ctx : Ctx) : Graceful (orOp l r ctx) ↔ OrSafe l r sl sr ctx := by
  refine graceful_bind_iff (hl ctx) fun a c => ?_
  rw [graceful_bind, graceful_orLeft]
  refine and_congr_right fun _ => ?_
  have hrest : Graceful (r c >>= fun x => orRight x.1 >>= fun v => .ok (v, x.2)) ↔
      sr c ∧ ∀ b c', r c = .ok (b, c') → b.Typed :=
    graceful_bind_iff (hr c) fun b c' => graceful_bind_ok.trans (graceful_orRight b)
  rw [← hrest]
  constructor
  · intro h ht hne
    have hstep := h _ (orLeft_eq_ok.mpr ⟨ht, rfl⟩)
    simpa [hne] using hstep
  · intro h b hb
    obtain ⟨ht, rfl⟩ := orLeft_eq_ok.mp hb
    by_cases hne : a = .defined (.boolean TRUE)
    · simp [hne]
    · simpa [hne] using h ht hne

theorem graceful_applyBinop (henv : env.Sound) (op : BinOp) (left right : Expr) (ctx : Ctx) :
    Graceful (applyBinop env op left right l r ctx) ↔ BinopSafe env op left right l r sl sr ctx := by
  cases op with
  | regmatch => exact graceful_strict hl hr (graceful_regmatch henv left right) _
  | notregmatch =>
    exact graceful_bind_ok.trans (graceful_strict hl hr (graceful_regmatch henv left right) _)
  | equal | notequal =>
    exact graceful_both hl hr (fun a b => iff_of_true (equality_yields _ _ a b).1 trivial) ctx
  | less | le | greater | ge =>
    exact graceful_pureOp hl hr (fun a b => iff_of_true (ordering_yields _ _ a b).1 trivial) ctx
  | and => exact graceful_andOp hl hr ctx
  | or => exact graceful_orOp hl hr ctx
  | plus => exact graceful_both hl hr (fun a b => iff_of_true (graceful_plus henv a b) trivial) ctx
  | minus => exact graceful_pureOp hl hr (fun a b => iff_of_true (minus_yields a b).1 trivial) ctx
  | mul => exact graceful_pureOp hl hr (fun a b => iff_of_true (mul_yields a b).1 trivial) ctx
  | div | mod => exact graceful_pureOp hl hr (graceful_quotient _ _) ctx

end Operands

/-! ## Expressions -/

theorem graceful_fieldValue (name : CStr) (ctx : Ctx) : Graceful (fieldValue name ctx) := by
  unfold fieldValue
  cases ctx.logdata with
  | none => exact graceful_throw _
  | some fields => exact graceful_clone _

theorem graceful_captured (n : Int) (ctx : Ctx) : Graceful (captured n ctx) ↔ 0 ≤ n := by
  by_cases hn : 0 ≤ n
  · refine iff_of_true ?_ hn
    simp only [captured, hn, decide_true, assert_true, ok_bind]
    cases ctx.captured[n.toNat]? with
    | none => exact graceful_ok _
    | some text => exact graceful_bind_ok.mpr (graceful_cloneStr _)
  · refine iff_of_false ?_ hn
    simp [captured, hn]

mutual

/-- By induction on the tree, with one case for each kind of node. -/
theorem evaluate_graceful (henv : env.Sound) : ∀ (e : Expr) (ctx : Ctx),
    Graceful (evaluate env e ctx) ↔ Safe env e ctx
  | .value v _, ctx => iff_of_true (graceful_bind_ok.mpr (graceful_clone v)) trivial
  | .field name, ctx => iff_of_true (graceful_bind_ok.mpr (graceful_fieldValue name ctx)) trivial
  | .captured n, ctx => graceful_bind_ok.trans (graceful_captured n ctx)
  | .unop op e, ctx => by
    rw [evaluate, Safe]
    exact graceful_bind_iff (evaluate_graceful henv e ctx) fun v c =>
      graceful_bind_ok.trans (graceful_applyUnop op v)
  | .binop op left right _, ctx => by
    rw [evaluate, Safe]
    exact graceful_applyBinop (evaluate_graceful henv left)
      (evaluate_graceful henv right) henv op left right ctx
  | .inop e es, ctx => by
    rw [evaluate, Safe]
    refine graceful_defined (evaluate_graceful henv e ctx) (fun _ _ => graceful_ok _) fun d c => ?_
    exact graceful_bind_ok.trans (evaluateIn_graceful henv d es c)
  | .function fn args _, ctx => by
    rw [evaluate, Safe, graceful_bind, evaluateArgs_graceful henv args ctx, Prod.forall]

theorem evaluateIn_graceful (henv : env.Sound) (d : Datum) :
    ∀ (es : Exprs) (ctx : Ctx), Graceful (evaluateIn env d es ctx) ↔ SafeIn env d es ctx
  | .nil, _ => iff_of_true (graceful_ok _) trivial
  | .cons e es, ctx => by
    rw [evaluateIn, SafeIn]
    refine graceful_bind_iff (evaluate_graceful henv e ctx) fun v c => ?_
    rw [← evaluateIn_graceful henv d es c]
    cases h : valueEq d v <;> simp [h]

theorem evaluateArgs_graceful (henv : env.Sound) :
    ∀ (es : Exprs) (ctx : Ctx), Graceful (evaluateArgs env es ctx) ↔ SafeArgs env es ctx
  | .nil, _ => iff_of_true (graceful_ok _) trivial
  | .cons e es, ctx => by
    rw [evaluateArgs, SafeArgs]
    refine graceful_bind_iff (evaluate_graceful henv e ctx) fun v c => ?_
    exact graceful_bind_ok.trans (evaluateArgs_graceful henv es c)

end

/-- The evaluation of a tree returns a value or throws exactly if every operator that it reaches
finds operands that it can work with. -/
theorem evaluate_returns_or_throws_iff (env : ExprEnv) (henv : env.Sound) (e : Expr) (ctx : Ctx) :
    ((∃ v ctx', evaluate env e ctx = .ok (v, ctx')) ∨ ∃ m, evaluate env e ctx = Res.throw m) ↔
    Safe env e ctx := by
  rw [← evaluate_graceful henv e ctx, graceful_iff, Prod.exists]

theorem decimalEnv_sound : decimalEnv.Sound where
  exec_error := by simp [decimalEnv]
  exec_groups := by simp [decimalEnv]
  exec_whole := by simp [decimalEnv]
  dateToIso _ := graceful_throw _
  ip6ToText _ := graceful_throw _

/-- `1 / 2`. -/
theorem half_safe :
    let half : Expr := .binop .div (.value (.defined (.integer 1)) .integer)
      (.value (.defined (.integer 2)) .integer) .integer
    Safe decimalEnv half ⟨none, []⟩ ∧
      ((∃ v ctx', evaluate decimalEnv half ⟨none, []⟩ = .ok (v, ctx')) ∨
        ∃ m, evaluate decimalEnv half ⟨none, []⟩ = Res.throw m) := by
  have hok : evaluate decimalEnv (.binop .div (.value (.defined (.integer 1)) .integer)
      (.value (.defined (.integer 2)) .integer) .integer) ⟨none, []⟩ =
        .ok (.defined (.integer 0), ⟨none, []⟩) := rfl
  refine ⟨(evaluate_returns_or_throws_iff decimalEnv decimalEnv_sound _ _).mp (.inl ⟨_, _, hok⟩),
    .inl ⟨_, _, hok⟩⟩

/-- `1 / 0` is accepted, and traps. `$a =~ $b` is accepted, and fails an assertion if both are
strings. -/
theorem accepted_crashes :
    (do
      let one ← newInteger decimalEnv (cut (ascii "1"))
      let zero ← newInteger decimalEnv (cut (ascii "0"))
      let e ← newBinop .div one zero
      evaluate decimalEnv e ⟨none, []⟩) = Res.fault ∧
    (do
      let e ← newBinop .regmatch (newField (cut (ascii "a"))) (newField (cut (ascii "b")))
      let s : EVal := .defined (.string ⟨[], 1, Nat.one_pos⟩)
      evaluate decimalEnv e ⟨some [(cut (ascii "a"), s), (cut (ascii "b"), s)], []⟩) =
      .error (.assert "rval.type == NX_VALUE_TYPE_REGEXP") := by
  constructor
  · rfl
  · rfl

end Nxlog.L4.Eval
