import Nxlog.L4App.ExprEval

/-!
# The functions `host_ip()`, `get_var()` and `substr()` (`common/expr-core-funcproc-cb.c`)

The arguments come with their values, an undefined one with the type that was set for it. No string
of the program is longer than the string limit. `host_ip` and `get_var` are the functions that can
return a value whose type was never set: the one for an undefined argument, the other for a variable
that `create_var` has made or that was set to such a value.

* `substr_total_iff`: `substr` fails an ASSERT or panics exactly if the end is given but undefined
  and the start is inside of the string and not 0, or a position has no type.
-/
namespace Nxlog.L4.Eval
open L1 L2 L3 Res List

def undefString : EVal := .undef (some .string)

/-- An argument of another type than the one that is required. -/
def invalidArg {α : Type} (v : EVal) (argument : String) : Res α := do
  let t ← v.type
  let name ← valueTypeToString t
  Res.throw ("'" ++ name ++ "' type argument is invalid for " ++ argument ++ " required")

/-! ## `host_ip` and `get_var` -/

/-- common/expr-core-funcproc-cb.c:771-826: of the IPv4 addresses of the host, the one with the
number `nth` that is not a loopback address. -/
def nthAddress (addresses : Res (List (Octets 4))) (nth : Int64) : Res EVal := do
  let addresses ← addresses
  match (addresses.filter fun a => a.1.head? != some 127)[nth.toInt.toNat - 1]? with
  | some a => .ok (.defined (.ip4addr a))
  | none => .ok (.undef (some .ip4addr))

/-- mirrors common/expr-core-funcproc-cb.c:731-826 (`nx_expr_func__host_ip`). An undefined argument
is answered before the type of the result is set. The `%d` of the message takes an `int`. -/
def hostIp (addresses : Res (List (Octets 4))) : List EVal → Res EVal
  | [] => nthAddress addresses 1
  | [v] =>
    match v with
    | .defined (.integer nth) =>
      if nth ≤ 0 then
        Res.throw ("Positive non-zero number required for argument nth in function " ++
          "'host_ip(integer)', got " ++ toString nth.toInt32.toInt)
      else nthAddress addresses nth
    | .undef (some .integer) => .ok (.undef none)
    | v => do
      let t ← v.type
      let name ← valueTypeToString t
      Res.throw ("got '" ++ name ++ "' for first argument of function 'host_ip(integer)'")
  | _ => .error (.assert "num_arg == 0")

/-- mirrors common/expr-core-funcproc-cb.c:1252-1302 (`nx_expr_func__get_var`). -/
def getVar (vars : Bytes → Option EVal) : List EVal → Res EVal
  | [.defined (.string name)] =>
    match vars name.buf with
    | none => .ok (.undef (some .unknown))
    | some v => clone v
  -- `args[0].string` is `NULL`
  | [.undef (some .string)] => Res.fault
  | [v] => do
    let t ← v.type
    let name ← valueTypeToString t
    Res.throw ("'" ++ name ++ "' type argument is invalid")
  | _ => .error (.assert "num_arg == 1")

/-! ## `substr` -/

variable (argument : String)

/-- An integer, or `none` if it is undefined. -/
def integerArg : EVal → Res (Option Int64)
  | .defined (.integer i) => .ok (some i)
  | .undef (some .integer) => .ok none
  | v => invalidArg v argument

variable (s : Str)

/-- The end of `nx_expr_func__substr`. -/
def sliceOf (start stop : Int) : Res EVal := do
  Res.assert (start ≤ stop) "to >= from"
  Res.assert (start ≤ s.buf.length) "from <= args[0].string->len"
  let r ← stringCreate 0 ((s.buf ++ [0]).drop start.toNat) (cInt (stop - start).toNat)
  .ok (.defined (.string (.exact r.buf)))

/-- common/expr-core-funcproc-cb.c:1912-1937: the end, which is 0 if it is given but undefined. -/
def substrTo (start : Int) : Option EVal → Res EVal
  | none => sliceOf s start s.buf.length
  | some v => do
    match ← integerArg "third argument, integer" v with
    | none => sliceOf s start 0
    | some stop =>
      if stop.toInt < 0 then Res.throw "negative integer invalid for third argument"
      else if stop.toInt < start then .ok undefString
      else sliceOf s start (min stop.toInt s.buf.length)

variable (src start : EVal) (stop : Option EVal)

/-- mirrors common/expr-core-funcproc-cb.c:1870-1944 (`nx_expr_func__substr`). -/
def substrOf : Res EVal :=
  match src with
  | .undef (some .string) => .ok undefString
  | .defined (.string s) => do
    match ← integerArg "second argument, integer" start with
    | none => .ok undefString
    | some start =>
      if start.toInt < 0 then Res.throw "negative integer invalid for second argument"
      else if s.buf.length < start.toInt then .ok undefString
      else substrTo s start.toInt stop
  | v => invalidArg v "first argument, string"

def substr : List EVal → Res EVal
  | [src, start] => substrOf src start none
  | [src, start, stop] => substrOf src start (some stop)
  | _ => .error (.assert "(num_arg == 2) || (num_arg == 3)")

def StringArg (v : EVal) : Prop := v = undefString ∨ ∃ s : Str, v = .defined (.string s) ∧
    s.buf.length ≤ stringLimit

/-- An integer, or an undefined value. -/
def IntegerArg (v : EVal) : Prop := (∃ i, v = .defined (.integer i)) ∨ ∃ t, v = .undef t

/-- Undefined, with a tag that was never set or is none of the types. -/
def NoType (v : EVal) : Prop := v = .undef none ∨ ∃ b, v = .undef (some (.other b))

/-- `out` is the part of the string between the positions; one behind the end is the end. -/
def SliceOf (start : Int) (stop : Option EVal) (out : Str) : Prop :=
  ∃ j : Int, 0 ≤ start ∧ start ≤ j ∧ j ≤ s.buf.length ∧
  out.buf = (s.buf.drop start.toNat).take (j - start).toNat ∧
    (stop = none → j = s.buf.length) ∧ ∀ k, stop = some (.defined (.integer k)) → j = min k.toInt s.buf.length

def SubstrOk (r : Res EVal) : Prop :=
  (∃ msg, r = Res.throw msg) ∨ r = .ok undefString ∨ ∃ s i out, src = .defined (.string s) ∧
    start = .defined (.integer i) ∧ r = .ok (.defined (.string out)) ∧ SliceOf s i.toInt stop out

/-- The end is given but undefined, and the start is inside of the string and not 0. -/
def EndUndefined : Prop :=
  ∃ s i, src = .defined (.string s) ∧ start = .defined (.integer i) ∧
    stop = some (.undef (some .integer)) ∧ 0 < i.toInt ∧ i.toInt ≤ s.buf.length

/-- A position that is looked at has no type, and `nx_value_type_to_string` panics. -/
def PositionUntyped : Prop :=
  ∃ s, src = .defined (.string s) ∧ (NoType start ∨
    ∃ i v, start = .defined (.integer i) ∧ 0 ≤ i.toInt ∧ i.toInt ≤ s.buf.length ∧
      stop = some v ∧ NoType v)

section Substr

variable {s : Str} {start stop : Int}

theorem sliceOf_ok (hs : s.buf.length ≤ stringLimit) (h0 : 0 ≤ start) (h : start ≤ stop)
    (hstop : stop ≤ s.buf.length) :
    ∃ out, sliceOf s start stop = .ok (.defined (.string out)) ∧
      out.buf = (s.buf.drop start.toNat).take (stop - start).toNat := by
  have hl : stringLimit = 1048576 := rfl
  have hcreate : stringCreate 0 ((s.buf ++ [0]).drop start.toNat) (cInt (stop - start).toNat) =
      .ok ⟨0, ((s.buf ++ [0]).drop start.toNat).take (stop - start).toNat⟩ := by
    rw [cInt_of_lt (by omega)]
    exact stringCreate_ok (by omega) (by simp; omega)
  have hbuf : ((s.buf ++ [0]).drop start.toNat).take (stop - start).toNat =
    (s.buf.drop start.toNat).take (stop - start).toNat := by
    rw [drop_append_of_le_length (by omega), take_append_of_le_length (by simp; omega)]
  rw [sliceOf, decide_eq_true h, decide_eq_true (Int.le_trans h hstop), assert_true, ok_bind, hcreate]
  exact ⟨_, rfl, hbuf⟩

theorem integerArg_cases {v : EVal} (h : IntegerArg v) :
    (∃ i, v = .defined (.integer i) ∧ integerArg argument v = .ok (some i)) ∨
      v = .undef (some .integer) ∧ integerArg argument v = .ok none ∨
      ((∀ i, v ≠ .defined (.integer i)) ∧ v ≠ .undef (some .integer) ∧ ¬ NoType v ∧
        ∃ msg, integerArg argument v = Res.throw msg) ∨
      NoType v ∧ ∃ e, integerArg argument v = .error e ∧ ∀ msg, e ≠ .throw msg := by
  rcases h with ⟨i, rfl⟩ | ⟨t, rfl⟩
  · exact .inl ⟨i, rfl, rfl⟩
  · cases t with
    | none => exact .inr (.inr (.inr ⟨.inl rfl, _, rfl, nofun⟩))
    | some t =>
      cases t with
      | integer => exact .inr (.inl ⟨rfl, rfl⟩)
      | other b => exact .inr (.inr (.inr ⟨.inr ⟨b, rfl⟩, _, rfl, nofun⟩))
      | _ => exact .inr (.inr (.inl ⟨nofun, nofun, by simp [NoType], _, rfl⟩))

theorem not_substrOk {src start : EVal} {stop : Option EVal} {e : Fail}
    (h : ∀ msg, e ≠ .throw msg) : ¬ SubstrOk src start stop (.error e) := by
  rintro (⟨msg, h'⟩ | h' | ⟨s, i, out, -, -, h', -⟩)
  · cases h'
    exact h msg rfl
  · cases h'
  · cases h'

theorem SubstrOk.slice {i : Int64} {stop : Option EVal} {j : Int} (hs : s.buf.length ≤ stringLimit)
    (h0 : 0 ≤ i.toInt)
    (h : i.toInt ≤ j) (hj : j ≤ s.buf.length) (hnone : stop = none → j = s.buf.length)
    (hsome : ∀ k, stop = some (.defined (.integer k)) → j = min k.toInt s.buf.length) :
    SubstrOk (.defined (.string s)) (.defined (.integer i)) stop (sliceOf s i.toInt j) := by
  obtain ⟨out, hout, hbuf⟩ := sliceOf_ok hs h0 h hj
  exact .inr (.inr ⟨s, i, out, rfl, rfl, hout, j, h0, h, hj, hbuf, hnone, hsome⟩)

theorem substrTo_ok {i : Int64} {stop : Option EVal} (hs : s.buf.length ≤ stringLimit)
    (h0 : 0 ≤ i.toInt) (hi : i.toInt ≤ s.buf.length) (hstop : ∀ v ∈ stop, IntegerArg v) :
    SubstrOk (.defined (.string s)) (.defined (.integer i)) stop (substrTo s i.toInt stop) ↔
      ¬ (stop = some (.undef (some .integer)) ∧ 0 < i.toInt) ∧ ∀ v ∈ stop, ¬ NoType v := by
  cases stop with
  | none => exact iff_of_true (.slice hs h0 hi (Int.le_refl _) (fun _ => rfl) (by simp)) (by simp)
  | some v =>
    simp only [Option.mem_some_iff, forall_eq', Option.some.injEq]
    rcases integerArg_cases "third argument, integer" (hstop v rfl) with
      ⟨k, rfl, hk⟩ | ⟨rfl, hk⟩ | ⟨-, hne, htype, msg, hk⟩ | ⟨hno, e, hk, he⟩
    · refine iff_of_true ?_ (by simp [NoType])
      simp only [substrTo, hk, ok_bind]
      split
      · exact .inl ⟨_, rfl⟩
      split
      · exact .inr (.inl rfl)
      · exact .slice hs h0 (by omega) (by omega) (by simp) (by simp)
    · simp only [substrTo, hk, ok_bind]
      by_cases hpos : 0 < i.toInt
      · -- `to` is still 0
        have hassert : sliceOf s i.toInt 0 = .error (.assert "to >= from") := by
          simp [sliceOf, Int.not_le.mpr hpos, Res.assert]
        rw [hassert]
        exact iff_of_false (not_substrOk nofun) (by simp [hpos])
      · refine iff_of_true (.slice hs h0 (by omega) (by omega) (by simp) (by simp)) ?_
        simp [hpos, NoType]
    · exact iff_of_true (.inl ⟨msg, by simp only [substrTo, hk]; rfl⟩) ⟨fun h => hne h.1, htype⟩
    · simp only [substrTo, hk]
      exact iff_of_false (not_substrOk he) fun h => h.2 hno

end Substr

theorem substr_total_iff (src start : EVal) (stop : Option EVal) (hsrc : StringArg src)
    (hstart : IntegerArg start) (hstop : ∀ v ∈ stop, IntegerArg v) :
    SubstrOk src start stop (substr (src :: start :: stop.toList)) ↔
      ¬ EndUndefined src start stop ∧ ¬ PositionUntyped src start stop := by
  have hof : substr (src :: start :: stop.toList) = substrOf src start stop := by cases stop <;> rfl
  rw [hof]
  rcases hsrc with rfl | ⟨s, rfl, hs⟩
  · exact iff_of_true (.inr (.inl rfl)) (by simp [EndUndefined, PositionUntyped, undefString])
  rcases integerArg_cases "second argument, integer" hstart with
    ⟨i, rfl, hi⟩ | ⟨rfl, hi⟩ | ⟨hne, -, htype, msg, hi⟩ | ⟨hno, e, hi, he⟩
  · have hend : EndUndefined (.defined (.string s)) (.defined (.integer i)) stop ↔
        stop = some (.undef (some .integer)) ∧ 0 < i.toInt ∧ i.toInt ≤ s.buf.length := by
      simp [EndUndefined]
    have huntyped : PositionUntyped (.defined (.string s)) (.defined (.integer i)) stop ↔
        0 ≤ i.toInt ∧ i.toInt ≤ s.buf.length ∧ ∃ v ∈ stop, NoType v := by
      simp [PositionUntyped, NoType, Option.mem_def]
    rw [hend, huntyped]
    simp only [substrOf, hi, ok_bind]
    split
    · exact iff_of_true (.inl ⟨_, rfl⟩) ⟨by omega, by omega⟩
    split
    · exact iff_of_true (.inr (.inl rfl)) ⟨by omega, by omega⟩
    · next hlow hhigh =>
      have hlow := Int.not_lt.mp hlow
      have hhigh := Int.not_lt.mp hhigh
      rw [substrTo_ok hs hlow hhigh hstop]
      simp [hlow, hhigh]
  · refine iff_of_true (.inr (.inl (by simp only [substrOf, hi]; rfl))) ?_
    simp [EndUndefined, PositionUntyped, NoType]
  · refine iff_of_true (.inl ⟨msg, by simp only [substrOf, hi]; rfl⟩) ?_
    simp [EndUndefined, PositionUntyped, hne, htype]
  · simp only [substrOf, hi]
    exact iff_of_false (not_substrOk he) fun h => h.2 ⟨s, rfl, .inl hno⟩

theorem substr_total_test : SubstrOk (.defined (.string ⟨ascii "test", 5, by decide⟩))
    (.defined (.integer 1)) (some (.defined (.integer 3)))
    (substr [.defined (.string ⟨ascii "test", 5, by decide⟩), .defined (.integer 1),
      .defined (.integer 3)]) :=
  (substr_total_iff _ _ _ (.inr ⟨⟨ascii "test", 5, by decide⟩, rfl, by decide⟩) (.inl ⟨1, rfl⟩)
    (by rintro v ⟨⟩; exact .inl ⟨3, rfl⟩)).mpr (by simp [EndUndefined, PositionUntyped, NoType])

/-- `substr("test", 1, undef)`, where the third argument is an integer that is undefined, and
`substr("test", undef)` with a type byte of 77, which a record from another host can have. -/
theorem substr_end_undefined :
    substr [.defined (.string ⟨ascii "test", 5, by decide⟩), .defined (.integer 1),
      .undef (some .integer)] = .error (.assert "to >= from") ∧
    substr [.defined (.string ⟨ascii "test", 5, by decide⟩), .undef (some (.ofTag 77))] =
      .error (.assert "invalid value type: 77") := ⟨rfl, rfl⟩

end Nxlog.L4.Eval
