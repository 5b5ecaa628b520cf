import Nxlog.L3Protocol.Json

/-!
# What the callbacks make of an object

`endArrayCb` stores the text and forgets the key when the last array is closed, even inside of
a nested object, and `startMapCb` and `endMapCb` throw inside of an array. So a nested value is
read right only if it is made of objects alone or of arrays alone.

* `Walks`: what the callbacks of a nested value do. The counters and the key are as before, or
  the run is `Broken`: it fails, or it gets to a state with an open object and without a key,
  from where it cannot get back (`Stuck`).
* `walk_array`, `walk_map`: nested values, by induction on the value.
-/
namespace Nxlog.L3.Json
open L1 L2 Res List

/-! ## Nested values -/

mutual

def mapsOnly : JVal → Bool
  | .array _ => false
  | .object ms => mapsOnlyMembers ms
  | _ => true

def mapsOnlyMembers : Members → Bool
  | .nil => true
  | .cons _ v ms => mapsOnly v && mapsOnlyMembers ms

end

mutual

def arraysOnly : JVal → Bool
  | .object _ => false
  | .array vs => arraysOnlyVals vs
  | _ => true

def arraysOnlyVals : JVals → Bool
  | .nil => true
  | .cons v vs => arraysOnly v && arraysOnlyVals vs

end

variable {v : JVal}

section Walks

variable {σ : Type} {set : Setter σ} {env : JsonEnv} {ctx : JsonCtx σ} {ld : σ} {a m : Int}
  {key : CStr} {t : Bytes}

/-- An object is open, and the key is gone. -/
structure Stuck (ctx : JsonCtx σ) : Prop where
  tmpstr : ctx.tmpstr = none
  in_array : ctx.in_array = 0
  in_map : 0 < ctx.in_map
  key : ctx.key = none

def Broken (x : Res (JsonCtx σ)) : Prop := ∀ ctx, x = .ok ctx → Stuck ctx

theorem broken_error (e : Fail) : Broken (.error e : Res (JsonCtx σ)) := by simp [Broken]

theorem broken_of_eq {x y : Res (JsonCtx σ)} (h : x = y) (hy : Broken y) : Broken x := h ▸ hy

variable {x : Res (JsonCtx σ)}

theorem Broken.bind {f : JsonCtx σ → Res (JsonCtx σ)} (hx : Broken x)
    (hf : ∀ ctx, Stuck ctx → Broken (f ctx)) : Broken (x >>= f) := by
  intro ctx h
  obtain ⟨c, hc, h⟩ := bind_eq_ok.mp h
  exact hf c (hx c hc) ctx h

/-- Nothing that is called back leads out of it. -/
theorem stuck_callback (h : Stuck ctx) (e : Event) : Broken (callback set env ctx e) := by
  obtain ⟨tmpstr, ld, a, m, key⟩ := ctx
  obtain ⟨rfl, rfl, hm, rfl⟩ := h
  have hstuck : Stuck (⟨none, ld, 0, m, none⟩ : JsonCtx σ) := ⟨rfl, rfl, hm, rfl⟩
  cases e with
  | null | boolean | integer | double | number | string =>
    refine broken_of_eq (if_pos (.inr hm)) ?_
    exact broken_error _
  | startMap | endMap => intro c hc; cases hc; exact hstuck
  | mapKey s =>
    simp only [callback, mapKeyCb, if_pos hm]
    exact broken_error _
  | startArray | endArray => exact broken_error _

theorem stuck_run (h : Stuck ctx) (events : List Event) : Broken (run (callback set env) ctx events) := by
  induction events generalizing ctx with
  | nil => intro c hc; cases hc; exact h
  | cons e events ih => exact (stuck_callback h e).bind fun c hc => ih hc

/-- The key and the counters are as before, and there is a text; or the run is broken. -/
def Walks (ok : Bool) (ld : σ) (a m : Int) (key : CStr) (x : Res (JsonCtx σ)) : Prop :=
  if ok then ∃ t, t.length < stringLimit ∧ x = .ok ⟨some t, ld, a, m, some key⟩ else Broken x

theorem walks_ok (ht : t.length < stringLimit) (hx : x = .ok ⟨some t, ld, a, m, some key⟩) :
    Walks true ld a m key x := by
  rw [Walks, if_pos rfl]
  exact ⟨t, ht, hx⟩

theorem Walks.run_append {ok ok' : Bool} {es es' : List Event} {a' m' : Int}
    (hx : Walks ok ld a m key (run (callback set env) ctx es)) (hf : ∀ t, t.length < stringLimit →
      Walks ok' ld a' m' key (run (callback set env) ⟨some t, ld, a, m, some key⟩ es')) :
    Walks (ok && ok') ld a' m' key (run (callback set env) ctx (es ++ es')) := by
  rw [Nxlog.run_append]
  cases ok with
  | false => exact Broken.bind hx fun c hc => stuck_run hc es'
  | true =>
    obtain ⟨t, ht, hx⟩ := hx
    rw [hx, ok_bind, Bool.true_and]
    exact hf t ht

/-! ### Texts -/

theorem tmpAppend_eq (src : Bytes) :
    tmpAppend ⟨some t, ld, a, m, some key⟩ src = .ok ⟨some (appendCut t src), ld, a, m, some key⟩ := by
  simp only [tmpAppend]
  rw [stringAppend_eq (Nat.le_refl _), take_length]
  rfl

theorem tmpAppends_walk (ht : t.length < stringLimit) (texts : List Bytes) :
    Walks true ld a m key (run tmpAppend ⟨some t, ld, a, m, some key⟩ texts) := by
  induction texts generalizing t with
  | nil => exact walks_ok ht rfl
  | cons src texts ih =>
    rw [run_cons, tmpAppend_eq, ok_bind]
    exact ih (appendCut_length src ht)

theorem closed_eq (ht : t.length < stringLimit) (bracket : Bytes) :
    ∃ t', t'.length < stringLimit ∧ closed (some t) bracket = .ok t' := by
  have hchop : (if 2 < t.length then t.dropLast else t).length < stringLimit := by
    split
    · rw [length_dropLast]
      omega
    · exact ht
  refine ⟨_, appendCut_length bracket hchop, ?_⟩
  simp only [closed]
  rw [stringAppend_eq (Nat.le_refl _), take_length]

theorem scalarCb_walk (hn : 0 < a ∨ 0 < m) (ht : t.length < stringLimit) (texts : List Bytes)
    (value : CStr → Res (Option NxValue)) :
    Walks true ld a m key (scalarCb set texts value ⟨some t, ld, a, m, some key⟩) := by
  rw [scalarCb, if_pos hn]
  exact tmpAppends_walk ht texts

/-! ### Values below a member -/

theorem run_single (e : Event) : run (callback set env) ctx [e] = callback set env ctx e :=
  bind_ok _

theorem startArray_eq (ctx : JsonCtx σ) (hkey : ctx.key = some key) :
    callback set env ctx .startArray =
      .ok { ctx with in_array := ctx.in_array + 1, tmpstr := some (appendCut (ctx.tmpstr.getD []) (ascii "[")) } := by
  obtain ⟨tmpstr, ld, a, m, k⟩ := ctx
  cases hkey
  exact tmpAppend_eq _

theorem startMap_eq (ctx : JsonCtx σ) (hkey : ctx.key = some key) (ha : ctx.in_array = 0) :
    callback set env ctx .startMap =
      .ok { ctx with in_map := ctx.in_map + 1, tmpstr := some (appendCut (ctx.tmpstr.getD []) (ascii "\x7b")) } := by
  obtain ⟨tmpstr, ld, a, m, k⟩ := ctx
  cases hkey
  cases ha
  exact tmpAppend_eq _

theorem endArray_walk (ha : 0 < a) (ht : t.length < stringLimit) :
    Walks true ld a m key (callback set env ⟨some t, ld, a + 1, m, some key⟩ .endArray) := by
  obtain ⟨t', ht', hclosed⟩ := closed_eq ht (ascii "]")
  refine walks_ok ht' ?_
  simp only [callback, endArrayCb]
  rw [if_neg (by omega), hclosed, ok_bind, if_neg (by omega), Int.add_sub_cancel]

theorem endMap_walk (hm : 0 < m) (ht : t.length < stringLimit) :
    Walks true ld 0 m key (callback set env ⟨some t, ld, 0, m + 1, some key⟩ .endMap) := by
  obtain ⟨t', ht', hclosed⟩ := closed_eq ht (ascii "\x7d")
  refine walks_ok ht' ?_
  simp only [callback, endMapCb]
  rw [if_neg (by simp), if_neg (by omega), hclosed, ok_bind, if_neg (by omega), Int.add_sub_cancel]

/-- The last array is closed inside of an object: the text becomes a field and the key is gone. -/
theorem endArray_broken (hm : 0 < m) (ht : t.length < stringLimit) :
    Broken (callback set env ⟨some t, ld, 1, m, some key⟩ .endArray) := by
  obtain ⟨t', _, hclosed⟩ := closed_eq ht (ascii "]")
  refine broken_of_eq (y := setText set ⟨some t, ld, 0, m, some key⟩ key t') ?_ ?_
  · simp only [callback, endArrayCb]
    rw [if_neg (by omega), hclosed, ok_bind, if_pos (by omega)]
    rfl
  · intro ctx h
    obtain ⟨_, _, h⟩ := bind_eq_ok.mp h
    obtain ⟨_, _, h⟩ := bind_eq_ok.mp h
    cases h
    exact ⟨rfl, rfl, hm, rfl⟩

def JVal.isScalar : JVal → Bool
  | .array _ => false
  | .object _ => false
  | _ => true

/-- Scalars are written to the text. -/
theorem walk_scalar (hv : v.isScalar) (hn : 0 < a ∨ 0 < m) (ht : t.length < stringLimit) :
    Walks true ld a m key (run (callback set env) ⟨some t, ld, a, m, some key⟩ v.events) := by
  cases v with
  | array | object => cases hv
  | _ =>
    rw [JVal.events, run_single]
    unfold callback
    exact scalarCb_walk hn ht _ _

mutual

/-- Inside of an array, where an object is an error. -/
theorem walk_array : ∀ (v : JVal) {a : Int} {t : Bytes}, 0 < a → t.length < stringLimit →
    Walks (arraysOnly v) ld a m key (run (callback set env) ⟨some t, ld, a, m, some key⟩ v.events)
  | .null, _, _, ha, ht | .boolean _, _, _, ha, ht | .number _, _, _, ha, ht | .string _, _, _, ha, ht =>
    walk_scalar rfl (.inl ha) ht
  | .array vs, a, t, ha, ht => by
    rw [JVal.events, run_cons, startArray_eq _ rfl, ok_bind, arraysOnly, ← Bool.and_true (arraysOnlyVals vs)]
    refine Walks.run_append (walk_vals vs (by simp only; omega) (appendCut_length _ ht)) fun t' ht' => ?_
    rw [run_single]
    exact endArray_walk ha ht'
  | .object ms, a, t, ha, ht => by
    have hthrow : callback set env ⟨some t, ld, a, m, some key⟩ .startMap = Res.throw "unexpected in_array" :=
      if_pos (by simp only; omega)
    rw [JVal.events, run_cons, hthrow]
    exact broken_error _

theorem walk_vals : ∀ (vs : JVals) {a : Int} {t : Bytes}, 0 < a → t.length < stringLimit →
    Walks (arraysOnlyVals vs) ld a m key (run (callback set env) ⟨some t, ld, a, m, some key⟩ vs.events)
  | .nil, _, _, _, ht => walks_ok ht rfl
  | .cons v vs, _, _, ha, ht => by
    rw [arraysOnlyVals, JVals.events]
    exact (walk_array v ha ht).run_append fun t ht => walk_vals vs ha ht

end

mutual

/-- Inside of an object, where an array loses the key. -/
theorem walk_map : ∀ (v : JVal) {m : Int} {t : Bytes}, 0 < m → t.length < stringLimit →
    Walks (mapsOnly v) ld 0 m key (run (callback set env) ⟨some t, ld, 0, m, some key⟩ v.events)
  | .null, _, _, hm, ht | .boolean _, _, _, hm, ht | .number _, _, _, hm, ht | .string _, _, _, hm, ht =>
    walk_scalar rfl (.inr hm) ht
  | .array vs, m, t, hm, ht => by
    rw [JVal.events, run_cons, startArray_eq _ rfl, ok_bind, mapsOnly, ← Bool.and_false (arraysOnlyVals vs)]
    -- the elements are read as in any array, or are an error
    refine Walks.run_append (walk_vals vs Int.one_pos (appendCut_length _ ht)) fun t' ht' => ?_
    rw [run_single]
    exact endArray_broken hm ht'
  | .object ms, m, t, hm, ht => by
    rw [JVal.events, run_cons, startMap_eq _ rfl rfl, ok_bind, mapsOnly, ← Bool.and_true (mapsOnlyMembers ms)]
    refine Walks.run_append (walk_members ms (by simp only; omega) (appendCut_length _ ht)) fun t' ht' => ?_
    rw [run_single]
    exact endMap_walk hm ht'

theorem walk_members : ∀ (ms : Members) {m : Int} {t : Bytes}, 0 < m → t.length < stringLimit →
    Walks (mapsOnlyMembers ms) ld 0 m key (run (callback set env) ⟨some t, ld, 0, m, some key⟩ ms.events)
  | .nil, _, _, _, ht => walks_ok ht rfl
  | .cons name v ms, m, t, hm, ht => by
    have hname : Walks true ld 0 m key (callback set env ⟨some t, ld, 0, m, some key⟩ (.mapKey name)) := by
      simp only [callback, mapKeyCb, if_pos hm]
      exact tmpAppends_walk ht _
    obtain ⟨t', ht', hname⟩ := hname
    rw [mapsOnlyMembers, Members.events, run_cons, hname, ok_bind]
    exact (walk_map v hm ht').run_append fun t ht => walk_members ms hm ht

end

end Walks

/-! ## Members -/

variable (env : JsonEnv)

def dateOf (s : Bytes) : Option Int64 :=
  match textDate env s with
  | .ok date => date
  | .error _ => none

theorem textDate_eq (s : Bytes) : textDate env s = .ok (dateOf env s) := by
  obtain ⟨date, hdate⟩ : ∃ date, textDate env s = .ok date := by
    unfold textDate
    split
    · obtain ⟨parsed, hparsed⟩ := dateParseIso_returns env.date s none
      exact ⟨_, by rw [hparsed]; rfl⟩
    · exact ⟨_, rfl⟩
  rw [dateOf, hdate]

def scalarValue : JVal → Option NxValue
  | .null => some ⟨FALSE, .string none⟩
  | .boolean b => some ⟨TRUE, .boolean (if b then TRUE else FALSE)⟩
  | .number s =>
    match env.scanLong s.1 with
    | none => some (strValue s.1)
    | some intval => some ⟨TRUE, .integer intval⟩
  | .string s =>
    match dateOf env s.1 with
    | none => some (strValue s.1)
    | some t => some ⟨TRUE, .datetime t⟩
  | .array _ => none
  | .object _ => none

/-- A scalar member has its scalar value, any other has a text. -/
def Holds (v : JVal) (w : NxValue) : Prop :=
  match scalarValue env v with
  | some value => w.content = value.content
  | none => w.defined = TRUE ∧ w.type = .string

/-- Texts are within the limit; a nested value is made of objects alone or of arrays alone. -/
def Fits : JVal → Prop
  | .null => True
  | .boolean _ => True
  | .number s => env.scanLong s.1 = none → s.1.length ≤ stringLimit
  | .string s => dateOf env s.1 = none → s.1.length ≤ stringLimit
  | .array vs => arraysOnlyVals vs
  | .object ms => mapsOnlyMembers ms

def IsText : JVal → Prop
  | .null => False
  | .boolean _ => False
  | .number s => env.scanLong s.1 = none
  | .string s => dateOf env s.1 = none
  | .array _ => True
  | .object _ => True

variable (key : CStr)

def Skipped (v : JVal) : Prop := key = rawEvent ∧ ∃ s, v = .string s

/-- A member that the callbacks store or leave out; `raw_event` cannot be anything but a text. -/
def Storable (v : JVal) : Prop :=
  Skipped key v ∨ Fits env v ∧ (key = rawEvent → IsText env v)

section Members

variable {σ : Type} {set : Setter σ} {env : JsonEnv} {ld : σ} {key : CStr}

/-- The field is set, and the context is as it was before the member. -/
def stores (set : Setter σ) (ld : σ) (key : CStr) (w : NxValue) : Res (JsonCtx σ) := do
  let ld ← set ld key w
  .ok ⟨none, ld, 0, 0, none⟩

theorem textValue_eq {s : JText} (h : s.1.length ≤ stringLimit) : textValue s = .ok (some (strValue s.1)) := by
  rw [textValue, stringCreate_ok h (Nat.le_refl _), take_length]
  rfl

theorem textValue_error {s : JText} (h : ¬ s.1.length ≤ stringLimit) : ∃ e, textValue s = .error e := by
  refine ⟨.throw "oversized string, limit is 1048576 bytes", ?_⟩
  have h0 : ¬ (s.1.length : Int) < 0 := by omega
  have h1 : (s.1.length : Int) > stringLimit := by omega
  simp only [textValue, stringCreate, createLen, if_neg h0, ok_bind, if_pos h1]
  rfl

theorem setText_eq {t : Bytes} (ht : t.length < stringLimit) (ha : ctx.in_array = 0)
    (hm : ctx.in_map = 0) : setText set ctx key t = stores set ctx.logdata key (strValue (cut t).1) := by
  obtain ⟨t', ht'⟩ := exists_cut t
  have hlen : (cut t).1.length ≤ stringLimit := ((takeWhile_sublist _).length_le).trans ht.le
  obtain ⟨tmpstr, ld, a, m, k⟩ := ctx
  cases ha
  cases hm
  rw [setText, ht', stringCreate_cstr t' hlen]
  rfl

structure Value (env : JsonEnv) (v : JVal) (w : NxValue) : Prop where
  holds : Holds env v w
  free : valueFree w = .ok ()
  text : IsText env v ↔ w.defined = TRUE ∧ w.type = .string

theorem value_text (hv : v.isScalar = false) (t : Bytes) : Value env v (strValue t) := by
  cases v with
  | array | object => exact ⟨⟨rfl, rfl⟩, rfl, iff_of_true trivial ⟨rfl, rfl⟩⟩
  | _ => cases hv

/-- A member that fits is stored; one that does not breaks the run. -/
structure Treats (set : Setter σ) (env : JsonEnv) (ld : σ) (key : CStr) (v : JVal)
    (x : Res (JsonCtx σ)) : Prop where
  stored : Fits env v → ∃ w, Value env v w ∧ x = stores set ld key w
  broken : ¬ Fits env v → Broken x

/-- The bracket behind the values stores the text. -/
theorem Walks.treats {ok : Bool} {a m : Int} {es : List Event} {e : Event}
    (hx : Walks ok ld a m key (run (callback set env) ctx es)) (hok : Fits env v ↔ ok = true)
    (hv : v.isScalar = false)
    (he : ∀ t, t.length < stringLimit →
      ∃ t', callback set env ⟨some t, ld, a, m, some key⟩ e = stores set ld key (strValue t')) :
    Treats set env ld key v (run (callback set env) ctx (es ++ [e])) := by
  rw [Nxlog.run_append]
  cases ok with
  | false => exact ⟨fun h => (nomatch hok.mp h), fun _ => Broken.bind hx fun c hc => stuck_run hc _⟩
  | true =>
    obtain ⟨t, ht, hx⟩ := hx
    obtain ⟨t', ht'⟩ := he t ht
    refine ⟨fun _ => ⟨strValue t', value_text hv t', ?_⟩, fun h => absurd (hok.mpr rfl) h⟩
    rw [hx, ok_bind, run_single, ht']

theorem object_run (ms : Members) : Treats set env ld key (.object ms)
    (run (callback set env) ⟨none, ld, 0, 0, some key⟩ (JVal.object ms).events) := by
  rw [JVal.events, run_cons, startMap_eq _ rfl rfl, ok_bind]
  refine (walk_members ms Int.one_pos (appendCut_length _ (x := []) (by decide))).treats Iff.rfl rfl
    fun t ht => ?_
  obtain ⟨t', ht', hclosed⟩ := closed_eq ht (ascii "\x7d")
  refine ⟨(cut t').1, ?_⟩
  simp only [callback, endMapCb]
  rw [if_neg (by simp), if_neg (by omega), hclosed, ok_bind, if_pos (by omega), setText_eq ht' rfl rfl]

theorem array_run (vs : JVals) : Treats set env ld key (.array vs)
    (run (callback set env) ⟨none, ld, 0, 0, some key⟩ (JVal.array vs).events) := by
  rw [JVal.events, run_cons, startArray_eq _ rfl, ok_bind]
  refine (walk_vals vs Int.one_pos (appendCut_length _ (x := []) (by decide))).treats Iff.rfl rfl
    fun t ht => ?_
  obtain ⟨t', ht', hclosed⟩ := closed_eq ht (ascii "]")
  refine ⟨(cut t').1, ?_⟩
  simp only [callback, endArrayCb]
  rw [if_neg (by omega), hclosed, ok_bind, if_pos (by omega)]
  exact setText_eq ht' rfl rfl

section Scalar

variable {texts : List Bytes} {value : CStr → Res (Option NxValue)}

theorem scalar_run : scalarCb set texts value ⟨none, ld, 0, 0, some key⟩ =
    value key >>= setMember set ⟨none, ld, 0, 0, some key⟩ key := by
  rw [scalarCb, if_neg (by simp)]

theorem plain_run {w : NxValue} (hw : Value env v w) (hfits : Fits env v) (hvalue : value key = .ok (some w)) :
    Treats set env ld key v (scalarCb set texts value ⟨none, ld, 0, 0, some key⟩) := by
  refine ⟨fun _ => ⟨w, hw, ?_⟩, fun h => absurd hfits h⟩
  rw [scalar_run, hvalue]
  rfl

theorem text_run (s : JText) (hscalar : scalarValue env v = some (strValue s.1)) (htext : IsText env v)
    (hfits : Fits env v ↔ s.1.length ≤ stringLimit) (hvalue : value key = textValue s) :
    Treats set env ld key v (scalarCb set texts value ⟨none, ld, 0, 0, some key⟩) := by
  rw [scalar_run, hvalue]
  constructor
  · intro h
    refine ⟨strValue s.1, ⟨by simp [Holds, hscalar], rfl, iff_of_true htext ⟨rfl, rfl⟩⟩, ?_⟩
    rw [textValue_eq (hfits.mp h)]
    rfl
  · intro h
    obtain ⟨e, he⟩ := textValue_error fun hlen => h (hfits.mpr hlen)
    rw [he]
    exact broken_error e

end Scalar

variable (set env ld) in
theorem value_run (hskip : ¬ Skipped key v) :
    Treats set env ld key v (run (callback set env) ⟨none, ld, 0, 0, some key⟩ v.events) := by
  cases v with
  | array vs => exact array_run vs
  | object ms => exact object_run ms
  | null =>
    rw [JVal.events, run_single, callback, nullCb]
    exact plain_run ⟨rfl, rfl, iff_of_false id (by decide)⟩ trivial rfl
  | boolean b =>
    rw [JVal.events, run_single, callback, booleanCb]
    exact plain_run ⟨rfl, rfl, iff_of_false id (by simp [NxValue.type, Data.type])⟩ trivial rfl
  | number s =>
    rw [JVal.events, run_single, callback, numberCb]
    cases hscan : env.scanLong s.1 with
    | none => exact text_run s (by simp [scalarValue, hscan]) hscan (by simp [Fits, hscan]) rfl
    | some i =>
      refine plain_run (w := ⟨TRUE, .integer i⟩) ⟨by simp [Holds, scalarValue, hscan], rfl, ?_⟩
        (by simp [Fits, hscan]) rfl
      simp [IsText, hscan, NxValue.type, Data.type]
  | string s =>
    have hkey : key ≠ rawEvent := fun h => hskip ⟨h, s, rfl⟩
    rw [JVal.events, run_single, callback, stringCb]
    cases hdate : dateOf env s.1 with
    | none =>
      exact text_run s (by simp [scalarValue, hdate]) hdate (by simp [Fits, hdate])
        (by simp only [if_neg hkey, textDate_eq, hdate, ok_bind])
    | some t =>
      refine plain_run (w := ⟨TRUE, .datetime t⟩) ⟨by simp [Holds, scalarValue, hdate], rfl, ?_⟩
        (by simp [Fits, hdate]) (by simp only [if_neg hkey, textDate_eq, hdate, ok_bind])
      simp [IsText, hdate, NxValue.type, Data.type]

theorem skipped_run (hskip : Skipped key v) :
    run (callback set env) ⟨none, ld, 0, 0, some key⟩ v.events = .ok ⟨none, ld, 0, 0, none⟩ := by
  obtain ⟨hkey, s, rfl⟩ := hskip
  rw [JVal.events, run_single]
  unfold callback
  refine scalar_run.trans ?_
  simp only [if_pos hkey]
  rfl

end Members

/-! ## Records -/

section Records

variable {env : JsonEnv} {s : Store}

/-- The records that are given to a parser: there is always a field `raw_event`. -/
structure Record (ld : Logdata) : Prop extends Usable ld where
  raw : (view ld rawEvent).isSome

/-- What a member leaves: its field, and the others as they were. -/
structure MemberSet (env : JsonEnv) (ld : Logdata) (key : CStr) (v : JVal) (ld' : Logdata) : Prop where
  record : Record ld'
  member : ¬ strcasecmp key rawEvent → ∃ w, view ld' key = some w ∧ Holds env v w
  others : ∀ k, ¬ strcasecmp key k → view ld' k = view ld k

theorem set_isSome (m : FieldMap) (key k : CStr) (w : NxValue) (h : (m k).isSome) :
    (m.set key w k).isSome := by
  unfold FieldMap.set
  split
  · rfl
  · exact h

variable {w : NxValue}

theorem holds_place (h : Holds env v w) (n : Nat) : Holds env v (place n w) := by
  unfold Holds at h ⊢
  split
  · rename_i value hv
    rw [hv] at h
    rw [content_place]
    exact h
  · rename_i hv
    rw [hv] at h
    rw [place_type]
    exact h

theorem stored_member {key : CStr} (hs : Record s.ld) (hw : Value env v w)
    (hraw : key = rawEvent → IsText env v) :
    ∃ s', storeSet s key w = .ok s' ∧ MemberSet env s.ld key v s'.ld := by
  obtain ⟨s', hset, husable, hview⟩ := storeSet_set hs.toUsable hw.free fun hk => hw.text.mp (hraw hk)
  refine ⟨s', hset, ⟨husable, ?_⟩, ?_, ?_⟩
  · rw [hview]
    exact set_isSome _ _ _ _ hs.raw
  · intro _
    refine ⟨place s.next w, ?_, holds_place hw.holds _⟩
    rw [hview]
    simp [FieldMap.set]
  · intro k hk
    rw [hview]
    simp [FieldMap.set, hk]

/-- `raw_event` is not set to anything but a text. -/
theorem storeSet_raw_error (hs : Record s.ld) (hw : Value env v w) (hraw : ¬ IsText env v) :
    ∃ e, storeSet s rawEvent w = .error e := by
  obtain ⟨f, hf⟩ : ∃ f, getField s.ld rawEvent = some f := by
    have h := hs.raw
    rw [view, Option.isSome_map] at h
    exact Option.isSome_iff_exists.mp h
  cases h : storeSet s rawEvent w with
  | error e => exact ⟨e, rfl⟩
  | ok s' => exact absurd (hw.text.mpr (storeSet_raw hf rfl h)) hraw

variable {name : JText}

theorem member_run :
    run (callback storeSet env) ⟨none, s, 0, 0, none⟩ (.mapKey name :: v.events) =
      run (callback storeSet env) ⟨none, s, 0, 0, some (cut name.1)⟩ v.events := rfl

theorem member_stored (hs : Record s.ld) (hv : Storable env (cut name.1) v) :
    ∃ s', run (callback storeSet env) ⟨none, s, 0, 0, none⟩ (.mapKey name :: v.events) =
      .ok ⟨none, s', 0, 0, none⟩ ∧ MemberSet env s.ld (cut name.1) v s'.ld := by
  rw [member_run]
  by_cases hskip : Skipped (cut name.1) v
  · refine ⟨s, skipped_run hskip, hs, fun hne => ?_, fun _ _ => rfl⟩
    exact absurd (hskip.1 ▸ strcasecmp_refl _) hne
  obtain ⟨hfits, hraw⟩ := hv.resolve_left hskip
  obtain ⟨w, hw, hrun⟩ := (value_run storeSet env s hskip).stored hfits
  obtain ⟨s', hset, hmember⟩ := stored_member hs hw hraw
  refine ⟨s', ?_, hmember⟩
  rw [hrun, stores, hset]
  rfl

theorem member_broken (hs : Record s.ld) (hv : ¬ Storable env (cut name.1) v) :
    Broken (run (callback storeSet env) ⟨none, s, 0, 0, none⟩ (.mapKey name :: v.events)) := by
  rw [member_run]
  obtain ⟨hskip, hrest⟩ := not_or.mp hv
  by_cases hfits : Fits env v
  · -- only `raw_event` is left
    have hraw : ¬ (cut name.1 = rawEvent → IsText env v) := fun h => hrest ⟨hfits, h⟩
    obtain ⟨hkey, htext⟩ := Classical.not_imp.mp hraw
    obtain ⟨w, hw, hrun⟩ := (value_run storeSet env s hskip).stored hfits
    obtain ⟨e, he⟩ := storeSet_raw_error hs hw htext
    refine broken_of_eq hrun ?_
    rw [stores, hkey, he]
    exact broken_error e
  · exact (value_run storeSet env s hskip).broken hfits

def Members.toList : Members → List (CStr × JVal)
  | .nil => []
  | .cons name v ms => (cut name.1, v) :: ms.toList

/-- What members leave: for the last of each name a field, and the others as they were. -/
structure MembersSet (env : JsonEnv) (ld : Logdata) (ms : List (CStr × JVal)) (ld' : Logdata) : Prop where
  record : Record ld'
  members : ∀ pre key v post, ms = pre ++ (key, v) :: post → ¬ strcasecmp key rawEvent →
    (∀ m ∈ post, ¬ strcasecmp m.1 key) → ∃ w, view ld' key = some w ∧ Holds env v w
  others : ∀ k, (∀ m ∈ ms, ¬ strcasecmp m.1 k) → view ld' k = view ld k

theorem members_stored : ∀ (ms : Members) {s : Store}, Record s.ld →
    (∀ m ∈ ms.toList, Storable env m.1 m.2) → ∃ s', run (callback storeSet env) ⟨none, s, 0, 0,
      none⟩ ms.events = .ok ⟨none, s', 0, 0, none⟩ ∧ MembersSet env s.ld ms.toList s'.ld
  | .nil, s, hs, _ => ⟨s, rfl, hs, by simp [Members.toList], fun _ _ => rfl⟩
  | .cons name v ms, s, hs, hok => by
    obtain ⟨hv, hms⟩ := forall_mem_cons.mp hok
    obtain ⟨s1, hrun1, hset1⟩ := member_stored hs hv
    obtain ⟨s2, hrun2, hset2⟩ := members_stored ms hset1.record hms
    refine ⟨s2, ?_, hset2.record, ?_, ?_⟩
    · rw [Members.events, ← cons_append, Nxlog.run_append, hrun1, ok_bind, hrun2]
    · intro pre key v' post heq hraw hlast
      cases pre with
      | nil =>
        obtain ⟨⟨rfl, rfl⟩, rfl⟩ : (cut name.1 = key ∧ v = v') ∧ ms.toList = post := by
          simpa [Members.toList] using heq
        obtain ⟨w, hw, hholds⟩ := hset1.member hraw
        exact ⟨w, by rw [hset2.others _ hlast, hw], hholds⟩
      | cons m pre =>
        have hrest : ms.toList = pre ++ (key, v') :: post := (cons.inj heq).2
        exact hset2.members pre key v' post hrest hraw hlast
    · intro k hk
      obtain ⟨hk1, hk2⟩ := forall_mem_cons.mp hk
      rw [hset2.others k hk2, hset1.others k hk1]

theorem members_broken : ∀ (ms : Members) {s : Store}, Record s.ld →
    (¬ ∀ m ∈ ms.toList, Storable env m.1 m.2) →
    Broken (run (callback storeSet env) ⟨none, s, 0, 0, none⟩ ms.events)
  | .nil, s, _, hno => absurd (by simp [Members.toList]) hno
  | .cons name v ms, s, hs, hno => by
    rw [Members.events, ← cons_append, Nxlog.run_append]
    by_cases hv : Storable env (cut name.1) v
    · obtain ⟨s1, hrun1, hset1⟩ := member_stored hs hv
      rw [hrun1, ok_bind]
      refine members_broken ms hset1.record fun hms => hno ?_
      exact forall_mem_cons.mpr ⟨hv, hms⟩
    · exact (member_broken hs hv).bind fun c hc => stuck_run hc _

/-- A record with different names has one field of a name that it has. -/
theorem one_field {ld : Logdata} (hd : DistinctNames ld) {key : CStr} (h : view ld key = some w) :
    ∃ f, ld.fields.filter (named key) = [f] ∧ f.value = w := by
  obtain ⟨f, hf, rfl⟩ := Option.map_eq_some_iff.mp h
  have hmem : f ∈ ld.fields.filter (named key) :=
    mem_filter.mpr ⟨mem_of_find?_eq_some hf, find?_some hf⟩
  have hpair : (ld.fields.filter (named key)).Pairwise fun f g => ¬ strcasecmp f.key g.key := hd.filter _
  have hnamed : ∀ g ∈ ld.fields.filter (named key), strcasecmp g.key key := fun g hg =>
    named_iff.mp (mem_filter.mp hg).2
  refine ⟨f, ?_, rfl⟩
  match hl : ld.fields.filter (named key) with
  | [] => rw [hl] at hmem; cases hmem
  | [g] =>
    rw [hl, mem_singleton] at hmem
    rw [hmem]
  | g :: g' :: rest =>
    rw [hl] at hpair hnamed
    have hne := (pairwise_cons.mp hpair).1 g' (by simp)
    exact absurd (strcasecmp_trans (hnamed g (by simp)) (strcasecmp_comm.mp (hnamed g' (by simp)))) hne

end Records

/-! ## Objects -/

/-- The counters are 0 and nothing is pending. For the last member of each name, `raw_event` apart,
there is exactly one field, which has the value of a scalar. The other fields are as they were. -/
structure Covered (ld : Logdata) (ms : List (CStr × JVal)) (ctx : JsonCtx Store) : Prop where
  in_map : ctx.in_map = 0
  in_array : ctx.in_array = 0
  key : ctx.key = none
  tmpstr : ctx.tmpstr = none
  members : ∀ pre key v post, ms = pre ++ (key, v) :: post → ¬ strcasecmp key rawEvent →
    (∀ m ∈ post, ¬ strcasecmp m.1 key) → ∃ f, ctx.logdata.ld.fields.filter (named key) = [f] ∧
    Holds env v f.value
  others : ∀ k, (∀ m ∈ ms, ¬ strcasecmp m.1 k) → view ctx.logdata.ld k = view ld k

/-- An object is covered exactly if each of its members can be stored. -/
theorem json_object_covered_iff (env : JsonEnv) (s : Store) (hs : Record s.ld) (ms : Members) :
    (∃ ctx, jsonParse storeSet env s (JVal.object ms).events = .ok ctx ∧
      Covered env s.ld ms.toList ctx) ↔ ∀ m ∈ ms.toList, Storable env m.1 m.2 := by
  have hparse : jsonParse storeSet env s (JVal.object ms).events =
      run (callback storeSet env) ⟨none, s, 0, 0, none⟩ ms.events >>= fun ctx => endMapCb storeSet ctx := by
    rw [jsonParse, JVal.events, run_cons]
    refine (run_append ..).trans (congrArg _ (funext fun ctx => ?_))
    exact run_single _
  rw [hparse]
  constructor
  · intro ⟨ctx, hrun, hcov⟩
    by_contra hno
    -- whatever is left has an open object
    have hend : ∀ c : JsonCtx Store, Stuck c → Broken (callback storeSet env c .endMap) :=
      fun c hc => stuck_callback hc _
    have hstuck : Stuck ctx := (members_broken ms hs hno).bind hend ctx hrun
    exact absurd hcov.in_map (Int.ne_of_gt hstuck.in_map)
  · intro hok
    obtain ⟨s', hrun, hset⟩ := members_stored ms hs hok
    refine ⟨⟨none, s', 0, 0, none⟩, by rw [hrun]; rfl, rfl, rfl, rfl, rfl, ?_, hset.others⟩
    intro pre key v post heq hraw hlast
    obtain ⟨w, hw, hholds⟩ := hset.members pre key v post heq hraw hlast
    obtain ⟨f, hf, rfl⟩ := one_field hset.record.distinct hw
    exact ⟨f, hf, hholds⟩

/-- No date is read, and numbers have one digit. -/
def digitEnv : JsonEnv where
  date := ⟨0, fun _ => none, fun _ => none, fun _ => none, fun _ => none⟩
  scanLong s := s.head?.map fun c => Int64.ofNat (c.toNat - 48)

def jtext (s : String) (h : (ascii s).length < 2 ^ 31 := by decide) : JText := ⟨ascii s, h⟩

/-- `{"a": 1, "b": [2]}` -/
theorem json_scalar_and_array :
    let ms : Members := .cons (jtext "a") (.number (jtext "1"))
      (.cons (jtext "b") (.array (.cons (.number (jtext "2")) .nil)) .nil)
    ∃ ctx, jsonParse storeSet digitEnv ⟨logdataNew, 1⟩ (JVal.object ms).events = .ok ctx ∧
      Covered digitEnv logdataNew ms.toList ctx := by
  refine (json_object_covered_iff digitEnv ⟨logdataNew, 1⟩
    ⟨⟨logdataNew_distinct, logdataNew_freeable⟩, by decide⟩ _).mpr ?_
  exact forall_mem_cons.mpr ⟨.inr ⟨fun h => (nomatch h), fun h => absurd h (by decide)⟩,
    forall_mem_singleton.mpr (.inr ⟨rfl, fun _ => trivial⟩)⟩

/-- `{"a": [{}]}` throws, and `{"a": {"b": []}}` ends inside of an object. -/
theorem json_nested_not_covered :
    jsonParse storeSet digitEnv ⟨logdataNew, 1⟩
      (JVal.object (.cons (jtext "a") (.array (.cons (.object .nil) .nil)) .nil)).events =
        Res.throw "unexpected in_array" ∧
    (jsonParse storeSet digitEnv ⟨logdataNew, 1⟩
      (JVal.object (.cons (jtext "a")
        (.object (.cons (jtext "b") (.array .nil) .nil)) .nil)).events).map JsonCtx.in_map =
        .ok 1 := by
  constructor
  · rfl
  · rfl

end Nxlog.L3.Json
