import Nxlog.Core.FirstMatch
import Nxlog.L1Encoding.RecordCodec

/-!
# Operations on records (`common/logdata.c`, `common/value.c`, `common/str.c`)

The record operations walk the field list for the first field whose name
matches, some with `strcasecmp` and some with `strcmp`, and keep the pointer
`raw_event` by hand. New string objects get names that are passed in.

An operation that throws does so before it has changed anything, so its result
is just the exception. `delete()` is the procedure of the configuration
language built on `nx_logdata_delete_field`.
-/
namespace Nxlog.L2
open L1 Res List

variable {key : CStr} {ld ld' : Logdata} {addr : Nat} {m : String} {w : NxValue} {s t : NxString} {f : Field}

/-! ## Strings and values -/

/-- mirrors common/str.c:360-381 (`nx_string_clone`) with `nx_string_new_size`:
an oversized string is cut below the limit, one exactly at the limit throws. -/
def stringClone (addr : Nat) (s : NxString) : Res NxString :=
  let len := if s.buf.length > stringLimit then stringLimit - 1 else s.buf.length
  if len + 1 > stringLimit then Res.throw "oversized string, limit is 1048576 bytes"
  else .ok ⟨addr, s.buf.take len⟩

/-- mirrors common/value.c:104-170 (`nx_value_clone`). The payload of an
undefined value is not copied. -/
def valueClone (addr : Nat) (v : NxValue) : Res NxValue :=
  if v.defined = TRUE then
    match v.data with
    | .string (some s) => do
      let s ← stringClone addr s
      return ⟨v.defined, .string (some s)⟩
    | .string none => .error (.assert "str != NULL")
    | .integer i => .ok ⟨v.defined, .integer i⟩
    | .datetime t => .ok ⟨v.defined, .datetime t⟩
    | .boolean b => .ok ⟨v.defined, .boolean b⟩
    | .ip4addr a => .ok ⟨v.defined, .ip4addr a⟩
    | .ip6addr a => .ok ⟨v.defined, .ip6addr a⟩
    | .binary (some value) len => do
      let value ← rdBytes value 0 len.toNat
      return ⟨v.defined, .binary (some value) len⟩
    | .binary none _ => .error (.assert "value->binary.value != NULL")
    | .regexp (some str) low => .ok ⟨v.defined, .regexp (some str) low⟩
    | .regexp none _ => Res.fault
    | .unknown => .error (.assert "invalid value type: 9")
    | .other t => .error (.assert ("invalid value type: " ++ toString t.1.toNat))
  else .ok ⟨v.defined, .zero v.type⟩

/-- mirrors common/value.c:39-100 (`nx_value_kill`, `nx_value_free`): only the
panic on a defined value of no known type is visible in the model. -/
def valueFree (v : NxValue) : Res Unit :=
  if v.defined = TRUE then
    match v.data with
    | .unknown => .error (.assert "invalid value type: 9")
    | .other t => .error (.assert ("invalid value type: " ++ toString t.1.toNat))
    | _ => .ok ()
  else .ok ()

/-- `value->string` of a STRING: the object, or `NULL`. -/
def strPtr (v : NxValue) : Option Nat :=
  match v.data with
  | .string s => s.map NxString.addr
  | _ => none

/-- mirrors common/value.c:354-369 (`nx_value_type_to_string`). -/
def valueTypeToString : ValueType → Res String
  | .integer => .ok "integer"
  | .string => .ok "string"
  | .datetime => .ok "datetime"
  | .regexp => .ok "regexp"
  | .boolean => .ok "boolean"
  | .ip4addr => .ok "ip4addr"
  | .ip6addr => .ok "ip6addr"
  | .binary => .ok "binary"
  | .unknown => .ok "unknown"
  | .other t => .error (.assert ("invalid value type: " ++ toString t.1.toNat))

/-! ## Fields -/

/-- The test of a walk with `strcasecmp`. -/
def named (key : CStr) (f : Field) : Bool := decide (strcasecmp f.key key)

/-- The test of a walk with `strcmp`. -/
def spelled (key : CStr) (f : Field) : Bool := decide (f.key = key)

/-- mirrors common/logdata.c:321-340 (`nx_logdata_get_field`). -/
def getField (ld : Logdata) (key : CStr) : Option Field := ld.fields.find? (named key)

/-- `field->value = value` for the first field of that name. -/
def putValue (key : CStr) (value : NxValue) : List Field → List Field :=
  updateFirst (named key) fun f => ⟨f.key, value⟩

/-- mirrors common/logdata.c:75-89 (`nx_logdata_new`). -/
def logdataNew : Logdata := ⟨some 0, [⟨rawEvent, ⟨TRUE, .string (some ⟨0, []⟩)⟩⟩], []⟩

theorem logdataNew_encodable : logdataNew.Encodable where
  count := by decide
  keys := by decide
  unique := by decide
  raw := ⟨_, mem_cons_self, rfl, _, rfl⟩
  values := forall_mem_singleton.mpr (.inr ⟨rfl, _, rfl, by decide⟩)

theorem logdataNew_size : logdataSerializedSize logdataNew = .ok 19 := by decide

/-- The line `hi` with the number `A` and the text `B`, whose strings are at `addr` and behind
it. -/
def sampleRecord (addr : Nat) : Logdata :=
  ⟨some addr, [⟨rawEvent, ⟨TRUE, .string (some ⟨addr, ascii "hi"⟩)⟩⟩,
    ⟨lit "A", ⟨TRUE, .integer 1⟩⟩, ⟨lit "B", ⟨TRUE, .string (some ⟨addr + 1, ascii "x"⟩)⟩⟩], []⟩

theorem sampleRecord_encodable (addr : Nat) : (sampleRecord addr).Encodable where
  count := by simp [sampleRecord]
  keys := by simp [sampleRecord, CStr.strlen, rawEvent]; decide
  unique := by simp [sampleRecord]; decide
  raw := ⟨_, mem_cons_self, rfl, _, rfl⟩
  values := by
    simp only [sampleRecord, forall_mem_cons]
    exact ⟨.inr ⟨rfl, _, rfl, show 2 < stringLimit by decide⟩, .inr ⟨rfl, trivial⟩,
      .inr ⟨rfl, _, rfl, show 1 < stringLimit by decide⟩, by simp⟩

theorem sampleRecord_size (addr : Nat) : logdataSerializedSize (sampleRecord addr) = .ok 44 := rfl

/-- The string of `nx_logdata_new_logline`. -/
def loglineString (ptr : Bytes) (len : Int) : Res NxString :=
  if len = 0 then .ok ⟨0, []⟩ else stringCreate 0 ptr len

/-- mirrors common/logdata.c:50-73 (`nx_logdata_new_logline`). -/
def logdataNewLogline (ptr : Bytes) (len : Int) : Res Logdata := do
  let s ← loglineString ptr len
  return ⟨some s.addr, [⟨rawEvent, ⟨TRUE, .string (some s)⟩⟩], []⟩

/-- mirrors common/logdata.c:156-198 (`nx_logdata_set_field_value`). -/
def setFieldValue (ld : Logdata) (key : CStr) (value : NxValue) : Res Logdata :=
  match getField ld key with
  | some f =>
    if key = rawEvent then
      if value.defined = TRUE ∧ value.type = .string then do
        valueFree f.value
        return { ld with raw_event := strPtr value, fields := putValue key value ld.fields }
      else do
        valueFree value
        if value.type ≠ .string then do
          let ty ← valueTypeToString value.type
          Res.throw ("'raw_event' cannot be set to " ++ ty ++ " type.")
        else Res.throw "'raw_event' cannot be set to an undefined value."
    else do
      valueFree f.value
      return { ld with fields := putValue key value ld.fields }
  | none => .ok (ld.appendFieldValue key value)

/-- mirrors common/logdata.c:203-236 (`nx_logdata_set_field`); `addr` is the
string that replaces `raw_event` when the new value is not a defined STRING. -/
def setField (ld : Logdata) (setfield : Field) (addr : Nat) : Res Logdata :=
  match getField ld setfield.key with
  | some f => do
    valueFree f.value
    let fields := putValue setfield.key setfield.value ld.fields
    if f.key = rawEvent then
      if setfield.value.defined = TRUE ∧ setfield.value.type = .string then
        return { ld with raw_event := strPtr setfield.value, fields }
      else return ⟨some addr, fields, ⟨addr, []⟩ :: ld.detached⟩
    else return { ld with fields }
  | none => .ok { ld with fields := ld.fields ++ [setfield] }

/-- mirrors common/logdata.c:241-292 (`nx_logdata_rename_field`). The unlinked
destination field is not freed. -/
def renameField (ld : Logdata) (old new : CStr) : Res Logdata :=
  if old = rawEvent then Res.throw "cannot rename field 'raw_event'"
  else
    match getField ld old with
    | none => .ok ld
    | some f =>
      -- `exists`: another field that already has the new name
      if (getField ld new).isSome ∧ ¬ strcasecmp old new then
        let fields := updateFirst (named old) (fun f => ⟨new, f.value⟩) (ld.fields.eraseP (named new))
        if new = rawEvent then
          if f.value.type ≠ .string then Res.throw "string type required for 'raw_event'"
          else .ok { ld with raw_event := strPtr f.value, fields }
        else .ok { ld with fields }
      else .ok { ld with fields := updateFirst (named old) (fun f => ⟨new, f.value⟩) ld.fields }

/-- The string object `addr`, if it still exists. -/
def deref (ld : Logdata) (addr : Nat) : Option NxString :=
  (ld.fields.filterMap (·.value.string?) ++ ld.detached).find? (decide <| ·.addr = addr)

/-- Overwrite the string object `addr` where a value owns it. -/
def setStringIn (addr : Nat) (buf : Bytes) (v : NxValue) : NxValue :=
  match v.string? with
  | some s => if s.addr = addr then ⟨v.defined, .string (some ⟨addr, buf⟩)⟩ else v
  | none => v

/-- `nx_string_set` on the object `addr`. -/
def setString (ld : Logdata) (addr : Nat) (buf : Bytes) : Logdata :=
  { ld with
    fields := ld.fields.map fun f => ⟨f.key, setStringIn addr buf f.value⟩
    detached := ld.detached.map fun s => if s.addr = addr then ⟨addr, buf⟩ else s }

/-- The length of `nx_string_append`: `strlen` for a negative one. -/
def appendLen (src : Bytes) (srclen : Int) : Res Nat :=
  if srclen < 0 then strlen src else .ok srclen.toNat

/-- mirrors common/str.c:242-281 (`nx_string_append`) on the contents: what goes
over the limit is cut off. `ensure_size` is asked for the limit at most, so it
does not throw. -/
def stringAppend (dst src : Bytes) (srclen : Int) : Res Bytes := do
  let n ← appendLen src srclen
  if n = 0 then return dst
  else if dst.length + n + 1 > stringLimit then
    if dst.length < stringLimit - 1 then do
      let bs ← rdBytes src 0 (stringLimit - 1 - dst.length)
      return dst ++ bs
    else return dst
  else do
    let bs ← rdBytes src 0 n
    return dst ++ bs

/-- mirrors common/logdata.c:91-100 (`nx_logdata_append_logline`). -/
def logdataAppendLogline (ld : Logdata) (ptr : Bytes) (len : Int) : Res Logdata :=
  match ld.raw_event with
  | none => .error (.assert "logdata->raw_event != NULL")
  | some addr =>
    match deref ld addr with
    | none => Res.fault
    | some s => do
      let buf ← stringAppend s.buf ptr len
      return setString ld addr buf

/-- mirrors common/logdata.c:345-380 (`nx_logdata_delete_field`). -/
def deleteField (ld : Logdata) (key : CStr) : Res (Bool × Logdata) :=
  match ld.fields.find? (spelled key) with
  | none => .ok (false, ld)
  | some f =>
    if f.key = rawEvent then do
      Res.assert (f.value.defined = TRUE ∧ f.value.type = .string)
        "(field->value->defined == TRUE) && (field->value->type == NX_VALUE_TYPE_STRING)"
      match ld.raw_event with
      | none => .error (.assert "logdata->raw_event != NULL")
      | some addr =>
        match deref ld addr with
        | none => Res.fault
        | some s => if s.buf.length = 0 then return (false, ld) else return (true, setString ld addr [])
    else do
      valueFree f.value
      return (true, { ld with fields := ld.fields.eraseP (spelled key) })

/-- `while ( nx_logdata_delete_field(...) == TRUE );` -/
def deleteLoop (key : CStr) : Nat → Logdata → Res Logdata
  | 0, _ => Res.hang
  | fuel + 1, ld => do
    let (again, ld) ← deleteField ld key
    if again then deleteLoop key fuel ld else return ld

/-- mirrors common/expr-core-funcproc-cb.c:1062-1087 (`nx_expr_proc__delete`)
for a field argument. Every turn but the last removes a field or empties
`raw_event` (`procDelete_ne_hang`). -/
def procDelete (ld : Logdata) (key : CStr) : Res Logdata := do
  let ld ← deleteLoop key (ld.fields.length + 2) ld
  if key = rawEvent then return { ld with raw_event := none } else return ld

/-- The loop of `nx_logdata_clone`; the string of the field number `n` gets the
name `base + n`. -/
def cloneFields (base : Nat) (raw : Option Nat) : List Field → Logdata → Res Logdata
  | [], new => .ok new
  | f :: fs, new => do
    let value ← valueClone (base + new.fields.length) f.value
    let new := new.appendFieldValue f.key value
    if f.value.type = .string ∧ f.value.defined = TRUE ∧ strPtr f.value = raw then
      cloneFields base raw fs { new with raw_event := strPtr value }
    else cloneFields base raw fs new

/-- mirrors common/logdata.c:102-129 (`nx_logdata_clone`). -/
def logdataClone (base : Nat) (ld : Logdata) : Res Logdata := do
  let new ← cloneFields base ld.raw_event ld.fields ⟨none, [], []⟩
  Res.assert new.raw_event.isSome "new->raw_event != NULL"
  return new

/-! ## What each operation does -/

@[simp] theorem named_iff : named key f = true ↔ strcasecmp f.key key := by
  simp [named]

@[simp] theorem spelled_iff : spelled key f = true ↔ f.key = key := by
  simp [spelled]

theorem valueFree_not_throw {v : NxValue} : valueFree v ≠ Res.throw m := by
  unfold valueFree
  split
  · split <;> exact fun h => by cases h
  · exact fun h => by cases h

theorem setFieldValue_cases (h : setFieldValue ld key w = .ok ld') : ld'.detached = ld.detached ∧
    ((getField ld key = none ∧ ld' = ld.appendFieldValue key w) ∨
    ((getField ld key).isSome ∧ ld'.fields = putValue key w ld.fields ∧
      (key = rawEvent ∧ w.defined = TRUE ∧ w.type = .string ∧ ld'.raw_event = strPtr w ∨
        key ≠ rawEvent ∧ ld'.raw_event = ld.raw_event))) := by
  unfold setFieldValue at h
  cases hg : getField ld key with
  | none =>
    rw [hg] at h
    cases h
    exact ⟨rfl, .inl ⟨rfl, rfl⟩⟩
  | some f =>
    rw [hg] at h
    by_cases hk : key = rawEvent
    · simp only [if_pos hk] at h
      by_cases hd : w.defined = TRUE ∧ w.type = .string
      · rw [if_pos hd] at h
        obtain ⟨_, -, h⟩ := bind_eq_ok.mp h
        cases h
        exact ⟨rfl, .inr ⟨rfl, rfl, .inl ⟨hk, hd.1, hd.2, rfl⟩⟩⟩
      · rw [if_neg hd] at h
        obtain ⟨_, -, h⟩ := bind_eq_ok.mp h
        split at h
        · obtain ⟨_, -, h⟩ := bind_eq_ok.mp h
          cases h
        · cases h
    · simp only [if_neg hk] at h
      obtain ⟨_, -, h⟩ := bind_eq_ok.mp h
      cases h
      exact ⟨rfl, .inr ⟨rfl, rfl, .inr ⟨hk, rfl⟩⟩⟩

theorem setFieldValue_throw (h : setFieldValue ld key w = Res.throw m) : key = rawEvent := by
  unfold setFieldValue at h
  by_contra hk
  split at h
  · rw [if_neg hk] at h
    rcases bind_eq_error.mp h with h | ⟨_, -, h⟩
    · exact valueFree_not_throw h
    · cases h
  · cases h

theorem setField_cases
    (h : setField ld ⟨key, w⟩ addr = .ok ld') :
    (getField ld key = none ∧ ld' = ld.appendFieldValue key w) ∨
    ∃ f, getField ld key = some f ∧ ld'.fields = putValue key w ld.fields ∧
      (f.key = rawEvent ∧ w.defined = TRUE ∧ w.type = .string ∧ ld'.raw_event = strPtr w ∨
        f.key = rawEvent ∧ ¬ (w.defined = TRUE ∧ w.type = .string) ∨
        f.key ≠ rawEvent ∧ ld'.raw_event = ld.raw_event) := by
  unfold setField at h
  cases hg : getField ld key with
  | none =>
    rw [hg] at h
    cases h
    exact .inl ⟨rfl, rfl⟩
  | some f =>
    rw [hg] at h
    obtain ⟨_, -, h⟩ := bind_eq_ok.mp h
    refine .inr ⟨f, rfl, ?_⟩
    by_cases hk : f.key = rawEvent
    · simp only [if_pos hk] at h
      by_cases hd : w.defined = TRUE ∧ w.type = .string
      · rw [if_pos hd] at h
        cases h
        exact ⟨rfl, .inl ⟨hk, hd.1, hd.2, rfl⟩⟩
      · rw [if_neg hd] at h
        cases h
        exact ⟨rfl, .inr (.inl ⟨hk, hd⟩)⟩
    · simp only [if_neg hk] at h
      cases h
      exact ⟨rfl, .inr (.inr ⟨hk, rfl⟩)⟩

theorem setField_not_throw : setField ld f addr ≠ Res.throw m := by
  intro h
  unfold setField at h
  split at h
  · rcases bind_eq_error.mp h with h | ⟨_, -, h⟩
    · exact valueFree_not_throw h
    · dsimp only at h
      split at h
      · split at h <;> cases h
      · cases h
  · cases h

def renamed (ld : Logdata) (old new : CStr) : List Field :=
  updateFirst (named old) (fun f => ⟨new, f.value⟩)
    (if (getField ld new).isSome ∧ ¬ strcasecmp old new then ld.fields.eraseP (named new) else ld.fields)

theorem renameField_cases {old new : CStr} (h : renameField ld old new = .ok ld') :
    old ≠ rawEvent ∧
    ((getField ld old = none ∧ ld' = ld) ∨
     ∃ f, getField ld old = some f ∧ ld'.fields = renamed ld old new ∧
      (new = rawEvent ∧ (getField ld new).isSome ∧ ¬ strcasecmp old new ∧ f.value.type = .string ∧
          ld'.raw_event = strPtr f.value ∨
        ¬ (new = rawEvent ∧ (getField ld new).isSome ∧ ¬ strcasecmp old new) ∧
        ld'.raw_event = ld.raw_event)) := by
  unfold renameField at h
  by_cases ho : old = rawEvent
  · rw [if_pos ho] at h; cases h
  rw [if_neg ho] at h
  refine ⟨ho, ?_⟩
  cases hg : getField ld old with
  | none =>
    rw [hg] at h
    cases h
    exact .inl ⟨rfl, rfl⟩
  | some f =>
    rw [hg] at h
    refine .inr ⟨f, rfl, ?_⟩
    unfold renamed
    by_cases he : (getField ld new).isSome ∧ ¬ strcasecmp old new
    · simp only [if_pos he] at h ⊢
      by_cases hn : new = rawEvent
      · rw [if_pos hn] at h
        split at h
        · cases h
        · rename_i ht
          cases h
          exact ⟨rfl, .inl ⟨hn, he.1, he.2, not_not.mp ht, rfl⟩⟩
      · rw [if_neg hn] at h
        cases h
        exact ⟨rfl, .inr ⟨fun hc => hn hc.1, rfl⟩⟩
    · simp only [if_neg he] at h ⊢
      cases h
      exact ⟨rfl, .inr ⟨fun hc => he hc.2, rfl⟩⟩

theorem renameField_throw {old new : CStr} (h : renameField ld old new = Res.throw m) (ho : old ≠ rawEvent) :
    ∃ f, getField ld old = some f ∧ new = rawEvent ∧ ¬ strcasecmp old new ∧ f.value.type ≠ .string := by
  unfold renameField at h
  rw [if_neg ho] at h
  cases hg : getField ld old with
  | none => rw [hg] at h; cases h
  | some f =>
    rw [hg] at h
    by_cases he : (getField ld new).isSome ∧ ¬ strcasecmp old new
    · simp only [if_pos he] at h
      by_cases hn : new = rawEvent
      · rw [if_pos hn] at h
        split at h
        · exact ⟨f, rfl, hn, he.2, ‹_›⟩
        · cases h
      · rw [if_neg hn] at h; cases h
    · simp only [if_neg he] at h
      cases h

theorem deleteField_cases {b : Bool} (h : deleteField ld key = .ok (b, ld')) :
    (b = false ∧ ld' = ld ∧ (key = rawEvent ∨ ∀ f ∈ ld.fields, f.key ≠ key)) ∨
    (b = true ∧ key = rawEvent ∧ ∃ addr, ld' = setString ld addr []) ∨
    (b = true ∧ key ≠ rawEvent ∧ (∃ f ∈ ld.fields, f.key = key) ∧
      ld' = { ld with fields := ld.fields.eraseP (spelled key) }) := by
  unfold deleteField at h
  cases hg : ld.fields.find? (spelled key) with
  | none =>
    rw [hg] at h
    cases h
    refine .inl ⟨rfl, rfl, .inr ?_⟩
    intro f hf hk
    have := find?_eq_none.mp hg f hf
    exact this (spelled_iff.mpr hk)
  | some f =>
    rw [hg] at h
    have hk : f.key = key := spelled_iff.mp (find?_some hg)
    by_cases hr : f.key = rawEvent
    · simp only [if_pos hr] at h
      obtain ⟨_, -, h⟩ := bind_eq_ok.mp h
      have hkey : key = rawEvent := hk.symm.trans hr
      split at h
      · cases h
      split at h
      · cases h
      split at h
      · cases h
        exact .inl ⟨rfl, rfl, .inl hkey⟩
      · rename_i addr _ _ _ _ _
        cases h
        exact .inr (.inl ⟨rfl, hkey, addr, rfl⟩)
    · simp only [if_neg hr] at h
      obtain ⟨_, -, h⟩ := bind_eq_ok.mp h
      cases h
      exact .inr (.inr ⟨rfl, fun hc => hr (hk.trans hc), ⟨f, mem_of_find?_eq_some hg, hk⟩, rfl⟩)

theorem deleteField_error {e : Fail} (h : deleteField ld key = .error e) : e = .fault ∨ ∃ expr,
    e = .assert expr := by
  unfold deleteField at h
  split at h
  · cases h
  split at h
  · rcases bind_eq_error.mp h with h | ⟨_, -, h⟩
    · unfold Res.assert at h
      split at h <;> cases h
      exact .inr ⟨_, rfl⟩
    · split at h
      · cases h
        exact .inr ⟨_, rfl⟩
      · split at h
        · cases h
          exact .inl rfl
        · split at h <;> cases h
  · rcases bind_eq_error.mp h with h | ⟨_, -, h⟩
    · unfold valueFree at h
      split at h
      · split at h <;> cases h <;> exact .inr ⟨_, rfl⟩
      · cases h
    · cases h

theorem deleteField_not_throw : deleteField ld key ≠ Res.throw m := fun h => by simpa using deleteField_error h

theorem deleteField_ne_hang : deleteField ld key ≠ Res.hang := fun h => by simpa using deleteField_error h

theorem stringClone_eq (h : stringClone addr s = .ok t) : ∃ len, len < stringLimit ∧
    t = ⟨addr, s.buf.take len⟩ := by
  unfold stringClone at h
  dsimp only at h
  generalize (if s.buf.length > stringLimit then stringLimit - 1 else s.buf.length) = len at h
  split at h
  · cases h
  · next hlen =>
    cases h
    exact ⟨_, by omega, rfl⟩

theorem cloneFields_append (base : Nat) (raw : Option Nat) (gs : List Field) (fs : List Field)
    (new : Logdata) :
    cloneFields base raw (fs ++ gs) new = cloneFields base raw fs new >>= cloneFields base raw gs := by
  induction fs generalizing new with
  | nil => rfl
  | cons f fs ih =>
    simp only [cons_append, cloneFields]
    cases valueClone (base + new.fields.length) f.value with
    | error e => rfl
    | ok w =>
      simp only [ok_bind]
      split
      · exact ih _
      · exact ih _

/-- The fields already cloned stay, and so does the pointer unless the loop meets
the string it is at. -/
theorem cloneFields_frame {base : Nat} {raw : Option Nat} (fs : List Field) (new new' : Logdata)
    (h : cloneFields base raw fs new = .ok new') :
    (∀ f ∈ new.fields, f ∈ new'.fields) ∧ ((∀ f ∈ fs, ¬ (f.value.type = .string ∧ f.value.defined = TRUE ∧
      strPtr f.value = raw)) → new'.raw_event = new.raw_event) := by
  induction fs generalizing new new' with
  | nil =>
    cases h
    exact ⟨fun f hf => hf, fun _ => rfl⟩
  | cons f fs ih =>
    obtain ⟨w, -, h⟩ := bind_eq_ok.mp h
    by_cases hc : f.value.type = .string ∧ f.value.defined = TRUE ∧ strPtr f.value = raw
    · simp only [if_pos hc] at h
      obtain ⟨h1, -⟩ := ih _ new' h
      exact ⟨fun g hg => h1 g (mem_append_left _ hg), fun hno => absurd hc (hno f mem_cons_self)⟩
    · simp only [if_neg hc] at h
      obtain ⟨h1, h2⟩ := ih _ new' h
      exact ⟨fun g hg => h1 g (mem_append_left _ hg),
        fun hno => h2 (forall_mem_cons.mp hno).2⟩

theorem stringClone_ok (addr : Nat) {s : NxString} (h : s.buf.length < stringLimit) :
    stringClone addr s = .ok ⟨addr, s.buf⟩ := by
  rw [stringClone, if_neg (show ¬ s.buf.length > stringLimit by omega), if_neg (by omega), take_length]

theorem stringClone_full (addr : Nat) {s : NxString} (h : s.buf.length = stringLimit) :
    stringClone addr s = Res.throw "oversized string, limit is 1048576 bytes" := by
  rw [stringClone, h, if_neg (Nat.lt_irrefl _), if_pos (Nat.lt_succ_self _)]

/-- A string longer than the limit is cut below it; only one that fills the limit cannot be
cloned. -/
theorem stringClone_returns_iff (addr : Nat) (s : NxString) :
    (∃ t, stringClone addr s = .ok t ∧
      t.buf = if s.buf.length ≤ stringLimit then s.buf else s.buf.take (stringLimit - 1)) ↔
        s.buf.length ≠ stringLimit := by
  have hpos : 0 < stringLimit := by decide
  rcases Nat.lt_trichotomy s.buf.length stringLimit with h | h | h
  · exact iff_of_true ⟨_, stringClone_ok addr h, (if_pos h.le).symm⟩ h.ne
  · refine iff_of_false ?_ (not_not_intro h)
    rintro ⟨t, ht, -⟩
    rw [stringClone_full addr h] at ht
    cases ht
  · refine iff_of_true ⟨⟨addr, s.buf.take (stringLimit - 1)⟩, ?_, (if_neg (by omega)).symm⟩ h.ne'
    rw [stringClone, if_pos h, if_neg (by omega)]

theorem created_string_not_cloned :
    ∃ s, stringCreate 0 (replicate stringLimit 65) stringLimit = .ok s ∧
      stringClone 1 s = Res.throw "oversized string, limit is 1048576 bytes" := by
  refine ⟨_, stringCreate_ok (Nat.le_refl _) (by rw [length_replicate]), stringClone_full 1 ?_⟩
  rw [length_take, length_replicate, Nat.min_self]

end Nxlog.L2
