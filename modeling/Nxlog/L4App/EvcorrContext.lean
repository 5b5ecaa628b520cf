import Nxlog.L1Encoding.ValueCodec
import Nxlog.L4App.Evcorr

/-!
# The contexts of a rule

`get_context_hashval` looks the data of an event up by the bytes of the Context's value, without its
type. So values of different types can have one key: an integer and a datetime with the same number,
a string of 8 bytes and an integer or a datetime, a string of 4 bytes and a boolean or an IPv4
address, a string of 16 bytes and an IPv6 address, a boolean and an IPv4 address. For the other
types (regexp, binary) there is no key at all: `nx_value_to_string` fills `keydupe`, and
`apr_hash_get` gets the `key` that is still `NULL`.

* `process_touches`: a rule reads and changes only the data of the event's slot.
* `image_eq_iff`: which values have one key.
* `contexts_isolated`: events share data exactly if their Context has one value, unless the values
  clash.
-/
namespace Nxlog.L4.Evcorr

open L1

/-! ## What a rule touches -/

section Touches

variable {ω κ α : Type}

def Rule.context : Rule ω κ → Option (ω → ContextKey κ)
  | .suppressed conf _ => conf.context
  | .pair conf _ => conf.context
  | .absence conf _ => conf.context
  | .thresholded conf _ => conf.context
  | _ => none

def Rule.blank : Rule ω κ → Rule ω κ
  | .suppressed conf _ => .suppressed conf .fresh
  | .pair conf _ => .pair conf .fresh
  | .absence conf _ => .absence conf .fresh
  | .thresholded conf _ => .thresholded conf .fresh
  | rule => rule

/-- The data of one context, for each kind of rule. -/
inductive RuleData where
  | none
  | matched (time : Int)
  | absence (data : AbsenceData)
  | thresholded (m : Matches)

def Rule.data (slot : Option κ) : Rule ω κ → RuleData
  | .suppressed _ data => .matched (data.value slot)
  | .pair _ data => .matched (data.value slot)
  | .absence _ data => .absence (data.value slot)
  | .thresholded _ data => .thresholded (data.value slot)
  | _ => .none

/-- An event reads and changes no data but those of its slot. -/
structure Touches [DecidableEq κ] (rule : Rule ω κ) (world : ω) (slot : Option κ) : Prop where
  changes : ∀ t p, rule.process t world = .ok p →
    p.1.blank = rule.blank ∧ ∀ slot', slot' ≠ slot → p.1.data slot' = rule.data slot'
  reads : ∀ t (other : Rule ω κ), other.blank = rule.blank → other.data slot = rule.data slot →
    (other.process t world).map (fun p => (p.1.data slot, p.2)) =
    (rule.process t world).map fun p => (p.1.data slot, p.2)

variable [Inhabited α] [DecidableEq κ]

omit [Inhabited α] in
def SameRest {β : Type} (R : α → α → Prop) (x y : α × β) : Prop := R x.1 y.1 ∧ x.2 = y.2

/-- Data of which only those of a slot are looked at and changed. -/
structure AtSlot (slot : Option κ) (proc : Store κ α → Res (Outcome (Store κ α) ω)) : Prop where
  changes : ∀ s r, proc s = .ok r → ∀ slot', slot' ≠ slot → r.1.value slot' = s.value slot'
  reads : ∀ s s', s'.value slot = s.value slot →
    Res.Agree (SameRest fun d d' => d.value slot = d'.value slot) (proc s') (proc s)

variable {world : ω} {slot : Option κ}

theorem atSlot_at {context : Option (ω → ContextKey κ)}
    (hslot : contextSlot context world = .ok slot) (f : α → Res (Outcome α ω)) :
    AtSlot slot fun s => atSlot context s world f := by
  constructor
  · intro s r h slot' hne
    simp only [atSlot, hslot] at h
    obtain ⟨r', -, hret⟩ := Res.bind_eq_ok.mp h
    cases hret
    exact (Store.value_put s slot slot' _).trans (if_neg hne)
  · intro s s' hvalue
    simp only [atSlot, hslot, hvalue]
    cases f (s.value slot) with
    | error e => exact .error e
    | ok r => exact .ok ⟨by simp [Store.value_put], rfl⟩

omit [DecidableEq κ] in
theorem at_of_pure (slot : Option κ) (rest : ω × Bool × Ended) :
    AtSlot slot fun s : Store κ α => .ok (s, rest) := by
  constructor
  · intro s r h slot' _
    cases h
    rfl
  · intro s s' hvalue
    exact .ok ⟨hvalue, rfl⟩

/-- A rule is such data in a configuration. -/
theorem touches_of_at (wrap : Store κ α → Rule ω κ) (toData : α → RuleData)
    {proc : Int → Store κ α → Res (Outcome (Store κ α) ω)}
    (hprocess : ∀ t s, (wrap s).process t world = proc t s >>= fun r => .ok (wrap r.1, r.2))
    (hinj : ∀ a b, toData a = toData b → a = b) (hproc : ∀ t, AtSlot slot (proc t)) (s : Store κ α)
    (hblank : ∀ s s', (wrap s).blank = (wrap s').blank := by exact fun _ _ => rfl)
    (hdata : ∀ s slot, (wrap s).data slot = toData (s.value slot) := by exact fun _ _ => rfl)
    (hother : ∀ s (other : Rule ω κ), other.blank = (wrap s).blank → ∃ s', other = wrap s' := by
      intro s other h; cases other <;> cases h; exact ⟨_, rfl⟩) : Touches (wrap s) world slot := by
  constructor
  · intro t p h
    rw [hprocess] at h
    obtain ⟨r, hr, hret⟩ := Res.bind_eq_ok.mp h
    cases hret
    refine ⟨hblank _ _, fun slot' hne => ?_⟩
    rw [hdata, hdata, (hproc t).changes s r hr slot' hne]
  · intro t other hconf hvalue
    obtain ⟨s', rfl⟩ := hother s other hconf
    rw [hdata, hdata] at hvalue
    rw [hprocess, hprocess]
    refine Res.Agree.map_eq (((hproc t).reads s s' (hinj _ _ hvalue)).bind (S := fun p q =>
      p.1.data slot = q.1.data slot ∧ p.2 = q.2) ?_) ?_
    · rintro ⟨d, rest⟩ ⟨d', rest'⟩ ⟨hd, hrest⟩
      cases hrest
      refine .ok ⟨?_, rfl⟩
      rw [hdata, hdata, hd]
    · rintro p q ⟨hd, hrest⟩
      rw [hd, hrest]

/-- **What a rule touches**: the data of the slot that `get_context_hashval` gives it. -/
theorem process_touches (rule : Rule ω κ) (hslot : contextSlot rule.context world = .ok slot) :
    Touches rule world slot := by
  cases rule with
  | suppressed conf data =>
    refine touches_of_at (.suppressed conf) .matched (fun t s => rfl)
      (fun _ _ h => RuleData.matched.inj h) (fun t => ?_) data
    unfold processSuppressed
    cases conf.cond world with
    | yes => exact atSlot_at hslot _
    | no | raises => exact at_of_pure slot _
  | pair conf data =>
    exact touches_of_at (.pair conf) .matched (fun t s => rfl)
      (fun _ _ h => RuleData.matched.inj h) (fun t => atSlot_at hslot _) data
  | absence conf data =>
    exact touches_of_at (.absence conf) .absence (fun t s => rfl)
      (fun _ _ h => RuleData.absence.inj h) (fun t => atSlot_at hslot _) data
  | thresholded conf data =>
    exact touches_of_at (.thresholded conf) .thresholded (fun t s => rfl)
      (fun _ _ h => RuleData.thresholded.inj h) (fun t => atSlot_at hslot _) data
  | simple exec =>
    constructor
    · intro t p h
      cases h
      exact ⟨rfl, fun _ _ => rfl⟩
    · intro t other h _
      cases other <;> cases h
      rfl
  | stop cond exec =>
    constructor
    · intro t p h
      obtain ⟨r, -, hret⟩ := Res.bind_eq_ok.mp h
      cases hret
      exact ⟨rfl, fun _ _ => rfl⟩
    · intro t other h _
      cases other <;> cases h
      rfl

end Touches

/-! ## Keys -/

/-- The memory whose bytes are the key, for the types that have one; a pointer to a string may be
`NULL`. -/
def image : Data → Option Bytes
  | .string s => s.map (·.buf)
  | .integer i => some (le64 i)
  | .datetime t => some (le64 t)
  | .boolean b => some (leBytes 4 b.toNat)
  | .ip4addr a => some a.1
  | .ip6addr a => some a.1
  | _ => none

/-- mirrors processor/evcorr/pm_evcorr.c:62-101 (`get_context_hashval`): the key for the value of a
Context. -/
def contextKey (v : NxValue) : ContextKey Bytes :=
  if v.defined = TRUE then
    match image v.data with
    | some key => .key key
    | none => .other
  else .undefined

/-- The value of a Context, with its type; undefined is one value. -/
def contextValue (v : NxValue) : Option Data := if v.defined = TRUE then some v.data.content else none

/-- The types that `get_context_hashval` has a key for. -/
def Keyed : Data → Prop
  | .string s => s.isSome
  | .integer _ | .datetime _ | .boolean _ | .ip4addr _ | .ip6addr _ => True
  | _ => False

/-- Values of two types with the same bytes. -/
def Clash : Data → Data → Prop
  | .string (some s), .integer i => s.buf = le64 i
  | .string (some s), .datetime t => s.buf = le64 t
  | .string (some s), .boolean b => s.buf = leBytes 4 b.toNat
  | .string (some s), .ip4addr a => s.buf = a.1
  | .string (some s), .ip6addr a => s.buf = a.1
  | .integer i, .datetime t => i = t
  | .boolean b, .ip4addr a => leBytes 4 b.toNat = a.1
  | _, _ => False

theorem image_isSome_iff (d : Data) : (image d).isSome ↔ Keyed d := by
  cases d <;> simp [image, Keyed]

theorem leBytes_inj {k m n : Nat} (hm : m < 256 ^ k) (hn : n < 256 ^ k) : leBytes k m = leBytes k n ↔ m = n :=
  ⟨fun h => by rw [← leNat_leBytes_of_lt hm, h, leNat_leBytes_of_lt hn], congrArg _⟩

theorem le64_inj {i j : Int64} : le64 i = le64 j ↔ i = j := by
  rw [le64, le64, leBytes_inj i.toUInt64.toNat_lt j.toUInt64.toNat_lt, UInt64.toNat_inj]
  exact ⟨fun h => by rw [← Int64.toInt64_toUInt64 i, h, Int64.toInt64_toUInt64], congrArg _⟩

theorem leBytes_bool_inj {a b : CBool} : leBytes 4 a.toNat = leBytes 4 b.toNat ↔ a = b := by
  rw [leBytes_inj a.toNat_lt b.toNat_lt, UInt32.toNat_inj]

/-- A string has the key of the same string, and of what clashes with it. -/
theorem image_string_iff (s : NxString) {e : Data} (he : Keyed e) :
    some s.buf = image e ↔ (Data.string (some s)).content = e.content ∨ Clash (.string (some s)) e := by
  cases e with
  | string s' =>
    obtain ⟨s', rfl⟩ := Option.isSome_iff_exists.mp he
    simp [image, Clash, Data.content]
  | _ => first | exact he.elim | simp [image, Clash, Data.content]

theorem not_clash_string (d : Data) (s : Option NxString) : ¬ Clash d (.string s) := by
  cases d with
  | string s' => cases s' <;> exact id
  | _ => exact id

/-- Values have one key if they are the same, or clash. -/
theorem image_eq_iff {d e : Data} (hd : Keyed d) (he : Keyed e) :
    image d = image e ↔ d.content = e.content ∨ Clash d e ∨ Clash e d := by
  -- keys of different lengths
  have h84 : ∀ i n, le64 i ≠ leBytes 4 n := fun i n => ne_of_apply_ne List.length (by simp [le64])
  have h84' : ∀ i (a : Octets 4), le64 i ≠ a.1 := fun i a => ne_of_apply_ne List.length (by simp [le64, a.2])
  have h816 : ∀ i (a : Octets 16), le64 i ≠ a.1 := fun i a => ne_of_apply_ne List.length (by simp [le64, a.2])
  have h416 : ∀ n (a : Octets 16), leBytes 4 n ≠ a.1 := fun n a => ne_of_apply_ne List.length (by simp [a.2])
  have h416' : ∀ (a : Octets 4) (b : Octets 16), a.1 ≠ b.1 := fun a b =>
    ne_of_apply_ne List.length (by simp [a.2, b.2])
  cases e with
  | string s =>
    obtain ⟨s, rfl⟩ := Option.isSome_iff_exists.mp he
    have hnot := not_clash_string d (some s)
    rw [eq_comm, eq_comm (a := d.content), or_iff_right hnot]
    exact image_string_iff s hd
  | _ =>
    cases d with
    | string s =>
      obtain ⟨s, rfl⟩ := Option.isSome_iff_exists.mp hd
      exact (image_string_iff s he).trans (by simp [not_clash_string])
    | integer i => first | exact he.elim | simp [image, Clash, Data.content, le64_inj, h84, h84', h816]
    | datetime t => first
      | exact he.elim
      | (simp [image, Clash, Data.content, le64_inj, h84, h84', h816]; done)
      | simp [image, Clash, Data.content, le64_inj, eq_comm]
    | boolean b => first
      | exact he.elim
      | simp [image, Clash, Data.content, leBytes_bool_inj, (h84 _ _).symm, h416]
    | ip4addr a => first
      | exact he.elim
      | (simp [image, Clash, Data.content, Subtype.ext_iff, (h84' _ _).symm, h416']; done)
      | simp [image, Clash, Data.content, eq_comm]
    | ip6addr a => first
      | exact he.elim
      | simp [image, Clash, Data.content, Subtype.ext_iff, (h816 _ _).symm, (h416 _ _).symm, (h416' _ _).symm]
    | _ => exact hd.elim

theorem clash_content {d e : Data} (h : Clash d e) : d.content ≠ e.content := by
  unfold Clash at h
  split at h <;> first | exact h.elim | simp [Data.content]

/-! ## Isolation -/

section Isolation

variable {ω : Type}

/-- The slot of an event is the key of its value, and for an undefined one the data without a
context. -/
theorem contextSlot_iff (expr : ω → NxValue) (world : ω) (slot : Option Bytes) :
    contextSlot (some fun w => contextKey (expr w)) world = .ok slot ↔
      if (expr world).defined = TRUE then Keyed (expr world).data ∧
      slot = image (expr world).data else slot = none := by
  unfold contextSlot contextKey
  by_cases hdef : (expr world).defined = TRUE
  · have hkeyed := image_isSome_iff (expr world).data
    cases hkey : image (expr world).data with
    | none =>
      simp [hdef, hkey, ← hkeyed, Res.fault]
    | some key =>
      simp [hdef, hkey, ← hkeyed, eq_comm]
  · simp [hdef, eq_comm]

/-- Two events have data of their own exactly if the values of the Context differ, and nothing else
is looked at. -/
def Isolated (rule : Rule ω Bytes) (expr : ω → NxValue) (w w' : ω) : Prop :=
  ∃ slot slot', contextSlot rule.context w = .ok slot ∧ contextSlot rule.context w' = .ok slot' ∧
    Touches rule w slot ∧ Touches rule w' slot' ∧
    (slot = slot' ↔ contextValue (expr w) = contextValue (expr w'))

def Apart (v v' : NxValue) : Prop :=
  (v.defined = TRUE → Keyed v.data) ∧ (v'.defined = TRUE → Keyed v'.data) ∧
    (v.defined = TRUE → v'.defined = TRUE → ¬ Clash v.data v'.data ∧ ¬ Clash v'.data v.data)

/-- **Contexts are isolated**, for every rule and every two events, if the values of the Context
have a key and no two different ones have the same. -/
theorem contexts_isolated (rule : Rule ω Bytes) (expr : ω → NxValue)
    (hcontext : rule.context = some fun w => contextKey (expr w)) (w w' : ω) :
    Isolated rule expr w w' ↔ Apart (expr w) (expr w') := by
  have hslot : ∀ w slot, contextSlot rule.context w = .ok slot ↔ _ := fun w slot =>
    (Eq.congr_left (congrArg (contextSlot · w) hcontext)).trans (contextSlot_iff expr w slot)
  constructor
  · rintro ⟨slot, slot', h, h', -, -, hiff⟩
    rw [hslot] at h h'
    refine ⟨fun hdef => ?_, fun hdef => ?_, fun hdef hdef' => ?_⟩
    · rw [if_pos hdef] at h
      exact h.1
    · rw [if_pos hdef] at h'
      exact h'.1
    · rw [if_pos hdef] at h
      rw [if_pos hdef'] at h'
      rw [h.2, h'.2, image_eq_iff h.1 h'.1, contextValue, contextValue, if_pos hdef, if_pos hdef',
        Option.some_inj] at hiff
      exact ⟨fun hclash => clash_content hclash (hiff.mp (.inr (.inl hclash))),
        fun hclash => clash_content hclash (hiff.mp (.inr (.inr hclash))).symm⟩
  · rintro ⟨hv, hv', hclash⟩
    have hok : ∀ w, ((expr w).defined = TRUE → Keyed (expr w).data) →
        contextSlot rule.context w = .ok (if (expr w).defined = TRUE then image (expr w).data else none) := by
      intro w hkeyed
      rw [hslot]
      split
      · next hdef => exact ⟨hkeyed hdef, rfl⟩
      · rfl
    refine ⟨_, _, hok w hv, hok w' hv', process_touches rule (hok w hv), process_touches rule (hok w' hv'), ?_⟩
    unfold contextValue
    by_cases hdef : (expr w).defined = TRUE <;> by_cases hdef' : (expr w').defined = TRUE
    · have hnot := hclash hdef hdef'
      have himage := image_eq_iff (hv hdef) (hv' hdef')
      rw [if_pos hdef, if_pos hdef', if_pos hdef, if_pos hdef', himage, Option.some_inj]
      tauto
    · have hsome := Option.isSome_iff_ne_none.mp ((image_isSome_iff _).mpr (hv hdef))
      simp [hdef, hdef', hsome]
    · have hsome := Option.isSome_iff_ne_none.mp ((image_isSome_iff _).mpr (hv' hdef'))
      simp [hdef, hdef', hsome.symm]
    · simp [hdef, hdef']

/-- A Suppressed rule with the interval of a second, for events that are only the value of the
Context. -/
def sampleRule : Rule NxValue Bytes :=
  .suppressed ⟨fun _ => .yes, some contextKey, 1, fun w => (w, false)⟩ .fresh

theorem contexts_isolated_strings :
    Isolated sampleRule id ⟨TRUE, .string (some ⟨0, [65]⟩)⟩ ⟨TRUE, .string (some ⟨0, [66]⟩)⟩ :=
  (contexts_isolated sampleRule id rfl _ _).mpr ⟨fun _ => rfl, fun _ => rfl, fun _ _ => ⟨id, id⟩⟩

/-- The integer 1 and the datetime 1 are one context: an event with the one suppresses an event with
the other. An event with a binary value has no context, and `apr_hash_get` reads from `NULL`. -/
theorem number_and_date_share :
    contextValue ⟨TRUE, .integer 1⟩ ≠ contextValue ⟨TRUE, .datetime 1⟩ ∧
      (sampleRule.process 5 ⟨TRUE, .datetime 1⟩).map (·.2.2.1) = .ok true ∧
      (sampleRule.process 5 ⟨TRUE, .integer 1⟩ >>= fun p => p.1.process 5 ⟨TRUE, .datetime 1⟩).map
      (·.2.2.1) = .ok false ∧
      contextSlot sampleRule.context ⟨TRUE, .binary (some [1]) 1⟩ = Res.fault :=
  ⟨by decide, rfl, rfl, rfl⟩

end Isolation

end Nxlog.L4.Evcorr
