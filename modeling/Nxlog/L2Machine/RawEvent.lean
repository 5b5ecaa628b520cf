import Nxlog.Core.Run
import Nxlog.L2Machine.FieldList

/-!
# The `raw_event` pointer along runs of record operations

`logdata->raw_event` is meant to be the string of the field `raw_event`. A run
starts from `nx_logdata_new` or `nx_logdata_new_logline` and applies the record
operations in any order, with any names and values; `Op.clone` goes on with the
clone. An operation that throws leaves the record as it was, and its caller goes
on (`exec`).

* `StepOk`: what an operation must avoid, as a condition on the record before it.
* `raw_event_invariant`: the pointer is right in every state of a run exactly if
  every step of the run meets `StepOk`. The steps it leaves out are real: the
  pointer dangles after a value was set under another spelling of the name, and
  is `NULL` after `delete()`.
-/
namespace Nxlog.L2
open L1 Res List

/-! ## The machine -/

/-- A record, and the number of string objects named so far. -/
structure Store where
  ld : Logdata
  next : Nat
  deriving DecidableEq

inductive Op where
  | setFieldValue (key : CStr) (value : OwnedValue)
  | setField (key : CStr) (value : OwnedValue)
  | renameField (old new : CStr)
  | deleteField (key : CStr)
  | delete (key : CStr)
  | clone

def step (s : Store) : Op → Res Store
  | .setFieldValue key v => do
    let ld ← setFieldValue s.ld key (place s.next v.1)
    return ⟨ld, s.next + 1⟩
  | .setField key v => do
    let ld ← setField s.ld ⟨key, place s.next v.1⟩ (s.next + 1)
    return ⟨ld, s.next + 2⟩
  | .renameField old new => do
    let ld ← renameField s.ld old new
    return ⟨ld, s.next⟩
  | .deleteField key => do
    let (_, ld) ← deleteField s.ld key
    return ⟨ld, s.next⟩
  | .delete key => do
    let ld ← procDelete s.ld key
    return ⟨ld, s.next⟩
  | .clone => do
    let ld ← logdataClone s.next s.ld
    return ⟨ld, s.next + ld.fields.length⟩

/-- One operation of the run: an exception is the caller's, the record stays. -/
def exec (s : Store) (op : Op) : Res Store :=
  match step s op with
  | .error (.throw _) => .ok s
  | r => r

def Start (s : Store) : Prop :=
  s = ⟨logdataNew, 1⟩ ∨ ∃ ptr len ld, logdataNewLogline ptr len = .ok ld ∧ s = ⟨ld, 1⟩

/-- The field `raw_event`, in any spelling, is a defined STRING and the pointer
is its string; without such a field the pointer is `NULL`; it never points to an
object that is gone. -/
structure RawEventInv (ld : Logdata) : Prop where
  field : ∀ f ∈ ld.fields, strcasecmp f.key rawEvent →
    ∃ s, f.value.string? = some s ∧ ld.raw_event = some s.addr
  null : (∀ f ∈ ld.fields, ¬ strcasecmp f.key rawEvent) → ld.raw_event = none
  live : ∀ addr, ld.raw_event = some addr → (deref ld addr).isSome

/-- The operations that keep the pointer right:
setting a value under the exact name; replacing a field whose stored name is
exact by a defined STRING; renaming neither from another spelling of the name to
a different one, nor to a spelling other than the exact one, nor an undefined
STRING to it; deleting no field stored under another spelling; no `delete()` of
the field at all. -/
def StepOk (ld : Logdata) : Op → Prop
  | .setFieldValue key _ => strcasecmp key rawEvent → key = rawEvent
  | .setField key v => strcasecmp key rawEvent →
      (∀ f ∈ ld.fields, strcasecmp f.key rawEvent → f.key = rawEvent) ∧ v.1.string?.isSome
  | .renameField old new => old ≠ rawEvent →
      (strcasecmp old rawEvent → strcasecmp new rawEvent) ∧
      (strcasecmp new rawEvent → ¬ strcasecmp old rawEvent → ∀ f ∈ ld.fields, strcasecmp f.key old →
        new = rawEvent ∧ (f.value.type = .string → f.value.defined = TRUE))
  | .deleteField key => strcasecmp key rawEvent → key = rawEvent ∨ ∀ f ∈ ld.fields, f.key ≠ key
  | .delete key => key ≠ rawEvent ∧ (strcasecmp key rawEvent → ∀ f ∈ ld.fields, f.key ≠ key)
  | .clone => True

/-! ## Good states -/

def RawAt (ld : Logdata) : Prop :=
  ∃ f s, getField ld rawEvent = some f ∧ f.value.string? = some s ∧ ld.raw_event = some s.addr

def Good (s : Store) : Prop := FieldsWf s.next s.ld.fields ∧ RawAt s.ld

variable {s : Store} {ld' ld : Logdata} {key old new : CStr} {v : OwnedValue} {n : Nat}

theorem deref_isSome {f : Field} {s : NxString} (hf : f ∈ ld.fields)
    (hs : f.value.string? = some s) : (deref ld s.addr).isSome := by
  unfold deref
  rw [find?_isSome]
  refine ⟨s, mem_append_left _ (mem_filterMap.mpr ⟨f, hf, hs⟩), by simp⟩

theorem Good.inv (h : Good s) : RawEventInv s.ld := by
  obtain ⟨hw, f, t, hf, ht, hr⟩ := h
  obtain ⟨hmem, hname⟩ := getField_some hf
  constructor
  · intro g hg hn
    cases hf.symm.trans (getField_of_mem hw hg hn)
    exact ⟨t, ht, hr⟩
  · intro hno
    exact absurd hname (hno f hmem)
  · intro addr ha
    rw [hr] at ha
    cases ha
    exact deref_isSome hmem ht

theorem start_good (h : Start s) : Good s := by
  have key : ∀ t : NxString, t.addr = 0 →
      Good ⟨⟨some t.addr, [⟨rawEvent, ⟨TRUE, .string (some t)⟩⟩], []⟩, 1⟩ := by
    intro t ht
    refine ⟨⟨?_, pairwise_singleton _ _⟩, ⟨rawEvent, ⟨TRUE, .string (some t)⟩⟩, t, ?_, rfl, rfl⟩
    · intro f hf
      rw [mem_singleton.mp hf]
      refine ⟨?_, ?_⟩
      · intro u hu
        cases hu
        exact Nat.lt_of_le_of_lt (Nat.le_of_eq ht) Nat.one_pos
      · intro u hu
        cases hu
        simp
    · simp [getField, named]
  rcases h with rfl | ⟨ptr, len, ld, hld, rfl⟩
  · exact key ⟨0, []⟩ rfl
  unfold logdataNewLogline at hld
  obtain ⟨t, ht, hld⟩ := bind_eq_ok.mp hld
  cases hld
  apply key
  unfold loglineString at ht
  split at ht
  · cases ht; rfl
  · exact (stringCreate_length ht).1

/-! ## What each operation does -/

theorem exec_cases {s s' : Store} {op : Op} (h : exec s op = .ok s') :
    step s op = .ok s' ∨ (s' = s ∧ ∃ m, step s op = Res.throw m) := by
  unfold exec at h
  split at h
  · rename_i m hm
    cases h
    exact .inr ⟨rfl, m, hm⟩
  · exact .inl h

/-! ## Steps from good states -/

theorem RawAt.frame (h : RawAt ld) (hf : getField ld' rawEvent = getField ld rawEvent)
    (hr : ld'.raw_event = ld.raw_event) : RawAt ld' := by
  obtain ⟨f, s, h1, h2, h3⟩ := h
  exact ⟨f, s, hf.trans h1, h2, hr.trans h3⟩

/-- The operation met the condition and the record is good, or it did not and the pointer is
wrong. -/
def Verdict (ok : Prop) (s : Store) : Prop := ok ∧ Good s ∨ ¬ ok ∧ ¬ RawEventInv s.ld

theorem Verdict.good {ok : Prop} (h : Verdict ok s) (hok : ok) : Good s :=
  (h.resolve_right fun hno => hno.1 hok).2

theorem Verdict.back {ok : Prop} (h : Verdict ok s) (hinv : RawEventInv s.ld) : ok :=
  (h.resolve_right fun hno => hno.2 hinv).1

variable (hs : Good s)
include hs

/-- A value set under a name other than `raw_event`, or a defined STRING under it. -/
theorem good_append (v : OwnedValue) (hg : getField s.ld key = none) (hn : s.next < n) :
    Good ⟨s.ld.appendFieldValue key (place s.next v.1), n⟩ := by
  obtain ⟨hw, f, t, hf, ht, hr⟩ := hs
  exact ⟨hw.append (getField_none hg) (place_owned v.2) (fun t ht => place_addr ht) hn,
    f, t, getField_append hf, ht, hr⟩

theorem good_putRaw (v : OwnedValue)
    (hk : strcasecmp key rawEvent) (hf : ld'.fields = putValue key (place s.next v.1) s.ld.fields)
    (hd : (place s.next v.1).defined = TRUE) (ht : (place s.next v.1).type = .string)
    (hr : ld'.raw_event = strPtr (place s.next v.1)) (hn : s.next < n) : Good ⟨ld', n⟩ := by
  obtain ⟨hw, f, t, hraw, -, -⟩ := hs
  have hown : Owned (place s.next v.1) := place_owned v.2
  obtain ⟨u, hu⟩ := hown.string hd ht
  refine ⟨?_, ⟨f.key, place s.next v.1⟩, u, ?_, hu, hr.trans (strPtr_of_string? hu)⟩
  · show FieldsWf n ld'.fields
    rw [hf]
    exact hw.putValue key hown (fun t ht => place_addr ht) hn
  · rw [getField_putValue hf hk, hraw]; rfl

theorem good_putOther (v : OwnedValue)
    (hk : ¬ strcasecmp key rawEvent) (hf : ld'.fields = putValue key (place s.next v.1) s.ld.fields)
    (hr : ld'.raw_event = s.ld.raw_event) (hn : s.next < n) : Good ⟨ld', n⟩ := by
  refine ⟨?_, hs.2.frame (getField_putValue_ne hf hk) hr⟩
  show FieldsWf n ld'.fields
  rw [hf]
  exact hs.1.putValue key (place_owned v.2) (fun t ht => place_addr ht) hn

/-- A value put in place of `raw_event` while the pointer stays at the old string. -/
theorem not_inv_putStale (v : OwnedValue)
    (hk : strcasecmp key rawEvent) (hf : ld'.fields = putValue key (place s.next v.1) s.ld.fields)
    (hr : ld'.raw_event = s.ld.raw_event) : ¬ RawEventInv ld' := by
  intro hinv
  obtain ⟨hw, f, t, hraw, ht, hptr⟩ := hs
  have hget := getField_putValue hf hk
  rw [hraw] at hget
  obtain ⟨hmem, hname⟩ := getField_some hget
  obtain ⟨u, hu, hru⟩ := hinv.field _ hmem hname
  have hlt := (hw.ok f (getField_some hraw).1).addr t ht
  have hadr := place_addr hu
  rw [hr, hptr] at hru
  have := Option.some.inj hru
  omega

/-- The name matches a field as soon as it is a spelling of `raw_event`. -/
theorem getField_of_raw (hk : strcasecmp key rawEvent) :
    getField s.ld key = getField s.ld rawEvent ∧ getField s.ld key ≠ none := by
  obtain ⟨-, f, t, hraw, -⟩ := hs
  have : getField s.ld key = getField s.ld rawEvent := by
    unfold getField; rw [named_congr hk]
  exact ⟨this, by rw [this, hraw]; simp⟩

theorem setFieldValue_verdict (h : setFieldValue s.ld key (place s.next v.1) = .ok ld') :
    Verdict (StepOk s.ld (.setFieldValue key v)) ⟨ld', s.next + 1⟩ := by
  rcases (setFieldValue_cases h).2 with ⟨hg, rfl⟩ | ⟨-, hf, ⟨hk, hd, ht, hr⟩ | ⟨hk, hr⟩⟩
  · exact .inl ⟨fun hk => absurd hg (getField_of_raw hs hk).2, good_append hs v hg (by omega)⟩
  · exact .inl ⟨fun _ => hk, good_putRaw hs v (by rw [hk]; exact strcasecmp_refl _) hf hd ht hr (by omega)⟩
  · by_cases hc : strcasecmp key rawEvent
    · exact .inr ⟨fun hok => hk (hok hc), not_inv_putStale hs v hc hf hr⟩
    · exact .inl ⟨fun h => absurd h hc, good_putOther hs v hc hf hr (by omega)⟩

theorem setField_verdict (h : setField s.ld ⟨key, place s.next v.1⟩ (s.next + 1) = .ok ld') :
    Verdict (StepOk s.ld (.setField key v)) ⟨ld', s.next + 2⟩ := by
  rcases setField_cases h with ⟨hg, rfl⟩ | ⟨f, hg, hf, hcase⟩
  · exact .inl ⟨fun hk => absurd hg (getField_of_raw hs hk).2, good_append hs v hg (by omega)⟩
  obtain ⟨hmem, hname⟩ := getField_some hg
  have hplace := string?_place s.next v.1
  by_cases hk : strcasecmp key rawEvent
  · have hraw : strcasecmp f.key rawEvent := strcasecmp_trans hname hk
    rcases hcase with ⟨hexact, hd, ht, hr⟩ | ⟨-, hno⟩ | ⟨hne, hr⟩
    · refine .inl ⟨fun _ => ⟨fun g hgm hgn => ?_, ?_⟩, good_putRaw hs v hk hf hd ht hr (by omega)⟩
      · cases hg.symm.trans (getField_of_mem hs.1 hgm (strcasecmp_trans hgn (strcasecmp_comm.mp hk)))
        exact hexact
      · obtain ⟨u, hu⟩ := (place_owned v.2).string hd ht
        rw [hplace] at hu
        obtain ⟨x, hx, -⟩ := Option.map_eq_some_iff.mp hu
        rw [hx]; rfl
    · refine .inr ⟨fun hok => ?_, fun hinv => ?_⟩
      · obtain ⟨u, hu⟩ := Option.isSome_iff_exists.mp (hok hk).2
        rw [hu] at hplace
        exact hno (type_of_string? hplace)
      · -- the new value sits in the field `raw_event`
        have hget := getField_putValue hf hk
        rw [← (getField_of_raw hs hk).1, hg] at hget
        obtain ⟨hmem', hname'⟩ := getField_some hget
        obtain ⟨u, hu, -⟩ := hinv.field _ hmem' hname'
        exact hno (type_of_string? hu)
    · exact .inr ⟨fun hok => hne ((hok hk).1 f hmem hraw), not_inv_putStale hs v hk hf hr⟩
  · have hfk : f.key ≠ rawEvent := by
      intro hc
      rw [hc] at hname
      exact hk (strcasecmp_comm.mp hname)
    rcases hcase with ⟨hc, -⟩ | ⟨hc, -⟩ | ⟨-, hr⟩
    · exact absurd hc hfk
    · exact absurd hc hfk
    · exact .inl ⟨fun h => absurd h hk, good_putOther hs v hk hf hr (by omega)⟩

/-! ### Renaming -/

omit hs

theorem FieldsWf.renamed (h : FieldsWf n ld.fields) (old new : CStr) : FieldsWf n (renamed ld old new) := by
  have hsub := cleared_sublist ld old new
  have hcleared : FieldsWf n (cleared ld old new) :=
    ⟨fun f hf => h.ok f (hsub.subset hf), h.apart.sublist hsub⟩
  rw [renamed_eq]
  apply hcleared.rename
  intro f hf hc
  by_cases ho : strcasecmp old new
  · exact strcasecmp_trans hc (strcasecmp_comm.mp ho)
  · have := cleared_new h.distinct ho f hf
    rw [named_iff.mpr hc] at this
    cases this

theorem renameField_verdict (hs : Good s) (h : renameField s.ld old new = .ok ld') :
    Verdict (StepOk s.ld (.renameField old new)) ⟨ld', s.next⟩ := by
  obtain ⟨hne, ⟨hnone, rfl⟩ | ⟨f, hg, hf, hcase⟩⟩ := renameField_cases h
  · refine .inl ⟨fun _ => ⟨fun ho => absurd hnone (getField_of_raw hs ho).2, ?_⟩, hs⟩
    exact fun _ _ g hgm hgn => absurd hgn (getField_none hnone g hgm)
  have hw' : FieldsWf s.next ld'.fields := by rw [hf]; exact hs.1.renamed old new
  obtain ⟨hmem, hname⟩ := getField_some hg
  obtain ⟨hw, f0, t, hraw, ht, hptr⟩ := id hs
  have hget := getField_renamed hw.distinct hg hf (k := rawEvent)
  by_cases hn : strcasecmp new rawEvent
  · rw [if_pos hn] at hget
    by_cases ho : strcasecmp old rawEvent
    · -- a respelling: the pointer stays
      have hon : strcasecmp old new := strcasecmp_trans ho (strcasecmp_comm.mp hn)
      rcases hcase with ⟨-, -, hno, -⟩ | ⟨-, hr⟩
      · exact absurd hon hno
      · rw [← (getField_of_raw hs ho).1, hg] at hraw
        cases hraw
        exact .inl ⟨fun _ => ⟨fun _ => hn, fun _ hno => absurd ho hno⟩, hw', _, t, hget, ht, hr.trans hptr⟩
    · -- another field takes the place
      obtain ⟨hmem', hname'⟩ := getField_some hget
      rcases hcase with ⟨hexact, -, -, hty, hr⟩ | ⟨hno, hr⟩
      · by_cases hd : f.value.defined = TRUE
        · obtain ⟨u, hu⟩ := (hw.ok f hmem).owned.string hd hty
          refine .inl ⟨fun _ => ⟨fun h => absurd h ho, fun _ _ g hgm hgn => ?_⟩, hw',
            ⟨new, f.value⟩, u, hget, hu,
            hr.trans (strPtr_of_string? hu)⟩
          cases hg.symm.trans (getField_of_mem hw hgm hgn)
          exact ⟨hexact, fun _ => hd⟩
        · refine .inr ⟨fun hok => hd (((hok hne).2 hn ho f hmem hname).2 hty), fun hinv => ?_⟩
          obtain ⟨u, hu, -⟩ := hinv.field _ hmem' hname'
          exact hd (type_of_string? hu).1
      · -- the pointer would be at the string of the unlinked field
        refine .inr ⟨fun hok => hno ?_, fun hinv => ?_⟩
        · exact ⟨((hok hne).2 hn ho f hmem hname).1, Option.isSome_iff_ne_none.mpr
            (getField_of_raw hs hn).2, fun hc => ho (strcasecmp_trans hc hn)⟩
        obtain ⟨u, hu, hru⟩ := hinv.field _ hmem' hname'
        rw [hr, hptr] at hru
        obtain ⟨hm0, hn0⟩ := getField_some hraw
        have hff : f ≠ f0 := by
          rintro rfl
          exact ho (strcasecmp_trans (strcasecmp_comm.mp hname) hn0)
        exact (hw.apart.forall hmem hm0 hff).2 u t hu ht (Option.some.inj hru).symm
  · have hr : ld'.raw_event = s.ld.raw_event := by
      rcases hcase with ⟨hexact, -⟩ | ⟨-, hr⟩
      · exact absurd (by rw [hexact]; exact strcasecmp_refl _) hn
      · exact hr
    rw [if_neg hn] at hget
    by_cases ho : strcasecmp old rawEvent
    · -- the field is gone and the pointer is not
      rw [if_pos ho] at hget
      refine .inr ⟨fun hok => hn ((hok hne).1 ho), fun hinv => ?_⟩
      have hnull := hinv.null (getField_none hget)
      rw [hr, hptr] at hnull
      cases hnull
    · rw [if_neg ho] at hget
      exact .inl ⟨fun _ => ⟨fun h => absurd h ho, fun h => absurd h hn⟩, hw', hs.2.frame hget hr⟩

/-! ### Deleting -/

theorem getField_setString (addr : Nat) (buf : Bytes) (key : CStr) :
    getField (setString ld addr buf) key = (getField ld key).map fun f =>
    ⟨f.key, setStringIn addr buf f.value⟩ := by
  simp only [getField, setString, find?_map]
  rfl

theorem good_setString (hs : Good s) (addr : Nat) (buf : Bytes) : Good ⟨setString s.ld addr buf, s.next⟩ := by
  obtain ⟨hw, f, t, hraw, ht, hptr⟩ := hs
  have hstr := string?_setStringIn addr buf f.value
  rw [ht, Option.map_some] at hstr
  refine ⟨hw.setString addr buf, ⟨f.key, setStringIn addr buf f.value⟩, _, ?_, hstr, ?_⟩
  · rw [getField_setString, hraw]; rfl
  · show s.ld.raw_event = _
    by_cases ha : t.addr = addr
    · rw [if_pos ha, hptr, ha]
    · rw [if_neg ha, hptr]

theorem good_erase (hs : Good s) (hk : ¬ strcasecmp key rawEvent) :
    Good ⟨{ s.ld with fields := s.ld.fields.eraseP (spelled key) }, s.next⟩ := by
  refine ⟨hs.1.eraseP _, hs.2.frame ?_ rfl⟩
  refine find?_eraseP_of_ne fun a ha => ?_
  have hak : strcasecmp a.key key := by rw [spelled_iff.mp ha]; exact strcasecmp_refl _
  exact named_ne hk (named_iff.mpr hak)

/-- `DeleteOk`: the exact name, or no field under this spelling. -/
def DeleteOk (ld : Logdata) (key : CStr) : Prop :=
  strcasecmp key rawEvent → key = rawEvent ∨ ∀ f ∈ ld.fields, f.key ≠ key

theorem DeleteOk.next {b : Bool} (hok : DeleteOk ld key) (h : deleteField ld key = .ok (b, ld')) :
    DeleteOk ld' key := by
  rcases deleteField_cases h with ⟨-, rfl, -⟩ | ⟨-, hk, addr, rfl⟩ | ⟨-, -, -, rfl⟩
  · exact hok
  · exact fun _ => .inl hk
  · exact fun hc => (hok hc).imp_right fun hno f hf => hno f (mem_of_mem_eraseP hf)

/-- The field was stored under another spelling: it is unlinked and freed, and
the pointer stays. -/
theorem not_inv_erase (hs : Good s) (hk : strcasecmp key rawEvent)
    (hex : ∃ f ∈ s.ld.fields, f.key = key) : (∀ f ∈ s.ld.fields.eraseP (spelled key), f.key ≠ key) ∧
      ¬ RawEventInv { s.ld with fields := s.ld.fields.eraseP (spelled key) } := by
  obtain ⟨f, hf, hfk⟩ := hex
  have hgone : ∀ g ∈ s.ld.fields.eraseP (spelled key), spelled key g = false := by
    refine not_mem_eraseP hs.1.apart ?_
    intro a b ha hab
    by_contra hc
    have h1 := spelled_iff.mp ha
    have h2 := spelled_iff.mp (by simpa using hc)
    exact hab.1 (by rw [h1, h2]; exact strcasecmp_refl _)
  have hkey : ∀ g ∈ s.ld.fields.eraseP (spelled key), g.key ≠ key := by
    intro g hg hc
    have := hgone g hg
    rw [spelled_iff.mpr hc] at this
    cases this
  refine ⟨hkey, ?_⟩
  intro hinv
  have hnull := hinv.null (by
    intro g hg hgn
    have h1 := getField_of_mem hs.1 (mem_of_mem_eraseP hg) hgn
    have h2 := getField_of_mem hs.1 hf (by rw [hfk]; exact hk)
    rw [h1] at h2
    exact hkey g hg (Option.some.inj h2 ▸ hfk))
  obtain ⟨-, _, t, -, -, hptr⟩ := hs
  rw [show s.ld.raw_event = none from hnull] at hptr
  cases hptr

theorem deleteField_verdict (hs : Good s) {b : Bool} (h : deleteField s.ld key = .ok (b, ld')) :
    Verdict (DeleteOk s.ld key) ⟨ld', s.next⟩ := by
  rcases deleteField_cases h with ⟨-, rfl, hno⟩ | ⟨-, hk, addr, rfl⟩ | ⟨-, hk, hex, rfl⟩
  · exact .inl ⟨fun _ => hno, hs⟩
  · exact .inl ⟨fun _ => .inl hk, good_setString hs addr []⟩
  · by_cases hc : strcasecmp key rawEvent
    · refine .inr ⟨fun hok => ?_, (not_inv_erase hs hc hex).2⟩
      obtain ⟨f, hf, hfk⟩ := hex
      exact (hok hc).elim hk fun hno => hno f hf hfk
    · exact .inl ⟨fun h => absurd h hc, good_erase hs hc⟩

theorem deleteLoop_good (fuel : Nat) (ld ld' : Logdata) (hs : Good ⟨ld, n⟩) (hok : DeleteOk ld key)
    (h : deleteLoop key fuel ld = .ok ld') : Good ⟨ld', n⟩ := by
  induction fuel generalizing ld ld' with
  | zero => cases h
  | succ fuel ih =>
    obtain ⟨⟨b, ld1⟩, h1, h⟩ := bind_eq_ok.mp h
    have hs1 := (deleteField_verdict hs h1).good hok
    cases b with
    | false => cases h; exact hs1
    | true => exact ih ld1 ld' hs1 (hok.next h1) h

theorem deleteLoop_not_throw {m : String} : ∀ (fuel : Nat) (ld : Logdata),
    deleteLoop key fuel ld ≠ Res.throw m := by
  intro fuel
  induction fuel with
  | zero => intro ld h; cases h
  | succ fuel ih =>
    intro ld h
    rcases bind_eq_error.mp h with h | ⟨⟨b, ld1⟩, -, h⟩
    · exact deleteField_not_throw h
    · cases b with
      | false => cases h
      | true => exact ih ld1 h

/-- No field under this spelling: the loop ends at once. -/
theorem deleteLoop_none {fuel : Nat} (h : ∀ f ∈ ld.fields, f.key ≠ key) :
    deleteLoop key (fuel + 1) ld = .ok ld := by
  have hfind : ld.fields.find? (spelled key) = none := by
    rw [find?_eq_none]
    intro f hf hc
    exact h f hf (spelled_iff.mp hc)
  rw [deleteLoop, deleteField, hfind]; rfl

theorem deref_setString {addr : Nat} {buf : Bytes} {s : NxString}
    (h : deref (setString ld addr buf) addr = some s) : s.buf = buf := by
  have hmem := mem_of_find?_eq_some h
  have hadr : s.addr = addr := by simpa using find?_some h
  obtain ⟨t, rfl⟩ : ∃ t : NxString, s = if t.addr = addr then ⟨addr, buf⟩ else t := by
    rcases mem_append.mp hmem with hm | hm
    · obtain ⟨f, hf, hs⟩ := mem_filterMap.mp hm
      obtain ⟨g, -, rfl⟩ := mem_map.mp hf
      simp only [string?_setStringIn] at hs
      obtain ⟨t, -, rfl⟩ := Option.map_eq_some_iff.mp hs
      exact ⟨t, rfl⟩
    · obtain ⟨t, -, rfl⟩ := mem_map.mp hm
      exact ⟨t, rfl⟩
  by_cases ha : t.addr = addr
  · rw [if_pos ha]
  · rw [if_neg ha] at hadr
    exact absurd hadr ha

theorem deleteField_raw (h : deleteField ld rawEvent = .ok (true, ld')) :
    ∃ addr s, ld.raw_event = some addr ∧ deref ld addr = some s ∧ s.buf.length ≠ 0 ∧
    ld' = setString ld addr [] := by
  unfold deleteField at h
  split at h
  · cases h
  next f hf =>
  rw [if_pos (spelled_iff.mp (find?_some hf))] at h
  obtain ⟨_, -, h⟩ := bind_eq_ok.mp h
  split at h
  · cases h
  next addr hraw =>
  split at h
  · cases h
  next s hs =>
  split at h
  · cases h
  next hne =>
  cases h
  exact ⟨addr, s, hraw, hs, hne, rfl⟩

/-- Once emptied, `raw_event` is not deleted again. -/
theorem deleteField_emptied {ld ld' ld2 : Logdata} (h : deleteField ld rawEvent = .ok (true, ld')) :
    deleteField ld' rawEvent ≠ .ok (true, ld2) := by
  obtain ⟨addr, s, hraw, -, -, rfl⟩ := deleteField_raw h
  intro h2
  obtain ⟨addr2, s2, hraw2, hs2, hne, -⟩ := deleteField_raw h2
  obtain rfl : addr = addr2 := Option.some.inj (hraw.symm.trans hraw2)
  exact hne (congrArg length (deref_setString hs2))

/-- The loop of `delete()` comes to an end. -/
theorem deleteLoop_ne_hang (fuel : Nat) (ld : Logdata) (hlt : ld.fields.length + 1 < fuel) :
    deleteLoop key fuel ld ≠ Res.hang := by
  induction fuel generalizing ld with
  | zero => omega
  | succ fuel ih =>
    intro h
    rcases bind_eq_error.mp h with h | ⟨⟨b, ld1⟩, h1, h⟩
    · exact deleteField_ne_hang h
    rcases deleteField_cases h1 with ⟨rfl, -⟩ | ⟨rfl, hk, -⟩ | ⟨rfl, -, ⟨f, hf, hfk⟩, rfl⟩
    · cases h
    · -- the second turn on `raw_event` is the last
      subst hk
      obtain ⟨fuel, rfl⟩ : ∃ k, fuel = k + 1 := ⟨fuel - 1, by omega⟩
      have h2 : deleteLoop rawEvent (fuel + 1) ld1 = Res.hang := h
      rcases bind_eq_error.mp h2 with h2 | ⟨⟨b, ld2⟩, h3, h2⟩
      · exact deleteField_ne_hang h2
      · cases b with
        | false => cases h2
        | true => exact deleteField_emptied h1 h3
    · have hlen := length_eraseP_of_mem hf (spelled_iff.mpr hfk)
      have hpos := length_pos_of_mem hf
      exact ih _ (show (ld.fields.eraseP (spelled key)).length + 1 < fuel by omega) h

theorem procDelete_ne_hang (ld : Logdata) (key : CStr) : procDelete ld key ≠ Res.hang := by
  intro h
  rcases bind_eq_error.mp h with h | ⟨_, -, h⟩
  · exact deleteLoop_ne_hang _ ld (by omega) h
  · split at h <;> cases h

theorem procDelete_verdict (hs : Good s) (h : procDelete s.ld key = .ok ld') :
    Verdict (StepOk s.ld (.delete key)) ⟨ld', s.next⟩ := by
  obtain ⟨ld1, h1, h⟩ := bind_eq_ok.mp h
  by_cases hk : key = rawEvent
  · -- the emptied field is still there, the pointer is `NULL`
    refine .inr ⟨fun hok => hok.1 hk, fun hinv => ?_⟩
    rw [if_pos hk] at h
    cases h
    obtain ⟨-, f, t, hraw, -, -⟩ := deleteLoop_good _ s.ld ld1 hs (fun _ => .inl hk) h1
    obtain ⟨hmem, hname⟩ := getField_some hraw
    obtain ⟨u, -, hu⟩ := hinv.field f hmem hname
    cases hu
  rw [if_neg hk] at h
  cases h
  by_cases hno : strcasecmp key rawEvent → ∀ f ∈ s.ld.fields, f.key ≠ key
  · exact .inl ⟨⟨hk, hno⟩, deleteLoop_good _ s.ld ld' hs (fun hc => .inr (hno hc)) h1⟩
  refine .inr ⟨fun hok => hno hok.2, ?_⟩
  -- the first turn unlinks the field, the second finds nothing
  obtain ⟨hc, hex⟩ := Classical.not_imp.mp hno
  obtain ⟨hgone, hnot⟩ := not_inv_erase hs hc (by simpa using hex)
  rw [deleteLoop] at h1
  obtain ⟨⟨b, ld2⟩, hd, h1⟩ := bind_eq_ok.mp h1
  rcases deleteField_cases hd with ⟨-, -, hnone⟩ | ⟨-, hexact, -⟩ | ⟨rfl, -, -, rfl⟩
  · exact absurd (hnone.resolve_left hk) hex
  · exact absurd hexact hk
  · have h2 : deleteLoop key (s.ld.fields.length + 1) _ = .ok ld' := h1
    rw [deleteLoop_none hgone] at h2
    cases h2
    exact hnot

/-! ### Cloning -/

theorem valueClone_spec {addr : Nat} {v w : NxValue} (h : valueClone addr v = .ok w) :
    Owned w ∧ (∀ t, w.string? = some t → t.addr = addr) ∧ (v.string?.isSome → w.string?.isSome) := by
  unfold valueClone at h
  split at h
  · next hd =>
    split at h
    case h_1 s _ =>
      obtain ⟨s', hs', h⟩ := bind_eq_ok.mp h
      cases h
      refine ⟨fun x hx => ?_, fun t ht => ?_, fun _ => by simp [NxValue.string?, hd]⟩
      · cases hx
        simp [hd]
      · simp only [NxValue.string?, hd, if_true, Option.some.injEq] at ht
        obtain ⟨len, -, rfl⟩ := stringClone_eq hs'
        rw [← ht]
    case h_8 value len hdata =>
      obtain ⟨bs, -, h⟩ := bind_eq_ok.mp h
      cases h
      exact ⟨fun _ hs => (by cases hs), fun _ ht => (by cases ht), fun hc =>
        by simp [NxValue.string?, hdata] at hc⟩
    all_goals cases h
    all_goals
      next hdata => exact ⟨fun _ hs => (by cases hs), fun _ ht => (by cases ht), fun hc => by
        simp [NxValue.string?, hdata] at hc⟩
  · next hd =>
    cases h
    refine ⟨fun s hs => ?_, fun t ht => absurd (string?_some ht).1 hd, fun hc => ?_⟩
    · cases hty : v.type with
      | string =>
        rw [hty] at hs
        cases hs
        simp [hd]
      | _ => rw [hty] at hs; cases hs
    · obtain ⟨s, hs⟩ := Option.isSome_iff_exists.mp hc
      exact absurd (string?_some hs).1 hd

/-- The clone of a well-formed list is well-formed, under the same names. -/
theorem cloneFields_wf {base : Nat} {raw : Option Nat} (fs : List Field) (new new' : Logdata)
    (hw : FieldsWf (base + new.fields.length) new.fields) (hown : ∀ f ∈ fs, Owned f.value)
    (hk : (new.fields.map Field.key ++ fs.map Field.key).Pairwise (fun j k => ¬ strcasecmp j k))
    (h : cloneFields base raw fs new = .ok new') : FieldsWf (base + new'.fields.length) new'.fields := by
  induction fs generalizing new new' with
  | nil =>
    cases h
    exact hw
  | cons f fs ih =>
    obtain ⟨w, hclone, h⟩ := bind_eq_ok.mp h
    obtain ⟨hwo, hadr, -⟩ := valueClone_spec hclone
    have hnew : ∀ g ∈ new.fields, ¬ strcasecmp g.key f.key := by
      intro g hg
      have := (pairwise_append.mp hk).2.2
      exact this g.key (mem_map_of_mem hg) f.key (by simp)
    have hlen : (new.appendFieldValue f.key w).fields.length = new.fields.length + 1 := by
      simp [Logdata.appendFieldValue]
    have hw' : FieldsWf (base + (new.appendFieldValue f.key w).fields.length)
        (new.appendFieldValue f.key w).fields := by
      rw [hlen]
      exact hw.append hnew hwo hadr (by omega)
    have hk' : ((new.appendFieldValue f.key w).fields.map Field.key ++ fs.map Field.key).Pairwise
        (fun j k => ¬ strcasecmp j k) := by
      simpa [Logdata.appendFieldValue] using hk
    have hown' : ∀ g ∈ fs, Owned g.value := (forall_mem_cons.mp hown).2
    by_cases hc : f.value.type = .string ∧ f.value.defined = TRUE ∧ strPtr f.value = raw
    · simp only [if_pos hc] at h
      exact ih { new.appendFieldValue f.key w with raw_event := strPtr w } new' hw' hown' hk' h
    · simp only [if_neg hc] at h
      exact ih _ new' hw' hown' hk' h

theorem logdataClone_good (hs : Good s) (h : logdataClone s.next s.ld = .ok ld') :
    Good ⟨ld', s.next + ld'.fields.length⟩ := by
  obtain ⟨hw, f, t, hraw, ht, hptr⟩ := hs
  obtain ⟨new, hnew, h⟩ := bind_eq_ok.mp h
  obtain ⟨_, -, h⟩ := bind_eq_ok.mp h
  cases h
  have hown : ∀ g ∈ s.ld.fields, Owned g.value := fun g hg => (hw.ok g hg).owned
  have hkeys : (s.ld.fields.map Field.key).Pairwise (fun j k => ¬ strcasecmp j k) :=
    pairwise_map.mpr (hw.apart.imp fun h => h.1)
  have hwf : FieldsWf (s.next + ld'.fields.length) ld'.fields := by
    apply cloneFields_wf s.ld.fields ⟨none, [], []⟩ ld' ⟨by simp, List.Pairwise.nil⟩ hown _ hnew
    simpa using hkeys
  refine ⟨hwf, ?_⟩
  -- split the loop at the field the pointer is at
  obtain ⟨hmem, hname⟩ := getField_some hraw
  obtain ⟨pre, post, hsplit⟩ := append_of_mem hmem
  rw [hsplit, cloneFields_append] at hnew
  obtain ⟨new1, -, hnew⟩ := bind_eq_ok.mp hnew
  obtain ⟨w, hclone, hnew⟩ := bind_eq_ok.mp hnew
  obtain ⟨hty1, hty2⟩ := type_of_string? ht
  have hcond : f.value.type = .string ∧ f.value.defined = TRUE ∧ strPtr f.value = s.ld.raw_event :=
    ⟨hty2, hty1, (strPtr_of_string? ht).trans hptr.symm⟩
  simp only [if_pos hcond] at hnew
  obtain ⟨-, -, hsome⟩ := valueClone_spec hclone
  obtain ⟨u, hu⟩ := Option.isSome_iff_exists.mp (hsome (by rw [ht]; rfl))
  obtain ⟨hkeep, hstay⟩ := cloneFields_frame post _ ld' hnew
  -- no later field has that string
  have hpost : ∀ g ∈ post,
      ¬ (g.value.type = .string ∧ g.value.defined = TRUE ∧ strPtr g.value = s.ld.raw_event) := by
    rintro g hg ⟨hgt, hgd, hgp⟩
    have hgm : g ∈ s.ld.fields := by rw [hsplit]; simp [hg]
    obtain ⟨x, hx⟩ := (hown g hgm).string hgd hgt
    have hap := hw.apart
    rw [hsplit] at hap
    have hfg := (pairwise_cons.mp (pairwise_append.mp hap).2.1).1 g hg
    rw [strPtr_of_string? hx, hptr] at hgp
    exact hfg.2 t x ht hx (Option.some.inj hgp).symm
  refine ⟨⟨f.key, w⟩, u, ?_, hu, ?_⟩
  · exact getField_of_mem hwf (hkeep _ (mem_append_right _ mem_cons_self)) hname
  · rw [hstay hpost]
    exact strPtr_of_string? hu

/-! ## Runs -/

theorem exec_verdict {s s' : Store} {op : Op} (hs : Good s) (h : exec s op = .ok s') :
    Verdict (StepOk s.ld op) s' := by
  rcases exec_cases h with h | ⟨rfl, m, h⟩
  · cases op
    all_goals
      obtain ⟨ld', hld, h⟩ := bind_eq_ok.mp h
      cases h
    · exact setFieldValue_verdict hs hld
    · exact setField_verdict hs hld
    · exact renameField_verdict hs hld
    · exact deleteField_verdict hs hld
    · exact procDelete_verdict hs hld
    · exact .inl ⟨trivial, logdataClone_good hs hld⟩
  · refine .inl ⟨?_, hs⟩
    cases op
    case clone => trivial
    all_goals replace h := (bind_eq_error.mp h).resolve_right fun ⟨_, _, h⟩ => nomatch h
    case setFieldValue => exact fun _ => setFieldValue_throw h
    case setField => exact absurd h setField_not_throw
    case renameField old new =>
      intro ho
      obtain ⟨f, hg, hexact, hon, hty⟩ := renameField_throw h ho
      refine ⟨fun _ => by rw [hexact]; exact strcasecmp_refl _, ?_⟩
      intro _ _ g hgm hgn
      cases hg.symm.trans (getField_of_mem hs.1 hgm hgn)
      exact ⟨hexact, fun hc => absurd hc hty⟩
    case deleteField => exact absurd h deleteField_not_throw
    case delete =>
      exfalso
      rcases bind_eq_error.mp h with h | ⟨_, -, h⟩
      · exact deleteLoop_not_throw _ _ h
      · split at h <;> cases h

/-- Along a run from a new record, the pointer is right in every state exactly
if every step meets `StepOk`. -/
theorem raw_event_invariant (s : Store) (hs : Start s) (ops : List Op) :
    Always exec (fun t => RawEventInv t.ld) s ops ↔ AllSteps exec (fun t op => StepOk t.ld op) s ops :=
  always_iff_allSteps (fun _ h => h.inv) (fun _ _ _ hs hok h => (exec_verdict hs h).good hok)
    (fun _ _ _ hs h => (exec_verdict hs h).back) (start_good hs) ops

theorem raw_event_invariant_clone :
    Always exec (fun t => RawEventInv t.ld) ⟨logdataNew, 1⟩ [.clone, .deleteField rawEvent] :=
  (raw_event_invariant ⟨logdataNew, 1⟩ (.inl rfl) [.clone, .deleteField rawEvent]).mpr
    fun _ _ => ⟨trivial, fun _ _ => ⟨fun _ => .inl rfl, trivial⟩⟩

/-- A string set as `Raw_Event` replaces and frees the value of `raw_event`, and
the pointer is left at the freed string; `delete($raw_event)` empties the field
and leaves a `NULL` pointer. -/
theorem raw_event_dangles :
    (∃ s, exec ⟨logdataNew, 1⟩ (.setFieldValue ⟨[82, 97, 119, 95, 69, 118, 101, 110, 116],
        by decide⟩ ⟨⟨TRUE, .string (some ⟨0, [120]⟩)⟩, by intro s hs; cases hs; simp⟩) = .ok s ∧
      s.ld.raw_event = some 0 ∧ deref s.ld 0 = none ∧ ¬ RawEventInv s.ld) ∧
    (∃ s, exec ⟨logdataNew, 1⟩ (.delete rawEvent) = .ok s ∧ s.ld.raw_event = none ∧
      (getField s.ld rawEvent).isSome ∧ ¬ RawEventInv s.ld) := by
  constructor
  · refine ⟨⟨⟨some 0, [⟨rawEvent, ⟨TRUE, .string (some ⟨1, [120]⟩)⟩⟩], []⟩, 2⟩, by decide, rfl, by decide, ?_⟩
    intro hinv
    have := hinv.live 0 rfl
    revert this
    decide
  · refine ⟨⟨⟨none, [⟨rawEvent, ⟨TRUE, .string (some ⟨0, []⟩)⟩⟩], []⟩, 1⟩, by decide, rfl, by decide, ?_⟩
    intro hinv
    obtain ⟨u, -, hu⟩ := hinv.field _ mem_cons_self (strcasecmp_refl _)
    cases hu

end Nxlog.L2
