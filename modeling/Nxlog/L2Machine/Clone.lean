import Nxlog.L2Machine.Logdata

/-!
# Copies of records (`common/logdata.c`, `common/value.c`)

`nx_logdata_clone` copies the fields and looks, by pointer, for the one that
holds `raw_event`. If no defined STRING field does, it panics.

* `logdataClone_content`: a copy has the contents of the record, if its strings are
  not over the limit.
* `valueClone_sound`: a sound value has a copy, a string in a new object.
* `logdataClone_ok`, `logdataClone_panics`: a record of sound values has a copy
  with the same contents, or none at all, depending on `RawEventInField`.
* `logdataFree_ok`, `logdataFree_of_roundTrips`: a record of sound values can be
  freed, and so can one that survives the codec.
-/
namespace Nxlog.L2
open L1 Res List

/-- The loop of `nx_logdata_free`. -/
def freeFields : List Field → Res Unit
  | [] => .ok ()
  | f :: fs => do
    valueFree f.value
    freeFields fs

/-- mirrors common/logdata.c:15-33 (`nx_logdata_free`) for a record that is in no
list. -/
def logdataFree (ld : Logdata) : Res Unit := freeFields ld.fields

/-- What the source takes for granted of a value: a defined one is of a known type
and has its payload, and a string is below the limit. -/
def Sound (v : NxValue) : Prop :=
  v.defined = TRUE →
    match v.data with
    | .string (some s) => s.buf.length < stringLimit
    | .binary (some value) len => len.toNat ≤ value.length
    | .regexp (some _) _ => True
    | .string none | .binary none _ | .regexp none _ | .unknown | .other _ => False
    | .integer _ | .datetime _ | .boolean _ | .ip4addr _ | .ip6addr _ => True

/-- What every string of the program keeps. -/
def Fits (v : NxValue) : Prop := ∀ s, v.string? = some s → s.buf.length ≤ stringLimit

/-- `raw_event` is the string of a defined STRING field. -/
def RawEventInField (ld : Logdata) : Prop :=
  ∃ f ∈ ld.fields, ∃ s, f.value.string? = some s ∧ ld.raw_event = some s.addr

/-! ## Values -/

theorem Sound.free {v : NxValue} (h : Sound v) : valueFree v = .ok () := by
  unfold valueFree
  by_cases hd : v.defined = TRUE
  · have hs := h hd
    rw [if_pos hd]
    cases hv : v.data with
    | unknown | other => rw [hv] at hs; exact hs.elim
    | _ => rfl
  · rw [if_neg hd]

theorem Sound.fits {v : NxValue} (h : Sound v) : Fits v := by
  intro s hs
  obtain ⟨hd, hv⟩ := string?_some hs
  have := h hd
  rw [hv] at this
  exact this.le

theorem valueClone_content {addr : Nat} {v w : NxValue} (h : valueClone addr v = .ok w)
    (hfits : Fits v) : w.content = v.content := by
  obtain ⟨defined, data⟩ := v
  by_cases hd : defined = TRUE
  · subst hd
    cases data with
    | string s =>
      cases s with
      | none => cases h
      | some s =>
        obtain ⟨t, ht, h⟩ := bind_eq_ok.mp h
        cases h
        rcases (hfits s rfl).lt_or_eq with hlt | hfull
        · rw [stringClone_ok addr hlt] at ht
          cases ht
          rfl
        · rw [stringClone_full addr hfull] at ht
          cases ht
    | binary value len =>
      cases value with
      | none => cases h
      | some value =>
        obtain ⟨bytes, hbytes, h⟩ := bind_eq_ok.mp h
        cases h
        simp [NxValue.content, Data.content, take_take, (rdBytes_length hbytes).2]
    | regexp str low =>
      cases str with
      | none => cases h
      | some str => cases h; rfl
    | unknown | other => cases h
    | _ => cases h; rfl
  · rw [valueClone, if_neg hd] at h
    cases h
    simp [NxValue.content, hd, NxValue.type]

/-- A copy is sound, and at the new name if the value is a string. -/
structure ClonedAs (addr : Nat) (v w : NxValue) : Prop where
  sound : Sound w
  string : ∀ s, v.string? = some s → strPtr w = some addr

theorem valueClone_sound (addr : Nat) {v : NxValue} (h : Sound v) :
    ∃ w, valueClone addr v = .ok w ∧ ClonedAs addr v w := by
  obtain ⟨defined, data⟩ := v
  by_cases hd : defined = TRUE
  · have hs := h hd
    subst hd
    unfold valueClone
    cases data with
    | string s =>
      cases s with
      | none => exact hs.elim
      | some s =>
        have hclone := stringClone_ok addr hs
        simp only [hclone, ok_bind]
        exact ⟨_, rfl, fun _ => hs, fun _ _ => rfl⟩
    | binary value len =>
      cases value with
      | none => exact hs.elim
      | some value =>
        have hle : 0 + len.toNat ≤ value.length := by
          omega
        simp only [rdBytes_ok hle, ok_bind]
        refine ⟨_, rfl, ?_, ?_⟩
        · intro _
          show len.toNat ≤ ((value.drop 0).take len.toNat).length
          rw [drop_zero, length_take]
          omega
        · intro s hs
          simp [NxValue.string?] at hs
    | regexp str low =>
      cases str with
      | none => exact hs.elim
      | some str => exact ⟨_, rfl, fun _ => trivial, fun s hs => by simp [NxValue.string?] at hs⟩
    | unknown | other => exact hs.elim
    | _ => exact ⟨_, rfl, fun _ => trivial, fun s hs => by simp [NxValue.string?] at hs⟩
  · unfold valueClone
    rw [if_neg hd]
    exact ⟨_, rfl, fun ht => absurd ht hd, fun s hs => absurd (string?_some hs).1 hd⟩

/-! ## Records -/

/-- The test of the loop: the field holds `raw_event`. -/
def holdsRaw (raw : Option Nat) (f : Field) : Prop :=
  f.value.type = .string ∧ f.value.defined = TRUE ∧ strPtr f.value = raw

/-- A sound field that passes the test has the string. -/
theorem holdsRaw_iff {raw : Option Nat} {f : Field} (h : Sound f.value) :
    holdsRaw raw f ↔ ∃ s, f.value.string? = some s ∧ raw = some s.addr := by
  constructor
  · intro hr
    obtain ⟨ht, hd, hp⟩ := hr
    have hs := h hd
    unfold NxValue.type at ht
    cases hv : f.value.data with
    | string s =>
      rw [hv] at hs
      cases s with
      | none => exact hs.elim
      | some s =>
        refine ⟨s, by simp [NxValue.string?, hv, hd], ?_⟩
        rw [← hp, strPtr, hv]
        rfl
    | _ => rw [hv] at ht; cases ht
  · intro hr
    obtain ⟨s, hs, hp⟩ := hr
    obtain ⟨hd, hv⟩ := string?_some hs
    refine ⟨by rw [NxValue.type, hv]; rfl, hd, ?_⟩
    rw [strPtr, hv, hp]
    rfl

/-- The loop copies every field. -/
theorem cloneFields_content {base : Nat} {raw : Option Nat} {fs : List Field} {new new' : Logdata}
    (h : cloneFields base raw fs new = .ok new') (hfits : ∀ f ∈ fs, Fits f.value) :
    new'.content = new.content ++ fs.map Field.content := by
  induction fs generalizing new with
  | nil =>
    cases h
    exact (append_nil _).symm
  | cons f fs ih =>
    obtain ⟨w, hclone, h⟩ := bind_eq_ok.mp h
    have hf : Field.content ⟨f.key, w⟩ = f.content :=
      congrArg (f.key, ·) (valueClone_content hclone (hfits f mem_cons_self))
    have hrest : new'.content = (new.appendFieldValue f.key w).content ++ fs.map Field.content := by
      have hfs : ∀ g ∈ fs, Fits g.value := (forall_mem_cons.mp hfits).2
      split at h
      · exact (ih h hfs :)
      · exact ih h hfs
    rw [hrest]
    simp [Logdata.content, Logdata.appendFieldValue, hf]

/-- The loop finds `raw_event` if a field holds it. -/
theorem cloneFields_spec (base : Nat) (raw : Option Nat) (fs : List Field) (new : Logdata)
    (hfs : ∀ f ∈ fs, Sound f.value) (hnew : ∀ f ∈ new.fields, Sound f.value) :
    ∃ new', cloneFields base raw fs new = .ok new' ∧ (∀ f ∈ new'.fields, Sound f.value) ∧
      (new'.raw_event.isSome = true ↔ new.raw_event.isSome = true ∨ ∃ f ∈ fs, holdsRaw raw f) := by
  induction fs generalizing new with
  | nil => exact ⟨new, rfl, hnew, by simp⟩
  | cons f fs ih =>
    have hf := hfs f mem_cons_self
    have hrest : ∀ g ∈ fs, Sound g.value := (forall_mem_cons.mp hfs).2
    obtain ⟨w, hclone, hw⟩ := valueClone_sound (base + new.fields.length) hf
    have happend : ∀ g ∈ (new.appendFieldValue f.key w).fields, Sound g.value :=
      forall_mem_append.mpr ⟨hnew, forall_mem_singleton.mpr hw.sound⟩
    by_cases hr : holdsRaw raw f
    · obtain ⟨s, hs, -⟩ := (holdsRaw_iff hf).mp hr
      obtain ⟨new', hok, hsound, hraw⟩ :=
        ih { new.appendFieldValue f.key w with raw_event := strPtr w } hrest happend
      refine ⟨new', ?_, hsound, ?_⟩
      · rw [cloneFields, hclone, ok_bind]
        exact (if_pos hr).trans hok
      · rw [hraw, hw.string s hs]
        exact iff_of_true (.inl rfl) (.inr ⟨f, mem_cons_self, hr⟩)
    · obtain ⟨new', hok, hsound, hraw⟩ := ih (new.appendFieldValue f.key w) hrest happend
      refine ⟨new', ?_, hsound, ?_⟩
      · rw [cloneFields, hclone, ok_bind]
        exact (if_neg hr).trans hok
      · rw [hraw]
        show (new.raw_event.isSome = true ∨ _) ↔ _
        simp [hr]

theorem freeFields_ok {fs : List Field} (h : ∀ f ∈ fs, valueFree f.value = .ok ()) :
    freeFields fs = .ok () := by
  induction fs with
  | nil => rfl
  | cons f fs ih =>
    rw [freeFields, h f mem_cons_self, ok_bind]
    exact ih (forall_mem_cons.mp h).2

theorem logdataFree_ok {ld : Logdata} (h : ∀ f ∈ ld.fields, Sound f.value) : logdataFree ld = .ok () :=
  freeFields_ok fun f hf => (h f hf).free

theorem fieldsSize_values : ∀ {fs : List Field} {size n : Nat}, fieldsSize size fs = .ok n →
    ∀ f ∈ fs, ∃ k, valueSerializedSize f.value = .ok k := by
  intro fs
  induction fs with
  | nil => intro size n _ f hf; simp at hf
  | cons g fs ih =>
    intro size n h f hf
    obtain ⟨k, hk, hrest⟩ := bind_eq_ok.mp h
    rcases mem_cons.mp hf with rfl | hf
    · exact ⟨k, hk⟩
    · exact ih hrest f hf

theorem valueFree_of_size {v : NxValue} {k : Nat} (h : valueSerializedSize v = .ok k) :
    valueFree v = .ok () := by
  unfold valueSerializedSize at h
  unfold valueFree
  by_cases hd : v.defined = TRUE
  · rw [if_pos hd] at h ⊢
    cases hv : v.data with
    | unknown | other => rw [hv] at h; cases h
    | _ => rfl
  · rw [if_neg hd]

/-- What has a serialized size can be freed. -/
theorem logdataFree_of_roundTrips {ld : Logdata} (h : RoundTrips ld) : logdataFree ld = .ok () := by
  refine freeFields_ok fun f hf => ?_
  obtain ⟨k, hk⟩ := fieldsSize_values h.encodes.size f hf
  exact valueFree_of_size hk

theorem logdataNew_sound : ∀ f ∈ logdataNew.fields, Sound f.value :=
  forall_mem_singleton.mpr fun _ => by decide

variable {ld : Logdata}

theorem holdsRaw_iff_inField (h : ∀ f ∈ ld.fields, Sound f.value) :
    (∃ f ∈ ld.fields, holdsRaw ld.raw_event f) ↔ RawEventInField ld := by
  constructor
  · intro hr
    obtain ⟨f, hf, hr⟩ := hr
    exact ⟨f, hf, (holdsRaw_iff (h f hf)).mp hr⟩
  · intro hr
    obtain ⟨f, hf, hr⟩ := hr
    exact ⟨f, hf, (holdsRaw_iff (h f hf)).mpr hr⟩

theorem logdataClone_content {base : Nat} {new : Logdata} (h : logdataClone base ld = .ok new)
    (hfits : ∀ f ∈ ld.fields, Fits f.value) : new.content = ld.content := by
  obtain ⟨new', hnew, h⟩ := bind_eq_ok.mp h
  obtain ⟨_, -, h⟩ := bind_eq_ok.mp h
  cases h
  exact cloneFields_content hnew hfits

theorem logdataClone_ok (h : ∀ f ∈ ld.fields, Sound f.value) (hraw : RawEventInField ld) (base : Nat) :
    ∃ new, logdataClone base ld = .ok new ∧ new.content = ld.content ∧ ∀ f ∈ new.fields, Sound f.value := by
  obtain ⟨new, hok, hsound, hiff⟩ :=
    cloneFields_spec base ld.raw_event ld.fields ⟨none, [], []⟩ h (by simp)
  have hsome : new.raw_event.isSome = true := hiff.mpr (.inr ((holdsRaw_iff_inField h).mpr hraw))
  have hclone : logdataClone base ld = .ok new := by
    rw [logdataClone, hok, ok_bind, hsome]
    rfl
  exact ⟨new, hclone, logdataClone_content hclone fun f hf => (h f hf).fits, hsound⟩

theorem logdataClone_panics (h : ∀ f ∈ ld.fields, Sound f.value) (hraw : ¬ RawEventInField ld)
    (base : Nat) : logdataClone base ld = .error (.assert "new->raw_event != NULL") := by
  obtain ⟨new, hok, -, hiff⟩ :=
    cloneFields_spec base ld.raw_event ld.fields ⟨none, [], []⟩ h (by simp)
  have hnone : new.raw_event.isSome = false := by
    cases hs : new.raw_event.isSome with
    | false => rfl
    | true =>
      rcases hiff.mp hs with hc | hc
      · cases hc
      · exact absurd ((holdsRaw_iff_inField h).mp hc) hraw
  rw [logdataClone, hok, ok_bind, hnone]
  rfl

end Nxlog.L2
