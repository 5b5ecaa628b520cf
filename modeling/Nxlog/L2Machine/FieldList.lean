import Nxlog.L2Machine.Logdata

/-!
# Well-formed field lists

The record operations keep two things that the source never states: field names
are unique up to case, and no two fields share a string object. `FieldsWf next`
says so for a list whose strings all have names below `next`; a new value is a
newly allocated object (`place`).

Every list operation of the source keeps the lists well-formed, whatever it does
to the pointer `raw_event` (`FieldsWf.putValue`, `FieldsWf.append`,
`FieldsWf.rename`, `FieldsWf.setString`).
-/
namespace Nxlog.L2
open L1 List

variable {v w : NxValue} {fields : List Field} {f : Field} {ld : Logdata} {n m : Nat} {key k : CStr}

/-! ## Values -/

/-- A STRING has its string object exactly when it is defined. -/
def Owned (v : NxValue) : Prop := ∀ s, v.data = .string s → (s.isSome = true ↔ v.defined = TRUE)

abbrev OwnedValue := { v : NxValue // Owned v }

/-- The value as a newly allocated object. -/
def place (addr : Nat) (v : NxValue) : NxValue :=
  ⟨v.defined, match v.data with
    | .string s => .string (s.map fun s => ⟨addr, s.buf⟩)
    | d => d⟩

/-! ## Well-formed field lists -/

structure FieldOk (next : Nat) (f : Field) : Prop where
  addr : ∀ s, f.value.string? = some s → s.addr < next
  owned : Owned f.value

/-- Different names and different strings. -/
def Apart (f g : Field) : Prop :=
  ¬ strcasecmp f.key g.key ∧ ∀ s t, f.value.string? = some s → g.value.string? = some t → s.addr ≠ t.addr

def DistinctNames (ld : Logdata) : Prop := ld.fields.Pairwise fun f g => ¬ strcasecmp f.key g.key

structure FieldsWf (next : Nat) (fields : List Field) : Prop where
  ok : ∀ f ∈ fields, FieldOk next f
  apart : fields.Pairwise Apart

theorem Apart.symm {f g : Field} (h : Apart f g) : Apart g f :=
  ⟨fun hc => h.1 (strcasecmp_comm.mp hc), fun s t hs ht he => h.2 t s ht hs he.symm⟩

instance : Std.Symm Apart := ⟨fun _ _ => Apart.symm⟩

instance : Std.Symm fun f g : Field => ¬ strcasecmp f.key g.key :=
  ⟨fun _ _ h hc => h (strcasecmp_comm.mp hc)⟩

theorem FieldsWf.distinct (h : FieldsWf n ld.fields) : DistinctNames ld := h.apart.imp fun h => h.1

theorem FieldOk.mono (h : FieldOk n f) (hnm : n ≤ m) : FieldOk m f :=
  ⟨fun s hs => Nat.lt_of_lt_of_le (h.addr s hs) hnm, h.owned⟩

theorem named_congr {k k' : CStr} (h : strcasecmp k k') : named k = named k' := by
  funext f
  simp only [named, decide_eq_decide]
  exact ⟨fun hf => strcasecmp_trans hf h, fun hf => strcasecmp_trans hf (strcasecmp_comm.mp h)⟩

theorem named_ne {k k' : CStr} (h : ¬ strcasecmp k k') (hf : named k f) : named k' f = false := by
  by_contra hc
  have h1 := named_iff.mp hf
  have h2 := named_iff.mp (by simpa using hc)
  exact h (strcasecmp_trans (strcasecmp_comm.mp h1) h2)

theorem named_distinct (a b : Field) (ha : named key a) (h : ¬ strcasecmp a.key b.key) :
    named key b = false := by
  by_contra hc
  have h1 := named_iff.mp ha
  have h2 := named_iff.mp (by simpa using hc)
  exact h (strcasecmp_trans h1 (strcasecmp_comm.mp h2))

theorem named_apart (a b : Field) (ha : named key a) (h : Apart a b) : named key b = false :=
  named_distinct a b ha h.1

theorem getField_of_mem (hw : FieldsWf n ld.fields)
    (hf : f ∈ ld.fields) (h : strcasecmp f.key key) : getField ld key = some f :=
  find?_of_mem hw.apart named_apart hf (named_iff.mpr h)

theorem getField_some (h : getField ld key = some f) : f ∈ ld.fields ∧ strcasecmp f.key key :=
  ⟨mem_of_find?_eq_some h, named_iff.mp (find?_some h)⟩

theorem getField_none (h : getField ld key = none) : ∀ f ∈ ld.fields, ¬ strcasecmp f.key key := by
  intro f hf hc
  have := find?_eq_none.mp h f hf
  exact this (named_iff.mpr hc)

/-! ### Searching after a change -/

theorem getField_putValue {ld ld' : Logdata} (hf : ld'.fields = putValue key w ld.fields)
    (h : strcasecmp key k) :
    getField ld' k = (getField ld k).map fun f => ⟨f.key, w⟩ := by
  unfold getField
  rw [hf, ← named_congr h]
  exact find?_updateFirst fun a ha => ha

theorem getField_putValue_ne {ld ld' : Logdata}
    (hf : ld'.fields = putValue key w ld.fields) (h : ¬ strcasecmp key k) :
    getField ld' k = getField ld k := by
  unfold getField
  rw [hf]
  exact find?_updateFirst_of_ne (fun a ha => named_ne h ha) fun a ha => named_ne h (f := ⟨a.key, w⟩) ha

/-- Appending a field does not hide one that was found before. -/
theorem getField_append (h : getField ld k = some f) : getField (ld.appendFieldValue key w) k = some f := by
  unfold getField at h ⊢
  simp [Logdata.appendFieldValue, find?_append, h]

/-! ### Renaming -/

/-- Unlinking the destination. -/
def cleared (ld : Logdata) (old new : CStr) : List Field :=
  if (getField ld new).isSome ∧ ¬ strcasecmp old new then ld.fields.eraseP (named new) else ld.fields

variable {old new : CStr}

theorem renamed_eq (ld : Logdata) (old new : CStr) :
    renamed ld old new = updateFirst (named old) (fun f => ⟨new, f.value⟩) (cleared ld old new) := rfl

theorem cleared_sublist (ld : Logdata) (old new : CStr) : (cleared ld old new).Sublist ld.fields := by
  unfold cleared
  split
  · exact eraseP_sublist
  · exact Sublist.refl _

/-- After the unlinking only the renamed field may have the new name. -/
theorem cleared_new (h : DistinctNames ld) (ho : ¬ strcasecmp old new) :
    ∀ f ∈ cleared ld old new, named new f = false := by
  unfold cleared
  by_cases hg : (getField ld new).isSome
  · rw [if_pos ⟨hg, ho⟩]
    exact not_mem_eraseP h named_distinct
  · rw [if_neg fun hc => hg hc.1]
    intro f hf
    have hnone := getField_none (Option.not_isSome_iff_eq_none.mp hg) f hf
    simpa [named] using hnone

theorem find?_cleared (hk : ¬ strcasecmp new k) : (cleared ld old new).find? (named k) = getField ld k := by
  unfold cleared
  by_cases he : (getField ld new).isSome ∧ ¬ strcasecmp old new
  · rw [if_pos he]
    exact find?_eraseP_of_ne fun a ha => named_ne hk ha
  · rw [if_neg he]
    rfl

/-- A renamed field is found under its new name only. -/
theorem getField_renamed {ld ld' : Logdata} (h : DistinctNames ld) (hg : getField ld old = some f)
    (hf : ld'.fields = renamed ld old new) : getField ld' k =
      if strcasecmp new k then some ⟨new, f.value⟩ else if strcasecmp old k then none else getField ld k := by
  show ld'.fields.find? _ = _
  rw [hf, renamed_eq]
  by_cases hn : strcasecmp new k
  · rw [if_pos hn, ← named_congr hn]
    by_cases ho : strcasecmp old new
    · -- a respelling
      have hcl : cleared ld old new = ld.fields := if_neg fun hc => hc.2 ho
      rw [← named_congr ho, find?_updateFirst fun a _ => named_iff.mpr (strcasecmp_comm.mp ho), hcl]
      unfold getField at hg
      rw [hg]
      rfl
    · have hfind : (cleared ld old new).find? (named old) = some f := by
        rw [find?_cleared fun hc => ho (strcasecmp_comm.mp hc)]
        exact hg
      exact find?_updateFirst_new hfind (cleared_new h ho) (named_iff.mpr (strcasecmp_refl _))
  · rw [if_neg hn]
    have hnew : ∀ a : Field, named k ⟨new, a.value⟩ = false := by
      intro a
      simpa [named] using hn
    by_cases hk : strcasecmp old k
    · rw [if_pos hk, ← named_congr hk]
      refine find?_updateFirst_gone (h.sublist (cleared_sublist ld old new)) named_distinct fun a _ => ?_
      rw [named_congr hk]
      exact hnew a
    · rw [if_neg hk, find?_updateFirst_of_ne (fun a ha => named_ne hk ha) fun a _ => hnew a, find?_cleared hn]

/-! ### New values -/

theorem string?_place (n : Nat) (v : NxValue) : (place n v).string? = v.string?.map fun s => ⟨n, s.buf⟩ := by
  unfold place NxValue.string?
  cases v.data with
  | string s => by_cases h : v.defined = TRUE <;> simp [h]
  | _ => rfl

theorem place_owned (h : Owned v) : Owned (place n v) := by
  intro s hs
  unfold place at hs ⊢
  cases hd : v.data with
  | string s' =>
    rw [hd] at hs
    simp only [Data.string.injEq] at hs
    rw [← hs, Option.isSome_map]
    exact h s' hd
  | _ => rw [hd] at hs; cases hs

theorem place_addr {t : NxString} (h : (place n v).string? = some t) : t.addr = n := by
  rw [string?_place] at h
  obtain ⟨s, -, rfl⟩ := Option.map_eq_some_iff.mp h
  rfl

theorem strPtr_of_string? {s : NxString} (h : v.string? = some s) : strPtr v = some s.addr := by
  obtain ⟨-, hd⟩ := string?_some h
  simp [strPtr, hd]

theorem type_of_string? {s : NxString} (h : v.string? = some s) : v.defined = TRUE ∧ v.type = .string := by
  obtain ⟨ht, hd⟩ := string?_some h
  exact ⟨ht, by rw [NxValue.type, hd]; rfl⟩

theorem Owned.string (h : Owned v) (hd : v.defined = TRUE) (ht : v.type = .string) : ∃ s,
    v.string? = some s := by
  unfold NxValue.type at ht
  cases hv : v.data with
  | string s =>
    have hs := (h s hv).mpr hd
    obtain ⟨x, rfl⟩ := Option.isSome_iff_exists.mp hs
    exact ⟨x, by simp [NxValue.string?, hv, hd]⟩
  | _ => rw [hv] at ht; cases ht

/-! ### The list operations keep lists well-formed -/

theorem FieldsWf.putValue (h : FieldsWf n fields) (key : CStr)
    (hw : Owned w) (ha : ∀ t, w.string? = some t → t.addr = n) (hm : n < m) :
    FieldsWf m (putValue key w fields) := by
  constructor
  · intro f hf
    rcases mem_updateFirst hf with hf | ⟨g, hg, -, rfl⟩
    · exact (h.ok f hf).mono (by omega)
    · exact ⟨fun t ht => by have := ha t ht; omega, hw⟩
  · apply pairwise_updateFirst h.apart
    intro a _ b hb _ hab
    refine ⟨hab.1, ?_⟩
    intro s t hs ht he
    have h1 := ha s hs
    have h2 := (h.ok b hb).addr t ht
    omega

theorem FieldsWf.append (h : FieldsWf n fields) (hnew : ∀ g ∈ fields, ¬ strcasecmp g.key f.key)
    (hw : Owned f.value)
    (ha : ∀ t, f.value.string? = some t → t.addr = n) (hm : n < m) : FieldsWf m (fields ++ [f]) := by
  constructor
  · refine forall_mem_append.mpr ⟨fun g hg => (h.ok g hg).mono (by omega), ?_⟩
    exact forall_mem_singleton.mpr ⟨fun t ht => by have := ha t ht; omega, hw⟩
  · rw [pairwise_append]
    refine ⟨h.apart, pairwise_singleton _ _, ?_⟩
    intro g hg f' hf'
    rw [mem_singleton.mp hf']
    refine ⟨hnew g hg, ?_⟩
    intro s t hs ht he
    have h1 := (h.ok g hg).addr s hs
    have h2 := ha t ht
    omega

theorem FieldsWf.eraseP (h : FieldsWf n fields) (p : Field → Bool) : FieldsWf n (fields.eraseP p) :=
  ⟨fun f hf => h.ok f (mem_of_mem_eraseP hf), h.apart.sublist eraseP_sublist⟩

/-- Renaming, once no other field has the new name. -/
theorem FieldsWf.rename (h : FieldsWf n fields) {old new : CStr}
    (hnew : ∀ f ∈ fields, strcasecmp f.key new → strcasecmp f.key old) :
    FieldsWf n (updateFirst (named old) (fun f => ⟨new, f.value⟩) fields) := by
  constructor
  · intro f hf
    rcases mem_updateFirst hf with hf | ⟨g, hg, -, rfl⟩
    · exact h.ok f hf
    · exact ⟨(h.ok g hg).addr, (h.ok g hg).owned⟩
  · apply pairwise_updateFirst h.apart
    intro a _ b hb ha hab
    refine ⟨?_, hab.2⟩
    intro hc
    have hbo := hnew b hb (strcasecmp_comm.mp hc)
    exact hab.1 (strcasecmp_trans (named_iff.mp ha) (strcasecmp_comm.mp hbo))

theorem string?_setStringIn (addr : Nat) (buf : Bytes) (v : NxValue) :
    (setStringIn addr buf v).string? = v.string?.map fun s => if s.addr = addr then ⟨addr, buf⟩ else s := by
  unfold setStringIn
  cases hs : v.string? with
  | none => simp [hs]
  | some s =>
    by_cases ha : s.addr = addr
    · simp [ha, NxValue.string?, (string?_some hs).1]
    · simp [ha, hs]

theorem setStringIn_addr {addr : Nat} {buf : Bytes} {t : NxString}
    (h : (setStringIn addr buf v).string? = some t) : ∃ s, v.string? = some s ∧ s.addr = t.addr := by
  rw [string?_setStringIn] at h
  obtain ⟨s, hs, rfl⟩ := Option.map_eq_some_iff.mp h
  refine ⟨s, hs, ?_⟩
  by_cases ha : s.addr = addr
  · rw [if_pos ha, ha]
  · rw [if_neg ha]

theorem setStringIn_owned {addr : Nat} {buf : Bytes} (h : Owned v) : Owned (setStringIn addr buf v) := by
  unfold setStringIn
  cases hs : v.string? with
  | none => exact h
  | some s =>
    by_cases ha : s.addr = addr
    · simp only [if_pos ha]
      intro s' hs'
      cases hs'
      simp [(string?_some hs).1]
    · simp only [if_neg ha]
      exact h

theorem FieldsWf.setString (h : FieldsWf n ld.fields) (addr : Nat) (buf : Bytes) :
    FieldsWf n (setString ld addr buf).fields := by
  constructor
  · intro f hf
    obtain ⟨g, hg, rfl⟩ := mem_map.mp hf
    refine ⟨?_, setStringIn_owned (h.ok g hg).owned⟩
    intro t ht
    obtain ⟨s, hs, he⟩ := setStringIn_addr ht
    rw [← he]
    exact (h.ok g hg).addr s hs
  · refine pairwise_map.mpr (h.apart.imp ?_)
    intro a b hab
    refine ⟨hab.1, ?_⟩
    intro s t hs ht
    obtain ⟨s', hs', he⟩ := setStringIn_addr hs
    obtain ⟨t', ht', he'⟩ := setStringIn_addr ht
    rw [← he, ← he']
    exact hab.2 s' t' hs' ht'

end Nxlog.L2
