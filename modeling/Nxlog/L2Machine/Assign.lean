import Nxlog.L2Machine.FieldMap
import Nxlog.L2Machine.RawEvent

/-!
# Setting fields from a parser

The parsers of the text formats read a text from left to right and call
`nx_logdata_set_field_value` each time they have a name and a value. A parser is
modelled over any record type `σ` and any `set : Setter σ`, so that what it sets,
and in which order, can be stated without a record: it does the same as `setAll`
of a list of assignments, for every `set`.

* `setAll`: a list of assignments, one after the other.
* `expect`: the setter that accepts exactly a given list of assignments; a parser
  does what `setAll` of a list does only if it gets to the end with it.
* `storeSet`: the setter of the program.
* `setAll_store`: what a list of assignments does to a record.
* `setAll_good`: the pointer `raw_event` stays right.
-/
namespace Nxlog.L2
open L1 Res List

def strValue (buf : Bytes) : NxValue := ⟨TRUE, .string (some ⟨0, buf⟩)⟩

@[simp] theorem strValue_inj {a b : Bytes} : strValue a = strValue b ↔ a = b := by
  simp [strValue]

/-- `nx_logdata_set_field_value` on some kind of record. -/
abbrev Setter (σ : Type) := σ → CStr → NxValue → Res σ

def setAll {σ : Type} (set : Setter σ) (s : σ) (as : List (CStr × NxValue)) : Res σ :=
  run (fun s a => set s a.1 a.2) s as

section SetAll

variable {σ : Type} {set : Setter σ} {s : σ}

@[simp] theorem setAll_nil : setAll set s [] = .ok s := rfl

@[simp] theorem setAll_cons (a : CStr × NxValue) (as : List (CStr × NxValue)) :
    setAll set s (a :: as) = set s a.1 a.2 >>= fun s => setAll set s as := rfl

theorem setAll_append (as bs : List (CStr × NxValue)) :
    setAll set s (as ++ bs) = setAll set s as >>= fun s => setAll set s bs := run_append as bs s

end SetAll

/-! ## The strict setter -/

/-- Takes the assignments of a list in turn and faults at any other. -/
def expect : Setter (List (CStr × NxValue))
  | [], _, _ => Res.fault
  | a :: as, k, v => if a = (k, v) then .ok as else Res.fault

theorem expect_ok (k : CStr) (v : NxValue) (as : List (CStr × NxValue)) : expect ((k, v) :: as) k v = .ok as :=
  if_pos rfl

variable {v : NxValue}

theorem expect_ne {a : CStr × NxValue} {k : CStr} (h : a ≠ (k, v)) (as : List (CStr × NxValue)) :
    expect (a :: as) k v = Res.fault :=
  if_neg h

theorem expect_inv {k : CStr} {v w : NxValue} {as as' : List (CStr × NxValue)}
    (h : expect ((k, w) :: as) k v = .ok as') : w = v ∧ as' = as := by
  rw [expect] at h
  split at h
  · rename_i heq
    cases h
    exact ⟨(Prod.ext_iff.mp heq).2, rfl⟩
  · cases h

theorem setAll_expect (as : List (CStr × NxValue)) : setAll expect as as = .ok [] := by
  induction as with
  | nil => rfl
  | cons a as ih => rw [setAll_cons, expect_ok, ok_bind, ih]

/-- The strict setter gets to the end only with its own list. -/
theorem eq_of_setAll_expect {as bs : List (CStr × NxValue)} (h : setAll expect as bs = .ok []) : bs = as := by
  induction as generalizing bs with
  | nil =>
    cases bs with
    | nil => rfl
    | cons b bs => cases h
  | cons a as ih =>
    cases bs with
    | nil => cases h
    | cons b bs =>
      rw [setAll_cons] at h
      by_cases hab : a = (b.1, b.2)
      · rw [hab, expect_ok, ok_bind] at h
        rw [ih h, hab]
      · rw [expect_ne hab] at h
        cases h

/-! ## Records -/

/-- `nx_logdata_set_field_value` with a new value. -/
def storeSet : Setter Store := fun s key v => do
  let ld ← setFieldValue s.ld key (place s.next v)
  return ⟨ld, s.next + 1⟩

/-- The records a parser is given: different names, and values that can be freed. -/
structure Usable (ld : Logdata) : Prop where
  distinct : DistinctNames ld
  freeable : AllFreeable ld

theorem content_place (n : Nat) (v : NxValue) : (place n v).content = v.content := by
  obtain ⟨d, data⟩ := v
  unfold place NxValue.content
  cases data with
  | string s =>
    cases s with
    | none => rfl
    | some s => by_cases h : d = TRUE <;> simp [h, Data.content, NxValue.type, Data.type]
  | _ => rfl

@[simp] theorem place_type (n : Nat) (v : NxValue) : (place n v).type = v.type := by
  obtain ⟨d, data⟩ := v
  cases data <;> rfl

theorem valueFree_place (n : Nat) (v : NxValue) : valueFree (place n v) = valueFree v := by
  obtain ⟨d, data⟩ := v
  cases data <;> rfl

variable {s : Store} {key : CStr}

section Put

variable {f : Field} (hf : getField s.ld key = some f)
include hf

/-- A field whose old value can be freed can be set. -/
theorem storeSet_put (hfree : valueFree f.value = .ok ())
    (hraw : key = rawEvent → v.defined = TRUE ∧ v.type = .string) :
    ∃ s', storeSet s key v = .ok s' ∧ s'.ld.fields = putValue key (place s.next v) s.ld.fields := by
  have hplaced : key = rawEvent → (place s.next v).defined = TRUE ∧ (place s.next v).type = .string := by
    intro hk
    rw [place_type]
    exact hraw hk
  unfold storeSet setFieldValue
  rw [hf]
  by_cases hk : key = rawEvent
  · exact ⟨_, by simp only [if_pos hk, if_pos (hplaced hk), hfree]; rfl, rfl⟩
  · exact ⟨_, by simp only [if_neg hk, hfree]; rfl, rfl⟩

/-- With the name `raw_event` only a defined STRING is set. -/
theorem storeSet_raw {s' : Store} (hk : key = rawEvent) (h : storeSet s key v = .ok s') :
    v.defined = TRUE ∧ v.type = .string := by
  obtain ⟨ld, hld, -⟩ := bind_eq_ok.mp h
  rcases (setFieldValue_cases hld).2 with ⟨hnone, -⟩ | ⟨-, -, ⟨-, hd, ht, -⟩ | ⟨hne, -⟩⟩
  · rw [hf] at hnone
    cases hnone
  · rw [place_type] at ht
    exact ⟨hd, ht⟩
  · exact absurd hk hne

end Put

/-- A value that can be freed can be set, under the name `raw_event` if it is a defined STRING. -/
theorem storeSet_set (hs : Usable s.ld) (hv : valueFree v = .ok ())
    (hraw : key = rawEvent → v.defined = TRUE ∧ v.type = .string) :
    ∃ s', storeSet s key v = .ok s' ∧ Usable s'.ld ∧ view s'.ld = (view s.ld).set key (place s.next v) := by
  have hfree : valueFree (place s.next v) = .ok () := by rw [valueFree_place, hv]
  cases hg : getField s.ld key with
  | none =>
    refine ⟨⟨s.ld.appendFieldValue key (place s.next v), s.next + 1⟩, ?_, ?_, view_append hg⟩
    · simp [storeSet, setFieldValue, hg]
    · exact ⟨distinct_append hs.distinct _ hg, freeable_append hs.freeable hfree⟩
  | some f =>
    obtain ⟨s', hset, hfields⟩ := storeSet_put hg (hs.freeable f (mem_of_find?_eq_some hg)) hraw
    refine ⟨s', hset, ⟨distinct_put hs.distinct hfields, ?_⟩, view_put hfields (by simp [hg])⟩
    rw [AllFreeable, hfields]
    exact freeable_put hs.freeable hfree

/-- Each name has the value last assigned to it; the other fields are as before. -/
structure Assigned (ld : Logdata) (as : List (CStr × NxValue)) (ld' : Logdata) : Prop where
  set : ∀ a ∈ as, (view ld' a.1).map NxValue.content = some a.2.content
  others : ∀ k, (∀ a ∈ as, ¬ strcasecmp a.1 k) → view ld' k = view ld k

variable {as : List (CStr × NxValue)}

/-- Assignments to different names, none of them `raw_event`. -/
theorem setAll_store (hs : Usable s.ld) (hp : as.Pairwise (fun a b => ¬ strcasecmp a.1 b.1))
    (hok : ∀ a ∈ as, a.1 ≠ rawEvent ∧ valueFree a.2 = .ok ()) :
    ∃ s', setAll storeSet s as = .ok s' ∧ Assigned s.ld as s'.ld := by
  induction as generalizing s with
  | nil => exact ⟨s, rfl, by simp, fun _ _ => rfl⟩
  | cons a as ih =>
    obtain ⟨hk, hv⟩ := hok a mem_cons_self
    obtain ⟨ha, hp⟩ := pairwise_cons.mp hp
    obtain ⟨s1, hstep, hs1, hview⟩ := storeSet_set hs hv fun h => absurd h hk
    obtain ⟨s2, hrun, hset, hothers⟩ := ih hs1 hp (forall_mem_cons.mp hok).2
    refine ⟨s2, by rw [setAll_cons, hstep]; exact hrun, ?_, ?_⟩
    · intro b hb
      rcases mem_cons.mp hb with rfl | hb
      · rw [hothers b.1 fun c hc he => ha c hc (strcasecmp_comm.mp he), hview]
        simp [FieldMap.set, content_place]
      · exact hset b hb
    · intro k hno
      rw [hothers k (forall_mem_cons.mp hno).2, hview]
      simp [FieldMap.set, hno a mem_cons_self]

/-! ## Records built by setting fields -/

theorem storeSet_good {s s' : Store} (hs : Good s) (hv : Owned v)
    (hk : strcasecmp key rawEvent → key = rawEvent) (h : storeSet s key v = .ok s') : Good s' := by
  obtain ⟨ld, hld, h⟩ := bind_eq_ok.mp h
  cases h
  exact (setFieldValue_verdict (v := ⟨v, hv⟩) hs hld).good hk

/-- What is set may be an `Owned` value under any name but another spelling of `raw_event`. -/
def Settable (a : CStr × NxValue) : Prop := Owned a.2 ∧ (strcasecmp a.1 rawEvent → a.1 = rawEvent)

instance (v : NxValue) : Decidable (Owned v) := by
  obtain ⟨d, data⟩ := v
  cases data with
  | string s => exact decidable_of_iff (s.isSome = true ↔ d = TRUE) (by simp [Owned])
  | _ => exact .isTrue nofun

instance (a : CStr × NxValue) : Decidable (Settable a) := inferInstanceAs (Decidable (_ ∧ _))

theorem setAll_good {s s' : Store} (hs : Good s) (hok : ∀ a ∈ as, Settable a)
    (h : setAll storeSet s as = .ok s') : Good s' := by
  induction as generalizing s s' with
  | nil => cases h; exact hs
  | cons a as ih =>
    obtain ⟨s1, h1, h2⟩ := bind_eq_ok.mp h
    obtain ⟨hv, hk⟩ := hok a mem_cons_self
    exact ih (storeSet_good hs hv hk h1) (forall_mem_cons.mp hok).2 h2

def filled (as : List (CStr × NxValue)) : Store :=
  match setAll storeSet ⟨logdataNew, 1⟩ as with
  | .ok s => s
  | .error _ => ⟨logdataNew, 1⟩

theorem filled_good (h : ∀ a ∈ as, Settable a) : Good (filled as) := by
  have hnew : Good ⟨logdataNew, 1⟩ := start_good (.inl rfl)
  unfold filled
  split
  · rename_i s hs
    exact setAll_good hnew h hs
  · exact hnew

end Nxlog.L2
