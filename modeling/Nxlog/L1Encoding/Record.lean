import Mathlib.Data.List.TakeWhile
import Nxlog.L1Encoding.ValueCodec

/-!
# Records (`common/logdata.h`)

`nx_logdata_t` is an ordered list of named values and a pointer `raw_event`,
meant as a shortcut to the string of the field of that name. The pointer is the
name (`addr`) of a string object: one that a field owns, one in `detached` (an
object no field owns, such as the empty string the decoder and
`nx_logdata_set_field` make up), or one that is gone.

* `CStr`: a C string; it cannot hold a NUL.
* `cut`: the C string at the start of a buffer.
* `strcasecmp`: an equivalence that refines to equality of lower-cased bytes.
* `Logdata.content`: what a record says, without the names of its objects.
* `Logdata.RawEventOwned`: `raw_event` is the string of the field `raw_event`.
-/
namespace Nxlog.L1

/-! ## C strings -/

/-- The bytes of a C string up to its terminating NUL. -/
abbrev CStr := { k : Bytes // (0 : UInt8) ∉ k }

def CStr.strlen (k : CStr) : Nat := k.1.length

/-- `tolower` in the C locale. -/
def toLower (c : UInt8) : UInt8 := if 65 ≤ c ∧ c ≤ 90 then c + 32 else c

def strcasecmp (a b : CStr) : Prop := a.1.map toLower = b.1.map toLower

instance (a b : CStr) : Decidable (strcasecmp a b) :=
  inferInstanceAs (Decidable (a.1.map toLower = b.1.map toLower))

@[simp] theorem strcasecmp_refl (a : CStr) : strcasecmp a a := rfl

theorem strcasecmp_comm {a b : CStr} : strcasecmp a b ↔ strcasecmp b a := eq_comm

theorem strcasecmp_trans {a b c : CStr} (h : strcasecmp a b) (h' : strcasecmp b c) : strcasecmp a c :=
  h.trans h'

/-- The bytes in front of the first NUL. -/
def cut (bs : Bytes) : CStr := ⟨bs.takeWhile (· ≠ 0), fun h => by simpa using List.mem_takeWhile_imp h⟩

def lit (s : String) : CStr := cut (ascii s)

theorem cut_cstr (k : CStr) : cut k.1 = k := by
  apply Subtype.ext
  refine List.takeWhile_eq_self_iff.mpr ?_
  intro c hc
  have : c ≠ 0 := fun h => k.2 (h ▸ hc)
  simpa using this

theorem cut_append_zero (k : CStr) (t : Bytes) : cut (k.1 ++ 0 :: t) = k := by
  apply Subtype.ext
  have hall : ∀ c ∈ k.1, decide (c ≠ 0) = true := by
    intro c hc
    have : c ≠ 0 := fun h => k.2 (h ▸ hc)
    simpa using this
  have : (k.1 ++ 0 :: t).takeWhile (fun c => decide (c ≠ 0)) = k.1 ++ (0 :: t).takeWhile (fun c =>
    decide (c ≠ 0)) :=
    List.takeWhile_append_of_pos hall
  simpa [cut] using this

def rawEvent : CStr := ⟨[114, 97, 119, 95, 101, 118, 101, 110, 116], by decide⟩

/-- mirrors `apr_cpystrn (dst, src, n + 1)`: copies up to the first NUL, at most
`n` bytes, and reads no further. -/
def cpystrn : Bytes → Nat → Res CStr
  | _, 0 => .ok ⟨[], by decide⟩
  | [], _ + 1 => Res.fault
  | b :: src, n + 1 =>
    if hb : b = 0 then .ok ⟨[], by decide⟩
    else do
      let k ← cpystrn src n
      return ⟨b :: k.1, by simp [Ne.symm hb, k.2]⟩

/-- The copy ends at a NUL, or where it is told to end within its source. -/
theorem cpystrn_eq (src : Bytes) (n : Nat) :
    cpystrn src n = if n ≤ src.length ∨ 0 ∈ src then .ok (cut (src.take n)) else Res.fault := by
  induction n generalizing src with
  | zero => simp [cpystrn, cut]
  | succ n ih =>
    cases src with
    | nil => simp [cpystrn]
    | cons b src =>
      by_cases hb : b = 0
      · simp [cpystrn, hb, cut]
      · rw [cpystrn, dif_neg hb, ih]
        simp only [List.length_cons, Nat.add_le_add_iff_right, List.mem_cons, Ne.symm hb, false_or]
        split
        · simp [cut, hb]
        · rfl

theorem cpystrn_mono {src t : Bytes} {n : Nat} {k : CStr} (h : cpystrn src n = .ok k) :
    cpystrn (src ++ t) n = .ok k := by
  induction n generalizing src k with
  | zero => simpa [cpystrn] using h
  | succ n ih =>
    cases src with
    | nil => cases h
    | cons b src =>
      simp only [cpystrn, List.cons_append] at h ⊢
      split at h
      · rename_i hb
        rw [dif_pos hb]; exact h
      · rename_i hb
        obtain ⟨k', hk', h⟩ := Res.bind_eq_ok.mp h
        rw [dif_neg hb, ih hk']; exact h

/-! ## Records -/

structure Field where
  key : CStr
  value : NxValue
  deriving DecidableEq

structure Logdata where
  raw_event : Option Nat
  fields : List Field
  detached : List NxString
  deriving DecidableEq

def Field.content (f : Field) : CStr × NxValue := (f.key, f.value.content)

/-- The ordered list of (key, type, defined, payload). -/
def Logdata.content (ld : Logdata) : List (CStr × NxValue) := ld.fields.map Field.content

/-- mirrors common/logdata.c:135-151 (`nx_logdata_append_field_value`). -/
def Logdata.appendFieldValue (ld : Logdata) (key : CStr) (value : NxValue) : Logdata :=
  { ld with fields := ld.fields ++ [⟨key, value⟩] }

/-- `raw_event` is the string of a field named `raw_event`, and of no other field. -/
def Logdata.RawEventOwned (ld : Logdata) : Prop :=
  ∃ f ∈ ld.fields, f.key = rawEvent ∧ ∃ s, f.value.string? = some s ∧ ld.raw_event = some s.addr ∧
    ∀ g ∈ ld.fields, ∀ s', g.value.string? = some s' → s'.addr = s.addr → g = f

end Nxlog.L1
