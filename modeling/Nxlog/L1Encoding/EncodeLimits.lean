import Nxlog.L1Encoding.RecordCodec

/-!
# The largest records (`common/logdata-serialize.c`)

The encoder passes a key length through an `int16`, and the decoder counts the fields with one. So
key lengths and counts from 32768 on do not come back: `record_limits_iff` says which records
survive the codec.
-/
namespace Nxlog.L1
open Res List

variable {ld : Logdata} {bufsize : Nat}

theorem fieldsToMembuf_keys {r : Bytes × UInt16} (fs : List Field) (out : Bytes) (num : UInt16)
    (h : fieldsToMembuf bufsize out num fs = .ok (some r)) : ∀ f ∈ fs, f.key.strlen % 65536 < 32768 := by
  induction fs generalizing out num with
  | nil => simp
  | cons f fs ih =>
    rw [fieldsToMembuf_cons] at h
    split at h
    · next hk =>
      obtain ⟨val, -, h⟩ := bind_eq_ok.mp h
      cases val with
      | none => cases h
      | some val => exact forall_mem_cons.mpr ⟨hk.1, ih _ _ h⟩
    · cases h

theorem RoundTrips.keys (h : RoundTrips ld) : ∀ f ∈ ld.fields, f.key.strlen % 65536 < 32768 := by
  obtain ⟨r, hr, hwrite⟩ := bind_eq_ok.mp h.encodes.write
  cases r with
  | none => cases hwrite
  | some r => exact fieldsToMembuf_keys _ _ _ hr

/-- The decoder does not come to an end if its `int16` does not reach the count. -/
theorem fieldsFromMembuf_count {mem : Bytes} {n : Nat} {fields : UInt16} {r : Logdata × Nat}
    (fuel : Nat) (i : Int16)
    (offs : Nat) (ld : Logdata) (h : fieldsFromMembuf mem n fields fuel i offs ld = .ok r) :
    fields.toNat ≤ 32767 := by
  induction fuel generalizing i offs ld with
  | zero => cases h
  | succ fuel ih =>
    rw [fieldsFromMembuf] at h
    split at h
    · split at h; · cases h
      obtain ⟨_, -, h⟩ := bind_eq_ok.mp h
      split at h; · cases h
      split at h; · cases h
      obtain ⟨_, -, h⟩ := bind_eq_ok.mp h
      obtain ⟨_, -, h⟩ := bind_eq_ok.mp h
      exact ih _ _ _ h
    · have hi : i.toInt < 2 ^ 15 := Int16.toInt_lt i
      omega

/-- A record with up to 65535 fields and keys of up to 65535 bytes survives the codec exactly if
neither number is negative as an `int16`. -/
theorem record_limits_iff (ld : Logdata) (hn : ld.fields.length ≤ 65535)
    (hk : ∀ f ∈ ld.fields, 1 ≤ f.key.strlen ∧ f.key.strlen ≤ 65535)
    (hv : ∀ f ∈ ld.fields, f.value.Serializable ∧ RoundTripsWith 0 f.value []) :
    RoundTrips ld ↔ ld.fields.length ≤ 32767 ∧ ∀ f ∈ ld.fields, f.key.strlen ≤ 32767 := by
  have hf : ∀ f ∈ ld.fields, f.value.Faithful := fun f hf =>
    (roundTripsWith_faithful (hv f hf).1).mp (hv f hf).2
  constructor
  · intro h
    have hkeys : ∀ f ∈ ld.fields, f.key.strlen ≤ 32767 := by
      intro f hf
      have := h.keys f hf
      have := hk f hf
      omega
    have hser : ∀ f ∈ ld.fields, f.Serializable := fun f hf => ⟨hkeys f hf, (hv f hf).1⟩
    have hsize := h.encodes.size
    rw [logdataSerializedSize_eq hser, Except.ok.injEq] at hsize
    have hwrite := h.encodes.write
    rw [logdataToMembuf_eq hser (by omega) (Nat.le_of_eq hsize), Except.ok.injEq, Option.some.injEq] at hwrite
    have hread := h.encodes.read
    have hm0 : (encoded ld).drop 0 = leBytes 2 ld.fields.length ++ encFields ld.fields := hwrite.symm
    rw [logdataFromMembuf, if_neg (by have := h.encodes.two_le; omega),
      rdLe_drop hm0 (Nat.zero_le _) (by omega),
      ok_bind] at hread
    obtain ⟨r, hr, -⟩ := bind_eq_ok.mp hread
    have hcount := fieldsFromMembuf_count _ _ _ _ hr
    rw [UInt16.toNat_ofNat'] at hcount
    exact ⟨by omega, hkeys⟩
  · rintro ⟨hcount, hkeys⟩
    exact roundTrips_of_fields hcount (fun f hf' =>
      ⟨(hk f hf').1, ⟨hkeys f hf', (hv f hf').1⟩, fun ht => (hf f hf' ht).1⟩) hf

theorem record_limits_three_fields : RoundTrips
    ⟨none, [⟨⟨[65], by decide⟩, ⟨FALSE, .integer 0⟩⟩, ⟨⟨[66], by decide⟩, ⟨TRUE, .integer 7⟩⟩,
      ⟨⟨[67], by decide⟩, ⟨TRUE, .string (some ⟨3, [120]⟩)⟩⟩], []⟩ := by
  refine (record_limits_iff _ (by decide) (by decide) ?_).mpr ⟨by decide, by decide⟩
  simp only [forall_mem_cons]
  have hnumber : NxValue.Serializable ⟨TRUE, .integer 7⟩ := .inr ⟨rfl, trivial⟩
  have htext : NxValue.Serializable ⟨TRUE, .string (some ⟨3, [120]⟩)⟩ := .inr ⟨rfl, _, rfl, by decide⟩
  exact ⟨⟨.inl rfl, (roundTripsWith_faithful (.inl rfl)).mpr nofun⟩,
    ⟨hnumber, (roundTripsWith_faithful hnumber).mpr fun _ => ⟨trivial, trivial⟩⟩,
    ⟨htext, (roundTripsWith_faithful htext).mpr fun _ => ⟨show 1 ≤ stringLimit by decide, trivial⟩⟩,
    nofun⟩

/-- A field name of 32 KiB. -/
theorem record_long_key : ¬ RoundTrips
    ⟨none, [⟨⟨replicate 32768 65, fun h => absurd (mem_replicate.mp h).2 (by decide)⟩,
      ⟨FALSE, .integer 0⟩⟩], []⟩ := by
  generalize hn : 32768 = n
  intro h
  have hkey := h.keys _ mem_cons_self
  rw [CStr.strlen, length_replicate] at hkey
  omega

end Nxlog.L1
