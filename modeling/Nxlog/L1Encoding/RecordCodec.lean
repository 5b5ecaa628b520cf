import Nxlog.L1Encoding.Record

/-!
# The record codec (`common/logdata-serialize.c`)

A serialized record is a 16-bit field count and, per field, a 16-bit key length,
the key and the serialized value. The encoder leaves room for the count and
writes it after the loop; the decoder counts its loop with a signed 16-bit `i`.

`encLogdata` is the layout. The size function and the encoder agree with it
(`logdataSerializedSize_eq`, `logdataToMembuf_eq`), and on it the decoder gives
back every field in order (`logdataFromMembuf_enc`).

* `record_roundTrip`: the round trip of every encodable record in front of any
  bytes, with `raw_event` at the field of that name.
* `RoundTrips`: the records that survive the codec, which the queue file, the
  binary transport and the disk buffer build on, with `logdataFromMembuf_mono`:
  a record that decodes still decodes to the same when more bytes follow.
-/
namespace Nxlog.L1
open Res List

/-! ## The three functions of the source -/

/-- The loop of `nx_logdata_serialized_size`. -/
def fieldsSize (size : Nat) : List Field → Res Nat
  | [] => .ok size
  | f :: fs => do
    let n ← valueSerializedSize f.value
    fieldsSize (size + 2 + f.key.strlen + n) fs

variable (ld : Logdata)

/-- mirrors common/logdata-serialize.c:31-48 (`nx_logdata_serialized_size`). -/
def logdataSerializedSize : Res Nat := fieldsSize 2 ld.fields

/-- The loop of `nx_logdata_to_membuf`. `out` is everything between `buf` and
`ptr`; the key length goes through an `int16`, and a negative one is a huge
`memcpy`. Neither the length nor the key is checked against `bufsize`. -/
def fieldsToMembuf (bufsize : Nat) (out : Bytes) (num_field : UInt16) :
    List Field → Res (Option (Bytes × UInt16))
  | [] => .ok (some (out, num_field))
  | f :: fs => do
    let keylen := Int16.ofNat f.key.strlen
    let out ← put bufsize out (leBytes 2 keylen.toUInt16.toNat)
    if keylen < 0 then Res.fault
    else do
      let key ← rdBytes (f.key.1 ++ [0]) 0 keylen.toNatClampNeg
      let out ← put bufsize out key
      let val ← valueToMembuf f.value (bufsize - out.length)
      match val with
      | none => return none
      | some val => fieldsToMembuf bufsize (out ++ val) (num_field + 1) fs

variable (bufsize : Nat)

/-- mirrors common/logdata-serialize.c:52-93 (`nx_logdata_to_membuf`): the bytes
written, or `none` for `return (0)`. -/
def logdataToMembuf : Res (Option Bytes) := do
  let r ← fieldsToMembuf bufsize [0, 0] 0 ld.fields
  match r with
  | none => return none
  | some (out, num_field) => do
    let num ← put bufsize [] (leBytes 2 num_field.toNat)
    return some (num ++ out.drop 2)

/-- The end of the loop body of `nx_logdata_from_membuf`
(common/logdata-serialize.c:157-161). -/
def Logdata.addDecoded (key : CStr) (val : NxValue) : Logdata :=
  let ld :=
    match val.data with
    | .string s => if key = rawEvent then { ld with raw_event := s.map NxString.addr } else ld
    | _ => ld
  ld.appendFieldValue key val

/-- The loop of `nx_logdata_from_membuf`; `i` is an `apr_int16_t`, `fields` an
`apr_uint16_t`, and both are compared as `int`s. A string of the field number
`n` is the object `n`. -/
def fieldsFromMembuf (mem : Bytes) (bufsize : Nat) (fields : UInt16) :
    Nat → Int16 → Nat → Logdata → Res (Logdata × Nat)
  | 0, _, _, _ => Res.hang
  | fuel + 1, i, offs, ld =>
    if i.toInt < fields.toNat then
      if offs ≥ bufsize then Res.throw "not enough data to decode serialized logdata field"
      else do
        let keylen ← rdLe mem offs 2
        if keylen = 0 then Res.throw "serialized logdata field name length is <= 0"
        else if offs + 2 + keylen ≥ bufsize then
          Res.throw ("not enough data to decode serialized field name (got "
            ++ toString (((bufsize : Int) - (offs + 2 : Nat)).bmod (2 ^ 32))
            ++ ", need " ++ toString keylen ++ ")")
        else do
          let key ← cpystrn (mem.drop (offs + 2)) keylen
          let (val, vlen) ← valueFromMembuf ld.fields.length (mem.drop (offs + 2 + keylen))
            (bufsize - (offs + 2 + keylen))
          fieldsFromMembuf mem bufsize fields fuel (i + 1) (offs + 2 + keylen + vlen)
            (ld.addDecoded key val)
    else .ok (ld, offs)

/-- common/logdata-serialize.c:186-189: a record without a `raw_event` string
gets an empty one that no field owns. -/
def Logdata.fillRawEvent : Logdata :=
  match ld.raw_event with
  | some _ => ld
  | none => { ld with raw_event := some ld.fields.length, detached := ⟨ld.fields.length, []⟩ :: ld.detached }

/-- mirrors common/logdata-serialize.c:97-192 (`nx_logdata_from_membuf`): the
record and `*bytes`. The loop reads at least five bytes a turn, so its fuel
never runs out. -/
def logdataFromMembuf (mem : Bytes) (bufsize : Nat) : Res (Logdata × Nat) :=
  if bufsize ≤ 1 then Res.throw "not enough data to decode serialized logdata"
  else do
    let fields ← rdLe mem 0 2
    let (ld, offs) ← fieldsFromMembuf mem bufsize (UInt16.ofNat fields) (bufsize + 1) 0 2 ⟨none, [], []⟩
    return (ld.fillRawEvent, offs)

/-! ## The layout -/

def encField (f : Field) : Bytes := leBytes 2 f.key.strlen ++ (f.key.1 ++ encValue f.value)

variable (fs : List Field)

def encFields : Bytes := fs.flatMap encField

def encLogdata : Bytes := leBytes 2 ld.fields.length ++ encFields ld.fields

@[simp] theorem encFields_nil : encFields [] = [] := rfl

@[simp] theorem encFields_cons (f : Field) (fs : List Field) :
    encFields (f :: fs) = encField f ++ encFields fs := rfl

theorem encField_length (f : Field) : (encField f).length = 2 + f.key.strlen + (encValue f.value).length := by
  simp [encField, CStr.strlen]; omega

theorem encLogdata_length : (encLogdata ld).length = 2 + (encFields ld.fields).length := by
  simp [encLogdata]

/-- What the encoder takes for granted of a field: the key length fits an
`int16` and the value can be serialized. -/
def Field.Serializable (f : Field) : Prop := f.key.strlen ≤ 32767 ∧ f.value.Serializable

theorem fieldsSize_eq (size : Nat) (h : ∀ f ∈ fs, f.Serializable) :
    fieldsSize size fs = .ok (size + (encFields fs).length) := by
  induction fs generalizing size with
  | nil => rfl
  | cons f fs ih =>
    have hf := h f (mem_cons_self)
    rw [fieldsSize, serializedSize_eq hf.2, ok_bind, ih _ (forall_mem_cons.mp h).2,
      encFields_cons, length_append, encField_length]
    congr 1; omega

variable {ld : Logdata}

theorem logdataSerializedSize_eq (h : ∀ f ∈ ld.fields, f.Serializable) :
    logdataSerializedSize ld = .ok (encLogdata ld).length := by
  rw [logdataSerializedSize, fieldsSize_eq _ _ h, encLogdata_length]

/-- A key length as an `int16`. -/
theorem keylen_int16 (n : Nat) : (Int16.ofNat n).toUInt16.toNat = n % 65536 ∧
    (Int16.ofNat n < 0 ↔ 32768 ≤ n % 65536) ∧
    (n % 65536 < 32768 → (Int16.ofNat n).toNatClampNeg = n % 65536) := by
  have hi : (Int16.ofNat n).toInt = (n : Int).bmod (2 ^ 16) := Int16.toInt_ofNat'
  rw [Int.bmod_def] at hi
  refine ⟨?_, ?_, fun hn => ?_⟩
  · rw [Int16.toUInt16_ofNat', UInt16.toNat_ofNat']
  · rw [Int16.lt_iff_toInt_lt, hi, Int16.toInt_zero]
    omega
  · rw [Int16.toNatClampNeg, hi]
    omega

/-- One turn of the encoder: the key length and the key are written without a check. -/
theorem fieldsToMembuf_cons (out : Bytes) (num : UInt16) (f : Field) (fs : List Field) :
    fieldsToMembuf bufsize out num (f :: fs) =
      if f.key.strlen % 65536 < 32768 ∧ out.length + 2 + f.key.strlen % 65536 ≤ bufsize then do
        let val ← valueToMembuf f.value (bufsize - (out.length + 2 + f.key.strlen % 65536))
        match val with
        | none => return none
        | some val => fieldsToMembuf bufsize (out ++ leBytes 2 (f.key.strlen % 65536) ++
            f.key.1.take (f.key.strlen % 65536) ++ val) (num + 1) fs
      else Res.fault := by
  obtain ⟨hu, hneg, hc⟩ := keylen_int16 f.key.strlen
  have hmod : f.key.strlen % 65536 ≤ f.key.1.length := Nat.mod_le _ _
  rw [fieldsToMembuf, hu]
  by_cases hput : out.length + 2 ≤ bufsize
  swap
  · rw [put, if_neg (by simpa using hput), if_neg (by omega)]
    rfl
  rw [put_ok (by simpa using hput), ok_bind]
  by_cases hk : f.key.strlen % 65536 < 32768
  swap
  · rw [if_pos (hneg.mpr (by omega)), if_neg (by omega)]
  have hkey : rdBytes (f.key.1 ++ [0]) 0 (f.key.strlen % 65536) =
    .ok (f.key.1.take (f.key.strlen % 65536)) := by
    rw [rdBytes_ok (by simp; omega), drop_zero, take_append_of_le_length hmod]
  have hlen : (out ++ leBytes 2 (f.key.strlen % 65536) ++ f.key.1.take
      (f.key.strlen % 65536)).length = out.length + 2 + f.key.strlen % 65536 := by
    simp only [length_append, leBytes_length, length_take]
    omega
  rw [if_neg (fun h => absurd (hneg.mp h) (by omega)), hc hk, hkey, ok_bind]
  by_cases hput : out.length + 2 + f.key.strlen % 65536 ≤ bufsize
  · rw [put_ok (by rw [← length_append, hlen]; exact hput), ok_bind, hlen, if_pos ⟨hk, hput⟩]
  · rw [put, if_neg (by rw [← length_append, hlen]; exact hput), if_neg (fun h => hput h.2)]
    rfl

theorem fieldsToMembuf_eq (out : Bytes) (num : UInt16)
    (h : ∀ f ∈ fs, f.Serializable) (hb : out.length + (encFields fs).length ≤ bufsize) :
    fieldsToMembuf bufsize out num fs = .ok (some (out ++ encFields fs, num + UInt16.ofNat fs.length)) := by
  induction fs generalizing out num with
  | nil => simp [fieldsToMembuf]
  | cons f fs ih =>
    obtain ⟨hk, hv⟩ := h f (mem_cons_self)
    rw [encFields_cons, length_append, encField_length] at hb
    have hlen : (out ++ leBytes 2 f.key.strlen ++ f.key.1 ++ encValue f.value).length =
        out.length + 2 + f.key.strlen + (encValue f.value).length := by
      simp [CStr.strlen]
      omega
    rw [fieldsToMembuf_cons, Nat.mod_eq_of_lt (by omega), if_pos (by omega),
      toMembuf_eq hv (by omega), ok_bind, show f.key.1.take f.key.strlen = f.key.1 from take_length]
    show fieldsToMembuf bufsize _ _ fs = _
    rw [ih _ _ (forall_mem_cons.mp h).2 (by rw [hlen]; omega)]
    have hnum : num + 1 + UInt16.ofNat fs.length = num + UInt16.ofNat (fs.length + 1) := by
      rw [UInt16.ofNat_add, UInt16.add_assoc, UInt16.add_comm 1]; rfl
    simp only [encFields_cons, encField, append_assoc, length_cons, hnum]

/-- The encoder writes the layout into any buffer that has room for it. -/
theorem logdataToMembuf_eq (h : ∀ f ∈ ld.fields, f.Serializable)
    (hn : ld.fields.length < 65536) {bufsize : Nat} (hb : (encLogdata ld).length ≤ bufsize) :
    logdataToMembuf ld bufsize = .ok (some (encLogdata ld)) := by
  rw [encLogdata_length] at hb
  have hcount : (0 + UInt16.ofNat ld.fields.length).toNat = ld.fields.length := by
    rw [UInt16.zero_add, UInt16.toNat_ofNat']; omega
  rw [logdataToMembuf, fieldsToMembuf_eq bufsize ld.fields [0, 0] 0 h (by simpa using hb), ok_bind]
  simp only [hcount]
  rw [put_ok (by simp; omega)]
  rfl

/-! ## Decoding an encoding -/

/-- What the decoder makes of a field whose string is to be the object `addr`. -/
def Field.decoded (addr : Nat) (f : Field) : Field := ⟨f.key, f.value.decoded addr⟩

/-- One turn of the decoder on the encoding of `f`. -/
def Logdata.pushDecoded (ld : Logdata) (f : Field) : Logdata :=
  ld.addDecoded f.key (f.value.decoded ld.fields.length)

/-- The fields the decoder reads: non-empty keys, strings within the limit. -/
def Field.Decodable (f : Field) : Prop :=
  0 < f.key.strlen ∧ f.Serializable ∧ (f.value.defined = TRUE → f.value.data.StringFits)

theorem int16_succ {i : Int16} (h : i.toInt < 32767) : (i + 1).toInt = i.toInt + 1 := by
  have hmin : -2 ^ 15 ≤ i.toInt := Int16.le_toInt i
  rw [Int16.toInt_add, Int16.toInt_one]
  exact Int.bmod_eq_of_le (by omega) (by omega)

def wireKey (key : Bytes) : Bytes := leBytes 2 key.length ++ key

/-- One turn on a field whose key is complete. -/
theorem fieldsFromMembuf_key {mem key rest : Bytes} {bufsize offs n : Nat} {fields : UInt16}
    {i : Int16} (fuel : Nat)
    (ld : Logdata) (hi : i.toInt < fields.toNat) (hmem : mem.drop offs = wireKey key ++ rest)
    (hoffs : offs ≤ mem.length)
    (h0 : 0 < key.length) (h1 : key.length < 2 ^ 16) (hn : 0 < n) (hb : bufsize = offs + 2 + key.length + n) :
    fieldsFromMembuf mem bufsize fields (fuel + 1) i offs ld = (do
      let (val, vlen) ← valueFromMembuf ld.fields.length rest n
      fieldsFromMembuf mem bufsize fields fuel (i + 1) (offs + 2 + key.length + vlen)
        (ld.addDecoded (cut key) val)) := by
  have hm0 : mem.drop offs = leBytes 2 key.length ++ (key ++ rest) := by
    rw [hmem, wireKey, append_assoc]
  have hm2 : mem.drop (offs + 2) = key ++ rest := by
    have := drop_of_drop hm0; rwa [leBytes_length] at this
  have hkey : cpystrn (key ++ rest) key.length = .ok (cut key) := by
    rw [cpystrn_eq, if_pos (.inl (by simp)), take_left]
  rw [fieldsFromMembuf, if_pos hi, if_neg (by omega), rdLe_drop hm0 hoffs (by omega), ok_bind,
    if_neg (by omega),
    if_neg (by omega), hm2, hkey, ok_bind, drop_of_drop hm2,
    show bufsize - (offs + 2 + key.length) = n by omega]

theorem fieldsFromMembuf_enc (mem t : Bytes) (bufsize : Nat) (fields : UInt16) (hn : fields.toNat ≤ 32767)
    (fs : List Field) (fuel : Nat) (i : Int16) (offs : Nat) (ld : Logdata) (h : ∀ f ∈ fs,
    f.Decodable) (hmem : mem.drop offs = encFields fs ++ t) (hoffs : offs ≤ mem.length)
    (hb : offs + (encFields fs).length ≤ bufsize) (hfuel : fs.length < fuel)
    (hi : i.toInt + fs.length = fields.toNat) :
    fieldsFromMembuf mem bufsize fields fuel i offs ld =
      .ok (fs.foldl Logdata.pushDecoded ld, offs + (encFields fs).length) := by
  induction fs generalizing fuel i offs ld with
  | nil =>
    obtain ⟨fuel, rfl⟩ : ∃ k, fuel = k + 1 := ⟨fuel - 1, by simp at hfuel; omega⟩
    simp only [length_nil] at hi
    rw [fieldsFromMembuf, if_neg (by omega)]; rfl
  | cons f fs ih =>
    obtain ⟨fuel, rfl⟩ : ∃ k, fuel = k + 1 := ⟨fuel - 1, by simp at hfuel; omega⟩
    obtain ⟨hpos, ⟨hk, hv⟩, hs⟩ := h f (mem_cons_self)
    simp only [encFields_cons, length_append, encField_length, length_cons] at hb hi hfuel
    have hval2 := encValue_length_ge f.value
    have hkl : f.key.1.length = f.key.strlen := rfl
    have hm0 : mem.drop offs = wireKey f.key.1 ++ (encValue f.value ++ (encFields fs ++ t)) := by
      rw [hmem]; simp [encField, wireKey, CStr.strlen, append_assoc]
    have hm4 := drop_of_drop (drop_of_drop hm0)
    have hlen := length_of_drop hm0 hoffs
    simp only [wireKey, leBytes_length, length_append, hkl, ← Nat.add_assoc] at hlen hm4
    have hstep := int16_succ (i := i) (by omega)
    have hroom : bufsize = offs + 2 + f.key.1.length + (bufsize - (offs + 2 + f.key.1.length)) := by omega
    rw [fieldsFromMembuf_key fuel ld (by omega) hm0 hoffs (by omega) (by omega) (by omega) hroom,
      hkl, cut_cstr, valueFromMembuf_enc _ _ hv hs _ _ (by omega), ok_bind]
    show fieldsFromMembuf mem bufsize fields fuel _ _ (ld.pushDecoded f) = _
    rw [ih fuel (i + 1) _ (ld.pushDecoded f) (forall_mem_cons.mp h).2 hm4
      (by omega) (by omega) (by omega) (by omega)]
    simp only [foldl_cons, encFields_cons, length_append, encField_length]
    congr 2; omega

theorem addDecoded_fields (ld : Logdata) (key : CStr) (val : NxValue) :
    (ld.addDecoded key val).fields = ld.fields ++ [⟨key, val⟩] := by
  unfold Logdata.addDecoded
  split
  · by_cases hk : key = rawEvent
    · rw [if_pos hk]; rfl
    · rw [if_neg hk]; rfl
  · rfl

theorem fillRawEvent_fields (ld : Logdata) : ld.fillRawEvent.fields = ld.fields := by
  unfold Logdata.fillRawEvent
  split <;> rfl

def Logdata.addAll (ld : Logdata) (kvs : List (CStr × NxValue)) : Logdata :=
  kvs.foldl (fun ld kv => ld.addDecoded kv.1 kv.2) ld

theorem addAll_fields (kvs : List (CStr × NxValue)) : ∀ ld : Logdata,
    (ld.addAll kvs).fields = ld.fields ++ kvs.map fun kv => ⟨kv.1, kv.2⟩ := by
  induction kvs with
  | nil => intro ld; simp [Logdata.addAll]
  | cons kv kvs ih =>
    intro ld
    have := ih (ld.addDecoded kv.1 kv.2)
    rw [addDecoded_fields, append_assoc] at this
    exact this

/-- The strings of the decoded record are numbered. -/
theorem foldl_pushDecoded (ld : Logdata) : fs.foldl Logdata.pushDecoded ld =
    ld.addAll (fs.mapIdx fun j f => (f.key, f.value.decoded (ld.fields.length + j))) := by
  induction fs generalizing ld with
  | nil => rfl
  | cons f fs ih =>
    have hlen : (ld.pushDecoded f).fields.length = ld.fields.length + 1 := by
      rw [Logdata.pushDecoded, addDecoded_fields, length_append, length_singleton]
    rw [foldl_cons, ih, hlen, mapIdx_cons]
    simp only [Nat.add_assoc, Nat.add_comm 1]
    rfl

/-- The fields of the decoded record: those of the encoded one, their strings
numbered. -/
theorem foldl_pushDecoded_fields (ld : Logdata) :
    (fs.foldl Logdata.pushDecoded ld).fields = ld.fields ++ fs.mapIdx
      (fun j f => f.decoded (ld.fields.length + j)) := by
  rw [foldl_pushDecoded, addAll_fields, mapIdx_eq_zipIdx_map, mapIdx_eq_zipIdx_map, map_map]
  rfl

/-- The decoder on an encoded record, whatever follows it. -/
theorem logdataFromMembuf_enc (hn : ld.fields.length ≤ 32767)
    (h : ∀ f ∈ ld.fields, f.Decodable) (t : Bytes) (bufsize : Nat)
    (hb : (encLogdata ld).length ≤ bufsize) : logdataFromMembuf (encLogdata ld ++ t) bufsize =
      .ok ((ld.fields.foldl Logdata.pushDecoded ⟨none, [], []⟩).fillRawEvent, (encLogdata ld).length) := by
  have hl := encLogdata_length ld
  have hcount : (UInt16.ofNat ld.fields.length).toNat = ld.fields.length := by
    rw [UInt16.toNat_ofNat']; omega
  have hm0 : (encLogdata ld ++ t).drop 0 = leBytes 2 ld.fields.length ++ (encFields ld.fields ++ t) := by
    simp [encLogdata]
  have hm2 := drop_of_drop hm0
  simp only [leBytes_length, Nat.zero_add] at hm2
  -- every field takes at least two bytes, so there is fuel for all of them
  have hfuel : ∀ fs : List Field, fs.length ≤ (encFields fs).length := by
    intro fs
    induction fs with
    | nil => simp
    | cons f fs ih => simp only [encFields_cons, length_append, encField_length, length_cons]; omega
  have := hfuel ld.fields
  rw [logdataFromMembuf, if_neg (by omega), rdLe_drop hm0 (Nat.zero_le _) (by omega), ok_bind,
    fieldsFromMembuf_enc _ t bufsize _ (by omega) ld.fields _ _ _ _ h hm2 (by simp; omega)
      (by omega) (by omega) (by rw [hcount]; simp), ok_bind, hl]
  rfl

/-! ## Round trip -/

/-- Undefined, or of one of the six types a record is meant to carry, with a
string below the limit. -/
def NxValue.Encodable (v : NxValue) : Prop :=
  v.defined = FALSE ∨ (v.defined = TRUE ∧
    match v.data with
    | .integer _ | .datetime _ | .ip4addr _ | .ip6addr _ => True
    | .string s => ∃ x, s = some x ∧ x.buf.length < stringLimit
    | .boolean b => b = TRUE ∨ b = FALSE
    | .regexp _ _ | .binary _ _ | .unknown | .other _ => False)

structure Logdata.Encodable (ld : Logdata) : Prop where
  count : ld.fields.length ≤ 32767
  keys : ∀ f ∈ ld.fields, 1 ≤ f.key.strlen ∧ f.key.strlen ≤ 32767
  unique : ld.fields.Pairwise fun f g => ¬ strcasecmp f.key g.key
  raw : ∃ f ∈ ld.fields, f.key = rawEvent ∧ ∃ s, f.value.string? = some s
  values : ∀ f ∈ ld.fields, f.value.Encodable

variable {v : NxValue}

theorem NxValue.Encodable.serializable (h : v.Encodable) : v.Serializable := by
  rcases h with h | ⟨h, hd⟩
  · exact .inl h
  refine .inr ⟨h, ?_⟩
  cases hv : v.data with
  | string s =>
    rw [hv] at hd
    obtain ⟨x, rfl, hx⟩ := hd
    exact ⟨x, rfl, by unfold stringLimit at hx; omega⟩
  | _ => rw [hv] at hd; first | exact hd | exact hd.elim

theorem NxValue.Encodable.faithful (h : v.Encodable) : v.Faithful := by
  intro ht
  rcases h with h | ⟨-, hd⟩
  · rw [h] at ht; exact absurd ht (by decide)
  cases hv : v.data with
  | string s =>
    rw [hv] at hd
    obtain ⟨x, rfl, hx⟩ := hd
    exact ⟨Nat.le_of_lt hx, trivial⟩
  | binary _ _ => rw [hv] at hd; exact hd.elim
  | _ => exact ⟨trivial, trivial⟩

theorem Logdata.Encodable.decodable (h : ld.Encodable) : ∀ f ∈ ld.fields, f.Decodable := by
  intro f hf
  obtain ⟨h1, h2⟩ := h.keys f hf
  have hv := h.values f hf
  exact ⟨h1, ⟨h2, hv.serializable⟩, fun ht => (hv.faithful ht).1⟩

/-- Decoding keeps the content of fields whose values are faithful. -/
theorem mapIdx_decoded_content (n : Nat) (h : ∀ f ∈ fs, f.value.Faithful) :
    (fs.mapIdx fun j f => f.decoded (n + j)).map Field.content = fs.map Field.content := by
  conv_rhs => rw [← zipIdx_map_fst 0 fs, map_map]
  rw [mapIdx_eq_zipIdx_map, map_map]
  refine map_congr_left fun p hp => ?_
  have hcontent : (p.1.value.decoded (n + p.2)).content = p.1.value.content :=
    NxValue.content_decoded.mpr fun ht => (h p.1 (fst_mem_of_mem_zipIdx hp) ht).2
  simp only [Function.comp, Field.content, Field.decoded, hcontent]

/-! ### Where `raw_event` ends up -/

/-- Only a field with the exact name moves the pointer. -/
theorem addDecoded_raw_event_of_ne (ld : Logdata) {key : CStr} (v : NxValue) (h : key ≠ rawEvent) :
    (ld.addDecoded key v).raw_event = ld.raw_event := by
  unfold Logdata.addDecoded
  split
  · rw [if_neg h]; rfl
  · rfl

/-- A STRING under the exact name takes the pointer along. -/
theorem addDecoded_raw_event (ld : Logdata) {s : NxString} (hs : v.string? = some s) :
    (ld.addDecoded rawEvent v).raw_event = some s.addr := by
  obtain ⟨-, hd⟩ := string?_some hs
  unfold Logdata.addDecoded Logdata.appendFieldValue
  simp [hd]

theorem addAll_raw_event_of_ne (kvs : List (CStr × NxValue)) (h : ∀ kv ∈ kvs, kv.1 ≠ rawEvent) :
    ∀ ld : Logdata, (ld.addAll kvs).raw_event = ld.raw_event := by
  induction kvs with
  | nil => intro ld; rfl
  | cons kv kvs ih =>
    intro ld
    rw [← addDecoded_raw_event_of_ne ld kv.2 (h kv mem_cons_self)]
    exact ih (forall_mem_cons.mp h).2 _

theorem addAll_raw_event {kvs : List (CStr × NxValue)}
    (hu : kvs.Pairwise fun a b => ¬ strcasecmp a.1 b.1) {s : NxString}
    (hm : (rawEvent, v) ∈ kvs) (hs : v.string? = some s) (ld : Logdata) :
    (ld.addAll kvs).raw_event = some s.addr := by
  -- after the turn for the field, no turn moves the pointer again
  obtain ⟨pre, post, rfl⟩ := append_of_mem hm
  have hpost : ∀ kv ∈ post, kv.1 ≠ rawEvent := by
    intro kv hkv he
    have h1 := (pairwise_append.mp hu).2.1
    have h2 := (pairwise_cons.mp h1).1 kv hkv
    rw [he] at h2
    exact h2 (strcasecmp_refl _)
  have hsplit : ld.addAll (pre ++ (rawEvent, v) :: post) =
      ((ld.addAll pre).addDecoded rawEvent v).addAll post := by
    simp [Logdata.addAll]
  rw [hsplit, addAll_raw_event_of_ne post hpost]
  exact addDecoded_raw_event _ hs

theorem fillRawEvent_of_some {a : Nat} (h : ld.raw_event = some a) : ld.fillRawEvent = ld := by
  unfold Logdata.fillRawEvent
  rw [h]

/-- A decoded value owns a string exactly when the encoded one did, under its new name. -/
theorem string?_decoded (v : NxValue) (addr : Nat) :
    (v.decoded addr).string? = v.string?.map fun s => ⟨addr, s.buf⟩ := by
  obtain ⟨defined, data⟩ := v
  by_cases h : defined = TRUE
  · subst h
    cases data with
    | string s => cases s <;> rfl
    | _ => rfl
  · simp only [NxValue.decoded, NxValue.string?, if_neg h]
    cases data with
    | string s => rfl
    | _ => rfl

/-- The decoder leaves `raw_event` at the field of that name. -/
theorem decoded_rawEventOwned {fs : List Field} (hu : fs.Pairwise fun f g => ¬ strcasecmp f.key g.key)
    (hraw : ∃ f ∈ fs, f.key = rawEvent ∧ ∃ s, f.value.string? = some s) :
    (fs.foldl Logdata.pushDecoded ⟨none, [], []⟩).fillRawEvent.RawEventOwned := by
  obtain ⟨f, hf, hk, s, hs⟩ := hraw
  have hfields := foldl_pushDecoded_fields fs ⟨none, [], []⟩
  simp only [nil_append, length_nil, Nat.zero_add] at hfields
  obtain ⟨n, hn, rfl⟩ := getElem_of_mem hf
  have hstring : (fs[n].value.decoded n).string? = some ⟨n, s.buf⟩ := by
    rw [string?_decoded, hs]
    rfl
  have hkeys : (fs.mapIdx fun j f => (f.key, f.value.decoded j)).Pairwise fun a b => ¬ strcasecmp a.1 b.1 := by
    rw [← zipIdx_map_fst 0 fs, pairwise_map] at hu
    rw [mapIdx_eq_zipIdx_map, pairwise_map]
    exact hu
  have hraw : (fs.foldl Logdata.pushDecoded ⟨none, [], []⟩).raw_event = some n := by
    rw [foldl_pushDecoded]
    simp only [length_nil, Nat.zero_add]
    refine addAll_raw_event hkeys (mem_mapIdx.mpr ⟨n, hn, ?_⟩) hstring _
    rw [hk]
  rw [fillRawEvent_of_some hraw]
  refine ⟨fs[n].decoded n, ?_, hk, ⟨n, s.buf⟩, hstring, hraw, ?_⟩
  · rw [hfields, mem_mapIdx]
    exact ⟨n, hn, rfl⟩
  intro g hg s' hs' haddr
  rw [hfields, mem_mapIdx] at hg
  obtain ⟨j, hj, rfl⟩ := hg
  rw [Field.decoded, string?_decoded] at hs'
  obtain ⟨s0, -, rfl⟩ := Option.map_eq_some_iff.mp hs'
  obtain rfl : j = n := haddr
  rfl

/-- Every encodable record comes back with the same fields in the same order, in
front of any bytes, from exactly its serialized size, with `raw_event` at the
string of the field of that name. -/
theorem record_roundTrip (ld : Logdata) (h : ld.Encodable) (t : Bytes) :
    ∃ enc ld', logdataSerializedSize ld = .ok enc.length ∧
      (∀ bufsize, enc.length ≤ bufsize → logdataToMembuf ld bufsize = .ok (some enc)) ∧
      logdataFromMembuf (enc ++ t) (enc ++ t).length = .ok (ld', enc.length) ∧
      ld'.content = ld.content ∧ ld'.RawEventOwned := by
  have hser : ∀ f ∈ ld.fields, f.Serializable := fun f hf => (h.decodable f hf).2.1
  have hcount := h.count
  refine ⟨encLogdata ld, _, logdataSerializedSize_eq hser, ?_,
    logdataFromMembuf_enc hcount h.decodable t _ (by simp), ?_, decoded_rawEventOwned h.unique h.raw⟩
  · intro bufsize hb
    exact logdataToMembuf_eq hser (by omega) hb
  · rw [Logdata.content, fillRawEvent_fields, foldl_pushDecoded_fields]
    exact mapIdx_decoded_content ld.fields _ fun f hf => (h.values f hf).faithful

/-- An empty line followed by an undefined integer and more bytes. -/
theorem record_roundTrip_two_fields :
    ∃ enc ld', logdataSerializedSize ⟨some 3, [⟨rawEvent, ⟨TRUE, .string (some ⟨3, []⟩)⟩⟩,
        ⟨⟨[65], by decide⟩, ⟨FALSE, .integer 0⟩⟩], []⟩ = .ok enc.length ∧
      (∀ bufsize, enc.length ≤ bufsize → logdataToMembuf ⟨some 3,
        [⟨rawEvent, ⟨TRUE, .string (some ⟨3, []⟩)⟩⟩, ⟨⟨[65], by decide⟩, ⟨FALSE, .integer 0⟩⟩], []⟩
          bufsize = .ok (some enc)) ∧
      logdataFromMembuf (enc ++ [7]) (enc ++ [7]).length = .ok (ld', enc.length) ∧
      ld'.content = [(rawEvent, ⟨TRUE, .string (some ⟨0, []⟩)⟩),
        (⟨[65], by decide⟩, ⟨FALSE, .integer 0⟩)] ∧ ld'.RawEventOwned :=
  record_roundTrip ⟨some 3, [⟨rawEvent, ⟨TRUE, .string (some ⟨3, []⟩)⟩⟩,
    ⟨⟨[65], by decide⟩, ⟨FALSE, .integer 0⟩⟩], []⟩
    { count := by decide
      keys := by decide
      unique := by decide
      raw := ⟨_, mem_cons_self, rfl, _, rfl⟩
      values := by
        intro f hf
        simp only [mem_cons, not_mem_nil, or_false] at hf
        rcases hf with rfl | rfl
        · exact .inr ⟨rfl, _, rfl, by decide⟩
        · exact .inl rfl } [7]

/-! ## Records that survive the codec -/

/-- `ld` is written as `enc`, in exactly its serialized size, and `enc` decodes,
all of it, to `ld'`, which has the same fields. -/
structure Encodes (ld : Logdata) (enc : Bytes) (ld' : Logdata) : Prop where
  size : logdataSerializedSize ld = .ok enc.length
  write : logdataToMembuf ld enc.length = .ok (some enc)
  read : logdataFromMembuf enc enc.length = .ok (ld', enc.length)
  same : ld'.content = ld.content

def RoundTrips (ld : Logdata) : Prop := ∃ enc ld', Encodes ld enc ld'

def encoded (ld : Logdata) : Bytes :=
  match logdataSerializedSize ld with
  | .ok n =>
    match logdataToMembuf ld n with
    | .ok (some enc) => enc
    | _ => []
  | .error _ => []

def reread (ld : Logdata) : Logdata :=
  match logdataFromMembuf (encoded ld) (encoded ld).length with
  | .ok (ld', _) => ld'
  | .error _ => ld

theorem RoundTrips.encodes (h : RoundTrips ld) : Encodes ld (encoded ld) (reread ld) := by
  obtain ⟨enc, ld', h⟩ := h
  have he : encoded ld = enc := by simp only [encoded, h.size, h.write]
  have hr : reread ld = ld' := by simp only [reread, he, h.read]
  rw [he, hr]
  exact h

theorem RoundTrips.content (h : RoundTrips ld) : (reread ld).content = ld.content :=
  h.encodes.same

/-- A record has at least its field count. -/
theorem Encodes.two_le {ld ld' : Logdata} {enc : Bytes} (h : Encodes ld enc ld') : 2 ≤ enc.length := by
  by_contra hc
  have := h.read
  rw [logdataFromMembuf, if_pos (by omega)] at this
  cases this

/-- Up to 32767 fields that are read back and keep their content make a record
that survives the codec. -/
theorem roundTrips_of_fields (hn : ld.fields.length ≤ 32767)
    (hd : ∀ f ∈ ld.fields, f.Decodable) (hf : ∀ f ∈ ld.fields, f.value.Faithful) : RoundTrips ld := by
  have hser : ∀ f ∈ ld.fields, f.Serializable := fun f hf => (hd f hf).2.1
  refine ⟨encLogdata ld, (ld.fields.foldl Logdata.pushDecoded ⟨none, [], []⟩).fillRawEvent,
    logdataSerializedSize_eq hser, logdataToMembuf_eq hser (by omega) (Nat.le_refl _), ?_, ?_⟩
  · have := logdataFromMembuf_enc hn hd [] (encLogdata ld).length (Nat.le_refl _)
    rwa [append_nil] at this
  · rw [Logdata.content, fillRawEvent_fields, foldl_pushDecoded_fields]
    exact mapIdx_decoded_content ld.fields _ hf

theorem Logdata.Encodable.roundTrips (h : ld.Encodable) : RoundTrips ld :=
  roundTrips_of_fields h.count h.decodable fun f hf => (h.values f hf).faithful

theorem valueFromMembuf_ne_nil {addr : Nat} {mem : Bytes} {n : Nat} {r : NxValue × Nat}
    (h : valueFromMembuf addr mem n = .ok r) : mem ≠ [] := by
  rintro rfl
  obtain ⟨_, -, h⟩ := bind_eq_ok.mp h
  split at h
  · cases h
  · cases h

theorem fieldsFromMembuf_mono {mem t : Bytes} {n n' : Nat} {fields : UInt16} (hn : n ≤ n')
    (fuel fuel' : Nat) (i : Int16) (offs : Nat) (ld : Logdata) (r : Logdata × Nat)
    (hf : fuel ≤ fuel') (h : fieldsFromMembuf mem n fields fuel i offs ld = .ok r) :
    fieldsFromMembuf (mem ++ t) n' fields fuel' i offs ld = .ok r := by
  induction fuel generalizing fuel' i offs ld r with
  | zero => cases h
  | succ fuel ih =>
    obtain ⟨fuel', rfl⟩ : ∃ k, fuel' = k + 1 := ⟨fuel' - 1, by omega⟩
    unfold fieldsFromMembuf at h ⊢
    by_cases hi : i.toInt < fields.toNat
    · rw [if_pos hi] at h ⊢
      split at h; · cases h
      rw [if_neg (by omega)]
      refine bind_mono h (fun _ => rdLe_mono) fun keylen hkeylen h => ?_
      split at h; · cases h
      split at h; · cases h
      rename_i hk0 hkn
      rw [if_neg hk0, if_neg (by omega)]
      have hoffs := (rdLe_length hkeylen).1
      rw [drop_append_of_le_length hoffs]
      refine bind_mono h (fun _ => cpystrn_mono) fun key _ h => ?_
      obtain ⟨⟨val, vlen⟩, hval, h⟩ := bind_eq_ok.mp h
      have hle : offs + 2 + keylen ≤ mem.length := by
        have := valueFromMembuf_ne_nil hval
        rw [ne_eq, drop_eq_nil_iff] at this
        omega
      rw [drop_append_of_le_length hle, valueFromMembuf_mono (by omega) hval, ok_bind]
      exact ih fuel' _ _ _ r (by omega) h
    · rw [if_neg hi] at h ⊢
      exact h

/-- What follows a record in memory, and how much of it the decoder may look at,
does not change the decoded record. -/
theorem logdataFromMembuf_mono {mem t : Bytes} {n n' : Nat} {r : Logdata × Nat} (hn : n ≤ n')
    (h : logdataFromMembuf mem n = .ok r) : logdataFromMembuf (mem ++ t) n' = .ok r := by
  unfold logdataFromMembuf at h ⊢
  split at h; · cases h
  rw [if_neg (by omega)]
  refine bind_mono h (fun _ => rdLe_mono) fun fields _ h => ?_
  exact bind_mono h (fun _ => fieldsFromMembuf_mono hn _ _ _ _ _ _ (by omega)) fun _ _ h => h

end Nxlog.L1
