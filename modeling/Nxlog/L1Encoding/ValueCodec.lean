import Nxlog.L1Encoding.Value

/-!
# The value codec (`common/value-serialize.c`)

A serialized value is a type byte, a `defined` byte and, for a defined value, a
payload: 8 bytes for integers and datetimes, 1 for booleans, 4 and 16 for
addresses, and a 32-bit length with that many bytes for strings and binaries.

Three functions know this layout: `valueSerializedSize`, `valueToMembuf` and
`valueFromMembuf`. `encValue` is the layout itself, and the first two are shown
to agree with it (`serializedSize_eq`, `toMembuf_eq`).

* `valueFromMembuf_mono`: what the decoder returns does not depend on bytes
  behind the value, nor on how large it is told the buffer is.
* `value_roundTrip`: decoding the encoding of a value gives the value back,
  whatever follows, exactly for the values in `Faithful`. The two kinds that are
  left out: a non-empty BINARY, because the decoder copies the bytes and never
  sets `binary.len`, and a STRING above the string limit, which it refuses.
-/
namespace Nxlog.L1
open Res List

/-! ## The three functions of the source -/

/-- `nx_int64_to_le` of an `int64_t`. -/
def le64 (i : Int64) : Bytes := leBytes 8 i.toUInt64.toNat

/-- mirrors common/value-serialize.c:23-68 (`nx_value_serialized_size`). The
`REGEXP` case falls through into `BOOLEAN`. -/
def valueSerializedSize (v : NxValue) : Res Nat :=
  if v.defined = TRUE then
    match v.data with
    | .integer _ => .ok (2 + 8)
    | .string (some s) => .ok (2 + 4 + s.buf.length)
    | .string none => Res.fault
    | .datetime _ => .ok (2 + 8)
    | .regexp (some str) _ => .ok (2 + 4 + str.length + 1)
    | .regexp none _ => Res.fault
    | .boolean _ => .ok (2 + 1)
    | .ip4addr _ => .ok (2 + 4)
    | .ip6addr _ => .ok (2 + 16)
    | .binary _ len => .ok (2 + 4 + len.toNat)
    | .unknown => .error (.assert "cannot serialize UNKNOWN type")
    | .other t => .error (.assert ("invalid type: " ++ toString t.1.toNat))
  else .ok 2

/-- One fixed-size payload of `nx_value_to_membuf`; `none` is `return (0)`. -/
def putFixed (bufsize : Nat) (out bs : Bytes) : Res (Option Bytes) :=
  if bufsize < 2 + bs.length then .ok none
  else do
    let out ← put bufsize out bs
    return some out

/-- One length-prefixed payload of `nx_value_to_membuf`: `len` is the recorded
length, `src` the memory it is copied from. -/
def putSized (bufsize : Nat) (out src : Bytes) (len : Nat) : Res (Option Bytes) :=
  if bufsize < 2 + len + 4 then .ok none
  else do
    let out ← put bufsize out (leBytes 4 len)
    let bs ← rdBytes src 0 len
    let out ← put bufsize out bs
    return some out

/-- mirrors common/value-serialize.c:73-186 (`nx_value_to_membuf`). Returns the
bytes between `buf` and `ptr`, whose number is the return value; `none` is
`return (0)` (not enough space). -/
def valueToMembuf (v : NxValue) (bufsize : Nat) : Res (Option Bytes) :=
  if bufsize < 2 then .ok none
  else do
    let out ← put bufsize [] [v.type.tag]
    let out ← put bufsize out [v.defined.toUInt8]
    if v.defined = TRUE then
      match v.data with
      | .integer i => putFixed bufsize out (le64 i)
      | .string (some s) => putSized bufsize out s.buf s.buf.length
      | .string none => Res.fault
      | .datetime t => putFixed bufsize out (le64 t)
      | .regexp (some str) low => do
        let r ← putSized bufsize out str str.length
        match r with
        | none => return none
        | some out => putFixed bufsize out [low]
      | .regexp none _ => Res.fault
      | .boolean b => putFixed bufsize out [b.toUInt8]
      | .ip4addr a => putFixed bufsize out a.1
      | .ip6addr a => putFixed bufsize out a.1
      | .binary (some value) len => putSized bufsize out value len.toNat
      | .binary none len => putSized bufsize out [] len.toNat
      | .unknown => .error (.assert "cannot serialize UNKNOWN type")
      | .other t => .error (.assert ("invalid type: " ++ toString t.1.toNat))
    else return some out

def needFixed (bufsize n : Nat) (what : String) : Res Unit :=
  if 2 + n ≤ bufsize then .ok () else Res.throw ("not enough data to decode serialized " ++ what)

/-- The two size checks of a length-prefixed payload; returns the length. -/
def needSized (mem : Bytes) (bufsize : Nat) (what : String) : Res Nat := do
  if 2 + 4 ≤ bufsize then do
    let len ← rdLe mem 2 4
    if 2 + 4 + len ≤ bufsize then return len
    else Res.throw ("not enough data to decode serialized " ++ what ++ " buffer (required: "
      ++ toString (cInt len) ++ ", available: " ++ toString (bufsize - 6) ++ ")")
  else Res.throw ("not enough data to decode serialized " ++ what ++ " length")

/-- mirrors common/value-serialize.c:219-326 (the `switch` of
`nx_value_from_membuf`): the payload and the offset behind it. The `BINARY` case
leaves `binary.len` at the zero of `nx_value_new`. -/
def payloadFromMembuf (addr : Nat) (mem : Bytes) (bufsize : Nat) : ValueType → Res (Data × Nat)
  | .integer => do
    needFixed bufsize 8 "integer"
    let n ← rdLe mem 2 8
    return (.integer (UInt64.ofNat n).toInt64, 2 + 8)
  | .string => do
    let len ← needSized mem bufsize "string"
    let s ← stringCreate addr (mem.drop 6) (cInt len)
    return (.string (some s), 2 + 4 + len)
  | .datetime => do
    needFixed bufsize 8 "datetime"
    let n ← rdLe mem 2 8
    return (.datetime (UInt64.ofNat n).toInt64, 2 + 8)
  | .regexp => Res.throw "regexp should not need to be serialized"
  | .boolean => do
    needFixed bufsize 1 "boolean value"
    let c ← rd mem 2
    return (.boolean (charToBoolean c), 2 + 1)
  | .ip4addr => do
    needFixed bufsize 4 "ip4addr value"
    let a ← rdOctets mem 2 4
    return (.ip4addr a, 2 + 4)
  | .ip6addr => do
    needFixed bufsize 16 "ip6addr value"
    let a ← rdOctets mem 2 16
    return (.ip6addr a, 2 + 16)
  | .binary => do
    let len ← needSized mem bufsize "binary"
    let bs ← rdBytes mem 6 len
    return (.binary (some bs) 0, 2 + 4 + len)
  | .unknown => Res.throw "UNKNOWN type not allowed in serialized binary format"
  | .other t => Res.throw ("invalid type in serialized binary format: " ++ toString t.1.toNat)

/-- mirrors common/value-serialize.c:190-343 (`nx_value_from_membuf`): the value
and `*bytes`. `addr` names the string object the call may allocate. -/
def valueFromMembuf (addr : Nat) (mem : Bytes) (bufsize : Nat) : Res (NxValue × Nat) := do
  Res.assert (0 < bufsize) "bufsize > 0"
  if 2 > bufsize then Res.throw "not enough data to decode serialized value (2 > bufsize)"
  else do
    let type ← rd mem 0
    let defined ← rd mem 1
    if defined = 1 then do
      let (data, offs) ← payloadFromMembuf addr mem bufsize (.ofTag type)
      return (⟨defined.toUInt32, data⟩, offs)
    else return (⟨defined.toUInt32, .zero (.ofTag type)⟩, 2)

/-! ## The layout -/

def encData : Data → Bytes
  | .integer i => le64 i
  | .string (some s) => leBytes 4 s.buf.length ++ s.buf
  | .datetime t => le64 t
  | .boolean b => [b.toUInt8]
  | .ip4addr a => a.1
  | .ip6addr a => a.1
  | .binary (some value) len => leBytes 4 len.toNat ++ value
  | _ => []

def encValue (v : NxValue) : Bytes :=
  [v.type.tag, v.defined.toUInt8] ++ if v.defined = TRUE then encData v.data else []

/-- A payload the codec is made for: the pointers are there, a boolean is `TRUE`
or `FALSE`, and the recorded lengths (32-bit) are those of the buffers. -/
def Data.Wf : Data → Prop
  | .integer _ | .datetime _ | .ip4addr _ | .ip6addr _ => True
  | .string s => ∃ x, s = some x ∧ x.buf.length < 2 ^ 32
  | .boolean b => b = TRUE ∨ b = FALSE
  | .binary value len => ∃ x, value = some x ∧ x.length = len.toNat
  | .regexp _ _ | .unknown | .other _ => False

/-- Undefined of any type, or defined with a payload of one of the seven
serializable types. -/
def NxValue.Serializable (v : NxValue) : Prop :=
  v.defined = FALSE ∨ (v.defined = TRUE ∧ v.data.Wf)

/-- The payload is there: no `NULL` where the type has a pointer. -/
def Data.Present : Data → Prop
  | .string s => s.isSome
  | .regexp str _ => str.isSome
  | .binary value _ => value.isSome
  | .unknown | .other _ => False
  | .integer _ | .datetime _ | .boolean _ | .ip4addr _ | .ip6addr _ => True

/-- The offset behind a defined value. -/
def definedSize (mem : Bytes) : ValueType → Nat
  | .integer | .datetime => 2 + 8
  | .boolean => 2 + 1
  | .ip4addr => 2 + 4
  | .ip6addr => 2 + 16
  | .string | .binary => 2 + 4 + leNat ((mem.drop 2).take 4)
  | .regexp | .unknown | .other _ => 2

/-- Only a value whose `defined` byte is 1 has a payload. -/
def valueSize (mem : Bytes) : Nat :=
  if mem.getD 1 0 = 1 then definedSize mem (.ofTag (mem.getD 0 0)) else 2

variable {addr bufsize : Nat} {v : NxValue} {what : String} {mem t : Bytes}

@[simp] theorem le64_length (i : Int64) : (le64 i).length = 8 := leBytes_length _ _

theorem encValue_length_ge (v : NxValue) : 2 ≤ (encValue v).length := by
  simp [encValue]

theorem encValue_defined (h : v.defined = TRUE) : encValue v = v.type.tag :: 1 :: encData v.data := by
  simp [encValue, h]

theorem encValue_undefined (h : v.defined = FALSE) : encValue v = [v.type.tag, 0] := by
  simp [encValue, h, show FALSE ≠ TRUE by decide]

/-- `nx_value_serialized_size` is the length of the layout. -/
theorem serializedSize_eq (h : v.Serializable) : valueSerializedSize v = .ok (encValue v).length := by
  unfold valueSerializedSize
  rcases h with h | ⟨h, hw⟩
  · rw [h, if_neg (by decide), encValue_undefined h]; rfl
  rw [h, if_pos rfl, encValue_defined h]
  cases hd : v.data with
  | string s =>
    rw [hd] at hw; obtain ⟨x, rfl, -⟩ := hw
    simp [encData]; omega
  | binary value len =>
    rw [hd] at hw; obtain ⟨x, rfl, hx⟩ := hw
    simp [encData, hx]; omega
  | regexp | unknown | other => rw [hd] at hw; exact hw.elim
  | ip4addr a | ip6addr a => simp [encData, a.2]
  | _ => simp [encData]

variable {out bs src : Bytes}

theorem putFixed_eq (ho : out.length = 2) :
    putFixed bufsize out bs = .ok (if bufsize < (out ++ bs).length then none else some (out ++ bs)) := by
  rw [putFixed, length_append, ho]
  split
  · rfl
  · rw [put_ok (by omega)]
    rfl

theorem putSized_eq (ho : out.length = 2) :
    putSized bufsize out src src.length =
    .ok (if bufsize < (out ++ (leBytes 4 src.length ++ src)).length then none
      else some (out ++ (leBytes 4 src.length ++ src))) := by
  have hsize : (out ++ (leBytes 4 src.length ++ src)).length = 2 + src.length + 4 := by simp; omega
  have hr : rdBytes src 0 src.length = .ok src := rdBytes_drop (t := []) (by simp) (Nat.zero_le _)
  rw [putSized, hsize]
  split
  · rfl
  · rw [put_ok (by simp; omega), ok_bind, hr, ok_bind, put_ok (by simp; omega), append_assoc]
    rfl

/-- `nx_value_to_membuf` writes the layout into a buffer that has room for it, and returns 0
otherwise. -/
theorem valueToMembuf_eq (h : v.Serializable) (bufsize : Nat) :
    valueToMembuf v bufsize = .ok (if bufsize < (encValue v).length then none else some (encValue v)) := by
  have h2 := encValue_length_ge v
  unfold valueToMembuf
  by_cases hb : bufsize < 2
  · rw [if_pos hb, if_pos (by omega)]
  rw [if_neg hb, put_ok (by simp; omega), ok_bind, put_ok (by simp; omega), ok_bind]
  rcases h with h | ⟨h, hw⟩
  · rw [encValue_undefined h, h, if_neg (by decide)]
    exact congrArg Except.ok (if_neg hb).symm
  rw [encValue_defined h, h, if_pos rfl]
  cases hd : v.data with
  | integer | datetime | boolean | ip4addr | ip6addr => exact putFixed_eq rfl
  | string s =>
    rw [hd] at hw
    obtain ⟨x, rfl, -⟩ := hw
    exact putSized_eq rfl
  | binary value len =>
    rw [hd] at hw
    obtain ⟨x, rfl, hx⟩ := hw
    simp only [encData, ← hx]
    exact putSized_eq rfl
  | regexp | unknown | other =>
    rw [hd] at hw
    exact hw.elim

theorem toMembuf_eq (h : v.Serializable) (hb : (encValue v).length ≤ bufsize) :
    valueToMembuf v bufsize = .ok (some (encValue v)) := by
  rw [valueToMembuf_eq h, if_neg (Nat.not_lt.mpr hb)]

/-! ## Decoding -/

variable {n n' : Nat}

theorem needFixed_mono {k : Nat} {u : Unit} (hn : n ≤ n')
    (h : needFixed n k what = .ok u) : needFixed n' k what = .ok u := by
  unfold needFixed at h ⊢
  split at h
  · rw [if_pos (by omega)]
  · cases h

/-- What the two checks of a length-prefixed payload establish. -/
theorem needSized_ok {len : Nat} (h : needSized mem n what = .ok len) : rdLe mem 2 4 = .ok len ∧
    6 + len ≤ n := by
  unfold needSized at h
  split at h
  · obtain ⟨l, hl, h⟩ := bind_eq_ok.mp h
    split at h
    · cases h; exact ⟨hl, ‹_›⟩
    · cases h
  · cases h

theorem needSized_of {len : Nat} (h : rdLe mem 2 4 = .ok len) (hn : 6 + len ≤ n) :
    needSized mem n what = .ok len := by
  rw [needSized, if_pos (by omega), h, ok_bind, if_pos (by omega)]; rfl

theorem needSized_mono {len : Nat} (hn : n ≤ n')
    (h : needSized mem n what = .ok len) : needSized (mem ++ t) n' what = .ok len := by
  obtain ⟨hl, hle⟩ := needSized_ok h
  exact needSized_of (rdLe_mono hl) (by omega)

variable {ty : ValueType}

/-- Bytes behind a payload, and a larger buffer, do not change it. -/
theorem payloadFromMembuf_mono {r : Data × Nat} (hn : n ≤ n') (h : payloadFromMembuf addr mem n ty = .ok r) :
    payloadFromMembuf addr (mem ++ t) n' ty = .ok r := by
  cases ty with
  | integer | datetime =>
    refine bind_mono h (fun _ => needFixed_mono hn) fun _ _ h => ?_
    exact bind_mono h (fun _ => rdLe_mono) fun _ _ h => h
  | string =>
    refine bind_mono h (fun _ => needSized_mono hn) fun len hlen h => ?_
    have h6 := (rdLe_length (needSized_ok hlen).1).1
    rw [drop_append_of_le_length h6]
    exact bind_mono h (fun _ => stringCreate_mono) fun _ _ h => h
  | boolean =>
    refine bind_mono h (fun _ => needFixed_mono hn) fun _ _ h => ?_
    exact bind_mono h (fun _ => rd_mono) fun _ _ h => h
  | ip4addr | ip6addr =>
    refine bind_mono h (fun _ => needFixed_mono hn) fun _ _ h => ?_
    exact bind_mono h (fun _ => rdOctets_mono) fun _ _ h => h
  | binary =>
    refine bind_mono h (fun _ => needSized_mono hn) fun _ _ h => ?_
    exact bind_mono h (fun _ => rdBytes_mono) fun _ _ h => h
  | regexp | unknown | other => cases h

/-- What follows a value in memory, and how much of it the decoder may look at,
does not change the decoded value. -/
theorem valueFromMembuf_mono {r : NxValue × Nat} (hn : n ≤ n')
    (h : valueFromMembuf addr mem n = .ok r) : valueFromMembuf addr (mem ++ t) n' = .ok r := by
  refine bind_mono h (fun _ ha => ?_) fun _ _ h => ?_
  · by_cases h0 : 0 < n
    · simp [show 0 < n' by omega]
    · simp [h0] at ha
  · split at h; · cases h
    rw [if_neg (by omega)]
    refine bind_mono h (fun _ => rd_mono) fun type _ h => ?_
    refine bind_mono h (fun _ => rd_mono) fun defined _ h => ?_
    split at h
    · rename_i hd
      rw [if_pos hd]
      exact bind_mono h (fun _ => payloadFromMembuf_mono hn) fun _ _ h => h
    · rename_i hd
      rw [if_neg hd]; exact h

/-! ## Round trip -/

/-- What the decoder makes of a payload: the string is a new object, and the
recorded length of a binary is lost. -/
def Data.decoded (addr : Nat) : Data → Data
  | .string (some s) => .string (some ⟨addr, s.buf⟩)
  | .binary value _ => .binary value 0
  | d => d

def Data.StringFits : Data → Prop
  | .string (some s) => s.buf.length ≤ stringLimit
  | _ => True

theorem needFixed_ok {bufsize : Nat} (h : 2 + n ≤ bufsize) :
    needFixed bufsize n what = .ok () := if_pos h

variable {src : Bytes} {len : Nat}

theorem needSized_wire {b0 b1 : UInt8} (h : len < 2 ^ 32) (hs : len ≤ src.length) :
    needSized (b0 :: b1 :: (leBytes 4 len ++ src)) ((leBytes 4 len ++ src).length + 2) what = .ok len := by
  refine needSized_of (rdLe_drop (t := src) rfl (by simp) (by omega)) ?_
  simp only [length_append, leBytes_length]; omega

/-- A STRING whose length fits the buffer is up to `nx_string_create`. -/
theorem payload_string (addr : Nat) (b0 b1 : UInt8) (h : len < 2 ^ 32) (hs : len ≤ src.length) :
    payloadFromMembuf addr (b0 :: b1 :: (leBytes 4 len ++ src))
      ((leBytes 4 len ++ src).length + 2) .string = (do
        let s ← stringCreate addr src (cInt len)
        return (.string (some s), 2 + 4 + len)) := by
  have hd : (b0 :: b1 :: (leBytes 4 len ++ src)).drop 6 = src := rfl
  rw [payloadFromMembuf, needSized_wire h hs, ok_bind, hd]

theorem payload_binary (addr : Nat) (b0 b1 : UInt8) (h : len < 2 ^ 32) (hs : len ≤ src.length) :
    payloadFromMembuf addr (b0 :: b1 :: (leBytes 4 len ++ src)) ((leBytes 4 len ++ src).length + 2) .binary =
      .ok (.binary (some (src.take len)) 0, 2 + 4 + len) := by
  have hd : (b0 :: b1 :: (leBytes 4 len ++ src)).drop 6 = src := rfl
  rw [payloadFromMembuf, needSized_wire h hs, ok_bind, rdBytes_ok (by simp; omega), hd, ok_bind,
    pure_eq]

/-- The decoder on an encoded payload. -/
theorem payloadFromMembuf_enc (addr : Nat) {d : Data} (hw : d.Wf) (hs : d.StringFits)
    (b0 b1 : UInt8) : payloadFromMembuf addr (b0 :: b1 :: encData d)
      ((encData d).length + 2) d.type = .ok (d.decoded addr, 2 + (encData d).length) := by
  cases d with
  | integer i | datetime i =>
    have hk : rdLe (b0 :: b1 :: le64 i) 2 8 = .ok i.toUInt64.toNat :=
      rdLe_drop (t := []) (append_nil _).symm (by simp) i.toUInt64.toNat_lt
    rw [encData, le64_length, Data.type, payloadFromMembuf, needFixed_ok (by omega), ok_bind, hk,
      ok_bind, UInt64.ofNat_toNat]
    rfl
  | string s =>
    obtain ⟨x, rfl, hx⟩ := hw
    have hlim : x.buf.length < 2 ^ 31 := Nat.lt_of_le_of_lt hs (by decide)
    rw [encData, Data.type, payload_string addr b0 b1 hx (Nat.le_refl _), cInt_of_lt hlim,
      stringCreate_ok hs (Nat.le_refl _), take_length, ok_bind, length_append, leBytes_length, ← Nat.add_assoc]
    rfl
  | boolean b =>
    have hb : charToBoolean b.toUInt8 = b := by rcases hw with rfl | rfl <;> decide
    show Except.ok (Data.boolean (charToBoolean b.toUInt8), 3) = _
    rw [hb]
    rfl
  | ip4addr a | ip6addr a =>
    rw [encData, a.2, Data.type, payloadFromMembuf, needFixed_ok (by omega), ok_bind,
      rdOctets_drop (append_nil _).symm (by simp)]
    rfl
  | binary value len =>
    obtain ⟨x, rfl, hx⟩ := hw
    rw [encData, Data.type, payload_binary addr b0 b1 len.toNat_lt (Nat.le_of_eq hx.symm), ← hx,
      take_length, length_append,
      leBytes_length, ← Nat.add_assoc]
    rfl
  | regexp | unknown | other => exact hw.elim

/-- The decoder on the first two bytes of a value. -/
theorem valueFromMembuf_head (addr : Nat) (tag defined : UInt8) (t : Bytes) (n : Nat) (hn : 2 ≤ n) :
    valueFromMembuf addr (tag :: defined :: t) n =
      if defined = 1 then do
        let (data, offs) ← payloadFromMembuf addr (tag :: defined :: t) n (.ofTag tag)
        return (⟨defined.toUInt32, data⟩, offs) else .ok (⟨defined.toUInt32, .zero (.ofTag tag)⟩, 2) := by
  have h0 : decide (0 < n) = true := by simp; omega
  rw [valueFromMembuf, h0, assert_true, ok_bind, if_neg (by omega)]
  rfl

def NxValue.decoded (addr : Nat) (v : NxValue) : NxValue :=
  ⟨v.defined, if v.defined = TRUE then v.data.decoded addr else .zero v.type⟩

/-- The decoder on an encoded value, whatever follows it. -/
theorem valueFromMembuf_enc (addr : Nat) (v : NxValue) (hv : v.Serializable)
    (hs : v.defined = TRUE → v.data.StringFits) (t : Bytes) (n : Nat) (hn : (encValue v).length ≤ n) :
    valueFromMembuf addr (encValue v ++ t) n = .ok (v.decoded addr, (encValue v).length) := by
  refine valueFromMembuf_mono hn ?_
  rcases hv with h | ⟨h, hw⟩
  · rw [encValue_undefined h, valueFromMembuf_head _ _ _ _ _ (by simp), if_neg (by decide),
      ValueType.ofTag_tag, NxValue.decoded, h, if_neg (by decide)]
    rfl
  · have hp : payloadFromMembuf addr (v.type.tag :: 1 :: encData v.data) _ v.type = _ :=
      payloadFromMembuf_enc addr hw (hs h) v.type.tag 1
    rw [encValue_defined h, length_cons, length_cons, valueFromMembuf_head _ _ _ _ _ (by omega),
      if_pos rfl, ValueType.ofTag_tag, hp, NxValue.decoded, h, if_pos rfl, Nat.add_comm 2]
    rfl

theorem rd_getD {o : Nat} {b : UInt8} (h : rd mem o = .ok b) : mem.getD o 0 = b := by
  unfold rd at h
  cases hm : mem[o]? with
  | none => rw [hm] at h; cases h
  | some c =>
    rw [hm] at h
    cases h
    simp [getD, hm]

theorem rdLe_val {o k n : Nat} (h : rdLe mem o k = .ok n) : leNat ((mem.drop o).take k) = n := by
  by_cases hl : o + k ≤ mem.length
  · rw [rdLe_ok hl] at h
    cases h
    rfl
  · rw [rdLe_fault hl] at h
    cases h

variable {d : Data} {offs : Nat}

/-- Whatever the bytes, a decoded payload has its type, is there, and a STRING is not above the
limit. -/
theorem payload_shape (h : payloadFromMembuf addr mem n ty = .ok (d, offs)) :
    d.type = ty ∧ d.Present ∧ d.StringFits ∧ offs = definedSize mem ty := by
  cases ty with
  | integer | datetime | boolean | ip4addr | ip6addr =>
    obtain ⟨_, -, h⟩ := bind_eq_ok.mp h
    obtain ⟨_, -, h⟩ := bind_eq_ok.mp h
    cases h
    exact ⟨rfl, trivial, trivial, rfl⟩
  | string =>
    obtain ⟨len, hlen, h⟩ := bind_eq_ok.mp h
    obtain ⟨s, hs, h⟩ := bind_eq_ok.mp h
    cases h
    exact ⟨rfl, rfl, (stringCreate_length hs).2, by rw [definedSize, rdLe_val (needSized_ok hlen).1]⟩
  | binary =>
    obtain ⟨len, hlen, h⟩ := bind_eq_ok.mp h
    obtain ⟨_, -, h⟩ := bind_eq_ok.mp h
    cases h
    exact ⟨rfl, rfl, trivial, by rw [definedSize, rdLe_val (needSized_ok hlen).1]⟩
  | regexp | unknown | other => cases h

/-- A decoded value has the type and the flag of its first two bytes. -/
theorem valueFromMembuf_shape (h : valueFromMembuf addr mem n = .ok (v, offs)) :
    v.type = .ofTag (mem.getD 0 0) ∧ v.defined = (mem.getD 1 0).toUInt32 ∧
    (mem.getD 1 0 = 1 → v.data.Present) ∧
      (mem.getD 1 0 ≠ 1 → v.data = .zero v.type) ∧ offs = valueSize mem ∧ v.data.StringFits := by
  obtain ⟨_, -, h⟩ := bind_eq_ok.mp h
  split at h
  · cases h
  obtain ⟨tag, htag, h⟩ := bind_eq_ok.mp h
  obtain ⟨defined, hdef, h⟩ := bind_eq_ok.mp h
  unfold valueSize
  rw [rd_getD htag, rd_getD hdef]
  by_cases hd : defined = 1
  · rw [if_pos hd] at h ⊢
    obtain ⟨⟨d, offs⟩, hp, h⟩ := bind_eq_ok.mp h
    cases h
    obtain ⟨h1, h2, h3, h4⟩ := payload_shape hp
    exact ⟨h1, rfl, fun _ => h2, fun hc => absurd hd hc, h4, h3⟩
  · rw [if_neg hd] at h ⊢
    cases h
    refine ⟨Data.type_zero _, rfl, fun hc => absurd hc hd, fun _ => ?_, rfl, ?_⟩
    · rw [NxValue.type, Data.type_zero]
    · show (Data.zero (.ofTag tag)).StringFits
      cases ValueType.ofTag tag <;> trivial

theorem valueFromMembuf_stringFits (h : valueFromMembuf addr mem n = .ok (v, offs)) : v.data.StringFits :=
  (valueFromMembuf_shape h).2.2.2.2.2

/-- Having a string within the limit is a matter of the content. -/
theorem Data.stringFits_content (d : Data) : d.content.StringFits ↔ d.StringFits := by
  cases d with
  | string s => cases s <;> rfl
  | _ => rfl

/-- The binaries whose recorded length survives: the empty ones. -/
def Data.BinaryEmpty : Data → Prop
  | .binary _ len => len = 0
  | _ => True

theorem Data.content_decoded : (d.decoded addr).content = d.content ↔ d.BinaryEmpty := by
  cases d with
  | string s => cases s <;> simp [decoded, content, BinaryEmpty]
  | binary value len =>
    simp only [decoded, content, BinaryEmpty, binary.injEq]
    constructor
    · intro h; exact h.2.symm
    · rintro rfl; exact ⟨rfl, rfl⟩
  | _ => simp [decoded, content, BinaryEmpty]

/-- `v` survives the codec in front of the bytes `t`: its size is computed, it is
written in exactly that size, and reading it back gives the same type, `defined`
flag and payload and consumes exactly that size. -/
def RoundTripsWith (addr : Nat) (v : NxValue) (t : Bytes) : Prop :=
  ∃ enc w, valueSerializedSize v = .ok enc.length ∧ valueToMembuf v enc.length = .ok (some enc) ∧
    valueFromMembuf addr (enc ++ t) (enc ++ t).length = .ok (w, enc.length) ∧ w.content = v.content

/-- The values the codec keeps: a defined STRING is within the limit and a
defined BINARY is empty. -/
def NxValue.Faithful (v : NxValue) : Prop :=
  v.defined = TRUE → v.data.StringFits ∧ v.data.BinaryEmpty

theorem NxValue.content_decoded : (v.decoded addr).content = v.content ↔
    (v.defined = TRUE → v.data.BinaryEmpty) := by
  by_cases h : v.defined = TRUE
  · simp [decoded, content, h, Data.content_decoded]
  · simp [decoded, content, h, NxValue.type]

/-- On a serializable value the three functions meet in `encValue`, so only the
decoder's answer is left to look at. -/
theorem roundTripsWith_iff {t : Bytes} (hv : v.Serializable) :
    RoundTripsWith addr v t ↔ ∃ w, valueFromMembuf addr (encValue v ++ t) (encValue v ++ t).length =
      .ok (w, (encValue v).length) ∧ w.content = v.content := by
  constructor
  · rintro ⟨enc, w, hsize, hto, hfrom, hw⟩
    have hl : (encValue v).length = enc.length := by
      rw [serializedSize_eq hv] at hsize; exact Except.ok.inj hsize
    have he : encValue v = enc := by
      rw [toMembuf_eq hv (by omega)] at hto; exact Option.some.inj (Except.ok.inj hto)
    exact ⟨w, he ▸ hfrom, hw⟩
  · rintro ⟨w, hfrom, hw⟩
    exact ⟨encValue v, w, serializedSize_eq hv, toMembuf_eq hv (Nat.le_refl _), hfrom, hw⟩

theorem roundTripsWith_faithful (hv : v.Serializable) : RoundTripsWith addr v t ↔ v.Faithful := by
  rw [roundTripsWith_iff hv]
  constructor
  · rintro ⟨w, hfrom, hw⟩ hd
    -- the decoder never returns a longer string, so the original was within the limit
    have hdef : w.defined = v.defined := by simpa [NxValue.content] using congrArg NxValue.defined hw
    have hdata : w.data.content = v.data.content := by
      have := congrArg NxValue.data hw
      simpa [NxValue.content, hdef, hd] using this
    have hfit : v.data.StringFits := by
      rw [← Data.stringFits_content, ← hdata, Data.stringFits_content]
      exact valueFromMembuf_stringFits hfrom
    refine ⟨hfit, ?_⟩
    have henc := valueFromMembuf_enc addr v hv (fun _ => hfit) t (encValue v ++ t).length (by simp)
    rw [hfrom] at henc
    cases henc
    exact NxValue.content_decoded.mp hw hd
  · intro hf
    refine ⟨v.decoded addr, ?_, NxValue.content_decoded.mpr fun hd => (hf hd).2⟩
    exact valueFromMembuf_enc addr v hv (fun hd => (hf hd).1) t _ (by simp)

/-- The codec keeps a serializable value exactly when it is faithful. -/
theorem value_roundTrip (v : NxValue) (hv : v.Serializable) (addr : Nat) (t : Bytes) :
    RoundTripsWith addr v t ↔ v.Faithful := roundTripsWith_faithful hv

theorem value_roundTrip_hello :
    RoundTripsWith 0 ⟨TRUE, .string (some ⟨7, [0x68, 0x65, 0x6c, 0x6c, 0x6f]⟩)⟩ [0xff] :=
  (value_roundTrip ⟨TRUE, .string (some ⟨7, [0x68, 0x65, 0x6c, 0x6c, 0x6f]⟩)⟩
    (.inr ⟨rfl, _, rfl, by decide⟩) 0 [0xff]).mpr fun _ => ⟨show 5 ≤ stringLimit by decide, trivial⟩

/-- A one-byte BINARY comes back with length 0. -/
theorem binary_not_roundTrip :
    NxValue.Serializable ⟨TRUE, .binary (some [0x61]) 1⟩ ∧
      valueFromMembuf 0 (encValue ⟨TRUE, .binary (some [0x61]) 1⟩) 7 =
        .ok (⟨TRUE, .binary (some [0x61]) 0⟩, 7) ∧ ¬ RoundTripsWith 0 ⟨TRUE, .binary (some [0x61]) 1⟩ [] := by
  have hser : NxValue.Serializable ⟨TRUE, .binary (some [0x61]) 1⟩ := .inr ⟨rfl, _, rfl, by decide⟩
  have hdec : valueFromMembuf 0 (encValue ⟨TRUE, .binary (some [0x61]) 1⟩) 7 =
      .ok (⟨TRUE, .binary (some [0x61]) 0⟩, 7) := by decide
  refine ⟨hser, hdec, ?_⟩
  rw [roundTripsWith_iff hser]
  rintro ⟨w, hfrom, hw⟩
  have : (⟨TRUE, .binary (some [0x61]) 0⟩ : NxValue) = w := by
    have := hdec.symm.trans hfrom
    cases this
    rfl
  subst this
  exact absurd hw (by decide)

end Nxlog.L1
