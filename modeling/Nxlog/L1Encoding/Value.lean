import Nxlog.Core.Bytes

/-!
# Strings and typed values (`common/str.c`, `common/value.c`)

`nx_string_t` is modelled by its identity and its first `len` bytes. The
identity (`addr`) names the allocated object: it is what pointer comparisons
look at, and what a dangling pointer still holds after a free. Names are only
ever compared within one record, so they are unique within a record and not
across records.

`nx_value_t` is a type tag, a `defined` flag and a union. The union is modelled
by `Data`, whose constructor is the tag, so a value cannot carry the payload of
another type; `Data.zero` is the union as `nx_value_new` leaves it. The tag
byte comes from the wire in `nx_value_from_membuf`, hence the constructor
`ValueType.other` for the numbers the enum does not name. `defined` and the
boolean payload are C `boolean`s, an enum that the decoder fills from a byte,
hence a machine word and not a `Bool`.
-/
namespace Nxlog.L1

/-! ## C integers -/

/-- `boolean` (`common/types.h:34`). -/
abbrev CBool := UInt32

abbrev TRUE : CBool := 1

abbrev FALSE : CBool := 0

/-- `(int) n` for an unsigned `n`. -/
def cInt (n : Nat) : Int := (n : Int).bmod (2 ^ 32)

/-- `(boolean) c`. A `char` is unsigned (configure.in: `-funsigned-char`). -/
def charToBoolean (c : UInt8) : CBool := c.toUInt32

variable {n : Nat}

theorem cInt_of_lt (h : n < 2 ^ 31) : cInt n = n := by
  unfold cInt
  rw [Int.bmod_def]
  omega

theorem cInt_neg (h : 2 ^ 31 ≤ n) (h' : n < 2 ^ 32) : cInt n < 0 := by
  unfold cInt
  rw [Int.bmod_def]
  omega

/-! ## Strings -/

/-- `NX_STRING_DEFAULT_LIMIT` (`common/str.h:14`); nothing in the source changes
`_string_limit`. -/
def stringLimit : Nat := 1024 * 1024

structure NxString where
  addr : Nat
  buf : Bytes
  deriving DecidableEq, Repr

/-- `strlen` on memory that ends: without a NUL it runs off the end. -/
def strlen : Bytes → Res Nat
  | [] => Res.fault
  | b :: bs => if b = 0 then .ok 0 else do
    let n ← strlen bs
    return n + 1

/-- mirrors common/str.c:108-111: a negative length asks for `strlen`. -/
def createLen (src : Bytes) (len : Int) : Res Int :=
  if len < 0 then do
    let n ← strlen src
    return cInt n
  else .ok len

/-- mirrors common/str.c:102-126 (`nx_string_create`); `src` is the memory from
the pointer on. A length that is negative after the `strlen` makes the `malloc`
fail or the `memcpy` run through all of memory. -/
def stringCreate (addr : Nat) (src : Bytes) (len : Int) : Res NxString := do
  let len ← createLen src len
  if len > stringLimit then Res.throw "oversized string, limit is 1048576 bytes"
  else if len < 0 then Res.fault
  else do
    let buf ← rdBytes src 0 len.toNat
    return ⟨addr, buf⟩

variable {addr : Nat}

theorem stringCreate_ok {src : Bytes} (hl : n ≤ stringLimit)
    (hs : n ≤ src.length) : stringCreate addr src n = .ok ⟨addr, src.take n⟩ := by
  have h1 : ¬ (n : Int) < 0 := by omega
  have h2 : ¬ (n : Int) > stringLimit := by omega
  simp [stringCreate, createLen, h1, h2, rdBytes_ok (show 0 + n ≤ src.length by omega)]

variable {s : NxString}

/-- Whatever the length argument, a created string is within the limit. -/
theorem stringCreate_length {src : Bytes} {len : Int}
    (h : stringCreate addr src len = .ok s) : s.addr = addr ∧ s.buf.length ≤ stringLimit := by
  obtain ⟨len', -, h⟩ := Res.bind_eq_ok.mp h
  split at h; · cases h
  split at h; · cases h
  rename_i hle hneg
  obtain ⟨buf, hb, hs⟩ := Res.bind_eq_ok.mp h
  cases hs
  unfold rdBytes at hb
  split at hb
  · cases hb
    refine ⟨rfl, ?_⟩
    simp only [List.drop_zero, List.length_take]
    omega
  · cases hb

variable {src t : Bytes}

theorem strlen_mono (h : strlen src = .ok n) : strlen (src ++ t) = .ok n := by
  induction src generalizing n with
  | nil => cases h
  | cons b bs ih =>
    simp only [strlen, List.cons_append] at h ⊢
    split at h
    · rename_i hb
      rw [if_pos hb]; exact h
    · rename_i hb
      obtain ⟨k, hk, hn⟩ := Res.bind_eq_ok.mp h
      rw [if_neg hb, ih hk]; exact hn

theorem createLen_mono {len n : Int} (h : createLen src len = .ok n) : createLen (src ++ t) len = .ok n := by
  unfold createLen at h ⊢
  split at h
  · rename_i hneg
    obtain ⟨k, hk, hn⟩ := Res.bind_eq_ok.mp h
    rw [if_pos hneg, strlen_mono hk]; exact hn
  · rename_i hneg
    rw [if_neg hneg]; exact h

theorem stringCreate_mono {len : Int}
    (h : stringCreate addr src len = .ok s) : stringCreate addr (src ++ t) len = .ok s := by
  unfold stringCreate at h ⊢
  obtain ⟨len', hlen, h⟩ := Res.bind_eq_ok.mp h
  rw [createLen_mono hlen, Res.ok_bind]
  split at h; · cases h
  split at h; · cases h
  rename_i hle hneg
  obtain ⟨buf, hb, hs⟩ := Res.bind_eq_ok.mp h
  rw [if_neg hle, if_neg hneg, rdBytes_mono hb]; exact hs

/-! ## Types -/

/-- `nx_value_type_t` (`common/value.h:17-28`), and the bytes outside it. -/
inductive ValueType where
  | integer | string | datetime | regexp | boolean | ip4addr | ip6addr | binary | unknown
  | other (t : { t : UInt8 // t = 0 ∨ 9 < t })
  deriving DecidableEq, Repr

namespace ValueType

def tag : ValueType → UInt8
  | integer => 1
  | string => 2
  | datetime => 3
  | regexp => 4
  | boolean => 5
  | ip4addr => 6
  | ip6addr => 7
  | binary => 8
  | unknown => 9
  | other t => t.1

/-- `(nx_value_type_t) t`. -/
def ofTag (t : UInt8) : ValueType :=
  if h : t = 0 ∨ 9 < t then other ⟨t, h⟩
  else if t = 1 then integer
  else if t = 2 then string
  else if t = 3 then datetime
  else if t = 4 then regexp
  else if t = 5 then boolean
  else if t = 6 then ip4addr
  else if t = 7 then ip6addr
  else if t = 8 then binary
  else unknown

@[simp] theorem ofTag_tag (ty : ValueType) : ofTag ty.tag = ty := by
  cases ty with
  | other t => rw [tag, ofTag, dif_pos t.2]
  | _ => decide

theorem tag_ofTag (t : UInt8) : (ofTag t).tag = t := by
  unfold ofTag
  split; · rfl
  rename_i h
  repeat' split
  all_goals first
    | (subst t; rfl)
    | skip
  show (9 : UInt8) = t
  simp only [UInt8.lt_iff_toNat_lt, ← UInt8.toNat_inj] at *
  simp at *
  omega

end ValueType

/-! ## Values -/

/-- The union of `nx_value_t` (`common/value.h:40-56`), by type. Pointers may be
`NULL`. For `binary` the block and the recorded length are separate. `regexp`
keeps `str` and the byte that `value->boolean` reads out of the union. -/
inductive Data where
  | integer (i : Int64)
  | string (s : Option NxString)
  | datetime (t : Int64)
  | regexp (str : Option Bytes) (low : UInt8)
  | boolean (b : CBool)
  | ip4addr (a : Octets 4)
  | ip6addr (a : Octets 16)
  | binary (value : Option Bytes) (len : UInt32)
  | unknown
  | other (t : { t : UInt8 // t = 0 ∨ 9 < t })
  deriving DecidableEq

namespace Data

def type : Data → ValueType
  | integer _ => .integer
  | string _ => .string
  | datetime _ => .datetime
  | regexp _ _ => .regexp
  | boolean _ => .boolean
  | ip4addr _ => .ip4addr
  | ip6addr _ => .ip6addr
  | binary _ _ => .binary
  | unknown => .unknown
  | other t => .other t

/-- mirrors common/value.c:318-329 (`nx_value_new`): the union is all zero. -/
def zero : ValueType → Data
  | .integer => integer 0
  | .string => string none
  | .datetime => datetime 0
  | .regexp => regexp none 0
  | .boolean => boolean FALSE
  | .ip4addr => ip4addr ⟨List.replicate 4 0, rfl⟩
  | .ip6addr => ip6addr ⟨List.replicate 16 0, rfl⟩
  | .binary => binary none 0
  | .unknown => unknown
  | .other t => other t

@[simp] theorem type_zero (ty : ValueType) : (zero ty).type = ty := by cases ty <;> rfl

/-- The payload itself: string contents without the object's name, and the
`len` bytes of a binary. -/
def content : Data → Data
  | string (some s) => string (some ⟨0, s.buf⟩)
  | binary value len => binary (value.map (·.take len.toNat)) len
  | d => d

end Data

structure NxValue where
  defined : CBool
  data : Data
  deriving DecidableEq

namespace NxValue

def type (v : NxValue) : ValueType := v.data.type

/-- (type, defined, payload), where an undefined value has no payload. Two
values are the same value iff their contents are equal. -/
def content (v : NxValue) : NxValue :=
  ⟨v.defined, if v.defined = TRUE then v.data.content else Data.zero v.type⟩

/-- The string object a value owns, if it is a defined string. -/
def string? (v : NxValue) : Option NxString :=
  match v.data with
  | .string s => if v.defined = TRUE then s else none
  | _ => none

end NxValue

theorem string?_some {v : NxValue} (h : v.string? = some s) : v.defined = TRUE ∧
    v.data = .string (some s) := by
  unfold NxValue.string? at h
  split at h
  · split at h
    · rename_i hd ht
      exact ⟨ht, h ▸ hd⟩
    · cases h
  · cases h

end Nxlog.L1
