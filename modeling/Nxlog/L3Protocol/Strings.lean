import Nxlog.L2Machine.Assign

/-!
# Building text (`common/str.c`, `common/value.c`)

The writers of the text formats append to an `nx_string_t`, and escape a copy of
each value in place before they append it. Text over the string limit is cut off
in silence by `nx_string_append`, dropped by `nx_string_prepend`, and is an
exception in `nx_string_ensure_size`.

* `stringAppend_eq`, `foldl_appendCut`: what a sequence of appends leaves.
* `escapeLoop`: the loop that the escape functions of the formats share; each
  format says what is done with a byte (`EscAct`).
* `escapeLoop_eq`: it inserts one byte in front of each escaped byte. It asks for
  more room once at most, so that is the only place where it can throw.
* `valueToString`: the text of a value of another type than STRING. What the
  program leaves to APR, or to the time zone, is a parameter (`TextEnv`).
* `parseIp4_quads_iff`: the addresses that `nx_value_parse_ip4addr` accepts.
-/
namespace Nxlog.L3
open L1 L2 Res List

/-! ## Appending -/

/-- `nx_string_append` on text. -/
def appendCut (x y : Bytes) : Bytes := x ++ y.take (stringLimit - 1 - x.length)

theorem take_append_take (n : Nat) (x y : Bytes) : (x.take n ++ y).take n = (x ++ y).take n := by
  rw [take_append, take_append, take_take, Nat.min_self, length_take]
  congr 2
  omega

theorem appendCut_eq_take {x : Bytes} (y : Bytes) (h : x.length ≤ stringLimit - 1) :
    appendCut x y = (x ++ y).take (stringLimit - 1) := by
  rw [appendCut, take_append, take_of_length_le h]

/-- Appending piece by piece keeps what fits of all of them. -/
theorem foldl_appendCut (ps : List Bytes) (x : Bytes) (h : x.length ≤ stringLimit - 1) :
    ps.foldl appendCut x = (x ++ ps.flatten).take (stringLimit - 1) := by
  induction ps generalizing x with
  | nil => rw [foldl_nil, flatten_nil, append_nil, take_of_length_le h]
  | cons p ps ih =>
    have hcut := appendCut_eq_take p h
    have hlen : (appendCut x p).length ≤ stringLimit - 1 := by rw [hcut, length_take]; omega
    rw [foldl_cons, ih _ hlen, hcut, take_append_take, flatten_cons, append_assoc]

/-- What is cut below the limit is the whole text if that is below the limit. -/
theorem take_limit_eq_iff {x : Bytes} : x.take (stringLimit - 1) = x ↔ x.length < stringLimit := by
  have h0 : 0 < stringLimit := by decide
  constructor
  · intro h
    have := congrArg length h
    rw [length_take] at this
    omega
  · intro h
    exact take_of_length_le (by omega)

theorem stringAppend_eq {dst src : Bytes} {n : Nat} (hn : n ≤ src.length) :
    stringAppend dst src n = .ok (appendCut dst (src.take n)) := by
  rw [stringAppend, appendLen, if_neg (by omega), Int.toNat_natCast, ok_bind, appendCut, take_take]
  by_cases h0 : n = 0
  · subst h0
    rw [if_pos rfl, Nat.min_zero, take_zero, append_nil]
    rfl
  · rw [if_neg h0]
    by_cases hlim : dst.length + n + 1 > stringLimit
    · rw [if_pos hlim]
      by_cases hroom : dst.length < stringLimit - 1
      · rw [if_pos hroom, rdBytes_ok (by omega), Nat.min_eq_left (by omega)]
        rfl
      · rw [if_neg hroom, show stringLimit - 1 - dst.length = 0 by omega, Nat.zero_min, take_zero,
          append_nil]
        rfl
    · rw [if_neg hlim, rdBytes_ok (by omega), Nat.min_eq_right (by omega)]
      rfl

theorem appendCut_of_lt {x y : Bytes} (h : x.length + y.length < stringLimit) : appendCut x y = x ++ y := by
  rw [appendCut, take_of_length_le (by omega)]

theorem appendCut_length {x : Bytes} (y : Bytes) (h : x.length < stringLimit) :
    (appendCut x y).length < stringLimit := by
  rw [appendCut, length_append, length_take]
  omega

/-- Two appends are one, also where nothing fits any more. -/
theorem appendCut_appendCut (x y z : Bytes) : appendCut (appendCut x y) z = appendCut x (y ++ z) := by
  by_cases h : x.length < stringLimit
  · have hxy := appendCut_length y h
    rw [appendCut_eq_take z (by omega), appendCut_eq_take y (by omega),
      appendCut_eq_take _ (by omega), take_append_take, append_assoc]
  · have hroom : stringLimit - 1 - x.length = 0 := by omega
    rw [appendCut, appendCut, appendCut, hroom, take_zero, append_nil, hroom, take_zero,
      take_zero]

theorem strlen_cstr : ∀ (k : Bytes), 0 ∉ k → ∀ t, strlen (k ++ 0 :: t) = .ok k.length := by
  intro k
  induction k with
  | nil => intro _ t; rfl
  | cons c k ih =>
    intro h t
    obtain ⟨hc, hk⟩ := not_or.mp (fun h' => h (mem_cons.mpr h'))
    rw [cons_append, strlen, if_neg (Ne.symm hc), ih hk]
    rfl

/-- The string at the start of a buffer ends at its first NUL. -/
theorem exists_cut (buf : Bytes) : ∃ t, buf ++ [0] = (cut buf).1 ++ 0 :: t := by
  induction buf with
  | nil => exact ⟨[], rfl⟩
  | cons c buf ih =>
    obtain ⟨t, ht⟩ := ih
    by_cases hc : c = 0
    · exact ⟨buf ++ [0], by simp [cut, hc]⟩
    · exact ⟨t, by simpa [cut, hc] using ht⟩

/-- `nx_string_append (dst, k, -1)`. -/
theorem stringAppend_cstr (dst : Bytes) (k : CStr) : stringAppend dst (k.1 ++ [0]) (-1) =
    .ok (appendCut dst k.1) := by
  have hlen : appendLen (k.1 ++ [0]) (-1) = appendLen (k.1 ++ [0]) (k.1.length : Int) := by
    rw [appendLen, if_pos (by decide), strlen_cstr k.1 k.2, appendLen, if_neg (by omega), Int.toNat_natCast]
  have heq : stringAppend dst (k.1 ++ [0]) k.1.length = .ok (appendCut dst ((k.1 ++ [0]).take k.1.length)) :=
    stringAppend_eq (by simp)
  rw [take_left' rfl] at heq
  rw [← heq, stringAppend, stringAppend, hlen]

theorem stringAppend_byte (dst : Bytes) (c : UInt8) : stringAppend dst [c] 1 = .ok (appendCut dst [c]) :=
  stringAppend_eq (n := 1) (Nat.le_refl 1)

/-- The parsers of the text formats take a length, and a length of 0 asks for
`strlen` (extension/kvp/kvp.c:474-477, extension/csv/csv.c:423-426). -/
def textLen (src : Bytes) (len : Nat) : Res Nat := if len = 0 then strlen src else .ok len

theorem textLen_length (text : Bytes) : textLen (text ++ [0]) text.length = .ok text.length := by
  unfold textLen
  by_cases h : text.length = 0
  · rw [if_pos h, length_eq_zero_iff.mp h]
    rfl
  · rw [if_neg h]

/-! ## Room -/

/-- mirrors common/str.c:171-206 (`ensure_size`): the new size of the buffer. -/
def ensureSize (bufsize len : Nat) : Res Nat :=
  if bufsize > len then .ok bufsize
  else if len > stringLimit then Res.throw "string limit (1048576 bytes) reached"
  else .ok (bufsize + len)

/-- mirrors common/str.c:285-332 (`nx_string_prepend`) on the contents, for a length
that is not negative. `ensure_size` is asked for the limit at most, so it does not
throw. -/
def stringPrepend (dst src : Bytes) : Res Bytes :=
  if src.length = 0 then .ok dst
  else if dst.length + src.length + 1 > stringLimit then
    if dst.length < stringLimit - 1 then
      if src.length > stringLimit then .ok (src.take (stringLimit - 1))
      -- the `memmove` of `len - srclen` bytes
      else if src.length > stringLimit - 1 then Res.fault
      else .ok (src ++ dst.take (stringLimit - 1 - src.length))
    else .ok dst
  else .ok (src ++ dst)

theorem stringPrepend_byte (dst : Bytes) (c : UInt8) :
    stringPrepend dst [c] = .ok (if dst.length < stringLimit - 1 then c :: dst else dst) := by
  rw [stringPrepend, if_neg (by simp), length_singleton]
  by_cases hlim : dst.length + 1 + 1 > stringLimit
  · rw [if_pos hlim, if_neg (by omega), if_neg (by omega)]
  · rw [if_neg hlim, if_pos (by omega), singleton_append]

/-! ## Escaping in place -/

/-- What the escape function of a format does with a byte: leave it, leave it and
note that the value needs quotes, or replace it by two. -/
inductive EscAct where
  | keep
  | quote
  | pair (a b : UInt8)
  deriving DecidableEq

/-- The room for one more byte in a string of length `len`. -/
def growByOne (bufsize len : Nat) : Res Nat :=
  if bufsize ≤ len + 1 then ensureSize bufsize (len + 2) else .ok bufsize

/-- The loop of `escape_value` (extension/kvp/kvp.c:510-603) and `escape_string`
(extension/csv/csv.c:472-546): `done` is the buffer up to `i`, the argument the
rest of it. -/
def escapeLoop (act : UInt8 → EscAct) (bufsize : Nat) (done : Bytes) (needquote : Bool) :
    Bytes → Res (Bytes × Bool)
  | [] => .ok (done, needquote)
  | c :: rest =>
    match act c with
    | .keep => escapeLoop act bufsize (done ++ [c]) needquote rest
    | .quote => escapeLoop act bufsize (done ++ [c]) true rest
    | .pair a b => do
      let bufsize ← growByOne bufsize (done.length + (rest.length + 1))
      escapeLoop act bufsize (done ++ [a, b]) needquote rest

def escaped (act : UInt8 → EscAct) (bs : Bytes) : Bytes :=
  bs.flatMap fun c => match act c with
    | .pair a b => [a, b]
    | _ => [c]

def Escapes (act : UInt8 → EscAct) (c : UInt8) : Prop := ∃ a b, act c = .pair a b

instance (act : UInt8 → EscAct) (c : UInt8) : Decidable (Escapes act c) :=
  match h : act c with
  | .keep => isFalse fun ⟨_, _, h'⟩ => by rw [h] at h'; cases h'
  | .quote => isFalse fun ⟨_, _, h'⟩ => by rw [h] at h'; cases h'
  | .pair a b => isTrue ⟨a, b, h⟩

section Escape

variable {act : UInt8 → EscAct}

@[simp] theorem escaped_nil : escaped act [] = [] := rfl

theorem escaped_cons (c : UInt8) (bs : Bytes) : escaped act (c :: bs) = escaped act [c] ++ escaped act bs := by
  simp [escaped]

theorem escaped_pair {c a b : UInt8} (h : act c = .pair a b) : escaped act [c] = [a, b] := by
  simp [escaped, h]

theorem escaped_same {c : UInt8} (h : ¬ Escapes act c) : escaped act [c] = [c] := by
  unfold escaped
  rw [flatMap_singleton]
  cases hc : act c with
  | pair a b => exact absurd ⟨a, b, hc⟩ h
  | keep => rfl
  | quote => rfl

theorem escaped_of_none {bs : Bytes} (h : ∀ c ∈ bs, ¬ Escapes act c) : escaped act bs = bs := by
  induction bs with
  | nil => rfl
  | cons c bs ih =>
    rw [escaped_cons, escaped_same (h c mem_cons_self), ih (forall_mem_cons.mp h).2]
    rfl

theorem length_escaped (act : UInt8 → EscAct) (bs : Bytes) :
    bs.length ≤ (escaped act bs).length ∧ (escaped act bs).length ≤ 2 * bs.length := by
  induction bs with
  | nil => exact ⟨Nat.le_refl 0, Nat.le_refl 0⟩
  | cons c bs ih =>
    rw [escaped_cons, length_append, length_cons]
    by_cases h : Escapes act c
    · obtain ⟨a, b, h⟩ := h
      rw [escaped_pair h, length_cons, length_singleton]
      omega
    · rw [escaped_same h, length_singleton]
      omega

theorem le_length_escaped (act : UInt8 → EscAct) (bs : Bytes) : bs.length ≤ (escaped act bs).length :=
  (length_escaped act bs).1

theorem lt_length_escaped {bs : Bytes} (h : ∃ c ∈ bs, Escapes act c) :
    bs.length < (escaped act bs).length := by
  obtain ⟨c, hc, a, b, hp⟩ := h
  obtain ⟨x, y, rfl⟩ := append_of_mem hc
  have h1 := le_length_escaped act x
  have h2 := le_length_escaped act y
  have heq : escaped act (x ++ c :: y) = escaped act x ++ (escaped act [c] ++ escaped act y) := by
    simp [escaped]
  rw [heq, escaped_pair hp]
  simp only [length_append, length_cons, length_nil]
  omega

theorem length_escaped_le (act : UInt8 → EscAct) (bs : Bytes) : (escaped act bs).length ≤ 2 * bs.length :=
  (length_escaped act bs).2

theorem escapeLoop_same {c : UInt8} (h : ¬ Escapes act c) (bufsize : Nat) (done : Bytes) (nq : Bool)
    (bs : Bytes) :
    escapeLoop act bufsize done nq (c :: bs) = escapeLoop act bufsize (done ++ [c])
    (nq || act c = .quote) bs := by
  rw [escapeLoop]
  cases hc : act c with
  | pair a b => exact absurd ⟨a, b, hc⟩ h
  | keep => simp
  | quote => simp

/-- With room for twice the rest nothing is asked for. -/
theorem escapeLoop_roomy (bs done : Bytes) (bufsize : Nat) (nq : Bool)
    (hroom : done.length + 2 * bs.length + 2 ≤ bufsize) :
    escapeLoop act bufsize done nq bs = .ok (done ++ escaped act bs, nq || bs.any fun c =>
      act c = .quote) := by
  induction bs generalizing done bufsize nq with
  | nil => simp [escapeLoop]
  | cons c bs ih =>
    rw [length_cons] at hroom
    rw [escaped_cons, ← append_assoc]
    by_cases h : Escapes act c
    · obtain ⟨a, b, hc⟩ := h
      rw [escaped_pair hc]
      simp only [escapeLoop, hc]
      rw [growByOne, if_neg (by omega), ok_bind,
        ih _ _ _ (by rw [length_append, length_cons, length_singleton]; omega)]
      simp [hc]
    · rw [escaped_same h, escapeLoop_same h, ih _ _ _ (by rw [length_append, length_singleton]; omega)]
      simp [Bool.or_assoc]

/-- From a buffer without spare room: the first byte to escape asks for it. -/
theorem escapeLoop_eq (act : UInt8 → EscAct) (bs done : Bytes) (nq : Bool) :
    escapeLoop act (done.length + bs.length + 1) done nq bs = if (∃ c ∈ bs, Escapes act c) ∧ stringLimit <
      done.length + bs.length + 2 then Res.throw "string limit (1048576 bytes) reached" else .ok
      (done ++ escaped act bs, nq || bs.any fun c => act c = .quote) := by
  induction bs generalizing done nq with
  | nil => simp [escapeLoop]
  | cons c bs ih =>
    rw [length_cons]
    by_cases h : Escapes act c
    · have hesc : ∃ d ∈ c :: bs, Escapes act d := ⟨c, mem_cons_self, h⟩
      obtain ⟨a, b, hc⟩ := h
      simp only [escapeLoop, hc]
      rw [growByOne, if_pos (by omega), ensureSize, if_neg (by omega)]
      by_cases hlim : stringLimit < done.length + (bs.length + 1) + 2
      · rw [if_pos hlim, if_pos ⟨hesc, hlim⟩]
        rfl
      · rw [if_neg (by omega), if_neg fun h => hlim h.2, ok_bind, escapeLoop_roomy, escaped_cons,
          escaped_pair hc, append_assoc]
        · simp [hc]
        · rw [length_append, length_cons, length_singleton]
          omega
    · have hlen : (done ++ [c]).length + bs.length = done.length + (bs.length + 1) := by simp; omega
      rw [escapeLoop_same h, ← hlen, ih, escaped_cons, escaped_same h, append_assoc]
      simp [h, Bool.or_assoc]

end Escape

/-! ### Control characters -/

/-- The letter that stands for a control character behind the escape character. -/
def controlLetter (c : UInt8) : Option UInt8 :=
  if c = 10 then some 110       -- \n
  else if c = 13 then some 114  -- \r
  else if c = 9 then some 116   -- \t
  else if c = 8 then some 98    -- \b
  else none

def letterControl (c : UInt8) : Option UInt8 :=
  if c = 110 then some 10
  else if c = 114 then some 13
  else if c = 116 then some 9
  else if c = 98 then some 8
  else none

theorem letterControl_of_control {c l : UInt8} (h : controlLetter c = some l) : letterControl l = some c := by
  unfold controlLetter at h
  split at h
  · cases h; subst c; rfl
  split at h
  · cases h; subst c; rfl
  split at h
  · cases h; subst c; rfl
  split at h
  · cases h; subst c; rfl
  · cases h

/-! ## Values as text -/

/-- `%d` and `%ld`. -/
def decimal (n : Int) : Bytes := ascii (toString n)

/-- `%s` of a buffer, for a message. -/
def cText (mem : Bytes) : String := String.ofList ((cut mem).1.map fun b => Char.ofNat b.toNat)

/-- What the text of a value depends on besides the value: `nx_date_to_iso`, which
writes local time, and `apr_sockaddr_ip_getbuf`. -/
structure TextEnv where
  dateToIso : Int64 → Res CStr
  ip6ToText : Octets 16 → Res CStr

/-- `hex[src[i] >> 4]` and `hex[src[i] & 0x0f]`. -/
def hexDigits (b : UInt8) : Res Bytes := do
  let hex := ascii "0123456789abcdef"
  let hi ← rd hex (b.toNat / 16)
  let lo ← rd hex (b.toNat % 16)
  return [hi, lo]

/-- mirrors common/value.c:389-403 (`nx_bin2ascii`). -/
def bin2ascii : Bytes → Res Bytes
  | [] => .ok []
  | b :: src => do
    let ds ← hexDigits b
    let rest ← bin2ascii src
    return ds ++ rest

/-- mirrors common/value.c:455-545 (`nx_value_to_string`); `none` is `NULL`. -/
def valueToString (env : TextEnv) (v : NxValue) : Res (Option CStr) :=
  if v.defined = FALSE then .ok none
  else
    match v.data with
    | .integer i => .ok (some (cut (decimal i.toInt)))
    | .string (some s) => .ok (some (cut s.buf))
    | .string none => .error (.assert "value->string != NULL")
    | .datetime t => do
      let text ← env.dateToIso t
      return some text
    | .regexp (some str) _ => .ok (some (cut str))
    | .regexp none _ => Res.fault
    | .boolean b => .ok (some (cut (ascii (if b = TRUE then "TRUE" else "FALSE"))))
    | .ip4addr a => .ok (some (cut ((a.1.map fun b => decimal b.toNat).intersperse (ascii ".")).flatten))
    | .ip6addr a => do
      let text ← env.ip6ToText a
      return some text
    | .binary (some value) len => do
      let value ← rdBytes value 0 len.toNat
      let text ← bin2ascii value
      return some (cut text)
    | .binary none _ => .error (.assert "src != NULL")
    | .unknown => .error (.assert "invalid value type: 9")
    | .other t => .error (.assert ("invalid value type: " ++ toString t.1.toNat))

/-! ## Text as values -/

/-- What the value of a text depends on besides the text: `nx_value_parse_int`, which
reads with `sscanf`, `nx_date_parse`, which reads local time, PCRE, and
`apr_inet_pton`. -/
structure ValueEnv where
  parseInt : CStr → Res Int64
  dateParse : CStr → Option Int64
  newRegexp : CStr → Res NxValue
  parseIp6 : CStr → Res (Octets 16)

/-- common/value.c:417-428: the value of a hexadecimal digit. -/
def hexValue (c : UInt8) : Option UInt8 :=
  if 48 ≤ c ∧ c ≤ 57 then some (c - 48)
  else if 97 ≤ c ∧ c ≤ 102 then some (c - 97 + 10)
  else none

/-- mirrors common/value.c:405-447 (`nx_ascii2bin`). A second digit that is none is
taken for 0. -/
def ascii2bin : Bytes → Res Bytes
  | [] => .ok []
  | [_] => Res.throw "binary has odd encoding length"
  | a :: b :: src =>
    if src.length % 2 ≠ 0 then Res.throw "binary has odd encoding length"
    else
      match hexValue a with
      | none => Res.throw ("invalid character '" ++ cText [a] ++ "' in encoded binary")
      | some hi => do
        let rest ← ascii2bin src
        return (hi <<< 4 + (hexValue b).getD 0) :: rest

/-- The variables of `nx_value_parse_ip4addr`: the numbers before `ip4addr[i]`, that
number, and `got`. -/
structure Ip4 where
  done : List Nat
  cur : Nat
  got : Bool

/-- One turn of the loop of `nx_value_parse_ip4addr`. -/
def ip4Step (string : CStr) (s : Ip4) (c : UInt8) : Res Ip4 :=
  let invalid := "invalid ipv4 address: " ++ cText string.1
  if s.done.length > 3 then Res.throw invalid
  else if 48 ≤ c ∧ c ≤ 57 then
    let cur := s.cur * 10 + (c - 48).toNat
    if cur > 255 then Res.throw invalid else .ok { s with cur, got := true }
  else if c = 46 then
    if s.got = false then Res.throw invalid else .ok ⟨s.done ++ [s.cur], 0, false⟩
  else Res.throw ("invalid character '" ++ cText [c] ++ "' in ipv4 address '" ++ cText string.1 ++ "'")

/-- mirrors common/value.c:623-679 (`nx_value_parse_ip4addr`). Numbers that are not
given are 0. -/
def parseIp4 (string : CStr) : Res (Octets 4) := do
  let s ← run (ip4Step string) ⟨[], 0, false⟩ string.1
  if s.got = false then Res.throw ("invalid ipv4 address: " ++ cText string.1)
  else return ⟨((s.done ++ [s.cur]).map UInt8.ofNat ++ List.replicate 4 0).take 4, by simp⟩

/-- mirrors common/value.c:715-793 (`nx_value_from_string`). The length of a binary is
that of its text. -/
def valueFromString (env : ValueEnv) (string : CStr) : ValueType → Res NxValue
  | .integer => do
    let integer ← env.parseInt string
    return ⟨TRUE, .integer integer⟩
  | .string => do
    let s ← stringCreate 0 (string.1 ++ [0]) (-1)
    return ⟨TRUE, .string (some s)⟩
  | .datetime =>
    match env.dateParse string with
    | some t => .ok ⟨TRUE, .datetime t⟩
    | none => Res.throw ("Couldn't parse datetime value: '" ++ cText string.1 ++ "'")
  | .boolean =>
    if strcasecmp string (cut (ascii "true")) then .ok ⟨TRUE, .boolean TRUE⟩
    else if strcasecmp string (cut (ascii "false")) then .ok ⟨TRUE, .boolean FALSE⟩
    else Res.throw ("Invalid boolean: " ++ cText string.1)
  | .regexp => env.newRegexp string
  | .ip4addr => do
    let addr ← parseIp4 string
    return ⟨TRUE, .ip4addr addr⟩
  | .ip6addr => do
    let addr ← env.parseIp6 string
    return ⟨TRUE, .ip6addr addr⟩
  | .binary => do
    let value ← ascii2bin string.1
    return ⟨TRUE, .binary (some value) (UInt32.ofNat string.strlen)⟩
  | .unknown => .error (.assert "invalid value type: 9")
  | .other t => .error (.assert ("invalid value type: " ++ toString t.1.toNat))

/-- `nx_string_create (string, -1)`. -/
theorem stringCreate_cstr {string : CStr} (t : Bytes) (h : string.1.length ≤ stringLimit) :
    stringCreate 0 (string.1 ++ 0 :: t) (-1) = .ok ⟨0, string.1⟩ := by
  have hl : stringLimit = 1048576 := rfl
  have hlen : createLen (string.1 ++ 0 :: t) (-1) = .ok (string.1.length : Int) := by
    rw [createLen, if_pos (by decide), strlen_cstr string.1 string.2, ok_bind, cInt_of_lt (by omega)]
    rfl
  rw [stringCreate, hlen, ok_bind, if_neg (by omega), if_neg (by omega), Int.toNat_natCast,
    rdBytes_ok (by simp), ok_bind, drop_zero, take_left' rfl]
  rfl

theorem valueFromString_string (env : ValueEnv) {string : CStr} (h : string.1.length ≤ stringLimit) :
    valueFromString env string .string = .ok (strValue string.1) := by
  rw [valueFromString, stringCreate_cstr [] h, ok_bind]
  rfl

/-! ### Addresses -/

/-- The texts in front of the dots, and the one behind the last dot. -/
def dotted (text : Bytes) : List Bytes × Bytes :=
  text.foldl (fun p c => if c = 46 then (p.1 ++ [p.2], []) else (p.1, p.2 ++ [c])) ([], [])

def number (w : Bytes) : Nat := w.foldl (fun n c => n * 10 + (c - 48).toNat) 0

/-- Digits, up to 255. -/
def OctetDigits (w : Bytes) : Prop := (∀ c ∈ w, 48 ≤ c ∧ c ≤ 57) ∧ number w ≤ 255

def IsOctet (w : Bytes) : Prop := w ≠ [] ∧ OctetDigits w

/-- What the loop has read: numbers, and the digits of one that may go on. -/
def Ip4Read (p : List Bytes × Bytes) : Prop :=
  (∀ w ∈ p.1, IsOctet w) ∧ OctetDigits p.2 ∧ p.1.length ≤ 4 ∧ (p.2 ≠ [] → p.1.length ≤ 3)

def Ip4.of (p : List Bytes × Bytes) : Ip4 := ⟨p.1.map number, number p.2, decide (p.2 ≠ [])⟩

theorem octetDigits_nil : OctetDigits [] := ⟨nofun, Nat.zero_le _⟩

theorem number_snoc (w : Bytes) (c : UInt8) : number (w ++ [c]) = number w * 10 + (c - 48).toNat := by
  simp [number]

theorem ip4Read_dot {ws : List Bytes} {w : Bytes} :
    Ip4Read (ws ++ [w], []) ↔ Ip4Read (ws, w) ∧ w ≠ [] := by
  simp only [Ip4Read, IsOctet, mem_append, mem_singleton, length_append]
  grind [octetDigits_nil]

theorem ip4Read_digit {ws : List Bytes} {w : Bytes} {c : UInt8} : Ip4Read (ws, w ++ [c]) ↔
    Ip4Read (ws, w) ∧ ws.length ≤ 3 ∧ (48 ≤ c ∧ c ≤ 57) ∧ number w * 10 + (c - 48).toNat ≤ 255 := by
  have hne : w ++ [c] ≠ [] := by simp
  simp only [Ip4Read, OctetDigits, number_snoc, mem_append, mem_singleton]
  grind

theorem ip4Step_iff (string : CStr) (p : List Bytes × Bytes) (c : UInt8) (s : Ip4) :
    Ip4Read p ∧ ip4Step string (.of p) c = .ok s ↔
      Ip4Read (if c = 46 then (p.1 ++ [p.2], []) else (p.1, p.2 ++ [c])) ∧
        s = .of (if c = 46 then (p.1 ++ [p.2], []) else (p.1, p.2 ++ [c])) := by
  obtain ⟨ws, w⟩ := p
  by_cases hc : c = 46
  · have hdot : ¬ (48 ≤ (46 : UInt8) ∧ (46 : UInt8) ≤ 57) := by decide
    rw [if_pos hc, ip4Read_dot]
    grind [ip4Step, Ip4.of, Ip4Read, number, Res.throw]
  · have hof : Ip4.of (ws, w ++ [c]) = ⟨ws.map number, number w * 10 + (c - 48).toNat, true⟩ := by
      simp [Ip4.of, number_snoc]
    rw [if_neg hc, ip4Read_digit, hof]
    grind [ip4Step, Ip4.of, Res.throw]

def ip4Words (string : CStr) : List Bytes := (dotted string.1).1 ++ [(dotted string.1).2]

/-- Exactly one to four numbers are read; those that are missing are 0. -/
theorem parseIp4_eq_ok (string : CStr) (a : Octets 4) :
    parseIp4 string = .ok a ↔ ((∀ w ∈ ip4Words string, IsOctet w) ∧ (ip4Words string).length ≤ 4) ∧
      a.1 = ((ip4Words string).map (UInt8.ofNat ∘ number) ++ replicate 4 0).take 4 := by
  have hrun : ∀ s, run (ip4Step string) ⟨[], 0, false⟩ string.1 = .ok s ↔
      Ip4Read (dotted string.1) ∧ s = .of (dotted string.1) := fun s =>
    (and_iff_right ⟨nofun, octetDigits_nil, by simp⟩).symm.trans
      (run_eq_ok_iff (ip4Step_iff string) string.1 ([], []) s)
  have hwords : (∀ w ∈ ip4Words string, IsOctet w) ∧ (ip4Words string).length ≤ 4 ↔
      Ip4Read (dotted string.1) ∧ (dotted string.1).2 ≠ [] := by
    rw [← ip4Read_dot]
    simp [Ip4Read, octetDigits_nil, ip4Words]
  rw [parseIp4, bind_eq_ok, hwords]
  constructor
  · rintro ⟨s, hs, h⟩
    obtain ⟨hread, rfl⟩ := (hrun s).mp hs
    split at h
    · cases h
    · rename_i hgot
      cases h
      exact ⟨⟨hread, by simpa [Ip4.of] using hgot⟩, by simp [Ip4.of, ip4Words]⟩
  · rintro ⟨⟨hread, hlast⟩, ha⟩
    refine ⟨_, (hrun _).mpr ⟨hread, rfl⟩, ?_⟩
    rw [if_neg (by simpa [Ip4.of] using hlast)]
    refine congrArg _ (Subtype.ext ?_)
    simpa [Ip4.of, ip4Words] using ha.symm

/-- Four numbers, which are stored. -/
def DottedQuad (string : CStr) (a : Octets 4) : Prop :=
  (ip4Words string).length = 4 ∧ (∀ w ∈ ip4Words string, IsOctet w) ∧
    a.1 = (ip4Words string).map (UInt8.ofNat ∘ number)

/-- Exactly the dotted quads are accepted, but for one to three numbers, which are too. -/
theorem parseIp4_quads_iff (string : CStr) : (∀ a, parseIp4 string = .ok a ↔ DottedQuad string a) ↔
    ¬ ((∀ w ∈ ip4Words string, IsOctet w) ∧ (ip4Words string).length < 4) := by
  simp only [parseIp4_eq_ok, DottedQuad]
  constructor
  · rintro h ⟨hnum, hlen⟩
    obtain ⟨h4, -⟩ := (h ⟨_, by simp⟩).mp ⟨⟨hnum, by omega⟩, rfl⟩
    omega
  · intro h a
    by_cases h4 : (ip4Words string).length = 4
    · rw [take_left' (by rw [length_map, h4])]
      simp [h4]
    · refine iff_of_false (fun hok => h ⟨hok.1.1, ?_⟩) fun hok => h4 hok.1
      omega

/-- `1` is taken for 1.0.0.0. -/
theorem parseIp4_one_number :
    parseIp4 (cut (ascii "1")) = .ok ⟨[1, 0, 0, 0], rfl⟩ ∧ (ip4Words (cut (ascii "1"))).length =
    1 := ⟨rfl, rfl⟩

end Nxlog.L3
