import Nxlog.L1Encoding.RecordCodec

/-!
# What the record decoder reads (`common/logdata-serialize.c`, `common/value-serialize.c`)

The decoder is given a buffer of exactly `bufsize` bytes, so a read outside it
is a `fault` of the model. There are two such reads:

* the guard in front of a field is `offs >= bufsize`, but the key length behind
  it takes two bytes: with one byte left, the second one is outside;
* a STRING length of 2 GiB or more is a negative `int`, for which
  `nx_string_create` runs `strlen` over whatever follows.

`Overread` describes the buffers on which this happens, as a grammar of what
stands in front of the place. `decode_safe` shows that these are all: on every
other buffer the decoder throws, or returns having consumed at most the buffer.
-/
namespace Nxlog.L1
open Res List

variable {src buf mem : Bytes} {fields : UInt16} {len n : Nat} {i : Int16}

/-! ## The wire grammar -/

/-- The payload sizes that depend on the type alone. -/
def fixedSize : ValueType → Option Nat
  | .integer | .datetime => some 8
  | .boolean => some 1
  | .ip4addr => some 4
  | .ip6addr => some 16
  | .string | .regexp | .binary | .unknown | .other _ => none

/-- Memory on which `strlen` runs off the end, or whose string is too long for
its length to be a non-negative `int`. -/
def Runaway (src : Bytes) : Prop := 0 ∉ src ∨ ∃ n, strlen src = .ok n ∧ cInt n < 0

/-- A complete value, and the bytes behind it (which only a STRING of 2 GiB or
more looks at). -/
inductive WireValue : Bytes → Bytes → Prop where
  | undefined (tag d : UInt8) (rest : Bytes) (hd : d ≠ 1) : WireValue [tag, d] rest
  | fixed (ty : ValueType) (bs rest : Bytes) (h : fixedSize ty = some bs.length) :
      WireValue (ty.tag :: 1 :: bs) rest
  | binary (bs rest : Bytes) (h : bs.length < 2 ^ 32) :
      WireValue (8 :: 1 :: (leBytes 4 bs.length ++ bs)) rest
  | string (bs rest : Bytes) (h : bs.length ≤ stringLimit) :
      WireValue (2 :: 1 :: (leBytes 4 bs.length ++ bs)) rest
  | longString (bs rest : Bytes) (n : Nat) (h : 2 ^ 31 ≤ bs.length) (h' : bs.length < 2 ^ 32)
      (hn : strlen (bs ++ rest) = .ok n) (h0 : 0 ≤ cInt n) (hl : cInt n ≤ stringLimit) :
      WireValue (2 :: 1 :: (leBytes 4 bs.length ++ bs)) rest

/-- A STRING of 2 GiB or more whose C string is not where it should be. -/
def RunawayValue (mem : Bytes) : Prop :=
  ∃ len src, mem = 2 :: 1 :: (leBytes 4 len ++ src) ∧ 2 ^ 31 ≤ len ∧ len < 2 ^ 32 ∧
    len ≤ src.length ∧ Runaway src

/-- `n` complete fields, and `rest` behind them. -/
inductive Wired : Nat → Bytes → Bytes → Prop where
  | nil (rest : Bytes) : Wired 0 rest rest
  | cons {n : Nat} {key v mem rest : Bytes} (h0 : 0 < key.length) (h1 : key.length < 2 ^ 16)
      (hv : WireValue v mem) (h : Wired n mem rest) : Wired (n + 1) (wireKey key ++ (v ++ mem)) rest

/-- A complete record, and `rest` behind it. The loop index is an `int16`, so it never reaches a
count of 32768 or more. -/
def WireRecord (buf rest : Bytes) : Prop :=
  ∃ n mem, n < 32768 ∧ buf = leBytes 2 n ++ mem ∧ Wired n mem rest

/-- `Overread n mem`: the decoder, with `n` fields still to read from `mem`,
reads outside it. -/
inductive Overread : Nat → Bytes → Prop where
  | keylen (n : Nat) (b : UInt8) : Overread (n + 1) [b]
  | value (n : Nat) (key mem : Bytes) (h0 : 0 < key.length) (h1 : key.length < 2 ^ 16)
      (h : RunawayValue mem) : Overread (n + 1) (wireKey key ++ mem)
  | next (n : Nat) (key v rest : Bytes) (h0 : 0 < key.length) (h1 : key.length < 2 ^ 16)
      (hv : WireValue v rest) (h : Overread n rest) : Overread (n + 1) (wireKey key ++ (v ++ rest))

/-- The buffers on which the decoder reads outside. From 32768 fields on only the end of the buffer
stops the loop. -/
def Overreads (buf : Bytes) : Prop :=
  ∃ n rest, n < 2 ^ 16 ∧ buf = leBytes 2 n ++ rest ∧ Overread (if n < 32768 then n else rest.length) rest

/-! ## Strings -/

theorem strlen_lt {src : Bytes} {n : Nat} (h : strlen src = .ok n) : n < src.length := by
  induction src generalizing n with
  | nil => cases h
  | cons b src ih =>
    simp only [strlen] at h
    split at h
    · cases h; simp
    · obtain ⟨k, hk, hn⟩ := bind_eq_ok.mp h
      have := ih hk
      cases hn
      simp only [length_cons]; omega

theorem strlen_cases (src : Bytes) : (0 ∉ src ∧ strlen src = Res.fault) ∨ 0 ∈ src ∧ ∃ n,
    strlen src = .ok n := by
  induction src with
  | nil => exact .inl ⟨by simp, rfl⟩
  | cons b src ih =>
    by_cases hb : b = 0
    · exact .inr ⟨by simp [hb], 0, by rw [strlen, if_pos hb]⟩
    · rcases ih with ⟨hm, h⟩ | ⟨hm, n, h⟩
      · exact .inl ⟨by simp [hm, Ne.symm hb], by rw [strlen, if_neg hb, h]; rfl⟩
      · exact .inr ⟨mem_cons_of_mem b hm, n + 1, by rw [strlen, if_neg hb, h]; rfl⟩

theorem cInt_le (n : Nat) : cInt n ≤ n := by
  unfold cInt
  rw [Int.bmod_def]
  omega

theorem createLen_neg {len : Int} (h : len < 0) (hn : strlen src = .ok n) :
    createLen src len = .ok (cInt n) := by
  rw [createLen, if_pos h, hn]; rfl

/-- `nx_string_create` on a length that is negative as an `int`. -/
theorem stringCreate_long_fault {addr len : Nat} (h : 2 ^ 31 ≤ len) (h' : len < 2 ^ 32)
    (hr : Runaway src) : stringCreate addr src (cInt len) = Res.fault := by
  have hneg := cInt_neg h h'
  rcases hr with h0 | ⟨n, hn, hc⟩
  · simp [stringCreate, createLen, if_pos hneg, ((strlen_cases src).resolve_right fun hm => h0 hm.1).2]
  · have hle : ¬ cInt n > stringLimit := by omega
    rw [stringCreate, createLen_neg hneg hn, ok_bind, if_neg hle, if_pos hc]

theorem stringCreate_long_ok (addr : Nat) {len n : Nat} (h : 2 ^ 31 ≤ len) (h' : len < 2 ^ 32)
    (hn : strlen src = .ok n) (h0 : 0 ≤ cInt n) (hl : cInt n ≤ stringLimit) :
    ∃ s, stringCreate addr src (cInt len) = .ok s := by
  have hneg := cInt_neg h h'
  have hlt := strlen_lt hn
  have hle := cInt_le n
  have hr : rdBytes src 0 (cInt n).toNat = _ := rdBytes_ok (by omega)
  refine ⟨⟨addr, (src.drop 0).take (cInt n).toNat⟩, ?_⟩
  have h1 : ¬ cInt n > stringLimit := by omega
  have h2 : ¬ cInt n < 0 := by omega
  rw [stringCreate, createLen_neg hneg hn, ok_bind, if_neg h1, if_neg h2, hr]; rfl

/-- A string length, as the decoder passes it on, has one of three outcomes. -/
theorem stringCreate_cases (addr len : Nat) (src : Bytes) (hlen : len < 2 ^ 32)
    (hsrc : len ≤ src.length) : (∃ s, stringCreate addr src (cInt len) = .ok s ∧
      (len ≤ stringLimit ∨ 2 ^ 31 ≤ len ∧ ∃ n, strlen src = .ok n ∧ 0 ≤ cInt n ∧ cInt n ≤ stringLimit)) ∨
    (∃ m, stringCreate addr src (cInt len) = Res.throw m) ∨
    (2 ^ 31 ≤ len ∧ Runaway src ∧ stringCreate addr src (cInt len) = Res.fault) := by
  by_cases h31 : len < 2 ^ 31
  · rw [cInt_of_lt h31]
    by_cases hl : len ≤ stringLimit
    · exact .inl ⟨_, stringCreate_ok hl hsrc, .inl hl⟩
    · refine .inr (.inl ⟨"oversized string, limit is 1048576 bytes", ?_⟩)
      have h1 : ¬ (len : Int) < 0 := by omega
      have h2 : (len : Int) > stringLimit := by omega
      rw [stringCreate, createLen, if_neg h1, ok_bind, if_pos h2]
  · have h31 : 2 ^ 31 ≤ len := by omega
    rcases strlen_cases src with ⟨hm, -⟩ | ⟨-, n, hn⟩
    · exact .inr (.inr ⟨h31, .inl hm, stringCreate_long_fault h31 hlen (.inl hm)⟩)
    by_cases hneg : cInt n < 0
    · have hr : Runaway src := .inr ⟨n, hn, hneg⟩
      exact .inr (.inr ⟨h31, hr, stringCreate_long_fault h31 hlen hr⟩)
    by_cases hl : cInt n ≤ stringLimit
    · obtain ⟨s, hs⟩ := stringCreate_long_ok addr h31 hlen hn (by omega) hl
      exact .inl ⟨s, hs, .inr ⟨h31, n, hn, by omega, hl⟩⟩
    · refine .inr (.inl ⟨"oversized string, limit is 1048576 bytes", ?_⟩)
      have hc := cInt_neg h31 hlen
      have hgt : cInt n > stringLimit := by omega
      rw [stringCreate, createLen_neg hc hn, ok_bind, if_pos hgt]

/-! ## One value -/

theorem payload_fixed_ok (addr : Nat) (mem : Bytes) {k : Nat} {ty : ValueType} (hk : fixedSize ty = some k)
    (h : 2 + k ≤ mem.length) : ∃ d, payloadFromMembuf addr mem mem.length ty = .ok (d, 2 + k) := by
  cases ty with
  | integer | datetime =>
    cases hk
    rw [payloadFromMembuf, needFixed_ok h, ok_bind, rdLe_ok h]
    exact ⟨_, rfl⟩
  | boolean =>
    cases hk
    rw [payloadFromMembuf, needFixed_ok h, ok_bind, rd_ok (show 2 < mem.length by omega)]
    exact ⟨_, rfl⟩
  | ip4addr | ip6addr =>
    cases hk
    rw [payloadFromMembuf, needFixed_ok h, ok_bind, rdOctets, dif_pos h]
    exact ⟨_, rfl⟩
  | string | regexp | binary | unknown | other => cases hk

theorem payload_fixed_short (addr : Nat) (mem : Bytes) {k n : Nat} {ty : ValueType}
    (hk : fixedSize ty = some k)
    (h : ¬ 2 + k ≤ n) : ∃ m, payloadFromMembuf addr mem n ty = Res.throw m := by
  have hn : ∀ what, needFixed n k what = Res.throw ("not enough data to decode serialized " ++ what) :=
    fun what => if_neg h
  cases ty with
  | integer | datetime | boolean | ip4addr | ip6addr =>
    cases hk
    rw [payloadFromMembuf, hn]
    exact ⟨_, rfl⟩
  | string | regexp | binary | unknown | other => cases hk

/-- The two checks of a length-prefixed payload throw, or leave the length and
as many bytes. -/
theorem needSized_cases (b0 b1 : UInt8) (ds : Bytes) (what : String) :
    (∃ m, needSized (b0 :: b1 :: ds) (ds.length + 2) what = Res.throw m) ∨
    ∃ len src, ds = leBytes 4 len ++ src ∧ len < 2 ^ 32 ∧ len ≤ src.length ∧
      needSized (b0 :: b1 :: ds) (ds.length + 2) what = .ok len := by
  unfold needSized
  by_cases h6 : 2 + 4 ≤ ds.length + 2
  · have h4 : (ds.take 4).length = 4 := by simp; omega
    rw [if_pos h6, rdLe_ok (by simp; omega), ok_bind]
    show (∃ m, (if 2 + 4 + leNat (ds.take 4) ≤ _ then _ else _) = _) ∨ _
    have hlt := leNat_take_lt ds 4
    by_cases hl : 2 + 4 + leNat (ds.take 4) ≤ ds.length + 2
    · refine .inr ⟨leNat (ds.take 4), ds.drop 4, ?_, hlt, by simp; omega, if_pos hl⟩
      rw [leBytes_leNat_of_length h4, take_append_drop]
    · rw [if_neg hl]
      exact .inl ⟨_, rfl⟩
  · rw [if_neg h6]
    exact .inl ⟨_, rfl⟩

theorem valueFromMembuf_defined (addr : Nat) (ty : ValueType) (ds : Bytes) :
    valueFromMembuf addr (ty.tag :: 1 :: ds) (ds.length + 2) = (do
      let (d, offs) ← payloadFromMembuf addr (ty.tag :: 1 :: ds) (ds.length + 2) ty
      return (⟨TRUE, d⟩, offs)) := by
  rw [valueFromMembuf_head _ _ _ _ _ (by omega), if_pos rfl, ValueType.ofTag_tag]; rfl

/-- A value with a length in front is decoded and consumed if its payload is. -/
theorem valueFromMembuf_sized {addr : Nat} {t : ValueType} {bs rest : Bytes} {d : Data}
    (h : payloadFromMembuf addr (t.tag :: 1 :: (leBytes 4 bs.length ++ (bs ++ rest)))
      ((leBytes 4 bs.length ++ (bs ++ rest)).length + 2) t = .ok (d, 2 + 4 + bs.length)) :
    ∃ w, valueFromMembuf addr (t.tag :: 1 :: (leBytes 4 bs.length ++ bs) ++ rest)
      (t.tag :: 1 :: (leBytes 4 bs.length ++ bs) ++ rest).length =
        .ok (w, (t.tag :: 1 :: (leBytes 4 bs.length ++ bs)).length) := by
  rw [cons_append, cons_append, append_assoc]
  refine ⟨⟨TRUE, d⟩, (valueFromMembuf_defined addr t _).trans ?_⟩
  rw [h]
  simp only [ok_bind, pure_eq, length_cons, length_append, leBytes_length]
  rw [show 2 + 4 + bs.length = 4 + bs.length + 1 + 1 by omega]

/-- A complete value is decoded and consumed. -/
theorem valueFromMembuf_wire {v rest : Bytes} (h : WireValue v rest) (addr : Nat) :
    ∃ w, valueFromMembuf addr (v ++ rest) (v ++ rest).length = .ok (w, v.length) := by
  cases h with
  | undefined tag d _ hd =>
    rw [cons_append, cons_append, valueFromMembuf_head _ _ _ _ _ (by simp), if_neg hd]
    exact ⟨_, rfl⟩
  | fixed ty bs _ hk =>
    obtain ⟨d, hd⟩ := payload_fixed_ok addr (ty.tag :: 1 :: (bs ++ rest)) hk (by simp; omega)
    refine ⟨⟨TRUE, d⟩, (valueFromMembuf_defined addr ty (bs ++ rest)).trans ?_⟩
    rw [show (bs ++ rest).length + 2 = (ty.tag :: 1 :: (bs ++ rest)).length from rfl, hd, ok_bind,
      Nat.add_comm 2]
    rfl
  | binary bs _ hl =>
    exact valueFromMembuf_sized (t := .binary)
      (payload_binary addr 8 1 hl (show bs.length ≤ (bs ++ rest).length by simp))
  | string bs _ hl =>
    have hlt : bs.length < 2 ^ 31 := by unfold stringLimit at hl; omega
    have hs : bs.length ≤ (bs ++ rest).length := by simp
    have hb := payload_string addr 2 1 (show bs.length < 2 ^ 32 by omega) hs
    rw [cInt_of_lt hlt, stringCreate_ok hl hs, ok_bind] at hb
    exact valueFromMembuf_sized (t := .string) hb
  | longString bs _ n h1 h2 hn h0 hl =>
    have hb := payload_string addr 2 1 h2 (show bs.length ≤ (bs ++ rest).length by simp)
    obtain ⟨s, hc⟩ := stringCreate_long_ok addr h1 h2 hn h0 hl
    rw [hc, ok_bind] at hb
    exact valueFromMembuf_sized (t := .string) hb

theorem valueFromMembuf_runaway (h : RunawayValue mem) (addr : Nat) :
    valueFromMembuf addr mem mem.length = Res.fault := by
  obtain ⟨len, src, rfl, h1, h2, hs, hr⟩ := h
  refine (valueFromMembuf_defined addr .string _).trans ?_
  rw [show ValueType.string.tag = 2 from rfl, payload_string addr _ _ h2 hs,
    stringCreate_long_fault h1 h2 hr, fault_bind, fault_bind]

/-- The outcomes of decoding one value from what is left of the buffer. -/
inductive ValueOutcome (mem : Bytes) : Res (NxValue × Nat) → Prop where
  | ok (v rest : Bytes) (w : NxValue) (h : mem = v ++ rest) (hv : WireValue v rest) :
      ValueOutcome mem (.ok (w, v.length))
  | throw (m : String) : ValueOutcome mem (Res.throw m)
  | fault (h : RunawayValue mem) : ValueOutcome mem Res.fault

theorem ValueOutcome.sized {tag : UInt8} (hsrc : len ≤ src.length) (w : NxValue)
    (hw : (src.take len).length = len →
      WireValue (tag :: 1 :: (leBytes 4 (src.take len).length ++ src.take len)) (src.drop len)) :
    ValueOutcome (tag :: 1 :: (leBytes 4 len ++ src)) (.ok (w, 2 + 4 + len)) := by
  have htake : (src.take len).length = len := by simp; omega
  have : ValueOutcome (tag :: 1 :: (leBytes 4 len ++ src)) _ := .ok _ _ w (by simp [htake]) (hw htake)
  simp only [length_cons, length_append, leBytes_length, htake] at this
  rw [show 2 + 4 + len = 4 + len + 1 + 1 by omega]
  exact this

theorem definedOutcome (addr : Nat) (ty : ValueType) (ds : Bytes) :
    ValueOutcome (ty.tag :: 1 :: ds) (valueFromMembuf addr (ty.tag :: 1 :: ds) (ds.length + 2)) := by
  rw [valueFromMembuf_defined]
  by_cases hfix : ∃ k, fixedSize ty = some k
  · obtain ⟨k, hk⟩ := hfix
    by_cases hlen : 2 + k ≤ ds.length + 2
    · obtain ⟨d, hd⟩ := payload_fixed_ok addr (ty.tag :: 1 :: ds) hk hlen
      have hk' : (ds.take k).length = k := by simp; omega
      rw [show ds.length + 2 = (ty.tag :: 1 :: ds).length from rfl, hd]
      have hw := WireValue.fixed ty (ds.take k) (ds.drop k) (by rw [hk', hk])
      have : ValueOutcome (ty.tag :: 1 :: ds) _ := .ok _ _ ⟨TRUE, d⟩ (by simp) hw
      simp only [length_cons, hk'] at this
      rw [Nat.add_comm 2]
      exact this
    · obtain ⟨m, hm⟩ := payload_fixed_short addr (ty.tag :: 1 :: ds) hk hlen
      rw [hm]
      exact .throw m
  · cases ty with
    | integer | datetime | boolean | ip4addr | ip6addr => exact absurd ⟨_, rfl⟩ hfix
    | regexp | unknown | other => exact .throw _
    | binary =>
      rcases needSized_cases 8 1 ds "binary" with ⟨m, hm⟩ | ⟨len, src, rfl, hlen, hsrc, -⟩
      · rw [show ValueType.binary.tag = 8 from rfl, payloadFromMembuf, hm]
        exact .throw m
      · rw [show ValueType.binary.tag = 8 from rfl, payload_binary addr _ _ hlen hsrc, ok_bind]
        exact .sized hsrc _ fun htake => .binary _ _ (by omega)
    | string =>
      rcases needSized_cases 2 1 ds "string" with ⟨m, hm⟩ | ⟨len, src, rfl, hlen, hsrc, -⟩
      · rw [show ValueType.string.tag = 2 from rfl, payloadFromMembuf, hm]
        exact .throw m
      rw [show ValueType.string.tag = 2 from rfl, payload_string addr _ _ hlen hsrc]
      rcases stringCreate_cases addr len src hlen hsrc with ⟨s, hs, hlong⟩ | ⟨m, hm⟩ | ⟨h31, hr, hf⟩
      · rw [hs]
        refine .sized hsrc _ fun htake => ?_
        rcases hlong with hl | ⟨h31, n, hn, h0, hl⟩
        · exact .string _ _ (by omega)
        · exact .longString _ _ n (by omega) (by omega) (by rw [take_append_drop]; exact hn) h0 hl
      · rw [hm]; exact .throw m
      · rw [hf]; exact .fault ⟨len, src, rfl, h31, hlen, hsrc, hr⟩

theorem valueOutcome (addr : Nat) (mem : Bytes) (h : mem ≠ []) :
    ValueOutcome mem (valueFromMembuf addr mem mem.length) := by
  rcases mem with _ | ⟨b0, _ | ⟨b1, ds⟩⟩
  · exact absurd rfl h
  · exact .throw _
  by_cases hd : b1 = 1
  · subst hd
    rw [← ValueType.tag_ofTag b0]
    exact definedOutcome addr (.ofTag b0) ds
  · rw [valueFromMembuf_head _ _ _ _ _ (by simp), if_neg hd]
    exact .ok [b0, b1] ds _ rfl (.undefined b0 b1 ds hd)

/-! ## The field loop -/

/-- A call that keeps to a buffer of `size` bytes: it throws, or returns a
consumed length within it. -/
def Safe (size : Nat) (r : Res (Logdata × Nat)) : Prop :=
  (∃ m, r = Res.throw m) ∨ ∃ ld consumed, r = .ok (ld, consumed) ∧ consumed ≤ size

/-- `n` more turns of the loop: exactly `n` while the index can reach the count,
otherwise as many as the `left` bytes allow. -/
def TurnsLeft (fields : UInt16) (i : Int16) (n left : Nat) : Prop :=
  (fields.toNat < 32768 ∧ i.toInt + n = fields.toNat) ∨ (32768 ≤ fields.toNat ∧ left ≤ n)

theorem turnsLeft_lt {n left : Nat} (h : TurnsLeft fields i (n + 1) left) : i.toInt < fields.toNat := by
  rcases h with ⟨-, h⟩ | ⟨h, -⟩
  · omega
  · have : i.toInt < 2 ^ 15 := Int16.toInt_lt i
    omega

theorem turnsLeft_next {n left left' : Nat}
    (h : TurnsLeft fields i (n + 1) left) (hl : left' < left) : TurnsLeft fields (i + 1) n left' := by
  rcases h with ⟨h1, h2⟩ | ⟨h1, h2⟩
  · refine .inl ⟨h1, ?_⟩
    have hstep := int16_succ (i := i) (by omega)
    omega
  · exact .inr ⟨h1, by omega⟩

theorem wireKey_length (key : Bytes) : (wireKey key).length = 2 + key.length := by simp [wireKey]

theorem WireValue.two_le {v rest : Bytes} (h : WireValue v rest) : 2 ≤ v.length := by
  cases h <;> simp

/-- One turn on a complete field. -/
theorem fieldsFromMembuf_field {key v rest : Bytes} {offs : Nat} (fuel : Nat) (ld : Logdata)
    (hi : i.toInt < fields.toNat) (hmem : mem.drop offs = wireKey key ++ (v ++ rest))
    (hoffs : offs ≤ mem.length) (h0 : 0 < key.length) (h1 : key.length < 2 ^ 16)
    (hv : WireValue v rest) : ∃ ld' offs', fieldsFromMembuf mem mem.length fields
        (fuel + 1) i offs ld = fieldsFromMembuf mem mem.length fields fuel (i + 1) offs' ld' ∧
      mem.drop offs' = rest ∧ offs' ≤ mem.length := by
  have hv2 := hv.two_le
  obtain ⟨w, hw⟩ := valueFromMembuf_wire hv ld.fields.length
  have hlen := length_of_drop hmem hoffs
  simp only [length_append, wireKey_length] at hlen
  refine ⟨ld.addDecoded (cut key) w, offs + 2 + key.length + v.length, ?_, ?_, by omega⟩
  · have hpos : 0 < (v ++ rest).length := by
      rw [length_append]
      omega
    rw [fieldsFromMembuf_key fuel ld hi hmem hoffs h0 h1 hpos (by rw [length_append]; omega), hw, ok_bind]
  · have hdrop := drop_of_drop (drop_of_drop hmem)
    rwa [wireKey_length, ← Nat.add_assoc] at hdrop

/-- On the buffers of the grammar the loop reads outside. -/
theorem fieldsFromMembuf_overread {rest : Bytes} (h : Overread n rest) :
    ∀ (fuel : Nat) (i : Int16) (offs : Nat) (ld : Logdata), rest.length < fuel →
      mem.drop offs = rest → offs ≤ mem.length → TurnsLeft fields i n rest.length →
      fieldsFromMembuf mem mem.length fields fuel i offs ld = Res.fault := by
  induction h with
  | keylen n b =>
    intro fuel i offs ld hfuel hmem hoffs ht
    obtain ⟨fuel, rfl⟩ : ∃ k, fuel = k + 1 := ⟨fuel - 1, by omega⟩
    have hlen : mem.length = offs + 1 := by
      have := congrArg length hmem
      simp at this; omega
    rw [fieldsFromMembuf, if_pos (turnsLeft_lt ht), if_neg (by omega), rdLe_fault (by omega)]
    rfl
  | value n key val h0 h1 hr =>
    intro fuel i offs ld hfuel hmem hoffs ht
    obtain ⟨fuel, rfl⟩ : ∃ k, fuel = k + 1 := ⟨fuel - 1, by omega⟩
    have hpos : 0 < val.length := by
      obtain ⟨len, src, rfl, -⟩ := hr
      simp
    have hlen := length_of_drop hmem hoffs
    simp only [wireKey_length] at hlen
    rw [fieldsFromMembuf_key fuel ld (turnsLeft_lt ht) hmem hoffs h0 h1 hpos (by omega),
      valueFromMembuf_runaway hr]
    rfl
  | next n key v rest h0 h1 hv _ ih =>
    intro fuel i offs ld hfuel hmem hoffs ht
    obtain ⟨fuel, rfl⟩ : ∃ k, fuel = k + 1 := ⟨fuel - 1, by omega⟩
    obtain ⟨ld', offs', hturn, hdrop, hoffs'⟩ :=
      fieldsFromMembuf_field fuel ld (turnsLeft_lt ht) hmem hoffs h0 h1 hv
    simp only [length_append, wireKey_length] at hfuel ht
    rw [hturn]
    exact ih fuel (i + 1) offs' ld' (by omega) hdrop hoffs' (turnsLeft_next ht (by omega))

variable (fields) in
/-- Complete fields are decoded, and those behind them are left. -/
theorem fieldsFromMembuf_wired {here rest : Bytes} (h : Wired n here rest) :
    ∀ (fuel : Nat) (i : Int16) (offs : Nat) (ld : Logdata), here.length < fuel →
      mem.drop offs = here → offs ≤ mem.length → fields.toNat < 32768 → i.toInt + n = fields.toNat →
      ∃ ld', fieldsFromMembuf mem mem.length fields fuel i offs ld = .ok (ld', mem.length - rest.length) := by
  induction h with
  | nil rest =>
    intro fuel i offs ld hfuel hmem hoffs hcount hn
    obtain ⟨fuel, rfl⟩ : ∃ k, fuel = k + 1 := ⟨fuel - 1, by omega⟩
    have hlen := congrArg length hmem
    rw [length_drop] at hlen
    rw [fieldsFromMembuf, if_neg (by omega), show mem.length - rest.length = offs by omega]
    exact ⟨ld, rfl⟩
  | @cons n key v here rest h0 h1 hv _ ih =>
    intro fuel i offs ld hfuel hmem hoffs hcount hn
    obtain ⟨fuel, rfl⟩ : ∃ k, fuel = k + 1 := ⟨fuel - 1, by omega⟩
    obtain ⟨ld', offs', hturn, hdrop, hoffs'⟩ :=
      fieldsFromMembuf_field fuel ld (show i.toInt < fields.toNat by omega) hmem hoffs h0 h1 hv
    have hstep := int16_succ (i := i) (by omega)
    simp only [length_append, wireKey_length] at hfuel
    rw [hturn]
    exact ih fuel (i + 1) offs' ld' (by omega) hdrop hoffs' hcount (by omega)

/-- The outcomes of the loop with `n` fields still to read from `here`, the end of a buffer of
`size` bytes. -/
inductive FieldsOutcome (fields : UInt16) (size n : Nat) (here : Bytes) : Res (Logdata × Nat) → Prop where
  | ok (rest : Bytes) (ld : Logdata) (hcount : fields.toNat < 32768) (h : Wired n here rest) :
      FieldsOutcome fields size n here (.ok (ld, size - rest.length))
  | throw (m : String) : FieldsOutcome fields size n here (Res.throw m)
  | fault (h : Overread n here) : FieldsOutcome fields size n here Res.fault

theorem FieldsOutcome.cons {size : Nat} {key v rest : Bytes} {r : Res (Logdata × Nat)}
    (h : FieldsOutcome fields size n rest r) (h0 : 0 < key.length) (h1 : key.length < 2 ^ 16)
    (hv : WireValue v rest) : FieldsOutcome fields size (n + 1) (wireKey key ++ (v ++ rest)) r := by
  cases h with
  | ok rest ld hcount h => exact .ok rest ld hcount (.cons h0 h1 hv h)
  | throw m => exact .throw m
  | fault h => exact .fault (.next n key v rest h0 h1 hv h)

variable (mem) in
theorem fieldsFromMembuf_outcome :
    ∀ (fuel n : Nat) (i : Int16) (offs : Nat) (ld : Logdata), (mem.drop offs).length < fuel →
      offs ≤ mem.length → TurnsLeft fields i n (mem.drop offs).length →
      FieldsOutcome fields mem.length n (mem.drop offs)
        (fieldsFromMembuf mem mem.length fields fuel i offs ld) := by
  intro fuel
  induction fuel with
  | zero => intro n i offs ld hfuel; omega
  | succ fuel ih =>
    intro n i offs ld hfuel hoffs ht
    rw [length_drop] at hfuel
    by_cases hi : i.toInt < fields.toNat
    swap
    · -- the index has reached the count
      have hlt : i.toInt < 2 ^ 15 := Int16.toInt_lt i
      obtain ⟨hcount, hn⟩ := ht.resolve_right (by omega)
      obtain rfl : n = 0 := by omega
      have hout : FieldsOutcome fields mem.length 0 (mem.drop offs) _ := .ok _ ld hcount (.nil _)
      rw [fieldsFromMembuf, if_neg hi]
      rwa [length_drop, show mem.length - (mem.length - offs) = offs by omega] at hout
    by_cases hend : offs ≥ mem.length
    · rw [fieldsFromMembuf, if_pos hi, if_pos hend]
      exact .throw _
    -- a turn is due and there are bytes, so there is a turn left
    obtain ⟨n, rfl⟩ : ∃ k, n = k + 1 := by
      refine ⟨n - 1, ?_⟩
      rw [length_drop] at ht
      rcases ht with ⟨-, h⟩ | ⟨-, h⟩
      · omega
      · omega
    by_cases h2 : offs + 2 ≤ mem.length
    swap
    · have hl : (mem.drop offs).length = 1 := by rw [length_drop]; omega
      obtain ⟨b, hb⟩ := length_eq_one_iff.mp hl
      rw [fieldsFromMembuf, if_pos hi, if_neg hend, rdLe_fault (by omega), hb]
      exact .fault (.keylen n b)
    -- the two bytes of the key length, then the key
    have hl2 : ((mem.drop offs).take 2).length = 2 := by simp; omega
    have hlt := leNat_take_lt (mem.drop offs) 2
    have hrd := rdLe_ok (n := 2) h2
    by_cases hk0 : leNat ((mem.drop offs).take 2) = 0
    · rw [fieldsFromMembuf, if_pos hi, if_neg hend, hrd, ok_bind, if_pos hk0]
      exact .throw _
    by_cases hkn : offs + 2 + leNat ((mem.drop offs).take 2) ≥ mem.length
    · rw [fieldsFromMembuf, if_pos hi, if_neg hend, hrd, ok_bind, if_neg hk0, if_pos hkn]
      exact .throw _
    generalize hkl : leNat ((mem.drop offs).take 2) = keylen at hlt hk0 hkn
    have hkey : ((mem.drop (offs + 2)).take keylen).length = keylen := by simp; omega
    have hmem : mem.drop offs =
        wireKey ((mem.drop (offs + 2)).take keylen) ++ mem.drop (offs + 2 + keylen) := by
      rw [wireKey, hkey, ← hkl, leBytes_leNat_of_length hl2, append_assoc, hkl]
      rw [← drop_drop (i := keylen), take_append_drop, ← drop_drop, take_append_drop]
    have hne : mem.drop (offs + 2 + keylen) ≠ [] := by
      rw [ne_eq, drop_eq_nil_iff]; omega
    have hpos := length_pos_iff.mpr hne
    rw [fieldsFromMembuf_key fuel ld hi hmem hoffs (by omega) (by omega) hpos
      (by rw [hkey, length_drop]; omega), hkey]
    generalize hr : valueFromMembuf ld.fields.length (mem.drop (offs + 2 + keylen)) _ = r
    have hout := valueOutcome ld.fields.length _ hne
    rw [hr] at hout
    cases hout with
    | throw m => exact .throw m
    | fault hrun =>
      rw [hmem]
      exact .fault (.value n _ _ (by omega) (by omega) hrun)
    | ok v rest w hsplit hv =>
      have hrest : mem.drop (offs + 2 + keylen + v.length) = rest := drop_of_drop hsplit
      have hlen := length_of_drop hsplit (by omega)
      rw [hmem, hsplit] at ht ⊢
      refine .cons ?_ (by omega) (by omega) hv
      rw [ok_bind, ← hrest]
      refine ih n _ _ _ ?_ (by omega) ?_
      · rw [hrest]; omega
      · rw [hrest]
        exact turnsLeft_next ht (by simp only [length_append, wireKey_length]; omega)

/-- A buffer is its field count and what is behind it. -/
theorem overreads_iff (h : 2 ≤ buf.length) :
    Overreads buf ↔ Overread (if leNat (buf.take 2) < 32768 then leNat (buf.take 2)
      else (buf.drop 2).length) (buf.drop 2) := by
  have hl2 : (buf.take 2).length = 2 := by simp; omega
  have hlt := leNat_take_lt buf 2
  constructor
  · rintro ⟨n, rest, hn, he, ho⟩
    have htake : buf.take 2 = leBytes 2 n := by rw [he]; exact take_left' (leBytes_length _ _)
    have hdrop : buf.drop 2 = rest := by rw [he]; exact drop_left' (leBytes_length _ _)
    rw [htake, hdrop, leNat_leBytes_of_lt (by omega)]
    exact ho
  · intro ho
    refine ⟨_, _, by omega, ?_, ho⟩
    rw [leBytes_leNat_of_length hl2, take_append_drop]

theorem turnsLeft_start :
    TurnsLeft (UInt16.ofNat (leNat (buf.take 2))) 0 (if leNat (buf.take 2) < 32768 then
      leNat (buf.take 2) else (buf.drop 2).length) (buf.drop 2).length := by
  have hlt := leNat_take_lt buf 2
  unfold TurnsLeft
  rw [UInt16.toNat_ofNat', Nat.mod_eq_of_lt (by omega)]
  by_cases hs : leNat (buf.take 2) < 32768
  · rw [if_pos hs]
    exact .inl ⟨hs, by simp⟩
  · rw [if_neg hs]
    exact .inr ⟨by omega, Nat.le_refl _⟩

theorem logdataFromMembuf_eq (h : 2 ≤ buf.length) :
    logdataFromMembuf buf buf.length = (do
      let (ld, offs) ← fieldsFromMembuf buf buf.length (UInt16.ofNat (leNat (buf.take 2)))
        (buf.length + 1) 0 2 ⟨none, [], []⟩
      return (ld.fillRawEvent, offs)) := by
  rw [logdataFromMembuf, if_neg (by omega), rdLe_ok (by omega), ok_bind, drop_zero]

theorem logdataFromMembuf_overreads (h : Overreads buf) : logdataFromMembuf buf buf.length = Res.fault := by
  have h2 : 2 ≤ buf.length := by
    obtain ⟨n, rest, -, hbuf, -⟩ := h
    have := congrArg length hbuf
    simp at this; omega
  rw [logdataFromMembuf_eq h2, fieldsFromMembuf_overread ((overreads_iff h2).mp h)
    (buf.length + 1) 0 2 _ (by rw [length_drop]; omega) rfl h2 turnsLeft_start]
  rfl

/-- A complete record is decoded, and what is behind it is left. -/
theorem logdataFromMembuf_wire {rest : Bytes} (h : WireRecord buf rest) :
    ∃ ld, logdataFromMembuf buf buf.length = .ok (ld, buf.length - rest.length) := by
  obtain ⟨n, mem, hn, rfl, hw⟩ := h
  have htake : (leBytes 2 n ++ mem).take 2 = leBytes 2 n := take_left' (leBytes_length _ _)
  have hdrop : (leBytes 2 n ++ mem).drop 2 = mem := drop_left' (leBytes_length _ _)
  have hcount : (UInt16.ofNat n).toNat = n := by rw [UInt16.toNat_ofNat', Nat.mod_eq_of_lt (by omega)]
  obtain ⟨ld, hld⟩ := fieldsFromMembuf_wired (UInt16.ofNat n) hw ((leBytes 2 n ++ mem).length + 1) 0
    2 ⟨none, [], []⟩ (by rw [length_append]; omega) hdrop (by simp) (by omega) (by simp [hcount])
  rw [logdataFromMembuf_eq (by simp), htake, leNat_leBytes_of_lt (by omega), hld]
  exact ⟨_, rfl⟩

/-- Every other buffer throws, or is one on which the decoder reads outside. -/
theorem logdataFromMembuf_cases (buf : Bytes) :
    (∃ m, logdataFromMembuf buf buf.length = Res.throw m) ∨ Overreads buf ∨ ∃ rest, WireRecord buf rest := by
  by_cases h1 : buf.length ≤ 1
  · rw [logdataFromMembuf, if_pos h1]
    exact .inl ⟨_, rfl⟩
  have h2 : 2 ≤ buf.length := by omega
  have hlt := leNat_take_lt buf 2
  have hout := fieldsFromMembuf_outcome buf (buf.length + 1) _ 0 2 ⟨none, [], []⟩
    (by rw [length_drop]; omega) h2 turnsLeft_start
  rw [logdataFromMembuf_eq h2]
  generalize fieldsFromMembuf buf _ _ _ _ _ _ = r at hout
  cases hout with
  | throw m => exact .inl ⟨m, rfl⟩
  | fault h => exact .inr (.inl ((overreads_iff h2).mpr h))
  | ok rest ld hcount h =>
    rw [UInt16.toNat_ofNat', Nat.mod_eq_of_lt (by omega)] at hcount
    rw [if_pos hcount] at h
    refine .inr (.inr ⟨rest, _, _, hcount, ?_, h⟩)
    rw [leBytes_leNat_of_length (by simp; omega), take_append_drop]

theorem logdataFromMembuf_safe (h : ¬ Overreads buf) : Safe buf.length (logdataFromMembuf buf buf.length) := by
  rcases logdataFromMembuf_cases buf with hthrow | ho | ⟨rest, hrest⟩
  · exact .inl hthrow
  · exact absurd ho h
  · obtain ⟨ld, hld⟩ := logdataFromMembuf_wire hrest
    exact .inr ⟨ld, _, hld, Nat.sub_le _ _⟩

theorem not_safe_fault : ¬ Safe n Res.fault := by
  rintro (⟨m, hm⟩ | ⟨ld, c, hc, -⟩)
  · cases hm
  · cases hc

/-- The decoder keeps to its buffer, and throws or returns a consumed length
within it, exactly on the buffers outside the grammar of `Overread`. -/
theorem decode_safe (buf : Bytes) : Safe buf.length (logdataFromMembuf buf buf.length) ↔ ¬ Overreads buf := by
  constructor
  · intro hsafe ho
    rw [logdataFromMembuf_overreads ho] at hsafe
    exact not_safe_fault hsafe
  · exact logdataFromMembuf_safe

/-- One field announced and one byte left: the second byte of the key length is
read behind the buffer. -/
theorem decode_reads_past_end :
    logdataFromMembuf [1, 0, 5] 3 = Res.fault ∧ ¬ Safe 3 (logdataFromMembuf [1, 0, 5] 3) := by
  have h : logdataFromMembuf [1, 0, 5] 3 = Res.fault := by decide
  exact ⟨h, by rw [h]; exact not_safe_fault⟩

end Nxlog.L1
