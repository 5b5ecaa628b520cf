import Mathlib.Data.List.Forall2
import Nxlog.L1Encoding.RecordCodec

/-!
# Which decoded records are well formed (`common/logdata-serialize.c`)

The rest of the program takes for granted that the names of a record are
different up to case, that its values have one of the eight types and a `defined`
flag of `TRUE` or `FALSE`, and that `raw_event` is the string of the field of that
name. `nx_logdata_from_membuf` checks none of this: it appends what it reads.

* `entries`: the names, type bytes and `defined` bytes that stand in the input,
  read off the layout alone.
* `Logdata.WellFormed`, `GoodEntries`: the record invariant, and what it asks of
  the input.
* `fieldsFromMembuf_entries`: what the decoder makes of each entry.
* `decoded_wellFormed_iff`: a returned record is well formed exactly if its input
  has good entries.
-/
namespace Nxlog.L1
open Res List

/-! ## The input -/

/-- What stands in front of a payload. -/
structure Entry where
  key : CStr
  tag : UInt8
  defined : UInt8
  deriving DecidableEq

def entriesFrom : Nat → Bytes → List Entry
  | 0, _ => []
  | n + 1, mem =>
    let keylen := leNat (mem.take 2)
    let val := mem.drop (2 + keylen)
    ⟨cut ((mem.drop 2).take keylen), val.getD 0 0, val.getD 1 0⟩ :: entriesFrom n (val.drop (valueSize val))

def entries (mem : Bytes) : List Entry := entriesFrom (leNat (mem.take 2)) (mem.drop 2)

/-! ## The invariant -/

/-- `nx_value_type_t` has eight types of values. -/
def ValueType.Concrete : ValueType → Prop
  | .unknown | .other _ => False
  | _ => True

instance : DecidablePred ValueType.Concrete
  | .unknown | .other _ => .isFalse id
  | .integer | .string | .datetime | .regexp | .boolean | .ip4addr | .ip6addr | .binary => .isTrue trivial

structure Logdata.WellFormed (ld : Logdata) : Prop where
  names : ld.fields.Pairwise fun f g => ¬ strcasecmp f.key g.key
  types : ∀ f ∈ ld.fields, f.value.type.Concrete
  flags : ∀ f ∈ ld.fields, f.value.defined = TRUE ∨ f.value.defined = FALSE
  payloads : ∀ f ∈ ld.fields, f.value.defined ≠ FALSE → f.value.data.Present
  raw : ∃ f ∈ ld.fields, f.key = rawEvent ∧ ∃ s, f.value.string? = some s ∧ ld.raw_event = some s.addr

/-- No name twice, no type byte outside the enum, no `defined` byte but 0 and 1,
and a STRING under the exact name `raw_event`. -/
structure GoodEntries (es : List Entry) : Prop where
  names : es.Pairwise fun e d => ¬ strcasecmp e.key d.key
  types : ∀ e ∈ es, (ValueType.ofTag e.tag).Concrete
  flags : ∀ e ∈ es, e.defined = 1 ∨ e.defined = 0
  raw : ∃ e ∈ es, e.key = rawEvent ∧ e.tag = 2 ∧ e.defined = 1

variable {kvs : List (CStr × NxValue)} {mem : Bytes} {es : List Entry} {bufsize : Nat} {ld : Logdata}
  {fields : UInt16}

/-! ## The loop -/

/-- What the decoder makes of an entry. -/
structure Decodes (e : Entry) (kv : CStr × NxValue) : Prop where
  key : kv.1 = e.key
  type : kv.2.type = .ofTag e.tag
  defined : kv.2.defined = e.defined.toUInt32
  payload : e.defined = 1 → kv.2.data.Present
  zero : e.defined ≠ 1 → kv.2.data = .zero kv.2.type

/-- One turn: the next name and value, and the rest of the loop. -/
theorem fieldsFromMembuf_turn {bufsize fuel : Nat} {i : Int16} {offs : Nat} {r : Logdata × Nat}
    (hlt : i.toInt < fields.toNat)
    (h : fieldsFromMembuf mem bufsize fields (fuel + 1) i offs ld = .ok r) :
    ∃ key val vlen, cpystrn (mem.drop (offs + 2)) (leNat ((mem.drop offs).take 2)) = .ok key ∧
      valueFromMembuf ld.fields.length (mem.drop (offs + 2 + leNat ((mem.drop offs).take 2)))
        (bufsize - (offs + 2 + leNat ((mem.drop offs).take 2))) = .ok (val, vlen) ∧
      fieldsFromMembuf mem bufsize fields fuel (i + 1)
        (offs + 2 + leNat ((mem.drop offs).take 2) + vlen) (ld.addDecoded key val) = .ok r := by
  unfold fieldsFromMembuf at h
  rw [if_pos hlt] at h
  split at h
  · cases h
  obtain ⟨keylen, hk, h⟩ := bind_eq_ok.mp h
  rw [rdLe_val hk]
  split at h
  · cases h
  · split at h
    · cases h
    · obtain ⟨key, hkey, h⟩ := bind_eq_ok.mp h
      obtain ⟨⟨val, vlen⟩, hval, h⟩ := bind_eq_ok.mp h
      exact ⟨key, val, vlen, hkey, hval, h⟩

/-- From 32768 fields on the index never reaches the count. -/
theorem fieldsFromMembuf_many (hf : 32768 ≤ fields.toNat) :
    ∀ (fuel : Nat) (i : Int16) (offs : Nat) (ld : Logdata) (r : Logdata × Nat),
      fieldsFromMembuf mem bufsize fields fuel i offs ld ≠ .ok r := by
  intro fuel
  induction fuel with
  | zero => intro i offs ld r h; cases h
  | succ fuel ih =>
    intro i offs ld r h
    have hlt : i.toInt < fields.toNat := by
      have := i.toInt_lt
      omega
    obtain ⟨_, _, _, -, -, hrest⟩ := fieldsFromMembuf_turn hlt h
    exact ih _ _ _ _ hrest

/-- Each turn of the loop appends the next entry. -/
theorem fieldsFromMembuf_entries (hf : fields.toNat < 32768) (fuel : Nat) (i : Int16) (offs : Nat)
    (ld : Logdata) {ld' : Logdata} {offs' : Nat} (hi : 0 ≤ i.toInt)
    (h : fieldsFromMembuf mem bufsize fields fuel i offs ld = .ok (ld', offs')) :
    ∃ kvs, ld' = ld.addAll kvs ∧
      Forall₂ Decodes (entriesFrom (fields.toNat - i.toInt.toNat) (mem.drop offs)) kvs := by
  induction fuel generalizing i offs ld ld' offs' with
  | zero => cases h
  | succ fuel ih =>
    by_cases hlt : i.toInt < fields.toNat
    · obtain ⟨key, val, vlen, hkey, hval, hrest⟩ := fieldsFromMembuf_turn hlt h
      have hsucc := int16_succ (i := i) (by omega)
      obtain ⟨kvs, hld, hkvs⟩ := ih (i + 1) _ _ (by omega) hrest
      have hcount : fields.toNat - i.toInt.toNat = fields.toNat - (i + 1).toInt.toNat + 1 := by omega
      obtain ⟨htype, hdef, hpay, hzero, hlen, -⟩ := valueFromMembuf_shape hval
      refine ⟨(key, val) :: kvs, hld, ?_⟩
      rw [hcount, entriesFrom]
      rw [hlen] at hkvs
      simp only [drop_drop, ← Nat.add_assoc]
      rw [cpystrn_eq] at hkey
      split at hkey
      · cases hkey
        exact .cons ⟨rfl, htype, hdef, hpay, hzero⟩ hkvs
      · cases hkey
    · unfold fieldsFromMembuf at h
      rw [if_neg hlt] at h
      cases h
      have hz : fields.toNat - i.toInt.toNat = 0 := by omega
      refine ⟨[], rfl, ?_⟩
      rw [hz]
      exact .nil

/-! ## Records -/

/-- The decoder returns the entries of its input. -/
theorem logdataFromMembuf_entries {bufsize n : Nat} (h : logdataFromMembuf mem bufsize = .ok (ld, n)) :
    ∃ kvs, ld = ((⟨none, [], []⟩ : Logdata).addAll kvs).fillRawEvent ∧ Forall₂ Decodes (entries mem) kvs := by
  unfold logdataFromMembuf at h
  split at h
  · cases h
  obtain ⟨count, hc, h⟩ := bind_eq_ok.mp h
  obtain ⟨⟨ld1, offs⟩, hloop, h⟩ := bind_eq_ok.mp h
  cases h
  have hval := rdLe_val hc
  rw [drop_zero] at hval
  have hlt := leNat_take_lt mem 2
  rw [hval] at hlt
  have hn : (UInt16.ofNat count).toNat = count := by
    rw [UInt16.toNat_ofNat']
    exact Nat.mod_eq_of_lt hlt
  by_cases hf : (UInt16.ofNat count).toNat < 32768
  · obtain ⟨kvs, rfl, hkvs⟩ := fieldsFromMembuf_entries hf _ _ _ _ (by decide) hloop
    refine ⟨kvs, rfl, ?_⟩
    rw [hn] at hkvs
    unfold entries
    rw [hval]
    exact hkvs
  · exact absurd hloop (fieldsFromMembuf_many (by omega) _ _ _ _ _)

variable (h : List.Forall₂ Decodes es kvs)
include h

theorem names_iff :
    (es.Pairwise fun e d => ¬ strcasecmp e.key d.key) ↔ kvs.Pairwise fun a b => ¬ strcasecmp a.1 b.1 := by
  have hmap : es.map Entry.key = kvs.map Prod.fst := by
    induction h with
    | nil => rfl
    | cons hd _ ih => simp [hd.key, ih]
  rw [← pairwise_map (f := Entry.key) (R := fun a b => ¬ strcasecmp a b), hmap, pairwise_map]

variable {P : Entry → Prop} {Q : CStr × NxValue → Prop}

theorem forall_iff (hPQ : ∀ e kv, Decodes e kv → (P e ↔ Q kv)) : (∀ e ∈ es, P e) ↔ ∀ kv ∈ kvs, Q kv := by
  induction h with
  | nil => simp
  | cons hd _ ih => simp [hPQ _ _ hd, ih]

theorem exists_iff (hPQ : ∀ e kv, Decodes e kv → (P e ↔ Q kv)) : (∃ e ∈ es, P e) ↔ ∃ kv ∈ kvs, Q kv := by
  induction h with
  | nil => simp
  | cons hd _ ih => simp [hPQ _ _ hd, ih]

variable {kv : CStr × NxValue}

theorem exists_entry (hkv : kv ∈ kvs) : ∃ e ∈ es, Decodes e kv := by
  induction h with
  | nil => cases hkv
  | cons hd _ ih =>
    rcases mem_cons.mp hkv with rfl | hkv
    · exact ⟨_, mem_cons_self, hd⟩
    · obtain ⟨e, he, hdec⟩ := ih hkv
      exact ⟨e, mem_cons_of_mem _ he, hdec⟩

omit h

theorem flag_iff (b : UInt8) : b = 1 ∨ b = 0 ↔ b.toUInt32 = TRUE ∨ b.toUInt32 = FALSE := by
  have h1 : b.toUInt32 = TRUE ↔ b = 1 := by
    rw [← UInt32.toNat_inj, ← UInt8.toNat_inj]
    simp [TRUE]
  have h0 : b.toUInt32 = FALSE ↔ b = 0 := by
    rw [← UInt32.toNat_inj, ← UInt8.toNat_inj]
    simp [FALSE]
  rw [h1, h0]

theorem raw_iff {e : Entry} (h : Decodes e kv) :
    e.key = rawEvent ∧ e.tag = 2 ∧ e.defined = 1 ↔ kv.1 = rawEvent ∧ kv.2.string?.isSome := by
  obtain ⟨hkey, htype, hdef, hpay, hzero⟩ := h
  rw [hkey]
  refine and_congr_right fun _ => ?_
  constructor
  · rintro ⟨ht, hd⟩
    rw [ht] at htype
    have hpres := hpay hd
    have htrue : kv.2.defined = TRUE := by rw [hdef, hd]; rfl
    unfold NxValue.type at htype
    unfold NxValue.string?
    cases hdata : kv.2.data with
    | string s =>
      rw [hdata] at hpres
      simp only
      rw [if_pos htrue]
      exact hpres
    | _ =>
      rw [hdata] at htype
      cases htype
  · intro hs
    obtain ⟨s, hs⟩ := Option.isSome_iff_exists.mp hs
    obtain ⟨hdt, hdata⟩ := string?_some hs
    have hd : e.defined = 1 := by
      by_contra hne
      rw [hzero hne] at hdata
      cases hty : kv.2.type <;> rw [hty] at hdata <;> cases hdata
    refine ⟨?_, hd⟩
    have : kv.2.type = .string := by
      rw [NxValue.type, hdata]
      rfl
    rw [this] at htype
    have := congrArg ValueType.tag htype
    rw [ValueType.tag_ofTag] at this
    exact this.symm

/-- Exactly the inputs with good entries give well-formed records. -/
theorem decoded_wellFormed_iff (mem : Bytes) (bufsize n : Nat) (ld : Logdata)
    (h : logdataFromMembuf mem bufsize = .ok (ld, n)) : ld.WellFormed ↔ GoodEntries (entries mem) := by
  obtain ⟨kvs, rfl, hkvs⟩ := logdataFromMembuf_entries h
  have hfields : ((⟨none, [], []⟩ : Logdata).addAll kvs).fillRawEvent.fields = kvs.map fun kv =>
    ⟨kv.1, kv.2⟩ := by
    rw [fillRawEvent_fields, addAll_fields]
    rfl
  have hnames := names_iff hkvs
  have htypes := forall_iff hkvs (P := fun e => (ValueType.ofTag e.tag).Concrete) (Q := fun kv =>
    kv.2.type.Concrete)
    fun e kv hd => by rw [hd.type]
  have hflags := forall_iff hkvs (P := fun e => e.defined = 1 ∨ e.defined = 0)
    (Q := fun kv => kv.2.defined = TRUE ∨ kv.2.defined = FALSE) fun e kv hd => by
      rw [hd.defined]; exact flag_iff _
  have hraw := exists_iff hkvs (P := fun e => e.key = rawEvent ∧ e.tag = 2 ∧ e.defined = 1)
    (Q := fun kv => kv.1 = rawEvent ∧ kv.2.string?.isSome) fun e kv hd => raw_iff hd
  constructor
  · intro hw
    refine ⟨hnames.mpr ?_, htypes.mpr ?_, hflags.mpr ?_, hraw.mpr ?_⟩
    · have := hw.names
      rw [hfields, pairwise_map] at this
      exact this
    · intro kv hkv
      exact hw.types ⟨kv.1, kv.2⟩ (by rw [hfields]; exact mem_map_of_mem hkv)
    · intro kv hkv
      exact hw.flags ⟨kv.1, kv.2⟩ (by rw [hfields]; exact mem_map_of_mem hkv)
    · obtain ⟨f, hf, hk, s, hs, -⟩ := hw.raw
      rw [hfields] at hf
      obtain ⟨kv, hkv, rfl⟩ := mem_map.mp hf
      exact ⟨kv, hkv, hk, by rw [hs]; rfl⟩
  · intro hg
    have hdistinct := hnames.mp hg.names
    obtain ⟨⟨k, v⟩, hmem, hk, hstr⟩ := hraw.mp hg.raw
    obtain ⟨s, hs⟩ := Option.isSome_iff_exists.mp hstr
    subst hk
    have hptr := addAll_raw_event hdistinct hmem hs ⟨none, [], []⟩
    constructor
    · rw [hfields, pairwise_map]
      exact hdistinct
    · rw [hfields]
      intro f hf
      obtain ⟨kv, hkv, rfl⟩ := mem_map.mp hf
      exact htypes.mp hg.types kv hkv
    · rw [hfields]
      intro f hf
      obtain ⟨kv, hkv, rfl⟩ := mem_map.mp hf
      exact hflags.mp hg.flags kv hkv
    · rw [hfields]
      intro f hf hne
      obtain ⟨kv, hkv, rfl⟩ := mem_map.mp hf
      obtain ⟨e, he, hd⟩ := exists_entry hkvs hkv
      rcases hg.flags e he with h1 | h0
      · exact hd.payload h1
      · exact absurd (by rw [hd.defined, h0]; rfl) hne
    · refine ⟨⟨rawEvent, v⟩, ?_, rfl, s, hs, ?_⟩
      · rw [hfields]
        exact mem_map_of_mem hmem
      · rw [fillRawEvent_of_some hptr]
        exact hptr

/-- The INTEGER `a`, the STRING `raw_event` with one byte, and the undefined BOOLEAN `b`. -/
def threeFields : Bytes :=
  [3, 0] ++ ([1, 0, 97] ++ [1, 1, 5, 0, 0, 0, 0, 0, 0, 0]) ++
    ([9, 0] ++ rawEvent.1 ++ [2, 1, 1, 0, 0, 0, 120]) ++ ([1, 0, 98] ++ [5, 0])

theorem decoded_wellFormed_threeFields :
    ∃ ld, logdataFromMembuf threeFields threeFields.length = .ok (ld, 38) ∧ ld.WellFormed := by
  have h : logdataFromMembuf threeFields threeFields.length =
      .ok (⟨some 1, [⟨⟨[97], by decide⟩, ⟨TRUE, .integer 5⟩⟩,
        ⟨rawEvent, ⟨TRUE, .string (some ⟨1, [120]⟩)⟩⟩,
        ⟨⟨[98], by decide⟩, ⟨FALSE, .boolean 0⟩⟩], []⟩, 38) := by decide
  refine ⟨_, h, (decoded_wellFormed_iff threeFields threeFields.length 38 _ h).mpr ?_⟩
  exact ⟨by decide, by decide, by decide, by decide⟩

/-- The field `a` twice, with a `defined` byte of 2 and a type byte of 77, and no `raw_event`. -/
def looseRecord : Bytes := [2, 0, 1, 0, 97, 1, 2, 1, 0, 97, 77, 0]

/-- It is decoded: neither the names, nor the types, nor the flags are as they
should be, and `raw_event` is a string that no field has. -/
theorem decoded_not_wellFormed : ∃ ld, logdataFromMembuf looseRecord looseRecord.length =
    .ok (ld, 12) ∧ ¬ ld.WellFormed ∧
    (¬ ld.fields.Pairwise fun f g => ¬ strcasecmp f.key g.key) ∧
    (¬ ∀ f ∈ ld.fields, f.value.type.Concrete) ∧
    (¬ ∀ f ∈ ld.fields, f.value.defined = TRUE ∨ f.value.defined = FALSE) ∧
    (¬ ∃ f ∈ ld.fields, f.key = rawEvent) := by
  refine ⟨⟨some 2, [⟨⟨[97], by decide⟩, ⟨2, .integer 0⟩⟩, ⟨⟨[97], by decide⟩, ⟨0, .other ⟨77, by decide⟩⟩⟩],
    [⟨2, []⟩]⟩, by decide, ?_, by decide, by decide, by decide, by decide⟩
  intro hw
  have hnames := hw.names
  revert hnames
  decide

end Nxlog.L1
