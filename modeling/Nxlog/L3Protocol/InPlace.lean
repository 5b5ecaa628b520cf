import Nxlog.L3Protocol.KvpDetect
import Nxlog.L3Protocol.SyslogIetf
import Nxlog.L3Protocol.JsonCover

/-!
# Parsing in place

`parse_kvp()`, `parse_syslog()`, `parse_json()` and `pm_transformer` hand a parser the text of the
field `raw_event` of the record that the parser fills. Setting a field frees what it held, and the
names of the fields come from the text: a field that is called `raw_event` in any spelling takes the
text away from under the parser. `yajl_parse_string_cb` leaves out a field for that reason ("setting
raw event would cause a free() on our buffer being parsed, ignore it"); nothing else does.

A parser reads on after every field it sets, except that `parse_kvp` has read everything when it
sets the field that the last byte ends.

* `Reading str s`: the string `str` is the one of the field `raw_event`, and of no other.
* `guarded`: the setter that fails if `str` is gone afterwards. `Intact`: a parser does the same
  with it, so `str` was there after every field.
* `Harmless`: the fields that leave `str` in place (`guarded_checked`).
* `kvp_in_place`, `syslog_in_place`, `json_in_place`: for each parser, what it must not find in the
  text.
-/
namespace Nxlog.L3
open L1 L2 Res List

variable {key : CStr} {v : NxValue} {str : NxString} {s : Store} {texts : List Bytes}
  {name : String} {addr : Nat}
  {f : Field}

/-! ## One string of a record -/

def owns (addr : Nat) (f : Field) : Bool := f.value.string?.any (decide <| ·.addr = addr)

def NotBoth (addr : Nat) (f g : Field) : Prop := ¬ (owns addr f ∧ owns addr g)

instance (addr : Nat) : Std.Symm (NotBoth addr) := ⟨fun _ _ h h' => h ⟨h'.2, h'.1⟩⟩

structure Reading (str : NxString) (s : Store) : Prop where
  held : ∃ f, getField s.ld rawEvent = some f ∧ f.value.string? = some str
  sole : s.ld.fields.Pairwise (NotBoth str.addr)
  detached : ∀ t ∈ s.ld.detached, t.addr ≠ str.addr
  old : str.addr < s.next

theorem owns_iff : owns addr f ↔ ∃ t, f.value.string? = some t ∧ t.addr = addr := by
  simp [owns, Option.any_eq_true]

theorem notBoth_right (f g : Field) (hf : owns addr f) (h : NotBoth addr f g) : owns addr g = false := by
  simpa [NotBoth, hf] using h

/-- A new value is another object. -/
theorem owns_place {addr n : Nat} (h : addr < n) (key : CStr) (v : NxValue) :
    owns addr ⟨key, place n v⟩ = false := by
  unfold owns
  rw [string?_place]
  cases v.string? with
  | none => rfl
  | some t => simp [Nat.ne_of_gt h]

/-- Where no field has it, it is gone. -/
theorem deref_eq_none {ld : Logdata} (hf : ∀ f ∈ ld.fields, owns addr f = false)
    (hd : ∀ t ∈ ld.detached, t.addr ≠ addr) : deref ld addr = none := by
  unfold deref
  rw [find?_eq_none]
  intro t ht
  rcases mem_append.mp ht with ht | ht
  · obtain ⟨f, hmem, hft⟩ := mem_filterMap.mp ht
    have := hf f hmem
    simpa [owns, hft] using this
  · simpa using hd t ht

namespace Reading

variable {str : NxString} {s : Store}

/-- It is there, with its text. -/
theorem deref_eq (h : Reading str s) : deref s.ld str.addr = some str := by
  obtain ⟨f, hf, hstr⟩ := h.held
  have hmem := mem_of_find?_eq_some hf
  have hsome := deref_isSome hmem hstr
  obtain ⟨t, ht⟩ := Option.isSome_iff_exists.mp hsome
  rw [ht]
  have haddr : t.addr = str.addr := by simpa using find?_some ht
  rcases mem_append.mp (mem_of_find?_eq_some ht) with hin | hin
  · obtain ⟨g, hg, hgt⟩ := mem_filterMap.mp hin
    -- only one field owns the address
    have hfg := find?_of_mem h.sole notBoth_right hg (owns_iff.mpr ⟨t, hgt, haddr⟩)
    have hff := find?_of_mem h.sole notBoth_right hmem (owns_iff.mpr ⟨str, hstr, rfl⟩)
    rw [hfg, Option.some.injEq] at hff
    rw [← hgt, hff, hstr]
  · exact absurd haddr (h.detached t hin)

theorem set {s' : Store} (h : Reading str s) (hk : ¬ strcasecmp key rawEvent)
    (hset : storeSet s key v = .ok s') : Reading str s' := by
  obtain ⟨ld, hld, hret⟩ := bind_eq_ok.mp hset
  cases hret
  obtain ⟨f, hf, hstr⟩ := h.held
  have hnew : ∀ k, owns str.addr ⟨k, place s.next v⟩ = false := fun k => owns_place h.old k v
  have hold := Nat.lt_succ_of_lt h.old
  obtain ⟨hdetached, ⟨-, rfl⟩ | ⟨-, hfields, -⟩⟩ := setFieldValue_cases hld
  · refine ⟨⟨f, getField_append hf, hstr⟩, ?_, h.detached, hold⟩
    refine List.pairwise_append.mpr ⟨h.sole, List.pairwise_singleton _ _, ?_⟩
    intro g _ g' hg'
    rw [mem_singleton.mp hg']
    simp [NotBoth, hnew]
  · refine ⟨⟨f, by rw [getField_putValue_ne hfields hk, hf], hstr⟩, ?_,
      by rw [hdetached]; exact h.detached, hold⟩
    simp only [hfields]
    exact pairwise_updateFirst h.sole fun g _ g' _ _ _ => by simp [NotBoth, hnew]

theorem getField_eq (h : Reading str s) (hk : strcasecmp key rawEvent) :
    ∃ f, getField s.ld key = some f ∧ f.value.string? = some str := by
  unfold getField
  rw [named_congr hk]
  exact h.held

theorem lost {s' : Store} (h : Reading str s) (hk : strcasecmp key rawEvent)
    (hset : storeSet s key v = .ok s') : deref s'.ld str.addr = none := by
  obtain ⟨ld, hld, hret⟩ := bind_eq_ok.mp hset
  cases hret
  obtain ⟨f, hfind, hstr⟩ := h.getField_eq hk
  obtain ⟨hdetached, hcases⟩ := setFieldValue_cases hld
  refine deref_eq_none ?_ (by rw [hdetached]; exact h.detached)
  rcases hcases with ⟨hnone, -⟩ | ⟨-, hfields, -⟩
  · rw [hnone] at hfind
    cases hfind
  · rw [hfields]
    exact updateFirst_lost h.sole notBoth_right hfind (owns_iff.mpr ⟨str, hstr, rfl⟩) (owns_place h.old _ v)

end Reading

/-! ## The guard -/

/-- Fails if the string is gone. -/
def guarded (str : NxString) (bad : Fail) : Setter Store := fun s key v => do
  let s' ← storeSet s key v
  if deref s'.ld str.addr = some str then .ok s' else .error bad

/-- A parser finds the string in place after every field it sets: with a guard, in whatever way that
fails, it does the same as without. -/
def Intact {α : Type} (str : NxString) (parse : Setter Store → Res α) : Prop :=
  ∀ bad, parse (guarded str bad) = parse storeSet

/-- The name is not `raw_event` in any spelling, or it is exactly that and the value is no defined
STRING: then `nx_logdata_set_field_value` throws and frees nothing. -/
def Harmless (key : CStr) (v : NxValue) : Prop :=
  strcasecmp key rawEvent → key = rawEvent ∧ ¬ (v.defined = TRUE ∧ v.type = .string)

theorem harmless_string (hd : v.defined = TRUE) (ht : v.type = .string) :
    Harmless key v ↔ ¬ strcasecmp key rawEvent := by
  simp [Harmless, hd, ht]

theorem valueFree_string (h : v.string? = some str) : valueFree v = .ok () := by
  obtain ⟨d, data⟩ := v
  cases data with
  | string t => simp [valueFree]
  | _ => cases h

section Guard

variable {str : NxString} (bad : Fail) {s : Store} {key : CStr} {v : NxValue}

/-- A harmless field: the guard does not notice. -/
theorem guarded_same (h : Reading str s) (hv : Harmless key v) :
    Same (Reading str) (guarded str bad s key v) (storeSet s key v) := by
  unfold guarded
  cases hset : storeSet s key v with
  | error e => exact Same.error e
  | ok s' =>
    have hk : ¬ strcasecmp key rawEvent := by
      intro hk
      obtain ⟨rfl, hbad⟩ := hv hk
      obtain ⟨f, hf, -⟩ := h.held
      exact hbad (storeSet_raw hf rfl hset)
    have hs' := h.set hk hset
    rw [ok_bind, if_pos hs'.deref_eq]
    exact Same.ok hs'

/-- Any other field is set, and the string is gone. -/
theorem guarded_bad (h : Reading str s) (hv : ¬ Harmless key v) : guarded str bad s key v = .error bad := by
  obtain ⟨hk, hv⟩ := Classical.not_imp.mp hv
  obtain ⟨f, hfind, hstr⟩ := h.getField_eq hk
  have hdefined : key = rawEvent → v.defined = TRUE ∧ v.type = .string := by
    intro hraw
    by_contra hbad
    exact hv ⟨hraw, hbad⟩
  obtain ⟨s', hset, -⟩ := storeSet_put hfind (valueFree_string hstr) hdefined
  rw [guarded, hset, ok_bind, h.lost hk hset, if_neg (by simp)]

theorem guarded_checked (h : Reading str s) (key : CStr) (v : NxValue) :
    Checked (Harmless key v) (Reading str) bad (guarded str bad s key v) (storeSet s key v) :=
  ⟨guarded_same bad h, guarded_bad bad h⟩

end Guard

/-! ## Key-value pairs -/

section KeyValue

/-- The byte separates pairs, or is the first of those that may come to do so. -/
def endsValue (ctx : KvpCtx) (c : UInt8) : Prop :=
  (ctx.kvpdelimiter = 0 ∧ isKvpDelimiterChar c) ∨ c = ctx.kvpdelimiter

instance (ctx : KvpCtx) (c : UInt8) : Decidable (endsValue ctx c) := inferInstanceAs (Decidable (_ ∨ _))

/-- With the byte `c` a pair is complete: `add_logdata_field` is called. -/
def Completed (p : Kvp Store) (c : UInt8) : Prop :=
  match p.state with
  | .valueStart => c ≠ 32 ∧ p.valuestr = none ∧ ¬ (p.ctx.valquotechar = 0 ∧ isQuoteChar c) ∧
      c ≠ p.ctx.valquotechar ∧ endsValue p.ctx c
  | .value => p.valuestr.isSome ∧ c ≠ p.ctx.valquotechar ∧ p.got_valquote = false ∧ endsValue p.ctx c
  | .kvpDelimiter => p.valuestr.isSome ∧ endsValue p.ctx c
  | _ => False

instance (p : Kvp Store) (c : UInt8) : Decidable (Completed p c) := by
  unfold Completed
  split <;> infer_instance

/-- The name of the field: the key, without the spaces behind it unless it was quoted. -/
def fieldName (p : Kvp Store) : CStr :=
  cut (if p.got_keyquote then p.key else (p.key.reverse.dropWhile (· = 32)).reverse)

/-- The byte does not complete a pair whose key is `raw_event` in any spelling. -/
def KvpKeeps (p : Kvp Store) (c : UInt8) : Prop := Completed p c → ¬ strcasecmp (fieldName p) rawEvent

instance (p : Kvp Store) (c : UInt8) : Decidable (KvpKeeps p c) := inferInstanceAs (Decidable (_ → _))

variable {p : Kvp Store} {c : UInt8}

theorem appendValue_record (bs : Bytes) : ∀ q, appendValue p bs = .ok q → q.record = p.record := by
  intro q hq
  unfold appendValue at hq
  split at hq
  · cases hq
  · obtain ⟨w, -, hq⟩ := bind_eq_ok.mp hq
    cases hq
    rfl

theorem keyBytes_record {q : Kvp Store} (hq : keyStartByte p c = .ok q ∨ keyByte p c = .ok q ∨
    keyEscapeByte p c = .ok q ∨
    kvDelimiterByte p c = .ok q) : q.record = p.record := by
  simp only [keyStartByte, keyByte, keyEscapeByte, kvDelimiterByte] at hq
  rcases hq with hq | hq | hq | hq
  all_goals repeat' split at hq
  all_goals cases hq
  all_goals rfl

/-- Only the setter of the record is different. -/
def Quiet (p : Kvp Store) (f : Setter Store → Res (Kvp Store)) : Prop :=
  (∀ set, f set = f storeSet) ∧ ∀ q, f storeSet = .ok q → q.record = p.record

theorem quiet_const {x : Res (Kvp Store)} (h : ∀ q, x = .ok q → q.record = p.record) : Quiet p fun _ => x :=
  ⟨fun _ => rfl, h⟩

theorem quiet_ok {q : Kvp Store} (h : q.record = p.record) : Quiet p fun _ => .ok q :=
  quiet_const (by intro q' hq; cases hq; exact h)

theorem quiet_error (e : Fail) : Quiet p fun _ => .error e := quiet_const nofun

theorem valueByte_quiet (h : ¬ (c ≠ p.ctx.valquotechar ∧ p.got_valquote = false ∧
    endsValue p.ctx c)) : Quiet p fun set => valueByte set p c := by
  unfold valueByte
  by_cases hc : c = p.ctx.valquotechar
  · simp only [if_pos hc]
    split
    · exact quiet_ok rfl
    · split
      · exact quiet_error _
      · split
        · exact quiet_error _
        · exact quiet_ok rfl
  · obtain ⟨h1, h2⟩ := not_end (p := p) fun hg => decide_eq_false fun he => h ⟨hc, hg, he⟩
    simp only [if_neg hc, if_neg h1, if_neg h2]
    split
    · exact quiet_ok rfl
    · exact quiet_const (appendValue_record [c])

/-- The field of the pair is set, and the next key starts. -/
def Sets (p : Kvp Store) (f : Setter Store → Res (Kvp Store)) : Prop :=
  ∃ (q : Kvp Store) (w : Bytes), q.state = .keyStart ∧
    ∀ set, f set = set p.record (fieldName p) (strValue w) >>= fun r => .ok { q with record := r }

theorem addKvpField_sets {p' : Kvp Store} {w : Bytes} (hw : p'.valuestr = some w) (hr : p'.record = p.record)
    (hn : fieldName p' = fieldName p) : Sets p fun set => addKvpField set p' := by
  refine ⟨{ p' with valuestr := none, state := .keyStart }, w, rfl, fun set => ?_⟩
  unfold fieldName at hn
  simp [addKvpField, hw, hr, hn, fieldName]

/-- At the end of a value; without a string the assertion fails. -/
theorem addKvpField_cases (ctx : KvpCtx) :
    (p.valuestr.isSome → Sets p fun set => addKvpField set { p with ctx }) ∧
      (¬ p.valuestr.isSome → Quiet p fun set => addKvpField set { p with ctx }) := by
  cases p.valuestr with
  | none => exact ⟨nofun, fun _ => quiet_error _⟩
  | some w => exact ⟨fun _ => addKvpField_sets rfl rfl rfl, fun h => absurd rfl h⟩

theorem kvpStep_cases (p : Kvp Store) (c : UInt8) :
    (Completed p c → Sets p fun set => kvpStep set p c) ∧ (¬ Completed p c → Quiet p fun set =>
      kvpStep set p c) := by
  unfold kvpStep Completed
  cases p.state with
  | keyStart => exact ⟨False.elim, fun _ => quiet_const fun q hq => keyBytes_record (.inl hq)⟩
  | key => exact ⟨False.elim, fun _ => quiet_const fun q hq => keyBytes_record (.inr (.inl hq))⟩
  | keyEscape => exact ⟨False.elim, fun _ => quiet_const fun q hq => keyBytes_record (.inr (.inr (.inl hq)))⟩
  | kvDelimiter => exact ⟨False.elim, fun _ => quiet_const fun q hq => keyBytes_record (.inr (.inr (.inr hq)))⟩
  | valueEscape => exact ⟨False.elim, fun _ => quiet_const (appendValue_record _)⟩
  | value =>
    dsimp only
    by_cases h : c ≠ p.ctx.valquotechar ∧ p.got_valquote = false ∧ endsValue p.ctx c
    · simp only [valueByte_end (decide_eq_true h.2.2) h.1 h.2.1, and_iff_left h]
      exact addKvpField_cases _
    · exact ⟨fun hc => absurd hc.2 h, fun _ => valueByte_quiet h⟩
  | kvpDelimiter =>
    dsimp only
    by_cases h : endsValue p.ctx c
    · simp only [kvpDelimiterByte_end (decide_eq_true h), and_iff_left h]
      exact addKvpField_cases _
    · simp only [kvpDelimiterByte_skip (decide_eq_false h)]
      exact ⟨fun hc => absurd hc.2 h, fun _ => quiet_ok rfl⟩
  | valueStart =>
    dsimp only
    unfold valueStartByte
    by_cases hspace : c = 32
    · simp only [if_pos hspace]
      exact ⟨fun hc => absurd hspace hc.1, fun _ => quiet_ok rfl⟩
    simp only [if_neg hspace]
    cases hv : p.valuestr with
    | some w => exact ⟨fun hc => absurd hc.2.1 (by simp), fun _ => quiet_error _⟩
    | none =>
      simp only [Option.isNone_none, Res.assert_true, ok_bind]
      by_cases hquote : p.ctx.valquotechar = 0 ∧ isQuoteChar c
      · simp only [if_pos hquote]
        exact ⟨fun hc => absurd hquote hc.2.2.1, fun _ => quiet_ok rfl⟩
      by_cases hq : c = p.ctx.valquotechar
      · simp only [if_neg hquote, if_pos hq]
        exact ⟨fun hc => absurd hq hc.2.2.2.1, fun _ => quiet_ok rfl⟩
      simp only [if_neg hquote, if_neg hq]
      refine ⟨fun hc => ?_, fun hc => valueByte_quiet fun hd => hc ⟨hspace, trivial, hquote, hd.1, hd.2.2⟩⟩
      have hends : ends p.ctx c := decide_eq_true hc.2.2.2.2
      simp only [valueByte_end (p :=
        { p with got_valquote := false, valuestr := some [], state := .value }) hends hq rfl]
      exact addKvpField_sets rfl rfl rfl

/-- The loop of `parse_kvp` over some bytes of the text. -/
def kvpLoop (set : Setter Store) (s : Store) (ctx : KvpCtx) (text : Bytes) : Res (Kvp Store) :=
  run (kvpStep set) (kvpStart s ctx [] false false) text

def Truncated (p : Kvp Store) : Prop := p.state ≠ .keyStart ∧ p.state ≠ .value ∧ p.state ≠ .kvpDelimiter

/-- `nx_kvp_parse` has its text for as long as it reads it: up to the last byte, and once more if an
error is printed with it. -/
structure KvpIntact (str : NxString) (s : Store) (ctx : KvpCtx) : Prop where
  bytes : Intact str fun set => kvpLoop set s ctx str.buf.dropLast
  message : ∀ p, kvpLoop storeSet s ctx str.buf = .ok p → Truncated p → deref p.record.ld str.addr = some str

theorem kvpStep_checked (bad : Fail) (hp : Reading str p.record) (c : UInt8) :
    Checked (KvpKeeps p c) (fun p => Reading str p.record) bad (kvpStep (guarded str bad) p c)
      (kvpStep storeSet p c) := by
  by_cases hc : Completed p c
  · obtain ⟨q, w, -, h⟩ := (kvpStep_cases p c).1 hc
    beta_reduce at h
    rw [h, h]
    refine ((guarded_checked bad hp (fieldName p) (strValue w)).congr ?_).bind fun r hr => Same.ok hr
    rw [harmless_string rfl rfl, KvpKeeps, forall_prop_of_true hc]
  · obtain ⟨h, hrecord⟩ := (kvpStep_cases p c).2 hc
    beta_reduce at h hrecord
    refine .of_same (fun h => absurd h hc) ⟨h _, fun q hq => ?_⟩
    rw [h] at hq
    simp only [hrecord q hq]
    exact hp

/-- A step that does not start a new key leaves the record alone. -/
theorem kvpStep_record {q : Kvp Store} (h : kvpStep storeSet p c = .ok q)
    (hq : q.state ≠ .keyStart) : q.record = p.record := by
  by_cases hc : Completed p c
  · obtain ⟨q', w, hq', hsets⟩ := (kvpStep_cases p c).1 hc
    beta_reduce at hsets
    rw [hsets] at h
    obtain ⟨r, -, h⟩ := bind_eq_ok.mp h
    cases h
    exact absurd hq' hq
  · exact ((kvpStep_cases p c).2 hc).2 q h

theorem kvp_in_place (hs : Reading str s) (ctx : KvpCtx) : KvpIntact str s ctx ↔
    Meets (kvpStep storeSet) KvpKeeps (kvpStart s ctx [] false false) str.buf.dropLast := by
  have hstart : Reading str (kvpStart s ctx [] false false).record := hs
  have hbytes : (Intact str fun set => kvpLoop set s ctx str.buf.dropLast) ↔
      Meets (kvpStep storeSet) KvpKeeps (kvpStart s ctx [] false false) str.buf.dropLast :=
    run_checked_iff (fun bad _ c hp => kvpStep_checked bad hp c) hstart _
  refine ⟨fun h => hbytes.mp h.bytes, fun h => ⟨hbytes.mpr h, ?_⟩⟩
  intro p hp ht
  rcases List.eq_nil_or_concat' str.buf with hnil | ⟨text, c, htext⟩
  · -- nothing to read, and no error
    rw [hnil] at hp
    cases hp
    exact absurd rfl ht.1
  · rw [htext, List.dropLast_concat] at h
    rw [htext, kvpLoop, run_append] at hp
    obtain ⟨p1, hrun, hstep⟩ := bind_eq_ok.mp hp
    have hlast : kvpStep storeSet p1 c = .ok p := by simpa [run_cons, Res.bind_ok] using hstep
    have hkeep : ∀ p c q, Reading str p.record → KvpKeeps p c → kvpStep storeSet p c = .ok q →
      Reading str q.record :=
      fun p c q hp hk hq => ((kvpStep_checked .hang hp c).same hk).of_right hq
    have hp1 := (always_of_step hkeep hstart h.allSteps).last hrun
    rw [kvpStep_record hlast ht.1]
    exact hp1.deref_eq

end KeyValue

/-! ## Syslog -/

section Syslog

/-- The record, accessed through another setter. -/
def accessBy (set : Setter Store) : Access Store := ⟨set, storeAccess.get⟩

/-! ### What must not be in the text -/

/-- `syslog_parse_sd_params` from `ptr` on: no parameter is called `raw_event` in any spelling, and
`K` holds at the end. -/
def ParamsKeep (sd : Bytes) (K : Store → Bytes → Prop) : Nat → Store → Bytes → Prop
  | 0, _, _ => True
  | fuel + 1, s, ptr =>
    if ch ptr 0 = 0 then K s ptr
    else
      let p := skipSpace ptr
      if ch p 0 = 93 then K s p
      else
        let (name, p) := paramName sd.length p
        if ch p 0 = 61 ∧ ch p 1 = 34 then
          match paramValue [] (p.drop 2) with
          | none => True
          | some (value, p) =>
            ¬ strcasecmp (cut (sd ++ name)) rawEvent ∧
              ∀ s', storeSet s (cut (sd ++ name)) (strValue value) = .ok s' → ParamsKeep sd K fuel s' p.tail
        else True

/-- `syslog_parse_structured_data` from `ptr` on: no element has such a parameter. -/
def ElementsKeep : Nat → Store → Bytes → Prop
  | 0, _, _ => True
  | fuel + 1, s, ptr =>
    let p := skipSpace ptr
    ch ptr 0 ≠ 0 → ch p 0 = 91 →
      let (buf, len, p) := sdName [] 0 (skipSpace p.tail)
      let sd := if cut buf = lit "NXLOG" ∨ len = 0 then [] else buf.take len ++ [46]
      ch p 0 ≠ 0 → ParamsKeep sd
        (fun s q => ch (skipSpace q) 0 = 93 → ElementsKeep fuel s (skipSpace q).tail) (p.length + 1) s p.tail

/-- The structured data of a message has no such parameter. -/
def SdKeeps (s : Store) (ptr : Bytes) : Prop := ¬ isNilvalue ptr → ElementsKeep (ptr.length + 1) s ptr

/-- The header up to the structured data. -/
def ietfWords (acc : Access Store) (env : SyslogEnv) (s : Store) (ptr : Bytes) : Res (Store × Bytes) := do
  let (s, ptr) ← headerField (fun s => setSyslogHostname acc env s none none) (setSyslogHostname acc env) s ptr
  let (s, ptr) ← headerField .ok (setSyslogAppname acc) s ptr
  let (s, ptr) ← headerField .ok (setSyslogProcid acc) s ptr
  headerField .ok (setSyslogMsgid acc) s ptr

/-- `nx_syslog_parse_rfc5424` up to the structured data: the record, and the pointer if it gets
there. -/
def ietfFront (env : SyslogEnv) (s : Store) (string : Bytes) (stringlen : Nat) :
    Res (Store × Option Bytes) := do
  let _ ← endOf string stringlen
  let (s, pri) ← parseSyslogPriority storeAccess s string
  if ch pri.ptr 0 = 49 ∧ ch pri.ptr 1 = 32 then
    let ptr := pri.ptr.drop 2
    if isNilvalue ptr then do
      let s ← setSyslogTimestamp storeAccess s env.date.now
      let (s, ptr) ← ietfWords storeAccess env s (skipSpace ptr.tail)
      return (s, some ptr)
    else do
      let parsed ← dateParseIso env.date ptr (some ptr)
      match parsed.time, parsed.dateend with
      | some date, some p => do
        let s ← setSyslogTimestamp storeAccess s date
        let (s, ptr) ← ietfWords storeAccess env s (skipSpace p)
        return (s, some ptr)
      | _, _ => return (s, none)
  else return (s, none)

/-- Two sequences, one of them the parser with the guard and without. -/
theorem intact_bind {α β γ : Type} {x : Fail → Res α} {y : Res α} {f : Fail → α → Res β} {g : α → Res β}
    {k : α → Res γ} {P : α → Prop} {Q : γ → Prop} (h : ∀ bad, Same P (x bad) y)
    (hf : ∀ a, y = .ok a → P a → ((∀ bad, f bad a = g a) ↔ ∀ c, k a = .ok c → Q c)) :
    (∀ bad, (x bad >>= f bad) = (y >>= g)) ↔ ∀ c, (y >>= k) = .ok c → Q c := by
  rw [bind_same_iff h, bind_forall]
  exact forall_congr' fun a => forall_congr' fun ha => hf a ha ((h .hang).of_right ha)

/-! ### Names that are not in the text -/

def syslogNames : List String :=
  ["SyslogFacilityValue", "SyslogFacility", "SyslogSeverityValue", "SyslogSeverity",
    "SeverityValue", "Severity",
    "Hostname", "EventTime", "SourceName", "ProcessID", "MessageID", "Message"]

theorem syslogNames_ne : ∀ name ∈ syslogNames, ¬ strcasecmp (lit name) rawEvent := by decide

/-- With the guard and without, the same, and `P` holds behind it. -/
def Guards {α : Type} (str : NxString) (bad : Fail) (P : α → Prop) (f : Access Store → Res α) : Prop :=
  Same P (f (accessBy (guarded str bad))) (f (accessBy storeSet))

section Fixed

variable {str : NxString} (bad : Fail) {s : Store} (hs : Reading str s) (env : SyslogEnv)
include hs

theorem setFixed_same (hname : name ∈ syslogNames) (v : NxValue) :
    Guards str bad (Reading str) fun acc => acc.set s (lit name) v :=
  guarded_same bad hs fun hc => absurd hc (syslogNames_ne name hname)

theorem setText_same (hname : name ∈ syslogNames) (text : Bytes) :
    Guards str bad (Reading str) fun acc => setText acc s (lit name) text := by
  exact (Same.any _).bind fun str _ => setFixed_same bad hs hname _

theorem setSlice_same (hname : name ∈ syslogNames) (start stop : Option Bytes) :
    Guards str bad (Reading str) fun acc => setSlice acc (lit name) s start stop := by
  unfold Guards setSlice
  split
  · exact Same.ok hs
  · exact setText_same bad hs hname _

theorem setSyslogHostname_same (start stop : Option Bytes) :
    Guards str bad (Reading str) fun acc => setSyslogHostname acc env s start stop := by
  have hname : "Hostname" ∈ syslogNames := by decide
  unfold Guards setSyslogHostname
  split
  · exact setText_same bad hs hname _
  · simp only [accessBy]
    cases storeAccess.get s (lit "MessageSourceAddress") with
    | none => exact (Same.any _).bind fun str _ => setFixed_same bad hs hname _
    | some recv_from => exact (Same.any _).bind fun v _ => setFixed_same bad hs hname _

theorem setSyslogTimestamp_same (date : Int64) :
    Guards str bad (Reading str) fun acc => setSyslogTimestamp acc s date :=
  setFixed_same bad hs (by decide) _

theorem setSyslogMessage_same (start stop : Option Bytes) :
    Guards str bad (Reading str) fun acc => setSyslogMessage acc s start stop := by
  have hname : "Message" ∈ syslogNames := by decide
  unfold Guards setSyslogMessage
  split
  · exact Same.ok hs
  · exact Same.ite (Same.ite (Same.ok hs) (setText_same bad hs hname _)) (setText_same bad hs hname _)

theorem parseSyslogPriority_same (string : Bytes) :
    Guards str bad (fun r => Reading str r.1) fun acc => parseSyslogPriority acc s string := by
  refine (setFixed_same bad hs (by decide) _).bind fun s1 h1 => ?_
  refine (Same.any _).bind fun facility _ => ?_
  refine (setFixed_same bad h1 (by decide) _).bind fun s2 h2 => ?_
  refine (setFixed_same bad h2 (by decide) _).bind fun s3 h3 => ?_
  refine (Same.any _).bind fun severity _ => ?_
  refine (setFixed_same bad h3 (by decide) _).bind fun s4 h4 => ?_
  refine (setFixed_same bad h4 (by decide) _).bind fun s5 h5 => ?_
  exact (setFixed_same bad h5 (by decide) _).bind fun s6 h6 => Same.ok h6

theorem bsdTimestamp_same (date : Option Int64) :
    Guards str bad (Reading str) fun acc => bsdTimestamp acc env s date := by
  cases date with
  | none => exact Same.ok hs
  | some date => exact (Same.any _).bind fun t _ => setSyslogTimestamp_same bad hs t

theorem bsdFields_same (b : Bsd) (date : Option Int64) (msgend : Bytes) :
    Guards str bad (Reading str) fun acc => bsdFields acc env s b date msgend := by
  refine (setSyslogHostname_same bad hs env _ _).bind fun s1 h1 => ?_
  refine (bsdTimestamp_same bad h1 env _).bind fun s2 h2 => ?_
  refine (setSlice_same bad h2 (by decide) _ _).bind fun s3 h3 => ?_
  refine (setSlice_same bad h3 (by decide) _ _).bind fun s4 h4 => ?_
  exact setSyslogMessage_same bad h4 _ _

theorem syslogParseRfc3164_same (string : Bytes) (stringlen : Nat) :
    Guards str bad (fun r => Reading str r.1) fun acc => syslogParseRfc3164 acc env s string stringlen := by
  refine (Same.any _).bind fun msgend _ => (parseSyslogPriority_same bad hs _).bind fun r h1 => ?_
  refine (Same.any _).bind fun parsed _ => ?_
  split
  · exact Same.error _
  · refine (setSyslogTimestamp_same bad h1 _).bind fun s2 h2 => ?_
    exact (bsdFields_same bad h2 env _ _ _).bind fun s3 h3 => Same.ok h3
  · exact (bsdFields_same bad h1 env _ _ _).bind fun s3 h3 => Same.ok h3

omit hs in
theorem headerField_same {nil nil' : Store → Res Store}
    {set set' : Store → Option Bytes → Option Bytes → Res Store}
    (hnil : Same (Reading str) (nil s) (nil' s))
    (hset : ∀ p q, Same (Reading str) (set s p q) (set' s p q)) (ptr : Bytes) :
    Same (fun r => Reading str r.1) (headerField nil set s ptr) (headerField nil' set' s ptr) := by
  exact Same.ite (hnil.bind fun s1 h1 => Same.ok h1) ((hset _ _).bind fun s1 h1 => Same.ok h1)

theorem ietfWords_same (ptr : Bytes) :
    Guards str bad (fun r => Reading str r.1) fun acc => ietfWords acc env s ptr := by
  have hhost := setSyslogHostname_same bad hs env
  unfold Guards at hhost
  refine (headerField_same (hhost none none) hhost ptr).bind fun r1 h1 => ?_
  refine (headerField_same (Same.ok h1) (setSlice_same bad h1 (by decide)) _).bind fun r2 h2 => ?_
  refine (headerField_same (Same.ok h2) (setSlice_same bad h2 (by decide)) _).bind fun r3 h3 => ?_
  exact headerField_same (Same.ok h3) (setSlice_same bad h3 (by decide)) _

end Fixed

/-! ### Names that are -/

section Data

variable {str : NxString} {β : Type} {k : Fail → Store × Bytes → Res β} {k' : Store × Bytes → Res β}

theorem paramsKeep_iff {K : Store → Bytes → Prop} {k : Fail → Store × Option Bytes → Res β}
    {k' : Store × Option Bytes → Res β} (hnone : ∀ s, Reading str s → ∀ bad, k bad (s, none) = k' (s, none))
    (hsome : ∀ s q, Reading str s → ((∀ bad, k bad (s, some q) = k' (s, some q)) ↔ K s q))
    (sd : Bytes) (fuel : Nat) (hs : Reading str s) (ptr : Bytes) :
    (∀ bad, (syslogParseSdParams (accessBy (guarded str bad)) sd fuel s ptr >>= k bad) =
      (syslogParseSdParams (accessBy storeSet) sd fuel s ptr >>= k')) ↔ ParamsKeep sd K fuel s ptr := by
  induction fuel generalizing s ptr with
  | zero => simp [syslogParseSdParams, ParamsKeep, Res.hang]
  | succ fuel ih =>
    simp only [syslogParseSdParams, ParamsKeep]
    by_cases h0 : ch ptr 0 = 0
    · simp only [if_pos h0, ok_bind]
      exact hsome s ptr hs
    by_cases h1 : ch (skipSpace ptr) 0 = 93
    · simp only [if_neg h0, if_pos h1, ok_bind]
      exact hsome s _ hs
    simp only [if_neg h0, if_neg h1]
    split
    · cases paramValue [] ((paramName sd.length (skipSpace ptr)).2.drop 2) with
      | none =>
        simp only [ok_bind, iff_true]
        exact hnone s hs
      | some r =>
        obtain ⟨value, p⟩ := r
        simp only [bind_assoc]
        have hset := fun bad => (guarded_checked bad hs (cut (sd ++ (paramName sd.length (skipSpace ptr)).1))
          (strValue value)).congr (harmless_string rfl rfl)
        refine (bind_checked_iff hset).trans (and_congr_right fun hk => ?_)
        exact forall_congr' fun s1 => forall_congr' fun h1 => ih (((hset .hang).same hk).of_right h1) _
    · simp only [ok_bind, iff_true]
      exact hnone s hs

theorem elementsKeep_iff (hk : ∀ s q, Reading str s → ∀ bad, k bad (s, q) = k' (s, q))
    (string : Bytes) (fuel : Nat) (hs : Reading str s) (ptr : Bytes) :
    (∀ bad, (syslogParseStructuredData (accessBy (guarded str bad)) string fuel s ptr >>= k bad) =
      (syslogParseStructuredData (accessBy storeSet) string fuel s ptr >>= k')) ↔ ElementsKeep fuel s ptr := by
  induction fuel generalizing s ptr with
  | zero => simp [syslogParseStructuredData, ElementsKeep, Res.hang]
  | succ fuel ih =>
    simp only [syslogParseStructuredData, ElementsKeep]
    by_cases h0 : ch ptr 0 = 0
    · simpa [h0] using hk s ptr hs
    by_cases h1 : ch (skipSpace ptr) 0 = 91
    · by_cases h2 : ch (sdName [] 0 (skipSpace (skipSpace ptr).tail)).2.2 0 = 0
      · simpa [h0, h1, h2] using hk s string hs
      simp only [h0, h1, h2, if_false, not_true_eq_false, ne_eq, not_false_eq_true, forall_const, bind_assoc]
      refine paramsKeep_iff (fun s hs => ?_) (fun s q hs => ?_) _ _ hs _
      · simpa using hk s string hs
      · by_cases h3 : ch (skipSpace q) 0 = 93
        · simpa [h3] using ih hs _
        · simpa [h3] using hk s string hs
    · simpa [h0, h1] using hk s _ hs

theorem ietfBody_iff {k : Store → Res β} (hs : Reading str s) (ptr msgend : Bytes) :
    (∀ bad, (ietfBody (accessBy (guarded str bad)) s ptr msgend >>= k) =
      (ietfBody (accessBy storeSet) s ptr msgend >>= k)) ↔ SdKeeps s ptr := by
  have hmessage : ∀ s q, Reading str s → ∀ bad,
      (setSyslogMessage (accessBy (guarded str bad)) s (some (skipBom (skipOneSpace q))) (some msgend) >>= k) =
      (setSyslogMessage (accessBy storeSet) s (some (skipBom (skipOneSpace q))) (some msgend) >>= k) := by
    intro s q hs bad
    exact congrArg (· >>= k) (setSyslogMessage_same bad hs _ _).1
  unfold ietfBody ietfSd SdKeeps
  simp only [bind_assoc]
  by_cases hnil : isNilvalue ptr
  · simpa [hnil] using hmessage s ptr.tail hs
  · simp only [hnil, if_false, not_false_eq_true, forall_const]
    exact elementsKeep_iff hmessage ptr _ hs ptr

end Data

theorem ietfFields_eq (acc : Access Store) (env : SyslogEnv) (s : Store) (ptr msgend : Bytes) :
    ietfFields acc env s ptr msgend = ietfWords acc env s ptr >>= fun r => ietfBody acc r.1 r.2 msgend := by
  simp only [ietfFields, ietfWords, bind_assoc]

theorem syslog_in_place (hs : Reading str s) (env : SyslogEnv) (string : Bytes) (stringlen : Nat) :
    (Intact str fun set => syslogParseRfc5424 (accessBy set) env s string stringlen) ↔
      ∀ r, ietfFront env s string stringlen = .ok r → ∀ ptr, r.2 = some ptr → SdKeeps r.1 ptr := by
  refine intact_bind (fun _ => Same.any _) fun msgend _ _ => ?_
  refine intact_bind (fun bad => parseSyslogPriority_same bad hs _) fun r _ h1 => ?_
  by_cases hversion : ch r.2.ptr 0 = 49 ∧ ch r.2.ptr 1 = 32
  · simp only [if_pos hversion]
    by_cases hnil : isNilvalue (r.2.ptr.drop 2)
    · simp only [if_pos hnil, ietfFields_eq, bind_assoc]
      refine intact_bind (fun bad => setSyslogTimestamp_same bad h1 _) fun s2 _ h2 => ?_
      refine intact_bind (fun bad => ietfWords_same bad h2 env _) fun r3 _ h3 => ?_
      refine (ietfBody_iff h3 _ _).trans ?_
      simp
    · simp only [if_neg hnil]
      refine intact_bind (fun _ => Same.any _) fun parsed _ _ => ?_
      cases parsed.time with
      | none =>
        refine iff_of_true (fun bad => Same.eq (P := fun r => Reading str r.1) ?_) (by simp)
        refine (setSyslogTimestamp_same bad h1 _).bind fun s2 h2 => ?_
        refine (setSyslogHostname_same bad h2 env _ _).bind fun s3 h3 => ?_
        exact (setSyslogMessage_same bad h3 _ _).bind fun s4 h4 => Same.ok h4
      | some date =>
        cases parsed.dateend with
        | none => simp
        | some p =>
          simp only [ietfFields_eq, bind_assoc]
          refine intact_bind (fun bad => setSyslogTimestamp_same bad h1 _) fun s2 _ h2 => ?_
          refine intact_bind (fun bad => ietfWords_same bad h2 env _) fun r3 _ h3 => ?_
          refine (ietfBody_iff h3 _ _).trans ?_
          simp
  · simp only [if_neg hversion]
    refine iff_of_true (fun bad => (syslogParseRfc3164_same bad h1 env _ _).1) ?_
    simp

end Syslog

/-! ## JSON -/

namespace Json

/-- A value inside of a member that is an object or an array. -/
def Nested (ctx : JsonCtx Store) : Prop := 0 < ctx.in_array ∨ 0 < ctx.in_map

/-- The callback does not set the field `raw_event`, in any spelling. With the exact name a string
is left out and the other scalars are refused; the texts that `nx_string_create` refuses are not set
either. -/
def JsonKeeps (env : JsonEnv) (ctx : JsonCtx Store) (e : Event) : Prop :=
  ∀ key, ctx.key = some key → strcasecmp key rawEvent →
    match e with
    | .null | .boolean _ | .integer _ | .double _ _ => Nested ctx ∨ key = rawEvent
    | .number s => Nested ctx ∨
        if env.scanLong s.1 = none then stringLimit < s.1.length else key = rawEvent
    | .string s => Nested ctx ∨ key = rawEvent ∨ (dateOf env s.1 = none ∧ stringLimit < s.1.length)
    | .endMap => ¬ (ctx.in_array = 0 ∧ ctx.in_map = 1 ∧ ctx.tmpstr ≠ none)
    | .endArray => ¬ (ctx.in_array = 1 ∧ ctx.tmpstr ≠ none)
    | .startMap | .mapKey _ | .startArray => True

/-- The string is read, and the text of a nested value is one of `nx_string_append`. -/
structure JReading (str : NxString) (ctx : JsonCtx Store) : Prop where
  reading : Reading str ctx.logdata
  text : ∀ t, ctx.tmpstr = some t → t.length < stringLimit

section Callbacks

variable {str : NxString} (bad : Fail) {env : JsonEnv} {ctx : JsonCtx Store} (hs : JReading str ctx)
include hs

theorem tmpAppend_same (src : Bytes) : Same (JReading str) (tmpAppend ctx src) (tmpAppend ctx src) := by
  unfold tmpAppend
  cases ht : ctx.tmpstr with
  | none => exact Same.error _
  | some t =>
    simp only
    rw [stringAppend_eq (Nat.le_refl _)]
    refine Same.ok ⟨hs.reading, ?_⟩
    intro t' ht'
    cases ht'
    exact appendCut_length _ (hs.text t ht)

theorem tmpAppends_same (texts : List Bytes) :
    Same (JReading str) (run tmpAppend ctx texts) (run tmpAppend ctx texts) :=
  run_same (P := JReading str) (fun _ src h => tmpAppend_same h src) hs texts

theorem mapKeyCb_same (s : JText) : Same (JReading str) (mapKeyCb s ctx) (mapKeyCb s ctx) := by
  refine Same.ite (Same.ite (Same.error _) (tmpAppends_same hs _)) (Same.ite (Same.error _) (Same.ok ?_))
  exact ⟨hs.reading, hs.text⟩

theorem open_same (a m : Int) (bracket : Bytes) :
    Same (JReading str) (tmpAppend
      { ctx with in_array := a, in_map := m, tmpstr := some (ctx.tmpstr.getD []) } bracket)
      (tmpAppend { ctx with in_array := a, in_map := m, tmpstr := some (ctx.tmpstr.getD []) } bracket) := by
  apply tmpAppend_same
  refine ⟨hs.reading, ?_⟩
  intro t ht
  cases ht
  cases h : ctx.tmpstr with
  | none => simp [stringLimit]
  | some t => exact hs.text t h

theorem startMapCb_same : Same (JReading str) (startMapCb ctx) (startMapCb ctx) := by
  refine Same.ite (Same.error _) ?_
  split
  · exact Same.ok hs
  · exact open_same hs _ _ _

theorem startArrayCb_same : Same (JReading str) (startArrayCb ctx) (startArrayCb ctx) := by
  unfold startArrayCb
  split
  · exact Same.error _
  · exact open_same hs _ _ _

theorem JReading.with_text {t : Bytes} (ht : t.length < stringLimit) (a m : Int)
    (key : Option CStr) : JReading str ⟨some t, ctx.logdata, a, m, key⟩ :=
  ⟨hs.reading, fun _ h => Option.some.inj h ▸ ht⟩

/-- A scalar sets the field if it is not nested and has a value. -/
theorem scalarCb_checked {value : CStr → Res (Option NxValue)} {K : CStr → Prop}
    (h : ∀ key, strcasecmp key rawEvent →
      (K key ↔ Nested ctx ∨ ∀ v, value key = .ok (some v) → Harmless key v)) :
    Checked (∀ key, ctx.key = some key → strcasecmp key rawEvent → K key) (JReading str) bad
      (scalarCb (guarded str bad) texts value ctx) (scalarCb storeSet texts value ctx) := by
  unfold scalarCb
  by_cases hn : 0 < ctx.in_array ∨ 0 < ctx.in_map
  · simp only [if_pos hn]
    exact .of_same (fun key _ hk => (h key hk).mpr (.inl hn)) (tmpAppends_same hs texts)
  simp only [if_neg hn]
  cases hkey : ctx.key with
  | none => exact .of_same nofun (Same.error _)
  | some key =>
    have hkeep : (∀ v, value key = .ok (some v) → Harmless key v) ↔
        ∀ key', some key = some key' → strcasecmp key' rawEvent → K key' := by
      simp only [Option.some.injEq, forall_eq']
      exact ⟨fun hv hk => (h key hk).mpr (.inr hv), fun hK v hv hk =>
        ((h key hk).mp (hK hk)).resolve_left hn v hv hk⟩
    refine Checked.congr ?_ hkeep
    dsimp only
    cases value key with
    | error e => exact .of_same nofun (Same.error e)
    | ok v =>
      cases v with
      | none => exact .of_same nofun (Same.ok ⟨hs.reading, hs.text⟩)
      | some v =>
        refine ((guarded_checked bad hs.reading key v).congr (by simp)).bind fun ld hld => ?_
        exact Same.ok ⟨hld, hs.text⟩

omit hs in
theorem setText_checked (ctx : JsonCtx Store) (hs : Reading str ctx.logdata) (key : CStr)
    {text : Bytes} (ht : text.length < stringLimit) :
    Checked (¬ strcasecmp key rawEvent) (JReading str) bad (setText (guarded str bad) ctx key text)
      (setText storeSet ctx key text) := by
  obtain ⟨rest, hrest⟩ := exists_cut text
  have hlen : (cut text).1.length ≤ stringLimit := ((takeWhile_sublist _).length_le).trans ht.le
  simp only [setText]
  rw [hrest, stringCreate_cstr rest hlen, ok_bind, ok_bind]
  refine ((guarded_checked bad hs key _).congr (harmless_string rfl rfl)).bind fun ld hld => ?_
  exact Same.ok ⟨hld, fun _ h => by cases h⟩

theorem endMapCb_checked (env : JsonEnv) :
    Checked (JsonKeeps env ctx .endMap) (JReading str) bad (endMapCb (guarded str bad) ctx)
      (endMapCb storeSet ctx) := by
  obtain ⟨tmpstr, ld, a, m, key⟩ := ctx
  unfold endMapCb JsonKeeps
  by_cases ha : a = 0
  · simp only [ha, ne_eq, not_true_eq_false, if_false]
    cases key with
    | none => exact .of_same nofun (Same.ok (ha ▸ hs))
    | some key =>
      cases tmpstr with
      | none => exact .of_same (by simp) (Same.ite (Same.error _) (Same.error _))
      | some t =>
        obtain ⟨t', ht', hclosed⟩ := closed_eq (hs.text t rfl) (ascii "\x7d")
        simp only [hclosed, ok_bind]
        by_cases hm : m = 1
        · simpa [hm] using setText_checked bad ⟨some t, ld, 0, 0, some key⟩ hs.reading key ht'
        · have hm' : m - 1 ≠ 0 := by omega
          simp only [if_neg hm']
          exact .of_same (by simp [hm]) (Same.ite (Same.error _) (Same.ok (hs.with_text ht' _ _ _)))
  · simp only [ne_eq, ha, not_false_eq_true, if_true]
    exact .of_same (by simp) (Same.error _)

theorem endArrayCb_checked (env : JsonEnv) :
    Checked (JsonKeeps env ctx .endArray) (JReading str) bad (endArrayCb (guarded str bad) ctx)
      (endArrayCb storeSet ctx) := by
  obtain ⟨tmpstr, ld, a, m, key⟩ := ctx
  unfold endArrayCb JsonKeeps
  cases tmpstr with
  | none => exact .of_same (by simp) (Same.ite (Same.error _) (Same.error _))
  | some t =>
    obtain ⟨t', ht', hclosed⟩ := closed_eq (hs.text t rfl) (ascii "]")
    simp only [hclosed, ok_bind]
    by_cases ha : a = 1
    · cases key with
      | none =>
        exact .of_same nofun
          (Same.ite (Same.error _) (Same.ite (Same.error _) (Same.ok (hs.with_text ht' _ _ _))))
      | some key => simpa [ha] using setText_checked bad ⟨some t, ld, 0, m, some key⟩ hs.reading key ht'
    · have ha' : a - 1 ≠ 0 := by omega
      simp only [if_neg ha']
      exact .of_same (by simp [ha]) (Same.ite (Same.error _) (Same.ok (hs.with_text ht' _ _ _)))

omit hs in
/-- With the name `raw_event` in any spelling a text does harm if it is not too long. -/
theorem textValue_harmless (hk : strcasecmp key rawEvent) (s : JText) :
    (∀ v, textValue s = .ok (some v) → Harmless key v) ↔ stringLimit < s.1.length := by
  by_cases hlen : s.1.length ≤ stringLimit
  · simp [textValue_eq hlen, Harmless, strValue, NxValue.type, Data.type, hk, hlen]
  · obtain ⟨e, he⟩ := textValue_error hlen
    simpa [he] using hlen

theorem callback_checked (env : JsonEnv) (e : Event) :
    Checked (JsonKeeps env ctx e) (JReading str) bad (callback (guarded str bad) env ctx e)
      (callback storeSet env ctx e) := by
  cases e with
  | startMap => exact .of_same (fun _ _ _ => trivial) (startMapCb_same hs)
  | mapKey s => exact .of_same (fun _ _ _ => trivial) (mapKeyCb_same hs s)
  | endMap => exact endMapCb_checked bad hs env
  | startArray => exact .of_same (fun _ _ _ => trivial) (startArrayCb_same hs)
  | endArray => exact endArrayCb_checked bad hs env
  | null | boolean | integer | double =>
    have hnull : FALSE ≠ TRUE := by decide
    refine scalarCb_checked bad hs fun key hk => ?_
    simp [Harmless, hk, NxValue.type, Data.type, hnull]
  | number s =>
    refine scalarCb_checked bad hs fun key hk => ?_
    cases hscan : env.scanLong s.1 with
    | none => simp [hscan, textValue_harmless hk]
    | some i => simp [hscan, Harmless, hk, NxValue.type, Data.type]
  | string s =>
    refine scalarCb_checked bad hs fun key hk => ?_
    by_cases hraw : key = rawEvent
    · simp [hraw]
    · cases hdate : dateOf env s.1 with
      | none => simp [hraw, textDate_eq, hdate, textValue_harmless hk]
      | some t => simp [hraw, textDate_eq, hdate, Harmless, hk]

end Callbacks

theorem json_in_place (hs : Reading str s) (env : JsonEnv) (events : List Event) :
    (Intact str fun set => jsonParse set env s events) ↔
      Meets (callback storeSet env) (JsonKeeps env) ⟨none, s, 0, 0, none⟩ events := by
  have hstart : JReading str ⟨none, s, 0, 0, none⟩ := ⟨hs, nofun⟩
  exact run_checked_iff (fun bad _ e hctx => callback_checked bad hctx env e) hstart events

end Json

/-! ## In place -/

open Json in
/-- A parser that is given the text of the field `raw_event` has it for as long as it reads it,
exactly if no field that it sets before is called `raw_event` in any spelling: no pair but the one
that the last byte ends has such a key, no parameter of the structured data has such a name, and no
member of the object is set under it. -/
theorem parse_in_place_iff {str : NxString} {s : Store} (hs : Reading str s) :
    (∀ ctx, KvpIntact str s ctx ↔
      Meets (kvpStep storeSet) KvpKeeps (kvpStart s ctx [] false false) str.buf.dropLast) ∧
    (∀ env, (Intact str fun set => syslogParseRfc5424 (accessBy set) env s str.buf str.buf.length) ↔
      ∀ r, ietfFront env s str.buf str.buf.length = .ok r → ∀ ptr, r.2 = some ptr → SdKeeps r.1 ptr) ∧
    ∀ env events, (Intact str fun set => jsonParse set env s events) ↔
      Meets (callback storeSet env) (JsonKeeps env) ⟨none, s, 0, 0, none⟩ events :=
  ⟨kvp_in_place hs, fun env => syslog_in_place hs env _ _, json_in_place hs⟩

def freshLine (text : Bytes) : Store := ⟨⟨some 0, [⟨rawEvent, ⟨TRUE, .string (some ⟨0, text⟩)⟩⟩], []⟩, 1⟩

theorem freshLine_reading (text : Bytes) : Reading ⟨0, text⟩ (freshLine text) :=
  ⟨⟨_, rfl, rfl⟩, pairwise_singleton _ _, by simp [freshLine], Nat.one_pos⟩

/-- A key that is `raw_event` at the end of the text does no harm. -/
theorem parse_in_place_pair :
    KvpIntact ⟨0, ascii "a=1;raw_event=2"⟩ (freshLine (ascii "a=1;raw_event=2")) kvpCtxInit :=
  ((parse_in_place_iff (freshLine_reading _)).1 _).mpr (by decide)

open Json in
/-- The same key in front of another, a parameter `raw_event`, and a member `RAW_EVENT`: the text is
freed. -/
theorem parse_not_in_place :
    ¬ KvpIntact ⟨0, ascii "raw_event=2;a=1"⟩ (freshLine (ascii "raw_event=2;a=1")) kvpCtxInit ∧
    (∃ text, ¬ Intact ⟨0, text⟩ fun set =>
      syslogParseRfc5424 (accessBy set) sampleEnv (freshLine text) text text.length) ∧
    ¬ Intact ⟨0, ascii "\x7b\"RAW_EVENT\":\"x\"\x7d"⟩ fun set =>
      jsonParse set ⟨stoppedClock, fun _ => none⟩ (freshLine (ascii "\x7b\"RAW_EVENT\":\"x\"\x7d"))
        [.startMap, .mapKey ⟨ascii "RAW_EVENT", by decide⟩, .string ⟨ascii "x", by decide⟩, .endMap] := by
  refine ⟨?_, ⟨ascii "<13>1 - - - - - [NXLOG raw_event=\"x\"] m", ?_⟩, ?_⟩
  · rw [kvp_in_place (freshLine_reading _)]
    decide
  · intro h
    exact not_forall_error h
  · intro h
    exact not_forall_error h

end Nxlog.L3
