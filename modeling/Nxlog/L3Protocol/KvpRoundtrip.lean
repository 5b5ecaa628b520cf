import Nxlog.L3Protocol.Kvp

/-!
# What the KVP parser reads back (`extension/kvp/kvp.c`)

The parser is followed from state to state: `kvpStart` in front of a key, `atValue`
behind the delimiter, `inValue` and `afterValue` inside a value and behind its closing
quote. `parseFrom` is the rest of a parse from such a state.

* `parseFrom_key`, `run_plain`, `kvpStep_end`, `run_junk`: what each part of a text
  does, for any context.
* `run_escapedByte`, `run_escaped`: with all characters set, what the writer escapes
  is read back, one byte at a time.
* `kvp_roundtrip`: the round trip for such a context.

Without a configured context see `KvpDetect`.
-/
namespace Nxlog.L3
open L1 L2 Res List

variable {c d : UInt8} {src v : Bytes} {ld : Logdata}

/-! ## One value at a time -/

def isAlnum (c : UInt8) : Bool := 48 ≤ c ∧ c ≤ 57 ∨ 65 ≤ c ∧ c ≤ 90 ∨ 97 ≤ c ∧ c ≤ 122

/-- A name that a parser with this context reads as one. -/
structure KeyOk (ctx : KvpCtx) (k : CStr) : Prop where
  nonempty : k.1 ≠ []
  short : k.1.length ≤ 255
  alnum : ∀ c ∈ k.1, isAlnum c
  apart : ∀ c ∈ k.1, c ≠ ctx.kvdelimiter ∧ c ≠ ctx.kvpdelimiter ∧ c ≠ ctx.keyquotechar ∧ c ≠ ctx.escapechar

theorem isAlnum_ne {c d : UInt8} (h : isAlnum c) (hd : isAlnum d = false) : c ≠ d := by
  rintro rfl
  rw [h] at hd
  cases hd

theorem not_isQuoteChar (h : isAlnum c) : isQuoteChar c = false := by
  simp [isQuoteChar, isAlnum_ne h (d := 39) rfl, isAlnum_ne h (d := 34) rfl]

theorem not_isKvDelimiterChar (h : isAlnum c) : isKvDelimiterChar c = false := by
  simp [isKvDelimiterChar, isAlnum_ne h (d := 58) rfl, isAlnum_ne h (d := 61) rfl]

def ends (ctx : KvpCtx) (c : UInt8) : Bool :=
  ctx.kvpdelimiter = 0 ∧ isKvpDelimiterChar c ∨ c = ctx.kvpdelimiter

/-- The bytes that stand for themselves inside a value. -/
def PlainByte (ctx : KvpCtx) (quoted : Bool) (c : UInt8) : Prop :=
  c ≠ ctx.valquotechar ∧ c ≠ ctx.escapechar ∧ (quoted = false → ends ctx c = false)

def opens (ctx : KvpCtx) (c : UInt8) : Bool :=
  ctx.valquotechar = 0 ∧ isQuoteChar c ∨ c = ctx.valquotechar

section Branches

variable {σ : Type} {set : Setter σ} {p : Kvp σ} {c : UInt8}

theorem not_end (h : p.got_valquote = false → ends p.ctx c = false) :
    ¬ (p.ctx.kvpdelimiter = 0 ∧ isKvpDelimiterChar c = true ∧ p.got_valquote = false) ∧
      ¬ (c = p.ctx.kvpdelimiter ∧ p.got_valquote = false) := by
  constructor
  · rintro ⟨h0, hc, hg⟩
    have := h hg
    simp [ends, h0, hc] at this
  · rintro ⟨hc, hg⟩
    have := h hg
    simp [ends, hc] at this

theorem valueByte_plain (h : PlainByte p.ctx p.got_valquote c) : valueByte set p c = appendValue p [c] := by
  obtain ⟨h1, h2, h3⟩ := h
  obtain ⟨hnew, hold⟩ := not_end h3
  rw [valueByte, if_neg h1, if_neg hnew, if_neg hold, if_neg h2]

theorem valueByte_end (hc : ends p.ctx c) (hq : c ≠ p.ctx.valquotechar) (hg : p.got_valquote = false) :
    valueByte set p c = addKvpField set { p with ctx.kvpdelimiter := c } := by
  by_cases h : p.ctx.kvpdelimiter = 0 ∧ isKvpDelimiterChar c
  · rw [valueByte, if_neg hq, if_pos ⟨h.1, h.2, hg⟩]
  · have he := (of_decide_eq_true hc).resolve_left h
    rw [valueByte, if_neg hq, if_neg fun hn => h ⟨hn.1, hn.2.1⟩, if_pos ⟨he, hg⟩, he]

theorem valueByte_escape (h1 : c ≠ p.ctx.valquotechar) (h2 : c = p.ctx.escapechar)
    (h3 : p.got_valquote = false → ends p.ctx c = false) :
    valueByte set p c = .ok { p with state := .valueEscape } := by
  obtain ⟨hnew, hold⟩ := not_end h3
  rw [valueByte, if_neg h1, if_neg hnew, if_neg hold, if_pos h2]

theorem kvpDelimiterByte_end (hc : ends p.ctx c) :
    kvpDelimiterByte set p c = addKvpField set { p with ctx.kvpdelimiter := c } := by
  by_cases h : p.ctx.kvpdelimiter = 0 ∧ isKvpDelimiterChar c
  · rw [kvpDelimiterByte, if_pos h]
  · have he := (of_decide_eq_true hc).resolve_left h
    rw [kvpDelimiterByte, if_neg h, if_pos he, he]

theorem kvpDelimiterByte_skip (hc : ends p.ctx c = false) : kvpDelimiterByte set p c = .ok p := by
  obtain ⟨h1, h2⟩ := not_or.mp (of_decide_eq_false hc)
  rw [kvpDelimiterByte, if_neg h1, if_neg h2]

theorem valueStartByte_open (hq : opens p.ctx c) (hs : c ≠ 32) (hv : p.valuestr = none) :
    valueStartByte set p c =
      .ok { p with ctx.valquotechar := c, got_valquote := true, valuestr := some [], state := .value } := by
  rw [valueStartByte, if_neg hs, hv]
  by_cases h : p.ctx.valquotechar = 0 ∧ isQuoteChar c
  · dsimp only
    rw [if_pos h]
    rfl
  · have he := (of_decide_eq_true hq).resolve_left h
    rw [if_neg h, if_pos he, he]
    rfl

theorem valueStartByte_bare (hq : opens p.ctx c = false) (hs : c ≠ 32) (hv : p.valuestr = none) :
    valueStartByte set p c =
      valueByte set { p with got_valquote := false, valuestr := some [], state := .value } c := by
  obtain ⟨h1, h2⟩ := not_or.mp (of_decide_eq_false hq)
  rw [valueStartByte, if_neg hs, hv]
  rw [if_neg h1, if_neg h2]
  rfl

end Branches

section Steps

variable {σ : Type} {set : Setter σ} {r : σ} {ctx : KvpCtx} {k : CStr} {w : Bytes} {gk gv : Bool} {key : Bytes}

def atValue (r : σ) (ctx : KvpCtx) (k : CStr) (gv : Bool) : Kvp σ :=
    ⟨r, ctx, .valueStart, k.1, false, gv, none⟩

def inValue (r : σ) (ctx : KvpCtx) (k : CStr) (gv : Bool) (w : Bytes) : Kvp σ :=
  ⟨r, ctx, .value, k.1, false, gv, some w⟩

def afterValue (r : σ) (ctx : KvpCtx) (k : CStr) (gv : Bool) (w : Bytes) : Kvp σ :=
  ⟨r, ctx, .kvpDelimiter, k.1, false, gv, some w⟩

def parseFrom (set : Setter σ) (src : Bytes) (p : Kvp σ) (text : Bytes) : Res (σ × KvpCtx) :=
  run (kvpStep set) p text >>= fun p => kvpFinish set src p >>= fun p => .ok (p.record, p.ctx)

theorem parseFrom_append (src : Bytes) (p : Kvp σ) (a b : Bytes) :
    parseFrom set src p (a ++ b) = run (kvpStep set) p a >>= fun p => parseFrom set src p b := by
  rw [parseFrom, run_append]
  cases run (kvpStep set) p a with
  | error e => rfl
  | ok p' => rfl

theorem parseFrom_cons (src : Bytes) (p : Kvp σ) (c : UInt8) (b : Bytes) :
    parseFrom set src p (c :: b) = kvpStep set p c >>= fun p => parseFrom set src p b := by
  rw [parseFrom, run_cons]
  cases kvpStep set p c with
  | error e => rfl
  | ok p' => rfl

/-! ### Names -/

theorem run_keyBytes {t key : Bytes} (hlen : key.length + t.length ≤ 255) (halnum : ∀ c ∈ t, isAlnum c)
    (hapart : ∀ c ∈ t, c ≠ ctx.kvdelimiter ∧ c ≠ ctx.kvpdelimiter ∧ c ≠ ctx.keyquotechar ∧
      c ≠ ctx.escapechar) :
    run (kvpStep set) ⟨r, ctx, .key, key, gk, gv, none⟩ t = .ok ⟨r, ctx, .key, key ++ t, gk, gv, none⟩ := by
  induction t generalizing key with
  | nil => simp
  | cons c t ih =>
    rw [length_cons] at hlen
    obtain ⟨h1, -, h3, h4⟩ := hapart c mem_cons_self
    have hd := not_isKvDelimiterChar (halnum c mem_cons_self)
    have hstep : kvpStep set ⟨r, ctx, .key, key, gk, gv, none⟩ c =
      .ok ⟨r, ctx, .key, key ++ [c], gk, gv, none⟩ := by
      have hroom : key.length + 1 ≤ 255 := by omega
      simp [kvpStep, keyByte, h1, h3, h4, hd, appendKey, hroom]
    rw [run_cons, hstep, ok_bind, ih (by rw [length_append, length_singleton]; omega)
      (forall_mem_cons.mp halnum).2 (forall_mem_cons.mp hapart).2]
    simp

theorem run_keyPrefix (hk : KeyOk ctx k) {t : Bytes} (ht : t <+: k.1) (hne : t ≠ []) :
    run (kvpStep set) (kvpStart r ctx key gk gv) t = .ok ⟨r, ctx, .key, t, false, gv, none⟩ := by
  have hmem : ∀ c ∈ t, c ∈ k.1 := fun c hc => ht.subset hc
  have hlen := ht.length_le
  have hshort := hk.short
  cases t with
  | nil => exact absurd rfl hne
  | cons c t =>
    have hc := hmem c mem_cons_self
    obtain ⟨-, h2, h3, h4⟩ := hk.apart c hc
    have hq := not_isQuoteChar (hk.alnum c hc)
    have hsp : c ≠ 32 := isAlnum_ne (hk.alnum c hc) rfl
    have hstep : kvpStep set (kvpStart r ctx key gk gv) c = .ok ⟨r, ctx, .key, [c], false, gv, none⟩ := by
      simp [kvpStep, kvpStart, keyStartByte, hsp, hq, h2, h3, h4, appendKey]
    rw [length_cons] at hlen
    rw [run_cons, hstep, ok_bind, run_keyBytes (by rw [length_singleton]; omega)
      (fun d hd => hk.alnum d (hmem d (mem_cons_of_mem _ hd)))
      fun d hd => hk.apart d (hmem d (mem_cons_of_mem _ hd))]
    rfl

theorem parseFrom_key (hk : KeyOk ctx k)
    (hd : ctx.kvdelimiter = d ∨ ctx.kvdelimiter = 0 ∧ isKvDelimiterChar d)
    (hq : d ≠ ctx.keyquotechar) (text : Bytes) :
    parseFrom set src (kvpStart r ctx key gk gv) (k.1 ++ d :: text) =
      parseFrom set src (atValue r { ctx with kvdelimiter := d } k gv) text := by
  have hstep : kvpStep set ⟨r, ctx, .key, k.1, false, gv, none⟩ d =
      .ok (atValue r { ctx with kvdelimiter := d } k gv) := by
    rcases hd with rfl | ⟨h0, hc⟩
    · by_cases h : ctx.kvdelimiter = 0 ∧ isKvDelimiterChar ctx.kvdelimiter
      · simp only [kvpStep, keyByte, if_neg hq, if_pos h]
        rfl
      · simp only [kvpStep, keyByte, if_neg hq, if_neg h, if_true]
        rfl
    · simp only [kvpStep, keyByte, if_neg hq, if_pos (And.intro h0 hc)]
      rfl
  rw [parseFrom_append, run_keyPrefix hk (prefix_refl _) hk.nonempty, ok_bind, parseFrom_cons,
    hstep, ok_bind]

/-- A text that ends inside a name. -/
theorem parseFrom_keyPrefix {src t : Bytes} (hk : KeyOk ctx k) (ht : t <+: k.1) (hne : t ≠ [])
    (x : σ × KvpCtx) :
    parseFrom set src (kvpStart r ctx key gk gv) t ≠ .ok x := by
  rw [parseFrom, run_keyPrefix hk ht hne, ok_bind]
  intro h
  cases h

/-! ### Values -/

theorem KeyOk.trim (hk : KeyOk ctx k) : (k.1.reverse.dropWhile (· = 32)).reverse = k.1 := by
  have hne : ∀ c ∈ k.1.reverse, c ≠ 32 := by
    intro c hc
    exact isAlnum_ne (hk.alnum c (mem_reverse.mp hc)) rfl
  have hdrop : k.1.reverse.dropWhile (fun c => decide (c = 32)) = k.1.reverse := by
    cases hr : k.1.reverse with
    | nil => rfl
    | cons c t =>
      rw [hr] at hne
      rw [dropWhile_cons_of_neg (by simpa using hne c mem_cons_self)]
  rw [hdrop, reverse_reverse]

theorem addKvpField_eq (hk : KeyOk ctx k) (ctx' : KvpCtx) (st : KvpState) :
    addKvpField set ⟨r, ctx', st, k.1, false, gv, some w⟩ =
      set r k (strValue w) >>= fun r' => .ok (kvpStart r' ctx' k.1 false gv) := by
  unfold addKvpField
  simp only [Bool.false_eq_true, if_false, hk.trim, cut_cstr]
  rfl

theorem appendValue_eq (st : KvpState) (hlen : w.length + 1 < stringLimit) :
    appendValue ⟨r, ctx, st, k.1, false, gv, some w⟩ [c] = .ok (inValue r ctx k gv (w ++ [c])) := by
  have happ : stringAppend w [c] ([c].length : Nat) = .ok (w ++ [c]) := by
    rw [stringAppend_eq (Nat.le_refl _), take_length, appendCut_of_lt (by rw [length_singleton]; omega)]
  unfold appendValue
  dsimp only
  rw [happ]
  rfl

/-- Plain bytes are appended to the value. -/
theorem run_plain {u w : Bytes} (hplain : ∀ c ∈ u, PlainByte ctx gv c)
    (hlen : w.length + u.length < stringLimit) :
    run (kvpStep set) (inValue r ctx k gv w) u = .ok (inValue r ctx k gv (w ++ u)) := by
  induction u generalizing w with
  | nil => simp
  | cons c u ih =>
    rw [length_cons] at hlen
    have hstep : kvpStep set (inValue r ctx k gv w) c = .ok (inValue r ctx k gv (w ++ [c])) := by
      calc kvpStep set (inValue r ctx k gv w) c = appendValue (inValue r ctx k gv w) [c] :=
            valueByte_plain (hplain c mem_cons_self)
        _ = _ := appendValue_eq .value (by omega)
    rw [run_cons, hstep, ok_bind, ih (forall_mem_cons.mp hplain).2
      (by rw [length_append, length_singleton]; omega), append_assoc]
    rfl

/-- A delimiter ends a value without quotes. -/
theorem kvpStep_end (hk : KeyOk ctx k) (hd : ends ctx d) (hq : d ≠ ctx.valquotechar) :
    kvpStep set (inValue r ctx k false w) d =
      set r k (strValue w) >>= fun r' => .ok (kvpStart r' { ctx with kvpdelimiter := d } k.1 false false) := by
  calc kvpStep set (inValue r ctx k false w) d
      = addKvpField set ⟨r, { ctx with kvpdelimiter := d }, .value, k.1, false, false, some w⟩ :=
        valueByte_end (p := inValue r ctx k false w) hd hq rfl
    _ = _ := addKvpField_eq hk _ _

/-- Behind the closing quote everything up to a delimiter is skipped. -/
theorem run_junk {u : Bytes} (h : ∀ c ∈ u, ends ctx c = false) :
    run (kvpStep set) (afterValue r ctx k gv w) u = .ok (afterValue r ctx k gv w) := by
  induction u with
  | nil => rfl
  | cons c u ih =>
    have hstep : kvpStep set (afterValue r ctx k gv w) c = .ok (afterValue r ctx k gv w) :=
      kvpDelimiterByte_skip (p := afterValue r ctx k gv w) (h c mem_cons_self)
    rw [run_cons, hstep, ok_bind, ih (forall_mem_cons.mp h).2]

theorem kvpStep_afterEnd (hk : KeyOk ctx k) (hd : ends ctx d) :
    kvpStep set (afterValue r ctx k gv w) d =
      set r k (strValue w) >>= fun r' => .ok (kvpStart r' { ctx with kvpdelimiter := d } k.1 false gv) := by
  calc kvpStep set (afterValue r ctx k gv w) d
      = addKvpField set ⟨r, { ctx with kvpdelimiter := d }, .kvpDelimiter, k.1, false, gv, some w⟩ :=
        kvpDelimiterByte_end (p := afterValue r ctx k gv w) hd
    _ = _ := addKvpField_eq hk _ _

theorem kvpStep_close : kvpStep set (inValue r ctx k true w) ctx.valquotechar =
    .ok (afterValue r ctx k true w) := by
  simp [kvpStep, inValue, afterValue, valueByte]

theorem parseFrom_nil {p : Kvp σ} (hk : KeyOk ctx k) (hp : p = inValue r ctx k gv w ∨
    p = afterValue r ctx k gv w) :
    parseFrom set src p [] = set r k (strValue w) >>= fun r' => .ok (r', ctx) := by
  have hfin : kvpFinish set src p = set r k (strValue w) >>= fun r' => .ok (kvpStart r' ctx k.1 false gv) := by
    rcases hp with rfl | rfl <;> exact addKvpField_eq hk _ _
  rw [parseFrom, run_nil, ok_bind, hfin]
  cases set r k (strValue w) <;> rfl

/-! ### The first byte of a value -/

theorem parseFrom_open {q : UInt8} (hq : opens ctx q) (hs : q ≠ 32) (text : Bytes) :
    parseFrom set src (atValue r ctx k gv) (q :: text) =
      parseFrom set src (inValue r { ctx with valquotechar := q } k true []) text := by
  have hstep : kvpStep set (atValue r ctx k gv) q = .ok (inValue r { ctx with valquotechar := q } k true []) :=
    valueStartByte_open (p := atValue r ctx k gv) hq hs rfl
  rw [parseFrom_cons, hstep, ok_bind]

theorem parseFrom_bare (hc : opens ctx c = false) (hs : c ≠ 32) (text : Bytes) :
    parseFrom set src (atValue r ctx k gv) (c :: text) = parseFrom set src
    (inValue r ctx k false []) (c :: text) := by
  have hstep : kvpStep set (atValue r ctx k gv) c = kvpStep set (inValue r ctx k false []) c :=
    valueStartByte_bare (p := atValue r ctx k gv) hc hs rfl
  rw [parseFrom_cons, parseFrom_cons, hstep]

/-- A value without quotes, of which the first byte is not taken for one. -/
theorem parseFrom_bareRun {text tail : Bytes}
    (hrun : run (kvpStep set) (inValue r ctx k false []) text = .ok (inValue r ctx k false w))
      (hc : (text ++ tail).head? = some c) (ho : opens ctx c = false) (h32 : c ≠ 32) :
    parseFrom set src (atValue r ctx k gv) (text ++ tail) = parseFrom set src
    (inValue r ctx k false w) tail := by
  obtain ⟨t, ht⟩ := head?_eq_some_iff.mp hc
  rw [ht, parseFrom_bare ho h32, ← ht, parseFrom_append, hrun, ok_bind]

end Steps

/-! ## A context with all characters set -/

def KvpCtx.chars (ctx : KvpCtx) : List UInt8 :=
  [ctx.keyquotechar, ctx.valquotechar, ctx.escapechar, ctx.kvdelimiter, ctx.kvpdelimiter]

theorem KvpCtx.valquotechar_mem (ctx : KvpCtx) : ctx.valquotechar ∈ ctx.chars := by simp [chars]

theorem KvpCtx.escapechar_mem (ctx : KvpCtx) : ctx.escapechar ∈ ctx.chars := by simp [chars]

theorem KvpCtx.kvpdelimiter_mem (ctx : KvpCtx) : ctx.kvpdelimiter ∈ ctx.chars := by simp [chars]

/-- All characters set, different, printable, and neither a space nor a letter that
stands for a control character; control characters are escaped. -/
structure KvpCtx.Explicit (ctx : KvpCtx) : Prop where
  distinct : ctx.chars.Nodup
  printable : ∀ c ∈ ctx.chars, 32 < c ∧ c < 127
  letters : ∀ c ∈ ctx.chars, c ≠ 110 ∧ c ≠ 114 ∧ c ≠ 116 ∧ c ≠ 98
  control : ctx.escape_control = TRUE

/-- The written fields are strings without NUL, under names of 1 to 255 letters and
digits other than the characters of the context. -/
structure KvpRecord (chars : List UInt8) (ld : Logdata) : Prop where
  strings : AllStrings ld
  keys : ∀ f ∈ ld.fields, written f →
    f.key.1 ≠ [] ∧ f.key.1.length ≤ 255 ∧ ∀ c ∈ f.key.1, isAlnum c ∧ c ∉ chars
  values : ∀ p ∈ stringFields ld, (0 : UInt8) ∉ p.2

def assignments (ps : List (CStr × Bytes)) : List (CStr × NxValue) := ps.map fun p => (p.1, strValue p.2)

namespace KvpCtx.Explicit

variable {ctx : KvpCtx} (h : ctx.Explicit)
include h

theorem ne_zero (hc : c ∈ ctx.chars) : c ≠ 0 := by
  rintro rfl
  exact absurd (h.printable 0 hc).1 (by decide)

theorem ne_space (hc : c ∈ ctx.chars) : c ≠ 32 := by
  rintro rfl
  exact absurd (h.printable 32 hc).1 (by decide)

theorem low (hc : c ∈ ctx.chars) : ¬ 128 ≤ c := by
  intro hle
  have := (h.printable c hc).2
  rw [UInt8.lt_iff_toNat_lt] at this
  rw [UInt8.le_iff_toNat_le] at hle
  simp at this hle
  omega

theorem noLetter (hc : c ∈ ctx.chars) : letterControl c = none := by
  obtain ⟨h1, h2, h3, h4⟩ := h.letters c hc
  simp [letterControl, h1, h2, h3, h4]

theorem ends_iff : ends ctx c = true ↔ c = ctx.kvpdelimiter := by
  have h0 : ctx.kvpdelimiter ≠ 0 := h.ne_zero (by simp [chars])
  simp [ends, h0]

theorem opens_iff : opens ctx c = true ↔ c = ctx.valquotechar := by
  have h0 : ctx.valquotechar ≠ 0 := h.ne_zero (by simp [chars])
  simp [opens, h0]

theorem quote_eq : ctx.quote = ctx.valquotechar := if_pos (h.ne_zero (by simp [chars]))

theorem escape_eq : ctx.escape = ctx.escapechar := if_pos (h.ne_zero (by simp [chars]))

theorem kvdelim_eq : ctx.kvdelim = ctx.kvdelimiter := if_pos (h.ne_zero (by simp [chars]))

theorem kvpdelim_eq : ctx.kvpdelim = ctx.kvpdelimiter := if_pos (h.ne_zero (by simp [chars]))

end KvpCtx.Explicit

variable {ps : List (CStr × Bytes)}

section Explicit

variable {σ : Type} {set : Setter σ} {r : σ} {ctx : KvpCtx} {k : CStr} {w : Bytes} {gv : Bool}

theorem run_pair (hx : ctx.Explicit) {b c : UInt8} (hb : unescapeValue ctx b gv = [c])
    (hlen : w.length + 1 < stringLimit) :
    run (kvpStep set) (inValue r ctx k gv w) [ctx.escapechar, b] = .ok (inValue r ctx k gv (w ++ [c])) := by
  have hd := hx.distinct
  simp only [KvpCtx.chars, nodup_cons, mem_cons, not_mem_nil, or_false, not_or] at hd
  obtain ⟨-, ⟨hve, -, -⟩, ⟨-, hep⟩, -⟩ := hd
  have hesc : kvpStep set (inValue r ctx k gv w) ctx.escapechar =
      .ok ⟨r, ctx, .valueEscape, k.1, false, gv, some w⟩ := by
    refine valueByte_escape (p := inValue r ctx k gv w) (Ne.symm hve) rfl fun _ => ?_
    show ends ctx ctx.escapechar = false
    rw [Bool.eq_false_iff, Ne, hx.ends_iff]
    exact hep
  have hstep : kvpStep set ⟨r, ctx, .valueEscape, k.1, false, gv, some w⟩ b =
    .ok (inValue r ctx k gv (w ++ [c])) := by
    calc kvpStep set ⟨r, ctx, .valueEscape, k.1, false, gv, some w⟩ b
        = appendValue ⟨r, ctx, .valueEscape, k.1, false, gv, some w⟩ (unescapeValue ctx b gv) := rfl
      _ = _ := by rw [hb, appendValue_eq _ hlen]
  rw [run_cons, hesc, ok_bind, run_cons, hstep, ok_bind, run_nil]

/-- What the writer does with a byte: it puts the escape character and what the parser reads as the
byte, or the byte itself, in quotes if it is a space or a delimiter. -/
theorem kvpEscape_cases (hx : ctx.Explicit) (c : UInt8) (gv : Bool) :
    (∃ b, kvpEscape ctx c = .pair ctx.escapechar b ∧ unescapeValue ctx b gv = [c]) ∨
      ¬ Escapes (kvpEscape ctx) c ∧ c ≠ ctx.valquotechar ∧ c ≠ ctx.escapechar ∧
        (kvpEscape ctx c ≠ .quote → c ≠ 32 ∧ c ≠ ctx.kvpdelimiter) := by
  by_cases hhigh : 128 ≤ c
  · have hkeep : kvpEscape ctx c = .keep := if_pos hhigh
    have hne : ∀ d ∈ ctx.chars, c ≠ d := fun d hd he => hx.low hd (he ▸ hhigh)
    refine .inr ⟨by simp [Escapes, hkeep], hne _ ctx.valquotechar_mem, hne _ ctx.escapechar_mem,
      fun _ => ⟨?_, hne _ ctx.kvpdelimiter_mem⟩⟩
    rintro rfl
    exact absurd hhigh (by decide)
  by_cases hesc : c = ctx.escapechar
  · refine .inl ⟨c, ?_, ?_⟩
    · rw [kvpEscape, if_neg hhigh, hx.escape_eq, if_pos hesc]
    · simp [unescapeValue, hx.control, hesc, hx.noLetter ctx.escapechar_mem]
  by_cases hquote : c = ctx.valquotechar
  · refine .inl ⟨ctx.valquotechar, ?_, ?_⟩
    · rw [kvpEscape, if_neg hhigh, hx.escape_eq, if_neg hesc, hx.quote_eq, if_pos hquote]
    · rw [hquote] at hesc ⊢
      simp [unescapeValue, hx.control, hesc, hx.noLetter ctx.valquotechar_mem]
  have hrest : kvpEscape ctx c = if c = 32 then .quote else if c = ctx.kvpdelimiter then .quote else
      ((controlLetter c).map (EscAct.pair ctx.escapechar)).getD .keep := by
    rw [kvpEscape, if_neg hhigh, hx.escape_eq, if_neg hesc, hx.quote_eq, if_neg hquote, if_pos hx.control]
    cases controlLetter c <;> rfl
  by_cases hq : kvpEscape ctx c = .quote
  · exact .inr ⟨by simp [Escapes, hq], hquote, hesc, fun h => absurd hq h⟩
  have h32 : c ≠ 32 := fun h => hq (by rw [hrest, if_pos h])
  have hp : c ≠ ctx.kvpdelimiter := fun h => hq (by rw [hrest, if_neg h32, if_pos h])
  rw [if_neg h32, if_neg hp] at hrest
  cases hl : controlLetter c with
  | none =>
    rw [hl] at hrest
    exact .inr ⟨by simp [Escapes, hrest], hquote, hesc, fun _ => ⟨h32, hp⟩⟩
  | some l =>
    rw [hl] at hrest
    exact .inl ⟨l, hrest, by simp [unescapeValue, hx.control, letterControl_of_control hl]⟩

theorem run_escapedByte (hx : ctx.Explicit) (hc : gv = false → kvpEscape ctx c ≠ .quote)
    (hlen : w.length + 1 < stringLimit) :
    run (kvpStep set) (inValue r ctx k gv w) (escaped (kvpEscape ctx) [c]) =
    .ok (inValue r ctx k gv (w ++ [c])) := by
  obtain ⟨b, hpair, hb⟩ | ⟨hne, h1, h2, h3⟩ := kvpEscape_cases hx c gv
  · rw [escaped_pair hpair]
    exact run_pair hx hb hlen
  · rw [escaped_same hne]
    refine run_plain (forall_mem_singleton.mpr ⟨h1, h2, fun hg => ?_⟩) hlen
    rw [Bool.eq_false_iff, Ne, hx.ends_iff]
    exact (h3 (hc hg)).2

theorem run_escaped (hx : ctx.Explicit) {v w : Bytes} (hq : gv = false → ∀ c ∈ v,
    kvpEscape ctx c ≠ .quote) (hlen : w.length + v.length < stringLimit) :
    run (kvpStep set) (inValue r ctx k gv w) (escaped (kvpEscape ctx) v) =
    .ok (inValue r ctx k gv (w ++ v)) := by
  induction v generalizing w with
  | nil => simp
  | cons c v ih =>
    rw [length_cons] at hlen
    rw [escaped_cons, run_append, run_escapedByte hx (fun hg => hq hg c mem_cons_self) (by omega),
      ok_bind, ih (fun hg d hd => hq hg d (mem_cons_of_mem _ hd))
        (by rw [length_append, length_singleton]; omega), append_assoc]
    rfl

theorem valueText_bare (h : (v.any fun c => kvpEscape ctx c = .quote) = false) :
    valueText ctx v = escaped (kvpEscape ctx) v := by
  rw [valueText, h]
  rfl

/-- Below the limit both quotes are there. -/
theorem valueText_quoted (h : (v.any fun c => kvpEscape ctx c = .quote) = true)
    (hlen : (valueText ctx v).length + 1 < stringLimit) :
    valueText ctx v = ctx.quote :: (escaped (kvpEscape ctx) v ++ [ctx.quote]) := by
  rw [valueText, if_pos h] at hlen ⊢
  have hle : ∀ x : Bytes, x.length ≤ (appendCut x [ctx.quote]).length := by
    intro x
    rw [appendCut, length_append]
    omega
  by_cases hroom : (escaped (kvpEscape ctx) v).length < stringLimit - 1
  · rw [if_pos hroom] at hlen ⊢
    have := hle (ctx.quote :: escaped (kvpEscape ctx) v)
    rw [length_cons] at this
    rw [appendCut_of_lt (by rw [length_cons, length_singleton]; omega)]
    rfl
  · rw [if_neg hroom] at hlen
    have := hle (escaped (kvpEscape ctx) v)
    omega

theorem length_le_valueText (ctx : KvpCtx) (v : Bytes) : v.length ≤ (valueText ctx v).length := by
  have hle := le_length_escaped (kvpEscape ctx) v
  unfold valueText
  split
  · rw [appendCut, length_append]
    split
    · rw [length_cons]
      omega
    · omega
  · exact hle

theorem parseFrom_pair (set : Setter σ) (r : σ) (src X key : Bytes) (gk gv : Bool)
    (hx : ctx.Explicit) (hk : KeyOk ctx k) (hlen : (valueText ctx v).length + 1 < stringLimit) :
    ∃ gv', parseFrom set src (kvpStart r ctx key gk gv) (pairText ctx (k, v) ++ X) =
      set r k (strValue v) >>= fun r' => parseFrom set src (kvpStart r' ctx k.1 false gv') X := by
  have hd := hx.distinct
  simp only [KvpCtx.chars, nodup_cons, mem_cons, not_mem_nil, or_false, not_or] at hd
  obtain ⟨⟨-, -, hkq, -⟩, ⟨hve, -, hvp⟩, -, -⟩ := hd
  have hend : ends ctx ctx.kvpdelimiter := hx.ends_iff.mpr rfl
  have htext : pairText ctx (k, v) ++ X =
      k.1 ++ ctx.kvdelimiter :: (valueText ctx v ++ ctx.kvpdelimiter :: X) := by
    simp [pairText, hx.kvdelim_eq, hx.kvpdelim_eq]
  have hvlen : v.length < stringLimit := by
    have := length_le_valueText ctx v
    omega
  rw [htext, parseFrom_key hk (.inl rfl) (Ne.symm hkq)]
  by_cases hq : (v.any fun c => kvpEscape ctx c = .quote) = true
  · -- in quotes: up to the closing quote every byte is part of the value
    refine ⟨true, ?_⟩
    have hopen : opens ctx ctx.valquotechar := hx.opens_iff.mpr rfl
    rw [valueText_quoted hq hlen, hx.quote_eq, cons_append, append_assoc, singleton_append,
      parseFrom_open hopen (hx.ne_space ctx.valquotechar_mem), parseFrom_append]
    have hrun : run (kvpStep set) (inValue r ctx k true []) (escaped (kvpEscape ctx) v) =
        .ok (inValue r ctx k true v) := run_escaped hx (fun h => by cases h) (by simpa using hvlen)
    rw [hrun, ok_bind, parseFrom_cons, kvpStep_close, ok_bind, parseFrom_cons, kvpStep_afterEnd hk hend]
    cases set r k (strValue v) <;> rfl
  · refine ⟨false, ?_⟩
    have hnq : ∀ c ∈ v, kvpEscape ctx c ≠ .quote := by simpa using hq
    rw [valueText_bare (Bool.eq_false_iff.mpr hq)]
    -- the first byte is not taken for a quote or skipped
    have hhead : ∃ c, (escaped (kvpEscape ctx) v ++ ctx.kvpdelimiter :: X).head? = some c ∧ c ≠ 32 ∧
        c ≠ ctx.valquotechar := by
      cases v with
      | nil => exact ⟨_, rfl, hx.ne_space ctx.kvpdelimiter_mem, Ne.symm hvp⟩
      | cons c v =>
        rw [escaped_cons]
        obtain ⟨b, hpair, -⟩ | ⟨hne, hc, -, h32⟩ := kvpEscape_cases hx c false
        · rw [escaped_pair hpair]
          exact ⟨_, rfl, hx.ne_space ctx.escapechar_mem, Ne.symm hve⟩
        · rw [escaped_same hne]
          exact ⟨c, rfl, (h32 (hnq c mem_cons_self)).1, hc⟩
    obtain ⟨c, hc, h32, hv⟩ := hhead
    have hbare : opens ctx c = false := by
      rw [Bool.eq_false_iff, Ne, hx.opens_iff]
      exact hv
    have hrun : run (kvpStep set) (inValue r ctx k false []) (escaped (kvpEscape ctx) v) =
        .ok (inValue r ctx k false v) := run_escaped hx (fun _ => hnq) (by simpa using hvlen)
    rw [parseFrom_bareRun hrun hc hbare h32, parseFrom_cons, kvpStep_end hk hend (Ne.symm hvp)]
    cases set r k (strValue v) <;> rfl

theorem kvpText_lt {p : CStr × Bytes} (h : (kvpText ctx (p :: ps)).length < stringLimit) :
    (valueText ctx p.2).length + 1 < stringLimit ∧ (kvpText ctx ps).length < stringLimit := by
  simp only [kvpText, flatMap_cons, pairText, length_append, length_cons] at h ⊢
  omega

theorem parseFrom_text (hx : ctx.Explicit) {r : σ} {key : Bytes} {gk gv : Bool}
    (hk : ∀ p ∈ ps, KeyOk ctx p.1) (hlen : (kvpText ctx ps).length < stringLimit) :
    parseFrom set src (kvpStart r ctx key gk gv) (kvpText ctx ps) = setAll set r (assignments ps) >>= fun r' =>
      .ok (r', ctx) := by
  induction ps generalizing r key gk gv with
  | nil => rfl
  | cons p ps ih =>
    obtain ⟨k, v⟩ := p
    obtain ⟨hv, hlen⟩ := kvpText_lt hlen
    obtain ⟨gv', hparse⟩ := parseFrom_pair set r src (kvpText ctx ps) key gk gv hx (hk _ mem_cons_self) hv
    rw [kvpText, flatMap_cons, ← kvpText, hparse]
    simp only [assignments, map_cons, setAll_cons]
    cases set r k (strValue v) with
    | error e => rfl
    | ok r' =>
      rw [ok_bind, ok_bind]
      exact ih (forall_mem_cons.mp hk).2 hlen

end Explicit

/-! ## The round trip -/

theorem kvpParse_text {σ : Type} (set : Setter σ) (s : σ) (ctx : KvpCtx) {text : Bytes}
    (h : text.length < stringLimit) : kvpParse set s ctx (text ++ [0]) text.length =
      parseFrom set (text ++ [0]) (kvpStart s ctx [] false false) text := by
  have hl : stringLimit = 1048576 := rfl
  rw [kvpParse, textLen_length, ok_bind, parseKvp, cInt_of_lt (by omega), Int.toNat_natCast,
    rdBytes_ok (by simp), ok_bind, drop_zero, take_left' rfl]
  rfl

theorem mem_stringFields {p : CStr × Bytes} (h : p ∈ stringFields ld) : ∃ f ∈ ld.fields, written f ∧
    f.key = p.1 := by
  obtain ⟨f, hf, hp⟩ := mem_filterMap.mp h
  obtain ⟨hf, hw⟩ := mem_filter.mp hf
  obtain ⟨s, -, rfl⟩ := Option.map_eq_some_iff.mp hp
  exact ⟨f, hf, hw, rfl⟩

theorem stringFields_distinct (h : DistinctNames ld) :
    (assignments (stringFields ld)).Pairwise fun a b => ¬ strcasecmp a.1 b.1 := by
  refine pairwise_map.mpr (List.Pairwise.filterMap _ ?_ (h.sublist filter_sublist))
  intro f g hfg a ha b hb
  obtain ⟨s, -, rfl⟩ := Option.map_eq_some_iff.mp ha
  obtain ⟨t, -, rfl⟩ := Option.map_eq_some_iff.mp hb
  exact hfg

theorem assignments_ok : ∀ a ∈ assignments (stringFields ld), a.1 ≠ rawEvent ∧ valueFree a.2 = .ok () := by
  intro a ha
  obtain ⟨p, hp, rfl⟩ := mem_map.mp ha
  obtain ⟨f, -, hw, hk⟩ := mem_stringFields hp
  refine ⟨?_, rfl⟩
  rw [← hk]
  exact (of_decide_eq_true hw).1

/-- A value is shorter than the text it is written to. -/
theorem length_lt_kvpText (ctx : KvpCtx) {p : CStr × Bytes} (hp : p ∈ ps) :
    (pairText ctx p).length ≤ (kvpText ctx ps).length := by
  obtain ⟨a, b, rfl⟩ := append_of_mem hp
  simp only [kvpText, flatMap_append, flatMap_cons, length_append]
  omega

/-- Whatever the values, the parser sets the written fields in their order to their
strings, and nothing else. In a record with different names each of them ends up
with its string, and the other fields of the record stay as they are. -/
theorem kvp_roundtrip (env : TextEnv) (ctx : KvpCtx) (hctx : ctx.Explicit) (ld : Logdata)
    (hld : KvpRecord ctx.chars ld) (hlen : (kvpText ctx (stringFields ld)).length < stringLimit) :
    ∃ text, logdataToKvp env ctx ld = .ok text ∧
      (∀ (σ : Type) (set : Setter σ) (s : σ), kvpParse set s ctx (text ++ [0]) text.length =
        setAll set s (assignments (stringFields ld)) >>= fun s' => .ok (s', ctx)) ∧
      (DistinctNames ld → ∀ s : Store, Usable s.ld →
        ∃ s', kvpParse storeSet s ctx (text ++ [0]) text.length = .ok (s', ctx) ∧
          Assigned s.ld (assignments (stringFields ld)) s'.ld) := by
  have hkeys : ∀ p ∈ stringFields ld, KeyOk ctx p.1 := by
    intro p hp
    obtain ⟨f, hf, hw, hk⟩ := mem_stringFields hp
    obtain ⟨h1, h2, h3⟩ := hld.keys f hf hw
    rw [hk] at h1 h2 h3
    refine ⟨h1, h2, fun c hc => (h3 c hc).1, fun c hc => ?_⟩
    have := (h3 c hc).2
    simp only [KvpCtx.chars, mem_cons, not_mem_nil, or_false, not_or] at this
    exact ⟨this.2.2.2.1, this.2.2.2.2, this.1, this.2.2.1⟩
  have hvalues : ∀ p ∈ stringFields ld, p.2.length + 2 ≤ stringLimit := by
    intro p hp
    have h1 := length_lt_kvpText ctx hp
    have h2 := length_le_valueText ctx p.2
    simp only [pairText, length_append, length_cons, length_nil] at h1
    omega
  have hwrite : logdataToKvp env ctx ld = .ok (kvpText ctx (stringFields ld)) := by
    rw [logdataToKvp_ok hld.strings hvalues, take_limit_eq_iff.mpr hlen]
  have hparse : ∀ (σ : Type) (set : Setter σ) (s : σ),
      kvpParse set s ctx (kvpText ctx (stringFields ld) ++ [0]) (kvpText ctx (stringFields ld)).length =
        setAll set s (assignments (stringFields ld)) >>= fun s' => .ok (s', ctx) := by
    intro σ set s
    rw [kvpParse_text set s ctx hlen, parseFrom_text hctx hkeys hlen]
  refine ⟨_, hwrite, hparse, ?_⟩
  intro hd s hs
  obtain ⟨s', hset, hassigned⟩ := setAll_store hs (stringFields_distinct hd) assignments_ok
  refine ⟨s', ?_, hassigned⟩
  rw [hparse, hset, ok_bind]

def plainCtx : KvpCtx := ⟨61, 59, 34, 39, 92, TRUE⟩

/-- `A` is a quote, a delimiter, a space, a line feed and a backslash; `B` is empty. -/
def awkwardRecord : Logdata :=
  ⟨some 0, [⟨rawEvent, ⟨TRUE, .string (some ⟨0, []⟩)⟩⟩,
    ⟨cut [65], ⟨TRUE, .string (some ⟨1, [39, 59, 32, 10, 92]⟩)⟩⟩,
    ⟨cut [66], ⟨TRUE, .string (some ⟨2, []⟩)⟩⟩], []⟩

theorem kvp_roundtrip_awkward :
    plainCtx.Explicit ∧ KvpRecord plainCtx.chars awkwardRecord ∧
    ∃ text, logdataToKvp ⟨fun _ => Res.fault, fun _ => Res.fault⟩ plainCtx awkwardRecord =
      .ok text ∧ kvpParse expect (assignments (stringFields awkwardRecord)) plainCtx
        (text ++ [0]) text.length = .ok ([], plainCtx) := by
  have hctx : plainCtx.Explicit := ⟨by decide, by decide +kernel, by decide +kernel, rfl⟩
  have hld : KvpRecord plainCtx.chars awkwardRecord :=
    ⟨by unfold AllStrings; decide, by decide +kernel, by decide⟩
  obtain ⟨text, hwrite, hparse, -⟩ :=
    kvp_roundtrip ⟨fun _ => Res.fault, fun _ => Res.fault⟩ plainCtx hctx awkwardRecord hld (by decide)
  refine ⟨hctx, hld, text, hwrite, ?_⟩
  rw [hparse, setAll_expect]
  rfl

end Nxlog.L3
