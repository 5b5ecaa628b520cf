import Nxlog.L3Protocol.KvpRoundtrip

/-!
# The KVP parser without a configured context (`extension/kvp/kvp.c`)

With nothing configured the writer escapes with a backslash and quotes with single
quotes, and the parser has no escape character at all. It takes the first comma,
semicolon or space behind a value for the delimiter, and the first single or double
quote in front of a value for the quote. So it reads back what was written only if
its guesses are the writer's.

* `GoodValue`: the values that are written as they are and read as one.
* `Reads`: what is left of the last value may still read as the value when the
  string limit has cut off the end of the text.
* `kvp_detect_iff`: the fields of a record come back exactly if all of its values
  are good and the text is below the limit, or the limit cuts only what is not needed.
-/
namespace Nxlog.L3
open L1 L2 Res List

variable {v X tail : Bytes} {ps : List (CStr × Bytes)} {c : UInt8} {started seen : Bool} {n : Nat}

/-! ## The condition -/

/-- A value that is written without a change, and which the parser does not end or
unquote too early: no backslash and no single quote; and if it has no space, and is
so written without quotes, no semicolon, no comma in the first pair (`started` is
FALSE), and no double quote in front before a single quote was seen. -/
def GoodValue (started seen : Bool) (v : Bytes) : Prop :=
  92 ∉ v ∧ 39 ∉ v ∧
    (32 ∈ v ∨ 59 ∉ v ∧ (started = false → 44 ∉ v) ∧ (seen = false → v.head? ≠ some 34))

/-- The values of a record, in the order of its fields. A value with a space is
written in single quotes. -/
def GoodValues : Bool → Bool → List (CStr × Bytes) → Prop
  | _, _, [] => True
  | started, seen, p :: ps => GoodValue started seen p.2 ∧ GoodValues true (seen || decide (32 ∈ p.2)) ps

/-- A text that reads as `v` without quotes. -/
def BareOk (started seen : Bool) (v : Bytes) : Prop :=
  v.head? ≠ some 32 ∧ (seen = false → v.head? ≠ some 34 ∧ v.head? ≠ some 39) ∧
    (seen = true → 39 ∉ v) ∧ 59 ∉ v ∧ (started = false → 44 ∉ v ∧ 32 ∉ v)

/-- A text at the end of the input that reads as `v`; the closing quote may be missing. -/
def Reads (started seen : Bool) (text v : Bytes) : Prop :=
  text = v ∧ v ≠ [] ∧ BareOk started seen v ∨
    39 ∉ v ∧ (text = 39 :: v ∨ text = 39 :: (v ++ [39]))

/-- `n` bytes are left for the text of these fields, and it still reads as them. -/
def ReadsBack (started seen : Bool) (n : Nat) (ps : List (CStr × Bytes)) : Prop :=
  GoodValues started seen ps ∧ (kvpText kvpCtxInit ps).length ≤ n ∨
  ∃ init k v text, ps = init ++ [(k, v)] ∧ GoodValues started seen init ∧ n < (kvpText kvpCtxInit ps).length ∧
    (kvpText kvpCtxInit ps).take n = kvpText kvpCtxInit init ++ k.1 ++ 61 :: text ∧
    Reads (started || !init.isEmpty) (seen || init.any fun p => decide (32 ∈ p.2)) text v

/-! ## The text of a value -/

section Text

/-- A value with backslashes in front of its backslashes and single quotes. -/
def esc (v : Bytes) : Bytes := escaped (kvpEscape kvpCtxInit) v

theorem kvpEscape_init (c : UInt8) : kvpEscape kvpCtxInit c =
    if 128 ≤ c then .keep else if c = 92 then .pair 92 92 else if c = 39 then .pair 92 39
    else if c = 32 ∨ c = 0 then .quote else .keep := by
  unfold kvpEscape
  by_cases h1 : 128 ≤ c
  · rw [if_pos h1, if_pos h1]
  rw [if_neg h1, if_neg h1]
  by_cases h2 : c = 92
  · subst h2
    rfl
  rw [if_neg (show ¬ c = kvpCtxInit.escape from h2), if_neg h2]
  by_cases h3 : c = 39
  · subst h3
    rfl
  rw [if_neg (show ¬ c = kvpCtxInit.quote from h3), if_neg h3]
  by_cases h4 : c = 32
  · simp [h4]
  by_cases h5 : c = 0
  · simp [h5, kvpCtxInit]
  · have hcontrol : ¬ (FALSE : CBool) = TRUE := by decide
    simp [h4, h5, hcontrol, kvpCtxInit]

theorem escapes_init : Escapes (kvpEscape kvpCtxInit) c ↔ c = 92 ∨ c = 39 := by
  unfold Escapes
  rw [kvpEscape_init]
  constructor
  · rintro ⟨a, b, h⟩
    by_contra hc
    obtain ⟨h1, h2⟩ := not_or.mp hc
    rw [if_neg h1, if_neg h2] at h
    split at h
    · cases h
    · split at h <;> cases h
  · rintro (rfl | rfl)
    · exact ⟨92, 92, rfl⟩
    · exact ⟨92, 39, rfl⟩

theorem quote_init (h0 : c ≠ 0) : kvpEscape kvpCtxInit c = .quote ↔ c = 32 := by
  rw [kvpEscape_init]
  constructor
  · intro h
    by_contra hc
    have hno : ¬ (c = 32 ∨ c = 0) := fun h => h.elim hc h0
    rw [if_neg hno] at h
    split at h
    · cases h
    · split at h
      · cases h
      · split at h <;> cases h
  · rintro rfl
    rfl

theorem any_quote_init (h0 : 0 ∉ v) : (v.any fun c => kvpEscape kvpCtxInit c = .quote) = decide (32 ∈ v) := by
  rw [Bool.eq_iff_iff, any_eq_true, decide_eq_true_eq]
  constructor
  · rintro ⟨c, hc, h⟩
    have hne : c ≠ 0 := fun he => h0 (he ▸ hc)
    rw [← (quote_init hne).mp (of_decide_eq_true h)]
    exact hc
  · intro h
    exact ⟨32, h, rfl⟩

@[simp] theorem esc_nil : esc [] = [] := rfl

theorem esc_escaped (v : Bytes) (h : c = 92 ∨ c = 39) : esc (c :: v) = 92 :: c :: esc v := by
  rcases h with rfl | rfl
  · rfl
  · rfl

theorem esc_plain (v : Bytes) (h : ¬ (c = 92 ∨ c = 39)) : esc (c :: v) = c :: esc v := by
  rw [esc, escaped_cons, escaped_same (mt escapes_init.mp h)]
  rfl

theorem mem_esc (h : c ∈ esc v) : c = 92 ∨ c ∈ v := by
  induction v with
  | nil => exact .inr h
  | cons d v ih =>
    have htail : c ∈ esc v → c = 92 ∨ c ∈ d :: v := fun h => (ih h).imp_right (mem_cons_of_mem _)
    by_cases hd : d = 92 ∨ d = 39
    · rw [esc_escaped v hd, mem_cons, mem_cons] at h
      rcases h with h | h | h
      · exact .inl h
      · exact .inr (h ▸ mem_cons_self)
      · exact htail h
    · rw [esc_plain v hd, mem_cons] at h
      rcases h with h | h
      · exact .inr (h ▸ mem_cons_self)
      · exact htail h

/-- The text starts as the value does, or with a backslash. -/
theorem head_esc (h : (esc v ++ X).head? = some c) : c = 92 ∨ v.head? = some c ∨ v = [] ∧
    X.head? = some c := by
  cases v with
  | nil => exact .inr (.inr ⟨rfl, h⟩)
  | cons d v =>
    by_cases hd : d = 92 ∨ d = 39
    · rw [esc_escaped v hd] at h
      cases h
      exact .inl rfl
    · rw [esc_plain v hd] at h
      exact .inr (.inl h)

theorem esc_of_plain (h1 : 92 ∉ v) (h2 : 39 ∉ v) : esc v = v := by
  apply escaped_of_none
  intro c hc
  rw [escapes_init]
  rintro (rfl | rfl)
  · exact h1 hc
  · exact h2 hc

theorem plain_of_esc (h : esc v = v) : 92 ∉ v ∧ 39 ∉ v := by
  have hno : ∀ c ∈ v, ¬ Escapes (kvpEscape kvpCtxInit) c := by
    intro c hc he
    have := lt_length_escaped ⟨c, hc, he⟩
    rw [show escaped (kvpEscape kvpCtxInit) v = v from h] at this
    omega
  exact ⟨fun hc => hno 92 hc (escapes_init.mpr (.inl rfl)), fun hc => hno 39 hc (escapes_init.mpr (.inr rfl))⟩

/-- Behind a run of backslashes the escaped text lags. -/
theorem esc_behind {d : UInt8} {t : Bytes} {n : Nat} (h : t ++ [d] <+: replicate (n + 1) 92 ++
    esc t) : d = 92 := by
  induction t generalizing n with
  | nil =>
    rw [replicate_succ, cons_append, nil_append, cons_prefix_cons] at h
    exact h.1
  | cons c t ih =>
    rw [replicate_succ, cons_append, cons_append, cons_prefix_cons] at h
    obtain ⟨rfl, h⟩ := h
    have hshift : replicate n 92 ++ esc (92 :: t) = replicate (n + 1 + 1) 92 ++ esc t := by
      rw [esc_escaped t (.inl rfl), replicate_succ', replicate_succ', append_assoc, append_assoc]
      rfl
    rw [hshift] at h
    exact ih h

/-- A value is followed, in its own escaped text, by a backslash only. -/
theorem esc_follow {d : UInt8} {v : Bytes} (h : v ++ [d] <+: esc v) : d = 92 := by
  induction v with
  | nil =>
    have := h.length_le
    simp at this
  | cons c v ih =>
    by_cases hc : c = 92 ∨ c = 39
    · rw [esc_escaped v hc, cons_append, cons_prefix_cons] at h
      obtain ⟨rfl, h⟩ := h
      exact esc_behind (n := 0) h
    · rw [esc_plain v hc, cons_append, cons_prefix_cons] at h
      exact ih h.2

theorem valueText_noSpace (h0 : 0 ∉ v) (h : 32 ∉ v) : valueText kvpCtxInit v = esc v := by
  refine valueText_bare ?_
  rw [any_quote_init h0]
  exact decide_eq_false h

/-- The text of a value: escaped, and in quotes if it has a space, as far as these
go below the limit. -/
theorem valueText_cases (h0 : 0 ∉ v) :
    valueText kvpCtxInit v = esc v ∨
      32 ∈ v ∧ (valueText kvpCtxInit v = 39 :: esc v ∨ valueText kvpCtxInit v = 39 :: (esc v ++ [39])) := by
  by_cases h : 32 ∈ v
  · have hany : (v.any fun c => kvpEscape kvpCtxInit c = .quote) = true := by
      rw [any_quote_init h0]
      exact decide_eq_true h
    have htext : valueText kvpCtxInit v =
        appendCut (if (esc v).length < stringLimit - 1 then 39 :: esc v else esc v) [39] := by
      rw [valueText, if_pos hany]
      rfl
    rw [htext]
    by_cases hroom : (esc v).length < stringLimit - 1
    · rw [if_pos hroom]
      refine .inr ⟨h, ?_⟩
      by_cases hlast : (esc v).length + 1 < stringLimit - 1
      · rw [appendCut_of_lt (by rw [length_cons, length_singleton]; omega)]
        exact .inr rfl
      · rw [appendCut, length_cons,
          show stringLimit - 1 - ((esc v).length + 1) = 0 by omega, take_zero, append_nil]
        exact .inl rfl
    · rw [if_neg hroom, appendCut, show stringLimit - 1 - (esc v).length = 0 by omega, take_zero,
        append_nil]
      exact .inl rfl
  · exact .inl (valueText_noSpace h0 h)

theorem valueText_space (h0 : 0 ∉ v) (h : 32 ∈ v) (hlen : (valueText kvpCtxInit v).length + 1 < stringLimit) :
    valueText kvpCtxInit v = 39 :: (esc v ++ [39]) := by
  refine valueText_quoted ?_ hlen
  rw [any_quote_init h0]
  exact decide_eq_true h

theorem zero_not_mem_valueText (h0 : 0 ∉ v) : 0 ∉ valueText kvpCtxInit v := by
  have hesc : 0 ∉ esc v := fun hc => (mem_esc hc).elim (by decide) h0
  rcases valueText_cases h0 with h | ⟨-, h | h⟩
  · rw [h]
    exact hesc
  · rw [h]
    simp [hesc]
  · rw [h]
    simp [hesc]

/-- Two texts cut at the first occurrence of a byte. -/
theorem split_at_first {a b x y : Bytes} (h : a ++ c :: x = b ++ c :: y) (ha : c ∉ a) (hb : c ∉ b) :
    a = b ∧ x = y := by
  induction a generalizing b with
  | nil =>
    cases b with
    | nil => exact ⟨rfl, (cons.inj h).2⟩
    | cons d b => exact absurd (cons.inj h).1 fun he => hb (he ▸ mem_cons_self)
  | cons d a ih =>
    cases b with
    | nil => exact absurd (cons.inj h).1 fun he => ha (he ▸ mem_cons_self)
    | cons e b =>
      obtain ⟨rfl, htail⟩ := cons.inj h
      obtain ⟨rfl, rfl⟩ := ih htail (fun hc => ha (mem_cons_of_mem _ hc)) fun hc => hb (mem_cons_of_mem _ hc)
      exact ⟨rfl, rfl⟩

end Text

/-! ## What a returning parse has read

The parser runs with the setter that accepts just the fields that were written. -/

section Inversion

variable {ctx c' : KvpCtx} {k : CStr} {v src : Bytes} {gv : Bool} {rest : List (CStr × NxValue)}

/-- Behind a value: the end of the text after the last field, or a delimiter and a
text from which the parse goes on with the other fields. -/
def GoesOn (src : Bytes) (c' : KvpCtx) (k : CStr) (rest : List (CStr × NxValue)) (ctx : KvpCtx)
    (tail : Bytes) : Prop :=
  tail = [] ∧ rest = [] ∨
  ∃ d t gv, tail = d :: t ∧ ends ctx d ∧
    parseFrom expect src (kvpStart rest { ctx with kvpdelimiter := d } k.1 false gv) t = .ok ([], c')

theorem expect_bind {α : Type} {u : Bytes} {f : List (CStr × NxValue) → Res α} {a : α}
    (h : (expect ((k, strValue v) :: rest) k (strValue u) >>= f) = .ok a) : u = v ∧ f rest = .ok a := by
  by_cases heq : u = v
  · subst heq
    rw [expect_ok] at h
    exact ⟨rfl, h⟩
  · have hne : (k, strValue v) ≠ (k, strValue u) := fun he =>
      heq (strValue_inj.mp (Prod.ext_iff.mp he).2).symm
    rw [expect_ne hne] at h
    cases h

/-- The longest part of a text that satisfies a test. -/
theorem span_exists (p : UInt8 → Bool) (X : Bytes) : ∃ u t, X = u ++ t ∧ (∀ c ∈ u, p c = true) ∧
    ∀ c, t.head? = some c → p c = false := by
  refine ⟨X.takeWhile p, X.dropWhile p, takeWhile_append_dropWhile.symm, ?_, ?_⟩
  · intro c hc
    exact mem_takeWhile_imp hc
  · intro c hc
    have := head?_dropWhile_not p X
    rw [hc] at this
    simpa using this

theorem KeyOk.withQuote (hk : KeyOk ctx k) (q : UInt8) : KeyOk { ctx with valquotechar := q } k :=
  ⟨hk.nonempty, hk.short, hk.alnum, hk.apart⟩

/-- A value starts with what is neither a quote nor, outside of quotes, its end. -/
theorem inValue_inv {as : List (CStr × NxValue)} (hesc : ctx.escapechar = 0) (h0 : 0 ∉ X)
    (hlen : X.length < stringLimit) (h : parseFrom expect src (inValue as ctx k gv []) X = .ok ([],
    c')) : ∃ u t, X = u ++ t ∧ (∀ c ∈ u, PlainByte ctx gv c) ∧
      (∀ c, t.head? = some c → c = ctx.valquotechar ∨ gv = false ∧ ends ctx c) ∧
      parseFrom expect src (inValue as ctx k gv u) t = .ok ([], c') := by
  obtain ⟨u, t, rfl, hu, ht⟩ :=
    span_exists (fun c => c ≠ ctx.valquotechar ∧ (gv = false → ends ctx c = false)) X
  have hplain : ∀ c ∈ u, PlainByte ctx gv c := by
    intro c hc
    obtain ⟨hq, hend⟩ := of_decide_eq_true (hu c hc)
    refine ⟨hq, ?_, hend⟩
    rw [hesc]
    rintro rfl
    exact h0 (mem_append_left _ hc)
  rw [length_append] at hlen
  have hrun : run (kvpStep expect) (inValue as ctx k gv []) u = .ok (inValue as ctx k gv u) :=
    run_plain hplain (by rw [length_nil]; omega)
  rw [parseFrom_append, hrun, ok_bind] at h
  refine ⟨u, t, rfl, hplain, fun c hc => ?_, h⟩
  simpa [or_iff_not_imp_left] using of_decide_eq_false (ht c hc)

theorem inValue_bare_inv (hk : KeyOk ctx k) (hesc : ctx.escapechar = 0) (h0 : 0 ∉ X)
    (hlen : X.length < stringLimit) (hhead : X.head? ≠ some ctx.valquotechar)
    (h : parseFrom expect src (inValue ((k, strValue v) :: rest) ctx k false []) X = .ok ([], c')) :
    ∃ tail, X = v ++ tail ∧ (∀ c ∈ v, c ≠ ctx.valquotechar ∧ ends ctx c = false) ∧
    GoesOn src c' k rest ctx tail := by
  obtain ⟨u, t, rfl, hplain, ht, h⟩ := inValue_inv hesc h0 hlen h
  have hu : ∀ c ∈ u, c ≠ ctx.valquotechar ∧ ends ctx c = false := fun c hc =>
    ⟨(hplain c hc).1, (hplain c hc).2.2 rfl⟩
  cases t with
  | nil =>
    rw [parseFrom_nil hk (.inl rfl)] at h
    obtain ⟨rfl, hend⟩ := expect_bind h
    cases hend
    exact ⟨[], rfl, hu, .inl ⟨rfl, rfl⟩⟩
  | cons d t =>
    by_cases hq : d = ctx.valquotechar
    · -- a quote inside a value is an error; in front of it, it would not be inside
      have hne : u ≠ [] := by
        rintro rfl
        exact hhead (by rw [hq]; rfl)
      have hthrow : kvpStep expect (inValue ((k, strValue v) :: rest) ctx k false u) d =
          Res.throw ("invalid value quotation in key-value pair: " ++ cText u) := by
        subst hq
        simp [kvpStep, inValue, valueByte, length_pos_iff.mpr hne]
      rw [parseFrom_cons, hthrow] at h
      cases h
    · have hd : ends ctx d := ((ht d rfl).resolve_left hq).2
      rw [parseFrom_cons, kvpStep_end hk hd hq, bind_assoc] at h
      obtain ⟨rfl, hgo⟩ := expect_bind h
      exact ⟨d :: t, rfl, hu, .inr ⟨d, t, false, rfl, hd, hgo⟩⟩

theorem afterValue_inv (hk : KeyOk ctx k) {u X : Bytes}
    (h : parseFrom expect src (afterValue ((k, strValue v) :: rest) ctx k true u) X = .ok ([],
    c')) : u = v ∧ ∃ junk tail, X = junk ++ tail ∧ (∀ c ∈ junk, ends ctx c = false) ∧
    GoesOn src c' k rest ctx tail := by
  obtain ⟨junk, t, rfl, hj, ht⟩ := span_exists (fun c => !ends ctx c) X
  have hj' : ∀ c ∈ junk, ends ctx c = false := by
    intro c hc
    simpa using hj c hc
  rw [parseFrom_append, run_junk hj', ok_bind] at h
  cases t with
  | nil =>
    rw [parseFrom_nil hk (.inr rfl)] at h
    obtain ⟨rfl, hend⟩ := expect_bind h
    cases hend
    exact ⟨rfl, junk, [], rfl, hj', .inl ⟨rfl, rfl⟩⟩
  | cons d t =>
    have hd : ends ctx d := by simpa using ht d rfl
    rw [parseFrom_cons, kvpStep_afterEnd hk hd, bind_assoc] at h
    obtain ⟨rfl, hgo⟩ := expect_bind h
    exact ⟨rfl, junk, d :: t, rfl, hj', .inr ⟨d, t, true, rfl, hd, hgo⟩⟩

theorem inValue_quoted_inv (hk : KeyOk ctx k) (hesc : ctx.escapechar = 0) (h0 : 0 ∉ X)
    (hlen : X.length < stringLimit)
    (h : parseFrom expect src (inValue ((k, strValue v) :: rest) ctx k true []) X = .ok ([], c')) :
    ctx.valquotechar ∉ v ∧
      (X = v ∧ rest = [] ∨ ∃ junk tail, X = v ++ ctx.valquotechar :: (junk ++ tail) ∧
        (∀ c ∈ junk, ends ctx c = false) ∧ GoesOn src c' k rest ctx tail) := by
  obtain ⟨u, t, rfl, hplain, ht, h⟩ := inValue_inv hesc h0 hlen h
  have hnot : ctx.valquotechar ∉ u := fun hc => (hplain _ hc).1 rfl
  cases t with
  | nil =>
    rw [parseFrom_nil hk (.inl rfl)] at h
    obtain ⟨rfl, hend⟩ := expect_bind h
    cases hend
    exact ⟨hnot, .inl ⟨append_nil _, rfl⟩⟩
  | cons d t =>
    have hd : d = ctx.valquotechar := by simpa using ht d rfl
    subst hd
    rw [parseFrom_cons, kvpStep_close, ok_bind] at h
    obtain ⟨rfl, junk, tail, rfl, hj, hgo⟩ := afterValue_inv hk h
    exact ⟨hnot, .inr ⟨junk, tail, rfl, hj, hgo⟩⟩

theorem parseFrom_spaces {σ : Type} {set : Setter σ} {r : σ} (n : Nat) (X : Bytes) :
    parseFrom set src (atValue r ctx k gv) (replicate n 32 ++ X) = parseFrom set src
    (atValue r ctx k gv) X := by
  induction n with
  | zero => rfl
  | succ n ih =>
    rw [replicate_succ, cons_append, parseFrom_cons]
    exact ih

/-- Behind a key: spaces, and then the value without quotes, or in the quotes that
its first byte opens. -/
theorem atValue_inv (hk : KeyOk ctx k) (hesc : ctx.escapechar = 0) (h0 : 0 ∉ X)
    (hlen : X.length < stringLimit)
    (h : parseFrom expect src (atValue ((k, strValue v) :: rest) ctx k gv) X = .ok ([], c')) :
    ∃ n Y, X = replicate n 32 ++ Y ∧ ∃ q, Y.head? = some q ∧ q ≠ 32 ∧
      (opens ctx q = false ∧ (∃ tail, Y = v ++ tail ∧
          (∀ c ∈ v, c ≠ ctx.valquotechar ∧ ends ctx c = false) ∧ GoesOn src c' k rest ctx tail) ∨
       opens ctx q ∧ q ∉ v ∧ (Y = q :: v ∧ rest = [] ∨ ∃ junk tail, Y = q :: (v ++ q :: (junk ++ tail)) ∧
          (∀ c ∈ junk, ends ctx c = false) ∧ GoesOn src c' k rest { ctx with valquotechar := q } tail)) := by
  obtain ⟨sp, Y, rfl, hsp, hY⟩ := span_exists (fun c => c = 32) X
  have hrep : sp = replicate sp.length 32 := by
    refine eq_replicate_of_mem ?_
    intro c hc
    simpa using hsp c hc
  refine ⟨sp.length, Y, by rw [← hrep], ?_⟩
  rw [hrep, parseFrom_spaces] at h
  rw [length_append] at hlen
  have h0Y : 0 ∉ Y := fun hc => h0 (mem_append_right _ hc)
  cases Y with
  | nil => cases h
  | cons q t =>
    have hq32 : q ≠ 32 := by simpa using hY q rfl
    refine ⟨q, rfl, hq32, ?_⟩
    cases ho : opens ctx q with
    | false =>
      rw [parseFrom_bare ho hq32] at h
      obtain ⟨-, hne⟩ := not_or.mp (of_decide_eq_false ho)
      refine .inl ⟨rfl, inValue_bare_inv hk hesc h0Y (by omega) ?_ h⟩
      rintro ⟨⟩
      exact hne rfl
    | true =>
      rw [parseFrom_open ho hq32] at h
      rw [length_cons] at hlen
      obtain ⟨hnot, hcase⟩ := inValue_quoted_inv (hk.withQuote q) hesc (fun hc =>
        h0Y (mem_cons_of_mem _ hc)) (by omega) h
      refine .inr ⟨rfl, hnot, ?_⟩
      rcases hcase with ⟨rfl, hr⟩ | ⟨junk, tail, rfl, hj, hgo⟩
      · exact .inl ⟨rfl, hr⟩
      · exact .inr ⟨junk, tail, rfl, hj, hgo⟩

end Inversion

/-! ## The context as it is detected -/

/-- Before the first pair nothing is known; behind it both delimiters are; the quote
is known once a value was in quotes. -/
def detected (started seen : Bool) : KvpCtx :=
  ⟨if started then 61 else 0, if started then 59 else 0, 0, if seen then 39 else 0, 0, FALSE⟩

theorem detected_init : detected false false = kvpCtxInit := rfl

def behindKey (started seen : Bool) : KvpCtx := { detected started seen with kvdelimiter := 61 }

def AlnumKey (k : CStr) : Prop := k.1 ≠ [] ∧ k.1.length ≤ 255 ∧ ∀ c ∈ k.1, isAlnum c

section Detected

variable {started seen : Bool} {k : CStr} {v : Bytes} {c : UInt8}

theorem ends_behindKey : ends (behindKey started seen) c = true ↔
    c = 59 ∨ started = false ∧ (c = 44 ∨ c = 32 ∨ c = 0) := by
  cases started with
  | false =>
    simp [ends, behindKey, detected, isKvpDelimiterChar]
    tauto
  | true => simp [ends, behindKey, detected]

theorem opens_behindKey : opens (behindKey started seen) c = true ↔ c = 39 ∨ seen = false ∧
    (c = 34 ∨ c = 0) := by
  cases seen with
  | false =>
    simp [opens, behindKey, detected, isQuoteChar]
    tauto
  | true => simp [opens, behindKey, detected]

theorem behindKey_valquotechar : (behindKey started seen).valquotechar = if seen then 39 else 0 := rfl

theorem behindKey_end (started seen : Bool) : { behindKey started seen with kvpdelimiter := 59 } =
    detected true seen := by
  cases started <;> cases seen <;> rfl

theorem behindKey_quote_end (started seen : Bool) :
    { behindKey started seen with kvpdelimiter := 59, valquotechar := 39 } = detected true true := by
  cases started <;> cases seen <;> rfl

theorem AlnumKey.keyOk {ctx : KvpCtx} (h : AlnumKey k) (hctx : ∀ d ∈ [ctx.kvdelimiter,
    ctx.kvpdelimiter, ctx.keyquotechar, ctx.escapechar], isAlnum d = false) : KeyOk ctx k := by
  refine ⟨h.1, h.2.1, h.2.2, ?_⟩
  intro c hc
  have hne : ∀ d ∈ [ctx.kvdelimiter, ctx.kvpdelimiter, ctx.keyquotechar, ctx.escapechar], c ≠ d :=
    fun d hd => isAlnum_ne (h.2.2 c hc) (hctx d hd)
  simpa using hne

theorem AlnumKey.detected (h : AlnumKey k) : KeyOk (detected started seen) k :=
  h.keyOk (by cases started <;> decide +revert +kernel)

theorem AlnumKey.behindKey (h : AlnumKey k) : KeyOk (behindKey started seen) k :=
  h.keyOk (by cases started <;> decide +revert +kernel)

theorem BareOk.plain (h : BareOk started seen v) (h0 : 0 ∉ v) :
    ∀ c ∈ v, PlainByte (behindKey started seen) false c := by
  obtain ⟨-, -, hquote, h59, hfirst⟩ := h
  intro c hc
  have hc0 : c ≠ 0 := fun he => h0 (he ▸ hc)
  refine ⟨?_, hc0, fun _ => ?_⟩
  · rw [behindKey_valquotechar]
    cases seen with
    | false => exact hc0
    | true =>
      rintro rfl
      exact hquote rfl hc
  · rw [Bool.eq_false_iff, Ne, ends_behindKey]
    rintro (rfl | ⟨hs, rfl | rfl | rfl⟩)
    · exact h59 hc
    · exact (hfirst hs).1 hc
    · exact (hfirst hs).2 hc
    · exact h0 hc

theorem BareOk.head (h : BareOk started seen v) (h0 : 0 ∉ v) (hc : v.head? = some c) :
    opens (behindKey started seen) c = false ∧ c ≠ 32 := by
  obtain ⟨h32, hnew, hquote, -, -⟩ := h
  have hmem : c ∈ v := mem_of_mem_head? hc
  rw [hc] at h32 hnew
  refine ⟨?_, fun he => h32 (by rw [he])⟩
  rw [Bool.eq_false_iff, Ne, opens_behindKey]
  rintro (rfl | ⟨hs, rfl | rfl⟩)
  · cases seen with
    | false => exact (hnew rfl).2 rfl
    | true => exact hquote rfl hmem
  · exact (hnew hs).1 rfl
  · exact h0 hmem

/-- What a returning parse tells about a value without quotes. -/
theorem bareOk_of_inv (hc : (v ++ tail).head? = some c) (h32 : c ≠ 32)
    (ho : opens (behindKey started seen) c = false)
    (hv : ∀ d ∈ v, d ≠ (behindKey started seen).valquotechar ∧
    ends (behindKey started seen) d = false) : BareOk started seen v := by
  rw [Bool.eq_false_iff, Ne, opens_behindKey, not_or] at ho
  have hhead : ∀ d, v.head? = some d → d = c := by
    intro d hd
    rw [head?_append, hd] at hc
    exact Option.some.inj hc
  have hends : ∀ d ∈ v, ¬ (d = 59 ∨ started = false ∧ (d = 44 ∨ d = 32 ∨ d = 0)) := by
    intro d hd he
    have := (hv d hd).2
    rw [ends_behindKey.mpr he] at this
    cases this
  refine ⟨fun h => h32 (hhead 32 h).symm, ?_, ?_, fun h => hends 59 h (.inl rfl), ?_⟩
  · intro hs
    exact ⟨fun h => ho.2 ⟨hs, .inl (hhead 34 h).symm⟩, fun h => ho.1 (hhead 39 h).symm⟩
  · intro hs h
    exact (hv 39 h).1 (by rw [behindKey_valquotechar, hs]; rfl)
  · intro hs
    exact ⟨fun h => hends 44 h (.inr ⟨hs, .inl rfl⟩), fun h => hends 32 h (.inr ⟨hs, .inr (.inl rfl)⟩)⟩

theorem GoodValue.bareOk (h : GoodValue started seen v) (h32 : 32 ∉ v) : BareOk started seen v := by
  obtain ⟨-, h39, hs | ⟨h59, h44, h34⟩⟩ := h
  · exact absurd hs h32
  · refine ⟨fun hc => h32 (mem_of_mem_head? hc), fun hs => ⟨h34 hs, ?_⟩, fun _ => h39, h59,
      fun hs => ⟨h44 hs, h32⟩⟩
    exact fun hc => h39 (mem_of_mem_head? hc)

end Detected

/-! ## Good values are read back -/

section Forward

variable {σ : Type} {set : Setter σ} {r : σ} {ctx : KvpCtx} {k : CStr} {v src : Bytes} {gv : Bool}
  {started seen : Bool}

theorem parseFrom_bareText (hplain : ∀ c ∈ v, PlainByte ctx false c) (hlen : v.length < stringLimit)
    (hc : (v ++ tail).head? = some c) (ho : opens ctx c = false) (h32 : c ≠ 32) :
    parseFrom set src (atValue r ctx k gv) (v ++ tail) = parseFrom set src (inValue r ctx k false v) tail := by
  have hrun : run (kvpStep set) (inValue r ctx k false []) v = .ok (inValue r ctx k false v) :=
    run_plain hplain (by rw [length_nil]; omega)
  exact parseFrom_bareRun hrun hc ho h32

/-- A text behind a single quote, in front of what may be another one. -/
theorem parseFrom_quotedText (h39 : 39 ∉ v) (h0 : 0 ∉ v) (hlen : v.length < stringLimit) :
    parseFrom set src (atValue r (behindKey started seen) k gv) (39 :: (v ++ tail)) =
      parseFrom set src (inValue r { behindKey started seen with valquotechar := 39 } k true v) tail := by
  have hplain : ∀ c ∈ v, PlainByte { behindKey started seen with valquotechar := 39 } true c := by
    intro c hc
    refine ⟨?_, ?_, fun hg => nomatch hg⟩
    · rintro rfl
      exact h39 hc
    · rintro rfl
      exact h0 hc
  have hrun : run (kvpStep set) (inValue r { behindKey started seen with valquotechar := 39 } k true
      []) v = .ok (inValue r { behindKey started seen with valquotechar := 39 } k true v) :=
    run_plain hplain (by rw [length_nil]; omega)
  rw [parseFrom_open (opens_behindKey.mpr (.inl rfl)) (by decide), parseFrom_append, hrun, ok_bind]

theorem parseFrom_closedText (h39 : 39 ∉ v) (h0 : 0 ∉ v) (hlen : v.length < stringLimit) :
    parseFrom set src (atValue r (behindKey started seen) k gv) (39 :: (v ++ 39 :: tail)) =
      parseFrom set src (afterValue r { behindKey started seen with valquotechar := 39 } k true v) tail := by
  have hclose : kvpStep set (inValue r { behindKey started seen with valquotechar := 39 } k true v) 39 =
      .ok (afterValue r { behindKey started seen with valquotechar := 39 } k true v) := kvpStep_close
  rw [parseFrom_quotedText h39 h0 hlen, parseFrom_cons, hclose, ok_bind]

theorem parseFrom_key_detected (hk : AlnumKey k) {key text : Bytes} {gk : Bool} :
    parseFrom set src (kvpStart r (detected started seen) key gk gv) (k.1 ++ 61 :: text) =
      parseFrom set src (atValue r (behindKey started seen) k gv) text := by
  refine parseFrom_key hk.detected ?_ (show (61 : UInt8) ≠ 0 by decide) text
  cases started with
  | false => exact .inr ⟨rfl, rfl⟩
  | true => exact .inl rfl

theorem parseFrom_goodPair (set : Setter σ) (r : σ) (src X key : Bytes) (gk gv : Bool) (hk : AlnumKey k)
    (hv : GoodValue started seen v) (h0 : 0 ∉ v) (hlen : (valueText kvpCtxInit v).length + 1 < stringLimit) :
    parseFrom set src (kvpStart r (detected started seen) key gk gv)
      (pairText kvpCtxInit (k, v) ++ X) = set r k (strValue v) >>= fun r' => parseFrom set src
        (kvpStart r' (detected true (seen || decide (32 ∈ v))) k.1 false (decide (32 ∈ v))) X := by
  have htext : pairText kvpCtxInit (k, v) ++ X = k.1 ++ 61 :: (valueText kvpCtxInit v ++ 59 :: X) := by
    simp [pairText, kvpCtxInit, KvpCtx.kvdelim, KvpCtx.kvpdelim]
  have hesc : esc v = v := esc_of_plain hv.1 hv.2.1
  have hvlen : v.length < stringLimit := by
    have := length_le_valueText kvpCtxInit v
    omega
  have hend : ends (behindKey started seen) 59 := ends_behindKey.mpr (.inl rfl)
  rw [htext, parseFrom_key_detected hk]
  by_cases h32 : 32 ∈ v
  · have hk' : KeyOk { behindKey started seen with valquotechar := 39 } k := KeyOk.withQuote hk.behindKey 39
    rw [valueText_space h0 h32 hlen, hesc, cons_append, append_assoc, singleton_append,
      parseFrom_closedText hv.2.1 h0 hvlen, parseFrom_cons, kvpStep_afterEnd hk' hend,
      decide_eq_true h32, Bool.or_true,
      ← behindKey_quote_end started seen]
    cases set r k (strValue v) <;> rfl
  · have hbare := hv.bareOk h32
    have hhead : ∃ c, (v ++ 59 :: X).head? = some c ∧ opens (behindKey started seen) c = false ∧ c ≠ 32 := by
      cases v with
      | nil =>
        refine ⟨59, rfl, ?_, by decide⟩
        cases seen <;> rfl
      | cons c v => exact ⟨c, rfl, hbare.head h0 rfl⟩
    obtain ⟨c, hc, ho, hc32⟩ := hhead
    have hq : (59 : UInt8) ≠ (behindKey started seen).valquotechar := by
      rw [behindKey_valquotechar]
      cases seen <;> decide
    rw [valueText_noSpace h0 h32, hesc, parseFrom_bareText (hbare.plain h0) hvlen hc ho hc32,
      parseFrom_cons, kvpStep_end hk.behindKey hend hq, decide_eq_false h32, Bool.or_false,
      ← behindKey_end started seen]
    cases set r k (strValue v) <;> rfl

/-- A list of pairs with good values, in front of any text. -/
theorem parseFrom_goodPairs (set : Setter σ) (src X : Bytes) (ps : List (CStr × Bytes))
    (started seen : Bool) (key : Bytes) (gk gv : Bool) (hps : ∀ p ∈ ps, AlnumKey p.1 ∧ 0 ∉ p.2)
    (hgood : GoodValues started seen ps) (hlen : (kvpText kvpCtxInit ps).length < stringLimit) :
    ∃ key' gk' gv', ∀ r : σ, parseFrom set src (kvpStart r (detected started seen) key gk gv) (kvpText
      kvpCtxInit ps ++ X) = setAll set r (assignments ps) >>= fun r' =>
        parseFrom set src (kvpStart r' (detected
      (started || !ps.isEmpty) (seen || ps.any fun p => decide (32 ∈ p.2))) key' gk' gv') X := by
  induction ps generalizing started seen key gk gv with
  | nil =>
    refine ⟨key, gk, gv, fun r => ?_⟩
    simp [kvpText, assignments]
  | cons p ps ih =>
    obtain ⟨k, v⟩ := p
    obtain ⟨hk, h0⟩ := hps (k, v) mem_cons_self
    obtain ⟨hvlen, hlen⟩ := kvpText_lt hlen
    obtain ⟨key', gk', gv', hrest⟩ := ih true (seen || decide (32 ∈ v)) k.1 false (decide (32 ∈ v))
      (forall_mem_cons.mp hps).2 hgood.2 hlen
    refine ⟨key', gk', gv', fun r => ?_⟩
    rw [kvpText, flatMap_cons, ← kvpText, append_assoc,
      parseFrom_goodPair set r src _ key gk gv hk hgood.1 h0 hvlen]
    simp only [assignments, map_cons, setAll_cons]
    cases set r k (strValue v) with
    | error e => rfl
    | ok r' =>
      rw [ok_bind, ok_bind]
      have := hrest r'
      simpa [assignments, Bool.or_assoc] using this

/-- The last pair, cut off where its value still reads as the value. -/
theorem parseFrom_lastPair (set : Setter σ) (r : σ) (src key : Bytes) (gk gv : Bool) (hk : AlnumKey k)
    {text : Bytes} (hr : Reads started seen text v) (h0 : 0 ∉ v) (hlen : v.length < stringLimit) :
    ∃ ctx', parseFrom set src (kvpStart r (detected started seen) key gk gv) (k.1 ++ 61 :: text) =
      set r k (strValue v) >>= fun r' => .ok (r', ctx') := by
  rw [parseFrom_key_detected hk]
  rcases hr with ⟨rfl, hne, hbare⟩ | ⟨h39, htext⟩
  · refine ⟨behindKey started seen, ?_⟩
    obtain ⟨c, hc⟩ : ∃ c, text.head? = some c := by
      cases text with
      | nil => exact absurd rfl hne
      | cons c t => exact ⟨c, rfl⟩
    obtain ⟨ho, h32⟩ := hbare.head h0 hc
    rw [← append_nil text] at hc
    have hread : parseFrom set src (atValue r (behindKey started seen) k gv) (text ++ []) =
        parseFrom set src (inValue r (behindKey started seen) k false text) [] :=
      parseFrom_bareText (hbare.plain h0) hlen hc ho h32
    rw [append_nil] at hread
    rw [hread, parseFrom_nil hk.behindKey (.inl rfl)]
  · refine ⟨{ behindKey started seen with valquotechar := 39 }, ?_⟩
    have hk' : KeyOk { behindKey started seen with valquotechar := 39 } k := KeyOk.withQuote hk.behindKey 39
    rcases htext with rfl | rfl
    · rw [← append_nil v, parseFrom_quotedText (by simpa using h39) (by simpa using h0) (by simpa using hlen)]
      rw [parseFrom_nil hk' (.inl rfl), append_nil]
    · rw [parseFrom_closedText h39 h0 hlen, parseFrom_nil hk' (.inr rfl)]

end Forward

/-! ## Only good values are read back -/

section Backward

variable {started seen : Bool} {k : CStr} {v src : Bytes} {gv : Bool} {rest : List (CStr × NxValue)}
  {c' : KvpCtx}

theorem replicate_append_head {c : UInt8} {X Y : Bytes} (h : X = replicate n c ++ Y)
    (hne : X.head? ≠ some c) : n = 0 := by
  cases n with
  | zero => rfl
  | succ n =>
    rw [h, replicate_succ] at hne
    exact absurd rfl hne

/-- Behind a key, a text in single quotes. -/
theorem quoted_inv (hk : AlnumKey k) (h0 : 0 ∉ X) (hlen : X.length < stringLimit)
    (h : parseFrom expect src (atValue ((k, strValue v) :: rest) (behindKey started seen) k gv) (39 :: X) =
      .ok ([], c')) :
    39 ∉ v ∧ 39 ∉ esc v ∧ (X = v ∧ rest = [] ∨ ∃ junk tail, X = v ++ 39 :: (junk ++ tail) ∧
      (∀ c ∈ junk, ends (behindKey started seen) c = false) ∧
      GoesOn src c' k rest { behindKey started seen with valquotechar := 39 } tail) := by
  rw [parseFrom_open (opens_behindKey.mpr (.inl rfl)) (by decide)] at h
  obtain ⟨h39, hcase⟩ := inValue_quoted_inv (KeyOk.withQuote hk.behindKey 39) rfl h0 hlen h
  exact ⟨h39, fun hc => (mem_esc hc).elim (by decide) h39, hcase⟩

/-- A pair that is there in full. -/
theorem fits_inv (hk : AlnumKey k) (h0 : 0 ∉ v) (h0X : 0 ∉ X)
    (hlen : (valueText kvpCtxInit v ++ 59 :: X).length < stringLimit)
    (h : parseFrom expect src (atValue ((k, strValue v) :: rest) (behindKey started seen) k gv)
      (valueText kvpCtxInit v ++ 59 :: X) = .ok ([], c')) :
    GoodValue started seen v ∧ ∃ gv',
      parseFrom expect src (kvpStart rest (detected true (seen || decide (32 ∈ v))) k.1 false gv') X
        = .ok ([], c') := by
  have h0T : 0 ∉ valueText kvpCtxInit v ++ 59 :: X := by
    rw [mem_append, mem_cons]
    rintro (hc | hc | hc)
    · exact zero_not_mem_valueText h0 hc
    · cases hc
    · exact h0X hc
  have hend : ends (behindKey started seen) 59 = true := ends_behindKey.mpr (.inl rfl)
  by_cases h32 : 32 ∈ v
  · have hroom : (valueText kvpCtxInit v).length + 1 < stringLimit := by
      rw [length_append, length_cons] at hlen
      omega
    rw [valueText_space h0 h32 hroom, cons_append] at h h0T hlen
    obtain ⟨h39, hesc39, hcase⟩ :=
      quoted_inv hk (fun hc => h0T (mem_cons_of_mem _ hc)) (Nat.lt_of_succ_lt hlen) h
    rw [append_assoc, singleton_append] at hcase
    rcases hcase with ⟨heq, -⟩ | ⟨junk, tail, heq, hjunk, hgo⟩
    · exact absurd (by rw [← heq]; simp) h39
    obtain ⟨hv, heq⟩ := split_at_first heq hesc39 h39
    have hplain := plain_of_esc hv
    refine ⟨⟨hplain.1, hplain.2, .inl h32⟩, ?_⟩
    cases junk with
    | cons c junk =>
      rw [cons_append, cons.injEq] at heq
      have := hjunk c mem_cons_self
      rw [← heq.1, hend] at this
      cases this
    | nil =>
      rw [nil_append] at heq
      rcases hgo with ⟨rfl, -⟩ | ⟨d, t, gv', rfl, -, hparse⟩
      · cases heq
      · cases heq
        refine ⟨gv', ?_⟩
        rw [decide_eq_true h32, Bool.or_true, ← behindKey_quote_end started seen]
        exact hparse
  · rw [valueText_noSpace h0 h32] at h h0T hlen
    obtain ⟨n, Y, hXY, q, hq, hq32, hcase⟩ := atValue_inv hk.behindKey rfl h0T hlen h
    have hn : n = 0 := by
      refine replicate_append_head hXY fun hhead => ?_
      rcases head_esc hhead with h | h | ⟨-, h⟩
      · cases h
      · exact h32 (mem_of_mem_head? h)
      · cases h
    subst hn
    rw [replicate_zero, nil_append] at hXY
    subst hXY
    rcases hcase with ⟨ho, tail, heq, hv, hgo⟩ | ⟨ho, hqv, -⟩
    · have hle : v.length ≤ (esc v).length := le_length_escaped _ v
      rw [heq] at hq
      have hbare := bareOk_of_inv hq hq32 ho hv
      rcases hgo with ⟨rfl, -⟩ | ⟨d, t, gv', rfl, hd, hparse⟩
      · have := congrArg length heq
        simp only [length_append, length_cons, length_nil] at this
        omega
      · by_cases hlt : v.length < (esc v).length
        · -- the value would end inside its own text
          have hpre : v ++ [d] <+: esc v := by
            have h1 : v ++ [d] <+: esc v ++ 59 :: X := ⟨t, by rw [heq]; simp⟩
            refine prefix_of_prefix_length_le h1 (prefix_append _ _) ?_
            rw [length_append, length_singleton]
            omega
          rw [esc_follow hpre, ends_behindKey] at hd
          exact absurd hd (by simp)
        · obtain ⟨hv', ht⟩ := append_inj heq (by omega)
          cases ht
          have hplain := plain_of_esc hv'
          obtain ⟨-, hnew, -, h59, hfirst⟩ := hbare
          refine ⟨⟨hplain.1, hplain.2, .inr ⟨h59, fun hs => (hfirst hs).1, fun hs => (hnew hs).1⟩⟩, gv', ?_⟩
          rw [decide_eq_false h32, Bool.or_false, ← behindKey_end started seen]
          exact hparse
    · -- a quote in front of the text would be part of the value
      exfalso
      rw [opens_behindKey] at ho
      rcases head_esc hq with rfl | h | ⟨-, h⟩
      · exact absurd ho (by simp)
      · exact hqv (mem_of_mem_head? h)
      · cases h
        exact absurd ho (by simp)

/-- A value that was read is no longer than the text. -/
theorem value_length_le (hk : AlnumKey k) (h0 : 0 ∉ X) (hlen : X.length < stringLimit)
    (h : parseFrom expect src (atValue ((k, strValue v) :: rest) (behindKey started seen) k gv) X =
      .ok ([], c')) :
    v.length ≤ X.length := by
  obtain ⟨n, Y, rfl, q, -, -, hcase⟩ := atValue_inv hk.behindKey rfl h0 hlen h
  rw [length_append]
  rcases hcase with ⟨-, tail, rfl, -⟩ | ⟨-, -, ⟨rfl, -⟩ | ⟨junk, tail, rfl, -⟩⟩
  · rw [length_append]
    omega
  · rw [length_cons]
    omega
  · rw [length_cons, length_append]
    omega

/-- A pair of which the end is missing. -/
theorem cut_inv (hk : AlnumKey k) (h0 : 0 ∉ v) (hX : X <+: valueText kvpCtxInit v)
    (hlen : X.length < stringLimit)
    (h : parseFrom expect src (atValue ((k, strValue v) :: rest) (behindKey started seen) k gv) X =
      .ok ([], c')) :
    rest = [] ∧ Reads started seen X v := by
  have h0X : 0 ∉ X := fun hc => zero_not_mem_valueText h0 (hX.subset hc)
  rcases valueText_cases h0 with htext | ⟨h32, htext⟩
  · rw [htext] at hX
    obtain ⟨n, Y, hXY, q, hq, hq32, hcase⟩ := atValue_inv hk.behindKey rfl h0X hlen h
    rcases hcase with ⟨ho, tail, rfl, hv, hgo⟩ | ⟨ho, hqv, -⟩
    · have hbare := bareOk_of_inv hq hq32 ho hv
      have hn : n = 0 := by
        refine replicate_append_head hXY fun hhead => ?_
        -- a space in front of the text is one in front of the value
        obtain ⟨z, hz⟩ := hX
        have hesc : (esc v ++ []).head? = some 32 := by rw [append_nil, ← hz, head?_append, hhead]; rfl
        rcases head_esc hesc with h | h | ⟨-, h⟩
        · cases h
        · exact hbare.1 h
        · cases h
      subst hn
      rw [replicate_zero, nil_append] at hXY
      subst hXY
      rcases hgo with ⟨rfl, hrest⟩ | ⟨d, t, gv', rfl, hd, -⟩
      · refine ⟨hrest, .inl ⟨append_nil v, ?_, hbare⟩⟩
        rintro rfl
        cases hq
      · have hpre : v ++ [d] <+: esc v := by
          refine List.IsPrefix.trans ⟨t, ?_⟩ hX
          simp
        rw [esc_follow hpre, ends_behindKey] at hd
        exact absurd hd (by simp)
    · exfalso
      have hmem : q ∈ esc v := by
        refine hX.subset ?_
        rw [hXY]
        exact mem_append_right _ (mem_of_mem_head? hq)
      rw [opens_behindKey] at ho
      rcases mem_esc hmem with rfl | hmem
      · exact absurd ho (by simp)
      · exact hqv hmem
  · -- in quotes
    have hX' : X <+: 39 :: (esc v ++ [39]) := by
      rcases htext with htext | htext
      · rw [htext] at hX
        exact hX.trans ⟨[39], rfl⟩
      · rw [htext] at hX
        exact hX
    cases X with
    | nil => cases h
    | cons c X =>
      rw [cons_prefix_cons] at hX'
      obtain ⟨rfl, hpre⟩ := hX'
      obtain ⟨h39, hesc39, hcase⟩ :=
        quoted_inv hk (fun hc => h0X (mem_cons_of_mem _ hc)) (Nat.lt_of_succ_lt hlen) h
      rcases hcase with ⟨rfl, hrest⟩ | ⟨junk, tail, rfl, -, hgo⟩
      · exact ⟨hrest, .inr ⟨h39, .inl rfl⟩⟩
      obtain ⟨z, hz⟩ := hpre
      rw [append_assoc, cons_append] at hz
      obtain ⟨-, hjunk⟩ := split_at_first hz h39 hesc39
      have hnil : junk = [] ∧ tail = [] := by
        have := (append_eq_nil_iff.mp hjunk).1
        exact append_eq_nil_iff.mp this
      obtain ⟨rfl, rfl⟩ := hnil
      rcases hgo with ⟨-, hrest⟩ | ⟨d, t, gv', hcons, -⟩
      · exact ⟨hrest, .inr ⟨h39, .inr rfl⟩⟩
      · cases hcons

end Backward

/-! ## Exactly the good values -/

theorem kvpText_cons (p : CStr × Bytes) (ps : List (CStr × Bytes)) :
    kvpText kvpCtxInit (p :: ps) = p.1.1 ++
    61 :: (valueText kvpCtxInit p.2 ++ 59 :: kvpText kvpCtxInit ps) := by
  simp [kvpText, pairText, kvpCtxInit, KvpCtx.kvdelim, KvpCtx.kvpdelim]

theorem zero_not_mem_kvpText (h : ∀ p ∈ ps, 0 ∉ p.2) : 0 ∉ kvpText kvpCtxInit ps := by
  induction ps with
  | nil => exact not_mem_nil
  | cons p ps ih =>
    have h1 := p.1.2
    have h2 := zero_not_mem_valueText (h p mem_cons_self)
    have h3 := ih (forall_mem_cons.mp h).2
    rw [kvpText_cons]
    simp [h1, h2, h3]

theorem forall₂_mem {α β : Type} {R : α → β → Prop} {as : List α} {bs : List β}
    (h : List.Forall₂ R as bs) {a : α}
    (ha : a ∈ as) : ∃ b ∈ bs, R a b := by
  induction h with
  | nil => cases ha
  | @cons a' b' as bs hab _ ih =>
    rcases mem_cons.mp ha with rfl | ha
    · exact ⟨b', mem_cons_self, hab⟩
    · obtain ⟨b, hb, hR⟩ := ih ha
      exact ⟨b, mem_cons_of_mem _ hb, hR⟩

theorem readsBack_cons {k : CStr} {j : Nat}
    (hgood : GoodValue started seen v) (h : ReadsBack true (seen || decide (32 ∈ v)) j ps) :
    ReadsBack started seen (k.1.length + ((valueText kvpCtxInit v).length + (j + 1) + 1)) ((k, v) :: ps) := by
  have hlen : (kvpText kvpCtxInit ((k, v) :: ps)).length =
      k.1.length + ((valueText kvpCtxInit v).length + (kvpText kvpCtxInit ps).length + 1 + 1) := by
    rw [kvpText_cons]
    simp only [length_append, length_cons]
    omega
  rcases h with ⟨hgs, hle⟩ | ⟨init, k', v', text, rfl, hgs, hlt, htext, hreads⟩
  · exact .inl ⟨⟨hgood, hgs⟩, by omega⟩
  · refine .inr ⟨(k, v) :: init, k', v', text, rfl, ⟨hgood, hgs⟩, by omega, ?_, ?_⟩
    · rw [kvpText_cons, kvpText_cons]
      rw [take_length_add_append, take_succ_cons, take_length_add_append, take_succ_cons, htext]
      simp
    · simpa [Bool.or_assoc] using hreads

/-- A text that reads back has room for its values. -/
theorem readsBack_short (hn : n < stringLimit)
    (h : ReadsBack started seen n ps) : ∀ p ∈ ps, p.2.length + 2 ≤ stringLimit := by
  have hpair : ∀ (qs : List (CStr × Bytes)) (q : CStr × Bytes), q ∈ qs →
      q.2.length + 2 ≤ (kvpText kvpCtxInit qs).length := by
    intro qs q hq
    have h1 := length_lt_kvpText kvpCtxInit hq
    have h2 := length_le_valueText kvpCtxInit q.2
    simp only [pairText, length_append, length_cons, length_nil] at h1
    omega
  intro p hp
  rcases h with ⟨-, hlen⟩ | ⟨init, k, v, text, rfl, -, -, htext, hreads⟩
  · have := hpair ps p hp
    omega
  have hlen := congrArg length htext
  simp only [length_take, length_append, length_cons] at hlen
  rcases mem_append.mp hp with hp | hp
  · have := hpair init p hp
    omega
  rw [mem_singleton.mp hp]
  dsimp only
  rcases hreads with ⟨rfl, -, -⟩ | ⟨-, rfl | rfl⟩
  · omega
  · rw [length_cons] at hlen
    omega
  · simp only [length_cons, length_append] at hlen
    omega

/-- If the parser returns with all fields set, the text read back. -/
theorem readsBack_of_parse {src : Bytes} {c' : KvpCtx} {qs ps : List (CStr × Bytes)} {started seen : Bool}
    {n : Nat} {key : Bytes} {gk gv : Bool} (hw : List.Forall₂ WrittenAs qs ps)
    (hps : ∀ p ∈ ps, AlnumKey p.1 ∧ 0 ∉ p.2) (hn : n < stringLimit)
    (h : parseFrom expect src (kvpStart (assignments ps) (detected started seen) key gk gv)
      ((kvpText kvpCtxInit qs).take n) = .ok ([], c')) :
    ReadsBack started seen n ps := by
  induction qs generalizing ps started seen n key gk gv with
  | nil =>
    cases hw
    exact .inl ⟨trivial, Nat.zero_le n⟩
  | cons q qs ih =>
    have hq0 : ∀ x ∈ q :: qs, 0 ∉ x.2 := by
      intro x hx hc
      obtain ⟨y, hy, hxy⟩ := forall₂_mem hw hx
      exact (hps y hy).2 (hxy.2.1.subset hc)
    cases hw with
    | @cons _ p _ ps hwrite hrest =>
    obtain ⟨k, v⟩ := p
    obtain ⟨kq, v'⟩ := q
    obtain ⟨hkq, -, hsame⟩ := hwrite
    dsimp only at hkq hsame
    subst hkq
    obtain ⟨hk, h0⟩ := hps (kq, v) mem_cons_self
    have hps' : ∀ p ∈ ps, AlnumKey p.1 ∧ 0 ∉ p.2 := (forall_mem_cons.mp hps).2
    rw [kvpText_cons] at h
    dsimp only at h
    by_cases hkey : n ≤ kq.1.length
    · -- the text ends in the name
      rw [take_append_of_le_length hkey] at h
      by_cases hn0 : kq.1.take n = []
      · rw [hn0] at h
        cases h
      · exact absurd h (parseFrom_keyPrefix hk.detected (List.take_prefix _ _) hn0 _)
    · obtain ⟨m, rfl⟩ : ∃ m, n = kq.1.length + (m + 1) := ⟨n - kq.1.length - 1, by omega⟩
      rw [take_length_add_append, take_succ_cons, parseFrom_key_detected hk] at h
      have h0' : 0 ∉ v' := hq0 (kq, v') mem_cons_self
      have h0qs : 0 ∉ kvpText kvpCtxInit qs :=
        zero_not_mem_kvpText (forall_mem_cons.mp hq0).2
      -- the value was read from the text, so it is short and was written as it is
      have hv : v' = v := by
        refine hsame ?_
        have h0X : 0 ∉ (valueText kvpCtxInit v' ++ 59 :: kvpText kvpCtxInit qs).take m := by
          intro hc
          have := mem_of_mem_take hc
          simp [zero_not_mem_valueText h0', h0qs] at this
        have hlenX : ((valueText kvpCtxInit v' ++ 59 :: kvpText kvpCtxInit qs).take m).length <
          stringLimit := by
          rw [length_take]
          omega
        have hle : v.length ≤ _ := value_length_le hk h0X hlenX h
        omega
      subst hv
      by_cases hfit : (valueText kvpCtxInit v').length + 1 ≤ m
      · obtain ⟨j, rfl⟩ : ∃ j, m = (valueText kvpCtxInit v').length + (j + 1) :=
          ⟨m - (valueText kvpCtxInit v').length - 1, by omega⟩
        rw [take_length_add_append, take_succ_cons] at h
        have h0X : 0 ∉ (kvpText kvpCtxInit qs).take j := fun hc => h0qs (mem_of_mem_take hc)
        have hlenX : (valueText kvpCtxInit v' ++ 59 :: (kvpText kvpCtxInit qs).take j).length <
          stringLimit := by
          rw [length_append, length_cons, length_take]
          omega
        obtain ⟨hgood, gv', hparse⟩ := fits_inv hk h0 h0X hlenX h
        exact readsBack_cons hgood (ih hrest hps' (by omega) hparse)
      · rw [take_append_of_le_length (by omega)] at h
        have hlenX : ((valueText kvpCtxInit v').take m).length < stringLimit := by
          rw [length_take]
          omega
        obtain ⟨hnil, hreads⟩ := cut_inv hk h0 (List.take_prefix _ _) hlenX h
        have hps : ps = [] := map_eq_nil_iff.mp hnil
        subst hps
        refine .inr ⟨[], kq, v', (valueText kvpCtxInit v').take m, rfl, trivial, ?_, ?_, ?_⟩
        · rw [kvpText_cons]
          simp only [length_append, length_cons]
          omega
        · rw [kvpText_cons]
          dsimp only
          rw [take_length_add_append, take_succ_cons, take_append_of_le_length (by omega)]
          rfl
        · simpa using hreads

/-- If the text reads back, the parser sets the fields, whatever the setter. -/
theorem parse_of_readsBack {σ : Type} (set : Setter σ) (r : σ) (src : Bytes)
    (hps : ∀ p ∈ ps, AlnumKey p.1 ∧ 0 ∉ p.2) (hn : n < stringLimit)
    (h : ReadsBack false false n ps) :
    (parseFrom set src (kvpStart r kvpCtxInit [] false false) ((kvpText kvpCtxInit ps).take n) >>=
      fun x => .ok x.1) =
      setAll set r (assignments ps) := by
  rcases h with ⟨hgood, hlen⟩ | ⟨init, k, v, text, rfl, hgood, -, htext, hreads⟩
  · obtain ⟨key, gk, gv, hparse⟩ :=
      parseFrom_goodPairs set src [] ps false false [] false false hps hgood (by omega)
    have := hparse r
    rw [append_nil, detected_init] at this
    rw [take_of_length_le hlen, this]
    cases setAll set r (assignments ps) <;> rfl
  · have hinit : ∀ p ∈ init, AlnumKey p.1 ∧ 0 ∉ p.2 := fun p hp => hps p (mem_append_left _ hp)
    obtain ⟨hk, h0⟩ := hps (k, v) (mem_append_right _ mem_cons_self)
    have hlen := congrArg length htext
    simp only [length_take, length_append, length_cons] at hlen
    have hv : v.length ≤ text.length := by
      rcases hreads with ⟨rfl, -, -⟩ | ⟨-, rfl | rfl⟩
      · exact Nat.le_refl _
      · simp
      · simp only [length_cons, length_append]
        omega
    obtain ⟨key, gk, gv, hparse⟩ :=
      parseFrom_goodPairs set src (k.1 ++ 61 :: text) init false false [] false false hinit hgood (by omega)
    have := hparse r
    rw [Bool.false_or, Bool.false_or] at hreads
    rw [Bool.false_or, Bool.false_or, detected_init] at this
    rw [htext, append_assoc, this]
    have hassign : assignments (init ++ [(k, v)]) = assignments init ++ [(k, strValue v)] := by
      simp [assignments]
    have hset : setAll set r (assignments (init ++ [(k, v)])) =
        setAll set r (assignments init) >>= fun r' => set r' k (strValue v) >>= fun r2 => .ok r2 := by
      rw [hassign]
      exact run_append _ _ r
    rw [hset]
    cases setAll set r (assignments init) with
    | error e => rfl
    | ok r' =>
      obtain ⟨ctx', hlast⟩ := parseFrom_lastPair set r' src key gk gv hk hreads h0 (by omega)
      rw [ok_bind, ok_bind, hlast]
      cases set r' k (strValue v) <;> rfl

/-- The parser with a fresh context sets exactly the written fields, in their order, to
their strings. -/
def KvpYields (env : TextEnv) (ld : Logdata) : Prop :=
  ∃ text, logdataToKvp env kvpCtxInit ld = .ok text ∧ ∀ (σ : Type) (set : Setter σ) (s : σ),
    (kvpParse set s kvpCtxInit (text ++ [0]) text.length >>= fun x => .ok x.1) =
      setAll set s (assignments (stringFields ld))

/-- The fields come back exactly if their text reads back, with what the string limit
leaves of it. In a record with different names they then have their strings, and the
other fields of the record stay as they are. -/
theorem kvp_detect_iff (env : TextEnv) (ld : Logdata) (hld : KvpRecord [] ld) :
    (KvpYields env ld ↔ ReadsBack false false (stringLimit - 1) (stringFields ld)) ∧
    (ReadsBack false false (stringLimit - 1) (stringFields ld) → DistinctNames ld →
      ∃ text, logdataToKvp env kvpCtxInit ld = .ok text ∧ ∀ s : Store, Usable s.ld →
        ∃ s' ctx', kvpParse storeSet s kvpCtxInit (text ++ [0]) text.length = .ok (s', ctx') ∧
          Assigned s.ld (assignments (stringFields ld)) s'.ld) := by
  have hl : stringLimit = 1048576 := rfl
  have hps : ∀ p ∈ stringFields ld, AlnumKey p.1 ∧ 0 ∉ p.2 := by
    intro p hp
    obtain ⟨f, hf, hw, hk⟩ := mem_stringFields hp
    obtain ⟨h1, h2, h3⟩ := hld.keys f hf hw
    rw [hk] at h1 h2 h3
    exact ⟨⟨h1, h2, fun c hc => (h3 c hc).1⟩, hld.values p hp⟩
  have hyields : ReadsBack false false (stringLimit - 1) (stringFields ld) → KvpYields env ld := by
    intro h
    have hwrite : logdataToKvp env kvpCtxInit ld =
        .ok ((kvpText kvpCtxInit (stringFields ld)).take (stringLimit - 1)) :=
      logdataToKvp_ok hld.strings (readsBack_short (by omega) h)
    refine ⟨_, hwrite, ?_⟩
    intro σ set s
    rw [kvpParse_text set s kvpCtxInit (by rw [length_take]; omega)]
    exact parse_of_readsBack set s _ hps (by omega) h
  refine ⟨⟨?_, hyields⟩, ?_⟩
  · rintro ⟨text, hwrite, hparse⟩
    obtain ⟨qs, hqs, rfl⟩ := logdataToKvp_cases hld.strings hwrite
    have := hparse _ expect (assignments (stringFields ld))
    rw [setAll_expect, kvpParse_text _ _ _ (by rw [length_take]; omega)] at this
    obtain ⟨⟨as, c'⟩, hok, has⟩ := bind_eq_ok.mp this
    cases has
    exact readsBack_of_parse hqs hps (by omega) hok
  · intro h hd
    obtain ⟨text, hwrite, hparse⟩ := hyields h
    refine ⟨text, hwrite, ?_⟩
    intro s hs
    obtain ⟨s', hset, hassigned⟩ := setAll_store hs (stringFields_distinct hd) assignments_ok
    have := hparse Store storeSet s
    rw [hset] at this
    obtain ⟨⟨s2, ctx'⟩, hok, hs2⟩ := bind_eq_ok.mp this
    cases hs2
    exact ⟨s2, ctx', hok, hassigned⟩

/-- `A` has a space, and is so written in quotes; `B` starts with a double quote. -/
def spacedRecord : Logdata :=
  ⟨some 0, [⟨rawEvent, ⟨TRUE, .string (some ⟨0, []⟩)⟩⟩,
    ⟨cut [65], ⟨TRUE, .string (some ⟨1, [120, 59, 32, 121]⟩)⟩⟩,
    ⟨cut [66], ⟨TRUE, .string (some ⟨2, [34, 44]⟩)⟩⟩], []⟩

theorem kvp_detect_spaced : KvpRecord [] spacedRecord ∧
    KvpYields ⟨fun _ => Res.fault, fun _ => Res.fault⟩ spacedRecord := by
  have hld : KvpRecord [] spacedRecord := ⟨by unfold AllStrings; decide, by decide +kernel, by decide⟩
  refine ⟨hld, (kvp_detect_iff _ spacedRecord hld).1.mpr (.inl ⟨?_, by decide⟩)⟩
  exact ⟨⟨by decide, by decide, by decide⟩, ⟨by decide, by decide, by decide⟩, trivial⟩

def semicolonRecord : Logdata :=
  ⟨some 0, [⟨rawEvent, ⟨TRUE, .string (some ⟨0, []⟩)⟩⟩,
    ⟨cut [65], ⟨TRUE, .string (some ⟨1, [120, 59, 121]⟩)⟩⟩], []⟩

/-- `A=x;y;` is written, of which the parser makes a field `A` with the value `x` and a
key without a value. -/
theorem kvp_detect_semicolon : KvpRecord [] semicolonRecord ∧
    ∃ text, logdataToKvp ⟨fun _ => Res.fault, fun _ => Res.fault⟩ kvpCtxInit semicolonRecord =
      .ok text ∧ text = [65, 61, 120, 59, 121, 59] ∧
      ∀ x, kvpParse storeSet ⟨logdataNew, 1⟩ kvpCtxInit (text ++ [0]) text.length ≠ .ok x := by
  refine ⟨⟨by unfold AllStrings; decide, by decide +kernel, by decide⟩, [65, 61, 120, 59, 121, 59],
    by decide, rfl, ?_⟩
  have hfails : (kvpParse storeSet ⟨logdataNew, 1⟩ kvpCtxInit
    [65, 61, 120, 59, 121, 59, 0] 6).toBool = false := by
    decide
  intro x hx
  have : kvpParse storeSet ⟨logdataNew, 1⟩ kvpCtxInit [65, 61, 120, 59, 121, 59, 0] 6 = .ok x := hx
  rw [this] at hfails
  cases hfails

end Nxlog.L3
