import Nxlog.L3Protocol.Csv

/-!
# The CSV parser on written lines (`extension/csv/csv.c`)

The parser removes the escape character in front of a quote or an escape character,
but keeps it in front of a delimiter, which the writer escapes too.

* `readBack`: what the parser makes of a value that was escaped.
* `csvFrom_text`: a whole line sets each field to what is read back of its value.
* `csvFrom_cut`: a line that the string limit cut off does not set its last field.
* `csvFrom_unclosed`, `csvFrom_closed`: a space for a quote is skipped in front of a
  value, and becomes part of it behind it.
* `csv_roundtrip_iff`: the strings come back exactly if `readBack` leaves them as they
  are, none is the text for an undefined value, and the line is below the limit.
-/
namespace Nxlog.L3
open L1 L2 Res List

/-! ## What the parser makes of a value -/

structure CsvCtx.Apart (ctx : CsvCtx) : Prop where
  printable : ∀ c ∈ [ctx.delimiter, ctx.quotechar, ctx.escapechar], 32 ≤ c ∧ c ≤ 126
  distinct : [ctx.delimiter, ctx.quotechar, ctx.escapechar].Nodup

def readByte (ctx : CsvCtx) (c : UInt8) : Bytes :=
  match csvEscape ctx c with
  | .pair _ b => unescapeString ctx b
  | _ => [c]

def readBack (ctx : CsvCtx) (v : Bytes) : Bytes := v.flatMap (readByte ctx)

theorem readBack_cons (ctx : CsvCtx) (c : UInt8) (v : Bytes) :
    readBack ctx (c :: v) = readByte ctx c ++ readBack ctx v := by
  simp [readBack]

/-- A value that is read back as it is: it has no delimiter; and where control characters
are escaped, a quote or escape character of the context that is also the letter of a
control character is not part of it. -/
def Restored (ctx : CsvCtx) (v : Bytes) : Prop :=
  ctx.delimiter ∉ v ∧ (ctx.escape_control = TRUE → ∀ c ∈ v, c = ctx.escapechar ∨ c = ctx.quotechar →
    letterControl c = none)

def RestoredByte (ctx : CsvCtx) (c : UInt8) : Prop :=
  c ≠ ctx.delimiter ∧ (ctx.escape_control = TRUE → c = ctx.escapechar ∨ c = ctx.quotechar →
    letterControl c = none)

theorem restored_iff {ctx : CsvCtx} {v : Bytes} : Restored ctx v ↔ ∀ c ∈ v, RestoredByte ctx c := by
  have hd : ctx.delimiter ∉ v ↔ ∀ c ∈ v, c ≠ ctx.delimiter :=
    ⟨fun h c hc hcd => h (hcd ▸ hc), fun h hm => h _ hm rfl⟩
  simp only [Restored, RestoredByte, hd, forall_and]
  exact and_congr_right' ⟨fun h c hc hctl => h hctl c hc, fun h hctl c hc => h c hc hctl⟩

theorem letterControl_lt {c x : UInt8} (h : letterControl c = some x) : 0 < x ∧ x < 32 := by
  unfold letterControl at h
  split at h
  · cases h; decide
  split at h
  · cases h; decide
  split at h
  · cases h; decide
  split at h
  · cases h; decide
  · cases h

variable {v : Bytes}

section Read

variable {ctx : CsvCtx} (hx : ctx.Apart)
include hx

theorem CsvCtx.Apart.ne : ctx.delimiter ≠ ctx.quotechar ∧ ctx.delimiter ≠ ctx.escapechar ∧
    ctx.quotechar ≠ ctx.escapechar := by
  have := hx.distinct
  simp only [nodup_cons, mem_cons, not_mem_nil, or_false, not_or] at this
  exact ⟨this.1.1, this.1.2, this.2.1⟩

theorem CsvCtx.Apart.control_ne {c x : UInt8} (hx' : x < 32)
    (hc : c ∈ [ctx.delimiter, ctx.quotechar, ctx.escapechar]) :
    x ≠ c := by
  intro h
  have := (hx.printable c hc).1
  rw [← h, UInt8.le_iff_toNat_le] at this
  rw [UInt8.lt_iff_toNat_lt] at hx'
  omega

theorem CsvCtx.Apart.escape_ne_zero : ctx.escapechar ≠ 0 :=
  Ne.symm (hx.control_ne (by decide) (by simp))

/-- A byte of the three is escaped as it is, another control character may be by its
letter. -/
theorem csvEscape_cases (c : UInt8) :
    c ∈ [ctx.delimiter, ctx.quotechar, ctx.escapechar] ∧ csvEscape ctx c = .pair ctx.escapechar c ∨
    c ∉ [ctx.delimiter, ctx.quotechar, ctx.escapechar] ∧ (csvEscape ctx c = .keep ∨
      ∃ l, ctx.escape_control = TRUE ∧ controlLetter c = some l ∧
      csvEscape ctx c = .pair ctx.escapechar l) := by
  have hq0 : ctx.quotechar ≠ 0 := Ne.symm (hx.control_ne (by decide) (by simp))
  have hiff : (c = ctx.escapechar ∨ (c = ctx.quotechar ∧ ctx.quotechar ≠ 0) ∨ c = ctx.delimiter) ↔
      c ∈ [ctx.delimiter, ctx.quotechar, ctx.escapechar] := by
    simp only [mem_cons, not_mem_nil, or_false]
    tauto
  unfold csvEscape
  by_cases hm : c ∈ [ctx.delimiter, ctx.quotechar, ctx.escapechar]
  · have h128 : ¬ 128 ≤ c := by
      have := (hx.printable c hm).2
      rw [UInt8.le_iff_toNat_le] at this ⊢
      exact fun h => absurd (Nat.le_trans h this) (by decide)
    exact .inl ⟨hm, by rw [if_neg h128, if_pos (hiff.mpr hm)]⟩
  · refine .inr ⟨hm, ?_⟩
    by_cases h128 : 128 ≤ c
    · exact .inl (if_pos h128)
    rw [if_neg h128, if_neg (fun h => hm (hiff.mp h))]
    by_cases hctl : ctx.escape_control = TRUE
    · rw [if_pos hctl]
      cases hl : controlLetter c with
      | none => exact .inl rfl
      | some l => exact .inr ⟨l, hctl, rfl, rfl⟩
    · exact .inl (if_neg hctl)

/-- A byte that is not read back as it is has another one in its place. -/
theorem readByte_cases (c : UInt8) :
    (readByte ctx c = [c] ∧ RestoredByte ctx c) ∨
    ∃ x t, readByte ctx c = x :: t ∧ t.length ≤ 1 ∧ x ≠ c ∧ x ≠ 0 ∧ (0 ∈ t → c = 0) ∧
    ¬ RestoredByte ctx c := by
  obtain ⟨hdq, hde, hqe⟩ := hx.ne
  rcases csvEscape_cases hx c with ⟨hm, hc⟩ | ⟨hm, hc⟩
  · have hread : readByte ctx c = unescapeString ctx c := by simp [readByte, hc]
    rw [hread]
    unfold unescapeString
    cases hl : (if ctx.escape_control = TRUE then letterControl c else none) with
    | some x =>
      -- the letter of a control character
      split at hl
      · rename_i hctl
        obtain ⟨h0, h32⟩ := letterControl_lt hl
        refine .inr ⟨x, [], rfl, by simp, hx.control_ne h32 hm, fun h => by
          rw [h] at h0; exact absurd h0 (by decide),
          by simp, ?_⟩
        rintro ⟨hd, hlet⟩
        have hne : c = ctx.escapechar ∨ c = ctx.quotechar := by
          simp only [mem_cons, not_mem_nil, or_false] at hm
          tauto
        rw [hlet hctl hne] at hl
        cases hl
      · cases hl
    | none =>
      by_cases heq : c = ctx.escapechar ∨ c = ctx.quotechar
      · refine .inl ⟨if_pos heq, ?_, ?_⟩
        · rcases heq with rfl | rfl
          · exact Ne.symm hde
          · exact Ne.symm hdq
        · intro hctl _
          rw [if_pos hctl] at hl
          exact hl
      · have hd : c = ctx.delimiter := by
          simp only [mem_cons, not_mem_nil, or_false] at hm
          tauto
        refine .inr ⟨ctx.escapechar, [c], if_neg heq, by simp, ?_, hx.escape_ne_zero,
          by simpa using Eq.symm, fun h => h.1 hd⟩
        rw [hd]
        exact Ne.symm hde
  · have hgood : RestoredByte ctx c := by
      simp only [mem_cons, not_mem_nil, or_false, not_or] at hm
      simp [RestoredByte, hm]
    refine .inl ⟨?_, hgood⟩
    rcases hc with hc | ⟨l, hctl, hl, hc⟩
    · simp [readByte, hc]
    · simp [readByte, hc, unescapeString, hctl, letterControl_of_control hl]

/-- What is read back of the beginning of a value is the value only if it is all of it
and each byte is read back as it is. -/
theorem readBack_eq {u v : Bytes} (hpre : u <+: v) (h : readBack ctx u = v) :
    u = v ∧ ∀ c ∈ v, RestoredByte ctx c := by
  induction u generalizing v with
  | nil =>
    cases h
    exact ⟨rfl, nofun⟩
  | cons c u ih =>
    obtain ⟨w, rfl⟩ := hpre
    rw [readBack_cons] at h
    rcases readByte_cases hx c with ⟨hc, hbyte⟩ | ⟨x, t, hc, -, hne, -⟩
    · rw [hc, cons_append, cons_append, cons.injEq] at h
      obtain ⟨hu, hrest⟩ := ih (prefix_append u w) h.2
      exact ⟨by rw [cons_append, ← hu], forall_mem_cons.mpr ⟨hbyte, hrest⟩⟩
    · rw [hc, cons_append, cons_append, cons.injEq] at h
      exact absurd h.1 hne

theorem readBack_restored (h : ∀ c ∈ v, RestoredByte ctx c) : readBack ctx v = v := by
  induction v with
  | nil => rfl
  | cons c v ih =>
    obtain ⟨hbyte, hv⟩ := forall_mem_cons.mp h
    rcases readByte_cases hx c with ⟨hc, -⟩ | ⟨x, t, -, -, -, -, -, hbad⟩
    · rw [readBack_cons, hc, ih hv]
      rfl
    · exact absurd hbyte hbad

theorem readByte_length (c : UInt8) :
    1 ≤ (readByte ctx c).length ∧ (readByte ctx c).length ≤ (escaped (csvEscape ctx) [c]).length := by
  rcases readByte_cases hx c with ⟨hc, -⟩ | ⟨x, t, hc, ht, hne, -⟩
  · have := le_length_escaped (csvEscape ctx) [c]
    rw [hc]
    exact ⟨Nat.le_refl 1, this⟩
  · -- only a byte that was escaped changes
    by_cases hp : Escapes (csvEscape ctx) c
    · obtain ⟨a, b, hp⟩ := hp
      rw [hc, escaped_pair hp]
      simp only [length_cons, length_nil]
      omega
    · have : readByte ctx c = [c] := by
        unfold readByte
        cases hc' : csvEscape ctx c with
        | pair a b => exact absurd ⟨a, b, hc'⟩ hp
        | _ => rfl
      rw [this] at hc
      cases hc
      exact absurd rfl hne

theorem readBack_length (v : Bytes) :
    v.length ≤ (readBack ctx v).length ∧ (readBack ctx v).length ≤ (escaped (csvEscape ctx) v).length := by
  induction v with
  | nil => simp [readBack]
  | cons c v ih =>
    have hbyte := readByte_length hx c
    rw [readBack_cons, escaped_cons, length_append, length_append, length_cons]
    omega

theorem zero_not_mem_readBack (h : 0 ∉ v) : 0 ∉ readBack ctx v := by
  intro hm
  obtain ⟨c, hc, hm⟩ := mem_flatMap.mp hm
  have hc0 : c ≠ 0 := fun he => h (he ▸ hc)
  rcases readByte_cases hx c with ⟨hr, -⟩ | ⟨x, t, hr, -, -, hx0, ht, -⟩
  · rw [hr, mem_singleton] at hm
    exact hc0 hm.symm
  · rw [hr] at hm
    rcases mem_cons.mp hm with hm | hm
    · exact hx0 hm.symm
    · exact hc0 (ht hm)

end Read

/-! ## The parser on a cell -/

section Steps

variable {σ : Type} {env : ValueEnv} {set : Setter σ} {ctx : CsvCtx} {src : Bytes} {size : Nat}
  {r : σ} {st : CsvState} {w : Bytes} {i : Nat}

/-- The states in which an escaped value is read: behind the opening quote, or, where
the quote is a space and so is skipped, still in front of the field. -/
def InValue (ctx : CsvCtx) (st : CsvState) : Prop := st = .insideField ∨ st = .start ∧ ctx.quotechar = 32

variable {c : UInt8}

theorem csvStep_plain (hst : InValue ctx st)
    (hc : c ∉ [ctx.delimiter, ctx.quotechar, ctx.escapechar]) (hroom : w.length + 1 ≤ size) :
    csvStep env set ctx src size ⟨r, st, w, i, false⟩ c = .ok ⟨r, st, w ++ [c], i, false⟩ := by
  simp only [mem_cons, not_mem_nil, or_false, not_or] at hc
  obtain ⟨hd, hq, he⟩ := hc
  have hput : put size w [c] = .ok (w ++ [c]) := put_ok hroom
  rcases hst with rfl | ⟨rfl, hspace⟩
  · simp [csvStep, insideFieldByte, hq, he, writeBytes, hput]
  · have h32 : c ≠ 32 := hspace ▸ hq
    simp [csvStep, startByte, hd, hq, he, h32, writeBytes, hput]

variable (hx : ctx.Apart)
include hx

theorem csvStep_escape (hst : InValue ctx st) :
    csvStep env set ctx src size ⟨r, st, w, i, false⟩ ctx.escapechar = .ok ⟨r, st, w, i, true⟩ := by
  have hqe : ctx.escapechar ≠ ctx.quotechar := Ne.symm hx.ne.2.2
  rcases hst with rfl | ⟨rfl, -⟩
  · simp [csvStep, insideFieldByte, hqe]
  · simp [csvStep, startByte]

omit hx in
theorem csvStep_unescape (hroom : w.length + (unescapeString ctx c).length ≤ size) :
    csvStep env set ctx src size ⟨r, st, w, i, true⟩ c = .ok ⟨r, st, w ++ unescapeString ctx c, i, false⟩ := by
  simp [csvStep, writeBytes, put_ok hroom]

/-- The readings of an escaped byte: it is kept, or follows the escape character. -/
theorem escapedByte_cases (c : UInt8) :
    c ∉ [ctx.delimiter, ctx.quotechar, ctx.escapechar] ∧ escaped (csvEscape ctx) [c] = [c] ∧
    readByte ctx c = [c] ∨
    ∃ b, escaped (csvEscape ctx) [c] = [ctx.escapechar, b] ∧ readByte ctx c = unescapeString ctx b := by
  rcases csvEscape_cases hx c with ⟨-, hc⟩ | ⟨hm, hc | ⟨l, -, -, hc⟩⟩
  · exact .inr ⟨c, escaped_pair hc, by simp [readByte, hc]⟩
  · have hno : ¬ Escapes (csvEscape ctx) c := fun ⟨_, _, h⟩ => by rw [hc] at h; cases h
    exact .inl ⟨hm, escaped_same hno, by simp [readByte, hc]⟩
  · exact .inr ⟨l, escaped_pair hc, by simp [readByte, hc]⟩

theorem run_cellByte (hst : InValue ctx st) (hroom : w.length + (readByte ctx c).length ≤ size) :
    run (csvStep env set ctx src size) ⟨r, st, w, i, false⟩ (escaped (csvEscape ctx) [c]) =
      .ok ⟨r, st, w ++ readByte ctx c, i, false⟩ := by
  rcases escapedByte_cases hx c with ⟨hm, hesc, hread⟩ | ⟨b, hesc, hread⟩
  · rw [hread] at hroom
    rw [hesc, hread, run_cons, csvStep_plain hst hm hroom]
    rfl
  · rw [hread] at hroom
    rw [hesc, hread, run_cons, csvStep_escape hx hst, ok_bind, run_cons, csvStep_unescape hroom]
    rfl

/-- Without its last byte an escaped byte is not read. -/
theorem run_cellByte_part (hst : InValue ctx st) {t : Bytes}
    (ht : t <+: escaped (csvEscape ctx) [c]) (hne : t ≠ escaped (csvEscape ctx) [c]) :
    ∃ u, run (csvStep env set ctx src size) ⟨r, st, w, i, false⟩ t = .ok ⟨r, st, w, i, u⟩ := by
  match t with
  | [] => exact ⟨false, rfl⟩
  | a :: t =>
    rcases escapedByte_cases hx c with ⟨-, hesc, -⟩ | ⟨b, hesc, -⟩
    · rw [hesc] at ht hne
      obtain ⟨ha, htail⟩ := cons_prefix_cons.mp ht
      rw [ha, prefix_nil.mp htail] at hne
      exact absurd rfl hne
    · rw [hesc] at ht hne
      obtain ⟨ha, htail⟩ := cons_prefix_cons.mp ht
      rw [ha] at hne ⊢
      match t with
      | [] => exact ⟨true, by rw [run_cons, csvStep_escape hx hst]; rfl⟩
      | d :: t =>
        obtain ⟨hd, hnil⟩ := cons_prefix_cons.mp htail
        rw [hd, prefix_nil.mp hnil] at hne
        exact absurd rfl hne

variable (env set src) in
/-- Of the first part of an escaped value the bytes are read that are there as a whole. -/
theorem run_cellPart (hst : InValue ctx st) {v w t : Bytes} (hroom : w.length + t.length ≤ size)
    (ht : t <+: escaped (csvEscape ctx) v) :
    ∃ j u, (readBack ctx (v.take j)).length ≤ t.length ∧
      run (csvStep env set ctx src size) ⟨r, st, w, i, false⟩ t =
      .ok ⟨r, st, w ++ readBack ctx (v.take j), i, u⟩ ∧
      if t = escaped (csvEscape ctx) v then j = v.length ∧ u = false else j < v.length := by
  induction v generalizing w t with
  | nil =>
    cases prefix_nil.mp ht
    exact ⟨0, false, by simp [readBack], by simp [readBack], by simp⟩
  | cons c v ih =>
    have hbyte := readByte_length hx c
    rw [escaped_cons] at ht ⊢
    by_cases hfirst : escaped (csvEscape ctx) [c] <+: t
    · obtain ⟨t', rfl⟩ := hfirst
      rw [length_append] at hroom
      obtain ⟨j, u, hle, hrun, hall⟩ := ih (w := w ++ readByte ctx c) (by rw [length_append]; omega)
        ((prefix_append_right_inj _).mp ht)
      refine ⟨j + 1, u, ?_, ?_, ?_⟩
      · rw [take_succ_cons, readBack_cons, length_append, length_append]
        omega
      · rw [run_append, run_cellByte hx hst (by omega), ok_bind, hrun, take_succ_cons,
          readBack_cons, append_assoc]
      · simpa using hall
    · have hpre : t <+: escaped (csvEscape ctx) [c] :=
        (List.prefix_or_prefix_of_prefix ht (prefix_append _ _)).resolve_right hfirst
      obtain ⟨u, hrun⟩ := run_cellByte_part hx hst hpre fun h => hfirst (h ▸ prefix_refl _)
      refine ⟨0, u, by simp [readBack], by simpa [readBack] using hrun, ?_⟩
      rw [if_neg fun h : t = _ => hfirst (h ▸ prefix_append _ _)]
      exact Nat.succ_pos _

theorem run_cellValue (hst : InValue ctx st) {v w : Bytes}
    (hroom : w.length + (escaped (csvEscape ctx) v).length ≤ size) :
    run (csvStep env set ctx src size) ⟨r, st, w, i, false⟩ (escaped (csvEscape ctx) v) =
      .ok ⟨r, st, w ++ readBack ctx v, i, false⟩ := by
  obtain ⟨j, u, -, hrun, hall⟩ := run_cellPart env set src (r := r) (i := i) hx hst hroom (prefix_refl _)
  rw [if_pos rfl] at hall
  rw [hrun, hall.1, hall.2, take_length]

omit hx

theorem csvFrom_append (p : Csv σ) (a b : Bytes) : csvFrom env set ctx src size p (a ++ b) =
    run (csvStep env set ctx src size) p a >>= fun p => csvFrom env set ctx src size p b := by
  rw [csvFrom, run_append]
  cases run (csvStep env set ctx src size) p a <;> rfl

theorem csvFrom_cons (p : Csv σ) (c : UInt8) (b : Bytes) : csvFrom env set ctx src size p (c :: b) =
    csvStep env set ctx src size p c >>= fun p => csvFrom env set ctx src size p b := by
  rw [csvFrom, run_cons]
  cases csvStep env set ctx src size p c <;> rfl

theorem csvFrom_nil (p : Csv σ) : csvFrom env set ctx src size p [] = csvFinish env set ctx src size p := rfl

def csvAssigned (ctx : CsvCtx) (w : Bytes) : NxValue :=
  if ctx.undefvalue = some (cut w) then ⟨FALSE, .zero .string⟩ else strValue w

theorem csvAssigned_eq_iff {w v : Bytes} (h0 : 0 ∉ w) : csvAssigned ctx w = strValue v ↔
    w = v ∧ ∀ u, ctx.undefvalue = some u → u.1 ≠ v := by
  have hcut : (cut w).1 = w := congrArg Subtype.val (cut_cstr ⟨w, h0⟩)
  unfold csvAssigned
  constructor
  · intro h
    by_cases hu : ctx.undefvalue = some (cut w)
    · rw [if_pos hu] at h
      cases h
    · rw [if_neg hu] at h
      have hwv := strValue_inj.mp h
      refine ⟨hwv, ?_⟩
      intro u hu' hv
      exact hu (hu'.trans (congrArg some (Subtype.ext (by rw [hv, hcut, hwv]))))
  · rintro ⟨rfl, hu⟩
    rw [if_neg fun h => hu _ h hcut]

theorem storeField_string {f : CsvField} {u : Bool} (hf : ctx.fields[i]? = some f)
    (hty : f.valueType = .string) (h0 : 0 ∉ w) (hroom : w.length + 1 ≤ size)
    (hlim : w.length ≤ stringLimit) : storeField env set ctx src size ⟨r, st, w, i, u⟩ =
      set r f.name (csvAssigned ctx w) >>= fun r' => .ok ⟨r', .start, [], i + 1, u⟩ := by
  have hput : put size w [0] = .ok (w ++ [0]) := put_ok hroom
  have hcut : cut (w ++ [0]) = ⟨w, h0⟩ := cut_append_zero ⟨w, h0⟩ []
  have hself : cut w = ⟨w, h0⟩ := cut_cstr ⟨w, h0⟩
  have hadd : addCsvField env set ctx r f (cut (w ++ [0])) = set r f.name (csvAssigned ctx w) := by
    rw [addCsvField, csvAssigned, hcut, hself, hty]
    by_cases hu : ctx.undefvalue = some ⟨w, h0⟩
    · rw [if_pos hu, if_pos hu]
    · rw [if_neg hu, if_neg hu, valueFromString_string env hlim, ok_bind]
  rw [storeField]
  rw [hf]
  dsimp only
  rw [hput, ok_bind, hadd]
  cases set r f.name (csvAssigned ctx w) <;> rfl

theorem csvStep_open (hx : ctx.Apart) (hq : ctx.quotechar ≠ 32) :
    csvStep env set ctx src size (csvStart r i) ctx.quotechar = .ok ⟨r, .insideField, [], i, false⟩ := by
  simp [csvStep, csvStart, startByte, hx.ne.2.2, hq]

/-- A cell is read up to its closing quote. -/
theorem csvFrom_cell (hx : ctx.Apart) (hq : ctx.quotechar ≠ 32)
    (hroom : (escaped (csvEscape ctx) v).length ≤ size) (X : Bytes) :
    csvFrom env set ctx src size (csvStart r i) (cell ctx v ++ X) =
      csvFrom env set ctx src size ⟨r, .quote, readBack ctx v, i, false⟩ X := by
  have hclose : csvStep env set ctx src size ⟨r, .insideField, readBack ctx v, i,
      false⟩ ctx.quotechar = .ok ⟨r, .quote, readBack ctx v, i, false⟩ := by
    simp [csvStep, insideFieldByte]
  rw [cell, cons_append, append_assoc, singleton_append, csvFrom_cons, csvStep_open hx hq, ok_bind,
    csvFrom_append, run_cellValue hx (.inl rfl) (by simpa using hroom), ok_bind, nil_append,
    csvFrom_cons, hclose, ok_bind]

/-- A cell that is cut off is an error, unless all of it is. -/
theorem csvFrom_cellPart (hx : ctx.Apart) (hq : ctx.quotechar ≠ 32) {n : Nat}
    (hroom : n ≤ size) (hn : n < (cell ctx v).length) (h0 : n ≠ 0) (r' : σ) :
    csvFrom env set ctx src size (csvStart r i) ((cell ctx v).take n) ≠ .ok r' := by
  obtain ⟨m, rfl⟩ := Nat.exists_eq_succ_of_ne_zero h0
  have hfit : m ≤ (escaped (csvEscape ctx) v).length := by
    rw [length_cell] at hn
    omega
  have hlen : ((escaped (csvEscape ctx) v).take m).length = m := by simp [hfit]
  -- the text ends inside the quotes
  have hroom' : ([] : Bytes).length + ((escaped (csvEscape ctx) v).take m).length ≤ size := by
    rw [hlen, length_nil]; omega
  obtain ⟨j, u, -, hrun, -⟩ :=
    run_cellPart env set src (r := r) (i := i) hx (.inl rfl) hroom' (List.take_prefix _ _)
  rw [cell, take_succ_cons, take_append_of_le_length hfit, csvFrom_cons, csvStep_open hx hq,
    ok_bind, csvFrom, hrun, ok_bind]
  intro h
  cases h

section Line

variable {val : CsvField → Bytes} {f : CsvField} {gs : List CsvField}

def csvReadAssignments (ctx : CsvCtx) (val : CsvField → Bytes) (gs : List CsvField) : List (CStr × NxValue) :=
  gs.map fun f => (f.name, csvAssigned ctx (readBack ctx (val f)))

variable (h : ctx.fields.drop i = f :: gs)
include h

theorem getElem?_of_drop : ctx.fields[i]? = some f := by
  have : (ctx.fields.drop i)[0]? = some f := by rw [h]; rfl
  simpa using this

theorem drop_succ_of_drop : ctx.fields.drop (i + 1) = gs := by
  rw [← drop_drop, h]
  rfl

theorem length_of_fields_drop : ctx.fields.length = i + 1 + gs.length := by
  have := congrArg length h
  rw [length_drop, length_cons] at this
  omega

omit h

theorem csvFinish_store {u : Bool} (hst : st = .quote ∨ st = .start ∧ w ≠ [])
    (hf : ctx.fields.drop i = f :: gs)
    (hty : f.valueType = .string) (h0 : 0 ∉ w) (hroom : w.length + 1 ≤ size) (hlim : w.length ≤ stringLimit) :
    csvFinish env set ctx src size ⟨r, st, w, i, u⟩ = set r f.name (csvAssigned ctx w) >>= fun r' =>
      if gs.length ≤ 1 then .ok r'
      else Res.throw ("Not enough fields in CSV input, expected " ++ toString ctx.fields.length ++ ", got " ++
        toString (i + 1) ++ " in input '" ++ cText src ++ "'") := by
  have hlen := length_of_fields_drop hf
  have hlast : csvLast env set ctx src size ⟨r, st, w, i, u⟩ =
    storeField env set ctx src size ⟨r, st, w, i, u⟩ := by
    rcases hst with h | ⟨h, hne⟩
    · rw [h]
      rfl
    · rw [h]
      exact if_neg hne
  rw [csvFinish, hlast, storeField_string (getElem?_of_drop hf) hty h0 hroom hlim]
  cases set r f.name (csvAssigned ctx w) with
  | error e => rfl
  | ok r' =>
    rw [ok_bind, ok_bind, ok_bind]
    dsimp only
    by_cases hgs : gs.length ≤ 1
    · rw [if_pos hgs]
      by_cases h1 : i + 1 + 1 = ctx.fields.length
      · rw [if_pos h1]
      · rw [if_neg h1, if_neg (by omega)]
    · rw [if_neg hgs, if_neg (by omega), if_pos (by omega)]

/-- At the end of the text nothing is stored for a field that has not begun. -/
theorem csvFinish_start {u : Bool} {r' : σ}
    (h : csvFinish env set ctx src size ⟨r, .start, [], i, u⟩ = .ok r') : r' = r := by
  simp only [csvFinish, csvLast, if_true, ok_bind] at h
  split at h
  · cases h
    rfl
  · split at h <;> cases h
    rfl

variable (hx : ctx.Apart)
include hx

theorem csvStep_delimiter (hst : st = .quote ∨ st = .start ∧ w ≠ [])
    (hf : ctx.fields.drop i = f :: gs) (hty : f.valueType = .string) (h0 : 0 ∉ w)
    (hroom : w.length + 1 ≤ size) (hlim : w.length ≤ stringLimit) :
    csvStep env set ctx src size ⟨r, st, w, i, false⟩ ctx.delimiter =
      set r f.name (csvAssigned ctx w) >>= fun r' => .ok (csvStart r' (i + 1)) := by
  obtain ⟨hdq, hde, -⟩ := hx.ne
  have hstore : storeField env set ctx src size ⟨r, st, w, i, false⟩ =
      set r f.name (csvAssigned ctx w) >>= fun r' => .ok ⟨r', .start, [], i + 1, false⟩ :=
    storeField_string (getElem?_of_drop hf) hty h0 hroom hlim
  refine Eq.trans ?_ hstore
  rcases hst with rfl | ⟨rfl, hne⟩
  · simp [csvStep, quoteByte, hdq]
  · simp [csvStep, startByte, hde, hne]

structure StringFields (val : CsvField → Bytes) (gs : List CsvField) : Prop where
  types : ∀ f ∈ gs, f.valueType = .string
  values : ∀ f ∈ gs, (0 : UInt8) ∉ val f

omit hx in
theorem StringFields.tail (h : StringFields val (f :: gs)) : StringFields val gs :=
  ⟨(forall_mem_cons.mp h.types).2, (forall_mem_cons.mp h.values).2⟩

/-- A whole line sets every field to what is read back of its value. -/
theorem csvFrom_text (hq : ctx.quotechar ≠ 32) (hsize : size ≤ stringLimit) :
    ∀ {gs : List CsvField} {r : σ} {i : Nat}, gs ≠ [] → ctx.fields.drop i = gs →
    StringFields val gs → (csvText ctx (gs.map val)).length < size →
    csvFrom env set ctx src size (csvStart r i) (csvText ctx (gs.map val)) =
      setAll set r (csvReadAssignments ctx val gs) := by
  intro gs
  induction gs with
  | nil => intro r i h; exact absurd rfl h
  | cons f gs ih =>
    intro r i _ hf hok hlen
    have hty := hok.types f mem_cons_self
    have h0 := zero_not_mem_readBack hx (hok.values f mem_cons_self)
    have hread := (readBack_length hx (val f)).2
    rw [map_cons, csvText, length_append, length_cell] at hlen
    rw [map_cons, csvText, csvFrom_cell hx hq (by omega), csvReadAssignments, map_cons, setAll_cons]
    cases gs with
    | nil =>
      have hrest : csvRest ctx (map val []) = [] := rfl
      rw [hrest, csvFrom_nil, csvFinish_store (.inl rfl) hf hty h0 (by omega) (by omega)]
      rfl
    | cons g gs =>
      rw [map_cons, csvRest_cons, length_cons] at hlen
      rw [map_cons, csvRest_cons, csvFrom_cons,
        csvStep_delimiter hx (.inl rfl) hf hty h0 (by omega) (by omega)]
      cases set r f.name (csvAssigned ctx (readBack ctx (val f))) with
      | error e => rfl
      | ok r' =>
        rw [ok_bind, ok_bind, ok_bind]
        exact ih (cons_ne_nil _ _) (drop_succ_of_drop hf) hok.tail (by rw [map_cons]; omega)

def csvAssignments (val : CsvField → Bytes) (gs : List CsvField) : List (CStr × NxValue) :=
  gs.map fun f => (f.name, strValue (val f))

/-- A line that is cut off does not set its last field. -/
theorem csvFrom_cut (hq : ctx.quotechar ≠ 32) (hsize : size ≤ stringLimit) :
    ∀ {gs : List CsvField} {i n : Nat}, gs ≠ [] → ctx.fields.drop i = gs → StringFields val gs →
    n < size → n < (csvText ctx (gs.map val)).length →
    csvFrom env expect ctx src size (csvStart (csvAssignments val gs) i)
    ((csvText ctx (gs.map val)).take n) ≠ .ok [] := by
  intro gs
  induction gs with
  | nil => intro i n h; exact absurd rfl h
  | cons f gs ih =>
    intro i n _ hf hok hroom hn
    have hty := hok.types f mem_cons_self
    have h0 := zero_not_mem_readBack hx (hok.values f mem_cons_self)
    have hread := (readBack_length hx (val f)).2
    have hlen := length_cell ctx (val f)
    rw [map_cons, csvText] at hn ⊢
    rw [length_append] at hn
    by_cases hcell : n < (cell ctx (val f)).length
    · rw [take_append_of_le_length (by omega)]
      by_cases hn0 : n = 0
      · -- nothing of the field is left
        rw [hn0, take_zero, csvFrom_nil]
        exact fun h => by cases csvFinish_start h
      · exact csvFrom_cellPart hx hq (by omega) hcell hn0 []
    · obtain ⟨m, rfl⟩ : ∃ m, n = (cell ctx (val f)).length + m := ⟨n - (cell ctx (val f)).length, by omega⟩
      rw [take_length_add_append, csvFrom_cell hx hq (by omega)]
      cases gs with
      | nil =>
        have hrest : csvRest ctx (map val []) = [] := rfl
        rw [hrest, length_nil] at hn
        omega
      | cons g gs =>
        intro h
        cases m with
        | zero =>
          rw [take_zero, csvFrom_nil, csvFinish_store (.inl rfl) hf hty h0 (by omega) (by omega)] at h
          obtain ⟨as, hset, h⟩ := bind_eq_ok.mp h
          -- the strict setter still waits for `g`
          rw [(expect_inv hset).2] at h
          split at h <;> cases h
        | succ m =>
          rw [map_cons, csvRest_cons, take_succ_cons, csvFrom_cons,
            csvStep_delimiter hx (.inl rfl) hf hty h0 (by omega) (by omega)] at h
          obtain ⟨p, hp, h⟩ := bind_eq_ok.mp h
          obtain ⟨as, hset, hp⟩ := bind_eq_ok.mp hp
          cases hp
          rw [(expect_inv hset).2] at h
          rw [map_cons, csvRest_cons, length_cons] at hn
          exact ih (cons_ne_nil _ _) (drop_succ_of_drop hf) hok.tail (by omega)
            (by rw [map_cons]; omega) h

/-! ### A space for a quote -/

variable (hq : ctx.quotechar = 32)
include hq

theorem csvFrom_skip (X : Bytes) :
    csvFrom env set ctx src size (csvStart r i) (32 :: X) = csvFrom env set ctx src size (csvStart r i) X := by
  have hne : (32 : UInt8) ≠ ctx.escapechar := hq ▸ hx.ne.2.2
  have hstep : csvStep env set ctx src size (csvStart r i) 32 = .ok (csvStart r i) := by
    simp [csvStep, csvStart, startByte, hne]
  rw [csvFrom_cons, hstep, ok_bind]

omit hq in
theorem readBack_ne_nil (hv : v ≠ []) : readBack ctx v ≠ [] := by
  intro h
  have hlen := (readBack_length hx v).1
  rw [h, length_nil] at hlen
  exact hv (length_eq_zero_iff.mp (by omega))

/-- The value begins behind the opening quote. -/
theorem csvFrom_space (hroom : (escaped (csvEscape ctx) v).length ≤ size) (X : Bytes) :
    csvFrom env set ctx src size (csvStart r i) (32 :: (escaped (csvEscape ctx) v ++ X)) =
      csvFrom env set ctx src size ⟨r, .start, readBack ctx v, i, false⟩ X := by
  rw [csvFrom_skip hx hq, csvFrom_append, csvStart,
    run_cellValue hx (.inr ⟨rfl, hq⟩) (by simpa using hroom), ok_bind,
    nil_append]

theorem csvFrom_unclosed (hroom : (escaped (csvEscape ctx) v).length ≤ size) :
    csvFrom env set ctx src size (csvStart r i) (32 :: escaped (csvEscape ctx) v) =
      csvFinish env set ctx src size ⟨r, .start, readBack ctx v, i, false⟩ := by
  rw [← append_nil (escaped (csvEscape ctx) v), csvFrom_space hx hq hroom, csvFrom_nil]

variable {as : List (CStr × NxValue)}

/-- The closing quote becomes part of the value. -/
theorem csvFrom_closed (hf : ctx.fields.drop i = f :: gs)
    (hok : StringFields val (f :: gs)) (hv : val f ≠ [])
    (hroom : (escaped (csvEscape ctx) (val f)).length + 1 < size)
    (hsize : size ≤ stringLimit) {X : Bytes} (hX : X = [] ∨ ∃ Y, X = ctx.delimiter :: Y) :
    csvFrom env expect ctx src size (csvStart ((f.name, strValue (val f)) :: as) i)
      (32 :: (escaped (csvEscape ctx) (val f) ++ 32 :: X)) ≠ .ok [] := by
  have hread := readBack_length hx (val f)
  have hty := hok.types f mem_cons_self
  have h0 := zero_not_mem_readBack hx (hok.values f mem_cons_self)
  have hne := readBack_ne_nil hx hv
  have hspace : csvStep env expect ctx src size
      ⟨(f.name, strValue (val f)) :: as, .start, readBack ctx (val f), i, false⟩ 32 =
      .ok ⟨(f.name, strValue (val f)) :: as, .start, readBack ctx (val f) ++ [32], i, false⟩ := by
    have h1 : (32 : UInt8) ≠ ctx.escapechar := hq ▸ hx.ne.2.2
    have h2 : (32 : UInt8) ≠ ctx.delimiter := hq ▸ Ne.symm hx.ne.1
    have hput : put size (readBack ctx (val f)) [32] = .ok (readBack ctx (val f) ++ [32]) :=
      put_ok (by rw [length_singleton]; omega)
    simp [csvStep, startByte, h1, h2, hne, writeBytes, hput]
  have h0' : 0 ∉ readBack ctx (val f) ++ [32] := by simp [h0]
  have hlen : (readBack ctx (val f) ++ [32]).length = (readBack ctx (val f)).length + 1 := by simp
  have hlonger : strValue (val f) ≠ csvAssigned ctx (readBack ctx (val f) ++ [32]) := by
    intro h
    have := congrArg length ((csvAssigned_eq_iff h0').mp h.symm).1
    omega
  rw [csvFrom_space hx hq (by omega), csvFrom_cons, hspace, ok_bind]
  intro h
  rcases hX with rfl | ⟨Y, rfl⟩
  · rw [csvFrom_nil, csvFinish_store (.inr ⟨rfl, by simp⟩) hf hty h0' (by omega) (by omega)] at h
    obtain ⟨as', hset, -⟩ := bind_eq_ok.mp h
    exact hlonger (expect_inv hset).1
  · rw [csvFrom_cons, csvStep_delimiter hx (.inr ⟨rfl, by simp⟩) hf hty h0' (by omega) (by omega)] at h
    obtain ⟨p, hp, -⟩ := bind_eq_ok.mp h
    obtain ⟨as', hset, -⟩ := bind_eq_ok.mp hp
    exact hlonger (expect_inv hset).1

/-- What is left of a value that is cut off is not the value. -/
theorem csvFrom_unclosedPart (hf : ctx.fields.drop i = f :: gs)
    (hok : StringFields val (f :: gs)) {m : Nat} (hm : m < (escaped (csvEscape ctx) (val f)).length)
    (hroom : m < size)
    (hsize : size ≤ stringLimit) :
    csvFrom env expect ctx src size (csvStart ((f.name, strValue (val f)) :: as) i)
      (32 :: (escaped (csvEscape ctx) (val f)).take m) ≠ .ok [] := by
  have hlen : ((escaped (csvEscape ctx) (val f)).take m).length = m := by simp; omega
  have hne : (escaped (csvEscape ctx) (val f)).take m ≠ escaped (csvEscape ctx) (val f) := by
    intro h
    rw [h] at hlen
    omega
  have hroom' : ([] : Bytes).length + ((escaped (csvEscape ctx) (val f)).take m).length ≤ size := by
    rw [hlen, length_nil]
    omega
  obtain ⟨j, u, hle, hrun, hj⟩ :=
    run_cellPart env expect src (r := (f.name, strValue (val f)) :: as) (i := i) hx
    (.inr ⟨rfl, hq⟩) hroom' (List.take_prefix _ _)
  rw [if_neg hne] at hj
  rw [hlen] at hle
  rw [csvFrom_skip hx hq, csvFrom, csvStart, hrun, ok_bind, nil_append]
  intro h
  by_cases hnil : readBack ctx ((val f).take j) = []
  · rw [hnil] at h
    cases csvFinish_start h
  have h0 : 0 ∉ readBack ctx ((val f).take j) :=
    zero_not_mem_readBack hx fun hm => hok.values f mem_cons_self (mem_of_mem_take hm)
  rw [csvFinish_store (.inr ⟨rfl, hnil⟩) hf (hok.types f mem_cons_self) h0 (by omega) (by omega)] at h
  obtain ⟨as', hset, -⟩ := bind_eq_ok.mp h
  have hsame := ((csvAssigned_eq_iff h0).mp (expect_inv hset).1.symm).1
  have := congrArg length (readBack_eq hx (List.take_prefix _ _) hsame).1
  rw [length_take] at this
  omega

end Line

end Steps

/-! ## The round trip -/

/-- A context with three printable and different characters, fields of type STRING and
the default quoting, and a record that gives each of its fields a string. -/
structure CsvRecord (ctx : CsvCtx) (ld : Logdata) : Prop where
  apart : ctx.Apart
  method : ctx.quote_method = .string
  types : ∀ f ∈ ctx.fields, f.valueType = .string
  given : ∀ f ∈ ctx.fields, CsvGiven ld f

/-- There is a field; each value is read back as it is, and is not the text for an
undefined value; and the line is below the limit. A space for a quote is skipped in
front of a value and kept behind it, so then there must be a single value, of which the
limit cuts off the closing quote. -/
structure CsvRestores (ctx : CsvCtx) (vs : List Bytes) : Prop where
  fields : vs ≠ []
  values : ∀ v ∈ vs, Restored ctx v ∧ ∀ u, ctx.undefvalue = some u → u.1 ≠ v
  fits : if ctx.quotechar = 32 then vs.length = 1 ∧ (csvText ctx vs).length = stringLimit
    else (csvText ctx vs).length < stringLimit

/-- The parser sets the fields of the context, in their order, to their strings. -/
def CsvYields (tenv : TextEnv) (env : ValueEnv) (ctx : CsvCtx) (ld : Logdata) : Prop :=
  ∃ text, logdataToCsv tenv ctx ld = .ok text ∧ ∀ (σ : Type) (set : Setter σ) (s : σ),
    csvParse env set ctx s (text ++ [0]) text.length = setAll set s (csvAssignments (csvValue ld) ctx.fields)

section Roundtrip

variable {tenv : TextEnv} {env : ValueEnv} {ctx : CsvCtx} {ld : Logdata}

theorem csvParse_text {σ : Type} (set : Setter σ) (s : σ) (hne : ctx.fields ≠ []) {text : Bytes}
    (h : text.length < stringLimit) : csvParse env set ctx s (text ++ [0]) text.length =
      csvFrom env set ctx (text ++ [0]) (text.length + 1) (csvStart s 0) text := by
  have hl : stringLimit = 1048576 := rfl
  have h0 : ¬ ctx.fields.length = 0 := fun h => hne (length_eq_zero_iff.mp h)
  rw [csvParse, textLen_length, ok_bind, if_neg h0, cInt_of_lt (by omega), Int.toNat_natCast,
    rdBytes_ok (by simp), ok_bind, drop_zero, take_left' rfl]

theorem length_le_csvText (ctx : CsvCtx) {vs : List Bytes} (hv : v ∈ vs) :
    v.length + 2 ≤ (csvText ctx vs).length := by
  have hle := le_length_escaped (csvEscape ctx) v
  have hcell := length_cell ctx v
  cases vs with
  | nil => cases hv
  | cons w vs =>
    rw [csvText, length_append]
    rcases mem_cons.mp hv with rfl | hv
    · omega
    · obtain ⟨a, b, rfl⟩ := append_of_mem hv
      simp only [csvRest, flatMap_append, flatMap_cons, length_append, length_cons]
      omega

variable (h : CsvRecord ctx ld)
include h

theorem CsvRecord.stringFields : StringFields (csvValue ld) ctx.fields :=
  ⟨h.types, fun f hf => (h.given f hf).value.2.1⟩

/-- What is read back of the values is what the values are set to. -/
theorem csvReadAssignments_eq_iff :
    csvReadAssignments ctx (csvValue ld) ctx.fields = csvAssignments (csvValue ld) ctx.fields ↔
      ∀ v ∈ ctx.fields.map (csvValue ld), Restored ctx v ∧ ∀ u, ctx.undefvalue = some u → u.1 ≠ v := by
  have hone : ∀ f ∈ ctx.fields, csvAssigned ctx (readBack ctx (csvValue ld f)) = strValue (csvValue ld f) ↔
      Restored ctx (csvValue ld f) ∧ ∀ u, ctx.undefvalue = some u → u.1 ≠ csvValue ld f := by
    intro f hf
    rw [csvAssigned_eq_iff (zero_not_mem_readBack h.apart (h.given f hf).value.2.1), restored_iff]
    refine and_congr_left' ⟨?_, readBack_restored h.apart⟩
    exact fun heq => (readBack_eq h.apart (prefix_refl _) heq).2
  rw [csvReadAssignments, csvAssignments, map_inj_left, forall_mem_map]
  refine forall₂_congr fun f hf => ?_
  rw [Prod.mk.injEq, ← hone f hf]
  exact and_iff_right rfl

omit h in
theorem csvText_space (hq : ctx.quotechar = 32) (v : Bytes) (vs : List Bytes) :
    csvText ctx (v :: vs) = 32 :: (escaped (csvEscape ctx) v ++ 32 :: csvRest ctx vs) := by
  simp [csvText, cell, hq]

theorem csvYields_of_restores (hr : CsvRestores ctx (ctx.fields.map (csvValue ld))) :
    CsvYields tenv env ctx ld := by
  have hne : ctx.fields ≠ [] := fun hnil => hr.fields (by rw [hnil]; rfl)
  have hassign := (csvReadAssignments_eq_iff h).mpr hr.values
  have hfits := hr.fits
  have hwrite : (csvText ctx (ctx.fields.map (csvValue ld))).length ≤ stringLimit →
    logdataToCsv tenv ctx ld = _ := fun hle =>
    (logdataToCsv_returns h.apart.escape_ne_zero h.method hne h.given).eq_ok fun ⟨g, hg, hlong⟩ => by
      have := length_le_csvText ctx (mem_map_of_mem (f := csvValue ld) hg)
      omega
  by_cases hq : ctx.quotechar = 32
  · rw [if_pos hq] at hfits
    obtain ⟨hone, hlen⟩ := hfits
    rw [length_map] at hone
    obtain ⟨f, hf⟩ := length_eq_one_iff.mp hone
    have htext : csvText ctx (ctx.fields.map (csvValue ld)) =
      32 :: (escaped (csvEscape ctx) (csvValue ld f) ++ [32]) := by
      rw [hf]
      exact csvText_space hq _ _
    have hwrite := hwrite (Nat.le_of_eq hlen)
    rw [htext, length_cons, length_append, length_singleton] at hlen
    rw [htext, show stringLimit - 1 = (escaped (csvEscape ctx) (csvValue ld f)).length + 1 by omega,
      take_succ_cons, take_left' rfl] at hwrite
    refine ⟨_, hwrite, ?_⟩
    intro σ set s
    have hlen' : (32 :: escaped (csvEscape ctx) (csvValue ld f)).length < stringLimit := by
      rw [length_cons]
      omega
    have hok : StringFields (csvValue ld) [f] := hf ▸ h.stringFields
    have hv := (h.given f (by rw [hf]; exact mem_cons_self)).value.1
    have h0 := zero_not_mem_readBack h.apart (hok.values f mem_cons_self)
    have hread := (readBack_length h.apart (csvValue ld f)).2
    rw [csvParse_text set s hne hlen', csvFrom_unclosed h.apart hq (by rw [length_cons]; omega),
      csvFinish_store (.inr ⟨rfl, readBack_ne_nil h.apart hv⟩) (i := 0) hf
        (hok.types f mem_cons_self) h0 (by rw [length_cons]; omega) (by omega), ← hassign, hf]
    rfl
  · rw [if_neg hq] at hfits
    have hwrite := hwrite (by omega)
    rw [take_limit_eq_iff.mpr hfits] at hwrite
    refine ⟨_, hwrite, ?_⟩
    intro σ set s
    rw [csvParse_text set s hne hfits, csvFrom_text h.apart hq hfits hne rfl h.stringFields
      (Nat.lt_succ_self _), hassign]

/-- The first part of a line with spaces for quotes that is read back. -/
theorem restores_of_space (hq : ctx.quotechar = 32) {f : CsvField} {gs : List CsvField}
    (hf : ctx.fields = f :: gs) {src : Bytes} {n size : Nat} (hn : n ≠ 0) (hroom : n < size)
    (hsize : size ≤ stringLimit)
    (hparse : csvFrom env expect ctx src size (csvStart (csvAssignments (csvValue ld) ctx.fields) 0)
      ((csvText ctx (ctx.fields.map (csvValue ld))).take n) = .ok []) :
    gs = [] ∧ n = (escaped (csvEscape ctx) (csvValue ld f)).length + 1 ∧
      csvReadAssignments ctx (csvValue ld) ctx.fields = csvAssignments (csvValue ld) ctx.fields := by
  obtain ⟨m, rfl⟩ := Nat.exists_eq_succ_of_ne_zero hn
  have hok : StringFields (csvValue ld) (f :: gs) := hf ▸ h.stringFields
  have hv := (h.given f (by rw [hf]; exact mem_cons_self)).value.1
  have hdrop : ctx.fields.drop 0 = f :: gs := hf
  rw [hf, map_cons, csvText_space hq, take_succ_cons, csvAssignments, map_cons] at hparse
  by_cases hlt : m < (escaped (csvEscape ctx) (csvValue ld f)).length
  · rw [take_append_of_le_length (by omega)] at hparse
    exact absurd hparse (csvFrom_unclosedPart h.apart hq hdrop hok hlt (by omega) hsize)
  obtain ⟨k, rfl⟩ : ∃ k, m = (escaped (csvEscape ctx) (csvValue ld f)).length + k :=
    ⟨m - (escaped (csvEscape ctx) (csvValue ld f)).length, by omega⟩
  rw [take_length_add_append] at hparse
  cases k with
  | zero =>
    have h0 := zero_not_mem_readBack h.apart (hok.values f mem_cons_self)
    have hread := (readBack_length h.apart (csvValue ld f)).2
    rw [take_zero, append_nil, csvFrom_unclosed h.apart hq (by omega),
      csvFinish_store (.inr ⟨rfl, readBack_ne_nil h.apart hv⟩)
      hdrop (hok.types f mem_cons_self) h0 (by omega) (by omega)] at hparse
    obtain ⟨as, hset, hparse⟩ := bind_eq_ok.mp hparse
    obtain ⟨hval, rfl⟩ := expect_inv hset
    split at hparse
    · have hnil : gs = [] := map_eq_nil_iff.mp (Except.ok.inj hparse)
      refine ⟨hnil, rfl, ?_⟩
      rw [hf, hnil, csvReadAssignments, csvAssignments, map_singleton, map_singleton, hval]
    · cases hparse
  | succ k =>
    rw [take_succ_cons] at hparse
    refine absurd hparse (csvFrom_closed h.apart hq hdrop hok hv (by omega) hsize ?_)
    cases gs with
    | nil => exact .inl (by simp [csvRest])
    | cons g gs =>
      rw [map_cons, csvRest_cons]
      cases k with
      | zero => exact .inl rfl
      | succ k => exact .inr ⟨_, take_succ_cons⟩

theorem restores_of_csvYields (hy : CsvYields tenv env ctx ld) :
    CsvRestores ctx (ctx.fields.map (csvValue ld)) := by
  have hl : stringLimit = 1048576 := rfl
  obtain ⟨text, hwrite, hparse⟩ := hy
  have hne : ctx.fields ≠ [] := by
    intro hnil
    rw [logdataToCsv, hnil] at hwrite
    cases hwrite
  obtain rfl := (logdataToCsv_returns h.apart.escape_ne_zero h.method hne h.given).inj hwrite
  have hparse := hparse _ expect (csvAssignments (csvValue ld) ctx.fields)
  rw [setAll_expect, csvParse_text _ _ hne (by rw [length_take]; omega)] at hparse
  obtain ⟨f, gs, hf⟩ := exists_cons_of_ne_nil hne
  have hfields : ctx.fields.map (csvValue ld) ≠ [] := fun hnil => hne (map_eq_nil_iff.mp hnil)
  have hlen : ((csvText ctx (ctx.fields.map (csvValue ld))).take (stringLimit - 1)).length =
    min (stringLimit - 1) (csvText ctx (ctx.fields.map (csvValue ld))).length := length_take
  by_cases hq : ctx.quotechar = 32
  · have htext : csvText ctx (ctx.fields.map (csvValue ld)) =
        32 :: (escaped (csvEscape ctx) (csvValue ld f) ++ 32 :: csvRest ctx (gs.map (csvValue ld))) := by
      rw [hf]
      exact csvText_space hq _ _
    have htake : (csvText ctx (ctx.fields.map (csvValue ld))).take (stringLimit - 1) =
        (csvText ctx (ctx.fields.map (csvValue ld))).take
          (min (stringLimit - 1) (csvText ctx (ctx.fields.map (csvValue ld))).length) := by
      rw [← take_take, take_length]
    rw [hlen, htake] at hparse
    have hlong := congrArg length htext
    rw [length_cons, length_append, length_cons] at hlong
    obtain ⟨hnil, hn, hassign⟩ :=
      restores_of_space h hq hf (by omega) (Nat.lt_succ_self _) (by omega) hparse
    have hrest : (csvRest ctx (gs.map (csvValue ld))).length = 0 := by rw [hnil]; rfl
    refine ⟨hfields, (csvReadAssignments_eq_iff h).mp hassign, ?_⟩
    rw [if_pos hq]
    exact ⟨by rw [hf, hnil]; rfl, by omega⟩
  · by_cases hfits : (csvText ctx (ctx.fields.map (csvValue ld))).length < stringLimit
    · rw [take_limit_eq_iff.mpr hfits, csvFrom_text h.apart hq hfits hne rfl h.stringFields
        (Nat.lt_succ_self _)] at hparse
      exact ⟨hfields, (csvReadAssignments_eq_iff h).mp (eq_of_setAll_expect hparse),
        by rw [if_neg hq]; exact hfits⟩
    · rw [hlen, Nat.min_eq_left (by omega)] at hparse
      exact absurd hparse (csvFrom_cut h.apart hq (by omega) hne rfl h.stringFields (by omega) (by omega))

end Roundtrip

/-- The strings come back exactly if the line restores them. If the names of the fields
are different, and none is `raw_event`, a record then has the strings, and its other
fields stay as they are. -/
theorem csv_roundtrip_iff (tenv : TextEnv) (env : ValueEnv) (ctx : CsvCtx) (ld : Logdata)
    (h : CsvRecord ctx ld) :
    (CsvYields tenv env ctx ld ↔ CsvRestores ctx (ctx.fields.map (csvValue ld))) ∧
    (CsvRestores ctx (ctx.fields.map (csvValue ld)) →
      (ctx.fields.Pairwise fun f g => ¬ strcasecmp f.name g.name) →
      (∀ f ∈ ctx.fields, f.name ≠ rawEvent) → ∃ text, logdataToCsv tenv ctx ld = .ok text ∧ ∀ s :
        Store, Usable s.ld → ∃ s', csvParse env storeSet ctx s (text ++ [0]) text.length = .ok s' ∧
          Assigned s.ld (csvAssignments (csvValue ld) ctx.fields) s'.ld) := by
  refine ⟨⟨restores_of_csvYields h, csvYields_of_restores h⟩, ?_⟩
  intro hr hdistinct hraw
  obtain ⟨text, hwrite, hparse⟩ : CsvYields tenv env ctx ld := csvYields_of_restores h hr
  refine ⟨text, hwrite, ?_⟩
  intro s hs
  have hok : ∀ a ∈ csvAssignments (csvValue ld) ctx.fields, a.1 ≠ rawEvent ∧ valueFree a.2 = .ok () := by
    intro a ha
    obtain ⟨f, hf, rfl⟩ := mem_map.mp ha
    exact ⟨hraw f hf, rfl⟩
  obtain ⟨s', hset, hassigned⟩ := setAll_store hs (pairwise_map.mpr hdistinct) hok
  exact ⟨s', (hparse Store storeSet s).trans hset, hassigned⟩

/-- The default context with two columns `A` and `B`. -/
def twoColumns : CsvCtx :=
  { csvCtxInit with fields := [⟨cut [65], .string⟩, ⟨cut [66], .other ⟨0, .inl rfl⟩⟩] }

def quotedRecord : Logdata :=
  ⟨some 0, [⟨rawEvent, ⟨TRUE, .string (some ⟨0, []⟩)⟩⟩,
    ⟨cut [65], ⟨TRUE, .string (some ⟨1, [34, 92, 10, 32]⟩)⟩⟩,
    ⟨cut [98], ⟨TRUE, .string (some ⟨2, [120]⟩)⟩⟩], []⟩

theorem csv_roundtrip_quoted : CsvRecord twoColumns quotedRecord ∧
    CsvYields ⟨fun _ => Res.fault, fun _ => Res.fault⟩
      ⟨fun _ => Res.fault, fun _ => none, fun _ => Res.fault, fun _ => Res.fault⟩ twoColumns quotedRecord := by
  have hrec : CsvRecord twoColumns quotedRecord := by
    refine ⟨⟨by decide +kernel, by decide⟩, rfl, by decide, ?_⟩
    intro f hf
    simp only [twoColumns, mem_cons, not_mem_nil, or_false] at hf
    rcases hf with rfl | rfl
    · exact ⟨⟨1, [34, 92, 10, 32]⟩, by decide, by decide, by decide, by decide⟩
    · exact ⟨⟨2, [120]⟩, by decide, by decide, by decide, by decide⟩
  refine ⟨hrec, (csv_roundtrip_iff _ _ twoColumns quotedRecord hrec).1.mpr ⟨by decide, ?_, by decide⟩⟩
  intro v hv
  refine ⟨?_, fun u hu => nomatch hu⟩
  have hvs : twoColumns.fields.map (csvValue quotedRecord) = [[34, 92, 10, 32], [120]] := by decide
  rw [hvs] at hv
  simp only [mem_cons, not_mem_nil, or_false] at hv
  unfold Restored
  rcases hv with rfl | rfl
  · decide +kernel
  · decide +kernel

def commaRecord : Logdata :=
  ⟨some 0, [⟨rawEvent, ⟨TRUE, .string (some ⟨0, []⟩)⟩⟩,
    ⟨cut [65], ⟨TRUE, .string (some ⟨1, [97, 44, 98]⟩)⟩⟩], []⟩

def oneColumn : CsvCtx := { csvCtxInit with fields := [⟨cut [65], .string⟩] }

/-- The line is `"a\,b"`, and the parser keeps the backslash in front of the comma. -/
theorem csv_roundtrip_comma : CsvRecord oneColumn commaRecord ∧
    logdataToCsv ⟨fun _ => Res.fault, fun _ => Res.fault⟩ oneColumn commaRecord =
    .ok [34, 97, 92, 44, 98, 34] ∧
    csvParse ⟨fun _ => Res.fault, fun _ => none, fun _ => Res.fault, fun _ => Res.fault⟩ expect oneColumn
      [(⟨[65], by decide⟩, strValue [97, 92, 44, 98])] [34, 97, 92, 44, 98, 34, 0] 6 = .ok [] ∧
    ¬ CsvYields ⟨fun _ => Res.fault, fun _ => Res.fault⟩
      ⟨fun _ => Res.fault, fun _ => none, fun _ => Res.fault, fun _ => Res.fault⟩ oneColumn commaRecord := by
  have hwrite : logdataToCsv ⟨fun _ => Res.fault, fun _ => Res.fault⟩ oneColumn commaRecord =
    .ok [34, 97, 92, 44, 98, 34] := by decide
  have hread : csvParse ⟨fun _ => Res.fault, fun _ => none, fun _ => Res.fault, fun _ =>
    Res.fault⟩ expect oneColumn
      [(⟨[65], by decide⟩, strValue [97, 92, 44, 98])] [34, 97, 92, 44, 98, 34, 0] 6 = .ok [] := by decide
  refine ⟨⟨⟨by decide +kernel, by decide +kernel⟩, rfl, by decide, ?_⟩, hwrite, hread, ?_⟩
  · intro f hf
    rw [oneColumn, mem_singleton] at hf
    subst hf
    exact ⟨⟨1, [97, 44, 98]⟩, by decide, by decide, by decide, by decide⟩
  · intro ⟨text, htext, hparse⟩
    rw [hwrite] at htext
    cases htext
    have := (hparse _ expect [(⟨[65], by decide⟩, strValue [97, 92, 44, 98])]).symm.trans hread
    have hne := eq_of_setAll_expect this
    revert hne
    decide

end Nxlog.L3
