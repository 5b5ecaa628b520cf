import Nxlog.L3Protocol.Multiline

/-!
# What the multi-line reader loses

The bytes that were read should be, in their order, in the records that were returned (before a line
break is stripped from their ends), the record under way and the line under way.

A header line completes the record under way and begins the next one. If it is also the last line
that `FixedLineCount` waits for, the new record takes the place of the one that was to be returned.
Text over the string limit is cut off.

* `Texts.Keeps`: nothing of the kind happens to the next piece of a line.
* `add_balance`, `readLoop_balance`, `flush_balance`: otherwise something is missing, and stays
  missing.
* `multiline_conserves_iff`: for every run.
-/
namespace Nxlog.L3.Multiline
open L1 L2 Input Res List

/-! ## Texts that are complete or too short -/

/-- `got` is all there was if the condition holds, and shorter otherwise. -/
structure Balance (keeps : Prop) (got all : Bytes) : Prop where
  eq : keeps → got = all
  lt : ¬ keeps → got.length < all.length

namespace Balance

variable {k k' : Prop} {a b c x : Bytes}

theorem eq_iff (h : Balance k a b) : a = b ↔ k := by
  constructor
  · intro heq
    by_cases hk : k
    · exact hk
    · have hlt := h.lt hk
      rw [heq] at hlt
      exact absurd hlt (Nat.lt_irrefl _)
  · exact h.eq

theorem length_le (h : Balance k a b) : a.length ≤ b.length := by
  by_cases hk : k
  · rw [h.eq hk]
  · exact Nat.le_of_lt (h.lt hk)

theorem refl (hk : k) (a : Bytes) : Balance k a a := ⟨fun _ => rfl, fun h => absurd hk h⟩

theorem congr (h : Balance k a b) (hk : k ↔ k') : Balance k' a b :=
  ⟨fun h' => h.eq (hk.mpr h'), fun h' => h.lt fun hn => h' (hk.mp hn)⟩

/-- What is missing in front stays missing. -/
theorem trans (h : Balance k a b) (h' : Balance k' c (a ++ x)) : Balance (k ∧ k') c (b ++ x) := by
  constructor
  · rintro ⟨hk, hk'⟩
    rw [h'.eq hk', h.eq hk]
  intro hn
  have hle := h.length_le
  have hle' := h'.length_le
  rw [length_append] at hle' ⊢
  by_cases hk : k
  · have hlt := h'.lt fun hk' => hn ⟨hk, hk'⟩
    rw [length_append] at hlt
    omega
  · have hlt := h.lt hk
    omega

theorem prepend (h : Balance k a b) (x : Bytes) : Balance k (x ++ a) (x ++ b) :=
  ⟨fun hk => by rw [h.eq hk], fun hk => by simpa using h.lt hk⟩

end Balance

theorem appendCut_balance (x : Bytes) {y : Bytes} (hy : y ≠ []) :
    Balance (x.length + y.length < stringLimit) (appendCut x y) (x ++ y) := by
  have hpos := length_pos_iff.mpr hy
  refine ⟨appendCut_of_lt, fun h => ?_⟩
  rw [appendCut, length_append, length_append, length_take]
  omega

/-! ## One piece of a line -/

def Texts.text (t : Texts) : Bytes := t.logdata.getD [] ++ t.tmpline.getD []

/-- The line can be joined to the record under way: together they are below the limit, or it is a
header line that is not the last one that `FixedLineCount` waits for. -/
def Texts.Joins (conf : Conf) (t : Texts) (line : Bytes) : Prop :=
  ∀ r, t.logdata = some r →
    if conf.ending line = true ∨ conf.header line = false then r.length + line.length < stringLimit
    else ¬ (0 < conf.fixedlinecount ∧ conf.fixedlinecount ≤ t.linecount + 1)

/-- The line under way has room for the piece, and can be joined to the record under way if that
completes it. -/
def Texts.Keeps (conf : Conf) (t : Texts) (piece : Bytes) : Prop :=
  (∀ x, t.tmpline = some x → x.length + piece.length < stringLimit) ∧
    (endsBreak piece = true → t.Joins conf (t.line piece))

instance (conf : Conf) (t : Texts) (line : Bytes) : Decidable (t.Joins conf line) :=
  inferInstanceAs (Decidable (∀ r ∈ t.logdata, ite _ _ _))

instance (conf : Conf) (t : Texts) (piece : Bytes) : Decidable (t.Keeps conf piece) :=
  inferInstanceAs (Decidable ((∀ x ∈ t.tmpline, _) ∧ (_ → _)))

/-- Texts under way are not empty, and the counter is below `FixedLineCount`. -/
structure Texts.Sound (conf : Conf) (t : Texts) : Prop where
  tmpline : t.tmpline ≠ some []
  logdata : t.logdata ≠ some []
  count : 0 < conf.fixedlinecount → t.linecount < conf.fixedlinecount

theorem appendCut_ne_nil {x : Bytes} (y : Bytes) (hx : x ≠ []) : appendCut x y ≠ [] := by
  simp [appendCut, hx]

section Piece

variable {conf : Conf} {t : Texts}

variable (h : t.Sound conf)
include h

variable {piece : Bytes}

theorem Texts.Sound.line_ne_nil (hp : piece ≠ []) : t.line piece ≠ [] := by
  unfold Texts.line
  cases hx : t.tmpline with
  | none => exact hp
  | some x => exact appendCut_ne_nil piece fun hnil => h.tmpline (by rw [hx, hnil])

omit h in
theorem line_balance (t : Texts) (hp : piece ≠ []) :
    Balance (∀ x, t.tmpline = some x → x.length + piece.length < stringLimit) (t.line piece)
      (t.tmpline.getD [] ++ piece) := by
  unfold Texts.line
  cases hx : t.tmpline with
  | none => exact Balance.refl (by simp) piece
  | some x =>
    refine (appendCut_balance x hp).congr ?_
    simp

variable {line : Bytes}

variable (conf) in
omit h in
/-- With no record to return, what `FixedLineCount` returns was under way. -/
theorem count_under (hline : line ≠ []) (n : Int) :
    (Texts.count conf (none, ⟨none, some line, n⟩)).1.getD [] ++
        (Texts.count conf (none, ⟨none, some line, n⟩)).2.text = line ∧
      (Texts.count conf (none, ⟨none, some line, n⟩)).2.Sound conf := by
  unfold Texts.count
  split
  · exact ⟨by simp [Texts.text], by simp, by simp, fun hpos => hpos⟩
  · next hc => exact ⟨by simp [Texts.text],
      by simp, by simpa using hline, fun hpos => by simp only at hc ⊢; omega⟩

/-- A complete line is joined to the texts, or one of them is lost. -/
theorem complete_balance (hline : line ≠ []) :
    Balance (t.Joins conf line) ((t.complete conf line).1.getD [] ++ (t.complete conf line).2.text)
      (t.logdata.getD [] ++ line) ∧ (t.complete conf line).2.Sound conf := by
  have hcount := h.count
  unfold Texts.Joins Texts.complete Texts.join
  cases hlog : t.logdata with
  | none =>
    simp only [reduceCtorEq, false_imp_iff, forall_const]
    split
    · next hno =>
      rw [Texts.count, if_neg (by omega)]
      exact ⟨by simpa [Texts.text] using Balance.refl trivial line, by simp, by simp, fun hpos => hpos⟩
    · obtain ⟨heq, hsound⟩ := count_under conf hline (t.linecount + 1)
      exact ⟨by rw [heq]; exact Balance.refl trivial line, hsound⟩
  | some r =>
    have hr : r ≠ [] := fun hnil => h.logdata (by rw [hlog, hnil])
    have hcut := appendCut_balance r hline
    simp only [Option.some.injEq, forall_eq']
    by_cases hend : conf.ending line = true
    · rw [if_pos hend, if_pos (.inl hend), Texts.count, if_neg (by simp only; omega)]
      exact ⟨by simpa [Texts.text] using hcut, by simp, by simp, hcount⟩
    by_cases hhead : conf.header line = true
    · -- the only record that can be replaced
      rw [if_neg hend, if_pos hhead, if_neg (by simp [hend, hhead]), Texts.count]
      split
      · next hfull =>
        refine ⟨⟨fun hnot => absurd hfull hnot, fun _ => ?_⟩, by simp, by simp, fun hpos => hpos⟩
        simpa [Texts.text] using length_pos_iff.mpr hr
      · next hfull =>
        exact ⟨by simpa [Texts.text] using Balance.refl hfull (r ++ line),
          by simp, by simpa using hline, fun hpos => by simp only at hfull ⊢; omega⟩
    · obtain ⟨heq, hsound⟩ := count_under conf (appendCut_ne_nil line hr) (t.linecount + 1)
      rw [if_neg hend, if_neg hhead, if_pos (.inr (by simpa using hhead))]
      exact ⟨by rw [heq]; exact hcut, hsound⟩

theorem add_balance (hp : piece ≠ []) :
    Balance (t.Keeps conf piece) ((t.add conf piece).1.getD [] ++ (t.add conf piece).2.text)
    (t.text ++ piece) := by
  have hline := (line_balance t hp).prepend (t.logdata.getD [])
  rw [← append_assoc] at hline
  unfold Texts.Keeps Texts.add
  cases hend : endsBreak piece with
  | false => simpa [Texts.text] using hline
  | true =>
    have hcomplete := (complete_balance h (h.line_ne_nil hp)).1
    rw [← append_nil (t.logdata.getD [] ++ t.line piece)] at hcomplete
    simpa [Texts.text] using hline.trans hcomplete

theorem Texts.Sound.add (hp : piece ≠ []) : (t.add conf piece).2.Sound conf := by
  have hline := h.line_ne_nil hp
  unfold Texts.add
  split
  · exact (complete_balance h hline).2
  · exact ⟨by simpa using hline, h.logdata, h.count⟩

end Piece

/-! ## A call -/

def Ctx.texts (ctx : Ctx) : Texts :=
  ⟨ctx.tmpline.bind rawEventText, ctx.logdata.bind rawEventText, ctx.linecount⟩

@[simp] theorem Texts.texts_ctx (t : Texts) : t.ctx.texts = t := by
  obtain ⟨tmpline, logdata, linecount⟩ := t
  cases tmpline <;> cases logdata <;> simp [Texts.ctx, Ctx.texts, rawEventText_lineRecord]

/-- Nothing is lost in any pass of the loop. -/
def LoopKeeps (conf : Conf) : Nat → Input → Ctx → Prop
  | 0, _, _ => True
  | fuel + 1, input, ctx =>
    ctx.texts.Keeps conf (firstPiece input.pending).1 ∧
      ∀ retval input' ctx', turn conf input ctx = .ok (retval, false, input', ctx') →
      LoopKeeps conf fuel input' ctx'

instance LoopKeeps.decidable (conf : Conf) :
    ∀ (fuel : Nat) (input : Input) (ctx : Ctx), Decidable (LoopKeeps conf fuel input ctx)
  | 0, _, _ => .isTrue trivial
  | fuel + 1, input, ctx =>
    match h : turn conf input ctx with
    | .error _ | .ok (_, true, _, _) =>
      decidable_of_iff (ctx.texts.Keeps conf (firstPiece input.pending).1) (by simp [LoopKeeps, h])
    | .ok (retval, false, input', ctx') =>
      have := LoopKeeps.decidable conf fuel input' ctx'
      decidable_of_iff (ctx.texts.Keeps conf (firstPiece input.pending).1 ∧
        LoopKeeps conf fuel input' ctx') (by simp [LoopKeeps, h])

section Calls

variable {conf : Conf} {bufsize : Nat}

theorem readLoop_balance (hexec : conf.exec = none) (hlim : bufsize < stringLimit) (fuel : Nat) (input : Input)
    (t : Texts) (hsound : t.Sound conf) (hw : input.Wf) (hsize : input.bufsize = bufsize)
    (hne : input.pending ≠ []) (hfuel : input.pending.length ≤ fuel) :
    ∃ (bytes : Bytes) (r : Option Bytes) (input' : Input) (t' : Texts),
      readLoop conf fuel input t.ctx = .ok (r.map lineRecord, input', t'.ctx) ∧ input'.Wf ∧
      input'.bufsize = bufsize ∧ input.pending = bytes ++ input'.pending ∧ t'.Sound conf ∧
      Balance (LoopKeeps conf fuel input t.ctx) (r.getD [] ++ t'.text) (t.text ++ bytes) := by
  induction fuel generalizing input t with
  | zero => exact absurd (length_eq_zero_iff.mp (Nat.le_zero.mp hfuel)) hne
  | succ fuel ih =>
    obtain ⟨piece, input1, done, hpiece, hw1, hsize1, hne0, hp, hturn, hdone⟩ :=
      turn_eq hexec hw (hsize ▸ hlim) t hne
    have hlen := congrArg length hp
    rw [length_append] at hlen
    have hpos := length_pos_iff.mpr hne0
    have hadd := add_balance hsound hne0
    have hsound1 := hsound.add hne0
    rw [readLoop, LoopKeeps, hturn, ok_bind, Texts.texts_ctx, hpiece]
    cases done with
    | true => exact ⟨_, _, _, _, rfl, hw1, hsize1.trans hsize, hp, hsound1, hadd.congr (by simp)⟩
    | false =>
      obtain ⟨hnone, hne1⟩ := hdone rfl
      obtain ⟨bytes, r, input', t', hloop, hw', hsize', hp', hsound', hbalance⟩ :=
        ih input1 _ hsound1 hw1 (hsize1.trans hsize) hne1 (by omega)
      refine ⟨piece ++ bytes, r, input', t', hloop, hw', hsize', ?_, hsound', ?_⟩
      · rw [append_assoc, ← hp']
        exact hp
      · rw [hnone, Option.getD_none, nil_append] at hadd
        rw [← append_assoc]
        exact (hadd.trans hbalance).congr (by simp)

end Calls

/-! ## Runs -/

/-- The reader of one source, with the records that were returned, before they were stripped, and
the bytes that were read. -/
structure Stream where
  input : Input
  ctx : Option Ctx
  returned : List Bytes
  consumed : Bytes

def Stream.start (mem : Bytes) : Stream := ⟨fresh mem, none, [], []⟩

/-- Data arrives as far as the buffer has room, the reader is called, or what is under way is
flushed. -/
inductive Event where
  | receive (data : Bytes)
  | read
  | flush

def textOf (retval : Option Logdata) : List Bytes := (retval.bind rawEventText).toList

def Stream.step (conf : Conf) (s : Stream) : Event → Res Stream
  | .receive data => .ok { s with input := s.input.fill (data.take s.input.prepare.roomLeft) }
  | .read => do
    let (retval, input, ctx) ← readRecord conf s.input s.ctx
    let size := s.input.pending.length - input.pending.length
    return ⟨input, ctx, s.returned ++ textOf retval, s.consumed ++ s.input.pending.take size⟩
  | .flush => do
    let (retval, ctx) ← flushRecord s.ctx
    return { s with ctx := ctx, returned := s.returned ++ textOf retval }

def Stream.underway (s : Stream) : Bytes := (s.ctx.getD .empty).texts.text

/-- Every byte that was read is in a record or under way, once and in order. -/
def Conserved (s : Stream) : Prop := s.returned.flatten ++ s.underway = s.consumed

/-- No pass of the loop loses anything; what is flushed is below the limit. -/
def Stream.Keeps (conf : Conf) (s : Stream) : Event → Prop
  | .receive _ => True
  | .read => s.input.buflen = 0 ∨ LoopKeeps conf s.input.buflen.toNat s.input (s.ctx.getD .empty)
  | .flush => ∀ r x, (s.ctx.getD .empty).texts.logdata = some r →
      (s.ctx.getD .empty).texts.tmpline = some x → r.length + x.length < stringLimit

instance (conf : Conf) (s : Stream) : ∀ e, Decidable (s.Keeps conf e)
  | .receive _ => .isTrue trivial
  | .read => inferInstanceAs (Decidable (s.input.buflen = 0 ∨
      LoopKeeps conf s.input.buflen.toNat s.input (s.ctx.getD .empty)))
  | .flush =>
    decidable_of_iff (∀ r ∈ (s.ctx.getD .empty).texts.logdata, ∀ x ∈ (s.ctx.getD .empty).texts.tmpline,
      r.length + x.length < stringLimit) ⟨fun h r x hr hx => h r hr x hx, fun h r hr x hx => h r x hr hx⟩

structure Stream.Good (conf : Conf) (bufsize : Nat) (s : Stream) : Prop where
  wf : s.input.Wf
  size : s.input.bufsize = bufsize
  ctx : ∃ t : Texts, s.ctx.getD .empty = t.ctx ∧ t.Sound conf
  conserved : Conserved s

theorem textOf_lineRecord (r : Option Bytes) : textOf (r.map lineRecord) = r.toList := by
  cases r with
  | none => rfl
  | some x => simp [textOf, rawEventText_lineRecord]

theorem flatten_toList (r : Option Bytes) : r.toList.flatten = r.getD [] := by
  cases r <;> simp

section Run

variable {conf : Conf} {bufsize : Nat} {s s' : Stream}

/-- What a step adds to the records, the text under way and the bytes read balances if nothing is
lost. -/
theorem conserved_iff (hs : Conserved s) {k : Prop} {r : Option Bytes} {t' : Texts} {bytes : Bytes}
    (hbalance : Balance k (r.getD [] ++ t'.text) (s.underway ++ bytes)) (input : Input) :
    Conserved ⟨input, some t'.ctx, s.returned ++ r.toList, s.consumed ++ bytes⟩ ↔ k := by
  have hunder : (⟨input, some t'.ctx, s.returned ++ r.toList, s.consumed ++ bytes⟩ :
    Stream).underway = t'.text :=
    congrArg Texts.text t'.texts_ctx
  unfold Conserved at hs ⊢
  rw [hunder, ← hbalance.eq_iff, ← hs]
  simp only [flatten_append, flatten_toList, append_assoc, append_cancel_left_eq]

theorem readRecord_empty {input : Input} (h : input.buflen = 0) (ctx : Option Ctx) :
    readRecord conf input ctx = .ok (none, input, ctx) := by
  simp [readRecord, h]

variable (conf bufsize s) in
/-- A step ends well up to what it loses. -/
def Stream.Ends (e : Event) : Prop :=
  ∃ s', s.step conf e = .ok s' ∧ s'.input.Wf ∧ s'.input.bufsize = bufsize ∧
    (∃ t : Texts, s'.ctx.getD .empty = t.ctx ∧ t.Sound conf) ∧ (Conserved s' ↔ s.Keeps conf e)

theorem step_read (hexec : conf.exec = none) (hlim : bufsize < stringLimit)
    (hs : s.Good conf bufsize) : s.Ends conf bufsize .read := by
  obtain ⟨t, hctx, hsound⟩ := hs.ctx
  have hl := hs.wf.pending_length
  by_cases hnil : s.input.pending = []
  · have hempty := hs.wf.buflen_of_nil hnil
    refine ⟨s, ?_, hs.wf, hs.size, hs.ctx, iff_of_true hs.conserved (.inl hempty)⟩
    rw [Stream.step, readRecord_empty hempty, ok_bind]
    simp [textOf]
  · have hpos := length_pos_iff.mpr hnil
    obtain ⟨bytes, r, input', t', hloop, hw', hsize', hp, hsound', hbalance⟩ :=
      readLoop_balance hexec hlim s.input.buflen.toNat s.input t hsound hs.wf hs.size hnil (by omega)
    have hbytes : s.input.pending.take (s.input.pending.length - input'.pending.length) = bytes := by
      rw [hp, length_append, Nat.add_sub_cancel, take_left' rfl]
    have hstep : s.step conf .read =
        .ok ⟨input', some t'.ctx, s.returned ++ r.toList, s.consumed ++ bytes⟩ := by
      rw [Stream.step, readRecord_eq hs.wf hnil, hctx, hloop]
      simp only [ok_bind, pure_eq, hbytes, textOf_lineRecord]
    refine ⟨_, hstep, hw', hsize', ⟨t', rfl, hsound'⟩, ?_⟩
    rw [← hctx] at hbalance
    have hunder : s.underway = t.text := by rw [Stream.underway, hctx, Texts.texts_ctx]
    rw [conserved_iff hs.conserved (hunder.symm ▸ hbalance)]
    simp only [Stream.Keeps]
    rw [or_iff_right (by omega)]

theorem flushCtx_balance {t : Texts} (ht : t.Sound conf) :
    ∃ r t', flushCtx t.ctx = .ok (Option.map lineRecord r, Texts.ctx t') ∧ t'.Sound conf ∧
      Balance (∀ r x, t.logdata = some r → t.tmpline = some x → r.length + x.length < stringLimit)
        (r.getD [] ++ t'.text) t.text := by
  have hcount := ht.count
  unfold flushCtx
  cases hlog : t.logdata with
  | none =>
    refine ⟨t.tmpline, { t with tmpline := none }, ?_, ⟨by simp, ht.logdata, hcount⟩, ?_⟩
    · simp [Texts.ctx, hlog]
    · simpa [Texts.text, hlog] using Balance.refl (by simp) _
  | some r =>
    cases hline : t.tmpline with
    | none =>
      refine ⟨some r, { t with logdata := none }, ?_, ⟨ht.tmpline, by simp, hcount⟩, ?_⟩
      · simp [Texts.ctx, hlog, hline]
      · simpa [Texts.text, hlog, hline] using Balance.refl (by simp) r
    | some x =>
      have hx : x ≠ [] := fun hnil => ht.tmpline (by rw [hline, hnil])
      refine ⟨some (appendCut r x), { t with tmpline := none, logdata := none }, ?_,
        ⟨by simp, by simp, hcount⟩, ?_⟩
      · simp [Texts.ctx, hlog, hline, rawEventOf_lineRecord, appendRaw_eq, logdataFree_lineRecord]
      · simpa [Texts.text, hlog, hline] using appendCut_balance r hx

theorem step_flush (hs : s.Good conf bufsize) : s.Ends conf bufsize .flush := by
  obtain ⟨t, hctx, hsound⟩ := hs.ctx
  cases hsome : s.ctx with
  | none =>
    refine ⟨s, ?_, hs.wf, hs.size, hs.ctx, iff_of_true hs.conserved ?_⟩
    · rw [Stream.step, hsome]
      simp [flushRecord, textOf, ← hsome]
    · simp [Stream.Keeps, hsome, Ctx.empty, Ctx.texts]
  | some ctx =>
    rw [hsome, Option.getD_some] at hctx
    subst hctx
    obtain ⟨r, t', hflush, hsound', hbalance⟩ := flushCtx_balance hsound
    have hstep : s.step conf .flush = .ok ⟨s.input, some t'.ctx, s.returned ++ r.toList,
      s.consumed ++ []⟩ := by
      rw [Stream.step, hsome, flushRecord, hflush]
      simp only [ok_bind, pure_eq, textOf_lineRecord, append_nil]
    have hunder : s.underway = t.text := by rw [Stream.underway, hsome, Option.getD_some, Texts.texts_ctx]
    refine ⟨_, hstep, hs.wf, hs.size, ⟨t', rfl, hsound'⟩, ?_⟩
    rw [← hunder, ← append_nil s.underway] at hbalance
    rw [conserved_iff hs.conserved hbalance]
    simp [Stream.Keeps, hsome]

/-- A step, from a state in which nothing was lost so far. -/
theorem step_balance (hexec : conf.exec = none) (hlim : bufsize < stringLimit)
    (hs : s.Good conf bufsize) (e : Event) :
    s.Ends conf bufsize e := by
  cases e with
  | receive data =>
    obtain ⟨hw, -⟩ := hs.wf.fill
      (show (data.take s.input.prepare.roomLeft).length ≤ s.input.prepare.roomLeft by
      rw [length_take]
      omega)
    exact ⟨_, rfl, hw, by rw [fill_bufsize, hs.size], hs.ctx, iff_of_true hs.conserved trivial⟩
  | read => exact step_read hexec hlim hs
  | flush => exact step_flush hs

end Run

theorem start_good (conf : Conf) (mem : Bytes) : (Stream.start mem).Good conf mem.length :=
  ⟨fresh_wf mem, rfl, ⟨.empty, rfl, by simp [Texts.empty], by simp [Texts.empty], fun h => h⟩, rfl⟩

/-- Nothing is lost or repeated in a run exactly if no step of it loses anything. -/
theorem multiline_conserves_iff (conf : Conf) (hexec : conf.exec = none) (mem : Bytes)
    (hlim : mem.length < stringLimit)
    (es : List Event) :
    Completes (Stream.step conf) Conserved (Stream.start mem) es ↔
      Meets (Stream.step conf) (Stream.Keeps conf) (Stream.start mem) es := by
  refine completes_iff_meets (G := Stream.Good conf mem.length) (fun s hs => hs.conserved) ?_
    (start_good conf mem) es
  intro s e hs
  obtain ⟨s', hstep, hw, hsize, hctx, hiff⟩ := step_balance hexec hlim hs e
  exact ⟨s', hstep, fun hkeeps => ⟨hw, hsize, hctx, hiff.mpr hkeeps⟩, hiff.mp⟩

/-- Header lines start with "H", and a record has two lines. -/
def headed : Conf := ⟨some (.string [72]), none, 2, none⟩

/-- Two records of two lines, the second one flushed before it is complete. -/
theorem multiline_conserves_flushed :
    Completes (Stream.step headed) Conserved (Stream.start (List.replicate 16 0))
      [.receive [72, 10, 97, 10, 72, 10, 98], .read, .read, .flush] := by
  exact (multiline_conserves_iff headed rfl (replicate 16 0) (by decide) _).mpr (by decide +kernel)

/-- The second line is a header line: the first is lost. -/
theorem header_replaces_record :
    ∃ s, run (Stream.step headed) (Stream.start (List.replicate 16 0))
    [.receive [97, 10, 72, 10], .read] = .ok s ∧
      s.returned = [[72, 10]] ∧ s.underway = [] ∧ s.consumed = [97, 10, 72, 10] :=
  ⟨_, rfl, rfl, rfl, rfl⟩

end Nxlog.L3.Multiline
