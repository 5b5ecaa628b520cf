import Mathlib.Data.List.Induction
import Nxlog.L2Machine.Clone
import Nxlog.L3Protocol.LineReader

/-!
# The multi-line reader (`extension/multiline/xm_multiline.c`)

A line ends with the first CR or LF. The reader keeps the line under way (`tmpline`), the record
under way (`logdata`) and a counter of lines; a header line, an end line or the number of lines
completes a record. A call goes through the buffer line by line until a record is complete or the
buffer is empty.

`turn` is one pass of the loop, on the records themselves. `Texts` is what it does to their texts:
the records come out as if the stream were read byte by byte (`Texts.run`).

* `turn_eq`: one pass of the loop, on texts.
* `readLoop_run`, `drain_run`: a call, and the calls for one buffer fill.
* `multiline_chunks`: the records do not depend on how the stream is cut.
-/
namespace Nxlog.L3.Multiline
open L1 L2 Input Res List

/-! ## The reader -/

/-- The value of `HeaderLine` or `EndLine`: a string, or a regexp with what `pcre_exec` finds in a
subject. -/
inductive Pattern where
  | string (buf : Bytes)
  | regexp (pcre : Bytes → Bool)

/-- `nx_xm_multiline_conf_t` and `module->exec`, which leaves a changed line or drops it. -/
structure Conf where
  headerline : Option Pattern
  endline : Option Pattern
  fixedlinecount : Int
  exec : Option (Logdata → Option Logdata)

/-- `nx_xm_multiline_ctx_t`. `linecount` is read only if `fixedlinecount` is positive, and then it
stays below it. -/
structure Ctx where
  tmpline : Option Logdata
  logdata : Option Logdata
  linecount : Int

def Ctx.empty : Ctx := ⟨none, none, 0⟩

/-- `strncmp(s, t, n) == 0` for buffers with a NUL behind their text. -/
def strncmpEq : Nat → Bytes → Bytes → Bool
  | 0, _, _ => true
  | n + 1, s, t =>
    if s.headD 0 ≠ t.headD 0 then false
    else if s.headD 0 = 0 then true
    else strncmpEq n s.tail t.tail

/-- mirrors extension/multiline/xm_multiline.c:18-89 (`match_line`). -/
def matchLine (pattern : Pattern) (subject : Bytes) (len : Nat) : Bool :=
  match pattern with
  | .string buf => strncmpEq (if len < buf.length then buf.length else len) subject buf
  | .regexp pcre => pcre (subject.take len)

def isBreak (c : UInt8) : Bool := c = CR ∨ c = LF

/-- extension/multiline/xm_multiline.c:125-162: `foundcr` and `i`. The byte behind a line break ends
the loop. -/
def scanBreak (buf : Bytes) (bufstart : Nat) : Nat → Nat → Bool → Res (Bool × Nat)
  | 0, i, foundcr => .ok (foundcr, i)
  | n + 1, i, foundcr => do
    let c ← rd buf (bufstart + i)
    if foundcr then return (true, i) else scanBreak buf bufstart n (i + 1) (isBreak c)

/-- extension/multiline/xm_multiline.c:212-214: the length without line breaks at the end. -/
def lineLen (buf : Bytes) : Nat → Res Nat
  | 0 => .ok 0
  | len + 1 => do
    let c ← rd buf len
    if isBreak c then lineLen buf len else return len + 1

def rawEventOf (ld : Logdata) : Res NxString :=
  match ld.raw_event.bind (deref ld) with
  | none => Res.fault
  | some s => .ok s

/-- `nx_string_append(ld->raw_event, line->buf, line->len)`. -/
def appendRaw (ld : Logdata) (line : NxString) : Res Logdata := do
  let s ← rawEventOf ld
  let buf ← stringAppend s.buf (line.buf ++ [0]) line.buf.length
  return setString ld s.addr buf

variable (conf : Conf)

/-- extension/multiline/xm_multiline.c:238-286: the line begins a record, or goes to the one under
way. The result is `retval`, `done` and the context. -/
def joinLine (gotheaderline gotendline : Bool) (tmpline : Logdata) (line : NxString) (ctx : Ctx) :
    Res (Option Logdata × Bool × Ctx) :=
  match ctx.logdata with
  | none =>
    if conf.fixedlinecount ≤ 0 ∧ gotheaderline = false then
      return (some tmpline, true, { ctx with tmpline := none, linecount := 0 })
    else return (none, false, { tmpline := none, logdata := some tmpline, linecount := ctx.linecount + 1 })
  | some logdata =>
    if gotendline then do
      let logdata ← appendRaw logdata line
      logdataFree tmpline
      return (some logdata, true, { ctx with tmpline := none, logdata := none })
    else if gotheaderline then
      return (some logdata, true, { tmpline := none, logdata := some tmpline, linecount := ctx.linecount + 1 })
    else do
      let logdata ← appendRaw logdata line
      logdataFree tmpline
      return (none, false, { tmpline := none, logdata := some logdata, linecount := ctx.linecount + 1 })

/-- extension/multiline/xm_multiline.c:288-298: `FixedLineCount` replaces what is to be returned. -/
def checkLineCount (retval : Option Logdata) (done : Bool) (ctx : Ctx) : Option Logdata × Bool × Ctx :=
  if 0 < conf.fixedlinecount ∧ conf.fixedlinecount ≤ ctx.linecount then
    (ctx.logdata, true, { ctx with logdata := none, linecount := 0 })
  else (retval, done, ctx)

/-- extension/multiline/xm_multiline.c:204-299: a complete line that was not dropped. -/
def completeLine (tmpline : Logdata) (ctx : Ctx) : Res (Option Logdata × Bool × Ctx) := do
  let line ← rawEventOf tmpline
  let len ← lineLen line.buf line.buf.length
  let gotheaderline := conf.headerline.any (matchLine · line.buf len)
  let gotendline := conf.endline.any (matchLine · line.buf len)
  let (retval, done, ctx) ← joinLine conf gotheaderline gotendline tmpline line ctx
  return checkLineCount conf retval done ctx

/-- extension/multiline/xm_multiline.c:175-300: `Exec` sees the line first. -/
def gotLine (tmpline : Logdata) (ctx : Ctx) : Res (Option Logdata × Bool × Ctx) :=
  match conf.exec with
  | none => completeLine conf tmpline ctx
  | some exec =>
    match exec tmpline with
    | none => return (none, false, { ctx with tmpline := none })
    | some tmpline => completeLine conf tmpline { ctx with tmpline := some tmpline }

/-- extension/multiline/xm_multiline.c:164-171: the bytes go to the line under way. -/
def addToLine (ctx : Ctx) (ptr : Bytes) (i : Nat) : Res Logdata :=
  match ctx.tmpline with
  | none => logdataNewLogline ptr i
  | some tmpline => logdataAppendLogline tmpline ptr i

/-- extension/multiline/xm_multiline.c:123-309: one pass of the loop. -/
def turn (input : Input) (ctx : Ctx) : Res (Option Logdata × Bool × Input × Ctx) := do
  let (foundcr, i) ← scanBreak input.buf input.bufstart input.buflen.toNat 0 false
  let tmpline ← addToLine ctx (input.buf.drop input.bufstart) i
  let ctx := { ctx with tmpline := some tmpline }
  let (retval, done, ctx) ← if foundcr then gotLine conf tmpline ctx else .ok (none, false, ctx)
  let input := input.advance i
  return (retval, done || decide (input.buflen ≤ 0), input, ctx)

def readLoop (conf : Conf) : Nat → Input → Ctx → Res (Option Logdata × Input × Ctx)
  | 0, _, _ => Res.hang
  | fuel + 1, input, ctx => do
    let (retval, done, input, ctx) ← turn conf input ctx
    if done then return (retval, input, ctx) else readLoop conf fuel input ctx

def stripText (buf : Bytes) : Bytes := if buf.getLast? = some LF then chomp buf.dropLast else buf

/-- mirrors common/str.c:959-981 (`nx_string_strip_crlf`) on `raw_event`. -/
def stripCrlf (ld : Logdata) : Res Logdata :=
  match ld.raw_event with
  | none => .error (.assert "str != NULL")
  | some addr =>
    match deref ld addr with
    | none => Res.fault
    | some s => return setString ld addr (stripText s.buf)

def stripped : Option Logdata → Res (Option Logdata)
  | none => .ok none
  | some ld => do
    let ld ← stripCrlf ld
    return some ld

/-- The record of a call, before it is stripped. The context of this reader is kept beside the
input. Every pass of the loop takes a byte at least. -/
def readRecord (input : Input) (ctx : Option Ctx) : Res (Option Logdata × Input × Option Ctx) := do
  Res.assert (0 ≤ input.buflen) "input->buflen >= 0"
  if input.buflen = 0 then return (none, input, ctx)
  else do
    let (retval, input, ctx) ← readLoop conf input.buflen.toNat input (ctx.getD .empty)
    return (retval, input, some ctx)

/-- mirrors extension/multiline/xm_multiline.c:93-318 (`xm_multiline_input_func`). -/
def xmMultilineInputFunc (input : Input) (ctx : Option Ctx) :
    Res (Option Logdata × Input × Option Ctx) := do
  let (retval, input, ctx) ← readRecord conf input ctx
  let retval ← stripped retval
  return (retval, input, ctx)

/-- extension/multiline/xm_multiline.c:336-361. -/
def flushCtx (ctx : Ctx) : Res (Option Logdata × Ctx) :=
  match ctx.logdata, ctx.tmpline with
  | none, tmpline => return (tmpline, { ctx with tmpline := none })
  | some logdata, none => return (some logdata, { ctx with logdata := none })
  | some logdata, some tmpline => do
    let line ← rawEventOf tmpline
    let logdata ← appendRaw logdata line
    logdataFree tmpline
    return (some logdata, { ctx with tmpline := none, logdata := none })

/-- What is flushed, before it is stripped. -/
def flushRecord : Option Ctx → Res (Option Logdata × Option Ctx)
  | none => return (none, none)
  | some ctx => do
    let (retval, ctx) ← flushCtx ctx
    return (retval, some ctx)

/-- mirrors extension/multiline/xm_multiline.c:322-369 (`xm_multiline_flush_func`). -/
def xmMultilineFlushFunc (ctx : Option Ctx) : Res (Option Logdata × Option Ctx) := do
  let (retval, ctx) ← flushRecord ctx
  let retval ← stripped retval
  return (retval, ctx)

def drain (conf : Conf) : Nat → Input → Option Ctx → Res (List Logdata × Input × Option Ctx)
  | 0, input, ctx => if input.buflen = 0 then .ok ([], input, ctx) else Res.hang
  | fuel + 1, input, ctx =>
    if input.buflen = 0 then .ok ([], input, ctx)
    else do
      let (retval, input, ctx) ← xmMultilineInputFunc conf input ctx
      let (more, input, ctx) ← drain conf fuel input ctx
      return (retval.toList ++ more, input, ctx)

def readFills (conf : Conf) (input : Input) (ctx : Option Ctx) : List Bytes → Res (List Logdata)
  | [] => .ok []
  | fill :: fills => do
    let input := input.fill fill
    let (lds, input, ctx) ← drain conf input.buflen.toNat input ctx
    let more ← readFills conf input ctx fills
    return lds ++ more

/-! ## The same on texts -/

/-- A context whose records are just lines. -/
structure Texts where
  tmpline : Option Bytes
  logdata : Option Bytes
  linecount : Int

variable (t : Texts)

def Texts.ctx : Ctx := ⟨t.tmpline.map lineRecord, t.logdata.map lineRecord, t.linecount⟩

def Texts.empty : Texts := ⟨none, none, 0⟩

def bare (line : Bytes) : Bytes := (line.reverse.dropWhile isBreak).reverse

def Conf.header (line : Bytes) : Bool := conf.headerline.any (matchLine · line (bare line).length)

def Conf.ending (line : Bytes) : Bool := conf.endline.any (matchLine · line (bare line).length)

def Texts.join (line : Bytes) : Option Bytes × Texts :=
  match t.logdata with
  | none =>
    if conf.fixedlinecount ≤ 0 ∧ conf.header line = false then (some line, ⟨none, none, 0⟩)
    else (none, ⟨none, some line, t.linecount + 1⟩)
  | some r =>
    if conf.ending line then (some (appendCut r line), ⟨none, none, t.linecount⟩)
    else if conf.header line then (some r, ⟨none, some line, t.linecount + 1⟩)
    else (none, ⟨none, some (appendCut r line), t.linecount + 1⟩)

def Texts.count (r : Option Bytes × Texts) : Option Bytes × Texts :=
  if 0 < conf.fixedlinecount ∧
  conf.fixedlinecount ≤ r.2.linecount then (r.2.logdata, ⟨r.2.tmpline, none, 0⟩) else r

def Texts.complete (line : Bytes) : Option Bytes × Texts := Texts.count conf (t.join conf line)

def Texts.line (piece : Bytes) : Bytes :=
  match t.tmpline with
  | none => piece
  | some x => appendCut x piece

def endsBreak (piece : Bytes) : Bool := piece.getLast?.any isBreak

def Texts.add (piece : Bytes) : Option Bytes × Texts :=
  if endsBreak piece then t.complete conf (t.line piece) else (none, { t with tmpline := some (t.line piece) })

def Texts.run (conf : Conf) : Texts → Bytes → List Bytes × Texts
  | t, [] => ([], t)
  | t, b :: bs => ((t.add conf [b]).1.toList ++ ((t.add conf [b]).2.run conf bs).1,
    ((t.add conf [b]).2.run conf bs).2)

def firstPiece : Bytes → Bytes × Bytes
  | [] => ([], [])
  | b :: bs => if isBreak b then ([b], bs) else (b :: (firstPiece bs).1, (firstPiece bs).2)

theorem firstPiece_append (s : Bytes) : (firstPiece s).1 ++ (firstPiece s).2 = s := by
  induction s with
  | nil => rfl
  | cons b bs ih =>
    unfold firstPiece
    split
    · rfl
    · simp [ih]

theorem firstPiece_le (s : Bytes) : (firstPiece s).1.length ≤ s.length :=
  IsPrefix.length_le ⟨_, firstPiece_append s⟩

theorem firstPiece_ne_nil {s : Bytes} (h : s ≠ []) : (firstPiece s).1 ≠ [] := by
  cases s with
  | nil => exact absurd rfl h
  | cons b bs =>
    unfold firstPiece
    split <;> simp

variable {b : UInt8} {w : Bytes}

theorem endsBreak_cons (h : w ≠ []) : endsBreak (b :: w) = endsBreak w := by
  obtain ⟨c, w, rfl⟩ := exists_cons_of_ne_nil h
  rw [endsBreak, endsBreak, getLast?_cons_cons]

theorem endsBreak_single (b : UInt8) : endsBreak [b] = isBreak b := rfl

theorem Texts.run_append (a b : Bytes) :
    t.run conf (a ++ b) = ((t.run conf a).1 ++ ((t.run conf a).2.run conf b).1,
      ((t.run conf a).2.run conf b).2) := by
  induction a generalizing t with
  | nil => rfl
  | cons c a ih =>
    rw [cons_append, Texts.run, ih]
    simp [Texts.run]

theorem Texts.add_cons (hw : w ≠ []) (hlen : (b :: w).length < stringLimit) :
    t.add conf (b :: w) = ({ t with tmpline := some (t.line [b]) } : Texts).add conf w := by
  have hline : t.line (b :: w) = ({ t with tmpline := some (t.line [b]) } : Texts).line w := by
    unfold Texts.line
    cases t.tmpline with
    | none =>
      have hlt : [b].length + w.length < stringLimit := by
        rw [length_cons] at hlen
        simpa [Nat.add_comm] using hlen
      exact (appendCut_of_lt hlt).symm
    | some x => exact (appendCut_appendCut x [b] w).symm
  unfold Texts.add
  rw [endsBreak_cons hw, hline]
  cases endsBreak w with
  | true => rfl
  | false => rfl

/-- Byte by byte, or as a whole. -/
theorem Texts.run_firstPiece {s : Bytes} (hs : s ≠ []) (hlen : s.length < stringLimit) :
    t.run conf (firstPiece s).1 =
    ((t.add conf (firstPiece s).1).1.toList, (t.add conf (firstPiece s).1).2) := by
  induction s generalizing t with
  | nil => exact absurd rfl hs
  | cons b bs ih =>
    rw [length_cons] at hlen
    by_cases hb : isBreak b = true
    · rw [firstPiece, if_pos hb]
      simp [Texts.run]
    rw [firstPiece, if_neg hb]
    by_cases hnil : bs = []
    · subst hnil
      simp [firstPiece, Texts.run]
    have hpiece := firstPiece_ne_nil hnil
    have hb : isBreak b = false := by simpa using hb
    have hle := firstPiece_le bs
    have hone : t.add conf [b] = (none, { t with tmpline := some (t.line [b]) }) := by
      rw [Texts.add, endsBreak_single, hb]
      rfl
    rw [Texts.add_cons conf t hpiece (by rw [length_cons]; omega), Texts.run, hone]
    exact ih _ hnil (by omega)

/-! ## One pass of the loop -/

section Turn

variable {conf : Conf}

variable {bufstart i : Nat}

variable {buf t p : Bytes}

theorem scanBreak_found (hd : buf.drop (bufstart + i) = p ++ t) :
    scanBreak buf bufstart p.length i true = .ok (true, i) := by
  cases p with
  | nil => rfl
  | cons c p =>
    rw [length_cons, scanBreak, rd_drop hd]
    rfl

theorem scanBreak_eq (hd : buf.drop (bufstart + i) = p ++ t) :
    scanBreak buf bufstart p.length i false =
    .ok (endsBreak (firstPiece p).1, i + (firstPiece p).1.length) := by
  induction p generalizing i with
  | nil => rfl
  | cons c p ih =>
    have hd' : buf.drop (bufstart + (i + 1)) = p ++ t := by
      rw [← Nat.add_assoc]
      exact drop_of_drop (a := [c]) hd
    rw [length_cons, scanBreak, rd_drop hd, ok_bind, if_neg (by simp)]
    by_cases hc : isBreak c = true
    · rw [hc, scanBreak_found hd', firstPiece, if_pos hc, endsBreak_single, hc]
      rfl
    have hc : isBreak c = false := by simpa using hc
    rw [hc, ih hd', firstPiece, if_neg (by simp [hc])]
    by_cases hnil : p = []
    · subst hnil
      simp [firstPiece, endsBreak, hc]
    · rw [endsBreak_cons (firstPiece_ne_nil hnil), length_cons]
      congr 2
      omega

theorem bare_concat (line : Bytes) (c : UInt8) :
    bare (line ++ [c]) = if isBreak c then bare line else line ++ [c] := by
  unfold bare
  rw [reverse_append, reverse_singleton, singleton_append, dropWhile_cons]
  split
  · rfl
  · simp

theorem lineLen_eq (t : Bytes) (line : Bytes) : lineLen (line ++ t) line.length = .ok (bare line).length := by
  induction line using reverseRecOn generalizing t with
  | nil => rfl
  | append_singleton line c ih =>
    have hrd : rd (line ++ [c] ++ t) line.length = .ok c := by
      refine rd_drop (t := t) ?_
      rw [append_assoc, drop_left]
      rfl
    rw [length_append, length_singleton, lineLen, hrd, ok_bind, bare_concat, append_assoc, ih]
    split
    · rfl
    · rw [length_append]
      rfl

theorem rawEventOf_lineRecord (x : Bytes) : rawEventOf (lineRecord x) = .ok ⟨0, x⟩ := rfl

theorem appendRaw_eq (x y : Bytes) (addr : Nat) :
    appendRaw (lineRecord x) ⟨addr, y⟩ = .ok (lineRecord (appendCut x y)) := by
  have happend : stringAppend x (y ++ [0]) y.length = .ok (appendCut x ((y ++ [0]).take y.length)) :=
    stringAppend_eq (by simp)
  rw [take_left' rfl] at happend
  rw [appendRaw, rawEventOf_lineRecord, ok_bind]
  rw [happend]
  rfl

theorem logdataFree_lineRecord (x : Bytes) : logdataFree (lineRecord x) = .ok () := rfl

variable (conf) in
theorem joinLine_eq (t : Texts) (line : Bytes) :
    ∃ done, joinLine conf (conf.header line) (conf.ending line) (lineRecord line) ⟨0, line⟩ t.ctx =
        .ok ((t.join conf line).1.map lineRecord, done, (t.join conf line).2.ctx) ∧
      (done = false → (t.join conf line).1 = none) := by
  unfold joinLine Texts.join
  cases hlog : t.logdata with
  | none =>
    simp only [Texts.ctx, hlog, Option.map_none]
    split
    · exact ⟨true, rfl, by simp⟩
    · exact ⟨false, rfl, by simp⟩
  | some r =>
    simp only [Texts.ctx, hlog, Option.map_some, appendRaw_eq, logdataFree_lineRecord, ok_bind]
    split
    · exact ⟨true, rfl, by simp⟩
    · split
      · exact ⟨true, rfl, by simp⟩
      · exact ⟨false, rfl, by simp⟩

variable (conf) in
theorem checkLineCount_eq (r : Option Bytes × Texts) {done : Bool} (hdone : done = false →
    r.1 = none) : ∃ done', checkLineCount conf (r.1.map lineRecord) done r.2.ctx =
        ((Texts.count conf r).1.map lineRecord, done', (Texts.count conf r).2.ctx) ∧
      (done' = false → (Texts.count conf r).1 = none) := by
  have hcount : r.2.ctx.linecount = r.2.linecount := rfl
  unfold checkLineCount Texts.count
  rw [hcount]
  split
  · exact ⟨true, rfl, by simp⟩
  · exact ⟨done, rfl, hdone⟩

variable (conf) in
theorem completeLine_eq (t : Texts) (line : Bytes) :
    ∃ done, completeLine conf (lineRecord line) t.ctx =
        .ok ((t.complete conf line).1.map lineRecord, done, (t.complete conf line).2.ctx) ∧
      (done = false → (t.complete conf line).1 = none) := by
  obtain ⟨done, hjoin, hdone⟩ := joinLine_eq conf t line
  obtain ⟨done', hcount, hdone'⟩ := checkLineCount_eq conf (t.join conf line) hdone
  have hlen := lineLen_eq [] line
  rw [append_nil] at hlen
  refine ⟨done', ?_, hdone'⟩
  rw [completeLine, rawEventOf_lineRecord, ok_bind]
  dsimp only
  rw [hlen, ok_bind]
  unfold Conf.header Conf.ending at hjoin
  rw [hjoin, ok_bind]
  rw [hcount]
  rfl

theorem addToLine_eq (t : Texts) {piece : Bytes} (rest : Bytes) (hlim : piece.length < stringLimit) :
    addToLine t.ctx (piece ++ rest) piece.length = .ok (lineRecord (t.line piece)) := by
  unfold addToLine Texts.line
  cases hline : t.tmpline with
  | none =>
    simp only [Texts.ctx, hline, Option.map_none]
    rw [newLogline_eq (by simp) hlim, take_left' rfl]
  | some x =>
    simp only [Texts.ctx, hline, Option.map_some]
    rw [appendLogline_eq (by simp), take_left' rfl]

variable {input : Input}

/-- One pass of the loop reads the next piece of a line, and goes on only with no record to return
and with more bytes in the buffer. -/
theorem turn_eq (hexec : conf.exec = none) (hw : input.Wf) (hlim : input.bufsize < stringLimit)
    (t : Texts) (hne : input.pending ≠ []) :
    ∃ piece input' done, (firstPiece input.pending).1 = piece ∧ input'.Wf ∧
      input'.bufsize = input.bufsize ∧ piece ≠ [] ∧ input.pending = piece ++ input'.pending ∧
      turn conf input t.ctx = .ok ((t.add conf piece).1.map lineRecord, done, input',
        (t.add conf piece).2.ctx) ∧
      (done = false → (t.add conf piece).1 = none ∧ input'.pending ≠ []) := by
  have hl := hw.pending_length
  have hr := hw.room
  have hd := input.drop_bufstart
  have happ := firstPiece_append input.pending
  have hle := firstPiece_le input.pending
  have hscan := scanBreak_eq (i := 0) hd
  rw [Nat.zero_add, show input.pending.length = input.buflen.toNat by omega] at hscan
  have hadd := addToLine_eq t ((firstPiece input.pending).2 ++
    input.buf.drop (input.bufstart + input.buflen.toNat))
    (show (firstPiece input.pending).1.length < stringLimit by omega)
  rw [← append_assoc, happ, ← hd] at hadd
  obtain ⟨hw', hp⟩ := hw.advance hle
  have hrest : input.pending =
      (firstPiece input.pending).1 ++ (input.advance (firstPiece input.pending).1.length).pending := by
    rw [hp.trans ((congrArg (drop _) happ.symm).trans drop_left), happ]
  have hmore : decide ((input.advance (firstPiece input.pending).1.length).buflen ≤ 0) = false →
      (input.advance (firstPiece input.pending).1.length).pending ≠ [] := fun h hnil =>
    of_decide_eq_false h (Int.le_of_eq (hw'.buflen_of_nil hnil))
  rw [turn, hscan, ok_bind]
  dsimp only
  rw [hadd, ok_bind]
  have hpiece := firstPiece_ne_nil hne
  generalize (firstPiece input.pending).1 = piece at hw' hrest hmore hpiece ⊢
  refine ⟨piece, input.advance piece.length, ?_⟩
  unfold Texts.add
  cases hend : endsBreak piece with
  | false => exact ⟨_, rfl, hw', rfl, hpiece, hrest, rfl, fun hcont => ⟨rfl, hmore hcont⟩⟩
  | true =>
    obtain ⟨done, hcomplete, hdone⟩ :=
      completeLine_eq conf { t with tmpline := some (t.line piece) } (t.line piece)
    have hctx : { t.ctx with tmpline := some (lineRecord (t.line piece)) } =
        ({ t with tmpline := some (t.line piece) } : Texts).ctx := rfl
    rw [if_pos rfl, gotLine, hexec, hctx, hcomplete]
    refine ⟨_, rfl, hw', rfl, hpiece, hrest, rfl, fun hcont => ?_⟩
    rw [Bool.or_eq_false_iff] at hcont
    exact ⟨hdone hcont.1, hmore hcont.2⟩

end Turn

/-! ## A call, and the calls for a stream -/

section Calls

variable {conf : Conf} {bufsize : Nat}

/-- A call reads some of the bytes; only at the end of the buffer it returns nothing. -/
theorem readLoop_run (hexec : conf.exec = none) (hlim : bufsize < stringLimit) (fuel : Nat)
    (input : Input) (t : Texts) (hw : input.Wf) (hsize : input.bufsize = bufsize)
    (hne : input.pending ≠ []) (hfuel : input.pending.length ≤ fuel) :
    ∃ (bytes : Bytes) (r : Option Bytes) (input' : Input) (t' : Texts), readLoop conf fuel input t.ctx = .ok
      (r.map lineRecord, input', t'.ctx) ∧ input'.Wf ∧ input'.bufsize = bufsize ∧ bytes ≠ [] ∧
      input.pending = bytes ++ input'.pending ∧ t.run conf bytes = (r.toList, t') := by
  induction fuel generalizing input t with
  | zero => exact absurd (length_eq_zero_iff.mp (Nat.le_zero.mp hfuel)) hne
  | succ fuel ih =>
    have hl := hw.pending_length
    have hr := hw.room
    have hrun := Texts.run_firstPiece conf t hne (by omega)
    obtain ⟨piece, input1, done, rfl, hw1, hsize1, hpiece, hp, hturn, hdone⟩ :=
      turn_eq hexec hw (hsize ▸ hlim) t hne
    have hlen := congrArg length hp
    rw [length_append] at hlen
    have hpos := length_pos_iff.mpr hpiece
    rw [readLoop, hturn, ok_bind]
    cases done with
    | true => exact ⟨_, _, _, _, rfl, hw1, hsize1.trans hsize, hpiece, hp, hrun⟩
    | false =>
      obtain ⟨hnone, hne1⟩ := hdone rfl
      obtain ⟨bytes, r, input', t', hloop, hw', hsize', -, hp', hrun'⟩ :=
        ih input1 _ hw1 (hsize1.trans hsize) hne1 (by omega)
      refine ⟨(firstPiece input.pending).1 ++ bytes, r, input', t', hloop, hw', hsize',
        by simp [hpiece], ?_, ?_⟩
      · rw [append_assoc, ← hp']
        exact hp
      · rw [Texts.run_append, hrun, hrun', hnone]
        rfl

variable {input : Input}

/-- With bytes in the buffer a call is the loop. -/
theorem readRecord_eq (hw : input.Wf) (hne : input.pending ≠ []) (ctx : Option Ctx) :
    readRecord conf input ctx = (do
      let (retval, input, ctx) ← readLoop conf input.buflen.toNat input (ctx.getD .empty)
      return (retval, input, some ctx)) := by
  have hl := hw.pending_length
  have hnonneg := hw.nonneg
  have hpos := length_pos_iff.mpr hne
  simp only [readRecord, hnonneg, decide_true, assert_true, ok_bind]
  rw [if_neg (by omega)]

theorem stripped_eq (r : Option Bytes) : stripped (r.map lineRecord) =
    .ok (r.map (lineRecord ∘ stripText)) := by
  cases r with
  | none => rfl
  | some x => rfl

structure Idle (bufsize : Nat) (t : Texts) (input : Input) (ctx : Option Ctx) : Prop where
  wf : input.Wf
  empty : input.buflen = 0
  size : input.bufsize = bufsize
  ctx : ctx.getD .empty = t.ctx

/-- The calls until the buffer is empty. -/
theorem drain_run (hexec : conf.exec = none) (hlim : bufsize < stringLimit) (fuel : Nat)
    (input : Input) (t : Texts) (ctx : Option Ctx) (hw : input.Wf) (hsize : input.bufsize = bufsize)
    (hctx : ctx.getD .empty = t.ctx) (hfuel : input.pending.length ≤ fuel) :
    ∃ input' ctx', drain conf fuel input ctx = .ok ((t.run conf input.pending).1.map (lineRecord ∘ stripText),
      input', ctx') ∧ Idle bufsize (t.run conf input.pending).2 input' ctx' := by
  induction fuel generalizing input t ctx with
  | zero =>
    have hnil := length_eq_zero_iff.mp (Nat.le_zero.mp hfuel)
    have hempty := hw.buflen_of_nil hnil
    rw [hnil, drain, if_pos hempty]
    exact ⟨input, ctx, rfl, hw, hempty, hsize, hctx⟩
  | succ fuel ih =>
    have hl := hw.pending_length
    by_cases hnil : input.pending = []
    · have hempty := hw.buflen_of_nil hnil
      rw [hnil, drain, if_pos hempty]
      exact ⟨input, ctx, rfl, hw, hempty, hsize, hctx⟩
    · have hpos := length_pos_iff.mpr hnil
      obtain ⟨bytes, r, input1, t1, hloop, hw1, hsize1, hne, hp, hrun⟩ :=
        readLoop_run hexec hlim input.buflen.toNat input t hw hsize hnil (by omega)
      have hlen := congrArg length hp
      have hbytes := length_pos_iff.mpr hne
      rw [length_append] at hlen
      obtain ⟨input', ctx', hdrain, hidle⟩ := ih input1 t1 (some t1.ctx) hw1 hsize1 rfl (by omega)
      have hcall : xmMultilineInputFunc conf input ctx =
          .ok (r.map (lineRecord ∘ stripText), input1, some t1.ctx) := by
        rw [xmMultilineInputFunc, readRecord_eq hw hnil, hctx, hloop]
        simp only [ok_bind, pure_eq, stripped_eq]
      have hall : t.run conf input.pending =
          (r.toList ++ (t1.run conf input1.pending).1, (t1.run conf input1.pending).2) := by
        rw [hp, Texts.run_append, hrun]
      refine ⟨input', ctx', ?_, by rw [hall]; exact hidle⟩
      rw [drain, if_neg (by omega), hcall, ok_bind]
      dsimp only
      rw [hdrain, hall, map_append, Option.toList_map]
      rfl

variable {ctx : Option Ctx}

theorem Idle.fill {t : Texts} (h : Idle bufsize t input ctx) {data : Bytes}
    (hd : data.length ≤ bufsize) : (input.fill data).Wf ∧ (input.fill data).pending = data := by
  have hl := h.wf.pending_length
  have hempty := h.empty
  have hsize := h.size
  have hpend : input.pending = [] := length_eq_zero_iff.mp (by omega)
  have hroom : data.length ≤ input.prepare.roomLeft := by
    unfold roomLeft
    rw [prepare_bufsize]
    unfold Input.prepare
    by_cases hs : input.bufstart = input.bufsize
    · simp only [if_pos hs]
      simp
      omega
    · simp only [if_neg hs, if_pos hempty]
      simp
      omega
  obtain ⟨hw, hp⟩ := h.wf.fill hroom
  exact ⟨hw, by rw [hp, hpend, nil_append]⟩

/-- The records of a stream, however it arrives. -/
theorem readFills_run (hexec : conf.exec = none) (hlim : bufsize < stringLimit) {fills : List Bytes}
    {t : Texts} (h : Idle bufsize t input ctx) (hlen : ∀ f ∈ fills, f.length ≤ bufsize) :
    readFills conf input ctx fills = .ok ((t.run conf fills.flatten).1.map (lineRecord ∘ stripText)) := by
  induction fills generalizing t input ctx with
  | nil => rfl
  | cons fill fills ih =>
    obtain ⟨hw, hp⟩ := h.fill (hlen fill mem_cons_self)
    have hl := hw.pending_length
    obtain ⟨input', ctx', hdrain, hidle⟩ :=
      drain_run hexec hlim (input.fill fill).buflen.toNat (input.fill fill) t ctx
      hw (by rw [fill_bufsize, h.size]) h.ctx (by omega)
    rw [hp] at hdrain hidle
    rw [readFills]
    dsimp only
    rw [hdrain, ok_bind]
    rw [ih hidle (forall_mem_cons.mp hlen).2, flatten_cons, Texts.run_append, map_append]
    rfl

end Calls

theorem idle_fresh (mem : Bytes) : Idle mem.length .empty (fresh mem) none := ⟨fresh_wf mem, rfl, rfl, rfl⟩

/-- However a stream is cut into buffer fills, and whatever the size and the old contents of the
buffer, the records are the same. -/
theorem multiline_chunks (conf : Conf) (hexec : conf.exec = none) (mem mem' : Bytes)
    (hlim : mem.length < stringLimit)
    (hlim' : mem'.length < stringLimit) (fills fills' : List Bytes)
    (hlen : ∀ f ∈ fills, f.length ≤ mem.length) (hlen' : ∀ f ∈ fills', f.length ≤ mem'.length)
    (h : fills.flatten = fills'.flatten) : ∃ lds, readFills conf (fresh mem) none fills = .ok lds ∧
    readFills conf (fresh mem') none fills' = .ok lds := by
  refine ⟨_, readFills_run hexec hlim (idle_fresh mem) hlen, ?_⟩
  rw [readFills_run hexec hlim' (idle_fresh mem') hlen', h]

/-- Lines that start with a dash begin a record. -/
def dashed : Conf := ⟨some (.regexp fun s => s.head? = some 45), none, 0, none⟩

/-- Two records, cut in front of the second and inside of each. -/
theorem multiline_chunks_dashed :
    ∃ lds, readFills dashed (fresh (List.replicate 16 0)) none
    [[45, 97, 13, 10, 98, 10, 45, 99, 10]] = .ok lds ∧
      readFills dashed (fresh (List.replicate 4 1)) none [[45, 97, 13], [10, 98, 10], [45, 99],
        [10]] = .ok lds :=
  multiline_chunks dashed rfl (replicate 16 0) (replicate 4 1) (by decide)
    (by decide) _ _ (by decide) (by decide) rfl

end Nxlog.L3.Multiline
