import Mathlib.Data.List.Basic
import Nxlog.Core.Lines
import Nxlog.L3Protocol.BinaryFraming
import Nxlog.L3Protocol.Strings

/-!
# The line reader (`common/readerfuncs.c`)

The reader returns the text up to the next LF without a trailing CR. What is
behind the last LF of a buffer fill is kept in the context and completed by the
following fills. A CR is looked for at the end of the last piece, and at the end
of the saved text if that piece has become empty.

For a stream without NUL bytes a line that arrives in the pieces `acc` and `last`
comes out as `assemble (acc, last)`; the pieces are those of `cutFills`.

* `assemble_eq_iff`: when this is the line with one trailing CR removed.
* `line_chunks`: when the lines of a stream do not depend on how it is cut.
-/
namespace Nxlog.L3
open L1 L2 Input Res List

/-! ## The reader -/

def LF : UInt8 := 10

def CR : UInt8 := 13

/-- The loop that looks for LF: whether there is one, and `i`. -/
def scanLf (buf : Bytes) (bufstart : Nat) : Nat → Nat → Res (Bool × Nat)
  | 0, i => .ok (false, i)
  | n + 1, i => do
    let c ← rd buf (bufstart + i)
    if c = LF then return (true, i) else scanLf buf bufstart n (i + 1)

variable (input : Input)

/-- `if ( (len < buflen) && (buf[bufstart + len + 1] == '\0') ) i++;` -/
def skipNul (len : Nat) : Res Nat :=
  if len < input.buflen then do
    let c ← rd input.buf (input.bufstart + len + 1)
    return if c = 0 then len + 1 else len
  else .ok len

/-- The length without a trailing CR, or CR NUL. -/
def nukeCr (len : Nat) : Res Nat :=
  if 0 < len then do
    let c ← rd input.buf (input.bufstart + len - 1)
    if c = CR then return len - 1
    else if 1 < len ∧ c = 0 then do
      let c ← rd input.buf (input.bufstart + len - 2)
      return if c = CR then len - 2 else len
    else return len
  else .ok len

/-- common/readerfuncs.c:56-74 and 111-129: `i` behind the line end, and the
length of the text in front of it. -/
def lineEnd (len : Nat) : Res (Nat × Nat) := do
  let i ← skipNul input len
  let len ← nukeCr input len
  return (if i < input.buflen then i + 1 else i, len)

/-- The last statements of every branch: `buflen -= i; bufstart += i`. -/
def consume (i : Nat) : Res Input := do
  Res.assert (i ≤ input.buflen) "i <= input->buflen"
  Res.assert (input.bufstart + i ≤ input.bufsize) "input->bufstart + i <= input->bufsize"
  return input.advance i

/-- common/readerfuncs.c:41-88: no line is under way. -/
def readLine : Res (Option Logdata × Input) := do
  let (foundlf, len) ← scanLf input.buf input.bufstart input.buflen.toNat 0
  if foundlf then do
    let (i, len) ← lineEnd input len
    let retval ← logdataNewLogline (input.buf.drop input.bufstart) len
    let input ← consume input i
    return (some retval, input)
  else do
    let incomplete ← logdataNewLogline (input.buf.drop input.bufstart) len
    let input ← consume input len
    return (none, { input with ctx := some incomplete })

/-- common/readerfuncs.c:134-138: the CR before a lone LF. -/
def nukeSavedCr (logdata : Logdata) : Res Logdata :=
  match logdata.raw_event.bind (deref logdata) with
  | none => Res.fault
  | some s => .ok (if s.buf.getLast? = some CR then setString logdata s.addr s.buf.dropLast else logdata)

/-- common/readerfuncs.c:131-143: the end of the line under way. -/
def finishLine (incomplete : Logdata) (ptr : Bytes) (len : Nat) : Res Logdata :=
  if len = 0 then nukeSavedCr incomplete else logdataAppendLogline incomplete ptr len

/-- common/readerfuncs.c:91-155: a line is under way. -/
def continueLine (incomplete : Logdata) : Res (Option Logdata × Input) := do
  let (foundlf, len) ← scanLf input.buf input.bufstart input.buflen.toNat 0
  if foundlf then do
    let (i, len) ← lineEnd input len
    let retval ← finishLine incomplete (input.buf.drop input.bufstart) len
    let input ← consume input i
    return (some retval, { input with ctx := none })
  else do
    let incomplete ← logdataAppendLogline incomplete (input.buf.drop input.bufstart) len
    let input ← consume input len
    return (none, { input with ctx := some incomplete })

/-- common/readerfuncs.c:32-36: a binary header in front. -/
def startsBinary : Res Bool := do
  let c ← rd input.buf input.bufstart
  if c = 0 ∧ 4 ≤ input.buflen then headerAt input.buf input.bufstart else return false

/-- mirrors common/readerfuncs.c:14-158 (`nx_module_input_func_linereader`). -/
def lineReader : Res (Option Logdata × Input) := do
  Res.assert (0 ≤ input.buflen) "input->buflen >= 0"
  if input.buflen = 0 then return (none, input)
  else
    match input.ctx with
    | some incomplete => continueLine input incomplete
    | none => do
      let binary ← startsBinary input
      if binary then binaryReader input else readLine input

def feedAll (input : Input) : List Bytes → Res (List Logdata × Input)
  | [] => .ok ([], input)
  | fill :: fills => do
    let (lds, input) ← input.feed lineReader fill
    let (more, input) ← feedAll input fills
    return (lds ++ more, input)

def rawEventText (ld : Logdata) : Option Bytes := (ld.raw_event.bind (deref ld)).map NxString.buf

/-! ## The text of a line -/

def chomp (l : Bytes) : Bytes := if l.getLast? = some CR then l.dropLast else l

def saved : List Bytes → Option Bytes
  | [] => none
  | p :: ps => some (ps.foldl appendCut p)

variable (line : List Bytes × Bytes)

def assemble : Bytes :=
  match saved line.1 with
  | none => chomp line.2
  | some x => if chomp line.2 = [] then chomp x else appendCut x (chomp line.2)

/-- A line in more than one piece comes out right if, without its CR, it is below
the string limit, and if it does not end with a CR that is taken for the one in
front of LF: one before a last piece that is just CR, or the last that fits below
the limit. -/
def LineOk : Prop :=
  line.1 = [] ∨
    ((chomp (joinPieces line)).length < stringLimit ∧
      ((chomp (joinPieces line)).getLast? = some CR →
        line.2 ≠ [CR] ∧ ¬ (line.2 = [] ∧ (chomp (joinPieces line)).length = stringLimit - 1)))

instance : Decidable (LineOk line) := by unfold LineOk; infer_instance

def lineRecord (x : Bytes) : Logdata := ⟨some 0, [⟨rawEvent, ⟨TRUE, .string (some ⟨0, x⟩)⟩⟩], []⟩

variable (x : Bytes)

theorem rawEventText_lineRecord : rawEventText (lineRecord x) = some x := by
  simp [rawEventText, lineRecord, deref, NxValue.string?]

theorem chomp_cr (l : Bytes) : chomp (l ++ [CR]) = l := by
  simp [chomp]

variable {l : Bytes}

theorem chomp_of_ne (h : l.getLast? ≠ some CR) : chomp l = l := if_neg h

/-- A text ends with a CR that is removed, or is left as it is. -/
theorem chomp_cases (l : Bytes) : (∃ k, l = k ++ [CR] ∧ chomp l = k) ∨
    (l.getLast? ≠ some CR ∧ chomp l = l) := by
  by_cases h : l.getLast? = some CR
  · obtain ⟨k, rfl⟩ := getLast?_eq_some_iff.mp h
    exact .inl ⟨k, rfl, chomp_cr k⟩
  · exact .inr ⟨h, chomp_of_ne h⟩

theorem chomp_append {x y : Bytes} (h : y ≠ []) : chomp (x ++ y) = x ++ chomp y := by
  rcases chomp_cases y with ⟨k, rfl, hk⟩ | ⟨hne, hk⟩
  · rw [hk, ← append_assoc, chomp_cr]
  · rw [hk, chomp_of_ne]
    rwa [getLast?_append_of_ne_nil x h]

theorem chomp_isPrefix (l : Bytes) : chomp l = l.take (chomp l).length := by
  rcases chomp_cases l with ⟨k, rfl, hk⟩ | ⟨-, hk⟩
  · rw [hk, take_left' rfl]
  · rw [hk, take_length]

theorem chomp_length_le (l : Bytes) : (chomp l).length ≤ l.length := by
  rcases chomp_cases l with ⟨k, rfl, hk⟩ | ⟨-, hk⟩
  · rw [hk, length_append]; omega
  · exact Nat.le_of_eq (congrArg length hk)

theorem chomp_eq_self_iff : chomp l = l ↔ l.getLast? ≠ some CR := by
  constructor
  · intro h hcr
    obtain ⟨k, rfl⟩ := getLast?_eq_some_iff.mp hcr
    have := congrArg length h
    rw [chomp_cr, length_append, length_singleton] at this
    omega
  · exact chomp_of_ne

theorem chomp_eq_nil (h : chomp l = []) : l = [] ∨ l = [CR] := by
  rcases chomp_cases l with ⟨k, rfl, hk⟩ | ⟨-, hk⟩
  · rw [h] at hk
    exact .inr (by rw [← hk]; rfl)
  · exact .inl (by rw [← hk, h])

theorem saved_eq {acc : List Bytes} (hne : acc ≠ []) (h : ∀ p ∈ acc, p.length < stringLimit) :
    saved acc = some (acc.flatten.take (stringLimit - 1)) := by
  cases acc with
  | nil => exact absurd rfl hne
  | cons p ps =>
    have hp := h p mem_cons_self
    rw [saved, foldl_appendCut ps p (by omega), flatten_cons]

theorem saved_addPiece (acc : List Bytes) {p : Bytes} (hp : p ≠ []) :
    saved (addPiece acc p) = some (match saved acc with | none => p | some x => appendCut x p) := by
  rw [addPiece, if_neg hp]
  cases acc with
  | nil => rfl
  | cons a acc => simp [saved]

/-- What is saved is below the limit. -/
theorem chomp_take_ne {x y : Bytes} (hy : stringLimit ≤ y.length) : chomp (x.take (stringLimit - 1)) ≠ y := by
  have h0 : 0 < stringLimit := by decide
  intro h
  have hle := chomp_length_le (x.take (stringLimit - 1))
  rw [h, length_take] at hle
  omega

/-- The saved text when the line ends with a lone LF. -/
theorem chomp_saved_iff : chomp (x.take (stringLimit - 1)) = chomp x ↔
    (chomp x).length < stringLimit ∧
    ((chomp x).getLast? = some CR → ¬ (chomp x).length = stringLimit - 1) := by
  by_cases hlt : x.length < stringLimit
  · rw [take_limit_eq_iff.mpr hlt]
    refine iff_of_true rfl ⟨Nat.lt_of_le_of_lt (chomp_length_le x) hlt, ?_⟩
    rcases chomp_cases x with ⟨k, rfl, hk⟩ | ⟨hne, hk⟩
    · rw [hk]
      rw [length_append, length_singleton] at hlt
      omega
    · rw [hk]
      exact fun hcr => absurd hcr hne
  · rcases chomp_cases x with ⟨k, rfl, hk⟩ | ⟨hne, hk⟩
    · -- the text in front of CR, which does not fit itself
      rw [length_append, length_singleton] at hlt
      rw [hk, take_append_of_le_length (by omega)]
      by_cases hfull : k.length < stringLimit
      · rw [take_limit_eq_iff.mpr hfull, chomp_eq_self_iff]
        have hlen : k.length = stringLimit - 1 := by omega
        exact ⟨fun h => ⟨hfull, fun hcr => absurd hcr h⟩, fun h hcr => h.2 hcr hlen⟩
      · exact iff_of_false (chomp_take_ne (by omega)) fun h => hfull h.1
    · rw [hk]
      exact iff_of_false (chomp_take_ne (by omega)) fun h => hlt h.1

/-- The saved text when the last piece is just CR. -/
theorem chomp_saved_cr_iff : chomp (x.take (stringLimit - 1)) = x ↔
    x.length < stringLimit ∧ x.getLast? ≠ some CR := by
  by_cases hlt : x.length < stringLimit
  · rw [take_limit_eq_iff.mpr hlt, chomp_eq_self_iff]
    simp [hlt]
  · exact iff_of_false (chomp_take_ne (by omega)) fun h => hlt h.1

/-- The text that comes out is the line without one trailing CR exactly for the
lines that are `LineOk`. -/
theorem assemble_eq_iff {line : List Bytes × Bytes} (h : ∀ p ∈ line.1, p.length < stringLimit) :
    assemble line = chomp (joinPieces line) ↔ LineOk line := by
  obtain ⟨acc, l⟩ := line
  by_cases hacc : acc = []
  · subst hacc
    simp [assemble, saved, joinPieces, LineOk]
  have hsaved := saved_eq hacc h
  generalize hX : acc.flatten = X at hsaved
  simp only [assemble, LineOk, joinPieces, hsaved, hX, hacc, false_or]
  by_cases hl : chomp l = []
  · rw [if_pos hl]
    rcases chomp_eq_nil hl with rfl | rfl
    · rw [append_nil, chomp_saved_iff]
      simp
    · rw [chomp_cr, chomp_saved_cr_iff]
      simp
  · have hne : l ≠ [] := by
      rintro rfl
      exact hl rfl
    have hcr : l ≠ [CR] := by
      rintro rfl
      exact hl rfl
    rw [if_neg hl, chomp_append hne, appendCut_eq_take _ (by rw [length_take]; omega),
      take_append_take, take_limit_eq_iff]
    simp [hne, hcr]

/-! ## One call of the reader -/

section Call

variable {input : Input} {w r : Bytes}

variable {bufstart : Nat}

theorem scanLf_skip {buf t : Bytes} {w : Bytes} (n : Nat) {i : Nat} (hw : LF ∉ w)
    (hd : buf.drop (bufstart + i) = w ++ t) :
    scanLf buf bufstart (w.length + n) i = scanLf buf bufstart n (i + w.length) := by
  induction w generalizing i with
  | nil => rw [length_nil, Nat.zero_add, Nat.add_zero]
  | cons c w ih =>
    obtain ⟨hc, hw⟩ := ne_and_not_mem_of_not_mem_cons hw
    have hd' : buf.drop (bufstart + (i + 1)) = w ++ t := by
      rw [← Nat.add_assoc]
      exact drop_of_drop (a := [c]) hd
    rw [length_cons, Nat.add_right_comm, scanLf, rd_drop hd, ok_bind, if_neg (Ne.symm hc),
      ih hw hd', Nat.add_assoc,
      Nat.add_comm 1]

variable {n : Nat}

theorem scanLf_found {buf t : Bytes} {w : Bytes} (hw : LF ∉ w)
    (hd : buf.drop bufstart = w ++ LF :: t) (hn : w.length < n) :
    scanLf buf bufstart n 0 = .ok (true, w.length) := by
  obtain ⟨n, rfl⟩ : ∃ k, n = w.length + (k + 1) := ⟨n - w.length - 1, by omega⟩
  rw [scanLf_skip (i := 0) _ hw hd, Nat.zero_add, scanLf, rd_drop (drop_of_drop hd)]
  rfl

/-- Without NUL bytes, a trailing CR is all that is removed. -/
theorem nukeCr_eq {t : Bytes} (h0 : 0 ∉ w) (hd : input.buf.drop input.bufstart = w ++ t) :
    nukeCr input w.length = .ok (chomp w).length := by
  rcases eq_nil_or_concat' w with rfl | ⟨k, c, rfl⟩
  · rfl
  have hc : rd input.buf (input.bufstart + (k ++ [c]).length - 1) = .ok c := by
    rw [append_assoc] at hd
    have := rd_drop (drop_of_drop hd)
    rw [length_append, length_singleton, ← Nat.add_assoc, Nat.add_sub_cancel]
    exact this
  have hne : c ≠ 0 := by
    rintro rfl
    exact h0 (by simp)
  rw [nukeCr, if_pos (by simp), hc, ok_bind]
  by_cases hcr : c = CR
  · rw [if_pos hcr, hcr, chomp_cr]
    simp
  · rw [if_neg hcr, if_neg fun h => hne h.2, chomp_of_ne (by simpa using hcr)]
    rfl

/-- Behind the LF, unless the byte after it lies outside the buffer. -/
theorem lineEnd_eq (hw : input.Wf) (h0 : 0 ∉ w ++ r) (hp : input.pending = w ++ LF :: r)
    (hin : r ≠ [] ∨ input.bufstart + input.buflen < input.bufsize) :
    lineEnd input w.length = .ok (w.length + 1, (chomp w).length) := by
  have hl := hw.pending_length
  have hs := hw.size
  rw [hp, length_append, length_cons] at hl
  have hd := input.drop_bufstart
  rw [hp, append_assoc] at hd
  rw [mem_append] at h0
  have hcr := nukeCr_eq (fun h => h0 (.inl h)) hd
  obtain ⟨i, hi, hend⟩ : ∃ i, skipNul input w.length = .ok i ∧
      (if (i : Int) < input.buflen then i + 1 else i) = w.length + 1 := by
    rw [skipNul, if_pos (by omega)]
    cases r with
    | nil =>
      -- whatever the byte is, the line ends with the pending bytes
      rw [length_nil] at hl
      have hlt := hin.resolve_left fun h => h rfl
      rw [rd_ok (by omega), ok_bind]
      refine ⟨_, rfl, ?_⟩
      by_cases hc : input.buf[input.bufstart + w.length + 1] = 0
      · rw [if_pos hc, if_neg (by omega)]
      · rw [if_neg hc, if_pos (by omega)]
    | cons b r =>
      have hb : rd input.buf (input.bufstart + w.length + 1) = .ok b := by
        refine rd_drop (t := r ++ input.buf.drop (input.bufstart + input.buflen.toNat)) ?_
        exact drop_of_drop (a := [LF]) (drop_of_drop hd)
      have hne : b ≠ 0 := by
        rintro rfl
        exact h0 (.inr mem_cons_self)
      rw [hb, ok_bind]
      refine ⟨_, rfl, ?_⟩
      rw [if_neg hne, if_pos (by omega)]
  rw [lineEnd, hi, ok_bind, hcr, ok_bind, hend]
  rfl

theorem lineEnd_fault (hw : input.Wf) (hp : input.pending = w ++ [LF])
    (hend : input.bufstart + input.buflen = input.bufsize) : lineEnd input w.length = Res.fault := by
  have hl := hw.pending_length
  have hs := hw.size
  rw [hp, length_append, length_singleton] at hl
  rw [lineEnd, skipNul, if_pos (by omega), rd, getElem?_eq_none (by omega)]
  rfl

theorem consume_eq (hw : input.Wf) {i : Nat} (hi : i ≤ input.pending.length) :
    consume input i = .ok (input.advance i) := by
  have hl := hw.pending_length
  have hr := hw.room
  rw [consume]
  have h1 : (i : Int) ≤ input.buflen := by omega
  have h2 : input.bufstart + i ≤ input.bufsize := by omega
  simp [h1, h2]

theorem newLogline_eq {src : Bytes} (hn : n ≤ src.length) (hlim : n < stringLimit) :
    logdataNewLogline src n = .ok (lineRecord (src.take n)) := by
  rw [logdataNewLogline, loglineString]
  by_cases h : n = 0
  · subst h; rfl
  · rw [if_neg (by omega), stringCreate_ok (by omega) hn]
    rfl

theorem deref_lineRecord : deref (lineRecord x) 0 = some ⟨0, x⟩ := rfl

theorem setString_lineRecord (y : Bytes) : setString (lineRecord x) 0 y = lineRecord y := rfl

theorem appendLogline_eq {x src : Bytes} (hn : n ≤ src.length) :
    logdataAppendLogline (lineRecord x) src n = .ok (lineRecord (appendCut x (src.take n))) := by
  show (match deref (lineRecord x) 0 with
    | none => Res.fault
    | some s => do
      let buf ← stringAppend s.buf src n
      return setString (lineRecord x) 0 buf) = _
  rw [deref_lineRecord]
  dsimp only
  rw [stringAppend_eq hn, ok_bind, setString_lineRecord]
  rfl

theorem finishLine_eq {x src : Bytes} (hn : n ≤ src.length) :
    finishLine (lineRecord x) src n =
      .ok (lineRecord (if src.take n = [] then chomp x else appendCut x (src.take n))) := by
  by_cases h0 : n = 0
  · subst h0
    rw [finishLine, if_pos rfl, take_zero, if_pos rfl, nukeSavedCr]
    show Except.ok (if x.getLast? = some CR then setString (lineRecord x) 0 x.dropLast else lineRecord x) = _
    rw [setString_lineRecord, chomp, apply_ite lineRecord]
  · have hne : src.take n ≠ [] := by
      intro h
      have := congrArg length h
      rw [length_take, length_nil] at this
      omega
    rw [finishLine, if_neg h0, if_neg hne, appendLogline_eq hn]

theorem startsBinary_eq (h0 : 0 ∉ input.pending) (hne : input.pending ≠ []) :
    startsBinary input = .ok false := by
  obtain ⟨c, p, hp⟩ := exists_cons_of_ne_nil hne
  have hd := input.drop_bufstart
  rw [hp] at hd h0
  have hc : c ≠ 0 := by
    rintro rfl
    exact h0 mem_cons_self
  rw [startsBinary, rd_drop hd, ok_bind, if_neg fun h => hc h.1]
  rfl

def ctxOf (acc : List Bytes) : Option Logdata := (saved acc).map lineRecord

/-- What a call does with the pending bytes, behind the pieces `acc` of a line: nothing if there are
none; it looks behind the buffer if that is full and ends with LF; it returns a line; or it keeps a
piece of one. -/
inductive LineRead (acc : List Bytes) (input : Input) : Res (Option Logdata × Input) → Prop where
  | empty (hnil : input.pending = []) : LineRead acc input (.ok (none, input))
  | behind {w : Bytes} (hlf : LF ∉ w) (hp : input.pending = w ++ [LF])
      (hend : input.bufstart + input.buflen = input.bufsize) : LineRead acc input Res.fault
  | line {w r : Bytes} {input' : Input} (hlf : LF ∉ w) (hp : input.pending = w ++ LF :: r)
      (hin : r ≠ [] ∨ input.bufstart + input.buflen < input.bufsize) (hwf : input'.Wf)
        (hrest : input'.pending = r)
      (hsize : input'.bufsize = input.bufsize)
      (hpos : input'.bufstart + input'.buflen = input.bufstart + input.buflen) (hctx : input'.ctx = ctxOf []) :
      LineRead acc input (.ok (some (lineRecord (assemble (acc, w))), input'))
  | piece (hlf : LF ∉ input.pending) (hne : input.pending ≠ []) : LineRead acc input (.ok (none,
      { input.advance input.pending.length with ctx := ctxOf (addPiece acc input.pending) }))

variable {acc : List Bytes} (hw : input.Wf) (h0 : 0 ∉ input.pending) (hctx : input.ctx = ctxOf acc)
include hw h0 hctx

/-- The reader on bytes that are there, by whether a line is under way. -/
theorem lineReader_cases (hne : input.pending ≠ []) :
    lineReader input =
      match saved acc with
      | none => readLine input
      | some x => continueLine input (lineRecord x) := by
  have hl := hw.pending_length
  have hlen : input.pending.length ≠ 0 := fun h => hne (length_eq_zero_iff.mp h)
  have hn := hw.nonneg
  rw [lineReader, hctx, ctxOf]
  simp only [hn, decide_true, assert_true, ok_bind]
  rw [if_neg (by omega)]
  cases saved acc with
  | some x => rfl
  | none =>
    rw [startsBinary_eq h0 hne, ok_bind]
    rfl

theorem lineReader_spec (hlim : input.bufsize < stringLimit) : LineRead acc input (lineReader input) := by
  have hl := hw.pending_length
  have hr := hw.room
  by_cases hne : input.pending = []
  · have hempty : lineReader input = .ok (none, input) := by
      rw [hne, length_nil] at hl
      rw [lineReader, ← hl]
      rfl
    rw [hempty]
    exact .empty hne
  have hd := input.drop_bufstart
  rw [lineReader_cases hw h0 hctx hne]
  by_cases hlf : LF ∈ input.pending
  · obtain ⟨w, r, hp, hwl⟩ := eq_append_cons_of_mem hlf
    have hplen : input.pending.length = w.length + 1 + r.length := by
      rw [hp, length_append, length_cons]; omega
    rw [hp, append_assoc] at hd
    have hscan := scanLf_found (n := input.buflen.toNat) hwl hd (by omega)
    by_cases hin : r ≠ [] ∨ input.bufstart + input.buflen < input.bufsize
    · have hadv : w.length + 1 ≤ input.pending.length := by omega
      obtain ⟨haw, hap⟩ := hw.advance hadv
      have h0' : 0 ∉ w ++ r := by
        rw [hp] at h0
        exact fun hc => h0 ((mem_append.mp hc).elim (mem_append_left _) fun hc =>
          mem_append_right _ (mem_cons_of_mem _ hc))
      have hle := chomp_length_le w
      have htake : (input.buf.drop input.bufstart).take (chomp w).length = chomp w := by
        rw [hd, take_append_of_le_length hle, ← chomp_isPrefix]
      have hsrc : (chomp w).length ≤ (input.buf.drop input.bufstart).length := by
        rw [hd, length_append]; omega
      have hconsume := consume_eq hw hadv
      have hline : LineRead acc input (.ok (some (lineRecord (assemble (acc, w))),
          { input.advance (w.length + 1) with ctx := ctxOf [] })) := by
        refine .line hwl hp hin ⟨haw.size, haw.nonneg, haw.room⟩ (hap.trans ?_) rfl ?_ rfl
        · rw [hp, drop_append, drop_of_length_le (by omega)]
          simp
        · show ((input.bufstart + (w.length + 1) : Nat) : Int) + (input.buflen - (w.length + 1 : Nat)) = _
          omega
      refine cast (congrArg (LineRead acc input) ?_) hline
      cases hs : saved acc with
      | none =>
        have hnone : input.ctx = none := by rw [hctx, ctxOf, hs]; rfl
        simp only [readLine, hscan, ok_bind, if_true, lineEnd_eq hw h0' hp hin,
          newLogline_eq hsrc (by omega), hconsume, htake, assemble, hs, pure_eq]
        congr 2
        simp only [Input.advance, ctxOf, saved, Option.map_none, hnone]
      | some x =>
        simp only [continueLine, hscan, ok_bind, if_true, lineEnd_eq hw h0' hp hin,
          finishLine_eq hsrc, hconsume, htake, assemble, hs, pure_eq]
        rfl
    · obtain ⟨hnil, hend⟩ := not_or.mp hin
      obtain rfl := not_not.mp hnil
      have hend : input.bufstart + input.buflen = input.bufsize := by omega
      refine cast (congrArg (LineRead acc input) ?_) (.behind hwl hp hend)
      cases saved acc with
      | none => simp only [readLine, hscan, ok_bind, if_true, lineEnd_fault hw hp hend, fault_bind]
      | some x => simp only [continueLine, hscan, ok_bind, if_true, lineEnd_fault hw hp hend, fault_bind]
  · have hscan : scanLf input.buf input.bufstart input.buflen.toNat 0 = .ok (false, input.pending.length) := by
      have := scanLf_skip (i := 0) 0 hlf hd
      rw [Nat.zero_add] at this
      rwa [show input.buflen.toNat = input.pending.length by omega]
    have htake : (input.buf.drop input.bufstart).take input.pending.length = input.pending := by
      rw [hd, take_left' rfl]
    have hsrc : input.pending.length ≤ (input.buf.drop input.bufstart).length := by
      rw [hd, length_append]; omega
    have hconsume := consume_eq hw (Nat.le_refl input.pending.length)
    refine cast (congrArg (LineRead acc input) ?_) (.piece hlf hne)
    rw [ctxOf, saved_addPiece acc hne]
    cases hs : saved acc with
    | none =>
      simp only [readLine, hscan, ok_bind, Bool.false_eq_true, if_false,
        newLogline_eq hsrc (by omega), hconsume, htake, pure_eq]
      rfl
    | some x =>
      simp only [continueLine, hscan, ok_bind, Bool.false_eq_true, if_false, appendLogline_eq hsrc,
        hconsume, htake, pure_eq]
      rfl

end Call

/-! ## A buffer fill, and a sequence of them -/

variable (bufsize : Nat)

/-- The buffer is full and its last byte is LF. -/
def Overrun (fill : Bytes) : Prop := fill.length = bufsize ∧ fill.getLast? = some LF

instance (fill : Bytes) : Decidable (Overrun bufsize fill) := by
  unfold Overrun; infer_instance

/-- Between two fills: nothing is pending and the pieces `acc` of a line are saved. -/
structure Idle (acc : List Bytes) (input : Input) : Prop where
  wf : input.Wf
  empty : input.buflen = 0
  size : input.bufsize = bufsize
  ctx : input.ctx = ctxOf acc

theorem getLast?_of_line {w r : Bytes} (h : r ≠ []) : (w ++ LF :: r).getLast? = r.getLast? := by
  obtain ⟨b, r, rfl⟩ := exists_cons_of_ne_nil h
  rw [getLast?_append_cons, getLast?_cons_cons]

/-- The pending bytes end with the buffer, and with LF. -/
def AtEnd : Prop :=
  input.pending.getLast? = some LF ∧ input.bufstart + input.buflen = input.bufsize

/-- All pending bytes are read, unless the reader looks behind the buffer. -/
theorem readAll_lines {bufsize : Nat} (hlim : bufsize < stringLimit) (fuel : Nat) (input : Input)
    (acc : List Bytes)
    (hw : input.Wf) (hs : input.bufsize = bufsize) (hctx : input.ctx = ctxOf acc)
    (h0 : 0 ∉ input.pending) (hf : input.pending.length < fuel) :
    AtEnd input ∧ readAll lineReader fuel input = Res.fault ∨ ¬ AtEnd input ∧ ∃ input',
    readAll lineReader fuel input =
        .ok ((cutFill LF acc input.pending).1.map (lineRecord ∘ assemble), input') ∧
      Idle bufsize (cutFill LF acc input.pending).2 input' := by
  induction fuel generalizing input acc with
  | zero => omega
  | succ fuel ih =>
    have hl := hw.pending_length
    have hr := hw.room
    have hread := lineReader_spec hw h0 hctx (hs ▸ hlim)
    rw [readAll]
    generalize lineReader input = x at hread ⊢
    cases hread with
    | empty hnil =>
      rw [hnil, length_nil] at hl
      rw [hnil]
      exact .inr ⟨by simp [AtEnd, hnil], input, rfl, hw, hl.symm, hs, hctx⟩
    | behind hlf hp hend => exact .inl ⟨⟨by rw [hp]; simp, hend⟩, rfl⟩
    | @line w r input1 hwl hp hin haw hrest hsize hpos hctx1 =>
      have hlen := congrArg length hp
      rw [length_append, length_cons] at hlen
      have hiff : AtEnd input ↔ AtEnd input1 := by
        rw [AtEnd, AtEnd, hrest, hpos, hsize, hp]
        by_cases hnil : r = []
        · have hlt := hin.resolve_left (absurd hnil)
          exact iff_of_false (fun h => by omega) (fun h => by omega)
        · rw [getLast?_of_line hnil]
      have hnext := ih input1 [] haw (hsize.trans hs) hctx1 (by rw [hp] at h0; simp_all)
        (by rw [hrest]; omega)
      rw [ok_bind, hiff, hp, cutFill_line r hwl]
      rw [hrest] at hnext
      refine hnext.imp (fun h => ⟨h.1, ?_⟩) fun h => ⟨h.1, ?_⟩
      · dsimp only
        rw [h.2]
        rfl
      · obtain ⟨input', hall, hidle⟩ := h.2
        refine ⟨input', ?_, hidle⟩
        dsimp only
        rw [hall]
        rfl
    | piece hlf hne =>
      obtain ⟨haw, -⟩ := hw.advance (Nat.le_refl input.pending.length)
      rw [cutFill_of_not_mem hlf]
      refine .inr ⟨fun hend => hlf (mem_of_getLast? hend.1), _, rfl,
        ⟨haw.size, haw.nonneg, haw.room⟩, ?_, hs, rfl⟩
      show input.buflen - (input.pending.length : Int) = 0
      omega

section Fills

variable {bufsize : Nat} {input : Input} {acc : List Bytes}

variable {data : Bytes}

/-- A fill starts at the front of the empty buffer. -/
theorem Idle.fill (h : Idle bufsize acc input) (hd : data.length ≤ bufsize) :
    (input.fill data).Wf ∧ (input.fill data).pending = data ∧ (input.fill data).bufstart = 0 := by
  have hl := h.wf.pending_length
  have hempty := h.empty
  have hsize := h.size
  have hprep : input.prepare.bufstart = 0 ∧ input.prepare.buflen = 0 := by
    unfold Input.prepare
    by_cases hs : input.bufstart = input.bufsize
    · simp only [if_pos hs]
      exact ⟨rfl, rfl⟩
    · simp only [if_neg hs]
      rw [if_pos hempty]
      exact ⟨rfl, hempty⟩
  have hpend : input.pending = [] := length_eq_zero_iff.mp (by omega)
  obtain ⟨hw, hp⟩ := h.wf.fill (show data.length ≤ input.prepare.roomLeft by
    rw [roomLeft, prepare_bufsize, hprep.1, hprep.2]
    omega)
  exact ⟨hw, by rw [hp, hpend, nil_append], hprep.1⟩

variable (hlim : bufsize < stringLimit)
include hlim

theorem feed_lines (h : Idle bufsize acc input) (hd : data.length ≤ bufsize) (h0 : 0 ∉ data) :
    Overrun bufsize data ∧ input.feed lineReader data = Res.fault ∨ ¬ Overrun bufsize data ∧
      ∃ input', input.feed lineReader data =
      .ok ((cutFill LF acc data).1.map (lineRecord ∘ assemble), input') ∧
        Idle bufsize (cutFill LF acc data).2 input' := by
  obtain ⟨hw, hp, hstart⟩ := h.fill hd
  have hl := hw.pending_length
  rw [hp] at hl
  have hsize : (input.fill data).bufsize = bufsize := by rw [fill_bufsize, h.size]
  have hiff : AtEnd (input.fill data) ↔ Overrun bufsize data := by
    rw [AtEnd, hp, hstart, hsize, and_comm]
    exact and_congr_left fun _ => by omega
  have := readAll_lines hlim ((input.fill data).buflen.toNat + 1) (input.fill data) acc hw hsize
    (by rw [fill_ctx, h.ctx]) (by rw [hp]; exact h0) (by rw [hp]; omega)
  rw [hiff, hp] at this
  exact this

theorem feedAll_lines (fills : List Bytes) (acc : List Bytes) (input : Input)
    (h : Idle bufsize acc input) (hd : ∀ f ∈ fills, f.length ≤ bufsize) (h0 : ∀ f ∈ fills, 0 ∉ f) :
    (∃ f ∈ fills, Overrun bufsize f) ∧ feedAll input fills = Res.fault ∨ (∀ f ∈ fills, ¬ Overrun bufsize f) ∧
      ∃ input', feedAll input fills = .ok ((cutFills LF acc fills).map (lineRecord ∘ assemble), input') := by
  induction fills generalizing acc input with
  | nil => exact .inr ⟨by simp, input, rfl⟩
  | cons fill fills ih =>
    rw [feedAll]
    rcases feed_lines hlim h (hd fill mem_cons_self) (h0 fill mem_cons_self) with
      ⟨hover, hfeed⟩ | ⟨hover, input1, hfeed, hidle⟩
    · rw [hfeed]
      exact .inl ⟨⟨fill, mem_cons_self, hover⟩, rfl⟩
    rw [hfeed, ok_bind]
    dsimp only
    refine (ih _ input1 hidle (forall_mem_cons.mp hd).2
      (forall_mem_cons.mp h0).2).imp ?_ ?_
    · rintro ⟨⟨f, hf, hover⟩, hall⟩
      rw [hall]
      exact ⟨⟨f, mem_cons_of_mem _ hf, hover⟩, rfl⟩
    · rintro ⟨hrest, input2, hall⟩
      rw [hall, cutFills, map_append]
      exact ⟨forall_mem_cons.mpr ⟨hover, hrest⟩, input2, rfl⟩

end Fills

theorem idle_fresh (mem : Bytes) : Idle mem.length [] (fresh mem) := ⟨fresh_wf mem, rfl, rfl, rfl⟩

/-- The lines read from a stream without NUL bytes are its LF-terminated lines,
each without one trailing CR, exactly if every line is `LineOk` in the pieces it
is cut into and no fill takes up the whole buffer with an LF at its end. -/
theorem line_chunks (mem : Bytes) (fills : List Bytes) (hlim : mem.length < stringLimit)
    (hlen : ∀ f ∈ fills, f.length ≤ mem.length) (hnul : ∀ f ∈ fills, (0 : UInt8) ∉ f) :
    (∃ lds input, feedAll (fresh mem) fills = .ok (lds, input) ∧
      lds.map rawEventText = (splitLines LF fills.flatten).1.map (some ∘ chomp)) ↔
    (∀ line ∈ cutFills LF [] fills, LineOk line) ∧ ∀ f ∈ fills, ¬ Overrun mem.length f := by
  have hjoin := join_cutFills LF fills [] (by simp)
  rw [flatten_nil, nil_append] at hjoin
  have hpieces := cutFills_pieces LF fills [] hlen (by simp)
  have hok : ∀ line ∈ cutFills LF [] fills, (assemble line = chomp (joinPieces line) ↔ LineOk line) :=
    fun line hline => assemble_eq_iff fun p hp => Nat.lt_of_le_of_lt (hpieces line hline p hp) hlim
  have htext : ((cutFills LF [] fills).map (lineRecord ∘ assemble)).map rawEventText =
      (splitLines LF fills.flatten).1.map (some ∘ chomp) ↔ ∀ line ∈ cutFills LF [] fills, LineOk line := by
    rw [← hjoin, map_map, map_map, map_inj_left]
    refine forall₂_congr fun line hline => ?_
    rw [← hok line hline]
    simp [rawEventText_lineRecord]
  rcases feedAll_lines hlim fills [] _ (idle_fresh mem) hlen hnul with
    ⟨⟨f, hf, hover⟩, hall⟩ | ⟨hover, input', hall⟩
  · refine iff_of_false ?_ fun h => h.2 f hf hover
    rintro ⟨lds, input, hfeed, -⟩
    rw [hall] at hfeed
    cases hfeed
  · rw [← htext]
    constructor
    · rintro ⟨lds, input, hfeed, heq⟩
      rw [hall] at hfeed
      cases hfeed
      exact ⟨heq, hover⟩
    · exact fun h => ⟨_, input', hall, h.1⟩

/-- Two lines, cut inside the first. -/
theorem line_chunks_two_lines :
    ∃ lds input, feedAll (fresh (List.replicate 16 0)) [[97, 98], [99, 13, 10, 100, 10]] = .ok (lds, input) ∧
      lds.map rawEventText = (splitLines LF [[97, 98], [99, 13, 10, 100, 10]].flatten).1.map (some ∘ chomp) :=
  (line_chunks (replicate 16 0) [[97, 98], [99, 13, 10, 100, 10]] (by decide) (by decide)
    (by decide)).mpr ⟨by decide, by decide⟩

/-- A line that ends with CR CR LF keeps one CR when it arrives at once and none
when it is cut between the two. -/
theorem line_cut_between_cr :
    (feedAll (fresh (List.replicate 16 0)) [[97, 13, 13, 10]]).map (·.1.map rawEventText) =
        .ok [some [97, 13]] ∧
      (feedAll (fresh (List.replicate 16 0)) [[97, 13], [13, 10]]).map (·.1.map rawEventText) =
      .ok [some [97]] :=
  ⟨rfl, rfl⟩

end Nxlog.L3
