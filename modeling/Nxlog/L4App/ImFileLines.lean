import Nxlog.L4App.ImFileLinks

/-!
# Lines of a file that grows

A file that is only appended to is read with the line reader. What was read of it is behind whole
lines that were delivered, the pieces of the line under way in the context of the reader, and the
bytes in the buffer; the position that is kept when the file is closed is that in front of the
buffer. So a close is harmless between two lines, but the pieces of a line under way are lost with
the context: the end of the line is then delivered as a line of its own.

* `Tracks`: an open file at a position of its data.
* `Following`: the records of the file are its first lines, and it will go on behind them.
* `LineKept`: no line is under way when the file is closed, its position fits into an `int` when it
  is saved, and its text is one the reader reads as lines.
* `lines_in_order`: then the records are the first lines of the file, in every state of a run.
-/
namespace Nxlog.L4.ImFile
open L1 L2 L3 Res List

variable {readfromlast : Bool} {o : Opened Input} {m name : Name} {acc : List Bytes} {s : State Input}
  {w rest : Bytes} {done : Nat}

/-! ## Lines and records -/

def Note.text (name : Name) : Note → Option (Option Bytes)
  | .record n _ logdata => if n = name then some (rawEventText logdata) else none
  | _ => none

def texts (name : Name) (out : List Note) : List (Option Bytes) := out.filterMap (Note.text name)

/-- The LF-terminated lines of a file, each without one trailing CR. -/
def fileLines (data : Bytes) : List Bytes := (splitLines LF data).1.map chomp

/-- The line reader gives the lines of the text however it is cut: there is no NUL, and every line
is below the string limit and does not end with two CR. -/
structure CleanText (data : Bytes) : Prop where
  nul : (0 : UInt8) ∉ data
  lines : ∀ l ∈ fileLines data, l.length < stringLimit ∧ l.getLast? ≠ some CR

theorem texts_others {notes : List Note} (h : ∀ x ∈ notes, x.name ≠ name) (out : List Note) :
    texts name (out ++ notes) = texts name out := by
  have hnone : notes.filterMap (Note.text name) = [] := by
    refine filterMap_eq_nil_iff.mpr fun x hx => ?_
    have hname := h x hx
    cases x with
    | record n k logdata => exact if_neg hname
    | _ => rfl
  rw [texts, filterMap_append, hnone, append_nil]
  rfl

/-- The lines of a file that ends with a line are the first ones of every file it becomes. -/
theorem fileLines_append {a : Bytes} (b : Bytes) (h : (splitLines LF a).2 = []) :
    fileLines (a ++ b) = fileLines a ++ fileLines b := by
  rw [fileLines, splitLines_complete b h, map_append]
  rfl

/-- The first `done` bytes of the file are lines, and these were delivered. -/
structure Delivered (name : Name) (data : Bytes) (done : Nat) (out : List Note) : Prop where
  le : done ≤ data.length
  whole : (splitLines LF (data.take done)).2 = []
  texts : texts name out = (fileLines (data.take done)).map some

section Delivered

variable {name : Name} {data : Bytes} {done : Nat} {out : List Note}

variable (h : Delivered name data done out)
include h

theorem Delivered.isPrefix : ImFile.texts name out <+: (fileLines data).map some := by
  have hlines := fileLines_append (data.drop done) h.whole
  rw [take_append_drop] at hlines
  rw [h.texts, hlines, map_append]
  exact prefix_append _ _

theorem Delivered.append (more : Bytes) : Delivered name (data ++ more) done out := by
  have htake : (data ++ more).take done = data.take done := take_append_of_le_length h.le
  refine ⟨?_, htake ▸ h.whole, htake ▸ h.texts⟩
  rw [length_append]
  exact Nat.le_add_right_of_le h.le

theorem Delivered.line (hw : LF ∉ w) (hdata : data.drop done = w ++ LF :: rest) (number : Int64)
    {logdata : Logdata}
    (htext : rawEventText logdata = some (chomp w)) :
    Delivered name data (done + (w.length + 1)) (out ++ [.record name number logdata]) := by
  have hlen := congrArg length hdata
  rw [length_drop, length_append, length_cons] at hlen
  have hnext : splitLines LF (w ++ [LF]) = ([w], []) := splitLines_line [] hw
  have htake : data.take (done + (w.length + 1)) = data.take done ++ (w ++ [LF]) := by
    rw [take_add, hdata, append_cons, take_left' (by simp)]
  refine ⟨by omega, ?_, ?_⟩
  · rw [htake, splitLines_complete _ h.whole, hnext]
  · have hadd : fileLines (w ++ [LF]) = [chomp w] := by rw [fileLines, hnext]; rfl
    rw [htake, fileLines_append _ h.whole, hadd, map_append, ← h.texts]
    simp [ImFile.texts, Note.text, htext]

end Delivered

/-- In a clean text every line comes out as it is in the file, in whatever pieces it arrives. -/
theorem CleanText.assemble {data : Bytes} (h : CleanText data) {out : List Note}
    (hd : Delivered name data done out) (hw : LF ∉ acc.flatten ++ w)
    (hpieces : ∀ p ∈ acc, p.length < stringLimit) (hdata : data.drop done = (acc.flatten ++ w) ++ LF :: rest) :
    assemble (acc, w) = chomp (acc.flatten ++ w) := by
  have hmem : chomp (acc.flatten ++ w) ∈ fileLines data := by
    have hlines := fileLines_append (data.drop done) hd.whole
    rw [take_append_drop] at hlines
    rw [hlines, hdata, fileLines, fileLines, splitLines_line rest hw]
    simp
  obtain ⟨hlim, hcr⟩ := h.lines _ hmem
  refine (assemble_eq_iff hpieces).mpr (.inr ⟨hlim, fun hlast => absurd hlast hcr⟩)

/-! ## An open file -/

/-- The bytes read of the file behind its first `done` ones are the pieces `acc` of the line under
way and what is in the buffer. -/
structure Tracks (bufsize : Nat) (data : Bytes) (done : Nat) (acc : List Bytes) (o : Opened Input) : Prop where
  wf : o.input.Wf
  size : o.input.bufsize = bufsize
  ctx : o.input.ctx = ctxOf acc
  open_line : LF ∉ acc.flatten
  pieces : ∀ p ∈ acc, p.length ≤ bufsize
  bytes : data.take o.offset = data.take done ++ (acc.flatten ++ o.input.pending)
  offset : o.offset ≤ data.length

section Tracks

variable {bufsize : Nat} {data : Bytes} {done : Nat} {acc : List Bytes} {o : Opened Input}

theorem ctxOf_eq_none : ctxOf acc = none ↔ acc = [] := by
  cases acc with
  | nil => simp [ctxOf, saved]
  | cons p ps => simp [ctxOf, saved]

variable (h : Tracks bufsize data done acc o)
include h

variable (hdone : done ≤ data.length)
include hdone

theorem Tracks.append (more : Bytes) : Tracks bufsize (data ++ more) done acc o := by
  refine ⟨h.wf, h.size, h.ctx, h.open_line, h.pieces, ?_, ?_⟩
  · rw [take_append_of_le_length h.offset, take_append_of_le_length hdone]
    exact h.bytes
  · rw [length_append]
    exact Nat.le_add_right_of_le h.offset

/-- What is read of the file is behind the lines. -/
theorem Tracks.length :
    o.offset = done + (acc.flatten.length + o.input.pending.length) := by
  have hlen := congrArg List.length h.bytes
  rw [List.length_take, List.length_append, List.length_append, List.length_take] at hlen
  have := h.offset
  omega

theorem Tracks.drop :
    data.drop done = acc.flatten ++ (o.input.pending ++ data.drop o.offset) := by
  have hsplit : data = data.take done ++ (acc.flatten ++ (o.input.pending ++ data.drop o.offset)) := by
    rw [← List.append_assoc acc.flatten, ← List.append_assoc, ← h.bytes, List.take_append_drop]
  have hlen : (data.take done).length = done := by
    rw [List.length_take]
    omega
  have hdrop := congrArg (List.drop done) hsplit
  rwa [List.drop_left' hlen] at hdrop

omit hdone in
theorem Tracks.not_nul (hclean : CleanText data) : 0 ∉ o.input.pending := by
  intro hmem
  refine hclean.nul (mem_of_mem_take (i := o.offset) ?_)
  rw [h.bytes]
  simp [hmem]

/-- The position in front of the buffer. -/
theorem Tracks.position {conf : Conf Input}
    {buf : Bytes} (hconf : conf.inputfunc = lineInput buf) : position conf o = done + acc.flatten.length := by
  have hlen := h.length hdone
  have hbuf := h.wf.pending_length
  rw [ImFile.position, hconf]
  show (if 0 < o.input.buflen ∧ o.input.buflen ≤ o.offset then o.offset -
    o.input.buflen else o.offset : Int) = _
  split <;> omega

omit hdone

omit h in
/-- A file is opened behind the lines that were delivered. -/
theorem tracks_fresh (buf data : Bytes) (hdone : done ≤ data.length) (i : Nat) :
    Tracks buf.length data done [] ⟨Input.fresh buf, i, done⟩ :=
  ⟨Input.fresh_wf buf, rfl, rfl, by simp, nofun, by simp [Input.fresh_pending], hdone⟩

theorem Tracks.prepare : Tracks bufsize data done acc { o with input := o.input.prepare } := by
  obtain ⟨hwf, hpending⟩ := h.wf.prepare
  refine ⟨hwf, ?_, ?_, h.open_line, h.pieces, ?_, h.offset⟩
  · rw [Input.prepare_bufsize, h.size]
  · rw [Input.prepare_ctx, h.ctx]
  · rw [hpending]
    exact h.bytes

/-- The next bytes of the file are read. -/
theorem Tracks.fill {more : Bytes} (hmore : more = (data.drop o.offset).take o.input.prepare.roomLeft) :
    Tracks bufsize data done acc ⟨o.input.prepare.receive more, o.inode, o.offset + more.length⟩ := by
  have hlen : more.length ≤ o.input.prepare.roomLeft := by
    rw [hmore, length_take]
    exact Nat.min_le_left _ _
  have hsize : o.offset + more.length ≤ data.length := by
    have := h.offset
    rw [hmore, length_take, length_drop]
    omega
  have hread : more <+: data.drop o.offset := by
    rw [hmore]
    exact take_prefix _ _
  obtain ⟨hwf, hpending⟩ := h.wf.fill hlen
  refine ⟨hwf, ?_, ?_, h.open_line, h.pieces, ?_, hsize⟩
  · exact (Input.fill_bufsize o.input more).trans h.size
  · exact (Input.fill_ctx o.input more).trans h.ctx
  · show data.take (o.offset + more.length) = data.take done ++ (acc.flatten ++ (o.input.fill more).pending)
    rw [hpending, take_add, ← prefix_iff_eq_take.mp hread, h.bytes]
    simp

theorem Tracks.line (hdone : done ≤ data.length) {input : Input}
    (hp : o.input.pending = w ++ LF :: rest) (hwf : input.Wf) (hsize : input.bufsize = bufsize)
    (hctx : input.ctx = ctxOf []) (hpending : input.pending = rest) :
    Tracks bufsize data (done + ((acc.flatten ++ w).length + 1)) [] { o with input := input } := by
  refine ⟨hwf, hsize, hctx, by simp, nofun, ?_, h.offset⟩
  have hnext : data.take (done + ((acc.flatten ++ w).length + 1)) = data.take done ++
    ((acc.flatten ++ w) ++ [LF]) := by
    have hdrop : data.drop done = ((acc.flatten ++ w) ++ [LF]) ++ (rest ++ data.drop o.offset) := by
      rw [h.drop hdone, hp]
      simp
    have hlen : ((acc.flatten ++ w) ++ [LF]).length = (acc.flatten ++ w).length + 1 := length_append
    rw [take_add, hdrop, take_left' hlen]
  rw [hnext, hpending, h.bytes, hp]
  simp

/-- Without a line end the buffer is put to the line under way. -/
theorem Tracks.piece (hlf : LF ∉ o.input.pending) {input : Input} (hwf : input.Wf)
    (hsize : input.bufsize = bufsize) (hctx : input.ctx = ctxOf (addPiece acc o.input.pending))
    (hpending : input.pending = []) : Tracks bufsize data done (addPiece acc o.input.pending)
    { o with input := input } := by
  refine ⟨hwf, hsize, hctx, ?_, fun p hp => ?_, ?_, h.offset⟩
  · rw [flatten_addPiece, mem_append]
    exact fun hmem => hmem.elim h.open_line hlf
  · unfold addPiece at hp
    split at hp
    · exact h.pieces p hp
    rcases mem_append.mp hp with hp | hp
    · exact h.pieces p hp
    · rw [mem_singleton.mp hp]
      have hlen := h.wf.pending_length
      have hroom := h.wf.room
      rw [h.size] at hroom
      omega
  · rw [flatten_addPiece, hpending, append_nil]
    exact h.bytes

omit h

/-- The reader delivers the next line, or there is none in the buffer. -/
theorem lineReader_tracks (hlim : bufsize < stringLimit) (hclean : CleanText data) {out : List Note}
    (hd : Delivered name data done out) (h : Tracks bufsize data done acc o) :
    Post (fun r => (∃ w rest, r.1 = some (lineRecord (chomp w)) ∧ LF ∉ w ∧ data.drop done = w ++ LF :: rest ∧
        o.input.pending ≠ [] ∧ Tracks bufsize data (done + (w.length + 1)) [] { o with input := r.2 }) ∨
      (r.1 = none ∧ LF ∉ o.input.pending ∧ (o.input.pending = [] → r.2 = o.input) ∧
        ∃ acc', Tracks bufsize data done acc' { o with input := r.2 } ∧ r.2.pending = []))
          (lineReader o.input) := by
  have h0 := h.not_nul hclean
  have hread := lineReader_spec h.wf h0 h.ctx (h.size ▸ hlim)
  generalize lineReader o.input = x at hread
  cases hread with
  | empty hnil => exact .ok (.inr ⟨rfl, by simp [hnil], fun _ => rfl, acc, h, hnil⟩)
  | behind => exact .error _
  | @line w rest input hw hp _ hwf hrest hsize _ hctx =>
    have hline : LF ∉ acc.flatten ++ w := by
      rw [mem_append]
      exact fun hmem => hmem.elim h.open_line hw
    have hdrop : data.drop done = (acc.flatten ++ w) ++ LF :: (rest ++ data.drop o.offset) := by
      rw [h.drop hd.le, hp]
      simp
    have hpieces : ∀ p ∈ acc, p.length < stringLimit := fun p hpm => Nat.lt_of_le_of_lt (h.pieces p hpm) hlim
    refine .ok (.inl ⟨acc.flatten ++ w, _, ?_, hline, hdrop, by simp [hp], ?_⟩)
    · rw [hclean.assemble hd hline hpieces hdrop]
    · exact h.line hd.le hp hwf (hsize.trans h.size) hctx hrest
  | piece hlf hne =>
    obtain ⟨hwf, hpending⟩ := h.wf.advance (Nat.le_refl o.input.pending.length)
    rw [drop_length] at hpending
    refine .ok (.inr ⟨rfl, hlf, fun hnil => absurd hnil hne, addPiece acc o.input.pending, ?_, hpending⟩)
    exact h.piece hlf ⟨hwf.size, hwf.nonneg, hwf.room⟩ h.size rfl hpending

end Tracks

/-! ## The file -/

/-- A file of the hash that goes on behind its first `done` bytes. -/
structure FileAt (i bufsize : Nat) (data : Bytes) (done : Nat) (f : FileInput Input) : Prop where
  inode : f.inode = 0 ∨ f.inode = i
  filepos : 0 ≤ f.filepos ∧ f.filepos ≤ data.length
  new_size : f.new_size ≤ data.length
  closed : f.input = none → f.filepos = done
  opened : ∀ o, f.input = some o → o.inode = i ∧ ∃ acc, Tracks bufsize data done acc o

theorem FileAt.opens {i bufsize done : Nat} {data : Bytes} {f f' : FileInput Input}
    (h : FileAt i bufsize data done f)
    {done' : Nat} (ht : Tracks bufsize data done' acc o) (hi : o.inode = i)
    (hinput : f'.input = some o) (hinode : f'.inode = f.inode) (hpos : f'.filepos = f.filepos)
    (hsize : f'.new_size = f.new_size) : FileAt i bufsize data done' f' := by
  refine ⟨hinode ▸ h.inode, hpos ▸ h.filepos, hsize ▸ h.new_size, fun hnone => ?_, fun o' ho' => ?_⟩
  · rw [hinput] at hnone
    cases hnone
  · rw [hinput] at ho'
    cases ho'
    exact ⟨hi, acc, ht⟩

/-- The records of the file are its first lines, and it goes on behind them. -/
def Reads (name : Name) (i bufsize : Nat) (s : State Input) : Prop :=
  ∃ done, Delivered name (s.disk.data i) done s.out ∧ FileAt i bufsize (s.disk.data i) done (s.file name)

def NoLine (name : Name) (s : State Input) : Prop := ∀ o, (s.file name).input = some o → o.input.ctx = none

section Reads

variable {conf : Conf Input} {buf : Bytes} {name : Name} {i : Nat} {s s' : State Input}

theorem Reads.setFile (hd : Delivered name (s.disk.data i) done s.out) {f : FileInput Input}
    (hf : FileAt i buf.length (s.disk.data i) done f) : Reads name i buf.length (s.setFile name f) :=
  ⟨done, hd, by simpa [State.setFile] using hf⟩

theorem rawEventText_numbered (x : Bytes) (v : NxValue) :
    rawEventText ((lineRecord x).appendFieldValue lineNumberKey v) = some x := by
  simp [rawEventText, lineRecord, Logdata.appendFieldValue, deref, NxValue.string?]

theorem setFieldValue_lineRecord (x : Bytes) (v : NxValue) :
    setFieldValue (lineRecord x) lineNumberKey v = .ok ((lineRecord x).appendFieldValue lineNumberKey v) := by
  have hnone : getField (lineRecord x) lineNumberKey = none := rfl
  rw [setFieldValue, hnone]

variable (hconf : conf.inputfunc = lineInput buf) (h : Reads name i buf.length s)
include h

theorem Reads.of_file (hdisk : s'.disk = s.disk) (hfile : s'.file name = s.file name)
    (hout : texts name s'.out = texts name s.out) : Reads name i buf.length s' := by
  obtain ⟨done, hd, hf⟩ := h
  refine ⟨done, ?_, ?_⟩
  · rw [hdisk]
    exact ⟨hd.le, hd.whole, hout.trans hd.texts⟩
  · rw [hdisk, hfile]
    exact hf

theorem Reads.beside (hb : Beside m s s') (hm : name ≠ m) :
    Reads name i buf.length s' := by
  obtain ⟨notes, hout, hnotes⟩ := hb.notes
  refine h.of_file hb.disk (hb.others name hm) ?_
  rw [hout]
  exact texts_others (fun x hx heq => hm (heq.symm.trans (hnotes x hx))) s.out

theorem callReader_reads (hlim : buf.length < stringLimit) (hclean : CleanText (s.disk.data i))
    (ho : (s.file name).input = some o) :
    Post (fun r => Reads name i buf.length r.1 ∧ ∃ o', (r.1.file name).input = some o' ∧ o'.inode = o.inode ∧
      o'.offset = o.offset ∧ (r.2 = false → LF ∉ o.input.pending ∧ o'.input.pending = []) ∧
        (o.input.pending = [] → o'.input = o.input)) (callReader lineReader name o s) := by
  obtain ⟨done, hd, hf⟩ := h
  obtain ⟨hinode, acc, ht⟩ := hf.opened o ho
  refine (lineReader_tracks hlim hclean hd ht).bind fun r hr => ?_
  obtain ⟨r, input⟩ := r
  rcases hr with ⟨w, rest, rfl, hw, hdrop, hne, ht'⟩ | ⟨rfl, hlf, hsame, acc', ht', hpending⟩
  · refine Post.bind (P := fun s2 : State Input => Reads name i buf.length s2 ∧
      (s2.file name).input = some { o with input := input }) ?_ fun s2 h2 =>
        .ok ⟨h2.1, _, h2.2, rfl, rfl, nofun, fun hnil => absurd hnil hne⟩
    refine Post.any fun number => ?_
    refine .ok ⟨⟨done + (w.length + 1), ?_, ?_⟩, ?_⟩
    · exact hd.line hw hdrop number (rawEventText_numbered (chomp w) _)
    · refine hf.opens ht' hinode ?_ ?_ ?_ ?_ <;> simp [State.note, State.setFile, State.setInput]
    · simp [State.note, State.setFile, State.setInput]
  · refine .ok ⟨Reads.setFile hd (hf.opens ht' hinode (by rfl) (by rfl) (by rfl) (by rfl)),
      { o with input := input }, ?_, rfl, rfl,
      fun _ => ⟨hlf, hpending⟩, hsame⟩
    simp [State.setInput, State.setFile]

include hconf

omit h in
theorem flushInput_line (name : Name) (s : State Input) : flushInput conf name s = .ok s := by
  unfold flushInput
  rw [hconf]
  split
  · next hflush => cases hflush
  · rfl

theorem getFilepos_reads :
    Post (fun s' => Reads name i buf.length s' ∧ (s'.file name).input = (s.file name).input)
      (getFilepos conf name s) := by
  obtain ⟨done, hd, hf⟩ := h
  unfold getFilepos
  split
  · exact .error _
  next o ho =>
  obtain ⟨-, acc, ht⟩ := hf.opened o ho
  have hpos := ht.position hd.le hconf
  have hlen := ht.length hd.le
  have hoff := ht.offset
  refine .ok ⟨Reads.setFile hd ⟨hf.inode, ?_, hf.new_size, fun hnone => ?_, hf.opened⟩,
    by simp [State.setFile]⟩
  · dsimp only
    omega
  · rw [ho] at hnone
    cases hnone

/-- Between two lines a close keeps the position. -/
theorem inputClose_reads (hno : NoLine name s) :
    Post (Reads name i buf.length) (inputClose conf name s) := by
  intro s' hs'
  obtain ⟨done, hd, hf⟩ := h
  obtain ⟨s1, h1, hcase⟩ := inputClose_cases hs'
  rw [flushInput_line hconf] at h1
  cases h1
  rcases hcase with ⟨-, rfl⟩ | ⟨o, ho, rfl⟩
  · exact ⟨done, hd, hf⟩
  obtain ⟨-, acc, ht⟩ := hf.opened o ho
  have hacc : acc = [] := ctxOf_eq_none.mp (ht.ctx.symm.trans (hno o ho))
  subst hacc
  have hpos : position conf o = done := by simpa using ht.position hd.le hconf
  have hle := hd.le
  refine ⟨done, hd, ?_⟩
  have hat : FileAt i buf.length (s.disk.data i) done
    { s.file name with filepos := position conf o, input := none } := by
    refine ⟨hf.inode, ?_, hf.new_size, fun _ => hpos, nofun⟩
    dsimp only
    omega
  simpa [State.setFile, leave] using hat

/-- The buffer is filled; at the end of the file it is left as it was. -/
theorem fillBuffer_reads (ho : (s.file name).input = some o) :
    Post (fun r => Reads name i buf.length r.1 ∧ ((r.1.file name).input.isSome) ∧ (r.2 = true →
      s.disk.status o.inode = .ready ∧ (s.disk.data o.inode).length ≤ o.offset ∧
        (r.1.file name).input = some { o with input := o.input.prepare })) (fillBuffer conf name s) := by
  obtain ⟨done, hd, hf⟩ := h
  obtain ⟨hinode, acc, ht⟩ := hf.opened o ho
  have hroom : conf.inputfunc.room o.input = .ok (o.input.prepare, o.input.prepare.roomLeft) := by
    rw [hconf]
    exact if_pos ht.wf.prepare.1.room
  have hprepared : Reads name i buf.length (s.setInput name (some { o with input := o.input.prepare })) :=
    Reads.setFile hd (hf.opens ht.prepare hinode (by rfl) (by rfl) (by rfl) (by rfl))
  simp only [fillBuffer, ho, hroom, ok_bind]
  split
  · next hready =>
    split
    · next hend =>
      obtain ⟨hlen, hnil⟩ := hend
      refine .ok ⟨Reads.setFile hd (hf.opens ht.prepare hinode (by rfl) (by rfl) (by rfl) (by rfl)),
        by simp [State.setFile], fun _ => ?_⟩
      have hdrop := (take_eq_nil_iff.mp hnil).resolve_left hlen
      exact ⟨hready, drop_eq_nil_iff.mp hdrop, by simp [State.setFile]⟩
    · have hfill := ht.fill rfl
      refine .ok ⟨Reads.setFile hd (hf.opens hfill hinode ?_ (by rfl) (by rfl) (by rfl)),
        by simp [State.setFile], fun h => by cases h⟩
      rw [hconf, hinode]
      rfl
  · exact .ok ⟨hprepared, by simp [State.setInput, State.setFile], fun h => by cases h⟩
  · exact .error _

/-! ### Opening -/

omit hconf in
theorem updateInfo_reads (ho : (s.file name).input = some o) :
    Reads name i buf.length (updateInfo name o s) ∧ ((updateInfo name o s).file name).input = some o := by
  obtain ⟨done, hd, hf⟩ := h
  obtain ⟨hinode, -⟩ := hf.opened o ho
  have hpos := hf.filepos
  have hsize : s.disk.size o.inode = (s.disk.data i).length := by rw [hinode]; rfl
  unfold updateInfo
  dsimp only
  rw [if_neg (by rw [hsize]; omega)]
  refine ⟨Reads.setFile hd ⟨.inr hinode, hf.filepos, ?_, hf.closed, hf.opened⟩, by simp [State.setFile, ho]⟩
  dsimp only
  omega

theorem statInput_reads (opened : Bool) (hno : opened = true → NoLine name s) :
    Post (Reads name i buf.length) (statInput conf name opened s) := by
  unfold statInput
  split
  · exact .error _
  next o ho =>
  obtain ⟨hr, hinput⟩ := updateInfo_reads h ho
  apply Post.ite
  · intro hopen
    refine inputClose_reads hconf hr fun o' ho' => ?_
    rw [hinput] at ho'
    exact hno hopen.1 o' (ho.trans ho')
  · exact fun _ => .ok hr

/-- A closed file is opened where it was closed. -/
theorem openFile_reads (hclosed : (s.file name).input = none) (hfirst : readfromlast = false ∨
    0 < (s.file name).filepos) :
    Reads name i buf.length (openFile conf name readfromlast i s) ∧
    NoLine name (openFile conf name readfromlast i s) := by
  obtain ⟨done, hd, hf⟩ := h
  have hpos := hf.closed hclosed
  have hstart : startPos (s.file name).filepos readfromlast (s.disk.size i) = done := by
    rw [← hpos, startPos]
    rcases hfirst with hrfl | hlt
    · simp [hrfl]
    · rw [if_pos hlt]
  have hfile := openFile_file conf name s readfromlast i
  rw [hstart, hconf] at hfile
  have hlen := hd.le
  constructor
  · refine ⟨done, hd, ?_⟩
    rw [hfile]
    refine ⟨hf.inode, ?_, hf.new_size, by simp, fun o ho => ?_⟩
    · show 0 ≤ (done : Int) ∧ (done : Int) ≤ (s.disk.data i).length
      omega
    · cases ho
      exact ⟨rfl, [], tracks_fresh buf (s.disk.data i) hd.le i⟩
  · intro o ho
    rw [hfile] at ho
    cases ho
    rfl

theorem inputBlacklist_reads (hno : NoLine name s) :
    Post (Reads name i buf.length) (inputBlacklist conf name s) := by
  refine (inputClose_reads hconf h hno).bind fun s1 h1 => .ok ?_
  obtain ⟨done, hd, hf⟩ := h1
  refine ⟨done, hd, ?_⟩
  simp only [State.setFile, if_true]
  exact ⟨hf.inode, hf.filepos, hf.new_size, hf.closed, hf.opened⟩

theorem inputOpen_reads (hentry : s.disk.entry name = .inode i) (hfirst : readfromlast = false ∨
    0 < (s.file name).filepos) (existed : Bool) :
    Post (fun s' => Only name s s' ∧ Reads name i buf.length s')
    (inputOpen conf name readfromlast existed s) := by
  apply Post.ite
  · exact fun _ => .ok ⟨Only.refl name s, h⟩
  intro _
  split
  · exact (statInput_only conf name s false).and (statInput_reads hconf h false nofun)
  · next hclosed =>
    rw [hentry]
    refine Post.ite (fun _ => ?_) fun _ => (inputBlacklist_only conf name s).and
      (inputBlacklist_reads hconf h fun o ho => by cases hclosed.symm.trans ho)
    obtain ⟨hr, hno⟩ := openFile_reads hconf h hclosed hfirst
    refine ((statInput_only conf name _ true).mono fun s' h' =>
      ?_).and (statInput_reads hconf hr true fun _ => hno)
    exact (openFile_only conf name s readfromlast i).trans h'

/-! ### Reading -/

variable (conf name) in
/-- At the end of the file no line is under way, or the file is not closed when it is idle. -/
def ReadOk (s : State Input) : Prop :=
  ∀ o, (s.file name).input = some o → conf.closewhenidle = true → s.disk.status o.inode = .ready →
    (s.disk.data o.inode).length ≤ o.offset → o.input.ctx = none ∧
    (o.input.pending ≠ [] → LF ∈ o.input.pending)

theorem readMore_reads (hlim : buf.length < stringLimit) (hclean : CleanText (s.disk.data i))
    (ho : (s.file name).input = some o) (hpending : o.input.pending = []) :
    Post (fun r => Reads name i buf.length r.1 ∧ (r.1.file name).input.isSome ∧ (r.2.2 = true →
      s.disk.status o.inode = .ready ∧ (s.disk.data o.inode).length ≤ o.offset ∧
        ∀ o', (r.1.file name).input = some o' → o'.input.ctx = o.input.ctx)) (readMore conf name s) := by
  have hwf : o.input.Wf := by
    obtain ⟨done, -, hf⟩ := h
    obtain ⟨-, acc, ht⟩ := hf.opened o ho
    exact ht.wf
  refine ((getFilepos_edits conf name s).and (getFilepos_reads hconf h)).bind fun s1 h1 => ?_
  obtain ⟨honly, hreads, hinput⟩ := h1
  let saved := (s1.cacheSet name (asInt (s1.file name).filepos)).cacheSet (countKey name)
    (s1.file name).current_line_number
  have hsaved : Reads name i buf.length saved := hreads.of_file rfl rfl rfl
  have ho1 : (saved.file name).input = some o := hinput.trans ho
  refine ((fillBuffer_edits conf name _).and (fillBuffer_reads hconf hsaved ho1)).bind fun r hr => ?_
  obtain ⟨s2, got_eof⟩ := r
  obtain ⟨honly2, hreads2, hsome, heof⟩ := hr
  have hdisk1 : saved.disk = s.disk := honly.only.disk
  have hdisk : s2.disk = s.disk := honly2.only.disk.trans hdisk1
  dsimp only
  split
  · next hnone =>
    rw [hnone] at hsome
    cases hsome
  · next o2 ho2 =>
    rw [hconf]
    refine (callReader_reads hreads2 hlim (hdisk ▸ hclean) ho2).bind fun r hr => .ok ?_
    obtain ⟨hreads3, o3, ho3, -, -, -, hsame⟩ := hr
    refine ⟨hreads3, by rw [ho3]; rfl, fun hend => ?_⟩
    obtain ⟨hready, hlen, hprepared⟩ := heof hend
    rw [hdisk1] at hready hlen
    refine ⟨hready, hlen, fun o' ho' => ?_⟩
    -- nothing was read, so the reader was called on the empty buffer
    obtain rfl : o2 = { o with input := o.input.prepare } := Option.some.inj (ho2.symm.trans hprepared)
    obtain rfl : o3 = o' := Option.some.inj (ho3.symm.trans ho')
    rw [hsame (by rw [hwf.prepare.2, hpending])]
    exact Input.prepare_ctx o.input

theorem readRecord_reads (hlim : buf.length < stringLimit) (hclean : CleanText (s.disk.data i))
    (hok : ReadOk conf name s) :
    Post (fun r => Reads name i buf.length r.1 ∧ (r.1.file name).input.isSome ∧
      (r.2.2 = true → r.2.1 = false → conf.closewhenidle = true → NoLine name r.1))
        (readRecord conf name s) := by
  unfold readRecord
  split
  · exact .error _
  next o ho =>
  rw [hconf]
  refine ((callReader_edits name s _ ho).and (callReader_reads h hlim hclean ho)).bind fun r hr => ?_
  obtain ⟨honly, hreads, o1, ho1, hinode, hoffset, hnone, hsame⟩ := hr
  apply Post.ite
  · exact fun _ => .ok ⟨hreads, by rw [ho1]; rfl, nofun⟩
  intro hdata
  obtain ⟨hlf, hpending⟩ := hnone (by simpa using hdata)
  refine (readMore_reads hconf hreads hlim (honly.only.disk ▸ hclean) ho1 hpending).mono fun r2 hr2 => ?_
  refine ⟨hr2.1, hr2.2.1, fun heof _ hidle o2 ho2 => ?_⟩
  obtain ⟨hready, hlen, hctx⟩ := hr2.2.2 heof
  rw [hinode, honly.only.disk] at hready hlen
  rw [hoffset] at hlen
  obtain ⟨hctx0, hline⟩ := hok o ho hidle hready hlen
  have hempty : o.input.pending = [] := by
    by_contra hne
    exact hlf (hline hne)
  rw [hctx o2 ho2, hsame hempty, hctx0]

omit hconf in
theorem countEof_reads (hopen : (s.file name).input.isSome) :
    Reads name i buf.length (countEof name s) ∧ ((countEof name s).file name).input = (s.file name).input := by
  obtain ⟨done, hd, hf⟩ := h
  obtain ⟨o, ho⟩ := Option.isSome_iff_exists.mp hopen
  have hpos := hf.filepos
  have hsize := hf.new_size
  obtain ⟨mtime, size, filepos, hfile, hcase⟩ : ∃ mtime size filepos, (countEof name s).file name =
      { s.file name with mtime := mtime, size := size, filepos := filepos, num_eof := (s.file name).num_eof + 1 } ∧
      (filepos = (s.file name).filepos ∨ 0 < (s.file name).new_size ∧ filepos = (s.file name).new_size) := by
    simp only [countEof, State.setFile, if_true]
    split
    · next hnew => split <;> exact ⟨_, _, _, rfl, .inr ⟨hnew, rfl⟩⟩
    · split <;> exact ⟨_, _, _, rfl, .inl rfl⟩
  rw [Reads, hfile]
  refine ⟨⟨done, hd, hf.inode, ?_, hf.new_size, fun hnone => ?_, hf.opened⟩, rfl⟩
  · show 0 ≤ filepos ∧ filepos ≤ (s.disk.data i).length
    omega
  · cases ho.symm.trans hnone

theorem idleFile_reads (hopen : (s.file name).input.isSome) (hno : conf.closewhenidle = true →
    NoLine name s) : Post (Reads name i buf.length) (idleFile conf name s) := by
  obtain ⟨hcount, hinput⟩ := countEof_reads h hopen
  have hflush : flushIdle conf name (countEof name s) = .ok (countEof name s) := by
    unfold flushIdle
    rw [flushInput_line hconf]
    split <;> rfl
  unfold idleFile
  rw [hflush, ok_bind]
  have hnext : Reads name i buf.length
      { countEof name s with currsrc := nextFile (countEof name s).open_files name } :=
        hcount.of_file rfl rfl rfl
  apply Post.ite
  · intro hidle
    refine inputClose_reads hconf hnext fun o ho => hno hidle o ?_
    rw [← hinput]
    exact ho
  · exact fun _ => .ok hnext

theorem readTurn_reads (hlim : buf.length < stringLimit) (hclean : CleanText (s.disk.data i))
    (hok : ReadOk conf name s) :
    Post (Reads name i buf.length) (readTurn conf name s) := by
  refine (readRecord_reads hconf h hlim hclean hok).bind fun r hr => ?_
  obtain ⟨s1, got_data, got_eof⟩ := r
  obtain ⟨⟨done, hd, hf⟩, hopen, hno⟩ := hr
  apply Post.ite
  · intro heof
    apply Post.ite
    · exact fun _ => .ok ⟨done, hd, hf⟩
    · exact fun hdata => idleFile_reads hconf ⟨done, hd, hf⟩ hopen (hno heof (by simpa using hdata))
  · exact fun _ => .ok (Reads.setFile hd ⟨hf.inode, hf.filepos, hf.new_size, hf.closed, hf.opened⟩)

end Reads

/-! ## Every event -/

/-- The file grows, and its records are its first lines; when it is in the hash or comes into it
again it goes on behind them. No other file has its name in the cache. -/
structure Following (conf : Conf Input) (name : Name) (i bufsize : Nat) (s : State Input) : Prop where
  entry : s.disk.entry name = .inode i
  clean : CleanText (s.disk.data i)
  keys : ∀ m ∈ s.files, countKey m ≠ name
  known : name ∈ s.files → Reads name i bufsize s
  saved : name ∉ s.files → ∃ done : Nat, savedPos conf s name = done ∧
    Delivered name (s.disk.data i) done s.out

section Following

variable {conf : Conf Input} {buf : Bytes} {name : Name} {i : Nat} {s s' : State Input}

theorem savedPos_of_cache (h : s'.cache name = s.cache name) :
    savedPos conf s' name = savedPos conf s name := by
  rw [savedPos, savedPos, h]

variable (hconf : conf.inputfunc = lineInput buf) (hwf : s.Wf conf) (h : Following conf name i buf.length s)
include h

theorem Following.beside (hb : Beside m s s') (hm : name ≠ m)
    (hkey : countKey m ≠ name) : Following conf name i buf.length s' := by
  refine ⟨hb.disk ▸ h.entry, hb.disk ▸ h.clean, fun n hn => ?_, fun hin => ?_, fun hout => ?_⟩
  · by_cases heq : n = m
    · rw [heq]
      exact hkey
    · exact h.keys n ((hb.files n heq).mp hn)
  · exact (h.known ((hb.files name hm).mp hin)).beside hb hm
  · obtain ⟨done, hpos, hd⟩ := h.saved fun hin => hout ((hb.files name hm).mpr hin)
    obtain ⟨notes, hnotes, hnames⟩ := hb.notes
    refine ⟨done, ?_, ?_⟩
    · rw [savedPos_of_cache (hb.cache name hm fun heq => hkey heq.symm), hpos]
    · rw [hb.disk, hnotes]
      refine ⟨hd.le, hd.whole, ?_⟩
      rw [texts_others (fun x hx heq => hm (heq.symm.trans (hnames x hx))), hd.texts]

theorem Following.own (hb : Beside name s s') (hfiles : s'.files = s.files)
    (hname : name ∈ s.files) (hr : Reads name i buf.length s') : Following conf name i buf.length s' :=
  ⟨hb.disk ▸ h.entry, hb.disk ▸ h.clean, fun n hn => h.keys n (hfiles ▸ hn), fun _ => hr,
    fun hout => absurd (hfiles ▸ hname) hout⟩

theorem Following.only (ho : Only name s s') (hname : name ∈ s.files)
    (hr : Reads name i buf.length s') : Following conf name i buf.length s' :=
  h.own ho.beside ho.files hname hr

variable (conf name) in
/-- No line of the file is under way, or it is not one that is closed to make room. -/
def CloseOk (s : State Input) : Prop :=
  conf.active_files ≤ s.open_files.length → 0 < (s.file name).num_eof → NoLine name s

include hconf hwf in
theorem checkClose_following (hok : CloseOk conf name s) :
    Post (fun r => Following conf name i buf.length r.1 ∧ r.1.files = s.files) (checkClose conf s) := by
  intro r hr
  rcases checkClose_cases hr with heq | ⟨n, hn, s1, hfull, heof, h1, h2⟩
  · rw [heq]
    exact ⟨h, rfl⟩
  have honly := (getFilepos_edits conf n s s1 h1).only.trans (inputClose_only conf n s1 r.1 h2)
  refine ⟨?_, honly.files⟩
  by_cases hne : name = n
  · subst hne
    have hname := hwf.known name hn
    obtain ⟨hr1, hinput⟩ := getFilepos_reads hconf (h.known hname) s1 h1
    refine h.only honly hname (inputClose_reads hconf hr1 (fun o ho => ?_) r.1 h2)
    have hnum := hwf.num
    exact hok (by omega) heof o (hinput ▸ ho)
  · exact h.beside honly.beside hne (h.keys n (hwf.known n hn))

include hconf in
/-- Any file of the hash is opened, this one behind its lines. -/
theorem inputOpen_following (existed : Bool) (hmem : m ∈ s.files)
    (hfirst : m = name → readfromlast = false ∨ 0 < (s.file name).filepos) :
    Post (Following conf name i buf.length) (inputOpen conf m readfromlast existed s) := by
  by_cases hm : name = m
  · subst hm
    exact (inputOpen_reads hconf (h.known hmem) h.entry (hfirst rfl) existed).mono fun _ h' =>
      h.only h'.1 hmem h'.2
  · exact (inputOpen_beside conf m s readfromlast existed).mono fun s' h' => h.beside h' hm (h.keys m hmem)

/-! ### Checking -/

omit h in
theorem CloseOk.of_file (hok : CloseOk conf name s) (hlen : s'.open_files.length ≤ s.open_files.length)
    (hfile : s'.file name = s.file name) : CloseOk conf name s' := by
  intro hfull heof o ho
  rw [hfile] at heof ho
  exact hok (Nat.le_trans hfull hlen) heof o ho

theorem noteFound_following {j : Nat} (hmem : m ∈ s.files)
    (hentry : s.disk.entry m = .inode j) (hok : CloseOk conf name s) :
    Post (fun r => Following conf name i buf.length r.1 ∧ CloseOk conf name r.1) (noteFound conf m j s) := by
  by_cases hm : name = m
  · subst hm
    obtain rfl : i = j := by simpa [h.entry] using hentry
    obtain ⟨done, hd, hf⟩ := h.known hmem
    have hpos := hf.filepos
    have hsize : s.disk.size i = (s.disk.data i).length := rfl
    apply Post.ite
    · exact fun _ => .ok ⟨h, hok⟩
    intro hinode
    have hsame : ¬ (s.file name).inode ≠ i := not_not.mpr (hf.inode.resolve_left hinode)
    have hwhole : ¬ (s.file name).truncated (s.disk.size i) := by
      unfold FileInput.truncated
      omega
    rw [noteRotated, if_neg hsame, pure_eq, ok_bind]
    simp only [noteChanged, if_neg hwhole]
    refine .ok ⟨h.only (Only.setFile name s _) hmem
      (Reads.setFile hd ⟨hf.inode, hf.filepos, ?_, hf.closed, hf.opened⟩), fun hfull heof o ho => ?_⟩
    · simp only [FileInput.restat]
      split
      · exact Int.le_of_eq hsize
      · exact hf.new_size
    · simp only [State.setFile, if_true, FileInput.restat] at heof ho
      exact hok hfull heof o ho
  · refine (noteFound_works conf m s j).mono fun r hr => ?_
    exact ⟨h.beside hr.1.beside hm (h.keys m hmem), hok.of_file hr.1.length (hr.1.beside.others name hm)⟩

include hconf hwf in
theorem checkFile_following (hmem : m ∈ s.files) (hok : CloseOk conf name s) :
    Post (Following conf name i buf.length) (checkFile conf m s) := by
  -- this file is on the disk, so only others are given up
  have hother : (∀ j, s.disk.entry m ≠ .inode j) → name ≠ m := fun hne heq => hne i (heq ▸ h.entry)
  have hblack : name ≠ m → Post (Following conf name i buf.length) (inputBlacklist conf m s) := fun hm =>
    (inputBlacklist_only conf m s).mono fun s1 h1 => h.beside h1.beside hm (h.keys m hmem)
  apply Post.ite
  · exact fun _ => .ok h
  intro _
  apply Post.ite
  · intro _
    refine (checkClose_following hconf hwf h hok).bind fun r hr => ?_
    apply Post.ite
    · exact fun _ => inputOpen_following hconf hr.1 true (hr.2 ▸ hmem) fun _ => .inl rfl
    · exact fun _ => .ok hr.1
  · intro _
    split
    · next j hj =>
      refine ((noteFound_works conf m s j).and (noteFound_following h hmem hj hok)).bind fun r hr => ?_
      obtain ⟨⟨hworks, hfiles⟩, h1, hok1⟩ := hr
      apply Post.ite
      · intro _
        refine (checkClose_following hconf (hworks.wf hwf) h1 hok1).bind fun r hr => ?_
        exact inputOpen_following hconf hr.1 true (hr.2 ▸ hfiles ▸ hmem) fun _ => .inl rfl
      · exact fun _ => .ok h1
    · next hj => exact hblack (hother (by simp [hj]))
    · next hj =>
      have hm := hother (by simp [hj])
      apply Post.ite
      · exact fun _ => hblack hm
      · exact fun _ => (checkGone_works conf m s).mono fun s1 h1 => h.beside h1.beside hm (h.keys m hmem)

/-! ### Adding -/

/-- A file comes into the hash with its saved position. -/
theorem Following.insert (hname : name ∉ s.files) (k : Int64) :
    Following conf name i buf.length
      { s.setFile name (.new (savedPos conf s name) k) with files := s.files ++ [name] } := by
  obtain ⟨done, hpos, hd⟩ := h.saved hname
  have hlen := hd.le
  refine ⟨h.entry, h.clean, ?_, fun _ => ⟨done, hd, ?_⟩, fun hout => absurd (by simp) hout⟩
  · exact forall_mem_append.mpr ⟨h.keys, forall_mem_singleton.mpr (ne_countKey name).symm⟩
  · simp only [State.setFile, if_true]
    rw [hpos]
    refine ⟨.inl rfl, ?_, ?_, fun _ => rfl, fun _ ho => by cases ho⟩
    · show 0 ≤ (done : Int) ∧ (done : Int) ≤ (s.disk.data i).length
      omega
    · show (0 : Int) ≤ (s.disk.data i).length
      omega

include hconf hwf in
theorem addNew_following (hmem : m ∉ s.files) (hkey : countKey m ≠ name) (hok : CloseOk conf name s)
    (hdupe : dupeOf conf m s ≠ some name)
    (hown : m = name → (readfromlast = false ∨ 0 < savedPos conf s name) ∧
    dupeOf conf name s = none) : Post (fun s' => Following conf name i buf.length s' ∧
      (name ≠ m → (name ∈ s'.files ↔ name ∈ s.files))) (addNew conf m readfromlast s) := by
  have hdrop : Post (fun s1 => Following conf name i buf.length s1 ∧ (name ∈ s1.files ↔
      name ∈ s.files) ∧ CloseOk conf name s1 ∧ (m = name → s1 = s)) (dropDupe conf m s) := by
    unfold dropDupe
    split
    · exact .ok ⟨h, Iff.rfl, hok, fun _ => rfl⟩
    next dupe hd =>
    have hne : name ≠ dupe := fun heq => hdupe (heq ▸ hd)
    refine (dropFile_works conf dupe s).mono fun s1 h1 =>
      ⟨h.beside h1.beside hne (h.keys dupe (dupeOf_mem hd)),
      h1.beside.files name hne, hok.of_file h1.length (h1.beside.others name hne), ?_⟩
    rintro rfl
    rw [(hown rfl).2] at hd
    cases hd
  refine ((dropDupe_wf conf m hwf).and hdrop).bind fun s1 h1 => ?_
  obtain ⟨⟨hwf1, hsub⟩, h1, hfiles1, hok1, hsame⟩ := h1
  have hwf2 := addFile_new_wf m (f := .new (newPos conf m s) (savedNumber conf s m)) rfl hwf1
    fun hin => hmem (hsub m hin)
  generalize hs2 : ({ s1.setFile m (.new (newPos conf m s) (savedNumber conf s m)) with
    files := s1.files ++ [m] } : State Input) = s2 at hwf2 ⊢
  have hset := (Only.setFile m s1 (.new (newPos conf m s) (savedNumber conf s m))).beside
  have hb : Beside m s1 s2 := hs2 ▸ ⟨hset.disk, fun n hn => by simp [hn], hset.cache, hset.others, hset.notes⟩
  have hfile2 : s2.file m = .new (newPos conf m s) (savedNumber conf s m) := by simp [← hs2, State.setFile]
  have h2 : Following conf name i buf.length s2 ∧ CloseOk conf name s2 := by
    by_cases hm : name = m
    · subst hm
      have hpos : newPos conf name s = savedPos conf s name := by rw [newPos, (hown rfl).2]
      obtain rfl := hsame rfl
      refine ⟨hs2 ▸ hpos ▸ h1.insert hmem _, fun _ _ o ho => ?_⟩
      rw [hfile2] at ho
      cases ho
    · exact ⟨h1.beside hb hm hkey, hok1.of_file (by rw [← hs2]; rfl) (hb.others name hm)⟩
  refine ((checkClose_following hconf hwf2 h2.1 h2.2).and
    (checkClose_closed (by rw [hfile2]; rfl))).bind fun r hr => ?_
  obtain ⟨⟨h3, hfiles3⟩, hfile3⟩ := hr
  refine ((inputOpen_following hconf h3 _ (by simp [hfiles3, ← hs2]) ?_).and
    (inputOpen_beside conf m r.1 readfromlast _)).mono fun s' h' => ⟨h'.1, fun hm => ?_⟩
  · rintro rfl
    rw [hfile3, hfile2, newPos, (hown rfl).2]
    exact (hown rfl).1
  · rw [h'.2.files name hm, hfiles3, hb.files name hm, hfiles1]

theorem dropOthers_following (names : List Name) (hnames : ∀ n ∈ names, n ≠ m → name ≠ n ∧
    countKey n ≠ name) : Post (Following conf name i buf.length) (dropOthers conf m names s) := by
  induction names generalizing s with
  | nil => exact .ok h
  | cons n names ih =>
    have hrest := (forall_mem_cons.mp hnames).2
    apply Post.ite
    · intro hne
      obtain ⟨hn, hkey⟩ := hnames n mem_cons_self hne
      exact (dropFile_works conf n s).bind fun s1 h1 => ih (h.beside h1.beside hn hkey) hrest
    · exact fun _ => ih h hrest

include hconf hwf in
theorem addFile_following {single : Bool} (hkey : countKey m ≠ name) (hok : CloseOk conf name s)
    (hdupe : m ∉ s.files → dupeOf conf m s ≠ some name)
    (hown : m ∉ s.files → m = name → (readfromlast = false ∨ 0 < savedPos conf s name) ∧
      dupeOf conf name s = none)
    (hsingle : single = true → name ≠ m → name ∉ s.files) :
    Post (Following conf name i buf.length) (addFile conf m readfromlast single s) := by
  have hwild : Following conf name i buf.length { s with wildcard := !single } :=
    ⟨h.entry, h.clean, h.keys, h.known, h.saved⟩
  have hwf' : State.Wf conf { s with wildcard := !single } := hwf.keeps ⟨rfl, rfl, rfl, fun _ => rfl⟩ rfl
  have hadd : Post (fun s1 =>
    Following conf name i buf.length s1 ∧ (name ≠ m → (name ∈ s1.files ↔ name ∈ s.files)))
      (addUnknown conf m readfromlast { s with wildcard := !single }) := by
    apply Post.ite
    · exact fun _ => .ok ⟨hwild, fun _ => Iff.rfl⟩
    · exact fun hmem => addNew_following hconf hwf' hwild hmem hkey
        (hok.of_file (Nat.le_refl _) rfl) (hdupe hmem) (hown hmem)
  refine hadd.bind fun s1 h1 => ?_
  apply Post.ite
  · intro hs
    refine dropOthers_following h1.1 s1.files fun n hn hne => ⟨?_, h1.1.keys n hn⟩
    rintro rfl
    exact hsingle hs hne ((h1.2 hne).mp hn)
  · exact fun _ => .ok h1.1

/-! ### Stopping -/

include hconf in
theorem closeAll_following (names : List Name) (hnames : ∀ n ∈ names, n ∈ s.files) (hno : NoLine name s) :
    Post (fun s' => Following conf name i buf.length s' ∧ s'.files = s.files ∧ s'.disk = s.disk ∧
      ((s.file name).input = none ∨ name ∈ names → (s'.file name).input = none)) (closeAll conf names s) := by
  induction names generalizing s with
  | nil => exact .ok ⟨h, rfl, rfl, fun hor => hor.resolve_right not_mem_nil⟩
  | cons n names ih =>
    have hmem := hnames n mem_cons_self
    intro s' hs
    obtain ⟨s1, h1, hs1⟩ := bind_eq_ok.mp hs
    obtain ⟨s2, h2, hs'⟩ := bind_eq_ok.mp hs1
    have honly := (getFilepos_edits conf n s s1 h1).only.trans (inputClose_only conf n s1 s2 h2)
    have hclosed := inputClose_pos conf n s1 s2 h2
    have hrest : ∀ k ∈ names, k ∈ s2.files := fun k hk => honly.files ▸ hnames k (mem_cons_of_mem n hk)
    by_cases hne : name = n
    · subst hne
      obtain ⟨hr1, hinput⟩ := getFilepos_reads hconf (h.known hmem) s1 h1
      have hr2 := inputClose_reads hconf hr1 (fun o ho => hno o (hinput ▸ ho)) s2 h2
      have hno2 : NoLine name s2 := fun o ho => by
        rw [hclosed.1] at ho
        cases ho
      obtain ⟨h3, hfiles, hdisk, hend⟩ := ih (h.only honly hmem hr2) hrest hno2 s' hs'
      exact ⟨h3, hfiles.trans honly.files, hdisk.trans honly.disk, fun _ => hend (.inl hclosed.1)⟩
    · have hfile := honly.others name hne
      have hno2 : NoLine name s2 := fun o ho => hno o (hfile ▸ ho)
      obtain ⟨h3, hfiles, hdisk, hend⟩ := ih (h.beside honly.beside hne (h.keys n hmem)) hrest hno2 s' hs'
      refine ⟨h3, hfiles.trans honly.files, hdisk.trans honly.disk, fun hor => hend ?_⟩
      rw [hfile]
      exact hor.imp_right fun hin => (mem_cons.mp hin).resolve_left hne

include hconf hwf in
theorem stop_following (hsave : conf.savepos = true) (hok : name ∈ s.files → NoLine name s ∧
    s.disk.size i < 2 ^ 31) :
    Post (Following conf name i buf.length) (stop conf s) := by
  have hclosed : name ∉ s.files → (s.file name).input = none := fun hname => by
    have hopen : name ∉ s.open_files := fun hin => hname (hwf.known name hin)
    rw [hwf.inputs name] at hopen
    simpa using hopen
  have hno : NoLine name s := fun o ho => by
    by_cases hname : name ∈ s.files
    · exact (hok hname).1 o ho
    · rw [hclosed hname] at ho
      cases ho
  refine (closeAll_following hconf h s.open_files hwf.known hno).bind fun s1 h1 => .ok ?_
  obtain ⟨h1, hfiles, hdisk, hend⟩ := h1
  obtain ⟨cache, hfold, hcache⟩ := saveFiles_saved conf hsave s1.files s1
  replace hcache := (hcache name).1 h1.keys
  rw [hfold]
  refine ⟨h1.entry, h1.clean, nofun, nofun, fun _ => ?_⟩
  by_cases hname : name ∈ s1.files
  · obtain ⟨done, hd, hf⟩ := h1.known hname
    have hinput : (s1.file name).input = none := by
      refine hend ?_
      rw [hwf.inputs name]
      cases (s.file name).input with
      | none => exact .inl rfl
      | some o => exact .inr rfl
    have hsize := (hok (hfiles ▸ hname)).2
    rw [← hdisk] at hsize
    have hpos := hf.filepos
    have hle : ((s1.disk.data i).length : Int) < 2 ^ 31 := hsize
    refine ⟨done, ?_, hd⟩
    rw [← hf.closed hinput, savedPos, if_pos hsave]
    show ((cache name).map Int64.toInt).getD 0 = _
    rw [hcache, if_pos hname]
    exact (asInt_eq_iff hpos.1).mpr (by omega)
  · obtain ⟨done, hpos, hd⟩ := h1.saved hname
    refine ⟨done, ?_, hd⟩
    rw [← hpos]
    refine savedPos_of_cache ?_
    rw [← if_neg (c := name ∈ s1.files) (t := some (asInt (s1.file name).filepos)) (e := s1.cache name) hname]
    exact hcache

end Following

/-! ## Every run -/

variable (conf : Conf Input) (name : Name) (i : Nat)

/-- The file is only appended to and keeps its name, it is read from the beginning, it is read on
until the module is stopped, and that is with SavePos. -/
def Follows (s : State Input) : Event → Prop
  | .disk disk => disk.entry name = .inode i ∧ s.disk.data i <+: disk.data i
  | .addFile m readfromlast single =>
    if m = name then
      name ∉ s.files → (readfromlast = false ∨ 0 < savedPos conf s name) ∧ dupeOf conf name s = none
    else (single = true → name ∉ s.files) ∧ dupeOf conf m s ≠ some name
  | .stop => conf.savepos = true
  | _ => True

/-- No line is under way when the file is closed, its position fits into an `int` when it is saved
under a key of its own, and its text is one the reader reads as lines. -/
def LineKept (s : State Input) : Event → Prop
  | .disk disk => CleanText (disk.data i)
  | .readFirst => True
  | .readTurn => s.currsrc = some name → ReadOk conf name s
  | .checkFile _ => CloseOk conf name s
  | .addFile m _ _ => countKey m ≠ name ∧ CloseOk conf name s
  | .stop => name ∈ s.files → NoLine name s ∧ s.disk.size i < 2 ^ 31

variable {conf name i} {buf : Bytes}

theorem Reads.append (h : Reads name i buf.length s) {disk : Disk}
    (hdata : s.disk.data i <+: disk.data i) : Reads name i buf.length { s with disk := disk } := by
  obtain ⟨done, hd, hf⟩ := h
  obtain ⟨more, hmore⟩ := hdata
  have hlen : (disk.data i).length = (s.disk.data i).length + more.length := by rw [← hmore, length_append]
  have hpos := hf.filepos
  have hsize := hf.new_size
  refine ⟨done, hmore ▸ hd.append more, hf.inode, ?_, ?_, hf.closed, fun o ho => ?_⟩
  · show 0 ≤ (s.file name).filepos ∧ (s.file name).filepos ≤ (disk.data i).length
    omega
  · show (s.file name).new_size ≤ (disk.data i).length
    omega
  · obtain ⟨hinode, acc, ht⟩ := hf.opened o ho
    exact ⟨hinode, acc, hmore ▸ ht.append hd.le more⟩

theorem step_following (hconf : conf.inputfunc = lineInput buf) (hlim : buf.length < stringLimit)
    (hwf : s.Wf conf) (h : Following conf name i buf.length s) {e : Event} (hf : Follows conf name i s e)
    (hk : LineKept conf name i s e) : Post (Following conf name i buf.length) (s.step conf e) := by
  cases e with
  | disk disk =>
    refine .ok ⟨hf.1, hk, h.keys, fun hname => (h.known hname).append hf.2, fun hname => ?_⟩
    obtain ⟨done, hpos, hd⟩ := h.saved hname
    obtain ⟨more, hmore⟩ := hf.2
    exact ⟨done, hpos, hmore ▸ hd.append more⟩
  | readFirst =>
    refine .ok ?_
    split
    · exact ⟨h.entry, h.clean, h.keys, h.known, h.saved⟩
    · exact h
  | readTurn =>
    simp only [State.step]
    split
    · exact .ok h
    next n hcurr =>
    have hmem := hwf.known n (hwf.current n hcurr)
    by_cases hne : name = n
    · subst hne
      refine ((readTurn_reading conf name s).and
        (readTurn_reads hconf (h.known hmem) hlim h.clean (hk hcurr))).mono
        fun s' h' => ?_
      exact h.own h'.1.works.1.beside h'.1.works.2 hmem h'.2
    · exact (readTurn_reading conf n s).mono fun s' h' => h.beside h'.works.1.beside hne (h.keys n hmem)
  | checkFile n =>
    apply Post.ite
    · exact fun hmem => checkFile_following hconf hwf h hmem hk
    · exact fun _ => .ok h
  | addFile m readfromlast single =>
    by_cases hne : m = name
    · subst hne
      simp only [Follows, if_true] at hf
      refine addFile_following hconf hwf h hk.1 hk.2 (fun hmem => ?_) (fun hmem _ =>
        hf hmem) fun _ hm => absurd rfl hm
      rw [(hf hmem).2]
      intro ho
      cases ho
    · simp only [Follows, if_neg hne] at hf
      exact addFile_following hconf hwf h hk.1 hk.2 (fun _ => hf.2) (fun _ heq =>
        absurd heq hne) fun hs _ => hf.1 hs
  | stop => exact stop_following hconf hwf h hf hk

theorem start_following {disk : Disk} (hentry : disk.entry name = .inode i)
    (hclean : CleanText (disk.data i)) : Following conf name i buf.length (State.start disk) := by
  refine ⟨hentry, hclean, nofun, nofun, fun _ => ⟨0, ?_, ?_⟩⟩
  · simp [savedPos, State.start]
  · exact ⟨Nat.zero_le _, by simp [splitLines], by simp [texts, State.start, fileLines, splitLines]⟩

theorem Following.isPrefix (h : Following conf name i buf.length s) :
    texts name s.out <+: (fileLines (s.disk.data i)).map some := by
  by_cases hname : name ∈ s.files
  · obtain ⟨done, hd, -⟩ := h.known hname
    exact hd.isPrefix
  · obtain ⟨done, -, hd⟩ := h.saved hname
    exact hd.isPrefix

theorem Following.run (hconf : conf.inputfunc = lineInput buf) (hlim : buf.length < stringLimit)
    (hwf : s.Wf conf)
    (h : Following conf name i buf.length s) {events : List Event}
    (hfollows : AllSteps (State.step conf) (Follows conf name i) s events)
    (hkept : AllSteps (State.step conf) (LineKept conf name i) s events) :
    Always (State.step conf) (fun s =>
      texts name s.out <+: (fileLines (s.disk.data i)).map some) s events := by
  have hgood : Always (State.step conf) (fun s =>
    s.Wf conf ∧ Following conf name i buf.length s) s events := by
    refine always_of_step (fun s e s' h hc hs' => ?_) ⟨hwf, h⟩ (hfollows.and hkept)
    exact ⟨step_wf conf h.1 e s' hs', step_following hconf hlim h.1 h.2 hc.1 hc.2 s' hs'⟩
  exact hgood.mono fun s h => h.2.isPrefix

/-- The records of a file that grows are its first lines, in every state of a run in which no line
is under way when the file is closed. -/
theorem lines_in_order (hconf : conf.inputfunc = lineInput buf) (hlim : buf.length < stringLimit) {disk : Disk}
    (hentry : disk.entry name = .inode i) (hclean : CleanText (disk.data i)) {events : List Event}
    (hfollows : AllSteps (State.step conf) (Follows conf name i) (State.start disk) events)
    (hkept : AllSteps (State.step conf) (LineKept conf name i) (State.start disk) events) :
    Always (State.step conf) (fun s => texts name s.out <+: (fileLines (s.disk.data i)).map some)
    (State.start disk)
      events :=
  (start_following hentry hclean).run hconf hlim (start_wf conf disk) hfollows hkept

theorem lines_in_order_restart : ∃ s,
    run (State.step sampleConf) (State.start (sampleDisk 1 (ascii "x\n"))) restart = .ok s ∧
    texts (ascii "a") s.out = [some (ascii "x"), some (ascii "y")] ∧
    texts (ascii "a") s.out <+: (fileLines (s.disk.data 1)).map some := by
  have hadd : ∀ s, Follows sampleConf (ascii "a") 1 s (.addFile (ascii "a") false true) := fun s => by
    exact fun _ => ⟨.inl rfl, rfl⟩
  have hroom : ∀ s : State Input, s.open_files = [] →
    LineKept sampleConf (ascii "a") 1 s (.addFile (ascii "a") false true) := by
    intro s hopen
    refine ⟨by decide, fun hfull => ?_⟩
    rw [hopen] at hfull
    exact absurd hfull (by decide)
  have hread : ∀ s, LineKept sampleConf (ascii "a") 1 s .readTurn := fun s _ o _ hidle =>
    absurd hidle (by decide)
  have hfollows : AllSteps (State.step sampleConf) (Follows sampleConf (ascii "a") 1)
    (State.start (sampleDisk 1 (ascii "x\n"))) restart :=
    .cons rfl (hadd _) <| .cons rfl trivial <| .cons rfl trivial <| .cons rfl rfl <|
      .cons rfl ⟨rfl, prefix_append (ascii "x\n") (ascii "y\n")⟩ <| .cons rfl (hadd _) <|
        .cons rfl trivial <| .cons rfl trivial trivial
  have hkept : AllSteps (State.step sampleConf) (LineKept sampleConf (ascii "a") 1)
    (State.start (sampleDisk 1 (ascii "x\n"))) restart :=
    .cons rfl (hroom _ rfl) <| .cons rfl trivial <| .cons rfl (hread _) <|
      .cons rfl (fun _ => ⟨fun o ho => by cases ho; rfl, by decide⟩) <| .cons rfl ⟨by decide, by decide⟩ <|
      .cons rfl (hroom _ rfl) <| .cons rfl trivial <| .cons rfl (hread _) trivial
  have hout : (run (State.step sampleConf) (State.start (sampleDisk 1 (ascii "x\n"))) restart).map
    (fun s => texts (ascii "a") s.out) =
      .ok [some (ascii "x"), some (ascii "y")] := rfl
  obtain ⟨s, hs, hs'⟩ := map_eq_ok hout
  exact ⟨s, hs, hs', (lines_in_order (rfl : sampleConf.inputfunc = lineInput (replicate 8 0))
    (by decide) rfl ⟨by decide, by decide⟩ hfollows
    hkept).last hs⟩

/-- What is written of a line is read, the idle file is closed, and the rest of the line is
written. -/
def halfLine : List Event :=
  [.addFile (ascii "a") false true, .readFirst, .readTurn, .readTurn,
    .disk (sampleDisk 1 (ascii "xy\n")), .checkFile (ascii "a"), .readFirst,
    .readTurn]

/-- Of the line "xy" only "y" is delivered. -/
theorem half_line_lost :
    ¬ Always (State.step { sampleConf with closewhenidle := true })
      (fun s => texts (ascii "a") s.out <+: (fileLines (s.disk.data 1)).map some)
        (State.start (sampleDisk 1 (ascii "x"))) halfLine := by
  have hout : (run (State.step { sampleConf with closewhenidle := true })
    (State.start (sampleDisk 1 (ascii "x"))) halfLine).map
      (fun s => (s.disk.data 1, texts (ascii "a") s.out)) = .ok ((ascii "xy\n"), [some (ascii "y")]) := rfl
  obtain ⟨s, hs, hs'⟩ := map_eq_ok hout
  obtain ⟨hdata, htexts⟩ := Prod.ext_iff.mp hs'
  intro h
  have hprefix := h.last hs
  rw [show texts (ascii "a") s.out = _ from htexts, show s.disk.data 1 = _ from hdata] at hprefix
  revert hprefix
  decide

/-! ### A file that is truncated -/

/-- The file has become shorter than its position, and nothing that was read of it is left in the
buffer or in the context of the reader. -/
structure Truncated (buf : Bytes) (name : Name) (o : Opened Input) (s : State Input) : Prop where
  opened : (s.file name).input = some o
  blacklist : ¬ blacklisted (s.file name) s.disk.now
  shorter : (s.file name).truncated (s.disk.size o.inode)
  input : o.input.Wf ∧ o.input.bufsize = buf.length
  nothing : o.input.pending = [] ∧ o.input.ctx = none

section Shrinking

-- the buffer is not evaluated behind the bytes that are read
variable (rest : Bytes) {conf : Conf Input}
  (hconf : conf = { sampleConf with inputfunc := lineInput (0 :: 0 :: 0 :: 0 :: 0 :: 0 :: 0 :: rest) })
include hconf

variable (others : Name → FileInput Input) (cache : Name → Option Int64) (out : List Note)

end Shrinking

end Nxlog.L4.ImFile
