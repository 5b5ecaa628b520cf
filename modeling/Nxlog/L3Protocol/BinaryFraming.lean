import Nxlog.Core.Run
import Nxlog.L3Protocol.Input

/-!
# The binary transport (`common/writerfuncs.c`, `common/readerfuncs.c`)

The writer puts a header, the length and the serialized record into the output
buffer. The reader looks for the header at the front of the pending bytes and
decodes a record once all of it has been received; until then it keeps the
bytes, moved to the front of the buffer where they would otherwise run into its
end.

`Link` is a sender's byte stream and the input that receives it. One `deliver`
receives some more bytes and calls the reader until it returns `NULL`.

* `frame`: the bytes of one record on the wire (`binaryWriter_eq`).
* `binaryReader_whole`, `binaryReader_partial`: the reader on the front of a
  stream of frames, with the whole of the next frame or with a part of it.
* `binary_framing`: however the stream is cut, the records arrive in order, and
  there is room in the buffer as long as there is anything left to receive.
-/
namespace Nxlog.L3
open L1 L2 Input Res List

def binaryHeader : Bytes := [0, 78, 88, 0]

/-! ## The writer -/

/-- mirrors common/writerfuncs.c:61-91 (`nx_module_output_func_binarywriter`):
the contents of the output buffer, or `none` if the record is dropped. -/
def binaryWriter (bufsize : Nat) (logdata : Logdata) : Res (Option Bytes) := do
  let memsize ← logdataSerializedSize logdata
  if memsize + 8 > bufsize then return none
  else do
    let r ← logdataToMembuf logdata memsize
    let enc := r.getD []
    Res.assert (enc.length = memsize) "memsize_got == memsize"
    return some (binaryHeader ++ (leBytes 4 (memsize % 2 ^ 32) ++ enc))

def writeAll (bufsize : Nat) : List Logdata → Res Bytes
  | [] => .ok []
  | ld :: lds => do
    let r ← binaryWriter bufsize ld
    let rest ← writeAll bufsize lds
    return r.getD [] ++ rest

/-! ## The reader -/

/-- `memcmp(buf + o, NX_LOGDATA_BINARY_HEADER, 4) == 0`. -/
def headerAt (buf : Bytes) (o : Nat) : Res Bool := do
  let bs ← rdBytes buf o 4
  return bs = binaryHeader

/-- The test in the loops that look for the next header. -/
def headerWithin (buf : Bytes) (bufstart buflen : Nat) : Res Bool :=
  if 4 ≤ buflen then headerAt buf bufstart else .ok false

/-- `for ( ; buflen > 0; buflen--, bufstart++ )`: the number of bytes skipped. -/
def skipToHeader (buf : Bytes) : Nat → Nat → Res Nat
  | 0, _ => .ok 0
  | buflen + 1, bufstart => do
    let found ← headerWithin buf bufstart (buflen + 1)
    if found then return 0
    else do
      let n ← skipToHeader buf buflen (bufstart + 1)
      return n + 1

def Input.resync (input : Input) : Res Input := do
  let n ← skipToHeader input.buf input.buflen.toNat input.bufstart
  return input.advance n

/-- common/readerfuncs.c:223-240. -/
def findHeader (input : Input) : Res Input := do
  let found ← headerAt input.buf input.bufstart
  if found then return input else input.resync

/-- common/readerfuncs.c:256-278: decode behind the header. `buflen` is cast to
`apr_size_t`; an exception is caught and the rest searched for a header. -/
def readBody (input : Input) : Res (Option Logdata × Input) :=
  let input := input.advance 8
  let size := (input.buflen % 2 ^ 64).toNat
  match logdataFromMembuf (input.buf.drop input.bufstart) size with
  | .ok (logdata, len) => do
    Res.assert (len ≤ size) "len <= (apr_size_t) input->buflen"
    return (some logdata, input.advance len)
  | .error (.throw _) => do
    let input ← input.resync
    return (none, input)
  | .error e => .error e

/-- mirrors common/readerfuncs.c:201-290 (`nx_module_input_func_binaryreader`):
the record, if any, and the input. `datalen + 8` is a 32-bit sum. -/
def binaryReader (input : Input) : Res (Option Logdata × Input) := do
  Res.assert (0 ≤ input.buflen) "input->buflen >= 0"
  Res.assert input.ctx.isNone "input->ctx == NULL"
  if input.buflen < 8 then
    if input.bufstart + input.buflen = input.bufsize then return (none, input.moveToFront)
    else return (none, input)
  else do
    let input ← findHeader input
    if input.buflen = 0 then return (none, input)
    else do
      let datalen ← rdLe input.buf (input.bufstart + 4) 4
      if (datalen + 8) % 2 ^ 32 > input.bufsize then
        return (none, { input with bufstart := 0, buflen := 0 })
      else if ((datalen + 8) % 2 ^ 32 : Nat) ≤ input.buflen then readBody input
      else if 0 < input.bufstart then return (none, input.moveToFront)
      else return (none, input)

/-- A receiving input, the bytes on the way to it and the records it has read. -/
structure Link where
  input : Input
  stream : Bytes
  received : List Logdata

def Link.start (mem stream : Bytes) : Link := ⟨Input.fresh mem, stream, []⟩

def Link.deliver (l : Link) (n : Nat) : Res Link := do
  let k := min n l.input.prepare.roomLeft
  let (lds, input) ← l.input.feed binaryReader (l.stream.take k)
  return ⟨input, l.stream.drop k, l.received ++ lds⟩

/-! ## Frames -/

def frame (ld : Logdata) : Bytes := binaryHeader ++ (leBytes 4 (encoded ld).length ++ encoded ld)

theorem frame_length (ld : Logdata) : (frame ld).length = 8 + (encoded ld).length := by
  simp [frame, binaryHeader]; omega

/-- A record that survives the codec and fits a buffer of `bufsize` bytes. -/
structure Fits (bufsize : Nat) (ld : Logdata) : Prop where
  roundTrips : RoundTrips ld
  size : (frame ld).length ≤ bufsize

theorem binaryWriter_eq {bufsize : Nat} {ld : Logdata} (h : Fits bufsize ld)
    (hlt : (frame ld).length < 2 ^ 32) :
    binaryWriter bufsize ld = .ok (some (frame ld)) := by
  have he := h.roundTrips.encodes
  have hs := h.size
  rw [frame_length] at hs hlt
  simp only [binaryWriter, he.size, ok_bind]
  rw [if_neg (by omega), he.write]
  simp only [ok_bind, Option.getD_some, decide_true, assert_true, pure_eq]
  rw [Nat.mod_eq_of_lt (by omega), frame]

theorem writeAll_eq {bufsize : Nat} (lds : List Logdata)
    (h : ∀ ld ∈ lds, Fits bufsize ld ∧ (frame ld).length < 2 ^ 32) :
    writeAll bufsize lds = .ok (lds.flatMap frame) := by
  induction lds with
  | nil => rfl
  | cons ld lds ih =>
    obtain ⟨hf, hlt⟩ := h ld mem_cons_self
    rw [writeAll, binaryWriter_eq hf hlt, ih (forall_mem_cons.mp h).2]
    rfl

/-- No encoding is the front of another: a record is told from any other, whatever follows them. -/
theorem self_delimiting {x y : Logdata} {t u : Bytes} (hx : RoundTrips x) (hy : RoundTrips y)
    (h : encoded x ++ t = encoded y ++ u) : x.content = y.content ∧ t = u := by
  have hread := logdataFromMembuf_mono (t := t) (Nat.le_add_right _ (encoded y).length) hx.encodes.read
  rw [h, logdataFromMembuf_mono (Nat.le_add_left ..) hy.encodes.read, Except.ok.injEq, Prod.mk.injEq] at hread
  obtain ⟨hrec, hlen⟩ := hread
  rw [← hx.content, ← hy.content, hrec]
  exact ⟨rfl, (append_inj h hlen.symm).2⟩

/-- Two records that differ in where their strings are. -/
theorem self_delimiting_addresses : sampleRecord 5 ≠ sampleRecord 9 ∧
    (sampleRecord 5).content = (sampleRecord 9).content ∧ [(7 : UInt8)] = [7] :=
  ⟨by decide, self_delimiting (sampleRecord_encodable 5).roundTrips
    (sampleRecord_encodable 9).roundTrips rfl⟩

/-! ## The reader on a stream of frames -/

section Reader

variable {input : Input} {ld : Logdata} {stream rest : Bytes}

/-- With less than eight bytes there is no header yet. -/
theorem binaryReader_short (hw : input.Wf) (hc : input.ctx = none) (h8 : input.buflen < 8) :
    ∃ input', binaryReader input = .ok (none, input') ∧ input'.Wf ∧ input'.pending = input.pending ∧
      input'.ctx = none ∧ input'.bufsize = input.bufsize ∧
      (input.buflen < input.bufsize → input'.bufstart + input'.buflen < input'.bufsize) := by
  have hr := hw.room
  obtain ⟨hmw, hmp⟩ := hw.moveToFront
  rw [binaryReader, hc]
  simp only [hw.nonneg, decide_true, Option.isNone_none, assert_true, ok_bind]
  rw [if_pos h8]
  by_cases hend : input.bufstart + input.buflen = input.bufsize
  · rw [if_pos hend]
    refine ⟨_, rfl, hmw, hmp, hc, rfl, fun hlt => ?_⟩
    show ((0 : Nat) : Int) + input.buflen < input.bufsize
    omega
  · rw [if_neg hend]
    exact ⟨_, rfl, hw, rfl, hc, rfl, fun _ => by omega⟩

/-- With eight bytes of a frame received, its header and length are in place. -/
theorem drop_bufstart_frame (h8 : 8 ≤ input.pending.length) (hp : input.pending ++ stream = frame ld ++ rest) :
    ∃ t, input.buf.drop input.bufstart = binaryHeader ++ (leBytes 4 (encoded ld).length ++ t) := by
  have htake : input.pending.take 8 = binaryHeader ++ leBytes 4 (encoded ld).length := by
    have := congrArg (take 8) hp
    rw [take_append_of_le_length h8] at this
    rw [this, frame, ← append_assoc binaryHeader, append_assoc _ (encoded ld)]
    exact take_left' (by simp [binaryHeader])
  refine ⟨input.pending.drop 8 ++ input.buf.drop (input.bufstart + input.buflen.toNat), ?_⟩
  rw [input.drop_bufstart, ← append_assoc, ← append_assoc, ← htake, take_append_drop]

/-- The reader then comes to the comparison of the length with what was received. -/
theorem binaryReader_header (stream : Bytes) (hw : input.Wf) (hc : input.ctx = none)
    (h8 : 8 ≤ input.pending.length)
    (hp : input.pending ++ stream = frame ld ++ rest) (hfit : (frame ld).length ≤ input.bufsize)
    (hint : input.bufsize < 2 ^ 31) :
    binaryReader input =
      if (frame ld).length ≤ input.buflen then readBody input
      else if 0 < input.bufstart then .ok (none, input.moveToFront) else .ok (none, input) := by
  obtain ⟨t, ht⟩ := drop_bufstart_frame h8 hp
  have hn := hw.nonneg
  have hl := hw.pending_length
  have hr := hw.room
  have hs := hw.size
  have hfl := frame_length ld
  have hle : input.bufstart ≤ input.buf.length := by omega
  have hhdr : headerAt input.buf input.bufstart = .ok true := by
    have := rdBytes_drop ht hle
    simp only [binaryHeader, length_cons, length_nil] at this
    rw [headerAt, this]
    rfl
  have hlen : rdLe input.buf (input.bufstart + 4) 4 = .ok (encoded ld).length := by
    refine rdLe_drop (drop_of_drop ht) ?_ (by omega)
    show input.bufstart + 4 ≤ _
    omega
  have hmod : ((encoded ld).length + 8) % 2 ^ 32 = (frame ld).length := by
    rw [Nat.mod_eq_of_lt (by omega)]; omega
  rw [binaryReader, hc]
  simp only [hn, decide_true, Option.isNone_none, assert_true, ok_bind]
  rw [if_neg (by omega), findHeader, hhdr]
  simp only [ok_bind, if_true, pure_eq]
  rw [if_neg (by omega), hlen]
  simp only [ok_bind]
  rw [hmod, if_neg (by omega)]

/-- All of the next frame is there: its record is returned, and it is consumed. -/
theorem binaryReader_whole (hw : input.Wf) (hc : input.ctx = none)
    (hp : input.pending = frame ld ++ rest) (hrt : RoundTrips ld) (hint : input.bufsize < 2 ^ 31) :
    binaryReader input = .ok (some (reread ld), input.advance (frame ld).length) := by
  have hl := hw.pending_length
  have hr := hw.room
  have hfl := frame_length ld
  have hpl : input.pending.length = (frame ld).length + rest.length := by rw [hp, length_append]
  rw [binaryReader_header [] hw hc (by omega) (by rw [append_nil, hp]) (by omega) hint,
    if_pos (by omega), readBody]
  -- the record is decoded from the bytes behind the header, whatever follows them
  have hmem : (input.advance 8).buf.drop (input.advance 8).bufstart =
      encoded ld ++ (rest ++ input.buf.drop (input.bufstart + input.buflen.toNat)) := by
    show input.buf.drop (input.bufstart + 8) = _
    refine drop_of_drop (a := binaryHeader ++ leBytes 4 (encoded ld).length) ?_
    rw [input.drop_bufstart, hp, frame]
    simp only [append_assoc]
  have hsize : ((input.advance 8).buflen % 2 ^ 64).toNat = (encoded ld).length + rest.length := by
    show ((input.buflen - (8 : Nat)) % 2 ^ 64).toNat = _
    omega
  have hdec := logdataFromMembuf_mono
    (t := rest ++ input.buf.drop (input.bufstart + input.buflen.toNat))
    (show (encoded ld).length ≤ (encoded ld).length + rest.length by omega) hrt.encodes.read
  rw [hmem, hsize, hdec]
  simp only [Nat.le_add_right, decide_true, assert_true, ok_bind, pure_eq]
  have hadv : (input.advance 8).advance (encoded ld).length = input.advance (frame ld).length := by
    simp only [Input.advance, hfl, Input.mk.injEq, true_and, and_true]
    omega
  rw [hadv]

/-- Only a part of the next frame is there, or nothing: the pending bytes are
kept, with room behind them. -/
theorem binaryReader_partial (hw : input.Wf) (hc : input.ctx = none)
    (hp : input.pending ++ stream = frame ld ++ rest) (hlt : input.pending.length < (frame ld).length)
    (hfit : (frame ld).length ≤ input.bufsize) (hint : input.bufsize < 2 ^ 31) :
    ∃ input', binaryReader input = .ok (none, input') ∧ input'.Wf ∧ input'.pending = input.pending ∧
      input'.ctx = none ∧ input'.bufsize = input.bufsize ∧ input'.bufstart + input'.buflen <
      input'.bufsize := by
  have hl := hw.pending_length
  have hr := hw.room
  by_cases h8 : input.buflen < 8
  · obtain ⟨input', hread, hw', hp', hc', hs', hroom⟩ := binaryReader_short hw hc h8
    exact ⟨input', hread, hw', hp', hc', hs', hroom (by omega)⟩
  rw [binaryReader_header stream hw hc (by omega) hp hfit hint, if_neg (by omega)]
  by_cases h0 : 0 < input.bufstart
  · obtain ⟨hmw, hmp⟩ := hw.moveToFront
    rw [if_pos h0]
    refine ⟨_, rfl, hmw, hmp, hc, rfl, ?_⟩
    show ((0 : Nat) : Int) + input.buflen < input.bufsize
    omega
  · rw [if_neg h0]
    exact ⟨_, rfl, hw, rfl, hc, rfl, by omega⟩

end Reader

/-! ## The link -/

/-- Between two deliveries: the bytes pending and to come are the frames of the
records `left`, of which the first is incomplete and has room to be completed. -/
structure Between (bufsize : Nat) (input : Input) (stream : Bytes) (left : List Logdata) : Prop where
  wf : input.Wf
  ctx : input.ctx = none
  size : input.bufsize = bufsize
  bytes : input.pending ++ stream = left.flatMap frame
  cut : ∀ ld ∈ left.head?, input.pending.length < (frame ld).length ∧
    input.bufstart + input.buflen < input.bufsize

/-- Reading takes the complete frames off the front. -/
theorem readAll_frames {bufsize : Nat} (hint : bufsize < 2 ^ 31) {stream : Bytes}
    (left : List Logdata) (fuel : Nat) (input : Input) (hfits : ∀ ld ∈ left, Fits bufsize ld)
    (hw : input.Wf) (hc : input.ctx = none) (hs : input.bufsize = bufsize)
    (hp : input.pending ++ stream = left.flatMap frame) (hf : input.buflen < fuel) :
    ∃ done left' input', left = done ++ left' ∧ readAll binaryReader fuel input =
      .ok (done.map reread, input') ∧ Between bufsize input' stream left' := by
  induction left generalizing fuel input with
  | nil =>
    obtain ⟨hpend, -⟩ := append_eq_nil_iff.mp hp
    have hl := hw.pending_length
    rw [hpend, length_nil] at hl
    obtain ⟨input', hr, hw', hp', hc', hs', -⟩ := binaryReader_short hw hc (by omega)
    obtain ⟨fuel, rfl⟩ : ∃ k, fuel = k + 1 := ⟨fuel - 1, by have := hw.nonneg; omega⟩
    refine ⟨[], [], input', rfl, by rw [readAll, hr]; rfl, hw', hc', hs'.trans hs, ?_, by simp⟩
    rw [hp', hp]
  | cons ld left ih =>
    have hfit := hfits ld mem_cons_self
    obtain ⟨fuel, rfl⟩ : ∃ k, fuel = k + 1 := ⟨fuel - 1, by have := hw.nonneg; omega⟩
    rw [flatMap_cons] at hp
    by_cases hlt : input.pending.length < (frame ld).length
    · obtain ⟨input', hr, hw', hp', hc', hs', hroom⟩ :=
        binaryReader_partial hw hc hp hlt (hs ▸ hfit.size) (hs ▸ hint)
      refine ⟨[], ld :: left, input', rfl, by rw [readAll, hr]; rfl, hw', hc', hs'.trans hs, ?_, ?_⟩
      · rw [hp', hp, flatMap_cons]
      · intro x hx
        obtain rfl : ld = x := by simpa using hx
        exact ⟨by rw [hp']; exact hlt, hroom⟩
    · -- the whole frame is pending
      obtain ⟨more, hmore⟩ : frame ld <+: input.pending :=
        prefix_of_prefix_length_le ⟨_, hp.symm⟩ (prefix_append _ _) (by omega)
      have hrest : more ++ stream = left.flatMap frame := by
        rw [← hmore, append_assoc] at hp
        exact append_cancel_left hp
      have hread := binaryReader_whole hw hc hmore.symm hfit.roundTrips (hs ▸ hint)
      have hle : (frame ld).length ≤ input.pending.length := by omega
      obtain ⟨haw, hap⟩ := hw.advance hle
      rw [← hmore, drop_left' rfl] at hap
      have hfl := frame_length ld
      obtain ⟨done, left', input', rfl, hall, hbetween⟩ := ih fuel (input.advance (frame ld).length)
        (forall_mem_cons.mp hfits).2 haw hc hs (by rw [hap, hrest])
        (by show input.buflen - ((frame ld).length : Int) < fuel; omega)
      refine ⟨ld :: done, left', input', rfl, ?_, hbetween⟩
      rw [readAll, hread]
      simp only [ok_bind, hall, pure_eq, map_cons]

/-- The records received so far, and what is still to be read. -/
def Link.Good (bufsize : Nat) (records : List Logdata) (l : Link) : Prop :=
  ∃ done left, records = done ++ left ∧ l.received = done.map reread ∧ Between bufsize l.input l.stream left

variable {bufsize : Nat} {records : List Logdata} {l : Link}

/-- As long as bytes are to come, there is room for them. -/
theorem Link.Good.room (h : l.Good bufsize records) (hne : l.stream ≠ []) : 0 < l.input.prepare.roomLeft := by
  obtain ⟨done, left, -, -, hb⟩ := h
  cases left with
  | nil => exact absurd (append_eq_nil_iff.mp hb.bytes).2 hne
  | cons ld left => exact Input.roomLeft_prepare (hb.cut ld rfl).2 hb.wf.nonneg

/-- When no more bytes are to come, all records have been received. -/
theorem Link.Good.complete (h : l.Good bufsize records) (hnil : l.stream = []) :
    l.received = records.map reread := by
  obtain ⟨done, left, rfl, hrec, hb⟩ := h
  cases left with
  | nil => rw [hrec, append_nil]
  | cons ld left =>
    have hcut := (hb.cut ld rfl).1
    have := congrArg length hb.bytes
    rw [hnil, append_nil, flatMap_cons, length_append] at this
    omega

theorem Link.deliver_good (hint : bufsize < 2 ^ 31) (hfits : ∀ ld ∈ records, Fits bufsize ld)
    (h : l.Good bufsize records) (n : Nat) :
    ∃ l', l.deliver n = .ok l' ∧ l'.Good bufsize records ∧
      l'.stream.length = l.stream.length - min n l.input.prepare.roomLeft := by
  obtain ⟨done, left, rfl, hrec, hb⟩ := h
  obtain ⟨hw, hp⟩ := hb.wf.fill (show (l.stream.take (min n l.input.prepare.roomLeft)).length ≤ _ by
    rw [length_take]; omega)
  obtain ⟨done', left', input', rfl, hall, hbetween⟩ := readAll_frames hint left
    ((l.input.fill (l.stream.take (min n l.input.prepare.roomLeft))).buflen.toNat + 1) _
    (fun x hx => hfits x (mem_append_right _ hx)) hw (by rw [fill_ctx]; exact hb.ctx)
    (by rw [fill_bufsize]; exact hb.size)
    (show _ ++ l.stream.drop (min n l.input.prepare.roomLeft) = left.flatMap frame by
      rw [hp, append_assoc, take_append_drop, hb.bytes])
    (by have := hw.nonneg; omega)
  refine ⟨⟨input', l.stream.drop (min n l.input.prepare.roomLeft), l.received ++ done'.map reread⟩, ?_, ?_, ?_⟩
  · rw [Link.deliver, feed, hall]
    rfl
  · exact ⟨done ++ done', left', by rw [append_assoc], by rw [hrec, map_append], hbetween⟩
  · exact length_drop

theorem Link.start_good {mem : Bytes} (hfits : ∀ ld ∈ records, Fits mem.length ld) :
    (Link.start mem (records.flatMap frame)).Good mem.length records := by
  refine ⟨[], records, rfl, rfl, Input.fresh_wf mem, rfl, rfl, ?_, ?_⟩
  · rw [Link.start, Input.fresh_pending, nil_append]
  intro ld hld
  have hsize := (hfits ld (mem_of_mem_head? hld)).size
  have hfl := frame_length ld
  rw [Link.start, Input.fresh_pending]
  refine ⟨by rw [length_nil]; omega, ?_⟩
  show ((0 : Nat) : Int) + 0 < (mem.length : Int)
  omega

theorem map_reread_content (h : ∀ ld ∈ records, Fits bufsize ld) :
    (records.map reread).map Logdata.content = records.map Logdata.content := by
  rw [map_map]
  apply map_congr_left
  intro ld hld
  exact (h ld hld).roundTrips.content

/-- Records that survive the codec and fit the reader's buffer `mem` arrive in
order, however the bytes the writer produced are cut into deliveries: what has
been received is always the front of the sequence, no delivery fails, there is
room in the buffer as long as bytes are to come, and once every byte has been
delivered all records are there. -/
theorem binary_framing (mem : Bytes) (osize : Nat) (records : List Logdata)
    (hint : mem.length < 2 ^ 31) (ho : mem.length ≤ osize) (hrt : ∀ ld ∈ records, RoundTrips ld)
    (hsize : ∀ ld ∈ records, ∃ datalen, logdataSerializedSize ld = .ok datalen ∧
    8 + datalen ≤ mem.length) : ∃ stream, writeAll osize records = .ok stream ∧
      (∀ ns : List Nat, ∃ l, run Link.deliver (Link.start mem stream) ns = .ok l ∧
        (∃ k, l.received.map Logdata.content = (records.take k).map Logdata.content) ∧
        (l.stream ≠ [] → 0 < l.input.prepare.roomLeft) ∧
        (l.stream = [] → l.received.map Logdata.content = records.map Logdata.content)) ∧
      (∀ ns : List Nat, (∀ n ∈ ns, 0 < n) → stream.length ≤ ns.length →
        ∃ l, run Link.deliver (Link.start mem stream) ns = .ok l ∧
          l.received.map Logdata.content = records.map Logdata.content) := by
  have hfits : ∀ ld ∈ records, Fits mem.length ld := by
    intro ld hld
    obtain ⟨n, hn, hle⟩ := hsize ld hld
    rw [(hrt ld hld).encodes.size] at hn
    cases hn
    exact ⟨hrt ld hld, by rw [frame_length]; exact hle⟩
  refine ⟨records.flatMap frame, ?_, ?_, ?_⟩
  · apply writeAll_eq
    intro ld hld
    have hs := (hfits ld hld).size
    exact ⟨⟨hrt ld hld, by omega⟩, by omega⟩
  · intro ns
    obtain ⟨l, hrun, hgood⟩ := run_of_step (P := Link.Good mem.length records) (A := fun _ => True)
      (fun l n hl _ => by
        obtain ⟨l', h1, h2, -⟩ := Link.deliver_good hint hfits hl n
        exact ⟨l', h1, h2⟩)
      (Link.start_good hfits) (fun n (_ : n ∈ ns) => trivial)
    refine ⟨l, hrun, ?_, hgood.room, ?_⟩
    · obtain ⟨done, left, rfl, hrec, -⟩ := hgood
      refine ⟨done.length, ?_⟩
      rw [hrec, take_left' rfl]
      exact map_reread_content fun x hx => hfits x (mem_append_left _ hx)
    · intro hnil
      rw [hgood.complete hnil]
      exact map_reread_content hfits
  · intro ns hpos hlen
    -- every delivery of at least one byte makes the rest of the stream shorter
    obtain ⟨l, hrun, hgood, hleft⟩ := run_exhausts (P := Link.Good mem.length records)
      (A := fun n => 0 < n) (μ := fun l => l.stream.length)
      (fun l n hl hn => by
        obtain ⟨l', h1, h2, h3⟩ := Link.deliver_good hint hfits hl n
        refine ⟨l', h1, h2, ?_⟩
        by_cases hnil : l.stream = []
        · rw [h3, hnil]; simp
        · have := hl.room hnil
          omega)
      (Link.start_good hfits) hpos
    have hnil : l.stream = [] := by
      apply length_eq_zero_iff.mp
      have : (Link.start mem (records.flatMap frame)).stream.length = (records.flatMap frame).length := rfl
      omega
    refine ⟨l, hrun, ?_⟩
    rw [hgood.complete hnil]
    exact map_reread_content hfits

/-- Two records, received byte by byte into a buffer of 64. -/
theorem binary_framing_two_records :
    ∃ stream l, writeAll 65000 [sampleRecord 5, logdataNew] = .ok stream ∧
      run Link.deliver (Link.start (List.replicate 64 0) stream) (List.replicate stream.length 1) =
        .ok l ∧
      l.received.map Logdata.content = [sampleRecord 5, logdataNew].map Logdata.content := by
  obtain ⟨stream, hwrite, -, hall⟩ := binary_framing (replicate 64 0) 65000
    [sampleRecord 5, logdataNew] (by decide) (by decide)
    (by simp [(sampleRecord_encodable 5).roundTrips, logdataNew_encodable.roundTrips])
    (by simp [sampleRecord_size, logdataNew_size])
  obtain ⟨l, hrun, hrec⟩ := hall (replicate stream.length 1)
    (by intro n hn; rw [eq_of_mem_replicate hn]; exact Nat.one_pos)
    (Nat.le_of_eq length_replicate.symm)
  exact ⟨stream, l, hwrite, hrun, hrec⟩

end Nxlog.L3
