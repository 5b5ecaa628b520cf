import Nxlog.L4App.PmBuffer

/-!
# The chunk files as a queue

`Disk` is the part of the module that `pm_buffer_push_disk` and
`pm_buffer_pop_disk` work on. `DiskShape` says how it holds a list of records: the
chunks from `pop_id` to `push_id` are the frames of the records, of which the
first `consumed` have been read.

* `pushDisk_spec`: a push appends a record, over a rollover too.
* `popDisk_empty`, `popDisk_first`: a pop gives the oldest record, over the end of a
  chunk too, and nothing exactly if nothing is stored. No `ASSERT` fails.
-/
namespace Nxlog.L4
open L1 L2 Res List

/-! ## The disk part of the module -/

structure Disk where
  size : Int
  push_file : Bool
  push_count : Int
  push_id : Int
  push_limit : Int
  pop_file : Option Nat
  pop_id : Int
  pop_count : Int
  chunks : Chunks

def Pm.disk (s : Pm) : Disk :=
  ⟨s.buf.size, s.buf.push_file, s.buf.push_count, s.buf.push_id, s.buf.push_limit, s.buf.pop_file,
    s.buf.pop_id, s.buf.pop_count, s.chunks⟩

def Pm.withDisk (s : Pm) (d : Disk) : Pm :=
  { s with
    buf := { s.buf with
      size := d.size, push_file := d.push_file, push_count := d.push_count, push_id := d.push_id
      push_limit := d.push_limit, pop_file := d.pop_file, pop_id := d.pop_id, pop_count := d.pop_count }
    chunks := d.chunks }

/-- An `int` that does not overflow. -/
theorem int32_of_small {i : Int} (h0 : -2 ^ 31 ≤ i) (h1 : i < 2 ^ 31) : int32 i = i := by
  unfold int32
  rw [Int.bmod_def]
  omega

/-! ## Consecutive chunks -/

/-- The chunks from number `id` on hold the frames of the lists. -/
def ChunksFrom (chunks : Chunks) : Int → List (List Logdata) → Prop
  | _, [] => True
  | id, c :: cs => chunks id = some (c.flatMap framed) ∧ ChunksFrom chunks (id + 1) cs

variable {chunks : Chunks}

theorem chunksFrom_append {cs ds : List (List Logdata)} {id : Int} :
    ChunksFrom chunks id (cs ++ ds) ↔ ChunksFrom chunks id cs ∧ ChunksFrom chunks (id + cs.length) ds := by
  induction cs generalizing ds id with
  | nil => simp [ChunksFrom]
  | cons c cs ih =>
    have hid : id + 1 + (cs.length : Int) = id + ((c :: cs).length : Nat) := by
      rw [length_cons]; omega
    rw [cons_append, ChunksFrom, ChunksFrom, ih, hid, and_assoc]

/-- Other files do not matter. -/
theorem ChunksFrom.update {k : Int} (v : Option Bytes) {cs : List (List Logdata)} {id : Int}
    (h : ChunksFrom chunks id cs) (hk : k < id ∨ id + cs.length ≤ k) :
    ChunksFrom (Function.update chunks k v) id cs := by
  induction cs generalizing id with
  | nil => trivial
  | cons c cs ih =>
    rw [length_cons] at hk
    refine ⟨?_, ih h.2 (by omega)⟩
    rw [Function.update_of_ne (by omega)]
    exact h.1

/-! ## The shape of the files -/

/-- `P` is what is known of every record in the files, read or not. -/
structure DiskShape (P : Logdata → Prop) (d : Disk) (consumed ahead : List Logdata)
    (later : List (List Logdata)) :
    Prop where
  /-- the chunks from the one that is read to the one that is written -/
  files : ChunksFrom d.chunks d.pop_id ((consumed ++ ahead) :: later)
  others : ∀ id, id < d.pop_id ∨ d.push_id < id → d.chunks id = none
  ids : d.push_id = d.pop_id + later.length
  pop_pos : 0 < d.pop_id
  opened : d.push_file = true
  count : d.push_count = (later.getLastD (consumed ++ ahead)).length
  limit : 0 < d.push_limit ∧ d.push_limit < 2 ^ 31
  fits : ∀ c ∈ (consumed ++ ahead) :: later, (c.length : Int) ≤ d.push_limit
  nonempty : ∀ c ∈ later, c ≠ []
  all : ∀ c ∈ (consumed ++ ahead) :: later, ∀ x ∈ c, P x
  popped : d.pop_count = consumed.length
  position : d.pop_file.getD 0 = (consumed.flatMap framed).length
  size : d.size = (ahead ++ later.flatten).length
  small : (ahead ++ later.flatten).length < 2 ^ 31

/-- The records on disk that have not been read. -/
def DiskHolds (P : Logdata → Prop) (d : Disk) (stored : List Logdata) : Prop :=
  ∃ consumed ahead later, DiskShape P d consumed ahead later ∧ stored = ahead ++ later.flatten

theorem framed_flatMap_eq_nil {lds : List Logdata} (h : (lds.flatMap framed).length = 0) : lds = [] := by
  have := length_le_framed lds
  exact length_eq_zero_iff.mp (by omega)

/-! ## Writing -/

/-- The record is written to the last chunk. -/
def Disk.write (d : Disk) (ld : Logdata) : Disk :=
  { d with
    push_count := d.push_count + 1
    size := d.size + 1
    chunks := Function.update d.chunks d.push_id ((d.chunks d.push_id).map (· ++ framed ld)) }

/-- A new chunk is begun and the record written to it. -/
def Disk.writeNew (d : Disk) (ld : Logdata) : Disk :=
  { d with
    push_id := d.push_id + 1
    push_count := 1
    size := d.size + 1
    chunks := Function.update d.chunks (d.push_id + 1) (some (framed ld)) }

variable {P : Logdata → Prop} {d : Disk} {consumed ahead : List Logdata}
  {later : List (List Logdata)} {ld : Logdata}

variable {c : List Logdata}

/-- The chunk behind the chunks `l` becomes `c`: the one that was there, if any, and the record. -/
theorem DiskShape.last {l t : List (List Logdata)} (h : DiskShape P d consumed ahead (l ++ t))
    (ht : t.length ≤ 1)
    (hc : c = t.flatten ++ [ld]) (hfit : (c.length : Int) ≤ d.push_limit) (hP : P ld)
    (hsmall : (ahead ++ (l ++ t).flatten).length + 1 < 2 ^ 31) :
    DiskShape P
      { d with
        push_id := d.pop_id + (l.length + 1 : Nat)
        push_count := c.length
        size := d.size + 1
        chunks := Function.update d.chunks (d.pop_id + (l.length + 1 : Nat)) (some (c.flatMap framed)) }
      consumed ahead (l ++ [c]) := by
  have hids := h.ids
  rw [length_append] at hids
  have hfiles := h.files
  rw [← cons_append, chunksFrom_append] at hfiles
  refine ⟨?_, ?_, ?_, h.pop_pos, h.opened, ?_, h.limit, ?_, ?_, ?_, h.popped, h.position, ?_, ?_⟩
  · rw [← cons_append, chunksFrom_append]
    refine ⟨hfiles.1.update _ (.inr (Int.le_refl _)), ?_, trivial⟩
    exact Function.update_self ..
  · intro id hne
    show Function.update d.chunks _ _ id = none
    have hne' : id < d.pop_id ∨ d.pop_id + (l.length + 1 : Nat) < id := hne
    rw [Function.update_of_ne (by omega)]
    exact h.others id (by omega)
  · simp
  · simp
  · intro c' hc'
    rw [← cons_append, mem_append] at hc'
    rcases hc' with hc' | hc'
    · exact h.fits c' (by rw [← cons_append]; exact mem_append_left _ hc')
    · rw [mem_singleton.mp hc']
      exact hfit
  · intro c' hc'
    rcases mem_append.mp hc' with hc' | hc'
    · exact h.nonempty c' (mem_append_left _ hc')
    · rw [mem_singleton.mp hc', hc]
      simp
  · intro c' hc' x hx
    rw [← cons_append, mem_append] at hc'
    rcases hc' with hc' | hc'
    · exact h.all c' (by rw [← cons_append]; exact mem_append_left _ hc') x hx
    · rw [mem_singleton.mp hc', hc, mem_append, mem_flatten] at hx
      rcases hx with ⟨y, hy, hx⟩ | hx
      · exact h.all y (mem_cons_of_mem _ (mem_append_right _ hy)) x hx
      · rw [mem_singleton.mp hx]
        exact hP
  · show d.size + 1 = _
    rw [h.size, hc]
    simp
    omega
  · rw [hc]
    simp at hsmall ⊢
    omega

theorem DiskShape.write (h : DiskShape P d consumed ahead later)
    (hroom : d.push_count < d.push_limit) (hP : P ld)
    (hsmall : (ahead ++ later.flatten).length + 1 < 2 ^ 31) :
    DiskHolds P (d.write ld) ((ahead ++ later.flatten) ++ [ld]) := by
  have hcount := h.count
  rcases eq_nil_or_concat later with rfl | ⟨l, x, rfl⟩
  · -- the chunk that is written is the one that is read
    have hid : d.push_id = d.pop_id := by have := h.ids; simpa using this
    refine ⟨consumed, ahead ++ [ld], [], ?_, by simp⟩
    have hfile := h.files.1
    refine ⟨⟨?_, trivial⟩, ?_, h.ids, h.pop_pos, h.opened, ?_, h.limit, ?_,
      by simp, ?_, h.popped, h.position, ?_, ?_⟩
    · show Function.update d.chunks d.push_id _ d.pop_id = _
      rw [hid, Function.update_self, hfile]
      simp [flatMap_append]
    · intro id hne
      show Function.update d.chunks d.push_id _ id = none
      have hne' : id < d.pop_id ∨ d.push_id < id := hne
      rw [Function.update_of_ne (by omega)]
      exact h.others id hne'
    · show d.push_count + 1 = _
      rw [hcount]
      simp
      omega
    · intro c hc
      rw [mem_singleton.mp hc]
      show _ ≤ d.push_limit
      rw [hcount] at hroom
      simp at hroom ⊢
      omega
    · intro c hc x hx
      rw [mem_singleton.mp hc, ← append_assoc, mem_append] at hx
      rcases hx with hx | hx
      · exact h.all _ mem_cons_self x hx
      · rw [mem_singleton.mp hx]
        exact hP
    · show d.size + 1 = _
      rw [h.size]
      simp
    · simp at hsmall ⊢
      omega
  · rw [concat_eq_append] at h hcount hsmall ⊢
    have hlast : (l ++ [x]).getLastD (consumed ++ ahead) = x := by simp
    rw [hlast] at hcount
    have hids : d.push_id = d.pop_id + (l.length + 1 : Nat) := by simpa using h.ids
    have hfile : d.chunks d.push_id = some (x.flatMap framed) := by
      have hfiles := h.files
      rw [← cons_append, chunksFrom_append] at hfiles
      rw [hids]
      exact hfiles.2.1
    have hshape := h.last (Nat.le_refl 1) rfl (by simp; omega) hP hsmall
    refine ⟨consumed, ahead, l ++ [x ++ [ld]], ?_, by simp⟩
    rw [← hids] at hshape
    simpa [Disk.write, hfile, hcount] using hshape

theorem DiskShape.writeNew (h : DiskShape P d consumed ahead later) (hP : P ld)
    (hsmall : (ahead ++ later.flatten).length + 1 < 2 ^ 31) :
    DiskHolds P (d.writeNew ld) ((ahead ++ later.flatten) ++ [ld]) := by
  have hlimit := h.limit.1
  have hids : d.push_id + 1 = d.pop_id + (later.length + 1 : Nat) := by
    rw [h.ids]
    omega
  have hnil : later ++ [] = later := append_nil later
  rw [← hnil] at h hsmall
  have hshape := h.last (Nat.zero_le 1) rfl (by simp; omega) hP hsmall
  refine ⟨consumed, ahead, later ++ [[ld]], ?_, by simp⟩
  rw [← hids] at hshape
  simpa [Disk.writeNew] using hshape

variable {s : Pm}

/-- A push appends the record to those on disk. -/
theorem pushDisk_spec {stored : List Logdata} (h : DiskHolds P s.disk stored) (hrt : RoundTrips ld)
    (hP : P ld) (hsmall : stored.length + 1 < 2 ^ 31) :
    ∃ d', pushDisk s ld = .ok ((framed ld).length, s.withDisk d') ∧ DiskHolds P d' (stored ++ [ld]) := by
  obtain ⟨consumed, ahead, later, hs, rfl⟩ := h
  have hopen : s.buf.push_file = true := hs.opened
  have hsize : s.buf.size = (ahead ++ later.flatten).length := hs.size
  have h0 : (0 : Int) ≤ s.buf.size := by omega
  have hint : int32 (s.buf.size + 1) = s.buf.size + 1 := int32_of_small (by omega) (by omega)
  by_cases hfull : s.buf.push_limit ≤ s.buf.push_count
  · refine ⟨s.disk.writeNew ld, ?_, hs.writeNew hP hsmall⟩
    simp only [pushDisk, rollover, if_pos hfull, hopen, assert_true, ok_bind, pure_eq, openPush,
      Bool.false_eq_true, if_false, frameRecord_eq hrt, writeChunk, h0, decide_true, hint]
    simp [Pm.withDisk, Disk.writeNew, Pm.disk, hopen]
  · refine ⟨s.disk.write ld, ?_, hs.write (by show s.buf.push_count < s.buf.push_limit; omega) hP hsmall⟩
    simp only [pushDisk, rollover, if_neg hfull, ok_bind, pure_eq, openPush, hopen, if_true,
      frameRecord_eq hrt, writeChunk, h0, decide_true, assert_true, hint]
    simp [Pm.withDisk, Disk.write, Pm.disk, hopen]

/-! ## Reading -/

theorem readStored_framed (h : RoundTrips ld) (rest : Bytes) :
    readStored (encoded ld ++ rest) (encoded ld).length = .ok (reread ld, (encoded ld).length) := by
  have he := h.encodes
  have h2 := he.two_le
  have hne : encoded ld ++ rest ≠ [] := by
    intro hc
    rw [append_eq_nil_iff] at hc
    simp [hc.1] at h2
  rw [readStored, if_neg fun hc => hne hc.2]
  simp [he.read]

def Disk.openPop (d : Disk) : Disk := { d with pop_file := some (d.pop_file.getD 0) }

theorem DiskShape.openPop (h : DiskShape P d consumed ahead later) :
    DiskShape P d.openPop consumed ahead later :=
  ⟨h.files, h.others, h.ids, h.pop_pos, h.opened, h.count, h.limit, h.fits, h.nonempty, h.all,
    h.popped, h.position, h.size, h.small⟩

theorem openPop_eq (h : DiskShape P s.disk consumed ahead later) :
    openPop s = .ok (some (s.withDisk s.disk.openPop)) := by
  unfold openPop
  cases hf : s.buf.pop_file with
  | some p =>
    have hsame : s.withDisk s.disk.openPop = s := by
      have hpop : some (s.buf.pop_file.getD 0) = s.buf.pop_file := by rw [hf]; rfl
      show { s with buf := { s.buf with pop_file := some (s.buf.pop_file.getD 0) } } = s
      rw [hpop]
    rw [hsame]
  | none =>
    have hids : s.buf.push_id = s.buf.pop_id + later.length := h.ids
    have hpos : 0 < s.buf.pop_id := h.pop_pos
    have hpush : 0 < s.buf.push_id := by omega
    have hle : ¬ s.buf.push_id < s.buf.pop_id := by omega
    have hfile : s.chunks s.buf.pop_id = some ((consumed ++ ahead).flatMap framed) := h.files.1
    simp only [hpos, hpush, decide_true, assert_true, ok_bind, if_neg hle, openChunk, hfile, pure_eq]
    simp [Pm.withDisk, Pm.disk, Disk.openPop, hf]

theorem caughtUp_eq (h : DiskShape P s.disk consumed ahead later) :
    caughtUp s = .ok (decide (ahead ++ later.flatten = [])) := by
  have hids : s.buf.push_id = s.buf.pop_id + later.length := h.ids
  have hpop : s.buf.pop_count = consumed.length := h.popped
  have hcount : s.buf.push_count = (later.getLastD (consumed ++ ahead)).length := h.count
  unfold caughtUp
  cases later with
  | nil =>
    have hcount' : s.buf.push_count = consumed.length + ahead.length := by simpa using hcount
    have hle : s.buf.pop_count ≤ s.buf.push_count := by omega
    have hiff : s.buf.pop_count = s.buf.push_count ↔ ahead = [] := by
      rw [hpop, hcount', ← length_eq_zero_iff]
      omega
    rw [if_pos (by simpa using hids)]
    simp [hle, hiff]
  | cons c cs =>
    rw [length_cons] at hids
    have hlt : s.buf.pop_id < s.buf.push_id := by omega
    have hne := h.nonempty c mem_cons_self
    rw [if_neg (by omega)]
    simp [hlt, hne]

theorem chunkRest_eq (h : DiskShape P s.disk consumed ahead later) : chunkRest s = ahead.flatMap framed := by
  have hfile : s.chunks s.buf.pop_id = some ((consumed ++ ahead).flatMap framed) := h.files.1
  have hpos : s.buf.pop_file.getD 0 = (consumed.flatMap framed).length := h.position
  rw [chunkRest, hfile, hpos, Option.getD_some, flatMap_append, drop_left' rfl]

/-- The next chunk is open at its start, and the one before it is gone. -/
def Disk.next (d : Disk) : Disk :=
  { d with
    pop_file := some 0
    pop_id := d.pop_id + 1
    pop_count := 0
    chunks := Function.update d.chunks d.pop_id none }

theorem DiskShape.next (h : DiskShape P d consumed [] (c :: later)) :
    DiskShape P d.next [] c later where
  files := h.files.2.update _ (.inl (by omega))
  others := by
    intro id hne
    show Function.update d.chunks d.pop_id none id = none
    have hne' : id < d.pop_id + 1 ∨ d.push_id < id := hne
    by_cases hid : id = d.pop_id
    · rw [hid, Function.update_self]
    · rw [Function.update_of_ne hid]
      exact h.others id (by omega)
  ids := by
    have := h.ids
    rw [length_cons] at this
    show d.push_id = d.pop_id + 1 + _
    omega
  pop_pos := by
    have := h.pop_pos
    show 0 < d.pop_id + 1
    omega
  opened := h.opened
  count := by
    show d.push_count = _
    rw [h.count, getLastD_cons, nil_append]
  limit := h.limit
  fits := fun x hx => h.fits x (mem_cons_of_mem _ (by simpa using hx))
  nonempty := (forall_mem_cons.mp h.nonempty).2
  all := fun x hx => h.all x (mem_cons_of_mem _ (by simpa using hx))
  popped := rfl
  position := rfl
  size := by
    show d.size = _
    rw [h.size]
    simp
  small := by
    have := h.small
    simpa using this

theorem nextChunk_eq (h : DiskShape P s.disk consumed [] (c :: later)) :
    nextChunk s = .ok (s.withDisk s.disk.next) := by
  have hrest := chunkRest_eq h
  have hids : s.buf.push_id = s.buf.pop_id + (c :: later).length := h.ids
  rw [length_cons] at hids
  have hlt : s.buf.pop_id < s.buf.push_id := by omega
  have hfile : s.chunks (s.buf.pop_id + 1) = some (c.flatMap framed) := h.files.2.1
  have hnext : Function.update s.chunks s.buf.pop_id none (s.buf.pop_id + 1) = some (c.flatMap framed) := by
    rw [Function.update_of_ne (by omega), hfile]
  unfold nextChunk
  rw [if_pos (by rw [hrest]; rfl)]
  simp only [hlt, decide_true, assert_true, ok_bind, openChunk, hnext, pure_eq]
  simp [Pm.withDisk, Pm.disk, Disk.next]

/-- One record further in the chunk that is read. -/
def Disk.advance (d : Disk) (n : Nat) : Disk :=
  { d with pop_file := some (d.pop_file.getD 0 + n), pop_count := d.pop_count + 1, size := d.size - 1 }

theorem DiskShape.advance (h : DiskShape P d consumed (ld :: ahead) later) :
    DiskShape P (d.advance (framed ld).length) (consumed ++ [ld]) ahead later := by
  have heq : (consumed ++ [ld]) ++ ahead = consumed ++ ld :: ahead := by simp
  refine ⟨?_, h.others, h.ids, h.pop_pos, h.opened, ?_, h.limit, ?_, h.nonempty, ?_, ?_, ?_, ?_, ?_⟩
  · rw [heq]; exact h.files
  · rw [heq]; exact h.count
  · rw [heq]; exact h.fits
  · rw [heq]; exact h.all
  · show d.pop_count + 1 = _
    rw [h.popped]
    simp
  · show d.pop_file.getD 0 + _ = _
    rw [h.position]
    simp
  · show d.size - 1 = _
    rw [h.size]
    simp
  · have := h.small
    simp at this ⊢
    omega

theorem popRecord_eq (h : DiskShape P s.disk consumed (ld :: ahead) later) (hrt : RoundTrips ld)
    (hlen : (encoded ld).length < 2 ^ 32) :
    popRecord s = .ok ((framed ld).length, some (reread ld),
      s.withDisk (s.disk.advance (framed ld).length)) := by
  have hrest : chunkRest s = framed ld ++ ahead.flatMap framed := by rw [chunkRest_eq h, flatMap_cons]
  have hnat : leNat ((framed ld ++ ahead.flatMap framed).take 4) = (encoded ld).length := by
    rw [leNat_framed, Nat.mod_eq_of_lt hlen]
  have hsize : s.buf.size = ((ld :: ahead) ++ later.flatten).length := h.size
  have hsmall := h.small
  have hint : int32 (s.buf.size - 1) = s.buf.size - 1 := by
    rw [cons_append, length_cons] at hsize hsmall
    exact int32_of_small (by omega) (by omega)
  unfold popRecord
  rw [hrest, if_neg (framed_append_ne_nil _ _)]
  simp only [four_le_framed, decide_true, assert_true, ok_bind, framed_drop, hnat,
    readStored_framed hrt, pure_eq, hint]
  have hread : s.buf.pop_file.getD 0 + 4 + (encoded ld).length = s.buf.pop_file.getD 0 +
    (framed ld).length := by
    rw [framed_length]; omega
  rw [hread, Nat.add_comm (encoded ld).length, ← framed_length]
  rfl

/-- With nothing on disk a pop gives nothing. -/
theorem popDisk_empty (h : DiskHolds P s.disk []) :
    ∃ d', popDisk s = .ok (0, none, s.withDisk d') ∧ DiskHolds P d' [] := by
  obtain ⟨consumed, ahead, later, hs, hnil⟩ := h
  have hopen : DiskShape P (s.withDisk s.disk.openPop).disk consumed ahead later := hs.openPop
  refine ⟨s.disk.openPop, ?_, consumed, ahead, later, hopen, hnil⟩
  have hup := caughtUp_eq hopen
  rw [← hnil] at hup
  simp [popDisk, openPop_eq hs, hup]

/-- A pop gives the oldest record on disk. -/
theorem popDisk_first {rest : List Logdata} (h : DiskHolds P s.disk (ld :: rest))
    (hrt : RoundTrips ld) (hlen : (encoded ld).length < 2 ^ 32) :
    ∃ d', popDisk s = .ok ((framed ld).length, some (reread ld), s.withDisk d') ∧ DiskHolds P d' rest := by
  obtain ⟨consumed, ahead, later, hs, hstored⟩ := h
  have hopen : DiskShape P (s.withDisk s.disk.openPop).disk consumed ahead later := hs.openPop
  have hup := caughtUp_eq hopen
  rw [← hstored] at hup
  cases ahead with
  | cons x ahead =>
    -- the record is in the chunk that is read
    rw [cons_append, cons.injEq] at hstored
    obtain ⟨rfl, rfl⟩ := hstored
    refine ⟨_, ?_, consumed ++ [ld], ahead, later, hopen.advance, rfl⟩
    have hne : chunkRest (s.withDisk s.disk.openPop) ≠ [] := by
      rw [chunkRest_eq hopen, flatMap_cons]
      exact framed_append_ne_nil _ _
    have hnext : nextChunk (s.withDisk s.disk.openPop) = .ok (s.withDisk s.disk.openPop) := by
      rw [nextChunk, if_neg hne]
    simp [popDisk, openPop_eq hs, hup, hnext, popRecord_eq hopen hrt hlen]
    rfl
  | nil =>
    -- the chunk is at its end, and the record is the first of the next one
    cases later with
    | nil => simp at hstored
    | cons c later =>
      cases c with
      | nil => exact absurd rfl (hs.nonempty [] mem_cons_self)
      | cons x c =>
        have hcons : ld = x ∧ rest = c ++ later.flatten := by simpa using hstored
        obtain ⟨rfl, rfl⟩ := hcons
        have hn : DiskShape P ((s.withDisk s.disk.openPop).withDisk
          (s.withDisk s.disk.openPop).disk.next).disk []
            (ld :: c) later := hopen.next
        refine ⟨_, ?_, [] ++ [ld], c, later, hn.advance, rfl⟩
        simp [popDisk, openPop_eq hs, hup, nextChunk_eq hopen, popRecord_eq hn hrt hlen]
        rfl

end Nxlog.L4
